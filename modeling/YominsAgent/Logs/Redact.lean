import YominsAgent.Go.Regexp

/- Masking secrets in log lines (`redact.go`).

   Four rules mask pairs with a secret key, Authorization headers, bearer tokens and credentials in
   URLs, one after the other; patterns of the configuration follow; last, what looks like a card
   number and passes the Luhn check is masked. A rule with a hint is skipped when the hint does not
   see its words in the lower-cased line, which is computed once from the line as it came.

   Correspondence (Go ↔ Lean):
     `defaultRedactRules`                 ↔ `defaultRedactRules`, its rules by name:
                                            `authorization`, `bearer`, `keyValue`,
                                            `credentials`
     `redactRule`                         ↔ `RedactRule`; `repl` and `fn` are what
                                            they make of a match
     `reCardCandidate`                    ↔ `cardCandidate`
     `regexp.Compile` of a configured one ↔ the parameter `compile` -/
namespace YominsAgent.Logs
open Go Lib

def mask : Str := "***".toList

structure RedactRule where
  re : Regex Char
  repl : Match Char → Str
  hint : Option (Str → Bool)

def hasAny (words : List Str) (lower : Str) : Bool := words.any (contains lower)

/-! ## The patterns -/

def blank : Regex Char := .set isBlankChar
def blanks : Regex Char := .star true blank

/-- `["']?` -/
def quoteMark : Regex Char := .opt (anyOf ['"', '\''])

/-- `["']?\s*[=:]\s*["']?`: what stands between a key and its value. -/
def assign : Regex Char :=
  .seq quoteMark (.seq blanks (.seq (anyOf ['=', ':']) (.seq blanks quoteMark)))

/-- `[^\s"',;}&]`: what a value is made of. -/
def isValueChar (c : Char) : Bool :=
  !(isBlankChar c || c == '"' || c == '\'' || c == ',' || c == ';' || c == '}' || c == '&')

def schemes : Regex Char :=
  .oneOf [word "bearer".toList, word "basic".toList, word "digest".toList, word "token".toList]

/-- `(?i)(authorization["']?\s*[=:]\s*["']?)(?:(bearer|basic|digest|token)\s+)?([^\s"',;}&]+)` -/
def authorizationRe : Regex Char :=
  .seq (.group 1 (.seq (word "authorization".toList) assign))
    (.seq (.opt (.seq (.group 2 schemes) (.plus blank))) (.group 3 (.plus (.set isValueChar))))

/-- `[A-Za-z0-9._~+/=-]` under `(?i)`. -/
def isTokenChar (c : Char) : Bool :=
  c.isAlphanum || c == '.' || c == '_' || c == '~' || c == '+' || c == '/' || c == '=' || c == '-' ||
    c == longS || c == kelvin

/-- `(?i)\b(bearer)\s+[A-Za-z0-9._~+/=-]{8,}` -/
def bearerRe : Regex Char :=
  .seq wordBoundary (.seq (.group 1 (word "bearer".toList)) (.seq (.plus blank)
    (.seq (.times (.set isTokenChar) 8) (.star true (.set isTokenChar)))))

/-- `[?&\s,;{"']` -/
def isDelimiter (c : Char) : Bool :=
  c == '?' || c == '&' || isBlankChar c || c == ',' || c == ';' || c == '{' || c == '"' || c == '\''

/-- `[_-]?` -/
def dash : Regex Char := .opt (anyOf ['_', '-'])

def secretKey : Regex Char :=
  .oneOf [.seq (word "pass".toList) (.opt (.oneOf [word "word".toList, word "wd".toList])),
    word "pwd".toList, word "secret".toList, word "token".toList, word "access_token".toList,
    word "refresh_token".toList, word "id_token".toList,
    .seq (word "api".toList) (.seq dash (word "key".toList)), word "apikey".toList,
    .seq (word "session".toList) (.opt (word "id".toList)),
    .seq (word "private".toList) (.seq dash (word "key".toList)), word "client_secret".toList,
    .seq (word "card".toList) (.opt (.seq (.opt (anyOf ['_'])) (word "number".toList))),
    word "cvv".toList, word "cvc".toList]

/-- What stands before the value of a secret key. -/
def keyValueFront : Regex Char := .seq (.alt beginText (.set isDelimiter)) (.seq secretKey assign)

/-- `(?i)((?:^|[?&\s,;{"'])(?:pass(?:word|wd)?|…|cvc)["']?\s*[=:]\s*["']?)([^&\s"',;}]+)` -/
def keyValueRe : Regex Char :=
  .seq (.group 1 keyValueFront) (.group 2 (.plus (.set isValueChar)))

/-- `[a-zA-Z0-9+.-]` -/
def isSchemeChar (c : Char) : Bool := c.isAlphanum || c == '+' || c == '.' || c == '-'

/-- `[^/\s:@]` -/
def isUserChar (c : Char) : Bool := !(c == '/' || isBlankChar c || c == ':' || c == '@')

/-- `[^@\s/]` -/
def isPassChar (c : Char) : Bool := !(c == '@' || isBlankChar c || c == '/')

/-- `[a-zA-Z][a-zA-Z0-9+.-]*://[^/\s:@]+:` -/
def credentialsFront : Regex Char :=
  .seq (.set Char.isAlpha) (.seq (.star true (.set isSchemeChar))
    (.seq (anyOf [':']) (.seq (anyOf ['/']) (.seq (anyOf ['/'])
      (.seq (.plus (.set isUserChar)) (anyOf [':']))))))

/-- `([a-zA-Z][a-zA-Z0-9+.-]*://[^/\s:@]+:)[^@\s/]+@` -/
def credentialsRe : Regex Char :=
  .seq (.group 1 credentialsFront) (.seq (.plus (.set isPassChar)) (anyOf ['@']))

def digit : Regex Char := .set Char.isDigit

/-- `\d[ -]?` -/
def digitSep : Regex Char := .seq digit (.opt (anyOf [' ', '-']))

/-- `\b(?:\d[ -]?){12,18}\d\b` -/
def cardCandidate : Regex Char :=
  .seq wordBoundary (.seq (.times digitSep 12) (.seq (.upTo digitSep 6) (.seq digit wordBoundary)))

/-! ## The rules -/

/-- `fn` of the first rule, on what `FindStringSubmatch` finds in the match; the
scheme stays. A match is found in itself, so the last case does not occur. -/
def maskCredential (m : Match Char) : Str :=
  match authorizationRe.find [] m.text with
  | some m =>
    if m.group 2 ≠ [] then m.group 1 ++ m.group 2 ++ ' ' :: mask else m.group 1 ++ mask
  | none => []

def authorization : RedactRule where
  re := authorizationRe
  repl := maskCredential
  hint := some (hasAny ["authorization".toList])

def bearer : RedactRule where
  re := bearerRe
  repl m := m.group 1 ++ ' ' :: mask
  hint := some (hasAny ["bearer".toList])

/-- The words the hint of the key and value rule looks for. -/
def secretWords : List Str :=
  ["pass".toList, "pwd".toList, "secret".toList, "token".toList, "key".toList, "session".toList,
    "card".toList, "cvv".toList, "cvc".toList]

def keyValue : RedactRule where
  re := keyValueRe
  repl m := m.group 1 ++ mask
  hint := some (hasAny secretWords)

def credentials : RedactRule where
  re := credentialsRe
  repl m := m.group 1 ++ mask ++ ['@']
  hint := some fun lower => contains lower "://".toList && contains lower ['@']

def defaultRedactRules : List RedactRule := [authorization, bearer, keyValue, credentials]

/-- A configured pattern: the whole match is masked. -/
def extraRule (re : Regex Char) : RedactRule := ⟨re, fun _ => mask, none⟩

structure Redactor where
  rules : List RedactRule

/-- `NewRedactor`: `none` when a pattern does not compile. -/
def newRedactor (compile : Str → Option (Regex Char)) (extra : List Str) : Option Redactor :=
  (extra.mapM compile).map fun res => ⟨defaultRedactRules ++ res.map extraRule⟩

/-! ## Card numbers -/

/-- The state of the loop of `hasDigitRun`: the digits of the present run, and
whether its last character is a separator. -/
def digitRun (n : Nat) : Nat → Bool → Str → Bool
  | _, _, [] => false
  | run, sep, c :: s =>
    if c.isDigit then n ≤ run + 1 || digitRun n (run + 1) false s
    else if (c == ' ' || c == '-') && run > 0 && !sep then digitRun n run true s
    else digitRun n 0 false s

def hasDigitRun (s : Str) (n : Nat) : Bool := digitRun n 0 false s

/-- The sum `luhn` makes of the digits from the last to the first; every second
one is doubled. -/
def luhnSum : Bool → Str → Nat
  | _, [] => 0
  | double, c :: s =>
    let d := c.toNat - '0'.toNat
    let d := if double then (if d * 2 > 9 then d * 2 - 9 else d * 2) else d
    d + luhnSum (!double) s

def luhn (digits : Str) : Bool := luhnSum false digits.reverse % 10 == 0

/-- What the card pass makes of a candidate. -/
def maskCard (m : Str) : Str :=
  let digits := m.filter Char.isDigit
  if 13 ≤ digits.length && digits.length ≤ 19 && luhn digits then mask else m

/-- The last step of `Redact`. -/
def maskCards (s : Str) : Str :=
  if !hasDigitRun s 13 then s else cardCandidate.replaceAll (fun m => maskCard m.text) s

/-! ## Redact -/

def RedactRule.apply (rule : RedactRule) (s : Str) : Str := rule.re.replaceAll rule.repl s

/-- Whether the rule's hint, if it has one, sees its words. -/
def RedactRule.runs (rule : RedactRule) (lower : Str) : Bool :=
  match rule.hint with
  | some hint => hint lower
  | none => true

def RedactRule.hinted (rule : RedactRule) (lower : Str) (s : Str) : Str :=
  if rule.runs lower then rule.apply s else s

def Redactor.redact (r : Redactor) (s : Str) : Str :=
  let lower := toLower s
  maskCards (r.rules.foldl (fun s rule => rule.hinted lower s) s)

/-- The redactor without patterns of the configuration. -/
def defaultRedactor : Redactor := ⟨defaultRedactRules⟩

end YominsAgent.Logs
