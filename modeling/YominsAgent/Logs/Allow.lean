import YominsAgent.Go.Path
import YominsAgent.Go.Utf8

/- The allow list (`allow.go`): `Allowed` and the regexps its globs are turned into.

   Correspondence (Go ↔ Lean):
     `globRegexp`            ↔ `globRegexp`, the pieces of the regexp in order
     `(*Regexp).MatchString` ↔ `matchString`
   The loop of `globRegexp` goes over the bytes of the glob, and `string(c)` of a byte is the
   character of that number, so a character outside ASCII becomes several others. -/
namespace YominsAgent.Logs
open Go

/-- A piece of the regexp of a glob. -/
inductive GlobPiece where
  /-- `.*`, which stops at a newline. -/
  | anyPath
  /-- `[^/]*`. -/
  | anySegment
  /-- `[^/]`. -/
  | anyChar
  | lit (c : Char)
  deriving DecidableEq, Repr

/-- The loop of `globRegexp`. -/
def globPieces : Bytes → List GlobPiece
  | [] => []
  | 0x2A :: 0x2A :: g => .anyPath :: globPieces g
  | 0x2A :: g => .anySegment :: globPieces g
  | 0x3F :: g => .anyChar :: globPieces g
  | c :: g => .lit (Char.ofNat c.toNat) :: globPieces g

def globRegexp (g : Str) : List GlobPiece := globPieces (toBytes g)

/-- `p*` and then `k`, up to the end of the text. -/
def matchStar (p : Char → Bool) (k : Str → Bool) : Str → Bool
  | [] => k []
  | c :: s => k (c :: s) || (p c && matchStar p k s)

/-- The pieces between `^` and `$` match the whole text. -/
def matchString : List GlobPiece → Str → Bool
  | [], s => s.isEmpty
  | .anyPath :: re, s => matchStar (· != '\n') (matchString re) s
  | .anySegment :: re, s => matchStar (· != '/') (matchString re) s
  | .anyChar :: re, s =>
    match s with
    | [] => false
    | c :: s => c != '/' && matchString re s
  | .lit d :: re, s =>
    match s with
    | [] => false
    | c :: s => c == d && matchString re s

/-- `Allowed`. -/
def allowed (path : Str) (allow : List Str) : Bool :=
  allow.any fun g => matchString (globRegexp g) (clean path)

/-- `DefaultAllow`. -/
def defaultAllow : List Str :=
  ["/var/log/**", "/home/*/logs/**", "/home/*/log/**", "/var/www/**/logs/**",
    "/var/www/**/log/**", "/var/www/**/*.log", "/srv/**/*.log", "/opt/**/*.log",
    "/var/lib/docker/containers/*/*-json.log", "/var/lib/mysql/*.err",
    "/var/lib/mysql/*slow*.log"].map String.toList

end YominsAgent.Logs
