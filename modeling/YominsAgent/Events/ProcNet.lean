import YominsAgent.Events.Network
import YominsAgent.Go.Json
import YominsAgent.Go.Utf8

/- The addresses of `/proc/net/tcp` and `/proc/net/tcp6`
   (`events/network/proc_net.go`, `parseAddr`).

   The kernel prints each 32-bit word of an address as a number of its host, so on a
   little-endian one the bytes of a word come in reverse.

   Correspondence (Go ↔ Lean):
     `net.IP.String`                ↔ the parameter `ipString`
     `hex.DecodeString`             ↔ `hexDecode`
     `strconv.ParseUint(s, 16, 16)` ↔ `parseUint16`
     `binary.LittleEndian.Uint32`, `binary.BigEndian.PutUint32`
                                    ↔ `littleEndian32`, `bigEndian32`
     `%08X`, `%04X` of the kernel   ↔ `hexDigits`
   The errors are dropped by the caller, so they are `none` here. -/
namespace YominsAgent.Events
open Go Go.Json List Option

def hexDecode : Str → Option Bytes
  | [] => some []
  | [_] => none
  | a :: b :: s => do
    let x ← hexVal a
    let y ← hexVal b
    let bs ← hexDecode s
    some (UInt8.ofNat (16 * x + y) :: bs)

/-- The value of hexadecimal digits. -/
def hexNumber : Nat → Str → Option Nat
  | n, [] => some n
  | n, c :: s => (hexVal c).bind fun d => hexNumber (16 * n + d) s

def parseUint16 (s : Str) : Option UInt16 :=
  if s.isEmpty then none
  else (hexNumber 0 s).bind fun n => if n < 2 ^ 16 then some (UInt16.ofNat n) else none

def littleEndian32 : Bytes → Nat
  | [a, b, c, d] => a.toNat + 2 ^ 8 * b.toNat + 2 ^ 16 * c.toNat + 2 ^ 24 * d.toNat
  | _ => 0

def bigEndian32 (n : Nat) : Bytes :=
  [UInt8.ofNat (n / 2 ^ 24), UInt8.ofNat (n / 2 ^ 16), UInt8.ofNat (n / 2 ^ 8), UInt8.ofNat n]

def parseAddr (ipString : Bytes → Str) (isIPv6 : Bool) (hexAddr : Str) : Option (Str × UInt16) :=
  match splitN [':'] 2 hexAddr with
  | [addr, port] => do
    let portNum ← parseUint16 port
    let b ← hexDecode addr
    if !isIPv6 then
      match b with
      | [b₀, b₁, b₂, b₃] => some (ipString [b₃, b₂, b₁, b₀], portNum)
      | _ => none
    else if b.length ≠ 16 then none
    else
      let ordered := (List.range 4).flatMap fun i =>
        bigEndian32 (littleEndian32 ((b.drop (4 * i)).take 4))
      some (ipString ordered, portNum)
  | _ => none

/-! ## What the kernel prints -/

def hexDigitUpper (n : Nat) : Char := "0123456789ABCDEF".toList.getD n '0'

def hexDigits : Nat → Nat → Str
  | 0, _ => []
  | width + 1, n => hexDigits width (n / 16) ++ [hexDigitUpper (n % 16)]

/-- An address and a port in the line of a socket: each word as a number of the host. -/
def kernelAddr (addr : Bytes) (port : UInt16) : Str :=
  ((List.range (addr.length / 4)).flatMap fun i =>
    hexDigits 8 (littleEndian32 ((addr.drop (4 * i)).take 4))) ++ ':' :: hexDigits 4 port.toNat

theorem hexVal_upper : ∀ n < 16, hexVal (hexDigitUpper n) = some n := by decide

theorem upper_ne_colon : ∀ n < 16, hexDigitUpper n ≠ ':' := by decide

theorem colon_not_mem_hexDigits (width n : Nat) : ':' ∉ hexDigits width n := by
  induction width generalizing n with
  | zero => exact nofun
  | succ width ih =>
    rw [hexDigits, mem_append, mem_singleton, not_or]
    exact ⟨ih _, (upper_ne_colon _ (Nat.mod_lt _ (by decide))).symm⟩

theorem hexNumber_concat (n : Nat) (s : Str) (c : Char) :
    hexNumber n (s ++ [c]) = (hexNumber n s).bind fun m => (hexVal c).map (16 * m + ·) := by
  induction s generalizing n with
  | nil => simp [hexNumber, map_eq_bind]
  | cons d s ih => simp [hexNumber, ih, bind_assoc]

theorem hexNumber_hexDigits (width : Nat) {n : Nat} (h : n < 16 ^ width) :
    hexNumber 0 (hexDigits width n) = some n := by
  induction width generalizing n with
  | zero =>
    cases Nat.lt_one_iff.mp h
    rfl
  | succ width ih =>
    have hdiv : n / 16 < 16 ^ width := by
      omega
    rw [hexDigits, hexNumber_concat, ih hdiv, bind_some,
      hexVal_upper _ (Nat.mod_lt _ (by decide)), map_some]
    congr 1
    omega

theorem parseUint16_hexDigits (port : UInt16) : parseUint16 (hexDigits 4 port.toNat) = some port := by
  have hlt := port.toNat_lt
  rw [parseUint16, hexNumber_hexDigits 4 hlt]
  simp [hexDigits, hlt]

theorem hexDecode_byte (b : UInt8) (s : Str) :
    hexDecode (hexDigitUpper (b.toNat / 16) :: hexDigitUpper (b.toNat % 16) :: s) =
      (hexDecode s).map (b :: ·) := by
  have hb := b.toNat_lt
  have hval : UInt8.ofNat (16 * (b.toNat / 16) + b.toNat % 16) = b := by
    rw [Nat.div_add_mod, UInt8.ofNat_toNat]
  rw [hexDecode, hexVal_upper _ (by omega), hexVal_upper _ (by omega)]
  simp only [bind_eq_bind, bind_some, hval, map_eq_bind, Function.comp_def]

/-- The bytes of an address in hexadecimal, one after the other. -/
def hexIP (bs : Bytes) : Str :=
  bs.flatMap fun b => [hexDigitUpper (b.toNat / 16), hexDigitUpper (b.toNat % 16)]

theorem hexDecode_hexIP (bs : Bytes) : hexDecode (hexIP bs) = some bs := by
  induction bs with
  | nil => rfl
  | cons b bs ih => exact (hexDecode_byte b (hexIP bs)).trans (congrArg (·.map (b :: ·)) ih)

theorem hexDecode_word (a b c d : UInt8) (s : Str) :
    hexDecode (hexDigits 8 (littleEndian32 [a, b, c, d]) ++ s) =
      (hexDecode s).map ([d, c, b, a] ++ ·) := by
  have ha := a.toNat_lt
  have hb := b.toNat_lt
  have hc := c.toNat_lt
  have hd := d.toNat_lt
  have hdigits : hexDigits 8 (littleEndian32 [a, b, c, d]) = hexIP [d, c, b, a] := by
    simp only [hexDigits, littleEndian32, hexIP, List.flatMap_cons, List.flatMap_nil, List.nil_append,
      List.cons_append, List.append_nil, List.cons.injEq]
    refine ⟨?_, ?_, ?_, ?_, ?_, ?_, ?_, ?_, trivial⟩ <;> congr 1 <;> omega
  rw [hdigits]
  simp only [hexIP, List.flatMap_cons, List.flatMap_nil, List.cons_append, List.nil_append,
    hexDecode_byte, Option.map_map]
  rfl

theorem swap_word (a b c d : UInt8) : bigEndian32 (littleEndian32 [d, c, b, a]) = [a, b, c, d] := by
  have hbyte : ∀ (n : Nat) (x : UInt8), n % 256 = x.toNat → UInt8.ofNat n = x := by
    intro n x h
    rw [← UInt8.toNat_inj, UInt8.toNat_ofNat', ← h]
  have ha := a.toNat_lt
  have hb := b.toNat_lt
  have hc := c.toNat_lt
  have hd := d.toNat_lt
  simp only [bigEndian32, littleEndian32, cons.injEq]
  exact ⟨hbyte _ _ (by omega), hbyte _ _ (by omega), hbyte _ _ (by omega), hbyte _ _ (by omega),
    trivial⟩

/-! ## Reading it back -/

def Proto.addrLen : Proto → Nat
  | .tcp => 4
  | .tcp6 => 16

theorem exists_word {addr : Bytes} {n : Nat} (h : addr.length = 4 + n) :
    ∃ a b c d rest, addr = a :: b :: c :: d :: rest ∧ rest.length = n := by
  rcases addr with _ | ⟨a, _ | ⟨b, _ | ⟨c, _ | ⟨d, rest⟩⟩⟩⟩
  all_goals simp only [length_nil, length_cons] at h
  case cons.cons.cons.cons => exact ⟨a, b, c, d, rest, rfl, by omega⟩
  all_goals omega

theorem parseAddr_kernelAddr (ipString : Bytes → Str) (p : Proto) {addr : Bytes}
    (h : addr.length = p.addrLen) (port : UInt16) :
    parseAddr ipString (p = .tcp6) (kernelAddr addr port) = some (ipString addr, port) := by
  have hsplit : splitN [':'] 2 (kernelAddr addr port) =
      [(range (addr.length / 4)).flatMap fun i =>
        hexDigits 8 (littleEndian32 ((addr.drop (4 * i)).take 4)), hexDigits 4 port.toNat] := by
    refine (splitN_cons_iff (by simp)).mpr ⟨_, fun hmem => ?_, rfl, rfl⟩
    obtain ⟨i, -, hi⟩ := mem_flatMap.mp hmem
    exact colon_not_mem_hexDigits _ _ hi
  rw [parseAddr, hsplit]
  simp only [parseUint16_hexDigits]
  cases p with
  | tcp =>
    obtain ⟨a, b, c, d, rest, rfl, hrest⟩ := exists_word (n := 0) h
    cases length_eq_zero_iff.mp hrest
    have hword := hexDecode_word a b c d []
    rw [append_nil] at hword
    simp [hword, hexDecode]
  | tcp6 =>
    obtain ⟨a0, b₀, c0, d0, r0, rfl, h0⟩ := exists_word (n := 12) h
    obtain ⟨a1, b₁, c1, d1, r1, rfl, h1⟩ := exists_word (n := 8) h0
    obtain ⟨a2, b₂, c2, d2, r2, rfl, h2⟩ := exists_word (n := 4) h1
    obtain ⟨a3, b₃, c3, d3, r3, rfl, h3⟩ := exists_word (n := 0) h2
    cases length_eq_zero_iff.mp h3
    have hword := hexDecode_word a3 b₃ c3 d3 []
    rw [append_nil] at hword
    simp [range_succ, hexDecode_word, hword, hexDecode, swap_word]

/-! ## What is refused -/

/-- Hexadecimal digits for an address of the protocol, and behind the first colon a
hexadecimal number of 16 bits. -/
def WellFormedAddr (p : Proto) (s : Str) : Prop :=
  ∃ addr port, s = addr ++ ':' :: port ∧ ':' ∉ addr ∧
    addr.length = 2 * p.addrLen ∧ (∀ c ∈ addr, (hexVal c).isSome = true) ∧
    port ≠ [] ∧ ∃ n < 2 ^ 16, hexNumber 0 port = some n

theorem hexDecode_eq_some {s : Str} {bs : Bytes} (h : hexDecode s = some bs) :
    s.length = 2 * bs.length ∧ ∀ c ∈ s, (hexVal c).isSome = true := by
  fun_induction hexDecode s generalizing bs with
  | case1 =>
    cases h
    exact ⟨rfl, nofun⟩
  | case2 => cases h
  | case3 a b s ih =>
    simp only [bind_eq_bind, bind_eq_some_iff, some_inj] at h
    obtain ⟨x, hx, y, hy, rest, hrest, rfl⟩ := h
    obtain ⟨hlen, hhex⟩ := ih hrest
    refine ⟨by simp only [length_cons]; omega, ?_⟩
    rw [forall_mem_cons, forall_mem_cons, hx, hy]
    exact ⟨rfl, rfl, hhex⟩

theorem wellFormed_of_parseAddr {ipString : Bytes → Str} {p : Proto} {s : Str} {r : Str × UInt16}
    (h : parseAddr ipString (p = .tcp6) s = some r) : WellFormedAddr p s := by
  rw [parseAddr] at h
  split at h
  · next addr port hsplit =>
    obtain ⟨t, haddr, hs, hport⟩ := (splitN_cons_iff (by simp)).mp hsplit
    cases hport
    simp only [bind_eq_bind, bind_eq_some_iff] at h
    obtain ⟨portNum, hnum, b, hb, h⟩ := h
    obtain ⟨hlen, hhex⟩ := hexDecode_eq_some hb
    have hblen : b.length = p.addrLen := by
      cases p with
      | tcp =>
        simp only [reduceCtorEq, decide_false, Bool.not_false, if_true] at h
        split at h
        · rfl
        · cases h
      | tcp6 =>
        simp only [decide_true, Bool.not_true, Bool.false_eq_true, if_false] at h
        split at h
        · cases h
        · next h16 => exact not_not.mp h16
    rw [parseUint16] at hnum
    split at hnum
    · cases hnum
    next hne =>
    obtain ⟨n, hn, hfit⟩ := bind_eq_some_iff.mp hnum
    split at hfit
    · next hlt =>
      exact ⟨addr, port, hs, haddr, hblen ▸ hlen, hhex, by simpa using hne, n, hlt, hn⟩
    · cases hfit
  · cases h

/-- The kernel's rendering is read back, listeners that differ have different keys, and a
text of another form is refused. -/
theorem parseAddr_spec (ipString : Bytes → Str) :
    (∀ (p : Proto) (addr : Bytes) (port : UInt16), addr.length = p.addrLen →
      parseAddr ipString (p = .tcp6) (kernelAddr addr port) = some (ipString addr, port)) ∧
    ((∀ a b : Bytes, a.length = b.length → ipString a = ipString b → a = b) →
      ∀ (p q : Proto) (a b : Bytes) (x y : UInt16), a.length = p.addrLen → b.length = q.addrLen →
        (p, a, x) ≠ (q, b, y) →
        (ListenEntry.mk p (ipString a) x).key ≠ (ListenEntry.mk q (ipString b) y).key) ∧
    ∀ (p : Proto) (s : Str), ¬ WellFormedAddr p s → parseAddr ipString (p = .tcp6) s = none := by
  refine ⟨fun p addr port h => parseAddr_kernelAddr ipString p h port, ?_, ?_⟩
  · intro hinj p q a b x y ha hb hne hkey
    obtain ⟨rfl, hip, rfl⟩ := ListenEntry.mk.inj (ListenEntry.key_inj hkey)
    exact hne (by rw [hinj a b (ha.trans hb.symm) hip])
  · intro p s hbad
    cases hr : parseAddr ipString (p = .tcp6) s with
    | none => rfl
    | some r => exact absurd (wellFormed_of_parseAddr hr) hbad

theorem local_key_differs : (ListenEntry.mk .tcp (hexIP [127, 0, 0, 1]) 22).key ≠
    (ListenEntry.mk .tcp (hexIP [0, 0, 0, 0]) 22).key := by
  refine (parseAddr_spec hexIP).2.1 (fun a b _ h => ?_) _ _ _ _ _ _ rfl rfl (by decide)
  have hsame := congrArg hexDecode h
  rw [hexDecode_hexIP, hexDecode_hexIP] at hsame
  exact some.inj hsame

end YominsAgent.Events
