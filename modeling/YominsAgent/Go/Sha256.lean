import YominsAgent.Go.Utf8

/- `crypto/sha256` and `encoding/hex`: the digest of a file as `stageUpgrade` compares
   it. The message schedule is kept as a window of sixteen words, from which each round
   takes the first and makes the one that follows the last.

   Correspondence (Go ↔ Lean):
     `sha256.New`, `Write`, `Sum(nil)` ↔ `sha256`
     `hex.EncodeToString`              ↔ `hexEncode` -/
namespace YominsAgent.Go

namespace Sha256

structure Work where
  a : UInt32
  b : UInt32
  c : UInt32
  d : UInt32
  e : UInt32
  f : UInt32
  g : UInt32
  h : UInt32
  deriving DecidableEq, Repr

def initial : Work :=
  ⟨0x6a09e667, 0xbb67ae85, 0x3c6ef372, 0xa54ff53a, 0x510e527f, 0x9b05688c, 0x1f83d9ab, 0x5be0cd19⟩

def constants : List UInt32 :=
  [0x428a2f98, 0x71374491, 0xb5c0fbcf, 0xe9b5dba5, 0x3956c25b, 0x59f111f1, 0x923f82a4, 0xab1c5ed5,
   0xd807aa98, 0x12835b01, 0x243185be, 0x550c7dc3, 0x72be5d74, 0x80deb1fe, 0x9bdc06a7, 0xc19bf174,
   0xe49b69c1, 0xefbe4786, 0x0fc19dc6, 0x240ca1cc, 0x2de92c6f, 0x4a7484aa, 0x5cb0a9dc, 0x76f988da,
   0x983e5152, 0xa831c66d, 0xb00327c8, 0xbf597fc7, 0xc6e00bf3, 0xd5a79147, 0x06ca6351, 0x14292967,
   0x27b70a85, 0x2e1b2138, 0x4d2c6dfc, 0x53380d13, 0x650a7354, 0x766a0abb, 0x81c2c92e, 0x92722c85,
   0xa2bfe8a1, 0xa81a664b, 0xc24b8b70, 0xc76c51a3, 0xd192e819, 0xd6990624, 0xf40e3585, 0x106aa070,
   0x19a4c116, 0x1e376c08, 0x2748774c, 0x34b0bcb5, 0x391c0cb3, 0x4ed8aa4a, 0x5b9cca4f, 0x682e6ff3,
   0x748f82ee, 0x78a5636f, 0x84c87814, 0x8cc70208, 0x90befffa, 0xa4506ceb, 0xbef9a3f7, 0xc67178f2]

def rotr (x : UInt32) (n : UInt32) : UInt32 := (x >>> n) ||| (x <<< (32 - n))

def smallSigma0 (x : UInt32) : UInt32 := rotr x 7 ^^^ rotr x 18 ^^^ (x >>> 3)
def smallSigma1 (x : UInt32) : UInt32 := rotr x 17 ^^^ rotr x 19 ^^^ (x >>> 10)
def bigSigma0 (x : UInt32) : UInt32 := rotr x 2 ^^^ rotr x 13 ^^^ rotr x 22
def bigSigma1 (x : UInt32) : UInt32 := rotr x 6 ^^^ rotr x 11 ^^^ rotr x 25

def round (k w : UInt32) (v : Work) : Work :=
  let t1 := v.h + bigSigma1 v.e + ((v.e &&& v.f) ^^^ (~~~v.e &&& v.g)) + k + w
  let t2 := bigSigma0 v.a + ((v.a &&& v.b) ^^^ (v.a &&& v.c) ^^^ (v.b &&& v.c))
  ⟨t1 + t2, v.a, v.b, v.c, v.d + t1, v.e, v.f, v.g⟩

/-- The rounds of one block, over the window of the message schedule. -/
def rounds : List UInt32 → List UInt32 → Work → Work
  | k :: ks, w :: ws, v =>
    let next := w + smallSigma0 (ws.getD 0 0) + ws.getD 8 0 + smallSigma1 (ws.getD 13 0)
    rounds ks (ws ++ [next]) (round k w v)
  | _, _, v => v

/-- The words of a block, most significant byte first. -/
def words : Bytes → List UInt32
  | a :: b :: c :: d :: rest =>
    ((a.toUInt32 <<< 24) ||| (b.toUInt32 <<< 16) ||| (c.toUInt32 <<< 8) ||| d.toUInt32) :: words rest
  | _ => []

def compress (v : Work) (block : Bytes) : Work :=
  let r := rounds constants (words block) v
  ⟨v.a + r.a, v.b + r.b, v.c + r.c, v.d + r.d, v.e + r.e, v.f + r.f, v.g + r.g, v.h + r.h⟩

/-- The bytes of a number of `n` bytes, most significant first. -/
def bigEndian (n x : Nat) : Bytes :=
  (List.range n).map fun i => UInt8.ofNat (x / 2 ^ (8 * (n - 1 - i)))

/-- The message, a one bit, zeros up to the last eight bytes of a block, and the number
of its bits. -/
def pad (msg : Bytes) : Bytes :=
  msg ++ [0x80] ++ List.replicate ((119 - msg.length % 64) % 64) 0 ++
    bigEndian 8 (msg.length * 8 % 2 ^ 64)

def blocks (padded : Bytes) : List Bytes :=
  (List.range (padded.length / 64)).map fun i => (padded.drop (64 * i)).take 64

def Work.bytes (v : Work) : Bytes :=
  [v.a, v.b, v.c, v.d, v.e, v.f, v.g, v.h].flatMap fun w => bigEndian 4 w.toNat

end Sha256

open Sha256 in
/-- `sha256.Sum256`. -/
def sha256 (msg : Bytes) : Bytes := ((blocks (pad msg)).foldl compress initial).bytes

def hexDigit (n : Nat) : Char := "0123456789abcdef".toList.getD n '0'

/-- `hex.EncodeToString`. -/
def hexEncode (bs : Bytes) : Str :=
  bs.flatMap fun b => [hexDigit (b.toNat / 16), hexDigit (b.toNat % 16)]

theorem length_sha256 (msg : Bytes) : (sha256 msg).length = 32 := by
  simp [sha256, Sha256.Work.bytes, Sha256.bigEndian]

theorem length_encodeRune_hexDigit (n : Nat) : (encodeRune (hexDigit n)).length = 1 := by
  by_cases h : n < 16
  · have hall : ∀ m < 16, (encodeRune (hexDigit m)).length = 1 := by decide
    exact hall n h
  · have hd : hexDigit n = '0' := by
      rw [hexDigit, List.getD_eq_getElem?_getD, List.getElem?_eq_none (Nat.le_of_not_lt h)]
      rfl
    rw [hd]
    rfl

/-- A text of hexadecimal digits has a byte for each of them. -/
theorem length_toBytes_hexEncode (bs : Bytes) :
    (toBytes (hexEncode bs)).length = 2 * bs.length := by
  induction bs with
  | nil => rfl
  | cons b bs ih =>
    simp only [hexEncode, toBytes, List.flatMap_cons, List.flatMap_append, List.length_append,
      List.flatMap_nil, List.length_nil, length_encodeRune_hexDigit, List.length_cons] at ih ⊢
    omega

example : hexEncode (sha256 "abc".toUTF8.toList) =
    "ba7816bf8f01cfea414140de5dae2223b00361a396177a9cb410ff61f20015ad".toList := by
  decide +kernel

end YominsAgent.Go
