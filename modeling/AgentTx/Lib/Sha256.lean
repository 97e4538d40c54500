import Mathlib.Data.List.Basic

/-!
# `Lib.Sha256` — SHA-256 (FIPS 180-4) on byte strings, with its lower-case hex digest

Executable, so that a concrete digest is evaluated by the kernel. Nothing is assumed of it: a result that
needs "no collisions" says on which messages (`Set.InjOn sha256 …`). What is proved is the shape of a
digest: lower-case hex digits only (`isHexDigit_of_mem_hexdigest`).
-/

namespace Sha256

abbrev Word := BitVec 32

/-- The round constants. -/
def roundConstants : List Word := [
  0x428a2f98, 0x71374491, 0xb5c0fbcf, 0xe9b5dba5, 0x3956c25b, 0x59f111f1, 0x923f82a4, 0xab1c5ed5,
  0xd807aa98, 0x12835b01, 0x243185be, 0x550c7dc3, 0x72be5d74, 0x80deb1fe, 0x9bdc06a7, 0xc19bf174,
  0xe49b69c1, 0xefbe4786, 0x0fc19dc6, 0x240ca1cc, 0x2de92c6f, 0x4a7484aa, 0x5cb0a9dc, 0x76f988da,
  0x983e5152, 0xa831c66d, 0xb00327c8, 0xbf597fc7, 0xc6e00bf3, 0xd5a79147, 0x06ca6351, 0x14292967,
  0x27b70a85, 0x2e1b2138, 0x4d2c6dfc, 0x53380d13, 0x650a7354, 0x766a0abb, 0x81c2c92e, 0x92722c85,
  0xa2bfe8a1, 0xa81a664b, 0xc24b8b70, 0xc76c51a3, 0xd192e819, 0xd6990624, 0xf40e3585, 0x106aa070,
  0x19a4c116, 0x1e376c08, 0x2748774c, 0x34b0bcb5, 0x391c0cb3, 0x4ed8aa4a, 0x5b9cca4f, 0x682e6ff3,
  0x748f82ee, 0x78a5636f, 0x84c87814, 0x8cc70208, 0x90befffa, 0xa4506ceb, 0xbef9a3f7, 0xc67178f2]

/-- The eight working variables. -/
structure Hash where
  (a b c d e f g h : Word)

def initial : Hash :=
  ⟨0x6a09e667, 0xbb67ae85, 0x3c6ef372, 0xa54ff53a, 0x510e527f, 0x9b05688c, 0x1f83d9ab, 0x5be0cd19⟩

def smallSigma0 (x : Word) : Word := x.rotateRight 7 ^^^ x.rotateRight 18 ^^^ (x >>> 3)
def smallSigma1 (x : Word) : Word := x.rotateRight 17 ^^^ x.rotateRight 19 ^^^ (x >>> 10)
def bigSigma0 (x : Word) : Word := x.rotateRight 2 ^^^ x.rotateRight 13 ^^^ x.rotateRight 22
def bigSigma1 (x : Word) : Word := x.rotateRight 6 ^^^ x.rotateRight 11 ^^^ x.rotateRight 25
def ch (x y z : Word) : Word := (x &&& y) ^^^ (~~~x &&& z)
def maj (x y z : Word) : Word := (x &&& y) ^^^ (x &&& z) ^^^ (y &&& z)

/-- Append `n` words to the message schedule, which is kept newest first. -/
def extend : Nat → List Word → List Word
  | 0, w => w
  | n + 1, w =>
      extend n ((smallSigma1 (w.getD 1 0) + w.getD 6 0 + smallSigma0 (w.getD 14 0) + w.getD 15 0) :: w)

/-- One round, with its constant and schedule word. -/
def round (s : Hash) (kw : Word × Word) : Hash :=
  let t₁ := s.h + bigSigma1 s.e + ch s.e s.f s.g + kw.1 + kw.2
  let t₂ := bigSigma0 s.a + maj s.a s.b s.c
  ⟨t₁ + t₂, s.a, s.b, s.c, s.d + t₁, s.e, s.f, s.g⟩

/-- The compression function on one block of sixteen words. -/
def compress (s : Hash) (block : List Word) : Hash :=
  let w := (extend 48 block.reverse).reverse
  let r := (roundConstants.zip w).foldl round s
  ⟨s.a + r.a, s.b + r.b, s.c + r.c, s.d + r.d, s.e + r.e, s.f + r.f, s.g + r.g, s.h + r.h⟩

/-- The message, `0x80`, zeros up to 56 modulo 64 bytes, and the bit length in eight bytes. -/
def pad (m : List UInt8) : List UInt8 :=
  let zeros : List UInt8 := List.replicate ((119 - m.length % 64) % 64) 0
  let bitLength := (List.range 8).map fun i => UInt8.ofNat ((m.length * 8) >>> (8 * (7 - i)))
  m ++ 0x80 :: (zeros ++ bitLength)

/-- Big-endian words. -/
def words : List UInt8 → List Word
  | a :: b :: c :: d :: rest =>
      BitVec.ofNat 32 (a.toNat * 2 ^ 24 + b.toNat * 2 ^ 16 + c.toNat * 2 ^ 8 + d.toNat) :: words rest
  | _ => []

/-- Compress `n` blocks. -/
def blocks : Nat → List Word → Hash → Hash
  | 0, _, s => s
  | n + 1, w, s => blocks n (w.drop 16) (compress s (w.take 16))

/-- Eight lower-case hex digits. -/
def hexWord (w : Word) : List Char :=
  (List.range 8).map fun i => Nat.digitChar ((w.toNat >>> (4 * (7 - i))) % 16)

/-- `sha256(m).hexdigest()`. -/
def hexdigest (m : List UInt8) : String :=
  let w := words (pad m)
  let s := blocks (w.length / 16) w initial
  String.ofList ([s.a, s.b, s.c, s.d, s.e, s.f, s.g, s.h].flatMap hexWord)

/-- `0`–`9`, `a`–`f`. -/
def IsHexDigit (c : Char) : Prop := ∃ d < 16, c = Nat.digitChar d

theorem isHexDigit_of_mem_hexdigest {m : List UInt8} {c : Char} (h : c ∈ (hexdigest m).toList) :
    IsHexDigit c := by
  unfold hexdigest at h
  rw [String.toList_ofList, List.mem_flatMap] at h
  obtain ⟨w, -, hc⟩ := h
  obtain ⟨i, -, rfl⟩ := List.mem_map.mp hc
  exact ⟨_, Nat.mod_lt _ (by decide), rfl⟩

/-- A character outside the hex digits occurs in no digest. -/
theorem notMem_hexdigest {m : List UInt8} {c : Char} (h : ∀ d < 16, c ≠ Nat.digitChar d) :
    c ∉ (hexdigest m).toList := by
  intro hc
  obtain ⟨d, hd, rfl⟩ := isHexDigit_of_mem_hexdigest hc
  exact h d hd rfl

theorem length_hexdigest (m : List UInt8) : (hexdigest m).toList.length = 64 := by
  unfold hexdigest
  rw [String.toList_ofList]
  simp [hexWord]

-- from here on a digest is evaluated by the kernel only
attribute [irreducible] hexdigest

/-! ## Text -/

/-- `text.encode()`: UTF-8. -/
def encode (text : String) : List UInt8 := text.toUTF8.data.toList

theorem encode_injective : Function.Injective encode := by
  intro s t h
  have hb : s.toUTF8 = t.toUTF8 := ByteArray.ext (Array.ext' h)
  rw [String.toUTF8_eq_toByteArray, String.toUTF8_eq_toByteArray] at hb
  exact String.toByteArray_inj.mp hb

/-- `bytes.decode()`; `none` is a `UnicodeDecodeError`. -/
def decode (bytes : List UInt8) : Option String := String.fromUTF8? ⟨bytes.toArray⟩

@[simp] theorem decode_encode (text : String) : decode (encode text) = some text := by
  have hbytes : (⟨(encode text).toArray⟩ : ByteArray) = text.toByteArray := by
    simp [encode]
  unfold decode String.fromUTF8?
  rw [hbytes, dif_pos text.isValidUTF8]
  rfl

example : hexdigest (encode "abc") =
    "ba7816bf8f01cfea414140de5dae2223b00361a396177a9cb410ff61f20015ad" := by decide +kernel

end Sha256
