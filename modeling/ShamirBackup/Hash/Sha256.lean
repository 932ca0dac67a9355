/-!
# SHA-256

The hash is kept in two halves, so that a keyed hash can start from a prepared state: `absorb` runs
the compression over whole blocks, `closing` ends a message with its padding and length. A digest
has 32 bytes by construction.
-/

namespace ShamirBackup.Sha256

/-- The chaining value: eight words. -/
structure State where
  a : UInt32
  b : UInt32
  c : UInt32
  d : UInt32
  e : UInt32
  f : UInt32
  g : UInt32
  h : UInt32
deriving DecidableEq

def initial : State :=
  ⟨0x6a09e667, 0xbb67ae85, 0x3c6ef372, 0xa54ff53a, 0x510e527f, 0x9b05688c, 0x1f83d9ab, 0x5be0cd19⟩

def roundConstants : Array UInt32 := #[
  0x428a2f98, 0x71374491, 0xb5c0fbcf, 0xe9b5dba5, 0x3956c25b, 0x59f111f1, 0x923f82a4, 0xab1c5ed5,
  0xd807aa98, 0x12835b01, 0x243185be, 0x550c7dc3, 0x72be5d74, 0x80deb1fe, 0x9bdc06a7, 0xc19bf174,
  0xe49b69c1, 0xefbe4786, 0x0fc19dc6, 0x240ca1cc, 0x2de92c6f, 0x4a7484aa, 0x5cb0a9dc, 0x76f988da,
  0x983e5152, 0xa831c66d, 0xb00327c8, 0xbf597fc7, 0xc6e00bf3, 0xd5a79147, 0x06ca6351, 0x14292967,
  0x27b70a85, 0x2e1b2138, 0x4d2c6dfc, 0x53380d13, 0x650a7354, 0x766a0abb, 0x81c2c92e, 0x92722c85,
  0xa2bfe8a1, 0xa81a664b, 0xc24b8b70, 0xc76c51a3, 0xd192e819, 0xd6990624, 0xf40e3585, 0x106aa070,
  0x19a4c116, 0x1e376c08, 0x2748774c, 0x34b0bcb5, 0x391c0cb3, 0x4ed8aa4a, 0x5b9cca4f, 0x682e6ff3,
  0x748f82ee, 0x78a5636f, 0x84c87814, 0x8cc70208, 0x90befffa, 0xa4506ceb, 0xbef9a3f7, 0xc67178f2]

/-! ### Compression -/

@[inline] def rotate (x n : UInt32) : UInt32 := (x >>> n) ||| (x <<< (32 - n))

@[inline] def smallSigma₀ (x : UInt32) : UInt32 := rotate x 7 ^^^ rotate x 18 ^^^ (x >>> 3)

@[inline] def smallSigma₁ (x : UInt32) : UInt32 := rotate x 17 ^^^ rotate x 19 ^^^ (x >>> 10)

@[inline] def bigSigma₀ (x : UInt32) : UInt32 := rotate x 2 ^^^ rotate x 13 ^^^ rotate x 22

@[inline] def bigSigma₁ (x : UInt32) : UInt32 := rotate x 6 ^^^ rotate x 11 ^^^ rotate x 25

/-- Adds `n` words to the message schedule `w`. -/
def extend : (n : Nat) → (w : Array UInt32) → Array UInt32
  | 0, w => w
  | n + 1, w =>
    let t := w.size
    extend n (w.push (smallSigma₁ (w.getD (t - 2) 0) + w.getD (t - 7) 0 +
      smallSigma₀ (w.getD (t - 15) 0) + w.getD (t - 16) 0))

/-- `n` rounds from round `t` on. -/
def rounds (w : Array UInt32) : (n t : Nat) → (a b c d e f g h : UInt32) → State
  | 0, _, a, b, c, d, e, f, g, h => ⟨a, b, c, d, e, f, g, h⟩
  | n + 1, t, a, b, c, d, e, f, g, h =>
    let choice := (e &&& f) ^^^ ((~~~e) &&& g)
    let majority := (a &&& b) ^^^ (a &&& c) ^^^ (b &&& c)
    let t₁ := h + bigSigma₁ e + choice + roundConstants.getD t 0 + w.getD t 0
    let t₂ := bigSigma₀ a + majority
    rounds w n (t + 1) (t₁ + t₂) a b c (d + t₁) e f g

/-- Takes one block of sixteen words into the state. -/
def compress (s : State) (block : Array UInt32) : State :=
  let r := rounds (extend 48 block) 64 0 s.a s.b s.c s.d s.e s.f s.g s.h
  ⟨s.a + r.a, s.b + r.b, s.c + r.c, s.d + r.d, s.e + r.e, s.f + r.f, s.g + r.g, s.h + r.h⟩

/-! ### Messages -/

/-- Words of four bytes, the highest first; up to three bytes at the end are left out. -/
def wordsOfBytes : List UInt8 → List UInt32
  | a :: b :: c :: d :: rest =>
    ((a.toUInt32 <<< 24) ||| (b.toUInt32 <<< 16) ||| (c.toUInt32 <<< 8) ||| d.toUInt32) ::
      wordsOfBytes rest
  | _ => []

def bytesOfWord (w : UInt32) : List UInt8 :=
  [(w >>> 24).toUInt8, (w >>> 16).toUInt8, (w >>> 8).toUInt8, w.toUInt8]

/-- Takes `count` blocks of the words into the state. -/
def absorbBlocks : (count : Nat) → State → List UInt32 → State
  | 0, s, _ => s
  | count + 1, s, words => absorbBlocks count (compress s (words.take 16).toArray) (words.drop 16)

/-- Takes the whole blocks of `bytes` into the state. -/
def absorb (s : State) (bytes : List UInt8) : State :=
  let words := wordsOfBytes bytes
  absorbBlocks (words.length / 16) s words

/-- The end of a message of which `before` bytes are in the state already: a one bit, zeros, and the
length in bits, up to a whole block. -/
def closing (before : Nat) (bytes : List UInt8) : List UInt8 :=
  let bitLength := UInt64.ofNat (8 * (before + bytes.length))
  let zeros : List UInt8 := List.replicate ((119 - bytes.length % 64) % 64) 0
  bytes ++ 0x80 :: zeros ++ bytesOfWord (bitLength >>> 32).toUInt32 ++
    bytesOfWord bitLength.toUInt32

namespace State

def bytes (s : State) : List UInt8 :=
  bytesOfWord s.a ++ bytesOfWord s.b ++ bytesOfWord s.c ++ bytesOfWord s.d ++ bytesOfWord s.e ++
    bytesOfWord s.f ++ bytesOfWord s.g ++ bytesOfWord s.h

def xor (s t : State) : State :=
  ⟨s.a ^^^ t.a, s.b ^^^ t.b, s.c ^^^ t.c, s.d ^^^ t.d, s.e ^^^ t.e, s.f ^^^ t.f, s.g ^^^ t.g,
    s.h ^^^ t.h⟩

end State

def hash (bytes : List UInt8) : List UInt8 :=
  (absorb initial (closing 0 bytes)).bytes

end ShamirBackup.Sha256
