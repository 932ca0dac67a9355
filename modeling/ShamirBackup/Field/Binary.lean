/-!
# Binary fields

Polynomials over GF(2) modulo `x ^ m + tail`, one bit per coefficient. `GF256` carries the shares
and `GF1024` the checksum. The operations make a field when the modulus is irreducible, which it is
for both.
-/

namespace ShamirBackup

/-- A polynomial of degree below `m`, taken modulo `x ^ m + tail`. -/
@[ext] structure BinaryField (m : Nat) (tail : BitVec m) where
  bits : BitVec m
deriving DecidableEq

namespace BinaryField

variable {m : Nat} {tail : BitVec m}

instance : Zero (BinaryField m tail) := ⟨⟨0⟩⟩
instance : One (BinaryField m tail) := ⟨⟨BitVec.ofNat m 1⟩⟩
instance : Inhabited (BinaryField m tail) := ⟨0⟩

/-- Coefficients add without carry, so every element is its own negative. -/
instance : Add (BinaryField m tail) := ⟨fun a b => ⟨a.bits ^^^ b.bits⟩⟩
instance : Sub (BinaryField m tail) := ⟨fun a b => ⟨a.bits ^^^ b.bits⟩⟩
instance : Neg (BinaryField m tail) := ⟨fun a => a⟩

/-- `x * a`, with `x ^ m` replaced by `tail`. -/
def timesX (a : BinaryField m tail) : BinaryField m tail :=
  ⟨if a.bits.msb then (a.bits <<< 1) ^^^ tail else a.bits <<< 1⟩

/-- `a` times the sum of the powers `x ^ i` with `i < n` that `b` has, by Horner's rule. -/
def mulBelow (a b : BinaryField m tail) : Nat → Nat → BinaryField m tail
  | 0, _ => 0
  | n + 1, i => (if b.bits.getLsbD i then a else 0) + (mulBelow a b n (i + 1)).timesX

instance : Mul (BinaryField m tail) := ⟨fun a b => mulBelow a b m 0⟩

/-- The product of `a ^ 2 ^ i` for `1 ≤ i ≤ n`. -/
def squareProduct (a : BinaryField m tail) : Nat → BinaryField m tail
  | 0 => 1
  | n + 1 => (a * a) * squareProduct (a * a) n

/-- `a ^ (2 ^ m - 2)`: the inverse of a nonzero element, and zero of zero. -/
instance : Inv (BinaryField m tail) := ⟨fun a => squareProduct a (m - 1)⟩

/-- The quotient, which exists unless the divisor is zero. -/
def div? (a b : BinaryField m tail) : Option (BinaryField m tail) :=
  if b = 0 then none else some (a * b⁻¹)

def inv? (a : BinaryField m tail) : Option (BinaryField m tail) :=
  div? 1 a

@[simp] theorem zero_bits : (0 : BinaryField m tail).bits = 0 := rfl

@[simp] theorem add_bits (a b : BinaryField m tail) : (a + b).bits = a.bits ^^^ b.bits := rfl

@[simp] theorem sub_bits (a b : BinaryField m tail) : (a - b).bits = a.bits ^^^ b.bits := rfl

end BinaryField

/-! ### The two fields of the format -/

/-- Bytes modulo `x ^ 8 + x ^ 4 + x ^ 3 + x + 1`. -/
abbrev GF256 := BinaryField 8 0x1b

/-- Ten-bit words modulo `x ^ 10 + x ^ 3 + 1`. -/
abbrev GF1024 := BinaryField 10 0x009

namespace GF256

def ofByte (byte : UInt8) : GF256 := ⟨byte.toBitVec⟩

def toByte (a : GF256) : UInt8 := ⟨a.bits⟩

@[simp] theorem toByte_ofByte (byte : UInt8) : toByte (ofByte byte) = byte := rfl

@[simp] theorem ofByte_toByte (a : GF256) : ofByte (toByte a) = a := rfl

end GF256

end ShamirBackup
