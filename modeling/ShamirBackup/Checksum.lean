import ShamirBackup.Word

/-!
# The checksum of a share

Three words that close a share, so that the whole is a codeword of a Reed–Solomon code over
`GF1024`. The code is keyed: the bytes of a label are read before the words, and shares of the two
kinds of backup have different labels.
-/

namespace ShamirBackup

/-- The remainder of a polynomial over `GF1024` modulo `x ^ 3 + 14 * x ^ 2 + 56 * x + 64`. -/
@[ext] structure Remainder where
  c₂ : GF1024
  c₁ : GF1024
  c₀ : GF1024
deriving DecidableEq

namespace Remainder

def one : Remainder := ⟨0, 0, 1⟩

/-- `x ^ 3` modulo the generator polynomial. -/
def cube : Remainder := ⟨⟨14⟩, ⟨56⟩, ⟨64⟩⟩

/-- Multiplies by `x` and adds a symbol. Of a symbol above 1023, the excess bits are added to the
next coefficient. -/
def absorb (r : Remainder) (symbol : UInt16) : Remainder where
  c₂ := r.c₁ + r.c₂ * cube.c₂
  c₁ := r.c₀ + r.c₂ * cube.c₁ + ⟨(symbol.toBitVec >>> 10).setWidth 10⟩
  c₀ := r.c₂ * cube.c₀ + ⟨symbol.toBitVec.setWidth 10⟩

def absorbAll (r : Remainder) (symbols : List UInt16) : Remainder :=
  symbols.foldl absorb r

def words (r : Remainder) : List Word :=
  [Word.ofField r.c₂, Word.ofField r.c₁, Word.ofField r.c₀]

end Remainder

namespace Checksum

/-- The label of a backup's shares. -/
def label (extendable : Bool) : List UInt8 :=
  let chars := if extendable then "shamir_extendable" else "shamir"
  chars.toList.map fun c => UInt8.ofNat c.toNat

def remainder (label : List UInt8) (symbols : List UInt16) : Remainder :=
  (Remainder.one.absorbAll (label.map UInt8.toUInt16)).absorbAll symbols

/-- The words that bring the remainder of `symbols` to one. -/
def create (label : List UInt8) (symbols : List UInt16) : List Word :=
  let r := remainder label (symbols ++ [0, 0, 0])
  { r with c₀ := r.c₀ + 1 }.words

def verify (label : List UInt8) (symbols : List UInt16) : Bool :=
  remainder label symbols = .one

end Checksum

end ShamirBackup
