import ShamirBackup.Bits
import ShamirBackup.Field.Binary

/-!
# Words

A word is one of 1024: an index into the word list, ten bits of a share and a symbol of its
checksum. Word buffers hold 16-bit numbers, of which only those below 1024 are words.
-/

namespace ShamirBackup

/-- An index into the word list. -/
abbrev Word := Fin 1024

namespace Word

/-- The word of ten zeros. -/
def zero : Word := ⟨0, Nat.zero_lt_succ 1023⟩

/-- The word that a buffer entry is, if it is one. -/
def ofRaw? (raw : UInt16) : Option Word :=
  if h : raw.toNat < 1024 then some ⟨raw.toNat, h⟩ else none

def toRaw (word : Word) : UInt16 := UInt16.ofNat word.val

/-- The word with these ten bits. -/
def ofBits (bits : List Bool) : Word := ⟨Bits.toNat bits % 1024, Nat.mod_lt _ (by decide)⟩

def ofField (a : GF1024) : Word := a.bits.toFin

def toField (word : Word) : GF1024 := ⟨⟨word⟩⟩

/-- The ten bits that a buffer entry contributes to a share; the rest are left out. -/
def rawBits (raw : UInt16) : List Bool := Bits.ofNat 10 raw.toNat

theorem toRaw_toNat (word : Word) : word.toRaw.toNat = word.val :=
  UInt16.toNat_ofNat_of_lt' (Nat.lt_trans word.isLt (by decide))

theorem ofRaw?_toRaw (word : Word) : ofRaw? word.toRaw = some word := by
  have hlt : word.toRaw.toNat < 1024 := by
    rw [toRaw_toNat]
    exact word.isLt
  rw [ofRaw?, dif_pos hlt]
  exact congrArg some (Fin.ext word.toRaw_toNat)

end Word

end ShamirBackup
