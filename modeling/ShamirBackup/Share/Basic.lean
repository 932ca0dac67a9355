import ShamirBackup.Share.Metadata

/-!
# Shares

A share is its metadata and a value of an even number of bytes, sixteen or more.
-/

namespace ShamirBackup

/-- The fewest bytes that a secret or the value of a share may have. -/
def leastLength : Nat := 16

@[ext] structure Share where
  metadata : Metadata
  value : List UInt8
  le_length : leastLength ≤ value.length
  even_length : value.length % 2 = 0
deriving DecidableEq

namespace Share

def ofParts (metadata : Metadata) (value : List UInt8) : Except Fault Share :=
  if hlen : leastLength ≤ value.length then
    if heven : value.length % 2 = 0 then .ok ⟨metadata, value, hlen, heven⟩
    else .error (.secretLength value.length)
  else .error (.secretTooShort value.length leastLength)

/-- The words that a value of `length` bytes takes. -/
def valueWords (length : Nat) : Nat := (8 * length + 9) / 10

/-- Metadata takes four words and the checksum three. -/
def wordCount (share : Share) : Nat := 7 + valueWords share.value.length

end Share

end ShamirBackup
