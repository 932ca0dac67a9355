import ShamirBackup.Hash.Hmac

/-!
# PBKDF2 with HMAC-SHA256

A password is stretched to a key of any length. Each block of 32 bytes is the sum of a chain of
tags, and the work is the length of the chain. Who uses keys relies on their length only
(`KeyDerivation`).
-/

namespace ShamirBackup

namespace Pbkdf2

open Sha256 (State)

/-- Adds the next `n` links of the chain to `sum`; `link` is the last one added. -/
def chain (key : Hmac.Key) : (n : Nat) → (link sum : State) → State
  | 0, _, sum => sum
  | n + 1, link, sum =>
    let next := key.retag link
    chain key n next (sum.xor next)

/-- Block number `index`, counted from one. -/
def block (key : Hmac.Key) (salt : List UInt8) (iterations index : Nat) : List UInt8 :=
  let first := key.tagState (salt ++ Sha256.bytesOfWord (UInt32.ofNat index))
  (chain key (iterations - 1) first first).bytes

/-- The first `length` bytes of the blocks. -/
def derive (password salt : List UInt8) (iterations length : Nat) : List UInt8 :=
  let key := Hmac.Key.ofBytes password
  let blocks := (List.range ((length + 31) / 32)).map fun i => block key salt iterations (i + 1)
  blocks.flatten.take length

theorem length_block (key : Hmac.Key) (salt : List UInt8) (iterations index : Nat) :
    (block key salt iterations index).length = 32 := rfl

theorem length_derive (password salt : List UInt8) (iterations length : Nat) :
    (derive password salt iterations length).length = length := by
  have h : ∀ key, ((List.range ((length + 31) / 32)).map fun i =>
      block key salt iterations (i + 1)).flatten.length = (length + 31) / 32 * 32 := by
    intro key
    rw [List.length_flatten, List.map_map]
    simp [Function.comp_def, length_block, List.map_const']
  simp only [derive, List.length_take, h]
  omega

end Pbkdf2

/-! ### Key derivations -/

/-- A way to stretch a password to a key of the length that is asked for. -/
class KeyDerivation where
  derive (password salt : List UInt8) (iterations length : Nat) : List UInt8
  length_derive (password salt : List UInt8) (iterations length : Nat) :
    (derive password salt iterations length).length = length

/-- The one that backups are encrypted with. -/
instance : KeyDerivation where
  derive := Pbkdf2.derive
  length_derive := Pbkdf2.length_derive

end ShamirBackup
