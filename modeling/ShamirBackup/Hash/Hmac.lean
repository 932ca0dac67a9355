import ShamirBackup.Hash.Sha256

/-!
# HMAC-SHA256

A key is kept as the two states that its padded forms leave behind, so each tag costs two
compressions beyond the message. Who uses tags relies on their length only (`KeyedHash`).
-/

namespace ShamirBackup

namespace Hmac

open Sha256 (State)

structure Key where
  inner : State
  outer : State

namespace Key

/-- A key of more than a block is hashed first. -/
def ofBytes (bytes : List UInt8) : Key :=
  let short := if 64 < bytes.length then Sha256.hash bytes else bytes
  let block := short ++ List.replicate (64 - short.length) 0
  { inner := Sha256.absorb Sha256.initial (block.map (· ^^^ 0x36))
    outer := Sha256.absorb Sha256.initial (block.map (· ^^^ 0x5c)) }

/-- Ends a message of one block and the digest `s`. -/
def closeDigest (start s : State) : State :=
  Sha256.compress start
    #[s.a, s.b, s.c, s.d, s.e, s.f, s.g, s.h, 0x80000000, 0, 0, 0, 0, 0, 0, 768]

def tagState (key : Key) (message : List UInt8) : State :=
  closeDigest key.outer (Sha256.absorb key.inner (Sha256.closing 64 message))

/-- The tag of a tag. -/
def retag (key : Key) (tag : State) : State :=
  closeDigest key.outer (closeDigest key.inner tag)

end Key

/-- The tag of 32 bytes. -/
def tag (key message : List UInt8) : List UInt8 :=
  ((Key.ofBytes key).tagState message).bytes

theorem length_tag (key message : List UInt8) : (tag key message).length = 32 := rfl

end Hmac

/-! ### Keyed hashes -/

/-- A hash with a key and tags of 32 bytes. -/
class KeyedHash where
  tag (key message : List UInt8) : List UInt8
  length_tag (key message : List UInt8) : (tag key message).length = 32

/-- The one that backups are made with. -/
instance : KeyedHash where
  tag := Hmac.tag
  length_tag := Hmac.length_tag

end ShamirBackup
