import ShamirBackup.Word

/-!
# Between bytes and words

A buffer belongs to the caller and may hold anything. A cursor fills the entries of a part of it,
one after the other. Bytes have no words of their own: a packer collects their bits in an
accumulator and fills an entry whenever ten of them have come together. An unpacker goes the other
way and turns out a byte whenever the words have brought eight bits.
-/

namespace ShamirBackup

/-- The part of a buffer that is still to be filled: the entries from `next` on, before `stop`. -/
structure Cursor where
  buffer : Array UInt16
  next : Nat
  stop : Nat

namespace Cursor

/-- Fills the next entry. Behind the last one nothing is written. -/
def put (cursor : Cursor) (entry : UInt16) : Cursor :=
  if cursor.next < cursor.stop then
    { cursor with
      buffer := cursor.buffer.setIfInBounds cursor.next entry
      next := cursor.next + 1 }
  else cursor

def putAll (cursor : Cursor) (entries : List UInt16) : Cursor :=
  entries.foldl put cursor

end Cursor

/-- A cursor and the bits that wait to be put: the lowest `waiting` ones of `acc`. -/
structure Packer where
  cursor : Cursor
  acc : UInt32
  waiting : Nat

namespace Packer

/-- Puts the waiting bits as far as they make up words. -/
def drain (packer : Packer) : Packer :=
  if 10 ≤ packer.waiting then
    let rest := packer.waiting - 10
    let entry := (packer.acc >>> UInt32.ofNat rest).toUInt16 &&& 1023
    drain { packer with cursor := packer.cursor.put entry, waiting := rest }
  else packer
termination_by packer.waiting

/-- Takes the bits of a byte, and keeps of the accumulator what still waits. -/
def putByte (packer : Packer) (byte : UInt8) : Packer :=
  let drained := drain { packer with
    acc := packer.acc <<< 8 ||| byte.toUInt32
    waiting := packer.waiting + 8 }
  { drained with acc := drained.acc &&& ((1 <<< UInt32.ofNat drained.waiting) - 1) }

def putBytes (packer : Packer) (bytes : List UInt8) : Packer :=
  bytes.foldl putByte packer

end Packer

/-- Bytes that words have made up, and the bits that wait for more: the lowest `waiting` ones of
`acc`. -/
structure Unpacker where
  bytes : Array UInt8
  acc : UInt32
  waiting : Nat

namespace Unpacker

/-- Takes bytes out of the waiting bits as far as these go. -/
def drain (unpacker : Unpacker) : Unpacker :=
  if 8 ≤ unpacker.waiting then
    let rest := unpacker.waiting - 8
    let byte := (unpacker.acc >>> UInt32.ofNat rest).toUInt8
    drain { unpacker with bytes := unpacker.bytes.push byte, waiting := rest }
  else unpacker
termination_by unpacker.waiting

/-- Takes the bits of a word, and leaves out the first `skipped` of those that then wait. -/
def takeWord (unpacker : Unpacker) (skipped : Nat) (entry : UInt16) : Unpacker :=
  let drained := drain { unpacker with
    acc := unpacker.acc <<< 10 ||| entry.toUInt32
    waiting := unpacker.waiting + 10 - skipped }
  { drained with acc := drained.acc &&& ((1 <<< UInt32.ofNat drained.waiting) - 1) }

def takeWords (unpacker : Unpacker) (entries : List UInt16) : Unpacker :=
  entries.foldl (takeWord · 0) unpacker

end Unpacker

end ShamirBackup
