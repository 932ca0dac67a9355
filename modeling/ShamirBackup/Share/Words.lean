import ShamirBackup.Checksum
import ShamirBackup.Share.Basic
import ShamirBackup.Share.Packer
import ShamirBackup.WordList.Mnemonic

/-!
# Shares as words

The bits of a share are its metadata, zeros up to a whole number of words, and its value. They are
cut into words, and the checksum of the words closes the share. Reading a share back accepts this
form only. Buffers are filled (`fill`) and read (`ofRaw`) by shifts, through an accumulator where
words and bytes do not fit together.
-/

namespace ShamirBackup.Share

/-- The fewest words of a share. -/
def leastWords : Nat := 20

/-! ### Values -/

/-- The bits of a value, the highest of each byte first. -/
def valueBits (value : List UInt8) : List Bool :=
  value.flatMap fun byte => Bits.ofNat 8 byte.toNat

/-- The zeros that fill a value of `length` bytes up to whole words. -/
def paddingLength (length : Nat) : Nat := 10 * valueWords length - 8 * length

def paddedBits (value : List UInt8) : List Bool :=
  List.replicate (paddingLength value.length) false ++ valueBits value

/-- The value behind its padding, which is shorter than a byte or a whole one and all zeros. -/
def valueOfBits (bits : List Bool) : Except Fault (List UInt8) :=
  let padding := bits.length % 16
  if 8 < padding || (bits.take padding).any id then .error .padding
  else
    let bytes := Bits.chunks 8 ((bits.length - padding) / 8) (bits.drop padding)
    .ok (bytes.map fun byte => UInt8.ofNat (Bits.toNat byte))

/-- The same, taken out of the words that hold the value. The first of them has all padding. -/
def valueOfRaw (entries : List UInt16) : Except Fault (List UInt8) :=
  let padding := 10 * entries.length % 16
  if 8 < padding then .error .padding
  else
    match entries with
    | [] => .error .padding
    | first :: others =>
      if first >>> UInt16.ofNat (10 - padding) ≠ 0 then .error .padding
      else
        let start := Unpacker.takeWord ⟨#[], 0, 0⟩ padding first
        .ok (start.takeWords others).bytes.toList

/-! ### Writing -/

def bits (share : Share) : List Bool :=
  share.metadata.bits ++ paddedBits share.value

/-- All words of a share but its checksum. -/
def body (share : Share) : List Word :=
  (Bits.chunks 10 (4 + valueWords share.value.length) share.bits).map Word.ofBits

/-- All words of a share. -/
def words (share : Share) : List Word :=
  let label := Checksum.label share.metadata.extendable
  share.body ++ Checksum.create label (share.body.map Word.toRaw)

/-- The text of a share. -/
def mnemonic (share : Share) : String :=
  Mnemonic.ofWords share.words

/-- Writes the metadata and the value over the first entries of a buffer. The zeros before the value
are the bits that wait when its first byte comes. -/
def fillBody (share : Share) (buffer : Array UInt16) : Array UInt16 :=
  let head := Cursor.putAll ⟨buffer, 0, 4⟩ share.metadata.toRaw
  let value := Packer.putBytes
    ⟨⟨head.buffer, 4, share.wordCount - 3⟩, 0, paddingLength share.value.length⟩ share.value
  value.cursor.buffer

/-- Writes a share over the first entries of a buffer. The checksum is made of what the entries
before it hold. -/
def fill (share : Share) (buffer : Array UInt16) : Array UInt16 :=
  let bodyLength := share.wordCount - 3
  let filled := share.fillBody buffer
  let checksum := Checksum.create (Checksum.label share.metadata.extendable)
    (filled.toList.take bodyLength)
  (Cursor.putAll ⟨filled, bodyLength, share.wordCount⟩ (checksum.map Word.toRaw)).buffer

/-- Writes a share to the front of a buffer and tells how many entries it took. A buffer that is too
short is left as it was. -/
def writeTo (share : Share) (buffer : Array UInt16) : Except Fault Nat × Array UInt16 :=
  if buffer.size < share.wordCount then
    (.error (.insufficientSpace share.wordCount buffer.size), buffer)
  else (.ok share.wordCount, share.fill buffer)

/-- The same for a caller who keeps the buffer at hand. -/
def write (share : Share) (buffer : Array UInt16) : Except Fault (Nat × Array UInt16) :=
  let (outcome, after) := share.writeTo buffer
  outcome.map (·, after)

/-! ### Reading -/

/-- Reads a word buffer. Of several faults the first counts, in this order: too few words, an entry
that is no word, the checksum, the metadata, the padding. -/
def ofRaw (raw : List UInt16) : Except Fault Share :=
  if raw.length < leastWords then .error (.tooFewWords raw.length leastWords)
  else if raw.any (1023 < ·) then .error (.form .wordRange)
  else
    let extendable := raw.getD 1 0 >>> 4 &&& 1 == 1
    if !Checksum.verify (Checksum.label extendable) raw then .error .checksum
    else do
      let metadata ← Metadata.ofRaw raw
      let value ← valueOfRaw ((raw.drop 4).take (raw.length - 7))
      ofParts metadata value

def ofWords (words : List Word) : Except Fault Share :=
  ofRaw (words.map Word.toRaw)

/-- Reads the text of a share. -/
def ofMnemonic (text : String) : Except Fault Share := do
  ofWords (← Mnemonic.words text)

end ShamirBackup.Share
