import ShamirBackup.Parameters
import ShamirBackup.Word

/-!
# Share metadata

All that a share carries besides its value, in forty bits:

```
identifier 15 | extendable 1 | exponent 4 | group index 4 | group threshold - 1 4 |
  group count - 1 4 | member index 4 | member threshold - 1 4
```

These bits are what metadata means in words (`words`, `ofBits`). In buffers it is written and read
by shifts (`toRaw`, `ofRaw`), which come to the same.
-/

namespace ShamirBackup

/-- The parameters of the backup and the place of the share in it. -/
structure Metadata extends Parameters where
  groupIndex : ShareIndex
  groupThreshold : Threshold
  groupCount : ShareCount
  memberIndex : ShareIndex
  memberThreshold : Threshold
deriving DecidableEq

/-! ### Numbers from one to sixteen in four bits -/

namespace Threshold

def ofBits (bits : List Bool) (start : Nat) : Threshold :=
  ⟨Bits.field bits start 4 + 1, Nat.le_add_left .., Bits.field_lt bits start 4⟩

end Threshold

namespace ShareCount

def ofBits (bits : List Bool) (start : Nat) : ShareCount :=
  ⟨Bits.field bits start 4 + 1, Nat.le_add_left .., Bits.field_lt bits start 4⟩

end ShareCount

namespace ShareIndex

def ofBits (bits : List Bool) (start : Nat) : ShareIndex :=
  ⟨Bits.field bits start 4, Bits.field_lt ..⟩

end ShareIndex

namespace Metadata

def bits (m : Metadata) : List Bool :=
  m.toParameters.bits ++ Bits.ofNat 4 m.groupIndex.val ++ Bits.ofNat 4 (m.groupThreshold.val - 1) ++
    Bits.ofNat 4 (m.groupCount.val - 1) ++ Bits.ofNat 4 m.memberIndex.val ++
    Bits.ofNat 4 (m.memberThreshold.val - 1)

/-- The four words of the metadata. -/
def words (m : Metadata) : List Word :=
  (Bits.chunks 10 4 m.bits).map Word.ofBits

/-- The entries that these words are in a buffer, put together by shifts. -/
def toRaw (m : Metadata) : List UInt16 :=
  let identifier := UInt16.ofNat m.identifier.val
  let extendable := m.extendable.toUInt16
  let exponent := UInt16.ofNat m.exponent.val
  let groupIndex := UInt16.ofNat m.groupIndex.val
  let groupThreshold := UInt16.ofNat (m.groupThreshold.val - 1)
  let groupCount := UInt16.ofNat (m.groupCount.val - 1)
  let memberIndex := UInt16.ofNat m.memberIndex.val
  let memberThreshold := UInt16.ofNat (m.memberThreshold.val - 1)
  [identifier >>> 5,
    (identifier &&& 0x1f) <<< 5 ||| extendable <<< 4 ||| exponent,
    groupIndex <<< 6 ||| groupThreshold <<< 2 ||| groupCount >>> 2,
    (groupCount &&& 0x3) <<< 8 ||| memberIndex <<< 4 ||| memberThreshold]

/-- What the first forty bits say. More groups needed than there are is the one thing they can say
that no share may. -/
def ofBits (bits : List Bool) : Except Fault Metadata :=
  let groupThreshold := Threshold.ofBits bits 24
  let groupCount := ShareCount.ofBits bits 28
  if groupThreshold.val ≤ groupCount.val then
    .ok {
      toParameters := .ofBits bits
      groupIndex := .ofBits bits 20
      groupThreshold := groupThreshold
      groupCount := groupCount
      memberIndex := .ofBits bits 32
      memberThreshold := .ofBits bits 36 }
  else .error (.groupThreshold groupThreshold.val groupCount.val)

/-- The ten bits that an entry of a buffer has for a word. -/
def entry (raw : List UInt16) (i : Nat) : UInt16 := raw.getD i 0 &&& 1023

/-- Reads the first four entries of a buffer by shifts. Each number is checked for its range. -/
def ofRaw (raw : List UInt16) : Except Fault Metadata := do
  let first := entry raw 0
  let second := entry raw 1
  let third := entry raw 2
  let fourth := entry raw 3
  let identifier ← Identifier.ofNat (first <<< 5 ||| second >>> 5).toNat
  let extendable := second >>> 4 &&& 1 == 1
  let exponent ← IterationExponent.ofNat (second &&& 0xf).toUInt8.toNat
  let groupIndex ← ShareIndex.ofNat (third >>> 6).toUInt8.toNat
  let groupThreshold := (third >>> 2 &&& 0xf).toUInt8 + 1
  let groupCount := (((third &&& 0x3) <<< 2 ||| fourth >>> 8) &&& 0xf).toUInt8 + 1
  let memberIndex ← ShareIndex.ofNat (fourth >>> 4 &&& 0xf).toUInt8.toNat
  let memberThreshold ← Threshold.ofNat ((fourth &&& 0xf).toUInt8 + 1).toNat
  if groupCount < groupThreshold then
    .error (.groupThreshold groupThreshold.toNat groupCount.toNat)
  else
    let groupThreshold ← Threshold.ofNat groupThreshold.toNat
    let groupCount ← ShareCount.ofNat groupCount.toNat
    .ok { identifier, extendable, exponent, groupIndex, groupThreshold, groupCount, memberIndex,
          memberThreshold }

end Metadata

end ShamirBackup
