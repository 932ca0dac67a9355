import Mathlib.Data.Nat.Digits.Defs
import ShamirBackup.Proofs.ShareWords

/-!
# Shares as numbers

Bits that are cut into runs of one width are the digits of the number that all of them stand for
(`toNat_flatMap`). So the words of a share but its checksum are a number in base 1024 and its value
is one in base 256. The metadata is a number of forty bits (`Metadata.number`) and stands above the
value. The zeros between them are leading digits of the value and do not change it.
-/

namespace ShamirBackup

namespace Bits

theorem toNat_replicate_false (count : Nat) : toNat (List.replicate count false) = 0 := by
  induction count with
  | zero => rfl
  | succ count ih => rw [List.replicate_succ, toNat_cons, ih, Bool.toNat_false, Nat.zero_mul]

/-- Runs of one width are the digits of a number, the highest first. -/
theorem toNat_flatMap {α : Type} {width : Nat} {f : α → List Bool} (as : List α)
    (h : ∀ a ∈ as, (f a).length = width) :
    toNat (as.flatMap f) = Nat.ofDigits (2 ^ width) (as.map fun a => toNat (f a)).reverse := by
  induction as using List.reverseRecOn with
  | nil => rfl
  | append_singleton as a ih =>
    have hlast : (f a).length = width := h a (by simp)
    have hinit := ih fun b hb => h b (by simp [hb])
    rw [List.flatMap_append, List.flatMap_singleton, toNat_append, hlast, hinit, List.map_append,
      List.map_singleton, List.reverse_append, List.reverse_singleton, List.singleton_append,
      Nat.ofDigits_cons, Nat.mul_comm, Nat.add_comm]

end Bits

/-! ### Words and values -/

/-- A word is the digit that its ten bits stand for. -/
theorem Word.toNat_flatMap_rawBits (words : List Word) :
    Bits.toNat ((words.map toRaw).flatMap rawBits) =
      Nat.ofDigits 1024 ((words.map toRaw).map UInt16.toNat).reverse := by
  have hdigit : ∀ word : Word, Bits.toNat (rawBits word.toRaw) = word.toRaw.toNat := by
    intro word
    rw [rawBits_toRaw, Bits.toNat_ofNat, toRaw_toNat]
    exact Nat.mod_eq_of_lt word.isLt
  have hwidth : ∀ entry ∈ words.map toRaw, (rawBits entry).length = 10 :=
    fun entry _ => Bits.length_ofNat 10 entry.toNat
  rw [Bits.toNat_flatMap _ hwidth, List.map_map, List.map_map]
  congr 2
  exact List.map_congr_left fun word _ => hdigit word

namespace Share

theorem toNat_valueBits (value : List UInt8) :
    Bits.toNat (valueBits value) = Nat.ofDigits 256 (value.map UInt8.toNat).reverse := by
  have hdigit : ∀ byte : UInt8, Bits.toNat (Bits.ofNat 8 byte.toNat) = byte.toNat := by
    intro byte
    rw [Bits.toNat_ofNat]
    exact Nat.mod_eq_of_lt byte.toNat_lt
  have hwidth : ∀ byte ∈ value, (Bits.ofNat 8 byte.toNat).length = 8 :=
    fun byte _ => Bits.length_ofNat 8 byte.toNat
  rw [valueBits, Bits.toNat_flatMap value hwidth]
  congr 2
  exact List.map_congr_left fun byte _ => hdigit byte

theorem toNat_paddedBits (value : List UInt8) :
    Bits.toNat (paddedBits value) = Nat.ofDigits 256 (value.map UInt8.toNat).reverse := by
  rw [paddedBits, Bits.toNat_append, Bits.toNat_replicate_false, Nat.zero_mul, Nat.zero_add,
    toNat_valueBits]

theorem valueWords_eq_ceilDiv (length : Nat) : valueWords length = (8 * length) ⌈/⌉ 10 := by
  rw [Nat.ceilDiv_eq_add_pred_div, Nat.add_sub_assoc (by decide), valueWords]

theorem length_body (share : Share) :
    (share.body.map Word.toRaw).length = 4 + valueWords share.value.length := by
  rw [List.length_map, body, List.length_map, Bits.length_chunks]

/-- The body of a share is the number of its metadata and its value. -/
theorem ofDigits_body (share : Share) :
    Nat.ofDigits 1024 ((share.body.map Word.toRaw).map UInt16.toNat).reverse =
      share.metadata.number * 2 ^ (10 * valueWords share.value.length) +
        Nat.ofDigits 256 (share.value.map UInt8.toNat).reverse := by
  calc Nat.ofDigits 1024 ((share.body.map Word.toRaw).map UInt16.toNat).reverse
      = Bits.toNat ((share.body.map Word.toRaw).flatMap Word.rawBits) :=
        (Word.toNat_flatMap_rawBits share.body).symm
    _ = Bits.toNat share.bits := by rw [body, Word.flatMap_rawBits_chunks share.length_bits]
    _ = Bits.toNat share.metadata.bits * 2 ^ (10 * valueWords share.value.length) +
          Bits.toNat (paddedBits share.value) := by
        rw [bits, Bits.toNat_append, length_paddedBits]
    _ = _ := by rw [Metadata.toNat_bits, toNat_paddedBits]

/-- **The layout of a share.** Its words but the last three are the digits, in base 1024, of one
number: that of the metadata, moved up by the words of the value, plus the value as a number in base
256. The last three are the checksum of the others under the label of the flag. -/
theorem words_layout (share : Share) :
    let entries := share.words.map Word.toRaw
    let count := (8 * share.value.length) ⌈/⌉ 10
    entries.length = 4 + count + 3 ∧
    (∀ entry ∈ entries, entry ≤ 1023) ∧
    Nat.ofDigits 1024 ((entries.take (4 + count)).map UInt16.toNat).reverse =
      share.metadata.number * 2 ^ (10 * count) +
        Nat.ofDigits 256 (share.value.map UInt8.toNat).reverse ∧
    entries.drop (4 + count) =
      (Checksum.create (Checksum.label share.metadata.extendable)
        (entries.take (4 + count))).map Word.toRaw := by
  intro entries count
  have hcount : valueWords share.value.length = count := valueWords_eq_ceilDiv share.value.length
  have hbody : (share.body.map Word.toRaw).length = 4 + count := hcount ▸ share.length_body
  have hentries : entries = share.body.map Word.toRaw ++
      (Checksum.create (Checksum.label share.metadata.extendable)
        (share.body.map Word.toRaw)).map Word.toRaw :=
    List.map_append
  have htake : entries.take (4 + count) = share.body.map Word.toRaw := by
    rw [hentries, List.take_left' hbody]
  rw [htake]
  refine ⟨?_, fun entry hentry => Word.le_of_mem_map_toRaw hentry, ?_, ?_⟩
  · rw [List.length_map, length_words, wordCount, hcount]
    omega
  · rw [ofDigits_body, hcount]
  · rw [hentries, List.drop_left' hbody]

end Share

end ShamirBackup
