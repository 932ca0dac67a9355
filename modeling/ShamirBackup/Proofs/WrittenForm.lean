import ShamirBackup.Proofs.Outcome
import ShamirBackup.Proofs.ShareWords

/-!
# Reading accepts written shares only

Reading cuts a word buffer into fields, and the fields put together again are the buffer: the
metadata gives back the first four words, the value behind its padding gives back the middle, and
the checksum is the only one that verifies. So a buffer that is read is the one that the share
writes (`words_of_ofRaw`). `refusal?` says from the entries alone which fault a buffer has, and
reading reports this fault or none (`outcome_of_refusal`).
-/

namespace ShamirBackup

/-! ### What the entries of a buffer say -/

namespace Share

section Entries

variable (raw : List UInt16)

/-- The flag that chooses the label of the checksum: bit 4 of the second word. -/
def statedFlag : Bool := (raw.getD 1 0).toNat.testBit 4

/-- One more than the bits 5 to 2 of the third word. -/
def statedThreshold : Nat := (raw.getD 2 0).toNat / 4 % 16 + 1

/-- One more than the last two bits of the third word and the first two of the fourth. -/
def statedCount : Nat := (raw.getD 2 0).toNat % 4 * 4 + (raw.getD 3 0).toNat / 256 % 4 + 1

/-- The bits before the value, which itself takes a multiple of sixteen. -/
def statedPadding : Nat := 10 * (raw.length - 7) % 16

/-- The fault of a buffer, by its entries. -/
def refusal? : Option Fault :=
  if raw.length < 20 then some (.tooFewWords raw.length 20)
  else if ∃ entry ∈ raw, 1023 < entry then some (.form .wordRange)
  else if Checksum.verify (Checksum.label (statedFlag raw)) raw = false then some .checksum
  else if statedCount raw < statedThreshold raw then
    some (.groupThreshold (statedThreshold raw) (statedCount raw))
  else if 8 < statedPadding raw ∨
      ∃ k < statedPadding raw, (raw.getD 4 0).toNat.testBit (9 - k) = true then some .padding
  else none

end Entries

end Share

/-! ### Metadata -/

theorem Parameters.bits_ofBits {bits : List Bool} (h : 20 ≤ bits.length) :
    (Parameters.ofBits bits).bits = bits.take 20 := by
  have hflag : [Bits.field bits 15 1 == 1] = (bits.drop 15).take 1 := by
    have hlt : Bits.field bits 15 1 < 2 := Bits.field_lt bits 15 1
    rw [← Bits.ofNat_field (by omega)]
    generalize Bits.field bits 15 1 = n at hlt ⊢
    obtain rfl | rfl : n = 0 ∨ n = 1 := by omega
    · rfl
    · rfl
  show Bits.ofNat 15 (Bits.field bits 0 15) ++ ([Bits.field bits 15 1 == 1] ++
    Bits.ofNat 4 (Bits.field bits 16 4)) = bits.take 20
  rw [hflag, Bits.ofNat_field (by omega), Bits.ofNat_field (by omega), List.drop_zero,
    ← List.append_assoc, ← List.take_add, ← List.take_add]

namespace Metadata

/-- Metadata is written as it was read. -/
theorem bits_of_ofBits {bits : List Bool} {m : Metadata} (h : 40 ≤ bits.length)
    (hok : ofBits bits = .ok m) : m.bits = bits.take 40 := by
  simp only [ofBits] at hok
  split at hok
  · cases hok
    unfold Metadata.bits
    simp only [Threshold.ofBits, ShareCount.ofBits, ShareIndex.ofBits, Nat.add_sub_cancel]
    rw [Parameters.bits_ofBits (by omega), Bits.ofNat_field (by omega), Bits.ofNat_field (by omega),
      Bits.ofNat_field (by omega), Bits.ofNat_field (by omega), Bits.ofNat_field (by omega),
      ← List.take_add, ← List.take_add, ← List.take_add, ← List.take_add, ← List.take_add]
  · cases hok

theorem toParameters_of_ofBits {bits : List Bool} {m : Metadata} (hok : ofBits bits = .ok m) :
    m.toParameters = Parameters.ofBits bits := by
  simp only [ofBits] at hok
  split at hok
  · cases hok
    rfl
  · cases hok

end Metadata

/-! ### Values -/

namespace Share

/-- Bytes are written as they were cut out. -/
theorem valueBits_chunks {count : Nat} {bits : List Bool} (h : bits.length = 8 * count) :
    valueBits ((Bits.chunks 8 count bits).map fun byte => UInt8.ofNat (Bits.toNat byte)) =
      bits := by
  have hback : ∀ chunk ∈ Bits.chunks 8 count bits,
      Bits.ofNat 8 (UInt8.ofNat (Bits.toNat chunk)).toNat = chunk := by
    intro chunk hchunk
    have hlength := Bits.length_of_mem_chunks h hchunk
    have hlt : Bits.toNat chunk < 256 := by simpa [hlength] using Bits.toNat_lt chunk
    rw [UInt8.toNat_ofNat_of_lt' hlt, Bits.ofNat_toNat hlength]
  unfold valueBits
  rw [List.flatMap_map, List.flatMap_def, List.map_congr_left hback, List.map_id',
    Bits.flatten_chunks h]

theorem eq_replicate_of_any {bits : List Bool} (h : bits.any id = false) :
    bits = List.replicate bits.length false := by
  refine List.eq_replicate_of_mem fun bit hbit => ?_
  simpa using List.any_eq_false.mp h bit hbit

/-- The padding of a read value is the one that writing puts in front of it, since the value takes a
multiple of sixteen bits. -/
theorem paddedBits_of_valueOfBits {count : Nat} {bits : List Bool} {value : List UInt8}
    (hlength : bits.length = 10 * count) (hok : valueOfBits bits = .ok value) :
    paddedBits value = bits ∧ valueWords value.length = count ∧
      8 * value.length = 10 * count - 10 * count % 16 := by
  simp only [valueOfBits] at hok
  split at hok
  · cases hok
  · rename_i hfine
    cases hok
    rw [Bool.or_eq_true, not_or, decide_eq_true_eq, Bool.not_eq_true] at hfine
    obtain ⟨hshort, hzeros⟩ := hfine
    set padding := bits.length % 16 with hpadding
    have hbytes : (bits.drop padding).length = 8 * ((bits.length - padding) / 8) := by
      rw [List.length_drop]
      omega
    have hwidth : (bits.take padding).length = padding := by
      rw [List.length_take]
      omega
    have hwords : valueWords ((bits.length - padding) / 8) = count := by
      rw [valueWords]
      omega
    have hfill : paddingLength ((bits.length - padding) / 8) = padding := by
      rw [paddingLength, hwords]
      omega
    rw [List.length_map, Bits.length_chunks, hwords]
    refine ⟨?_, rfl, by omega⟩
    rw [paddedBits, List.length_map, Bits.length_chunks, hfill, valueBits_chunks hbytes]
    nth_rewrite 1 [← hwidth]
    rw [← eq_replicate_of_any hzeros, List.take_append_drop]

/-- What reading makes of the value. -/
theorem exists_share_of_valueOfBits {count : Nat} {bits : List Bool} {value : List UInt8}
    (hlength : bits.length = 10 * count) (hcount : 13 ≤ count)
    (hok : valueOfBits bits = .ok value) (metadata : Metadata) :
    ∃ share, ofParts metadata value = .ok share := by
  obtain ⟨-, -, hvalue⟩ := paddedBits_of_valueOfBits hlength hok
  have hleast : leastLength ≤ value.length := by
    show 16 ≤ value.length
    omega
  have heven : value.length % 2 = 0 := by omega
  exact ⟨⟨metadata, value, hleast, heven⟩, by rw [ofParts, dif_pos hleast, dif_pos heven]⟩

/-! ### Shares -/

/-- The parts of a buffer that is read. -/
theorem parts_of_ofRaw {raw : List UInt16} {share : Share} (hok : ofRaw raw = .ok share) :
    20 ≤ raw.length ∧ (∀ entry ∈ raw, entry ≤ 1023) ∧
      Metadata.ofBits (raw.flatMap Word.rawBits) = .ok share.metadata ∧
      valueOfBits (((raw.flatMap Word.rawBits).drop 40).take (10 * (raw.length - 7))) =
        .ok share.value ∧
      Checksum.verify (Checksum.label share.metadata.extendable) raw = true := by
  simp only [ofRaw_eq_bits] at hok
  split at hok
  · cases hok
  rename_i hlength
  split at hok
  · cases hok
  rename_i hrange
  split at hok
  · cases hok
  rename_i hverify
  obtain ⟨metadata, hmetadata, hok⟩ := exists_of_bind_eq_ok hok
  obtain ⟨value, hvalue, hok⟩ := exists_of_bind_eq_ok hok
  have hflag : metadata.extendable = (Parameters.ofBits (raw.flatMap Word.rawBits)).extendable :=
    congrArg Parameters.extendable (Metadata.toParameters_of_ofBits hmetadata)
  unfold ofParts at hok
  split at hok
  · split at hok
    · cases hok
      refine ⟨Nat.not_lt.mp hlength, ?_, hmetadata, hvalue, ?_⟩
      · simpa using hrange
      · rw [hflag]
        simpa using hverify
    · cases hok
  · cases hok

/-- **A buffer that is read is the one that its share writes.** -/
theorem words_of_ofRaw {raw : List UInt16} {share : Share} (hok : ofRaw raw = .ok share) :
    share.words.map Word.toRaw = raw := by
  obtain ⟨hlength, hrange, hmetadata, hvalue, hverify⟩ := parts_of_ofRaw hok
  obtain ⟨words, rfl⟩ := Word.exists_map_toRaw hrange
  rw [List.length_map] at hlength hvalue
  have hbits := Word.length_flatMap_rawBits (words.map Word.toRaw)
  rw [List.length_map] at hbits
  have hmiddle : ((((words.map Word.toRaw).flatMap Word.rawBits).drop 40).take
      (10 * (words.length - 7))).length = 10 * (words.length - 7) := by
    rw [List.length_take, List.length_drop, hbits]
    omega
  obtain ⟨hpadded, hcount, -⟩ := paddedBits_of_valueOfBits hmiddle hvalue
  have hbody : share.body = words.take (words.length - 3) := by
    have hsplit : 40 + 10 * (words.length - 7) = 10 * (words.length - 3) := by omega
    have hwidth : 4 + valueWords share.value.length = (words.take (words.length - 3)).length := by
      rw [hcount, List.length_take]
      omega
    rw [body, bits, Metadata.bits_of_ofBits (by omega) hmetadata, hpadded, ← List.take_add, hsplit,
      Word.take_flatMap_rawBits, ← List.map_take, hwidth, Word.map_ofBits_chunks]
  obtain ⟨a, b, c, hclose⟩ : ∃ a b c, words.drop (words.length - 3) = [a, b, c] :=
    List.length_eq_three.mp (by rw [List.length_drop]; omega)
  have hwords : words = share.body ++ [a, b, c] := by
    rw [hbody, ← hclose, List.take_append_drop]
  have hchecksum : [a, b, c] = Checksum.create (Checksum.label share.metadata.extendable)
      (share.body.map Word.toRaw) := by
    rw [hwords, List.map_append] at hverify
    exact (Checksum.verify_append_iff ..).mp hverify
  rw [Share.words, ← hchecksum, ← hwords]

/-! ### Faults -/

section Entries

variable {raw : List UInt16}

theorem extendable_eq_statedFlag (h : 20 ≤ raw.length) :
    (Parameters.ofBits (raw.flatMap Word.rawBits)).extendable = statedFlag raw := by
  show (Bits.field (raw.flatMap Word.rawBits) (10 * 1 + 5) 1 == 1) = statedFlag raw
  rw [Word.field_flatMap_rawBits 1 5 1 (by omega) (by decide), statedFlag,
    Nat.testBit_eq_decide_div_mod_eq]
  rfl

theorem field_eq_statedThreshold (h : 20 ≤ raw.length) :
    Bits.field (raw.flatMap Word.rawBits) 24 4 + 1 = statedThreshold raw :=
  congrArg (· + 1) (Word.field_flatMap_rawBits 2 4 4 (by omega) (by decide))

theorem field_eq_statedCount (h : 20 ≤ raw.length) :
    Bits.field (raw.flatMap Word.rawBits) 28 4 + 1 = statedCount raw :=
  congrArg (· + 1) (Metadata.field_groupCount (by omega))

theorem metadata_eq_error (h : 20 ≤ raw.length) (hlt : statedCount raw < statedThreshold raw) :
    Metadata.ofBits (raw.flatMap Word.rawBits) =
      .error (.groupThreshold (statedThreshold raw) (statedCount raw)) := by
  rw [← field_eq_statedThreshold h, ← field_eq_statedCount h] at hlt ⊢
  exact if_neg (Nat.not_le.mpr hlt)

theorem exists_metadata_eq_ok (h : 20 ≤ raw.length)
    (hle : statedThreshold raw ≤ statedCount raw) :
    ∃ metadata, Metadata.ofBits (raw.flatMap Word.rawBits) = .ok metadata := by
  rw [← field_eq_statedThreshold h, ← field_eq_statedCount h] at hle
  exact ⟨_, if_pos hle⟩

/-- The bits between the metadata and the checksum begin with those of the fifth word. -/
theorem take_middle (h : 20 ≤ raw.length) {count : Nat} (hcount : count ≤ 10) :
    (((raw.flatMap Word.rawBits).drop 40).take (10 * (raw.length - 7))).take count =
      (Bits.ofNat 10 (raw.getD 4 0).toNat).take count := by
  have hfour : 4 < raw.length := by omega
  have hentry : raw.getD 4 0 = raw[4] := by simp [hfour]
  have hmin : min count (10 * (raw.length - 7)) = count := by omega
  have hdrop : (raw.flatMap Word.rawBits).drop 40 = (raw.drop 4).flatMap Word.rawBits :=
    Word.drop_flatMap_rawBits raw 4
  rw [List.take_take, hmin, hdrop, List.drop_eq_getElem_cons hfour, List.flatMap_cons,
    List.take_append_of_le_length (by rw [Word.length_rawBits]; exact hcount), hentry,
    Word.rawBits]

theorem valueOfBits_middle (h : 20 ≤ raw.length) :
    valueOfBits (((raw.flatMap Word.rawBits).drop 40).take (10 * (raw.length - 7))) =
        .error .padding ↔
      8 < statedPadding raw ∨
        ∃ k < statedPadding raw, (raw.getD 4 0).toNat.testBit (9 - k) = true := by
  have hlength : (((raw.flatMap Word.rawBits).drop 40).take (10 * (raw.length - 7))).length % 16 =
      statedPadding raw := by
    rw [List.length_take, List.length_drop, Word.length_flatMap_rawBits, statedPadding]
    congr 1
    omega
  simp only [valueOfBits, hlength]
  by_cases hlong : 8 < statedPadding raw
  · simp [hlong]
  · have hcount : statedPadding raw ≤ 10 := by omega
    rw [take_middle h hcount]
    simp [hlong, Bits.any_take_ofNat _ hcount]

/-- Reading, with the first checks on the entries. -/
theorem ofRaw_eq (raw : List UInt16) : ofRaw raw =
    if raw.length < 20 then .error (.tooFewWords raw.length 20)
    else if ∃ entry ∈ raw, 1023 < entry then .error (.form .wordRange)
    else if Checksum.verify (Checksum.label (statedFlag raw)) raw = false then .error .checksum
    else Metadata.ofBits (raw.flatMap Word.rawBits) >>= fun metadata =>
      valueOfBits (((raw.flatMap Word.rawBits).drop 40).take (10 * (raw.length - 7))) >>=
        ofParts metadata := by
  have hany : raw.any (1023 < ·) = true ↔ ∃ entry ∈ raw, 1023 < entry := by simp
  by_cases hlength : raw.length < 20
  · rw [if_pos hlength]
    exact if_pos hlength
  · have hflag := extendable_eq_statedFlag (Nat.not_lt.mp hlength)
    simp only [ofRaw_eq_bits, leastWords, hlength, if_false, hany, hflag, Bool.not_eq_true']

/-- Nothing but the padding can be wrong with a value, and then it makes a share. -/
theorem exists_ofParts_eq_ok (h : 20 ≤ raw.length)
    (hpadding : ¬ (8 < statedPadding raw ∨
      ∃ k < statedPadding raw, (raw.getD 4 0).toNat.testBit (9 - k) = true))
    (metadata : Metadata) : ∃ share,
      (valueOfBits (((raw.flatMap Word.rawBits).drop 40).take (10 * (raw.length - 7))) >>=
        ofParts metadata) = .ok share := by
  have hlength : (((raw.flatMap Word.rawBits).drop 40).take (10 * (raw.length - 7))).length =
      10 * (raw.length - 7) := by
    rw [List.length_take, List.length_drop, Word.length_flatMap_rawBits]
    omega
  rw [← valueOfBits_middle h] at hpadding
  obtain ⟨value, hvalue⟩ : ∃ value, valueOfBits (((raw.flatMap Word.rawBits).drop 40).take
      (10 * (raw.length - 7))) = .ok value := by
    simp only [valueOfBits] at hpadding ⊢
    split
    · rename_i hfault
      exact absurd (if_pos hfault) hpadding
    · exact ⟨_, rfl⟩
  obtain ⟨share, hshare⟩ := exists_share_of_valueOfBits hlength (by omega) hvalue metadata
  exact ⟨share, by rw [hvalue, ok_bind, hshare]⟩

/-- A buffer with a fault is refused for it, and a buffer without is read. -/
theorem outcome_of_refusal (raw : List UInt16) :
    (∀ fault, refusal? raw = some fault → ofRaw raw = .error fault) ∧
      (refusal? raw = none → ∃ share, ofRaw raw = .ok share) := by
  unfold refusal?
  by_cases hlength : raw.length < 20
  · simp [ofRaw_eq, hlength]
  by_cases hrange : ∃ entry ∈ raw, 1023 < entry
  · simp only [ofRaw_eq, if_neg hlength, if_pos hrange]
    simp
  by_cases hverify : Checksum.verify (Checksum.label (statedFlag raw)) raw = false
  · simp only [ofRaw_eq, if_neg hlength, if_neg hrange, if_pos hverify]
    simp
  have htwenty : 20 ≤ raw.length := Nat.not_lt.mp hlength
  have hread := ofRaw_eq raw
  rw [if_neg hlength, if_neg hrange, if_neg hverify] at hread
  rw [if_neg hlength, if_neg hrange, if_neg hverify]
  by_cases hgroups : statedCount raw < statedThreshold raw
  · rw [metadata_eq_error htwenty hgroups, error_bind] at hread
    rw [if_pos hgroups]
    simp [hread]
  obtain ⟨metadata, hmetadata⟩ := exists_metadata_eq_ok htwenty (Nat.not_lt.mp hgroups)
  rw [hmetadata, ok_bind] at hread
  rw [if_neg hgroups]
  by_cases hpadding : 8 < statedPadding raw ∨
      ∃ k < statedPadding raw, (raw.getD 4 0).toNat.testBit (9 - k) = true
  · rw [(valueOfBits_middle htwenty).mpr hpadding, error_bind] at hread
    rw [if_pos hpadding]
    simp [hread]
  · obtain ⟨share, hshare⟩ := exists_ofParts_eq_ok htwenty hpadding metadata
    rw [hshare] at hread
    rw [if_neg hpadding]
    exact ⟨by simp, fun _ => ⟨share, hread⟩⟩

theorem ofRaw_eq_error_iff (fault : Fault) :
    ofRaw raw = .error fault ↔ refusal? raw = some fault := by
  obtain ⟨hrefused, hread⟩ := outcome_of_refusal raw
  constructor
  · intro herror
    cases hcase : refusal? raw with
    | some other =>
      rw [hrefused other hcase] at herror
      exact congrArg some (Except.error.inj herror)
    | none =>
      obtain ⟨share, hok⟩ := hread hcase
      rw [hok] at herror
      cases herror
  · exact hrefused fault

theorem ofRaw_eq_ok_iff (share : Share) : ofRaw raw = .ok share ↔
    share.words.map Word.toRaw = raw ∧
      share.metadata.groupThreshold.val ≤ share.metadata.groupCount.val := by
  constructor
  · intro hok
    have hwords := words_of_ofRaw hok
    rw [← hwords, ofRaw_words] at hok
    refine ⟨hwords, ?_⟩
    by_contra hgroups
    rw [if_neg hgroups] at hok
    cases hok
  · rintro ⟨rfl, hgroups⟩
    rw [ofRaw_words, if_pos hgroups]

/-- Of a buffer of words that is long enough, the checksum is looked at first. -/
theorem ofRaw_eq_checksum_iff (hlength : 20 ≤ raw.length) (hrange : ∀ entry ∈ raw, entry ≤ 1023) :
    ofRaw raw = .error .checksum ↔
      Checksum.verify (Checksum.label (statedFlag raw)) raw = false := by
  have hfine : ¬ ∃ entry ∈ raw, 1023 < entry := by simpa using hrange
  rw [ofRaw_eq_error_iff, refusal?, if_neg (Nat.not_lt.mpr hlength), if_neg hfine]
  constructor
  · intro hrefused
    by_contra hverify
    rw [if_neg hverify] at hrefused
    split at hrefused
    · cases hrefused
    · split at hrefused
      · cases hrefused
      · cases hrefused
  · intro hverify
    rw [if_pos hverify]

end Entries

/-- **Reading accepts written shares only, and names the first fault of everything else.** The
faults are looked for in this order: too few words, an entry that is no word, the checksum under the
label that the buffer itself chooses, the group threshold, the padding. A buffer without any of them
is read as a share that writes this very buffer. So a buffer is read as a share if and only if the
share writes it and does not ask for more groups than there are. -/
theorem read_iff_written (raw : List UInt16) :
    (match refusal? raw with
      | some fault => ofRaw raw = .error fault
      | none => ∃ share, ofRaw raw = .ok share ∧ share.words.map Word.toRaw = raw) ∧
    ∀ share, ofRaw raw = .ok share ↔ share.words.map Word.toRaw = raw ∧
      share.metadata.groupThreshold.val ≤ share.metadata.groupCount.val := by
  refine ⟨?_, ofRaw_eq_ok_iff⟩
  split
  · rename_i fault hrefused
    exact (ofRaw_eq_error_iff fault).mpr hrefused
  · rename_i hfine
    obtain ⟨share, hok⟩ := (outcome_of_refusal raw).2 hfine
    exact ⟨share, hok, words_of_ofRaw hok⟩

end Share

end ShamirBackup
