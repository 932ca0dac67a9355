import Mathlib.Algebra.Order.Floor.Div
import ShamirBackup.Proofs.Mnemonic
import ShamirBackup.Proofs.Unpacking

/-!
# Shares read back

The bits of the words of a share are its own bits and those of the checksum. So the metadata and the
value are found again behind each other, at every length of the value (`ofRaw_words`). The same
holds for every text that spells the words (`ofMnemonic_of_spells`).
-/

namespace ShamirBackup

/-! ### Words as bits -/

namespace Word

theorem rawBits_ofBits {bits : List Bool} (h : bits.length = 10) :
    rawBits (ofBits bits).toRaw = bits := by
  have hlt : Bits.toNat bits < 1024 := by simpa [h] using Bits.toNat_lt bits
  have hval : (ofBits bits).val = Bits.toNat bits := Nat.mod_eq_of_lt hlt
  rw [rawBits_toRaw, hval, Bits.ofNat_toNat h]

/-- Bits that are cut into words come back in their order. -/
theorem flatMap_rawBits_chunks {count : Nat} {bits : List Bool} (h : bits.length = 10 * count) :
    (((Bits.chunks 10 count bits).map ofBits).map toRaw).flatMap rawBits = bits := by
  have hback : ∀ chunk ∈ Bits.chunks 10 count bits, rawBits (ofBits chunk).toRaw = chunk :=
    fun chunk hchunk => rawBits_ofBits (Bits.length_of_mem_chunks h hchunk)
  rw [List.map_map, List.flatMap_def, List.map_map]
  calc ((Bits.chunks 10 count bits).map (rawBits ∘ toRaw ∘ ofBits)).flatten
      = ((Bits.chunks 10 count bits).map id).flatten :=
        congrArg List.flatten (List.map_congr_left hback)
    _ = bits := by rw [List.map_id, Bits.flatten_chunks h]

end Word

/-! ### Metadata -/

/-- The parameters come first, whatever follows them. -/
theorem Parameters.ofBits_bits_append (p : Parameters) (rest : List Bool) :
    Parameters.ofBits (p.bits ++ rest) = p := by
  obtain ⟨⟨id, hid⟩, extendable, ⟨exponent, hexponent⟩⟩ := p
  set tail := Bits.ofNat 1 extendable.toNat ++ (Bits.ofNat 4 exponent ++ rest) with htail
  have hsplit : Parameters.bits ⟨⟨id, hid⟩, extendable, ⟨exponent, hexponent⟩⟩ ++ rest =
      Bits.ofNat 15 id ++ tail := by
    cases extendable <;> simp [Parameters.bits, Bits.ofNat, htail]
  have hidentifier : Bits.field (Bits.ofNat 15 id ++ tail) 0 15 = id := by
    rw [Bits.field_ofNat_append]
    exact Nat.mod_eq_of_lt hid
  have hflag : (Bits.field (Bits.ofNat 15 id ++ tail) 15 1 == 1) = extendable := by
    rw [Bits.field_append_of_le _ _ _ (by simp), Bits.length_ofNat, Nat.sub_self, htail,
      Bits.field_ofNat_append]
    cases extendable <;> rfl
  have hiterations : Bits.field (Bits.ofNat 15 id ++ tail) 16 4 = exponent := by
    rw [Bits.field_append_of_le _ _ _ (by simp), Bits.length_ofNat, htail,
      Bits.field_append_of_le _ _ _ (by simp), Bits.length_ofNat, Bits.field_ofNat_append]
    exact Nat.mod_eq_of_lt hexponent
  simp only [Parameters.ofBits, hsplit, hidentifier, hflag, hiterations]

namespace Metadata

/-- Metadata is found again at the front of a share, unless more groups are needed than there
are. -/
theorem ofBits_bits_append (m : Metadata) (rest : List Bool) :
    ofBits (m.bits ++ rest) =
      if m.groupThreshold.val ≤ m.groupCount.val then .ok m
      else .error (.groupThreshold m.groupThreshold.val m.groupCount.val) := by
  obtain ⟨p, ⟨gi, hgi⟩, ⟨gt, hgt₁, hgt₂⟩, ⟨gc, hgc₁, hgc₂⟩, ⟨mi, hmi⟩, ⟨mt, hmt₁, hmt₂⟩⟩ := m
  have hp : ∀ rest, Parameters.ofBits (p.bits ++ rest) = p := p.ofBits_bits_append
  have hlength : p.bits.length = 20 := by simp [Parameters.bits]
  have hgt : (gt - 1) % 16 + 1 = gt := by omega
  have hgc : (gc - 1) % 16 + 1 = gc := by omega
  have hmt : (mt - 1) % 16 + 1 = mt := by omega
  simp [ofBits, bits, Threshold.ofBits, ShareCount.ofBits, ShareIndex.ofBits, hp, hlength,
    Bits.field_append_of_le, Bits.field_ofNat_append, Nat.mod_eq_of_lt hgi, Nat.mod_eq_of_lt hmi,
    hgt, hgc, hmt]

end Metadata

/-! ### Values -/

namespace Share

theorem length_valueBits (value : List UInt8) : (valueBits value).length = 8 * value.length := by
  induction value with
  | nil => rfl
  | cons byte value ih =>
    simp only [valueBits, List.flatMap_cons, List.length_append, Bits.length_ofNat,
      List.length_cons] at ih ⊢
    omega

theorem paddingLength_add (length : Nat) :
    paddingLength length + 8 * length = 10 * valueWords length := by
  rw [paddingLength, valueWords]
  omega

@[simp] theorem length_paddedBits (value : List UInt8) :
    (paddedBits value).length = 10 * valueWords value.length := by
  rw [paddedBits, List.length_append, List.length_replicate, length_valueBits, paddingLength_add]

/-- The bits of an even number of bytes are a multiple of sixteen, and so what is left of the padded
bits is the padding. -/
theorem padding_eq_mod {length : Nat} (heven : length % 2 = 0) :
    10 * valueWords length % 16 = paddingLength length ∧ paddingLength length ≤ 8 := by
  rw [paddingLength, valueWords]
  omega

theorem ofNat_toNat_bits (byte : UInt8) :
    UInt8.ofNat (Bits.toNat (Bits.ofNat 8 byte.toNat)) = byte := by
  rw [Bits.toNat_ofNat, Nat.mod_eq_of_lt byte.toNat_lt, UInt8.ofNat_toNat]

theorem valueOfBits_paddedBits {value : List UInt8} (heven : value.length % 2 = 0) :
    valueOfBits (paddedBits value) = .ok value := by
  obtain ⟨hpadding, hle⟩ := padding_eq_mod heven
  have hzeros : ((paddedBits value).take (paddingLength value.length)).any id = false := by
    rw [paddedBits, List.take_left' List.length_replicate]
    simp
  have hdrop : (paddedBits value).drop (paddingLength value.length) = valueBits value := by
    rw [paddedBits, List.drop_left' List.length_replicate]
  have hcount : (10 * valueWords value.length - paddingLength value.length) / 8 = value.length := by
    have := paddingLength_add value.length
    omega
  have hchunks : Bits.chunks 8 value.length (valueBits value) =
      value.map fun byte => Bits.ofNat 8 byte.toNat :=
    Bits.chunks_flatMap value fun _ _ => Bits.length_ofNat ..
  rw [valueOfBits, length_paddedBits, hpadding]
  simp only [hzeros, hdrop, hcount, hchunks, Nat.not_lt.mpr hle, decide_false, Bool.or_self,
    Bool.false_eq_true, if_false, List.map_map, Function.comp_def, ofNat_toNat_bits, List.map_id']

/-! ### Shares -/

theorem length_bits (share : Share) :
    share.bits.length = 10 * (4 + valueWords share.value.length) := by
  rw [bits, List.length_append, Metadata.length_bits, length_paddedBits]
  omega

@[simp] theorem length_words (share : Share) : share.words.length = share.wordCount := by
  rw [words, List.length_append, Checksum.length_create, body, List.length_map, Bits.length_chunks,
    wordCount]
  omega

theorem leastWords_le_wordCount (share : Share) : leastWords ≤ share.wordCount := by
  have hleast := share.le_length
  rw [wordCount, valueWords]
  simp only [leastLength, leastWords] at hleast ⊢
  omega

/-- The bits of the words of a share: its own and those of the checksum. -/
theorem exists_flatMap_rawBits_words (share : Share) :
    ∃ checksum, (share.words.map Word.toRaw).flatMap Word.rawBits =
      share.metadata.bits ++ (paddedBits share.value ++ checksum) := by
  refine ⟨((Checksum.create (Checksum.label share.metadata.extendable)
    (share.body.map Word.toRaw)).map Word.toRaw).flatMap Word.rawBits, ?_⟩
  rw [words, List.map_append, List.flatMap_append, body,
    Word.flatMap_rawBits_chunks share.length_bits, bits, List.append_assoc]

/-- The words of a share choose the label under which their checksum was made. -/
theorem extendable_words (share : Share) :
    (Parameters.ofBits ((share.words.map Word.toRaw).flatMap Word.rawBits)).extendable =
      share.metadata.extendable := by
  obtain ⟨checksum, hbits⟩ := share.exists_flatMap_rawBits_words
  rw [hbits]
  simp only [Metadata.bits, List.append_assoc, Parameters.ofBits_bits_append]

theorem verify_words (share : Share) :
    Checksum.verify (Checksum.label share.metadata.extendable) (share.words.map Word.toRaw) =
      true := by
  rw [words, List.map_append]
  exact Checksum.verify_append_create ..

theorem any_words (share : Share) : (share.words.map Word.toRaw).any (1023 < ·) = false := by
  simp only [List.any_eq_false, decide_eq_true_eq]
  exact fun entry hentry => UInt16.not_lt.mpr (Word.le_of_mem_map_toRaw hentry)

theorem ofParts_metadata_value (share : Share) :
    ofParts share.metadata share.value = .ok share := by
  rw [ofParts, dif_pos share.le_length, dif_pos share.even_length]

/-- **Reading undoes writing.** A share is read back from its words, unless it asks for more groups
than there are, which no reader accepts. -/
theorem ofRaw_words (share : Share) :
    ofRaw (share.words.map Word.toRaw) =
      if share.metadata.groupThreshold.val ≤ share.metadata.groupCount.val then .ok share
      else .error (.groupThreshold share.metadata.groupThreshold.val
        share.metadata.groupCount.val) := by
  obtain ⟨checksum, hbits⟩ := share.exists_flatMap_rawBits_words
  have hlength : (share.words.map Word.toRaw).length = share.wordCount := by simp
  have hextendable := share.extendable_words
  rw [hbits] at hextendable
  have hvalue : ((share.metadata.bits ++ (paddedBits share.value ++ checksum)).drop 40).take
      (10 * (share.wordCount - 7)) = paddedBits share.value := by
    rw [List.drop_left' share.metadata.length_bits, List.take_left']
    rw [length_paddedBits, wordCount, Nat.add_sub_cancel_left]
  rw [ofRaw_eq_bits, hlength, if_neg (Nat.not_lt.mpr share.leastWords_le_wordCount)]
  simp only [share.any_words, hbits, hextendable, share.verify_words, hvalue,
    Metadata.ofBits_bits_append, valueOfBits_paddedBits share.even_length, Bool.false_eq_true,
    Bool.not_true, if_false]
  split
  · exact share.ofParts_metadata_value
  · rfl

/-! ### Texts -/

theorem ofMnemonic_of_spells {text : String} {share : Share}
    (h : Spells text.toList (share.words.map Word.spelling)) :
    ofMnemonic text = ofRaw (share.words.map Word.toRaw) := by
  rw [ofMnemonic, Mnemonic.words_of_spells h]
  rfl

theorem spells_mnemonic (share : Share) :
    Spells share.mnemonic.toList (share.words.map Word.spelling) :=
  Mnemonic.spells_ofWords share.words

theorem ofMnemonic_mnemonic {share : Share}
    (h : share.metadata.groupThreshold.val ≤ share.metadata.groupCount.val) :
    ofMnemonic share.mnemonic = .ok share := by
  rw [ofMnemonic_of_spells share.spells_mnemonic, ofRaw_words, if_pos h]

/-- **A share is read back from its words and from its mnemonic.** Writing never fails and takes
seven words and those of the value. What was written is read as the share, with one exception: a
share that asks for more groups than there are can be built and written, but reading refuses it. -/
theorem read_written (share : Share) :
    ofParts share.metadata share.value = .ok share ∧
    share.wordCount = 7 + (8 * share.value.length) ⌈/⌉ 10 ∧
    share.words.length = share.wordCount ∧
    Mnemonic.ofRaw (share.words.map Word.toRaw) = .ok share.mnemonic ∧
    (Text.tokens share.mnemonic).length = share.wordCount ∧
    (share.metadata.groupThreshold.val ≤ share.metadata.groupCount.val →
      ofRaw (share.words.map Word.toRaw) = .ok share ∧ ofMnemonic share.mnemonic = .ok share) ∧
    (share.metadata.groupCount.val < share.metadata.groupThreshold.val →
      ofRaw (share.words.map Word.toRaw) = .error (.groupThreshold
        share.metadata.groupThreshold.val share.metadata.groupCount.val)) := by
  refine ⟨share.ofParts_metadata_value, ?_, share.length_words, ?_, ?_, fun hle => ?_,
    fun hlt => ?_⟩
  · rw [wordCount, valueWords, Nat.ceilDiv_eq_add_pred_div, Nat.add_sub_assoc (by decide)]
  · exact Mnemonic.ofRaw_map_toRaw share.words
  · rw [mnemonic, Mnemonic.length_tokens_ofWords, length_words]
  · have hread : ofRaw (share.words.map Word.toRaw) = .ok share := by
      rw [ofRaw_words, if_pos hle]
    refine ⟨hread, ?_⟩
    rw [ofMnemonic_of_spells share.spells_mnemonic, hread]
  · rw [ofRaw_words, if_neg (Nat.not_le.mpr hlt)]

end Share

end ShamirBackup
