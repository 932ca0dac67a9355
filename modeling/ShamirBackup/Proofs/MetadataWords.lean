import ShamirBackup.Proofs.Bits
import ShamirBackup.Proofs.Checksum
import ShamirBackup.Proofs.Outcome
import ShamirBackup.Share.Metadata

/-!
# Metadata by shifts

Metadata is a number of forty bits (`Metadata.number`), which four words spell. Shifts and masks of
words are quotients and remainders of their numbers: so what writing puts together is this number
(`toRaw_eq`), and what reading takes apart are the bits of its fields (`ofRaw_eq_ofBits`).
-/

namespace ShamirBackup

/-! ### Words of a buffer -/

namespace Word

theorem rawBits_toRaw (word : Word) : rawBits word.toRaw = Bits.ofNat 10 word.val := by
  rw [rawBits, toRaw_toNat]

theorem length_rawBits (entry : UInt16) : (rawBits entry).length = 10 :=
  Bits.length_ofNat ..

theorem length_flatMap_rawBits (raw : List UInt16) :
    (raw.flatMap rawBits).length = 10 * raw.length := by
  induction raw with
  | nil => rfl
  | cons entry raw ih =>
    rw [List.flatMap_cons, List.length_append, ih, length_rawBits, List.length_cons]
    omega

theorem drop_flatMap_rawBits (raw : List UInt16) (i : Nat) :
    (raw.flatMap rawBits).drop (10 * i) = (raw.drop i).flatMap rawBits := by
  induction i generalizing raw with
  | zero => rfl
  | succ i ih =>
    cases raw with
    | nil => simp
    | cons entry raw =>
      rw [List.flatMap_cons, Nat.mul_succ, Nat.add_comm, ← List.drop_drop,
        List.drop_left' (length_rawBits entry), ih, List.drop_succ_cons]

theorem take_flatMap_rawBits (raw : List UInt16) (i : Nat) :
    (raw.flatMap rawBits).take (10 * i) = (raw.take i).flatMap rawBits := by
  induction i generalizing raw with
  | zero => rfl
  | succ i ih =>
    cases raw with
    | nil => simp
    | cons entry raw =>
      rw [List.flatMap_cons, Nat.mul_succ, Nat.add_comm, List.take_add,
        List.take_left' (length_rawBits entry), List.drop_left' (length_rawBits entry), ih,
        List.take_succ_cons, List.flatMap_cons]

theorem ofBits_rawBits_toRaw (word : Word) : ofBits (rawBits word.toRaw) = word := by
  rw [rawBits_toRaw]
  apply Fin.ext
  show Bits.toNat (Bits.ofNat 10 word.val) % 1024 = word.val
  rw [Bits.toNat_ofNat]
  have hlt := word.isLt
  omega

/-- Cutting the bits of words gives the words. -/
theorem map_ofBits_chunks (words : List Word) :
    (Bits.chunks 10 words.length ((words.map toRaw).flatMap rawBits)).map ofBits = words := by
  have hchunks := Bits.chunks_flatMap (words.map toRaw) fun entry _ => length_rawBits entry
  rw [List.length_map] at hchunks
  rw [hchunks, List.map_map, List.map_map]
  exact (List.map_congr_left fun word _ => word.ofBits_rawBits_toRaw).trans (List.map_id _)

/-- A field that lies inside one word. -/
theorem field_flatMap_rawBits {raw : List UInt16} (i start width : Nat) (hi : i < raw.length)
    (h : start + width ≤ 10) :
    Bits.field (raw.flatMap rawBits) (10 * i + start) width =
      (raw.getD i 0).toNat / 2 ^ (10 - start - width) % 2 ^ width := by
  have hshift : Bits.field (raw.flatMap rawBits) (10 * i + start) width =
      Bits.field ((raw.drop i).flatMap rawBits) start width := by
    rw [Bits.field, Bits.field, ← List.drop_drop, drop_flatMap_rawBits]
  have hentry : raw.getD i 0 = raw[i] := by simp [hi]
  rw [hshift, List.drop_eq_getElem_cons hi, List.flatMap_cons, rawBits,
    Bits.field_ofNat_append_of_le _ _ h, hentry]

/-! ### Shifts and masks -/

section Shifts

variable {a b : UInt16} {m n : Nat}

/-- What is shifted up makes room for what is joined to it. -/
theorem toNat_shiftLeft_or (k : Nat) (ha : a.toNat = m) (hb : b.toNat = n) (hk : k < 16)
    (hm : m < 2 ^ (16 - k)) (hn : n < 2 ^ k) :
    (a <<< UInt16.ofNat k ||| b).toNat = m * 2 ^ k + n := by
  have hcount : (UInt16.ofNat k).toNat % 16 = k := by
    rw [UInt16.toNat_ofNat_of_lt' (Nat.lt_trans hk (by decide)), Nat.mod_eq_of_lt hk]
  have hroom : m * 2 ^ k < 2 ^ 16 := by
    rw [← Nat.sub_add_cancel hk.le, Nat.pow_add]
    exact Nat.mul_lt_mul_of_pos_right hm (Nat.two_pow_pos k)
  rw [UInt16.toNat_or, UInt16.toNat_shiftLeft, hcount, ha, hb, Nat.shiftLeft_eq,
    Nat.mod_eq_of_lt hroom, ← Nat.shiftLeft_eq, ← Nat.shiftLeft_add_eq_or_of_lt hn]

theorem toNat_shiftRight (k : Nat) (ha : a.toNat = m) (hk : k < 16) :
    (a >>> UInt16.ofNat k).toNat = m / 2 ^ k := by
  rw [UInt16.toNat_shiftRight, UInt16.toNat_ofNat_of_lt' (Nat.lt_trans hk (by decide)),
    Nat.mod_eq_of_lt hk, ha, Nat.shiftRight_eq_div_pow]

theorem toNat_and_mask {mask : UInt16} (k : Nat) (ha : a.toNat = m)
    (hmask : mask.toNat = 2 ^ k - 1) : (a &&& mask).toNat = m % 2 ^ k := by
  rw [UInt16.toNat_and, hmask, Nat.and_two_pow_sub_one_eq_mod, ha]

theorem toNat_toUInt8 (ha : a.toNat = m) (hm : m < 2 ^ 4) : a.toUInt8.toNat = m := by
  rw [UInt16.toNat_toUInt8, ha, Nat.mod_eq_of_lt (Nat.lt_trans hm (by decide))]

theorem toNat_toUInt8_add_one (ha : a.toNat = m) (hm : m < 2 ^ 4) :
    (a.toUInt8 + 1).toNat = m + 1 := by
  rw [UInt8.toNat_add, toNat_toUInt8 ha hm]
  exact Nat.mod_eq_of_lt (Nat.lt_trans (Nat.succ_lt_succ hm) (by decide))

end Shifts

end Word

/-! ### Writing metadata -/

namespace Metadata

/-- The fields in one number of forty bits, with thresholds and counts from zero on. -/
def number (m : Metadata) : Nat :=
  m.identifier.val * 2 ^ 25 + m.extendable.toNat * 2 ^ 24 + m.exponent.val * 2 ^ 20 +
    m.groupIndex.val * 2 ^ 16 + (m.groupThreshold.val - 1) * 2 ^ 12 +
    (m.groupCount.val - 1) * 2 ^ 8 + m.memberIndex.val * 2 ^ 4 + (m.memberThreshold.val - 1)

theorem toNat_bits (m : Metadata) : Bits.toNat m.bits = m.number := by
  obtain ⟨⟨⟨id, hid⟩, extendable, ⟨exponent, hexponent⟩⟩, ⟨gi, hgi⟩, ⟨gt, hgt₁, hgt₂⟩,
    ⟨gc, hgc₁, hgc₂⟩, ⟨mi, hmi⟩, ⟨mt, hmt₁, hmt₂⟩⟩ := m
  simp only [bits, Parameters.bits, number, Bits.toNat_append, Bits.toNat_cons, Bits.toNat_ofNat,
    Bits.length_ofNat, List.length_cons]
  omega

@[simp] theorem length_bits (m : Metadata) : m.bits.length = 40 := by
  simp [bits, Parameters.bits]

theorem number_lt (m : Metadata) : m.number < 2 ^ 40 := by
  have hlt := Bits.toNat_lt m.bits
  rwa [toNat_bits, length_bits, Nat.one_shiftLeft] at hlt

/-- Shifts write the digits of the number. -/
theorem toNat_toRaw (m : Metadata) : m.toRaw.map UInt16.toNat =
    [m.number / 2 ^ 30, m.number / 2 ^ 20 % 2 ^ 10, m.number / 2 ^ 10 % 2 ^ 10,
      m.number % 2 ^ 10] := by
  obtain ⟨⟨⟨id, hid⟩, extendable, ⟨exponent, hexponent⟩⟩, ⟨gi, hgi⟩, ⟨gt, hgt₁, hgt₂⟩,
    ⟨gc, hgc₁, hgc₂⟩, ⟨mi, hmi⟩, ⟨mt, hmt₁, hmt₂⟩⟩ := m
  -- No two fields share a bit, so the entries that are joined from them are sums.
  have hentry : ∀ n < 2 ^ 15, (UInt16.ofNat n).toNat = n :=
    fun n hn => UInt16.toNat_ofNat_of_lt' (Nat.lt_trans hn (by decide))
  have hflag : extendable.toUInt16.toNat = extendable.toNat := by cases extendable <;> rfl
  have hbit : extendable.toNat < 2 := extendable.toNat_lt
  have hcount : (UInt16.ofNat (gc - 1)).toNat = gc - 1 := hentry _ (by omega)
  have h₀ : (UInt16.ofNat id >>> 5).toNat = id / 2 ^ 5 :=
    Word.toNat_shiftRight 5 (hentry id hid) (by decide)
  have h₁ : ((UInt16.ofNat id &&& 0x1f) <<< 5 |||
      (extendable.toUInt16 <<< 4 ||| UInt16.ofNat exponent)).toNat =
        id % 2 ^ 5 * 2 ^ 5 + (extendable.toNat * 2 ^ 4 + exponent) :=
    Word.toNat_shiftLeft_or 5 (Word.toNat_and_mask 5 (hentry id hid) rfl)
      (Word.toNat_shiftLeft_or 4 hflag (hentry exponent (by omega)) (by decide) (by omega)
        (by omega)) (by decide) (by omega) (by omega)
  have h₂ : (UInt16.ofNat gi <<< 6 |||
      (UInt16.ofNat (gt - 1) <<< 2 ||| UInt16.ofNat (gc - 1) >>> 2)).toNat =
        gi * 2 ^ 6 + ((gt - 1) * 2 ^ 2 + (gc - 1) / 2 ^ 2) :=
    Word.toNat_shiftLeft_or 6 (hentry gi (by omega))
      (Word.toNat_shiftLeft_or 2 (hentry (gt - 1) (by omega))
        (Word.toNat_shiftRight 2 hcount (by decide)) (by decide) (by omega) (by omega))
      (by decide) (by omega) (by omega)
  have h₃ : ((UInt16.ofNat (gc - 1) &&& 0x3) <<< 8 |||
      (UInt16.ofNat mi <<< 4 ||| UInt16.ofNat (mt - 1))).toNat =
        (gc - 1) % 2 ^ 2 * 2 ^ 8 + (mi * 2 ^ 4 + (mt - 1)) :=
    Word.toNat_shiftLeft_or 8 (Word.toNat_and_mask 2 hcount rfl)
      (Word.toNat_shiftLeft_or 4 (hentry mi (by omega)) (hentry (mt - 1) (by omega)) (by decide)
        (by omega) (by omega)) (by decide) (by omega) (by omega)
  simp only [toRaw, List.map_cons, List.map_nil, UInt16.or_assoc, h₀, h₁, h₂, h₃, number,
    List.cons.injEq, and_true]
  refine ⟨?_, ?_, ?_, ?_⟩
  all_goals omega

theorem flatMap_rawBits_toRaw (m : Metadata) : m.toRaw.flatMap Word.rawBits = m.bits :=
  calc m.toRaw.flatMap Word.rawBits
    _ = (m.toRaw.map UInt16.toNat).flatMap (Bits.ofNat 10) := (List.flatMap_map ..).symm
    _ = Bits.ofNat (10 + (10 + (10 + 10))) m.number := by
      rw [toNat_toRaw, Bits.ofNat_add, Bits.ofNat_add, Bits.ofNat_add]
      simp only [List.flatMap_cons, List.flatMap_nil, Bits.ofNat_mod, List.append_nil]
    _ = m.bits := by rw [← toNat_bits, Bits.ofNat_toNat m.length_bits]

/-- **Shifts write the words of the metadata.** -/
theorem toRaw_eq (m : Metadata) : m.toRaw = m.words.map Word.toRaw := by
  have hrange : ∀ entry ∈ m.toRaw, entry ≤ 1023 := by
    intro entry hentry
    have hdigit := List.mem_map_of_mem (f := UInt16.toNat) hentry
    have hlt := m.number_lt
    rw [toNat_toRaw] at hdigit
    simp only [List.mem_cons, List.not_mem_nil, or_false] at hdigit
    show entry.toNat ≤ 1023
    omega
  obtain ⟨words, hwords⟩ := Word.exists_map_toRaw hrange
  have hcount : words.length = 4 := by simpa [toRaw] using (congrArg List.length hwords).symm
  rw [Metadata.words, ← flatMap_rawBits_toRaw, hwords, ← hcount, Word.map_ofBits_chunks]

/-! ### Reading metadata -/

section Fields

variable {raw : List UInt16}

theorem toNat_entry (raw : List UInt16) (i : Nat) :
    (entry raw i).toNat = (raw.getD i 0).toNat % 2 ^ 10 :=
  Word.toNat_and_mask 10 rfl rfl

variable (h : 4 ≤ raw.length)
include h

theorem toNat_identifier : (entry raw 0 <<< 5 ||| entry raw 1 >>> 5).toNat =
    Bits.field (raw.flatMap Word.rawBits) 0 15 := by
  have hhigh : Bits.field (raw.flatMap Word.rawBits) 0 10 = (raw.getD 0 0).toNat / 1 % 2 ^ 10 :=
    Word.field_flatMap_rawBits 0 0 10 (by omega) (by decide)
  have hlow : Bits.field (raw.flatMap Word.rawBits) 10 5 = (raw.getD 1 0).toNat / 2 ^ 5 % 2 ^ 5 :=
    Word.field_flatMap_rawBits 1 0 5 (by omega) (by decide)
  have hjoined : (entry raw 0 <<< 5 ||| entry raw 1 >>> 5).toNat =
      (raw.getD 0 0).toNat % 2 ^ 10 * 2 ^ 5 + (raw.getD 1 0).toNat % 2 ^ 10 / 2 ^ 5 :=
    Word.toNat_shiftLeft_or 5 (toNat_entry raw 0)
      (Word.toNat_shiftRight 5 (toNat_entry raw 1) (by decide)) (by decide) (by omega) (by omega)
  rw [Bits.field_add 10 5 (by rw [Word.length_flatMap_rawBits]; omega), hhigh, hlow, hjoined]
  omega

/-- The flag is found in the whole entry as in its ten bits. -/
theorem flag_eq {a : UInt16} (ha : a.toNat % 2 ^ 10 = (raw.getD 1 0).toNat % 2 ^ 10) :
    (a >>> 4 &&& 1 == 1) = (Bits.field (raw.flatMap Word.rawBits) 15 1 == 1) := by
  have hbit : (a >>> 4 &&& 1).toNat = Bits.field (raw.flatMap Word.rawBits) 15 1 := by
    rw [Word.field_flatMap_rawBits 1 5 1 (by omega) (by decide)]
    refine (Word.toNat_and_mask 1 (Word.toNat_shiftRight 4 rfl (by decide)) rfl).trans ?_
    omega
  rw [← hbit, Bool.eq_iff_iff, beq_iff_eq, beq_iff_eq, ← UInt16.toNat_inj]
  rfl

theorem toNat_exponent : (entry raw 1 &&& 0xf).toUInt8.toNat =
    Bits.field (raw.flatMap Word.rawBits) 16 4 := by
  rw [Word.field_flatMap_rawBits 1 6 4 (by omega) (by decide)]
  refine (Word.toNat_toUInt8 (Word.toNat_and_mask 4 (toNat_entry raw 1) rfl) (by omega)).trans ?_
  omega

theorem toNat_groupIndex : (entry raw 2 >>> 6).toUInt8.toNat =
    Bits.field (raw.flatMap Word.rawBits) 20 4 := by
  rw [Word.field_flatMap_rawBits 2 0 4 (by omega) (by decide)]
  refine (Word.toNat_toUInt8 (Word.toNat_shiftRight 6 (toNat_entry raw 2) (by decide))
    (by omega)).trans ?_
  omega

theorem toNat_groupThreshold : ((entry raw 2 >>> 2 &&& 0xf).toUInt8 + 1).toNat =
    Bits.field (raw.flatMap Word.rawBits) 24 4 + 1 := by
  rw [Word.field_flatMap_rawBits 2 4 4 (by omega) (by decide)]
  refine (Word.toNat_toUInt8_add_one (Word.toNat_and_mask 4
    (Word.toNat_shiftRight 2 (toNat_entry raw 2) (by decide)) rfl) (by omega)).trans ?_
  omega

/-- The number of groups is spread over two entries. -/
theorem field_groupCount : Bits.field (raw.flatMap Word.rawBits) 28 4 =
    (raw.getD 2 0).toNat % 4 * 4 + (raw.getD 3 0).toNat / 256 % 4 := by
  have hhigh : Bits.field (raw.flatMap Word.rawBits) 28 2 = (raw.getD 2 0).toNat / 1 % 4 :=
    Word.field_flatMap_rawBits 2 8 2 (by omega) (by decide)
  have hlow : Bits.field (raw.flatMap Word.rawBits) 30 2 = (raw.getD 3 0).toNat / 256 % 4 :=
    Word.field_flatMap_rawBits 3 0 2 (by omega) (by decide)
  rw [Bits.field_add 2 2 (by rw [Word.length_flatMap_rawBits]; omega), hhigh, hlow, Nat.div_one]
  rfl

theorem toNat_groupCount :
    ((((entry raw 2 &&& 0x3) <<< 2 ||| entry raw 3 >>> 8) &&& 0xf).toUInt8 + 1).toNat =
      Bits.field (raw.flatMap Word.rawBits) 28 4 + 1 := by
  have hjoined : ((entry raw 2 &&& 0x3) <<< 2 ||| entry raw 3 >>> 8).toNat =
      (raw.getD 2 0).toNat % 2 ^ 10 % 2 ^ 2 * 2 ^ 2 + (raw.getD 3 0).toNat % 2 ^ 10 / 2 ^ 8 :=
    Word.toNat_shiftLeft_or 2 (Word.toNat_and_mask 2 (toNat_entry raw 2) rfl)
      (Word.toNat_shiftRight 8 (toNat_entry raw 3) (by decide)) (by decide) (by omega) (by omega)
  rw [field_groupCount h, Word.toNat_toUInt8_add_one (Word.toNat_and_mask 4 hjoined rfl) (by omega)]
  omega

theorem toNat_memberIndex : (entry raw 3 >>> 4 &&& 0xf).toUInt8.toNat =
    Bits.field (raw.flatMap Word.rawBits) 32 4 := by
  rw [Word.field_flatMap_rawBits 3 2 4 (by omega) (by decide)]
  refine (Word.toNat_toUInt8 (Word.toNat_and_mask 4
    (Word.toNat_shiftRight 4 (toNat_entry raw 3) (by decide)) rfl) (by omega)).trans ?_
  omega

theorem toNat_memberThreshold : ((entry raw 3 &&& 0xf).toUInt8 + 1).toNat =
    Bits.field (raw.flatMap Word.rawBits) 36 4 + 1 := by
  rw [Word.field_flatMap_rawBits 3 6 4 (by omega) (by decide)]
  refine (Word.toNat_toUInt8_add_one (Word.toNat_and_mask 4 (toNat_entry raw 3) rfl)
    (by omega)).trans ?_
  omega

/-- **Shifts read the bits of the metadata.** All numbers that they find are in range, so that the
group threshold alone can be refused. -/
theorem ofRaw_eq_ofBits : ofRaw raw = ofBits (raw.flatMap Word.rawBits) := by
  set bits := raw.flatMap Word.rawBits with hbits
  have hidentifier : Identifier.ofNat (entry raw 0 <<< 5 ||| entry raw 1 >>> 5).toNat =
      .ok (Parameters.ofBits bits).identifier := by
    rw [toNat_identifier h]
    exact Identifier.ofNat_val (Parameters.ofBits bits).identifier
  have hextendable : (entry raw 1 >>> 4 &&& 1 == 1) = (Parameters.ofBits bits).extendable :=
    flag_eq h (by rw [toNat_entry, Nat.mod_mod])
  have hexponent : IterationExponent.ofNat (entry raw 1 &&& 0xf).toUInt8.toNat =
      .ok (Parameters.ofBits bits).exponent := by
    rw [toNat_exponent h]
    exact IterationExponent.ofNat_val (Parameters.ofBits bits).exponent
  have hgroupIndex : ShareIndex.ofNat (entry raw 2 >>> 6).toUInt8.toNat =
      .ok (ShareIndex.ofBits bits 20) := by
    rw [toNat_groupIndex h]
    exact ShareIndex.ofNat_val (.ofBits bits 20)
  have hmemberIndex : ShareIndex.ofNat (entry raw 3 >>> 4 &&& 0xf).toUInt8.toNat =
      .ok (ShareIndex.ofBits bits 32) := by
    rw [toNat_memberIndex h]
    exact ShareIndex.ofNat_val (.ofBits bits 32)
  have hmemberThreshold : Threshold.ofNat ((entry raw 3 &&& 0xf).toUInt8 + 1).toNat =
      .ok (Threshold.ofBits bits 36) := by
    rw [toNat_memberThreshold h]
    exact Threshold.ofNat_val (.ofBits bits 36)
  have hgroupThreshold : Threshold.ofNat (Bits.field bits 24 4 + 1) =
      .ok (Threshold.ofBits bits 24) := Threshold.ofNat_val (.ofBits bits 24)
  have hgroupCount : ShareCount.ofNat (Bits.field bits 28 4 + 1) =
      .ok (ShareCount.ofBits bits 28) := ShareCount.ofNat_val (.ofBits bits 28)
  simp only [ofRaw, hidentifier, hexponent, hgroupIndex, hmemberIndex, hmemberThreshold,
    UInt8.lt_iff_toNat_lt, toNat_groupThreshold h, toNat_groupCount h, hextendable, ← hbits,
    hgroupThreshold, hgroupCount, ok_bind]
  by_cases hgroups : (Threshold.ofBits bits 24).val ≤ (ShareCount.ofBits bits 28).val
  · rw [ofBits, if_pos hgroups]
    exact if_neg (Nat.not_lt.mpr hgroups)
  · rw [ofBits, if_neg hgroups]
    exact if_pos (Nat.lt_of_not_le hgroups)

end Fields

end Metadata

end ShamirBackup
