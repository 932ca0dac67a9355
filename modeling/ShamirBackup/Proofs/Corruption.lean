import ShamirBackup.Proofs.Distance
import ShamirBackup.Proofs.WrittenForm

/-!
# Changes of a share that reading notices

A change of up to three words that leaves the flag alone is noticed, since the checksum has distance
four. A change of the flag makes reading verify under the other label. Then the change is overlooked
if and only if, read from the gap between the two labels, it leaves nothing
(`verify_other_label_iff`). No change of two words does that (`two_lt_card_differences`), but some
changes of three words do.
-/

namespace ShamirBackup

/-! ### Reading is additive -/

namespace Remainder

instance : Zero Remainder := ⟨⟨0, 0, 0⟩⟩
instance : Sub Remainder := ⟨fun r s => ⟨r.c₂ - s.c₂, r.c₁ - s.c₁, r.c₀ - s.c₀⟩⟩

theorem sub_def (r s : Remainder) : r - s = ⟨r.c₂ - s.c₂, r.c₁ - s.c₁, r.c₀ - s.c₀⟩ := rfl

theorem sub_eq_zero_iff (r s : Remainder) : r - s = 0 ↔ r = s := by
  show (⟨r.c₂ - s.c₂, r.c₁ - s.c₁, r.c₀ - s.c₀⟩ : Remainder) = ⟨0, 0, 0⟩ ↔ r = s
  rw [Remainder.mk.injEq, sub_eq_zero, sub_eq_zero, sub_eq_zero, Remainder.ext_iff]

/-- In characteristic two, the order of a difference does not matter. -/
theorem sub_swap (r s : Remainder) : r - s = s - r := by
  have hswap : ∀ a b : GF1024, a - b = b - a := fun a b => BinaryField.ext (BitVec.xor_comm ..)
  rw [sub_def, sub_def, hswap r.c₂, hswap r.c₁, hswap r.c₀]

theorem absorb_sub (r s : Remainder) (symbol other : UInt16) :
    (r - s).absorb (symbol ^^^ other) = r.absorb symbol - s.absorb other := by
  have hlow : (⟨(symbol ^^^ other).toBitVec.setWidth 10⟩ : GF1024) =
      ⟨symbol.toBitVec.setWidth 10⟩ - ⟨other.toBitVec.setWidth 10⟩ := by
    apply BinaryField.ext
    simp
  have hhigh : (⟨((symbol ^^^ other).toBitVec >>> 10).setWidth 10⟩ : GF1024) =
      ⟨(symbol.toBitVec >>> 10).setWidth 10⟩ - ⟨(other.toBitVec >>> 10).setWidth 10⟩ := by
    apply BinaryField.ext
    simp [BitVec.ushiftRight_xor_distrib]
  simp only [absorb, sub_def, hlow, hhigh]
  refine Remainder.ext ?_ ?_ ?_
  · ring
  · ring
  · ring

theorem eval_sub (r s : Remainder) (z : GF1024) : (r - s).eval z = r.eval z - s.eval z := by
  rw [sub_def]
  unfold eval
  ring

end Remainder

/-! ### Two labels -/

namespace Checksum

/-- The entries that turn one buffer into the other. -/
def change (raw other : List UInt16) : List UInt16 := List.zipWith (· ^^^ ·) raw other

theorem absorbAll_change {raw other : List UInt16} (hlength : raw.length = other.length)
    (r s : Remainder) :
    (r - s).absorbAll (change raw other) = r.absorbAll raw - s.absorbAll other := by
  induction raw generalizing other r s with
  | nil =>
    rw [List.length_nil, eq_comm, List.length_eq_zero_iff] at hlength
    rw [hlength]
    rfl
  | cons symbol raw ih =>
    cases other with
    | nil => cases hlength
    | cons symbol' other =>
      show ((r - s).absorb (symbol ^^^ symbol')).absorbAll (change raw other) =
        (r.absorb symbol).absorbAll raw - (s.absorb symbol').absorbAll other
      rw [Remainder.absorb_sub, ih (Nat.succ.inj hlength)]

theorem remainder_eq_absorbAll (label : List UInt8) (symbols : List UInt16) :
    remainder label symbols = (remainder label []).absorbAll symbols := rfl

/-- What the label of plain backups leaves, less what the label of extendable ones leaves. -/
def labelGap : Remainder := remainder (label false) [] - remainder (label true) []

theorem labelGap_eq (flag : Bool) :
    labelGap = remainder (label flag) [] - remainder (label !flag) [] := by
  cases flag with
  | false => rfl
  | true => exact Remainder.sub_swap ..

/-- A change that also changes the label is overlooked if it leaves nothing of the gap between the
labels. -/
theorem verify_other_label_iff {flag : Bool} {raw other : List UInt16}
    (hlength : raw.length = other.length) (hverify : verify (label flag) raw = true) :
    verify (label !flag) other = true ↔ labelGap.absorbAll (change raw other) = 0 := by
  rw [verify_iff] at hverify ⊢
  rw [labelGap_eq flag, absorbAll_change hlength, Remainder.sub_eq_zero_iff,
    ← remainder_eq_absorbAll, ← remainder_eq_absorbAll, hverify]
  exact eq_comm

/-- What is left of three equations in two unknowns. The values `gap` are those of the gap at the
first three powers, and `b * x = c * y` is the power that belongs to the length. -/
theorem gap_of_two_terms {F : Type} [Field F] {gap₁ gap₂ gap₃ b c x y d e : F} (hx : x ≠ 0)
    (hb : b ≠ 0) (hlength : b * x = c * y)
    (hone : gap₁ * (b * x) + (d * x + e * y) = 0)
    (htwo : gap₂ * (b * x) ^ 2 + (d * x ^ 2 + e * y ^ 2) = 0)
    (hthree : gap₃ * (b * x) ^ 3 + (d * x ^ 3 + e * y ^ 3) = 0) :
    b * c * gap₃ - (b + c) * gap₂ + gap₁ = 0 := by
  have hpower : (b * x) ^ 3 ≠ 0 := pow_ne_zero _ (mul_ne_zero hb hx)
  refine (mul_eq_zero.mp ?_).resolve_left hpower
  linear_combination b * c * (hthree - (x + y) * htwo + x * y * hone) +
    (b * x) * (gap₁ * b * x - gap₂ * b ^ 2 * x) * hlength

theorem labelGap_eval : labelGap.eval (GF1024.generator ^ 1) = ⟨0x20d⟩ ∧
    labelGap.eval (GF1024.generator ^ 2) = ⟨0x225⟩ ∧
    labelGap.eval (GF1024.generator ^ 3) = ⟨0x235⟩ := by
  decide +kernel

/-- The gap between the labels is not what two words leave, of which the second is the one with the
flag, in any buffer of at most 33 words. -/
theorem labelGap_ne_two_terms {i : Nat} (hi : i < 33) :
    GF1024.generator ^ 2 * GF1024.generator ^ (i + 1) * labelGap.eval (GF1024.generator ^ 3) -
      (GF1024.generator ^ 2 + GF1024.generator ^ (i + 1)) *
        labelGap.eval (GF1024.generator ^ 2) + labelGap.eval (GF1024.generator ^ 1) ≠ 0 := by
  obtain ⟨hone, htwo, hthree⟩ := labelGap_eval
  rw [hone, htwo, hthree]
  revert i
  decide +kernel

variable {words others : List Word}

/-- Of two places at most, one is the second and the other may be the first if there is none. -/
theorem exists_other_place {places : Finset Nat} {length : Nat} (hleast : 2 ≤ length)
    (hplaces : ∀ i ∈ places, i < length) (hsecond : 1 ∈ places) (hcard : places.card ≤ 2) :
    ∃ i < length, i ≠ 1 ∧ places ⊆ {1, i} := by
  have herase : (places.erase 1).card ≤ 1 := by
    rw [Finset.card_erase_of_mem hsecond]
    omega
  obtain hempty | ⟨i, hi⟩ := (places.erase 1).eq_empty_or_nonempty
  · refine ⟨0, by omega, by decide, ?_⟩
    rw [Finset.erase_eq_empty_iff] at hempty
    rcases hempty with rfl | rfl
    · exact Finset.empty_subset _
    · exact Finset.singleton_subset_iff.mpr (Finset.mem_insert_self ..)
  · refine ⟨i, hplaces i (Finset.mem_of_mem_erase hi), Finset.ne_of_mem_erase hi, ?_⟩
    intro j hj
    rw [Finset.mem_insert, Finset.mem_singleton]
    by_cases hone : j = 1
    · exact Or.inl hone
    · exact Or.inr (Finset.card_le_one.mp herase j (Finset.mem_erase.mpr ⟨hone, hj⟩) i hi)

/-- A change of the second word and one other that is overlooked under the other label: at each
root, what the two words add cancels the gap between the labels. -/
theorem labelGap_eval_add_terms {flag : Bool} {i k : Nat} (hlength : words.length = others.length)
    (hleast : 2 ≤ words.length) (hi : i < words.length) (hne : i ≠ 1)
    (hsubset : differences (words.map Word.toRaw) (others.map Word.toRaw) ⊆ {1, i})
    (hverify : verify (label flag) (words.map Word.toRaw) = true)
    (hverify' : verify (label !flag) (others.map Word.toRaw) = true) (hone : 1 ≤ k)
    (hthree : k ≤ 3) :
    labelGap.eval (GF1024.generator ^ k) *
        (GF1024.generator ^ 2 * GF1024.generator ^ (words.length - 2)) ^ k +
      (changeAt words others 1 * (GF1024.generator ^ (words.length - 2)) ^ k +
        changeAt words others i * (GF1024.generator ^ (words.length - 1 - i)) ^ k) = 0 := by
  have hsame : (remainder (label flag) []).absorbAll (words.map Word.toRaw) =
      (remainder (label !flag) []).absorbAll (others.map Word.toRaw) := by
    rw [verify_iff] at hverify hverify'
    rw [← remainder_eq_absorbAll, ← remainder_eq_absorbAll, hverify, hverify']
  have hsum := sum_changeAt_eq (Remainder.isRoot_pow_generator hone hthree) hlength hsame
  have hpair := Finset.sum_subset hsubset fun j hj hsame => by
    have hj' : j < words.length := by
      rcases Finset.mem_insert.mp hj with rfl | hj
      · omega
      · rwa [Finset.mem_singleton.mp hj]
    show changeAt words others j * (GF1024.generator ^ k) ^ (words.length - 1 - j) = 0
    rw [(changeAt_eq_zero_iff hlength hj').mpr hsame, zero_mul]
  rw [hpair, Finset.sum_pair (Ne.symm hne), ← Remainder.eval_sub, ← labelGap_eq flag] at hsum
  rw [← pow_add, Nat.add_sub_cancel' hleast, pow_right_comm, pow_right_comm _ _ k,
    pow_right_comm _ _ k]
  exact hsum

/-- A change of one or two words, one of them the second, is noticed also under the other label. -/
theorem two_lt_card_differences {flag : Bool} (hlength : words.length = others.length)
    (hleast : 2 ≤ words.length) (hmax : words.length ≤ 33)
    (hsecond : 1 ∈ differences (words.map Word.toRaw) (others.map Word.toRaw))
    (hverify : verify (label flag) (words.map Word.toRaw) = true)
    (hverify' : verify (label !flag) (others.map Word.toRaw) = true) :
    2 < (differences (words.map Word.toRaw) (others.map Word.toRaw)).card := by
  by_contra hcard
  obtain ⟨i, hi, hne, hsubset⟩ := exists_other_place hleast
    (fun j hj => by simpa using Finset.mem_range.mp (Finset.mem_filter.mp hj).1) hsecond
    (Nat.not_lt.mp hcard)
  have hterms := fun k (hone : 1 ≤ k) (hthree : k ≤ 3) =>
    labelGap_eval_add_terms hlength hleast hi hne hsubset hverify hverify' hone hthree
  have hlengths : GF1024.generator ^ 2 * GF1024.generator ^ (words.length - 2) =
      GF1024.generator ^ (i + 1) * GF1024.generator ^ (words.length - 1 - i) := by
    rw [← pow_add, ← pow_add]
    congr 1
    omega
  have hgap := gap_of_two_terms (pow_ne_zero _ (by decide)) (pow_ne_zero _ (by decide)) hlengths
    (by simpa only [pow_one] using hterms 1 (by decide) (by decide))
    (hterms 2 (by decide) (by decide)) (hterms 3 (by decide) (by decide))
  refine labelGap_ne_two_terms (by omega : i < 33) ?_
  simpa only [pow_one] using hgap

end Checksum

/-! ### Corrupted shares -/

namespace Share

open Checksum

theorem statedFlag_words (share : Share) :
    statedFlag (share.words.map Word.toRaw) = share.metadata.extendable := by
  have hleast := share.leastWords_le_wordCount
  rw [← share.extendable_words, extendable_eq_statedFlag]
  rw [List.length_map, length_words]
  exact hleast

/-- The flag is part of the second word. -/
theorem one_mem_differences {raw other : List UInt16} (hlength : 2 ≤ raw.length)
    (hflag : statedFlag other ≠ statedFlag raw) : 1 ∈ differences raw other := by
  rw [differences, Finset.mem_filter, Finset.mem_range]
  refine ⟨hlength, fun hsame => hflag ?_⟩
  rw [statedFlag, statedFlag, List.getD_eq_getElem?_getD, List.getD_eq_getElem?_getD, hsame]

theorem wordCount_le {share : Share} (h : share.value.length ≤ 32) : share.wordCount ≤ 33 := by
  rw [wordCount, valueWords]
  omega

/-- **What reading notices of a change of up to three words.** The change is reported as a wrong
checksum unless it changes the flag and, read from the gap between the labels of the two flags,
leaves nothing. A change of one or two words is always reported. -/
theorem ofRaw_changed_iff {share : Share} (hvalue : share.value.length ≤ 32)
    {changed : List UInt16} (hwords : ∀ entry ∈ changed, entry ≤ 1023)
    (hlength : changed.length = share.words.length)
    (hone : 1 ≤ (differences (share.words.map Word.toRaw) changed).card)
    (hthree : (differences (share.words.map Word.toRaw) changed).card ≤ 3) :
    (ofRaw changed = .error .checksum ↔
      ¬ (statedFlag changed ≠ share.metadata.extendable ∧
        labelGap.absorbAll (change (share.words.map Word.toRaw) changed) = 0)) ∧
    ((differences (share.words.map Word.toRaw) changed).card ≤ 2 →
      ofRaw changed = .error .checksum) := by
  obtain ⟨others, rfl⟩ := Word.exists_map_toRaw hwords
  rw [List.length_map, eq_comm] at hlength
  have hleast : 20 ≤ share.words.length := share.length_words ▸ share.leastWords_le_wordCount
  have hmax : share.words.length ≤ 33 := share.length_words ▸ wordCount_le hvalue
  have hchecksum : ofRaw (others.map Word.toRaw) = .error .checksum ↔
      verify (label (statedFlag (others.map Word.toRaw))) (others.map Word.toRaw) = false :=
    ofRaw_eq_checksum_iff (by rwa [List.length_map, ← hlength]) hwords
  by_cases hflag : statedFlag (others.map Word.toRaw) = share.metadata.extendable
  · have hnoticed : ofRaw (others.map Word.toRaw) = .error .checksum := by
      rw [hchecksum, hflag, ← Bool.not_eq_true]
      intro hverify
      have hsame := share.verify_words
      rw [verify, decide_eq_true_iff] at hverify hsame
      have hfar := three_lt_card_differences hlength (hmax.trans (by decide))
        (hsame.trans hverify.symm) hone
      omega
    exact ⟨iff_of_true hnoticed fun h => h.1 hflag, fun _ => hnoticed⟩
  · have hother : statedFlag (others.map Word.toRaw) = !share.metadata.extendable :=
      Bool.eq_not_of_ne hflag
    rw [hchecksum, hother, ← Bool.not_eq_true]
    constructor
    · rw [verify_other_label_iff (by simpa using hlength) share.verify_words]
      simp
    · intro htwo hverify
      have hsecond : 1 ∈ differences (share.words.map Word.toRaw) (others.map Word.toRaw) :=
        one_mem_differences (by rw [List.length_map]; omega) (by rwa [statedFlag_words])
      have hfar :=
        two_lt_card_differences hlength (by omega) hmax hsecond share.verify_words hverify
      omega

/-! ### A share changed in two and in three words -/

/-- The one share of a backup. -/
def loneShare : Share where
  metadata := {
    identifier := ⟨7945, by decide⟩
    extendable := false
    exponent := ⟨0, by decide⟩
    groupIndex := ⟨0, by decide⟩
    groupThreshold := .one
    groupCount := .one
    memberIndex := ⟨0, by decide⟩
    memberThreshold := .one }
  value := [0x11, 0xbc, 0x60, 0x9d, 0x21, 0x74, 0x7c, 0x49, 0xba, 0x78, 0xc0, 0x70, 0x12, 0x93,
    0xe4, 0x17]
  le_length := by decide
  even_length := by decide

theorem loneShare_words : loneShare.words.map Word.toRaw =
    [248, 288, 0, 0, 17, 753, 521, 840, 372, 497, 155, 670, 192, 448, 297, 249, 23, 173, 196,
      496] := by
  decide +kernel

/-- The flag and a word of the value. -/
theorem ofRaw_changed_iff_two_words :
    let changed : List UInt16 := [248, 304, 0, 0, 17, 753, 521, 840, 372, 497, 155, 670, 192, 448,
      297, 249, 535, 173, 196, 496]
    (loneShare.value.length ≤ 32 ∧ (∀ entry ∈ changed, entry ≤ 1023) ∧
      changed.length = loneShare.words.length ∧
      (differences (loneShare.words.map Word.toRaw) changed).card = 2) ∧
    ofRaw changed = .error .checksum := by
  intro changed
  have hentries : ∀ entry ∈ changed, entry ≤ 1023 := by simp [changed]
  have hlength : changed.length = loneShare.words.length := by decide +kernel
  have hcard : (differences (loneShare.words.map Word.toRaw) changed).card = 2 := by
    rw [loneShare_words]
    decide +kernel
  refine ⟨⟨by decide, hentries, hlength, hcard⟩, ?_⟩
  exact (ofRaw_changed_iff (by decide) hentries hlength (by omega) (by omega)).2 hcard.le

/-- **Three changes that are overlooked.** The first three words of a share are changed, the flag
among them, and the result is read as a share of another backup. -/
theorem ofRaw_overlooks_three_words :
    let changed : List UInt16 := [912, 432, 215, 0, 17, 753, 521, 840, 372, 497, 155, 670, 192, 448,
      297, 249, 23, 173, 196, 496]
    let other : Share := { loneShare with
      metadata := {
        identifier := ⟨29197, by decide⟩
        extendable := true
        exponent := ⟨0, by decide⟩
        groupIndex := ⟨3, by decide⟩
        groupThreshold := ⟨6, by decide, by decide⟩
        groupCount := ⟨13, by decide, by decide⟩
        memberIndex := ⟨0, by decide⟩
        memberThreshold := ⟨1, by decide, by decide⟩ } }
    (loneShare.value.length ≤ 32 ∧ (∀ entry ∈ changed, entry ≤ 1023) ∧
      changed.length = loneShare.words.length ∧
      (differences (loneShare.words.map Word.toRaw) changed).card = 3) ∧
    ofRaw changed = .ok other := by
  intro changed other
  have hentries : ∀ entry ∈ changed, entry ≤ 1023 := by simp [changed]
  have hlength : changed.length = loneShare.words.length := by decide +kernel
  have hcard : (differences (loneShare.words.map Word.toRaw) changed).card = 3 := by
    rw [loneShare_words]
    decide +kernel
  have hwords : other.words.map Word.toRaw = changed := by decide +kernel
  exact ⟨⟨by decide, hentries, hlength, hcard⟩, (ofRaw_eq_ok_iff other).mpr ⟨hwords, by decide⟩⟩

end Share

end ShamirBackup
