import ShamirBackup.Proofs.Corruption

/-!
# Reading forgets nothing

Two remainders that differ still do after any words that are read from both (`absorb_injective`,
`absorbAll_injective`). So no buffer has a checksum under both labels, whatever its length. Nor does
a change of one word vanish, since different words leave different remainders
(`absorbAll_set_eq_iff`). If it is the word that chooses the label, the remainders differ already
before it, and in a coefficient that it does not reach (`absorb_second_ne`).
-/

namespace ShamirBackup

/-! ### Injectivity -/

namespace Remainder

/-- The lowest coefficient tells what was fed back, and then the others what they were before. -/
theorem absorb_injective (symbol : UInt16) : Function.Injective (absorb · symbol) := by
  intro r s h
  obtain ⟨htwo, hone, hzero⟩ := Remainder.mk.inj h
  have hfeedback : r.c₂ = s.c₂ := mul_right_cancel₀ (by decide) (add_right_cancel hzero)
  rw [hfeedback] at htwo hone
  exact Remainder.ext hfeedback (add_right_cancel htwo) (add_right_cancel (add_right_cancel hone))

theorem absorbAll_injective (symbols : List UInt16) :
    Function.Injective (absorbAll · symbols) := by
  induction symbols with
  | nil => exact Function.injective_id
  | cons symbol symbols ih => exact ih.comp (absorb_injective symbol)

theorem absorb_word_injective (r : Remainder) :
    Function.Injective fun word : Word => r.absorb word.toRaw := by
  intro word other h
  simp only [absorb_word, Remainder.mk.injEq, true_and] at h
  exact Word.toField_injective (add_left_cancel h)

/-- A word can be told from the remainder, whatever stands before and after it. -/
theorem absorbAll_set_eq_iff (r : Remainder) {words : List Word} {i : Nat} (word : Word)
    (hi : i < words.length) :
    r.absorbAll ((words.set i word).map Word.toRaw) = r.absorbAll (words.map Word.toRaw) ↔
      word = words[i] := by
  have hset : ∀ entry : Word, r.absorbAll ((words.set i entry).map Word.toRaw) =
      ((r.absorbAll ((words.take i).map Word.toRaw)).absorb entry.toRaw).absorbAll
        ((words.drop (i + 1)).map Word.toRaw) := by
    intro entry
    rw [List.set_eq_take_append_cons_drop, if_pos hi, List.map_append, absorbAll_append]
    rfl
  have hkept := hset words[i]
  rw [List.set_getElem_self] at hkept
  rw [hset, hkept, (absorbAll_injective _).eq_iff, (absorb_word_injective _).eq_iff]

end Remainder

/-! ### Two labels -/

namespace Checksum

theorem remainder_label_injective (symbols : List UInt16) :
    Function.Injective fun flag => remainder (label flag) symbols := by
  have hlabels : Function.Injective fun flag => remainder (label flag) [] := by
    unfold Function.Injective
    decide +kernel
  exact (Remainder.absorbAll_injective symbols).comp hlabels

theorem flag_eq_of_verify {flag other : Bool} {symbols : List UInt16}
    (hflag : verify (label flag) symbols = true) (hother : verify (label other) symbols = true) :
    flag = other := by
  rw [verify_iff] at hflag hother
  exact remainder_label_injective symbols (hflag.trans hother.symm)

/-- **No buffer has a checksum under both labels.** In particular, the words that close a buffer
under one label close it under no other. -/
theorem verify_one_label (symbols : List UInt16) :
    ¬ (verify (label false) symbols = true ∧ verify (label true) symbols = true) ∧
    ∀ flag other, verify (label other)
      (symbols ++ (create (label flag) symbols).map Word.toRaw) = true ↔ other = flag := by
  refine ⟨fun ⟨hfalse, htrue⟩ => ?_, fun flag other => ⟨fun hother => ?_, ?_⟩⟩
  · cases flag_eq_of_verify hfalse htrue
  · exact flag_eq_of_verify hother (verify_append_create ..)
  · rintro rfl
    exact verify_append_create ..

/-- The second of two words after a label reaches the lowest coefficients only, and the highest one
tells the labels apart. -/
theorem absorb_second_ne (flag : Bool) (first second other : UInt16) :
    ((remainder (label flag) []).absorb first).absorb second ≠
      ((remainder (label !flag) []).absorb first).absorb other := by
  intro h
  have hlength : [first, second].length = [first, other].length := rfl
  have hgap : labelGap.absorbAll (change [first, second] [first, other]) = 0 := by
    rw [labelGap_eq flag, absorbAll_change hlength, Remainder.sub_eq_zero_iff]
    exact h
  have hfirst : change [first, second] [first, other] = [0, second ^^^ other] := by
    rw [change, List.zipWith_cons_cons, UInt16.xor_self]
    rfl
  have hhighest : (labelGap.absorb 0).c₁ + (labelGap.absorb 0).c₂ * Remainder.cube.c₂ = 0 := by
    rw [hfirst] at hgap
    exact congrArg Remainder.c₂ hgap
  revert hhighest
  decide +kernel

/-- No change of the second word makes up for a change of the label. -/
theorem remainder_set_second_ne (flag : Bool) {words : List Word} (word : Word)
    (h : 1 < words.length) :
    remainder (label flag) (words.map Word.toRaw) ≠
      remainder (label !flag) ((words.set 1 word).map Word.toRaw) := by
  obtain ⟨first, words, rfl⟩ := List.exists_cons_of_length_pos (Nat.zero_lt_of_lt h)
  obtain ⟨second, rest, rfl⟩ := List.exists_cons_of_length_pos (Nat.lt_of_succ_lt_succ h)
  have hsplit : ∀ label (entry : Word),
      remainder label ((first :: entry :: rest).map Word.toRaw) =
        (((remainder label []).absorb first.toRaw).absorb entry.toRaw).absorbAll
          (rest.map Word.toRaw) :=
    fun _ _ => rfl
  rw [List.set_cons_succ, List.set_cons_zero, hsplit, hsplit]
  exact (Remainder.absorbAll_injective _).ne (absorb_second_ne flag _ _ _)

end Checksum

/-! ### Shares with one word changed -/

namespace Share

open Checksum

/-- Another word than the second does not change the flag. -/
theorem statedFlag_set {words : List Word} {i : Nat} (word : Word) (hi : i ≠ 1) :
    statedFlag ((words.set i word).map Word.toRaw) = statedFlag (words.map Word.toRaw) := by
  rw [statedFlag, statedFlag, List.getD_eq_getElem?_getD, List.getD_eq_getElem?_getD,
    List.getElem?_map, List.getElem?_map, List.getElem?_set_ne hi]

/-- A share with one word changed has no checksum under the label that it then chooses. -/
theorem not_verify_set {share : Share} {i : Nat} {word : Word} (hi : i < share.words.length)
    (hne : word ≠ share.words[i]) :
    verify (label (statedFlag ((share.words.set i word).map Word.toRaw)))
      ((share.words.set i word).map Word.toRaw) = false := by
  have hkept := share.verify_words
  rw [verify_iff] at hkept
  rw [← Bool.not_eq_true, verify_iff]
  intro hchanged
  by_cases hflag : statedFlag ((share.words.set i word).map Word.toRaw) = share.metadata.extendable
  · rw [hflag, ← hkept, remainder_eq_absorbAll, remainder_eq_absorbAll _ (share.words.map _),
      Remainder.absorbAll_set_eq_iff _ word hi] at hchanged
    exact hne hchanged
  · have hsecond : i = 1 := by
      by_contra hother
      rw [statedFlag_set word hother, statedFlag_words] at hflag
      exact hflag rfl
    subst hsecond
    rw [Bool.eq_not_of_ne hflag] at hchanged
    exact remainder_set_second_ne _ word hi (hkept.trans hchanged.symm)

theorem ofRaw_words_ne_checksum (share : Share) :
    ofRaw (share.words.map Word.toRaw) ≠ .error .checksum := by
  rw [ofRaw_words]
  split
  · intro h
    cases h
  · intro h
    cases h

/-- **A change of one word is noticed**, at any place and in shares of any length: a word of a share
can be replaced by its own value only. -/
theorem ofRaw_set_iff (share : Share) {i : Nat} {entry : UInt16} (hi : i < share.wordCount)
    (hentry : entry ≤ 1023) :
    ofRaw ((share.words.map Word.toRaw).set i entry) = .error .checksum ↔
      (share.words.map Word.toRaw)[i]? ≠ some entry := by
  obtain ⟨word, rfl⟩ := Word.exists_toRaw hentry
  have hi' : i < share.words.length := by rwa [length_words]
  have hplace : (share.words.map Word.toRaw)[i]? = some word.toRaw ↔ word = share.words[i] := by
    rw [List.getElem?_map, List.getElem?_eq_getElem hi', Option.map_some, Option.some_inj,
      Word.toRaw_injective.eq_iff, eq_comm]
  rw [← List.map_set, Ne, hplace]
  by_cases hsame : word = share.words[i]
  · rw [hsame, List.set_getElem_self]
    exact iff_of_false share.ofRaw_words_ne_checksum fun h => h rfl
  · have hlength : 20 ≤ ((share.words.set i word).map Word.toRaw).length := by
      rw [List.length_map, List.length_set, length_words]
      exact share.leastWords_le_wordCount
    rw [ofRaw_eq_checksum_iff hlength fun other hother => Word.le_of_mem_map_toRaw hother]
    exact iff_of_true (not_verify_set hi' hsame) hsame

/-- A share of 1646 words, more than the 1023 up to which the checksum has distance four, with the
flag in its second word changed. -/
theorem ofRaw_set_iff_second_word :
    let share : Share := { loneShare with
      value := List.replicate 2048 0x5a
      le_length := by rw [List.length_replicate]; decide
      even_length := by rw [List.length_replicate] }
    (1 < share.wordCount ∧ (304 : UInt16) ≤ 1023 ∧
      (share.words.map Word.toRaw)[1]? = some 288) ∧
    ofRaw ((share.words.map Word.toRaw).set 1 304) = .error .checksum := by
  intro share
  have hcount : share.wordCount = 1646 := by
    show 7 + valueWords (List.replicate 2048 (0x5a : UInt8)).length = 1646
    rw [List.length_replicate]
    rfl
  have hsecond : (share.words.map Word.toRaw)[1]? = some 288 := by decide +kernel
  have hi : 1 < share.wordCount := by
    rw [hcount]
    decide
  refine ⟨⟨hi, by decide, hsecond⟩, ?_⟩
  rw [ofRaw_set_iff share hi (by decide), hsecond]
  decide

end Share

end ShamirBackup
