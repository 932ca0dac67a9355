import Mathlib.LinearAlgebra.Vandermonde
import Mathlib.Tactic.LinearCombination
import ShamirBackup.Proofs.Checksum

/-!
# The distance of the checksum

The generator polynomial has the roots `x`, `x ^ 2` and `x ^ 3` (`isRoot_pow_generator`), and at a
root the value of the remainder is the value of all words read, as a polynomial with the last word
for its constant term (`eval_absorbAll`). Reading is additive: what two buffers leave differs by
what their change leaves (`absorbAll_change`). A change of at most three words is zero at all three
roots only if it is no change, since the powers of `x` at its places make a Vandermonde matrix
(`eq_zero_of_sum_mul_pow`). These powers are different for buffers of at most 1023 words.
-/

namespace ShamirBackup

/-! ### Vandermonde sums -/

/-- Coefficients at different nonzero places vanish when as many of their power sums do. -/
theorem eq_zero_of_sum_mul_pow {F ι : Type} [Field F] {places : Finset ι} {node coeff : ι → F}
    (hinj : Set.InjOn node places) (hne : ∀ i ∈ places, node i ≠ 0)
    (hsum : ∀ k, 1 ≤ k → k ≤ places.card → ∑ i ∈ places, coeff i * node i ^ k = 0) :
    ∀ i ∈ places, coeff i = 0 := by
  let place (j : Fin places.card) : ι := (places.equivFin.symm j : places)
  have hmem : ∀ j, place j ∈ places := fun j => (places.equivFin.symm j).2
  have hnode : Function.Injective fun j => node (place j) := by
    intro j k h
    exact places.equivFin.symm.injective (Subtype.ext (hinj (hmem j) (hmem k) h))
  have hzero : (fun j => coeff (place j) * node (place j)) = 0 := by
    refine Matrix.eq_zero_of_forall_pow_sum_mul_pow_eq_zero hnode fun k => ?_
    calc ∑ j, coeff (place j) * node (place j) * node (place j) ^ (k : Nat)
        = ∑ j, coeff (place j) * node (place j) ^ (k + 1 : Nat) := by
          refine Finset.sum_congr rfl fun j _ => ?_
          rw [pow_succ']
          ring
      _ = ∑ i : places, coeff i * node i ^ (k + 1 : Nat) :=
          Equiv.sum_comp places.equivFin.symm fun i : places => coeff i * node i ^ (k + 1 : Nat)
      _ = ∑ i ∈ places, coeff i * node i ^ (k + 1 : Nat) :=
          Finset.sum_coe_sort places fun i => coeff i * node i ^ (k + 1 : Nat)
      _ = 0 := hsum _ (Nat.le_add_left ..) k.isLt
  intro i hi
  have hi' := congrFun hzero (places.equivFin ⟨i, hi⟩)
  simp only [place, Equiv.symm_apply_apply, Pi.zero_apply, mul_eq_zero] at hi'
  exact hi'.resolve_right (hne i hi)

/-! ### Values of the remainder -/

namespace Remainder

/-- The remainder as a polynomial. -/
def eval (r : Remainder) (z : GF1024) : GF1024 := r.c₂ * z ^ 2 + r.c₁ * z + r.c₀

/-- The generator polynomial is zero. -/
def IsRoot (z : GF1024) : Prop := z ^ 3 = cube.eval z

theorem isRoot_pow_generator {k : Nat} (hone : 1 ≤ k) (hthree : k ≤ 3) :
    IsRoot (GF1024.generator ^ k) := by
  unfold IsRoot eval
  obtain rfl | rfl | rfl : k = 1 ∨ k = 2 ∨ k = 3 := by omega
  all_goals decide +kernel

variable {z : GF1024}

theorem eval_absorb_word (hz : IsRoot z) (r : Remainder) (word : Word) :
    (r.absorb word.toRaw).eval z = r.eval z * z + word.toField := by
  unfold IsRoot eval at hz
  rw [absorb_word]
  unfold eval
  linear_combination -r.c₂ * hz

/-- At a root, the words read are the coefficients of a polynomial, the last one the constant. -/
theorem eval_absorbAll (hz : IsRoot z) (r : Remainder) (words : List Word) :
    (r.absorbAll (words.map Word.toRaw)).eval z = r.eval z * z ^ words.length +
      ∑ i ∈ Finset.range words.length,
        (words.getD i 0).toField * z ^ (words.length - 1 - i) := by
  induction words generalizing r with
  | nil => simp [absorbAll]
  | cons word words ih =>
    have hrest : ∑ i ∈ Finset.range words.length,
          (words.getD i 0).toField * z ^ (words.length - (i + 1)) =
        ∑ i ∈ Finset.range words.length,
          (words.getD i 0).toField * z ^ (words.length - 1 - i) := by
      refine Finset.sum_congr rfl fun i _ => ?_
      rw [Nat.sub_sub, Nat.add_comm]
    have hstep : r.absorbAll ((word :: words).map Word.toRaw) =
        (r.absorb word.toRaw).absorbAll (words.map Word.toRaw) := rfl
    rw [hstep, ih, eval_absorb_word hz, List.length_cons, Finset.sum_range_succ']
    simp only [List.getD_cons_succ, List.getD_cons_zero, Nat.add_sub_cancel, Nat.sub_zero]
    rw [hrest]
    ring

end Remainder

/-! ### Near buffers -/

namespace Checksum

/-- The places in which two buffers differ. -/
def differences (raw other : List UInt16) : Finset Nat :=
  (Finset.range raw.length).filter fun i => raw[i]? ≠ other[i]?

/-- What a change adds to the word at a place. -/
def changeAt (words others : List Word) (i : Nat) : GF1024 :=
  (words.getD i 0).toField - (others.getD i 0).toField

variable {words others : List Word}

theorem changeAt_eq_zero_iff (hlength : words.length = others.length) {i : Nat}
    (hi : i < words.length) : changeAt words others i = 0 ↔
      i ∉ differences (words.map Word.toRaw) (others.map Word.toRaw) := by
  have hword : words.getD i 0 = words[i] := by simp [hi]
  have hother : others.getD i 0 = others[i] := by simp [hlength ▸ hi]
  have hfields : changeAt words others i = 0 ↔ words[i] = others[i] := by
    rw [changeAt, hword, hother, sub_eq_zero]
    exact Word.toField_injective.eq_iff
  have hentries : (words.map Word.toRaw)[i]? = (others.map Word.toRaw)[i]? ↔
      words[i] = others[i] := by
    rw [List.getElem?_map, List.getElem?_map, List.getElem?_eq_getElem hi,
      List.getElem?_eq_getElem (hlength ▸ hi), Option.map_some, Option.map_some, Option.some_inj]
    exact Word.toRaw_injective.eq_iff
  have hmem : i ∈ Finset.range (words.map Word.toRaw).length := by simpa using hi
  rw [hfields, ← hentries, differences, Finset.mem_filter, not_and, not_not]
  exact ⟨fun h _ => h, fun h => h hmem⟩

/-- Two buffers that leave the same remainder: at a root, their change cancels what the remainders
before them differ by. -/
theorem sum_changeAt_eq {z : GF1024} (hz : Remainder.IsRoot z) {r s : Remainder}
    (hlength : words.length = others.length)
    (hsame : r.absorbAll (words.map Word.toRaw) = s.absorbAll (others.map Word.toRaw)) :
    (r.eval z - s.eval z) * z ^ words.length +
      ∑ i ∈ differences (words.map Word.toRaw) (others.map Word.toRaw),
        changeAt words others i * z ^ (words.length - 1 - i) = 0 := by
  have hsubset : differences (words.map Word.toRaw) (others.map Word.toRaw) ⊆
      Finset.range words.length := by
    intro i hi
    simpa using (Finset.mem_filter.mp hi).1
  have hsum : ∑ i ∈ differences (words.map Word.toRaw) (others.map Word.toRaw),
        changeAt words others i * z ^ (words.length - 1 - i) =
      ∑ i ∈ Finset.range words.length, changeAt words others i * z ^ (words.length - 1 - i) := by
    refine Finset.sum_subset hsubset fun i hi hsame => ?_
    rw [(changeAt_eq_zero_iff hlength (Finset.mem_range.mp hi)).mpr hsame, zero_mul]
  have hvalues := congrArg (Remainder.eval · z) hsame
  simp only [Remainder.eval_absorbAll hz, ← hlength] at hvalues
  rw [hsum]
  simp only [changeAt, sub_mul, Finset.sum_sub_distrib]
  linear_combination hvalues

theorem pow_injOn_differences (hmax : words.length ≤ 1023) :
    Set.InjOn (fun i => GF1024.generator ^ (words.length - 1 - i))
      (differences (words.map Word.toRaw) (others.map Word.toRaw)) := by
  intro i hi j hj h
  have hi' := Finset.mem_range.mp (Finset.mem_filter.mp hi).1
  have hj' := Finset.mem_range.mp (Finset.mem_filter.mp hj).1
  rw [List.length_map] at hi' hj'
  have hexp : words.length - 1 - i = words.length - 1 - j := by
    refine pow_injOn_Iio_orderOf ?_ ?_ h
    all_goals
      rw [GF1024.orderOf_generator, Set.mem_Iio]
      omega
  omega

/-- The change between two buffers that leave the same remainder from the same start touches no word
or more than three. -/
theorem three_lt_card_differences {r : Remainder} (hlength : words.length = others.length)
    (hmax : words.length ≤ 1023)
    (hsame : r.absorbAll (words.map Word.toRaw) = r.absorbAll (others.map Word.toRaw))
    (hone : 1 ≤ (differences (words.map Word.toRaw) (others.map Word.toRaw)).card) :
    3 < (differences (words.map Word.toRaw) (others.map Word.toRaw)).card := by
  by_contra hthree
  rw [not_lt] at hthree
  have hzero : ∀ i ∈ differences (words.map Word.toRaw) (others.map Word.toRaw),
      changeAt words others i = 0 := by
    refine eq_zero_of_sum_mul_pow (pow_injOn_differences hmax) (fun i _ => ?_) fun k hk hcard => ?_
    · exact pow_ne_zero _ (by decide)
    · have hsum := sum_changeAt_eq (Remainder.isRoot_pow_generator hk (hcard.trans hthree)) hlength
        hsame
      simpa only [sub_self, zero_mul, zero_add, ← pow_mul, Nat.mul_comm k] using hsum
  obtain ⟨i, hi⟩ := Finset.card_pos.mp hone
  have hi' := Finset.mem_range.mp (Finset.mem_filter.mp hi).1
  rw [List.length_map] at hi'
  exact (changeAt_eq_zero_iff hlength hi').mp (hzero i hi) hi

/-- **The checksum has distance four**: of two different buffers that differ in three places at
most, it accepts one at most. -/
theorem not_verify_both_of_near (label : List UInt8) {raw other : List UInt16}
    (hraw : ∀ entry ∈ raw, entry ≤ 1023) (hother : ∀ entry ∈ other, entry ≤ 1023)
    (hlength : raw.length = other.length) (hmax : raw.length ≤ 1023)
    (hone : 1 ≤ (differences raw other).card) (hthree : (differences raw other).card ≤ 3) :
    ¬ (verify label raw = true ∧ verify label other = true) := by
  rintro ⟨hverify, hverify'⟩
  obtain ⟨words, rfl⟩ := Word.exists_map_toRaw hraw
  obtain ⟨others, rfl⟩ := Word.exists_map_toRaw hother
  rw [List.length_map] at hmax
  rw [List.length_map, List.length_map] at hlength
  rw [verify, decide_eq_true_iff] at hverify hverify'
  have hfar := three_lt_card_differences hlength hmax (hverify.trans hverify'.symm) hone
  omega

/-- Three changes in twenty words, the last of them in the checksum itself. -/
theorem not_verify_both_of_near_twenty_words :
    let raw : List UInt16 := [248, 288, 0, 0, 17, 753, 521, 840, 372, 497, 155, 670, 192, 448, 297,
      249, 23, 173, 196, 496]
    let other : List UInt16 := [248, 288, 0, 341, 17, 753, 521, 840, 372, 807, 155, 670, 192, 448,
      297, 249, 23, 173, 196, 497]
    ((∀ entry ∈ raw, entry ≤ 1023) ∧ (∀ entry ∈ other, entry ≤ 1023) ∧
      raw.length = other.length ∧ raw.length ≤ 1023 ∧ (differences raw other).card = 3 ∧
      verify (label false) raw = true) ∧ verify (label false) other = false := by
  intro raw other
  have hcard : (differences raw other).card = 3 := by decide +kernel
  have hverify : verify (label false) raw = true := by decide +kernel
  have hraw : ∀ entry ∈ raw, entry ≤ 1023 := by simp [raw]
  have hother : ∀ entry ∈ other, entry ≤ 1023 := by simp [other]
  refine ⟨⟨hraw, hother, rfl, by decide, hcard, hverify⟩, ?_⟩
  have hboth := not_verify_both_of_near (label false) hraw hother rfl (by decide) (by omega)
    (by omega)
  rw [hverify] at hboth
  simpa using hboth

end Checksum

end ShamirBackup
