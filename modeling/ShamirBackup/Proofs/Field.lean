import Mathlib.GroupTheory.OrderOfElement
import Mathlib.LinearAlgebra.Lagrange
import ShamirBackup.Field.Binary

/-!
# Binary fields are fields

`BinaryField m tail` is a commutative ring for every modulus. It is a field as soon as one element
has order `2 ^ m - 1`, since the powers of such an element are all the nonzero elements
(`mul_inv_cancel_of_orderOf`). For `GF256` the element is `x + 1`, and for `GF1024` it is `x`.
-/

namespace ShamirBackup

namespace BinaryField

variable {m : Nat} {tail : BitVec m}

/-! ### The additive group -/

instance : AddCommGroup (BinaryField m tail) where
  add_assoc _ _ _ := BinaryField.ext (BitVec.xor_assoc ..)
  zero_add a := BinaryField.ext (by simp)
  add_zero a := BinaryField.ext (by simp)
  add_comm _ _ := BinaryField.ext (BitVec.xor_comm ..)
  neg_add_cancel _ := BinaryField.ext BitVec.xor_self
  sub_eq_add_neg _ _ := rfl
  nsmul := nsmulRec
  zsmul := zsmulRec

theorem timesX_zero : (0 : BinaryField m tail).timesX = 0 := by
  ext1
  simp [timesX]

theorem timesX_add (a b : BinaryField m tail) : (a + b).timesX = a.timesX + b.timesX := by
  ext1
  simp only [timesX, add_bits, BitVec.msb_xor, BitVec.shiftLeft_xor_distrib]
  cases a.bits.msb <;> cases b.bits.msb <;> simp <;> grind

/-! ### Horner's rule

`mulBelow · b n i` is a sum of powers of `timesX`. It is additive and commutes with `timesX`, and so
two of these maps commute. All laws of multiplication follow, once it is known that one is neutral.
-/

theorem mulBelow_add_left (a b c : BinaryField m tail) (n i : Nat) :
    mulBelow (a + b) c n i = mulBelow a c n i + mulBelow b c n i := by
  induction n generalizing i with
  | zero => simp [mulBelow]
  | succ n ih =>
    simp only [mulBelow, ih, timesX_add]
    split <;> abel

theorem mulBelow_zero_left (c : BinaryField m tail) (n i : Nat) : mulBelow 0 c n i = 0 := by
  have h := mulBelow_add_left 0 0 c n i
  simpa using h

theorem mulBelow_timesX (a c : BinaryField m tail) (n i : Nat) :
    mulBelow a.timesX c n i = (mulBelow a c n i).timesX := by
  induction n generalizing i with
  | zero => simp [mulBelow, timesX_zero]
  | succ n ih =>
    simp only [mulBelow, ih, timesX_add]
    split <;> simp [timesX_zero]

theorem mulBelow_mulBelow (a b c : BinaryField m tail) (n i k j : Nat) :
    mulBelow (mulBelow a b n i) c k j = mulBelow (mulBelow a c k j) b n i := by
  induction k generalizing j with
  | zero => simp [mulBelow, mulBelow_zero_left]
  | succ k ih =>
    simp only [mulBelow, mulBelow_add_left, mulBelow_timesX, ih]
    split <;> simp [mulBelow_zero_left]

@[simp] theorem one_bits : (1 : BinaryField m tail).bits = BitVec.ofNat m 1 := rfl

/-- Horner's rule at one shifts the coefficients of `b` back in, from the highest one down. The
reduction never applies, as the highest coefficient of what is shifted is zero. -/
theorem mulBelow_one_left (b : BinaryField m tail) (n i : Nat) (h : i + n = m) :
    mulBelow 1 b n i = ⟨b.bits >>> i⟩ := by
  induction n generalizing i with
  | zero =>
    exact BinaryField.ext (by simp [mulBelow, BitVec.ushiftRight_eq_zero (show m ≤ i by omega)])
  | succ n ih =>
    have hx : (⟨b.bits >>> (i + 1)⟩ : BinaryField m tail).timesX =
        ⟨(b.bits >>> (i + 1)) <<< 1⟩ := by
      simp [timesX, BitVec.msb_ushiftRight]
    rw [mulBelow, ih (i + 1) (by omega), hx]
    ext1
    ext k hk
    rcases k with _ | k
    · split <;> simp_all
    · have hk' : i + 1 + k = i + (k + 1) := by omega
      split <;> simp_all

/-! ### The ring -/

theorem mul_def (a b : BinaryField m tail) : a * b = mulBelow a b m 0 := rfl

protected theorem one_mul (b : BinaryField m tail) : 1 * b = b := by
  rw [mul_def, mulBelow_one_left b m 0 (Nat.zero_add m)]
  exact BinaryField.ext (by simp)

protected theorem add_mul (a b c : BinaryField m tail) : (a + b) * c = a * c + b * c :=
  mulBelow_add_left ..

protected theorem mul_right_comm (a b c : BinaryField m tail) : a * b * c = a * c * b :=
  mulBelow_mulBelow ..

protected theorem mul_comm (a b : BinaryField m tail) : a * b = b * a := by
  have h := BinaryField.mul_right_comm 1 a b
  rwa [BinaryField.one_mul, BinaryField.one_mul] at h

instance : CommRing (BinaryField m tail) where
  mul_assoc a b c := by
    rw [BinaryField.mul_comm a (b * c), BinaryField.mul_right_comm b c a, BinaryField.mul_comm b a]
  one_mul := BinaryField.one_mul
  mul_one a := by rw [BinaryField.mul_comm, BinaryField.one_mul]
  left_distrib a b c := by
    rw [BinaryField.mul_comm a, BinaryField.add_mul, BinaryField.mul_comm b, BinaryField.mul_comm c]
  right_distrib := BinaryField.add_mul
  mul_comm := BinaryField.mul_comm
  zero_mul _ := mulBelow_zero_left ..
  mul_zero a := by rw [BinaryField.mul_comm]; exact mulBelow_zero_left ..
  neg_add_cancel := neg_add_cancel
  sub_eq_add_neg := sub_eq_add_neg
  zsmul := zsmulRec

/-! ### Inverses -/

instance : Fintype (BinaryField m tail) :=
  .ofEquiv (Fin (2 ^ m)) ⟨fun n => ⟨⟨n⟩⟩, fun a => a.bits.toFin, fun _ => rfl, fun _ => rfl⟩

theorem card_eq_two_pow : Fintype.card (BinaryField m tail) = 2 ^ m := by
  rw [Fintype.ofEquiv_card, Fintype.card_fin]

theorem squareProduct_eq_pow (a : BinaryField m tail) (n : Nat) :
    squareProduct a n = a ^ (2 ^ (n + 1) - 2) := by
  induction n generalizing a with
  | zero => simp [squareProduct]
  | succ n ih =>
    have hexp : 2 + 2 * (2 ^ (n + 1) - 2) = 2 ^ (n + 1 + 1) - 2 := by
      have : 2 ≤ 2 ^ (n + 1) := Nat.le_self_pow (by omega) 2
      omega
    rw [squareProduct, ih, ← pow_two, ← pow_mul, ← pow_add, hexp]

section Generator

variable {g : BinaryField m tail}

theorem pow_ne_zero_of_orderOf (hpos : 0 < orderOf g) (hone : (1 : BinaryField m tail) ≠ 0)
    (k : Nat) : g ^ k ≠ 0 := by
  intro hk
  apply hone
  rw [← one_pow k, ← pow_orderOf_eq_one g, ← pow_mul, mul_comm, pow_mul, hk, zero_pow hpos.ne']

/-- The powers of `g` are `2 ^ m - 1` nonzero elements, and there are no more of these. -/
theorem image_pow_eq_erase_zero (hm : 0 < m) (hg : orderOf g = 2 ^ m - 1)
    (hone : (1 : BinaryField m tail) ≠ 0) :
    (Finset.range (orderOf g)).image (g ^ ·) = Finset.univ.erase 0 := by
  have hpos : 0 < orderOf g := by
    have : 2 ≤ 2 ^ m := Nat.le_self_pow (by omega) 2
    omega
  apply Finset.eq_of_subset_of_card_le
  · intro b hb
    obtain ⟨k, -, rfl⟩ := Finset.mem_image.mp hb
    exact Finset.mem_erase.mpr ⟨pow_ne_zero_of_orderOf hpos hone k, Finset.mem_univ _⟩
  · rw [Finset.card_erase_of_mem (Finset.mem_univ _), Finset.card_univ, card_eq_two_pow,
      Finset.card_image_of_injOn, Finset.card_range, hg]
    intro j hj k hk h
    exact pow_injOn_Iio_orderOf (by simpa using hj) (by simpa using hk) h

/-- Every nonzero element is a power of `g`. -/
theorem exists_pow_eq (hm : 0 < m) (hg : orderOf g = 2 ^ m - 1) {a : BinaryField m tail}
    (ha : a ≠ 0) : ∃ k < orderOf g, g ^ k = a := by
  have hone : (1 : BinaryField m tail) ≠ 0 := by
    intro h
    exact ha (by rw [← mul_one a, h, mul_zero])
  have hmem : a ∈ (Finset.range (orderOf g)).image (g ^ ·) := by
    rw [image_pow_eq_erase_zero hm hg hone]
    exact Finset.mem_erase.mpr ⟨ha, Finset.mem_univ a⟩
  obtain ⟨k, hk, hpow⟩ := Finset.mem_image.mp hmem
  exact ⟨k, Finset.mem_range.mp hk, hpow⟩

theorem mul_inv_cancel_of_orderOf (hm : 0 < m) (hg : orderOf g = 2 ^ m - 1)
    (a : BinaryField m tail) (ha : a ≠ 0) : a * a⁻¹ = 1 := by
  obtain ⟨k, -, rfl⟩ := exists_pow_eq hm hg ha
  have hexp : 2 ^ (m - 1 + 1) - 2 + 1 = orderOf g := by
    rw [hg, Nat.sub_add_cancel hm]
    have : 2 ≤ 2 ^ m := Nat.le_self_pow (by omega) 2
    omega
  show g ^ k * squareProduct (g ^ k) (m - 1) = 1
  rw [squareProduct_eq_pow, ← pow_succ', hexp, ← pow_mul, mul_comm, pow_mul, pow_orderOf_eq_one,
    one_pow]

/-- An order that divides the product of three primes is the product, if it divides no product of
two of them. -/
theorem orderOf_eq_of_three_primes {p q r : Nat} (hp : p.Prime) (hq : q.Prime) (hr : r.Prime)
    (hone : ((g ^ p) ^ q) ^ r = 1) (hqr : (g ^ q) ^ r ≠ 1) (hpr : (g ^ p) ^ r ≠ 1)
    (hpq : (g ^ p) ^ q ≠ 1) : orderOf g = p * q * r := by
  rw [← pow_mul, ← pow_mul, ← mul_assoc] at hone
  rw [← pow_mul] at hqr hpr hpq
  have hdivp : p * q * r / p = q * r := by rw [mul_assoc, Nat.mul_div_cancel_left _ hp.pos]
  have hdivq : p * q * r / q = p * r := by rw [mul_right_comm, Nat.mul_div_cancel _ hq.pos]
  have hpos : 0 < p * q * r := Nat.mul_pos (Nat.mul_pos hp.pos hq.pos) hr.pos
  refine orderOf_eq_of_pow_and_pow_div_prime hpos hone fun s hs hdvd => ?_
  rw [hs.dvd_mul, hs.dvd_mul, Nat.prime_dvd_prime_iff_eq hs hp, Nat.prime_dvd_prime_iff_eq hs hq,
    Nat.prime_dvd_prime_iff_eq hs hr] at hdvd
  rcases hdvd with (rfl | rfl) | rfl
  · rwa [hdivp]
  · rwa [hdivq]
  · rwa [Nat.mul_div_cancel _ hr.pos]

end Generator

end BinaryField

/-! ### The field of the shares -/

namespace GF256

/-- The powers of `x + 1` run through all nonzero bytes: its order divides 255 and is none of the
numbers 85, 51 and 15. -/
theorem orderOf_generator : orderOf (⟨0x03⟩ : GF256) = 2 ^ 8 - 1 :=
  BinaryField.orderOf_eq_of_three_primes Nat.prime_three Nat.prime_five
    (show Nat.Prime 17 by decide) (by decide +kernel) (by decide +kernel) (by decide +kernel)
    (by decide +kernel)

instance : Field GF256 where
  exists_pair_ne := ⟨0, 1, by decide⟩
  mul_inv_cancel := BinaryField.mul_inv_cancel_of_orderOf (by decide) orderOf_generator
  inv_zero := by decide +kernel
  nnqsmul := _
  nnqsmul_def _ _ := rfl
  qsmul := _
  qsmul_def _ _ := rfl

theorem div?_eq_some (a : GF256) {b : GF256} (hb : b ≠ 0) :
    BinaryField.div? a b = some (a / b) := by
  rw [BinaryField.div?, if_neg hb, div_eq_mul_inv]

theorem ofByte_injective : Function.Injective ofByte := by
  intro a b h
  rw [← toByte_ofByte a, h, toByte_ofByte]

theorem toByte_injective : Function.Injective toByte := by
  intro a b h
  rw [← ofByte_toByte a, h, ofByte_toByte]

end GF256

/-! ### The field of the checksum -/

namespace GF1024

/-- The polynomial `x`. -/
def generator : GF1024 := ⟨0x002⟩

/-- The powers of `x` run through all nonzero words: its order divides 1023 and is none of the
numbers 341, 93 and 33. -/
theorem orderOf_generator : orderOf generator = 2 ^ 10 - 1 :=
  BinaryField.orderOf_eq_of_three_primes Nat.prime_three Nat.prime_eleven
    (show Nat.Prime 31 by decide) (by decide +kernel) (by decide +kernel) (by decide +kernel)
    (by decide +kernel)

instance : Field GF1024 where
  exists_pair_ne := ⟨0, 1, by decide⟩
  mul_inv_cancel := BinaryField.mul_inv_cancel_of_orderOf (by decide) orderOf_generator
  inv_zero := by decide +kernel
  nnqsmul := _
  nnqsmul_def _ _ := rfl
  qsmul := _
  qsmul_def _ _ := rfl

end GF1024

end ShamirBackup
