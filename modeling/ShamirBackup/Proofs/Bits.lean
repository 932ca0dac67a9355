import Mathlib.Algebra.Group.Nat.Defs
import ShamirBackup.Bits

/-!
# Bit fields read back

`ofNat` and `toNat` undo each other on digits of the right number, and `field` and `chunks` find
again what was written one after the other. What `field` reads, `ofNat` writes again.
-/

namespace ShamirBackup.Bits

/-! ### Numbers and their digits -/

theorem foldl_eq (bits : List Bool) (n : Nat) :
    bits.foldl (fun n bit => 2 * n + bit.toNat) n = n * 2 ^ bits.length + toNat bits := by
  rw [toNat]
  induction bits generalizing n with
  | nil => simp
  | cons bit bits ih =>
    rw [List.foldl_cons, List.foldl_cons, ih, ih (2 * 0 + bit.toNat), List.length_cons,
      Nat.pow_succ]
    grind

theorem toNat_cons (bit : Bool) (bits : List Bool) :
    toNat (bit :: bits) = bit.toNat * 2 ^ bits.length + toNat bits := by
  rw [toNat, List.foldl_cons, foldl_eq, Nat.mul_zero, Nat.zero_add]

theorem toNat_ofNat (width n : Nat) : toNat (ofNat width n) = n % 2 ^ width := by
  induction width with
  | zero => simp [ofNat, toNat, Nat.mod_one]
  | succ width ih =>
    rw [ofNat, toNat_cons, length_ofNat, ih, Nat.mod_pow_succ, Nat.toNat_testBit, Nat.mul_comm,
      Nat.add_comm]

theorem ofNat_congr {width m n : Nat} (h : m % 2 ^ width = n % 2 ^ width) :
    ofNat width m = ofNat width n := by
  induction width with
  | zero => rfl
  | succ width ih =>
    have hbit : m.testBit width = n.testBit width := by
      have hbit := congrArg (Nat.testBit · width) h
      simpa only [Nat.testBit_mod_two_pow, Nat.lt_succ_self, decide_true, Bool.true_and] using hbit
    have hrest : m % 2 ^ width = n % 2 ^ width := by
      have hdvd : 2 ^ width ∣ 2 ^ (width + 1) := Nat.pow_dvd_pow 2 (Nat.le_succ width)
      rw [← Nat.mod_mod_of_dvd m hdvd, h, Nat.mod_mod_of_dvd n hdvd]
    rw [ofNat, ofNat, hbit, ih hrest]

/-- Higher digits than those that are written do not matter. -/
theorem ofNat_mod (width n : Nat) : ofNat width (n % 2 ^ width) = ofNat width n :=
  ofNat_congr (Nat.mod_mod ..)

theorem ofNat_toNat {width : Nat} {bits : List Bool} (h : bits.length = width) :
    ofNat width (toNat bits) = bits := by
  subst h
  induction bits with
  | nil => rfl
  | cons bit bits ih =>
    have hlt : toNat bits < 2 ^ bits.length := Nat.one_shiftLeft bits.length ▸ toNat_lt bits
    have hbit : (toNat (bit :: bits)).testBit bits.length = bit := by
      rw [toNat_cons, Nat.mul_comm, Nat.testBit_two_pow_mul_add _ hlt]
      cases bit <;> simp
    have hrest : toNat (bit :: bits) % 2 ^ bits.length = toNat bits % 2 ^ bits.length := by
      rw [toNat_cons, Nat.mul_add_mod_self_right]
    rw [List.length_cons, ofNat, hbit, ofNat_congr hrest, ih]

theorem toNat_append (bits more : List Bool) :
    toNat (bits ++ more) = toNat bits * 2 ^ more.length + toNat more := by
  rw [toNat, List.foldl_append, foldl_eq]
  rfl

/-- The higher digits stand before the lower ones. -/
theorem ofNat_add (high low n : Nat) :
    ofNat (high + low) n = ofNat high (n / 2 ^ low) ++ ofNat low n := by
  induction high with
  | zero => simp [ofNat]
  | succ high ih =>
    have hbit : (n / 2 ^ low).testBit high = n.testBit (high + low) := by
      rw [Nat.testBit_div_two_pow]
    rw [Nat.succ_add, ofNat, ofNat, ih, hbit, List.cons_append]

theorem drop_ofNat (high low n : Nat) : (ofNat (high + low) n).drop high = ofNat low n := by
  rw [ofNat_add, List.drop_left' (length_ofNat ..)]

theorem ofNat_zero (width : Nat) : ofNat width 0 = List.replicate width false := by
  induction width with
  | zero => rfl
  | succ width ih => rw [ofNat, ih, Nat.zero_testBit, List.replicate_succ]

theorem any_ofNat {width n : Nat} : (ofNat width n).any id = true ↔ n % 2 ^ width ≠ 0 := by
  induction width with
  | zero => simp [ofNat, Nat.mod_one]
  | succ width ih =>
    rw [ofNat, List.any_cons, Bool.or_eq_true, ih, Nat.mod_pow_succ, ← Nat.toNat_testBit]
    cases n.testBit width <;> simp

theorem getElem?_ofNat {width k : Nat} (n : Nat) (h : k < width) :
    (ofNat width n)[k]? = some (n.testBit (width - 1 - k)) := by
  induction width generalizing k with
  | zero => omega
  | succ width ih =>
    cases k with
    | zero => rfl
    | succ k =>
      rw [ofNat, List.getElem?_cons_succ, ih (by omega)]
      congr 2
      omega

theorem any_take_ofNat {width count : Nat} (n : Nat) (h : count ≤ width) :
    ((ofNat width n).take count).any id = true ↔ ∃ k < count, n.testBit (width - 1 - k) = true := by
  rw [List.any_eq_true]
  constructor
  · rintro ⟨bit, hmem, hbit⟩
    obtain ⟨k, hk⟩ := List.mem_iff_getElem?.mp hmem
    by_cases hlt : k < count
    · rw [List.getElem?_take_of_lt hlt, getElem?_ofNat n (by omega)] at hk
      exact ⟨k, hlt, (Option.some.inj hk).trans hbit⟩
    · rw [List.getElem?_take_eq_none (by omega)] at hk
      cases hk
  · rintro ⟨k, hlt, hbit⟩
    refine ⟨true, List.mem_iff_getElem?.mpr ⟨k, ?_⟩, rfl⟩
    rw [List.getElem?_take_of_lt hlt, getElem?_ofNat n (by omega), hbit]

/-! ### Fields -/

theorem field_ofNat_append (width n : Nat) (rest : List Bool) :
    field (ofNat width n ++ rest) 0 width = n % 2 ^ width := by
  rw [field, List.drop_zero, List.take_left' (length_ofNat width n), toNat_ofNat]

theorem field_append_of_le {start : Nat} (bits rest : List Bool) (width : Nat)
    (h : bits.length ≤ start) :
    field (bits ++ rest) start width = field rest (start - bits.length) width := by
  rw [field, field, List.drop_append, List.drop_of_length_le h, List.nil_append]

/-- The bits of a field are written as they were read. -/
theorem ofNat_field {bits : List Bool} {start width : Nat} (h : start + width ≤ bits.length) :
    ofNat width (field bits start width) = (bits.drop start).take width :=
  ofNat_toNat (by rw [List.length_take, List.length_drop]; omega)

/-- A field of several bits is two fields, one behind the other. -/
theorem field_add {bits : List Bool} {start : Nat} (high low : Nat)
    (h : start + high + low ≤ bits.length) :
    field bits start (high + low) =
      field bits start high * 2 ^ low + field bits (start + high) low := by
  have hlow : (((bits.drop start).drop high).take low).length = low := by
    simp only [List.length_take, List.length_drop]
    omega
  rw [field, List.take_add, toNat_append, hlow, field, field, List.drop_drop]

/-- A field inside a number. -/
theorem field_ofNat_append_of_le {width start count : Nat} (n : Nat) (rest : List Bool)
    (h : start + count ≤ width) :
    field (ofNat width n ++ rest) start count = n / 2 ^ (width - start - count) % 2 ^ count := by
  obtain ⟨low, rfl⟩ : ∃ low, width = start + (count + low) := ⟨width - start - count, by omega⟩
  have hlow : start + (count + low) - start - count = low := by omega
  rw [ofNat_add, ofNat_add, List.append_assoc, List.append_assoc,
    field_append_of_le _ _ _ (by simp), length_ofNat, Nat.sub_self, field_ofNat_append, hlow]

/-! ### Chunks -/

theorem length_of_mem_chunks {width count : Nat} {bits chunk : List Bool}
    (h : bits.length = width * count) (hmem : chunk ∈ chunks width count bits) :
    chunk.length = width := by
  induction count generalizing bits with
  | zero => simp [chunks] at hmem
  | succ count ih =>
    rw [Nat.mul_succ] at h
    rcases List.mem_cons.mp hmem with rfl | hmem
    · rw [List.length_take]
      omega
    · exact ih (by rw [List.length_drop]; omega) hmem

theorem flatten_chunks {width count : Nat} {bits : List Bool} (h : bits.length = width * count) :
    (chunks width count bits).flatten = bits := by
  induction count generalizing bits with
  | zero => exact (List.length_eq_zero_iff.mp (by simpa using h)).symm
  | succ count ih =>
    rw [Nat.mul_succ] at h
    rw [chunks, List.flatten_cons, ih (by rw [List.length_drop]; omega), List.take_append_drop]

/-- Cutting goes on where the first runs end. -/
theorem chunks_add (width i j : Nat) (bits : List Bool) :
    chunks width (i + j) bits = chunks width i bits ++ chunks width j (bits.drop (width * i)) := by
  induction i generalizing bits with
  | zero => simp [chunks]
  | succ i ih =>
    rw [Nat.succ_add, chunks, chunks, ih, List.drop_drop, Nat.mul_succ, Nat.add_comm width,
      List.cons_append]

theorem chunks_append_of_le {width count : Nat} {bits : List Bool} (more : List Bool)
    (h : width * count ≤ bits.length) :
    chunks width count (bits ++ more) = chunks width count bits := by
  induction count generalizing bits with
  | zero => rfl
  | succ count ih =>
    rw [Nat.mul_succ] at h
    rw [chunks, chunks, List.take_append_of_le_length (by omega),
      List.drop_append_of_le_length (by omega), ih (by rw [List.length_drop]; omega)]

/-- Cutting undoes joining runs of one width. -/
theorem chunks_flatMap {α : Type} {width : Nat} {f : α → List Bool} (as : List α)
    (h : ∀ a ∈ as, (f a).length = width) :
    chunks width as.length (as.flatMap f) = as.map f := by
  induction as with
  | nil => rfl
  | cons a as ih =>
    have ha := h a (by simp)
    rw [List.flatMap_cons, List.length_cons, chunks, List.take_left' ha, List.drop_left' ha,
      ih fun b hb => h b (by simp [hb]), List.map_cons]

end ShamirBackup.Bits
