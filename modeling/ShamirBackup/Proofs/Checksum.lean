import ShamirBackup.Checksum
import ShamirBackup.Proofs.Field

/-!
# The checksum closes a share

Three words at the end of a share move its remainder by any amount, and by each amount in one way
only. So the words that `create` computes from zeros in their place are the ones, and the only ones,
that `verify` accepts (`verify_append_iff`).
-/

namespace ShamirBackup

namespace Word

@[simp] theorem toField_ofField (a : GF1024) : toField (ofField a) = a := rfl

theorem toField_injective : Function.Injective toField := by
  intro a b h
  simpa [toField] using h

theorem toRaw_injective : Function.Injective toRaw := by
  intro a b h
  apply Fin.ext
  rw [← toRaw_toNat, h, toRaw_toNat]

theorem toField_zero : toField 0 = 0 := rfl

theorem toRaw_zero : toRaw 0 = 0 := rfl

/-- An entry of at most 1023 is a word. -/
theorem exists_toRaw {entry : UInt16} (h : entry ≤ 1023) : ∃ word : Word, entry = word.toRaw := by
  have hlt : entry.toNat < 1024 := Nat.lt_succ_of_le (UInt16.le_iff_toNat_le.mp h)
  exact ⟨⟨entry.toNat, hlt⟩, UInt16.toNat_inj.mp (toRaw_toNat ⟨entry.toNat, hlt⟩).symm⟩

theorem le_of_mem_map_toRaw {words : List Word} {entry : UInt16} (h : entry ∈ words.map toRaw) :
    entry ≤ 1023 := by
  obtain ⟨word, -, rfl⟩ := List.mem_map.mp h
  rw [UInt16.le_iff_toNat_le, toRaw_toNat]
  exact Nat.le_of_lt_succ word.isLt

/-- A buffer without entries above 1023 is a list of words. -/
theorem exists_map_toRaw {raw : List UInt16} (h : ∀ entry ∈ raw, entry ≤ 1023) :
    ∃ words : List Word, raw = words.map toRaw := by
  induction raw with
  | nil => exact ⟨[], rfl⟩
  | cons entry raw ih =>
    obtain ⟨word, rfl⟩ := exists_toRaw (h entry (by simp))
    obtain ⟨words, rfl⟩ := ih fun other hother => h other (by simp [hother])
    exact ⟨word :: words, rfl⟩

end Word

namespace Remainder

/-- A word is added to the lowest coefficient and leaves nothing for the next one. -/
theorem absorb_word (r : Remainder) (word : Word) :
    r.absorb word.toRaw = ⟨r.c₁ + r.c₂ * cube.c₂, r.c₀ + r.c₂ * cube.c₁,
      r.c₂ * cube.c₀ + word.toField⟩ := by
  have hlt := word.isLt
  have hhigh : (word.toRaw.toBitVec >>> 10).setWidth 10 = 0#10 := by
    apply BitVec.eq_of_toNat_eq
    simp only [BitVec.toNat_setWidth, BitVec.toNat_ushiftRight, UInt16.toNat_toBitVec,
      Word.toRaw_toNat, Nat.shiftRight_eq_div_pow, BitVec.toNat_ofNat]
    omega
  have hlow : word.toRaw.toBitVec.setWidth 10 = word.toField.bits := by
    apply BitVec.eq_of_toNat_eq
    simp only [BitVec.toNat_setWidth, UInt16.toNat_toBitVec, Word.toRaw_toNat]
    exact Nat.mod_eq_of_lt hlt
  rw [absorb, hhigh, hlow]
  exact Remainder.ext rfl (add_zero (r.c₀ + r.c₂ * cube.c₁)) rfl

/-- Three words end up in the three coefficients: the feedback of the next two steps comes from the
coefficients above them. -/
theorem absorb_three (r : Remainder) (a b c : Word) :
    ((r.absorb a.toRaw).absorb b.toRaw).absorb c.toRaw =
      ⟨(((r.absorb 0).absorb 0).absorb 0).c₂ + a.toField,
        (((r.absorb 0).absorb 0).absorb 0).c₁ + b.toField,
        (((r.absorb 0).absorb 0).absorb 0).c₀ + c.toField⟩ := by
  rw [← Word.toRaw_zero]
  simp only [absorb_word, Word.toField_zero, add_zero]
  refine Remainder.ext ?_ ?_ ?_ <;> ring

theorem absorbAll_append (r : Remainder) (symbols more : List UInt16) :
    r.absorbAll (symbols ++ more) = (r.absorbAll symbols).absorbAll more :=
  List.foldl_append

end Remainder

namespace Checksum

variable (label : List UInt8) (symbols : List UInt16)

theorem remainder_append (more : List UInt16) :
    remainder label (symbols ++ more) = (remainder label symbols).absorbAll more :=
  Remainder.absorbAll_append ..

theorem verify_iff : verify label symbols = true ↔ remainder label symbols = .one :=
  decide_eq_true_iff

@[simp] theorem length_create : (create label symbols).length = 3 := rfl

/-- In characteristic two, `x + y = z` is the same as `y = x + z`. -/
theorem add_eq_iff_eq_add (x y z : GF1024) : x + y = z ↔ y = x + z := by
  constructor
  · rintro rfl
    have h : x + (x + y) = x - x + y := (add_assoc x x y).symm
    rw [h, sub_self, zero_add]
  · rintro rfl
    have h : x + (x + z) = x - x + z := (add_assoc x x z).symm
    rw [h, sub_self, zero_add]

/-- **Creation and verification agree**: `create` finds the one triple of words that verifies. -/
theorem verify_append_iff (a b c : Word) :
    verify label (symbols ++ [a.toRaw, b.toRaw, c.toRaw]) = true ↔
      [a, b, c] = create label symbols := by
  set r := (((remainder label symbols).absorb 0).absorb 0).absorb 0 with hr
  have hclosed : remainder label (symbols ++ [a.toRaw, b.toRaw, c.toRaw]) =
      ⟨r.c₂ + a.toField, r.c₁ + b.toField, r.c₀ + c.toField⟩ := by
    rw [remainder_append, hr]
    exact Remainder.absorb_three ..
  have hcreate : create label symbols =
      [Word.ofField r.c₂, Word.ofField r.c₁, Word.ofField (r.c₀ + 1)] := by
    rw [create, remainder_append]
    rfl
  have hfield : ∀ (word : Word) (x : GF1024), word = Word.ofField x ↔ word.toField = x :=
    fun word x => ⟨fun h => by rw [h, Word.toField_ofField], fun h => by rw [← h]; rfl⟩
  rw [verify_iff, hclosed, hcreate, Remainder.one, Remainder.mk.injEq,
    List.cons.injEq, List.cons.injEq, List.cons.injEq, hfield, hfield, hfield, add_eq_iff_eq_add,
    add_eq_iff_eq_add, add_eq_iff_eq_add, add_zero, add_zero]
  simp

theorem verify_append_create :
    verify label (symbols ++ (create label symbols).map Word.toRaw) = true :=
  (verify_append_iff label symbols ..).mpr rfl

end Checksum

end ShamirBackup
