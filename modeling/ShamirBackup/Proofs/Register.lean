import ShamirBackup.Proofs.Checksum

/-!
# The register of the checksum

The three coefficients of a remainder fit in a register of 30 bits. Multiplying by `x` shifts it by
ten bits, and what leaves at the top is fed back by ten constants, one for each bit. From one on,
the register goes through the remainders of the label and the words (`packed_remainder`), so the
constants stand for the generator polynomial, and checksums can be created and verified without the
arithmetic of the field.
-/

namespace ShamirBackup

/-! ### Coefficients side by side -/

namespace Remainder

/-- The coefficients in one register, the highest at the top. -/
def packed (r : Remainder) : BitVec 30 :=
  r.c₂.bits ++ r.c₁.bits ++ r.c₀.bits

theorem extract_packed_c₂ (r : Remainder) : r.packed.extractLsb' 20 10 = r.c₂.bits := by
  rw [packed, BitVec.extractLsb'_append_eq_of_le (by decide), BitVec.extractLsb'_append_eq_left]

theorem extract_packed_c₁ (r : Remainder) : r.packed.extractLsb' 10 10 = r.c₁.bits := by
  rw [packed, BitVec.extractLsb'_append_eq_of_le (by decide), BitVec.extractLsb'_append_eq_right]

theorem extract_packed_c₀ (r : Remainder) : r.packed.extractLsb' 0 10 = r.c₀.bits :=
  BitVec.extractLsb'_append_eq_right

theorem packed_injective : Function.Injective packed := by
  intro r s h
  apply Remainder.ext <;> apply BinaryField.ext
  · rw [← extract_packed_c₂, h, extract_packed_c₂]
  · rw [← extract_packed_c₁, h, extract_packed_c₁]
  · rw [← extract_packed_c₀, h, extract_packed_c₀]

theorem packed_add (a₂ a₁ a₀ b₂ b₁ b₀ : GF1024) :
    packed ⟨a₂ + b₂, a₁ + b₁, a₀ + b₀⟩ = packed ⟨a₂, a₁, a₀⟩ ^^^ packed ⟨b₂, b₁, b₀⟩ := by
  simp only [packed, BinaryField.add_bits]
  rw [BitVec.xor_append, BitVec.xor_append]

/-- What becomes of the highest coefficient when the remainder is multiplied by `x`. -/
def wrapped (top : GF1024) : Remainder :=
  ⟨top * cube.c₂, top * cube.c₁, top * cube.c₀⟩

theorem packed_wrapped_add (a b : GF1024) :
    (wrapped (a + b)).packed = (wrapped a).packed ^^^ (wrapped b).packed := by
  simp only [wrapped, add_mul]
  exact packed_add ..

end Remainder

open Remainder

namespace Register

/-! ### Feedback -/

/-- What the bits that leave the register add to it, from the lowest bit on. -/
def constants : List (BitVec 30) :=
  [0x00e0e040, 0x01c1c080, 0x03838100, 0x07070200, 0x0e0e0009, 0x1c0c2412, 0x38086c24, 0x3090fc48,
    0x21b1f890, 0x03f3f120]

/-- Adds the constants that belong to the bits of `top`. -/
def feed (top : BitVec 10) (register : BitVec 30) : List (BitVec 30 × Nat) → BitVec 30
  | [] => register
  | (constant, i) :: rest =>
    feed top (if top.getLsbD i then register ^^^ constant else register) rest

theorem feed_xor (s t : BitVec 10) (a b : BitVec 30) (rest : List (BitVec 30 × Nat)) :
    feed (s ^^^ t) (a ^^^ b) rest = feed s a rest ^^^ feed t b rest := by
  induction rest generalizing a b with
  | nil => rfl
  | cons entry rest ih =>
    rw [feed, feed, feed, ← ih, BitVec.getLsbD_xor]
    congr 1
    cases s.getLsbD entry.2 <;> cases t.getLsbD entry.2
    · rfl
    · exact BitVec.xor_assoc ..
    · show a ^^^ b ^^^ entry.1 = a ^^^ entry.1 ^^^ b
      rw [BitVec.xor_assoc, BitVec.xor_comm b, BitVec.xor_assoc]
    · show a ^^^ b = a ^^^ entry.1 ^^^ (b ^^^ entry.1)
      rw [BitVec.xor_comm b, BitVec.xor_assoc, ← BitVec.xor_assoc entry.1, BitVec.xor_self,
        BitVec.zero_xor]

theorem feed_zero (a : BitVec 30) (rest : List (BitVec 30 × Nat)) : feed 0#10 a rest = a := by
  induction rest with
  | nil => rfl
  | cons entry rest ih => rwa [feed, BitVec.getLsbD_zero, if_neg Bool.false_ne_true]

theorem upper_xor_lower (top : BitVec 10) :
    (top.extractLsb' 5 5 ++ 0#5) ^^^ (0#5 ++ top.extractLsb' 0 5) = top := by
  rw [BitVec.xor_append, BitVec.xor_zero, BitVec.zero_xor]
  exact (BitVec.extractLsb'_append_extractLsb'_eq_extractLsb' (x := top) rfl).trans
    BitVec.extractLsb'_eq_self

theorem feed_upper : ∀ upper : BitVec 5, feed (upper ++ 0#5) 0#30 constants.zipIdx =
    (wrapped ⟨upper ++ 0#5⟩).packed := by
  decide +kernel

theorem feed_lower : ∀ lower : BitVec 5, feed (0#5 ++ lower) 0#30 constants.zipIdx =
    (wrapped ⟨0#5 ++ lower⟩).packed := by
  decide +kernel

/-- **The constants stand for the generator polynomial.** Both sides are additive, so that it is
enough to look at the upper and at the lower bits alone. -/
theorem feed_constants (top : BitVec 10) (register : BitVec 30) :
    feed top register constants.zipIdx = register ^^^ (wrapped ⟨top⟩).packed := by
  have hzero : feed top 0#30 constants.zipIdx = (wrapped ⟨top⟩).packed := by
    rw [← upper_xor_lower top]
    calc feed ((top.extractLsb' 5 5 ++ 0#5) ^^^ (0#5 ++ top.extractLsb' 0 5)) (0#30 ^^^ 0#30)
          constants.zipIdx
        = (wrapped ⟨top.extractLsb' 5 5 ++ 0#5⟩).packed ^^^
            (wrapped ⟨0#5 ++ top.extractLsb' 0 5⟩).packed := by
          rw [feed_xor, feed_upper, feed_lower]
      _ = _ := (packed_wrapped_add ..).symm
  calc feed top register constants.zipIdx
      = feed (0#10 ^^^ top) (register ^^^ 0#30) constants.zipIdx := by
        rw [BitVec.zero_xor, BitVec.xor_zero]
    _ = register ^^^ (wrapped ⟨top⟩).packed := by rw [feed_xor, feed_zero, hzero]

/-! ### Running -/

/-- Takes in one symbol. -/
def step (register : BitVec 30) (symbol : UInt16) : BitVec 30 :=
  feed (register.extractLsb' 20 10) ((register <<< 10) ^^^ symbol.toBitVec.setWidth 30)
    constants.zipIdx

/-- The register after the label and the symbols. -/
def run (label : List UInt8) (symbols : List UInt16) : BitVec 30 :=
  (label.map UInt8.toUInt16 ++ symbols).foldl step 1

theorem packed_shift (r : Remainder) : r.packed <<< 10 = packed ⟨r.c₁, r.c₀, 0⟩ := by
  refine BitVec.eq_of_getLsbD_eq fun i hi => ?_
  simp only [packed, BitVec.getLsbD_shiftLeft, BitVec.getLsbD_append, BinaryField.zero_bits]
  grind

theorem setWidth_symbol (symbol : UInt16) : symbol.toBitVec.setWidth 30 =
    packed ⟨0, ⟨(symbol.toBitVec >>> 10).setWidth 10⟩, ⟨symbol.toBitVec.setWidth 10⟩⟩ := by
  refine BitVec.eq_of_getLsbD_eq fun i hi => ?_
  simp only [packed, BitVec.getLsbD_setWidth, BitVec.getLsbD_append, BitVec.getLsbD_ushiftRight,
    BinaryField.zero_bits]
  grind

/-- One step of the register is one step of the remainder. -/
theorem packed_absorb (r : Remainder) (symbol : UInt16) :
    (r.absorb symbol).packed = step r.packed symbol := by
  rw [step, extract_packed_c₂, feed_constants, packed_shift, setWidth_symbol, ← packed_add]
  show _ = _ ^^^ packed ⟨_, _, _⟩
  rw [← packed_add]
  congr 1
  refine Remainder.ext ?_ ?_ ?_
  · show r.c₁ + r.c₂ * cube.c₂ = r.c₁ + 0 + r.c₂ * cube.c₂
    ring
  · show r.c₀ + r.c₂ * cube.c₁ + _ = r.c₀ + _ + r.c₂ * cube.c₁
    ring
  · show r.c₂ * cube.c₀ + _ = 0 + _ + r.c₂ * cube.c₀
    ring

theorem packed_absorbAll (r : Remainder) (symbols : List UInt16) :
    (r.absorbAll symbols).packed = symbols.foldl step r.packed := by
  induction symbols generalizing r with
  | nil => rfl
  | cons symbol symbols ih =>
    rw [List.foldl_cons, ← packed_absorb]
    exact ih _

/-- **The register holds the remainder.** -/
theorem packed_remainder (label : List UInt8) (symbols : List UInt16) :
    (Checksum.remainder label symbols).packed = run label symbols := by
  rw [Checksum.remainder, ← absorbAll_append, packed_absorbAll, run]
  rfl

theorem verify_iff_run_eq_one (label : List UInt8) (symbols : List UInt16) :
    Checksum.verify label symbols = true ↔ run label symbols = 1 := by
  rw [Checksum.verify_iff, ← packed_injective.eq_iff, packed_remainder]
  rfl

theorem create_eq (label : List UInt8) (symbols : List UInt16) :
    Checksum.create label symbols = [20, 10, 0].map fun start =>
      ((run label (symbols ++ [0, 0, 0]) ^^^ 1).extractLsb' start 10).toFin := by
  set r := Checksum.remainder label (symbols ++ [0, 0, 0]) with hr
  have hone : run label (symbols ++ [0, 0, 0]) ^^^ 1 = packed { r with c₀ := r.c₀ + 1 } := by
    rw [← packed_remainder, ← hr]
    calc r.packed ^^^ 1 = packed ⟨r.c₂, r.c₁, r.c₀⟩ ^^^ packed ⟨0, 0, 1⟩ := rfl
      _ = packed ⟨r.c₂ + 0, r.c₁ + 0, r.c₀ + 1⟩ := (packed_add ..).symm
      _ = packed { r with c₀ := r.c₀ + 1 } := by rw [add_zero, add_zero]
  rw [hone]
  simp only [List.map_cons, List.map_nil, extract_packed_c₂, extract_packed_c₁, extract_packed_c₀]
  rfl

/-- **Three words close a buffer, and only three.** Whatever entries have been read, words or not,
the register goes back to one over the three words that `create` finds, and over no others. -/
theorem closed_iff_created (label : List UInt8) (symbols : List UInt16) {a b c : UInt16}
    (ha : a ≤ 1023) (hb : b ≤ 1023) (hc : c ≤ 1023) :
    (Checksum.verify label (symbols ++ [a, b, c]) = true ↔
      [a, b, c] = (Checksum.create label symbols).map Word.toRaw) ∧
    (run label (symbols ++ [a, b, c]) = 1 ↔
      [a, b, c] = (Checksum.create label symbols).map Word.toRaw) ∧
    ∀ entry ∈ (Checksum.create label symbols).map Word.toRaw, entry ≤ 1023 := by
  obtain ⟨a, rfl⟩ := Word.exists_toRaw ha
  obtain ⟨b, rfl⟩ := Word.exists_toRaw hb
  obtain ⟨c, rfl⟩ := Word.exists_toRaw hc
  have hclosed : Checksum.verify label (symbols ++ [a.toRaw, b.toRaw, c.toRaw]) = true ↔
      [a.toRaw, b.toRaw, c.toRaw] = (Checksum.create label symbols).map Word.toRaw := by
    rw [Checksum.verify_append_iff]
    exact (List.map_injective_iff.mpr Word.toRaw_injective).eq_iff.symm
  exact ⟨hclosed, (verify_iff_run_eq_one ..).symm.trans hclosed,
    fun entry hentry => Word.le_of_mem_map_toRaw hentry⟩

/-- The entry before the last one is no word, and its excess bits are part of the sum. -/
theorem closed_iff_created_excess :
    let symbols : List UInt16 := [1, 2, 3, 65535, 512]
    ((881 : UInt16) ≤ 1023 ∧ (420 : UInt16) ≤ 1023 ∧ (212 : UInt16) ≤ 1023) ∧
    Checksum.verify (Checksum.label true) (symbols ++ [881, 420, 212]) = true ∧
    run (Checksum.label true) (symbols ++ [881, 420, 212]) = 1 := by
  intro symbols
  have hcreate : (Checksum.create (Checksum.label true) symbols).map Word.toRaw =
      [881, 420, 212] := by
    decide +kernel
  obtain ⟨hverify, hrun, -⟩ := closed_iff_created (Checksum.label true) symbols
    (show (881 : UInt16) ≤ 1023 by decide) (show (420 : UInt16) ≤ 1023 by decide)
    (show (212 : UInt16) ≤ 1023 by decide)
  exact ⟨by decide, hverify.mpr hcreate.symm, hrun.mpr hcreate.symm⟩

end Register

end ShamirBackup
