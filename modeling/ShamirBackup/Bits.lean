/-!
# Bit fields

Numbers as lists of binary digits, highest first. A share is such a list: its fields are written one
after the other and the whole is cut into words of ten bits.
-/

namespace ShamirBackup.Bits

/-- The lowest `width` binary digits of a number. -/
def ofNat : (width : Nat) → Nat → List Bool
  | 0, _ => []
  | width + 1, n => n.testBit width :: ofNat width n

/-- The number with these binary digits. -/
def toNat (bits : List Bool) : Nat :=
  bits.foldl (fun n bit => 2 * n + bit.toNat) 0

/-- The number that `width` bits from position `start` on stand for. -/
def field (bits : List Bool) (start width : Nat) : Nat :=
  toNat ((bits.drop start).take width)

/-- The first `count` runs of `width` bits. -/
def chunks (width : Nat) : (count : Nat) → List Bool → List (List Bool)
  | 0, _ => []
  | count + 1, bits => bits.take width :: chunks width count (bits.drop width)

/-! ### Lengths and ranges -/

@[simp] theorem length_ofNat (width n : Nat) : (ofNat width n).length = width := by
  induction width with
  | zero => rfl
  | succ width ih => simp [ofNat, ih]

@[simp] theorem length_chunks (width count : Nat) (bits : List Bool) :
    (chunks width count bits).length = count := by
  induction count generalizing bits with
  | zero => rfl
  | succ count ih => simp [chunks, ih]

theorem foldl_lt (bits : List Bool) (n : Nat) :
    bits.foldl (fun n bit => 2 * n + bit.toNat) n < (n + 1) <<< bits.length := by
  induction bits generalizing n with
  | nil => exact Nat.lt_succ_self n
  | cons bit bits ih =>
    refine Nat.lt_of_lt_of_le (ih _) ?_
    rw [List.length_cons, Nat.shiftLeft_succ_inside, Nat.shiftLeft_eq, Nat.shiftLeft_eq]
    have hbit := Bool.toNat_le bit
    exact Nat.mul_le_mul_right _ (show 2 * n + bit.toNat + 1 ≤ 2 * (n + 1) by omega)

theorem toNat_lt (bits : List Bool) : toNat bits < 1 <<< bits.length :=
  foldl_lt bits 0

theorem field_lt (bits : List Bool) (start width : Nat) : field bits start width < 1 <<< width := by
  refine Nat.lt_of_lt_of_le (toNat_lt _) ?_
  rw [Nat.one_shiftLeft, Nat.one_shiftLeft]
  exact Nat.pow_le_pow_right (by decide) (List.length_take_le ..)

end ShamirBackup.Bits
