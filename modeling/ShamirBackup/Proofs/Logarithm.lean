import ShamirBackup.Proofs.Field

/-!
# Arithmetic by tables of logarithms

The nonzero bytes are the powers of `x + 1`, so they are multiplied by adding their exponents. One
walk through the powers fills a table from exponents to bytes and another one back. What each step of
the walk keeps is that the powers so far are in both tables (`Holds`), since no two of them are the
same byte. Multiplying and dividing by the tables is the arithmetic of the field (`mul_toByte`,
`div?_toByte`).
-/

namespace ShamirBackup

/-- Powers of the generator by their exponents, and exponents by the bytes that are the powers. -/
structure LogTables where
  exp : List UInt8
  log : List UInt8

namespace LogTables

open GF256

/-- Every nonzero byte is a power of `x + 1`. -/
abbrev generator : GF256 := ⟨0x03⟩

/-! ### The walk -/

def blank : LogTables := ⟨List.replicate 255 0, List.replicate 256 0⟩

def enter (tables : LogTables) (power : Nat) (byte : UInt8) : LogTables where
  exp := tables.exp.set power byte
  log := tables.log.set byte.toNat (UInt8.ofNat power)

/-- Multiplies by the generator. The bit that leaves the byte is cleared with the whole modulus. -/
def next (value : UInt16) : UInt16 :=
  let product := (value <<< 1) ^^^ value
  if product &&& 0x100 ≠ 0 then product ^^^ 0x11b else product

/-- Enters the powers from the given one on, as many as `count`. -/
def fill (tables : LogTables) (value : UInt16) (power : Nat) : Nat → LogTables
  | 0 => tables
  | count + 1 => (tables.enter power value.toUInt8).fill (next value) (power + 1) count

def complete : LogTables := blank.fill 1 0 255

/-! ### Lookups -/

/-- The power with an exponent of any size. -/
def power (exponent : Nat) : UInt8 := complete.exp.getD (exponent % 255) 0

/-- The exponent of a nonzero byte. -/
def exponent (byte : UInt8) : Nat := (complete.log.getD byte.toNat 0).toNat

def mul (a b : UInt8) : UInt8 :=
  if a = 0 ∨ b = 0 then 0 else power (exponent a + exponent b)

def div? (a b : UInt8) : Option UInt8 :=
  if b = 0 then none
  else if a = 0 then some 0
  else some (power (exponent a + 255 - exponent b))

/-! ### What the walk keeps -/

/-- The powers with exponents below `count` are in both tables. -/
structure Holds (tables : LogTables) (count : Nat) : Prop where
  length_exp : tables.exp.length = 255
  length_log : tables.log.length = 256
  exp_eq : ∀ k < count, tables.exp[k]? = some (generator ^ k).toByte
  log_eq : ∀ k < count, tables.log[(generator ^ k).toByte.toNat]? = some (UInt8.ofNat k)

theorem holds_blank : Holds blank 0 where
  length_exp := List.length_replicate
  length_log := List.length_replicate
  exp_eq := nofun
  log_eq := nofun

theorem orderOf_eq : orderOf generator = 255 := orderOf_generator

/-- Powers with different exponents below 255 are different bytes. -/
theorem toNat_pow_ne {j k : Nat} (hj : j < 255) (hk : k < 255) (hne : j ≠ k) :
    (generator ^ j).toByte.toNat ≠ (generator ^ k).toByte.toNat := by
  intro h
  apply hne
  apply pow_injOn_Iio_orderOf (x := generator)
  · rw [orderOf_eq]
    exact hj
  · rw [orderOf_eq]
    exact hk
  · exact toByte_injective (UInt8.toNat_inj.mp h)

theorem Holds.enter {tables : LogTables} {count : Nat} (h : Holds tables count)
    (hcount : count < 255) :
    Holds (tables.enter count (generator ^ count).toByte) (count + 1) where
  length_exp := by rw [LogTables.enter, List.length_set, h.length_exp]
  length_log := by rw [LogTables.enter, List.length_set, h.length_log]
  exp_eq k hk := by
    by_cases hlast : k = count
    · subst hlast
      exact List.getElem?_set_self (by rwa [h.length_exp])
    · rw [LogTables.enter, List.getElem?_set_ne (Ne.symm hlast)]
      exact h.exp_eq k (by omega)
  log_eq k hk := by
    by_cases hlast : k = count
    · subst hlast
      exact List.getElem?_set_self (by rw [h.length_log]; exact UInt8.toNat_lt _)
    · rw [LogTables.enter, List.getElem?_set_ne (toNat_pow_ne hcount (by omega) (Ne.symm hlast))]
      exact h.log_eq k (by omega)

theorem next_toByte : ∀ a : GF256,
    next a.toByte.toUInt16 = (a * generator).toByte.toUInt16 := by
  decide +kernel

theorem Holds.fill {tables : LogTables} {power : Nat} (h : Holds tables power) (count : Nat)
    (hcount : power + count ≤ 255) :
    Holds (tables.fill (generator ^ power).toByte.toUInt16 power count) (power + count) := by
  -- the walk stands at the power with which the tables go on
  induction count generalizing tables power with
  | zero => exact h
  | succ count ih =>
    rw [LogTables.fill, next_toByte, ← pow_succ, UInt8.toUInt8_toUInt16,
      show power + (count + 1) = power + 1 + count by omega]
    exact ih (h.enter (by omega)) (by omega)

theorem holds_complete : Holds complete 255 :=
  holds_blank.fill 255 (by decide)

/-! ### The arithmetic -/

theorem power_eq (exponent : Nat) : power exponent = (generator ^ exponent).toByte := by
  have hmod : generator ^ exponent = generator ^ (exponent % 255) := by
    rw [← pow_mod_orderOf, orderOf_eq]
  rw [power, List.getD_eq_getElem?_getD,
    holds_complete.exp_eq _ (Nat.mod_lt _ (by decide)), Option.getD_some, hmod]

theorem exponent_toByte_pow {k : Nat} (hk : k < 255) : exponent (generator ^ k).toByte = k := by
  rw [exponent, List.getD_eq_getElem?_getD, holds_complete.log_eq k hk, Option.getD_some]
  exact UInt8.toNat_ofNat_of_lt' (Nat.lt_trans hk (by decide))

theorem exists_pow_eq {a : GF256} (ha : a ≠ 0) : ∃ k < 255, generator ^ k = a := by
  rw [← orderOf_eq]
  exact BinaryField.exists_pow_eq (by decide) orderOf_generator ha

theorem toByte_eq_zero_iff {a : GF256} : a.toByte = 0 ↔ a = 0 :=
  toByte_injective.eq_iff (b := 0)

/-- Exponents add up. -/
theorem mul_toByte (a b : GF256) : mul a.toByte b.toByte = (a * b).toByte := by
  rw [mul]
  split_ifs with hzero
  · simp only [toByte_eq_zero_iff] at hzero
    rw [mul_eq_zero.mpr hzero]
    rfl
  · simp only [toByte_eq_zero_iff, not_or] at hzero
    obtain ⟨j, hj, rfl⟩ := exists_pow_eq hzero.1
    obtain ⟨k, hk, rfl⟩ := exists_pow_eq hzero.2
    rw [exponent_toByte_pow hj, exponent_toByte_pow hk, power_eq, pow_add]

/-- Exponents are subtracted, after a full turn that keeps the difference from falling below zero. -/
theorem div?_toByte (a b : GF256) :
    div? a.toByte b.toByte = (BinaryField.div? a b).map toByte := by
  by_cases hb : b = 0
  · subst hb
    rfl
  rw [div?, if_neg (by rwa [toByte_eq_zero_iff]), GF256.div?_eq_some a hb, Option.map_some]
  split_ifs with ha
  · rw [toByte_eq_zero_iff] at ha
    rw [ha, zero_div]
    rfl
  · rw [toByte_eq_zero_iff] at ha
    obtain ⟨j, hj, rfl⟩ := exists_pow_eq ha
    obtain ⟨k, hk, rfl⟩ := exists_pow_eq hb
    have hturn : generator ^ (j + 255 - k) * generator ^ k = generator ^ j := by
      rw [← pow_add, Nat.sub_add_cancel (by omega), pow_add, ← orderOf_eq,
        pow_orderOf_eq_one, mul_one]
    rw [exponent_toByte_pow hj, exponent_toByte_pow hk, power_eq, ← hturn,
      mul_div_cancel_right₀ _ hb]

end LogTables

end ShamirBackup
