import ShamirBackup.Proofs.Layout
import ShamirBackup.Proofs.WrittenForm
import ShamirBackup.Recovery.Entry

/-!
# The heading of a share

The first two words of a share tell what backup it is of, and they are read for this before anything
else is known about the share. In numbers: two words are one number of twenty bits (`heading`), and
so are the parameters of a backup (`Parameters.number`). Taking the words apart by shifts finds the
parameters of this number (`parametersOf_eq_iff`), and these are the ones that the share itself is
read with (`parametersOf_eq_ofBits`).
-/

namespace ShamirBackup

namespace Parameters

/-- The parameters in one number of twenty bits. -/
def number (p : Parameters) : Nat :=
  p.identifier.val * 2 ^ 5 + p.extendable.toNat * 2 ^ 4 + p.exponent.val

theorem toNat_bits (p : Parameters) : Bits.toNat p.bits = p.number := by
  obtain ⟨⟨id, hid⟩, extendable, ⟨exponent, hexponent⟩⟩ := p
  simp only [bits, number, Bits.toNat_append, Bits.toNat_cons, Bits.toNat_ofNat,
    Bits.length_ofNat, List.length_cons]
  omega

theorem bits_eq_ofNat (p : Parameters) : p.bits = Bits.ofNat 20 p.number := by
  have hlength : p.bits.length = 20 := by simp [bits]
  rw [← toNat_bits, Bits.ofNat_toNat hlength]

/-- Parameters are found again in their bits, and so they are known by their number. -/
theorem number_injective : Function.Injective number := by
  intro p q h
  calc p = ofBits (p.bits ++ []) := (p.ofBits_bits_append []).symm
    _ = ofBits (q.bits ++ []) := by rw [bits_eq_ofNat p, bits_eq_ofNat q, h]
    _ = q := q.ofBits_bits_append []

end Parameters

namespace Recovery

/-- The first two words of a share as one number. -/
def heading (words : List Word) : Nat :=
  (words.getD 0 Word.zero).val * 2 ^ 10 + (words.getD 1 Word.zero).val

variable {words : List Word}

/-- Shifts and masks take the number apart. -/
theorem number_parametersOf (words : List Word) : (parametersOf words).number = heading words := by
  set first := words.getD 0 Word.zero with hfirst
  set second := words.getD 1 Word.zero with hsecond
  have hlt := second.isLt
  have hidentifier : (parametersOf words).identifier.val = first.val * 32 + second.val / 32 := by
    show first.val <<< 5 ||| second.val >>> 5 = _
    rw [Nat.shiftRight_eq_div_pow, ← Nat.shiftLeft_add_eq_or_of_lt (by omega), Nat.shiftLeft_eq]
  have hextendable : (parametersOf words).extendable.toNat = second.val / 16 % 2 :=
    Nat.toNat_testBit second.val 4
  have hexponent : (parametersOf words).exponent.val = second.val % 16 :=
    Nat.and_two_pow_sub_one_eq_mod second.val 4
  rw [Parameters.number, hidentifier, hextendable, hexponent, heading]
  omega

/-- **The words spell the parameters that have their number.** -/
theorem parametersOf_eq_iff {p : Parameters} :
    parametersOf words = p ↔ heading words = p.number := by
  rw [← number_parametersOf]
  exact Parameters.number_injective.eq_iff.symm

theorem heading_eq_toNat (h : 2 ≤ words.length) : heading words =
    Bits.toNat (((words.map Word.toRaw).flatMap Word.rawBits).take 20) := by
  obtain ⟨first, second, rest, rfl⟩ : ∃ first second rest, words = first :: second :: rest := by
    match words, h with
    | first :: second :: rest, _ => exact ⟨first, second, rest, rfl⟩
  have htake : (((first :: second :: rest).map Word.toRaw).flatMap Word.rawBits).take 20 =
      Bits.ofNat 10 first.val ++ Bits.ofNat 10 second.val := by
    have htwo := Word.take_flatMap_rawBits ((first :: second :: rest).map Word.toRaw) 2
    simpa [Word.rawBits_toRaw] using htwo
  have hdigit : ∀ word : Word, word.val % 2 ^ 10 = word.val :=
    fun word => Nat.mod_eq_of_lt word.isLt
  rw [htake, Bits.toNat_append, Bits.toNat_ofNat, Bits.toNat_ofNat, Bits.length_ofNat, hdigit,
    hdigit]
  rfl

/-- The share behind the words is read with the same parameters. -/
theorem parametersOf_eq_ofBits (h : 2 ≤ words.length) :
    parametersOf words = Parameters.ofBits ((words.map Word.toRaw).flatMap Word.rawBits) := by
  have hlength := Word.length_flatMap_rawBits (words.map Word.toRaw)
  rw [List.length_map] at hlength
  rw [parametersOf_eq_iff, heading_eq_toNat h, ← Parameters.toNat_bits,
    Parameters.bits_ofBits (by omega)]

end Recovery

end ShamirBackup
