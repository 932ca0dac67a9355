import ShamirBackup.Proofs.MetadataWords
import ShamirBackup.Share.Words

/-!
# Values out of words

Both packing and unpacking shift bits into an accumulator and take them out again in runs of another
width. The accumulator stands for the bits that wait in it, the highest first. So what is taken out
are the whole runs of all bits that were shifted in (`bytes_takeWords`), however they were cut
before. A value is read from its words as from their bits (`valueOfRaw_eq`), and so is the whole
share (`ofRaw_eq_bits`).
-/

namespace ShamirBackup

/-! ### Whole runs -/

/-- The runs of one width that bits make up. Bits that do not fill one are left out. -/
def Bits.runs (width : Nat) (bits : List Bool) : List (List Bool) :=
  chunks width (bits.length / width) bits

namespace Bits

variable {width : Nat} {bits : List Bool}

theorem runs_of_length_lt (h : bits.length < width) : runs width bits = [] := by
  rw [runs, Nat.div_eq_of_lt h, chunks]

/-- The bits that the first runs leave out come before those that follow. -/
theorem runs_append (hwidth : 0 < width) (bits more : List Bool) :
    runs width (bits ++ more) =
      runs width bits ++ runs width (bits.drop (width * (bits.length / width)) ++ more) := by
  have hwhole : width * (bits.length / width) ≤ bits.length := Nat.mul_div_le ..
  have hcount : (bits ++ more).length / width = bits.length / width +
      (bits.drop (width * (bits.length / width)) ++ more).length / width := by
    rw [List.length_append, List.length_append, List.length_drop, Nat.add_comm (_ / _),
      ← Nat.add_mul_div_left _ _ hwidth]
    congr 1
    omega
  rw [runs, hcount, chunks_add, chunks_append_of_le more hwhole,
    List.drop_append_of_le_length hwhole]
  rfl

theorem runs_append_of_length (hwidth : 0 < width) (h : bits.length = width) (more : List Bool) :
    runs width (bits ++ more) = bits :: runs width more := by
  have hone : runs width bits = [bits] := by
    rw [runs, h, Nat.div_self hwidth, chunks, chunks, List.take_of_length_le h.le]
  rw [runs_append hwidth, hone, h, Nat.div_self hwidth, Nat.mul_one,
    List.drop_of_length_le h.le, List.nil_append, List.singleton_append]

/-- What no run takes are the lowest digits. -/
theorem drop_runs_ofNat (width count n : Nat) :
    (ofNat count n).drop (width * (count / width)) = ofNat (count % width) n := by
  rw [← drop_ofNat (width * (count / width)) (count % width), Nat.div_add_mod]

/-- The bytes that bits make up. -/
def bytes (bits : List Bool) : List UInt8 :=
  (runs 8 bits).map fun byte => UInt8.ofNat (toNat byte)

theorem bytes_append (bits more : List Bool) :
    bytes (bits ++ more) = bytes bits ++ bytes (bits.drop (8 * (bits.length / 8)) ++ more) := by
  rw [bytes, runs_append (by decide), List.map_append]
  rfl

theorem bytes_ofNat_append (n : Nat) (more : List Bool) :
    bytes (ofNat 8 n ++ more) = UInt8.ofNat (n % 2 ^ 8) :: bytes more := by
  rw [bytes, runs_append_of_length (by decide) (length_ofNat 8 n), List.map_cons, toNat_ofNat]
  rfl

/-! ### Accumulators -/

/-- What is shifted in comes behind the bits that wait. -/
theorem ofNat_shiftLeft_or (acc low : UInt32) {waiting : Nat} (k : Nat) (hk : k < 32)
    (hroom : waiting ≤ 32 - k) (hlow : low.toNat < 2 ^ k) :
    ofNat (waiting + k) (acc <<< UInt32.ofNat k ||| low).toNat =
      ofNat waiting acc.toNat ++ ofNat k low.toNat := by
  have hcount : (UInt32.ofNat k).toNat % 32 = k := by
    rw [UInt32.toNat_ofNat_of_lt' (Nat.lt_trans hk (by decide)), Nat.mod_eq_of_lt hk]
  have hshift : (acc <<< UInt32.ofNat k).toNat = acc.toNat % 2 ^ (32 - k) * 2 ^ k := by
    rw [UInt32.toNat_shiftLeft, hcount, Nat.shiftLeft_eq, ← Nat.mul_mod_mul_right, ← Nat.pow_add,
      Nat.sub_add_cancel hk.le]
  have hsum : (acc <<< UInt32.ofNat k ||| low).toNat =
      acc.toNat % 2 ^ (32 - k) * 2 ^ k + low.toNat := by
    rw [UInt32.toNat_or, hshift, ← Nat.shiftLeft_eq, ← Nat.shiftLeft_add_eq_or_of_lt hlow]
  have hhigh : (acc.toNat % 2 ^ (32 - k) * 2 ^ k + low.toNat) / 2 ^ k =
      acc.toNat % 2 ^ (32 - k) := by
    rw [Nat.add_comm, Nat.add_mul_div_right _ _ (Nat.two_pow_pos k), Nat.div_eq_of_lt hlow,
      Nat.zero_add]
  rw [hsum, ofNat_add, hhigh]
  congr 1
  · exact ofNat_congr (Nat.mod_mod_of_dvd _ (Nat.pow_dvd_pow 2 hroom))
  · exact ofNat_congr (Nat.mul_add_mod_self_right ..)

theorem toNat_shiftRight (acc : UInt32) {rest : Nat} (h : rest < 32) :
    (acc >>> UInt32.ofNat rest).toNat = acc.toNat / 2 ^ rest := by
  rw [UInt32.toNat_shiftRight, UInt32.toNat_ofNat_of_lt' (Nat.lt_trans h (by decide)),
    Nat.mod_eq_of_lt h, Nat.shiftRight_eq_div_pow]

/-- What is cut out of the accumulator when a byte is taken. -/
theorem shifted_toUInt8 (acc : UInt32) {rest : Nat} (h : rest < 32) :
    (acc >>> UInt32.ofNat rest).toUInt8 = UInt8.ofNat (acc.toNat / 2 ^ rest % 2 ^ 8) := by
  apply UInt8.toNat_inj.mp
  rw [UInt32.toNat_toUInt8, toNat_shiftRight acc h, UInt8.toNat_ofNat', Nat.mod_mod]

/-- The mask of the waiting bits keeps them. -/
theorem ofNat_and_mask (acc : UInt32) {waiting : Nat} (h : waiting < 10) :
    ofNat waiting (acc &&& ((1 <<< UInt32.ofNat waiting) - 1)).toNat = ofNat waiting acc.toNat := by
  have hmask : ∀ count : Fin 10,
      ((1 <<< UInt32.ofNat count.val) - 1 : UInt32).toNat = 2 ^ count.val - 1 := by decide
  rw [UInt32.toNat_and, hmask ⟨waiting, h⟩, Nat.and_two_pow_sub_one_eq_mod, ofNat_mod]

end Bits

/-! ### Unpackers -/

namespace Unpacker

variable {unpacker : Unpacker} {entry : UInt16} {skipped : Nat}

/-- The bits that wait for more. -/
def pending (unpacker : Unpacker) : List Bool :=
  Bits.ofNat unpacker.waiting unpacker.acc.toNat

@[simp] theorem length_pending (unpacker : Unpacker) :
    unpacker.pending.length = unpacker.waiting :=
  Bits.length_ofNat ..

/-- Draining takes the bytes of the waiting bits and leaves the bits behind them. -/
theorem drain_eq (h : unpacker.waiting < 32) :
    unpacker.drain = { unpacker with
      bytes := unpacker.bytes ++ (Bits.bytes unpacker.pending).toArray
      waiting := unpacker.waiting % 8 } := by
  fun_induction drain unpacker with
  | case1 unpacker height rest byte ih =>
    have hwaiting : unpacker.waiting = 8 + rest := by omega
    have hbyte : byte = UInt8.ofNat (unpacker.acc.toNat / 2 ^ rest % 2 ^ 8) :=
      Bits.shifted_toUInt8 unpacker.acc (by omega)
    have hbytes : Bits.bytes unpacker.pending =
        byte :: Bits.bytes (Bits.ofNat rest unpacker.acc.toNat) := by
      rw [pending, hwaiting, Bits.ofNat_add, Bits.bytes_ofNat_append, hbyte]
    rw [ih (by simp only; omega), hbytes, hwaiting, Nat.add_mod_left]
    simp [pending]
  | case2 unpacker height =>
    have hlt : unpacker.waiting < 8 := by omega
    rw [Bits.bytes, Bits.runs_of_length_lt (by rwa [length_pending]), Nat.mod_eq_of_lt hlt]
    simp

/-- The bits of a word come behind the waiting ones. -/
theorem ofNat_takeWord (h : unpacker.waiting < 8) (hentry : entry ≤ 1023)
    (hskipped : skipped ≤ 10) :
    Bits.ofNat (unpacker.waiting + 10 - skipped)
        (unpacker.acc <<< 10 ||| entry.toUInt32).toNat =
      (unpacker.pending ++ Word.rawBits entry).drop skipped := by
  have hlow : entry.toUInt32.toNat < 2 ^ 10 := Nat.lt_succ_of_le (UInt16.le_iff_toNat_le.mp hentry)
  have hbits : Bits.ofNat (unpacker.waiting + 10) (unpacker.acc <<< 10 ||| entry.toUInt32).toNat =
      unpacker.pending ++ Word.rawBits entry :=
    Bits.ofNat_shiftLeft_or unpacker.acc entry.toUInt32 10 (by decide) (by omega) hlow
  have hsplit : unpacker.waiting + 10 = skipped + (unpacker.waiting + 10 - skipped) := by omega
  rw [← hbits, hsplit, Bits.drop_ofNat, Nat.add_sub_cancel_left]

/-- **Taking a word.** Its bits come behind the waiting ones, and the bytes that they make up
together are taken. -/
theorem bytes_takeWord (h : unpacker.waiting < 8) (hentry : entry ≤ 1023)
    (hskipped : skipped ≤ 10) :
    (unpacker.takeWord skipped entry).bytes.toList = unpacker.bytes.toList ++
      Bits.bytes ((unpacker.pending ++ Word.rawBits entry).drop skipped) := by
  have hbits := ofNat_takeWord h hentry hskipped
  rw [takeWord, drain_eq (by simp only; omega), pending, hbits, Array.toList_append]

theorem waiting_takeWord (h : unpacker.waiting < 8) :
    (unpacker.takeWord skipped entry).waiting = (unpacker.waiting + 10 - skipped) % 8 := by
  rw [takeWord, drain_eq (by simp only; omega)]

/-- What waits after a word are the bits behind the bytes that it completed. -/
theorem pending_takeWord (h : unpacker.waiting < 8) (hentry : entry ≤ 1023)
    (hskipped : skipped ≤ 10) :
    (unpacker.takeWord skipped entry).pending =
      ((unpacker.pending ++ Word.rawBits entry).drop skipped).drop
        (8 * ((unpacker.waiting + 10 - skipped) / 8)) := by
  rw [← ofNat_takeWord h hentry hskipped, Bits.drop_runs_ofNat, takeWord,
    drain_eq (by simp only; omega)]
  exact Bits.ofNat_and_mask _ (Nat.lt_trans (Nat.mod_lt _ (by decide)) (by decide))

/-- The bytes so far and those that are still to come are not changed by taking a word. -/
theorem bytes_takeWord_append (h : unpacker.waiting < 8) (hentry : entry ≤ 1023)
    (hskipped : skipped ≤ 10) (more : List Bool) :
    (unpacker.takeWord skipped entry).bytes.toList ++
        Bits.bytes ((unpacker.takeWord skipped entry).pending ++ more) =
      unpacker.bytes.toList ++
        Bits.bytes ((unpacker.pending ++ Word.rawBits entry).drop skipped ++ more) := by
  have hlength : ((unpacker.pending ++ Word.rawBits entry).drop skipped).length =
      unpacker.waiting + 10 - skipped := by
    rw [List.length_drop, List.length_append, length_pending, Word.length_rawBits]
  have hsplit := Bits.bytes_append ((unpacker.pending ++ Word.rawBits entry).drop skipped) more
  rw [hlength] at hsplit
  rw [bytes_takeWord h hentry hskipped, pending_takeWord h hentry hskipped, hsplit,
    List.append_assoc]

/-- **Taking words.** What is taken are the bytes of all bits, the waiting ones first. -/
theorem bytes_takeWords {entries : List UInt16} (h : unpacker.waiting < 8)
    (hentries : ∀ entry ∈ entries, entry ≤ 1023) :
    (unpacker.takeWords entries).bytes.toList = unpacker.bytes.toList ++
      Bits.bytes (unpacker.pending ++ entries.flatMap Word.rawBits) := by
  induction entries generalizing unpacker with
  | nil =>
    rw [List.flatMap_nil, List.append_nil, Bits.bytes,
      Bits.runs_of_length_lt (by rwa [length_pending]), List.map_nil, List.append_nil]
    rfl
  | cons entry entries ih =>
    have hentry := hentries entry (by simp)
    have hwaiting : (unpacker.takeWord 0 entry).waiting < 8 := by
      rw [waiting_takeWord h]
      exact Nat.mod_lt _ (by decide)
    calc ((unpacker.takeWord 0 entry).takeWords entries).bytes.toList
      _ = (unpacker.takeWord 0 entry).bytes.toList ++
          Bits.bytes ((unpacker.takeWord 0 entry).pending ++ entries.flatMap Word.rawBits) :=
        ih hwaiting fun other hother => hentries other (by simp [hother])
      _ = _ := by
        rw [bytes_takeWord_append h hentry (Nat.zero_le 10), List.drop_zero, List.append_assoc,
          List.flatMap_cons]

end Unpacker

/-! ### Values -/

namespace Share

/-- A word starts with zeros if nothing is left of it when the other bits are shifted out. -/
theorem any_take_rawBits {entry : UInt16} {padding : Nat} (hentry : entry ≤ 1023)
    (hpadding : padding ≤ 8) : ((Word.rawBits entry).take padding).any id = true ↔
      entry >>> UInt16.ofNat (10 - padding) ≠ 0 := by
  have hlt : entry.toNat < 2 ^ 10 := Nat.lt_succ_of_le (UInt16.le_iff_toNat_le.mp hentry)
  have hsplit : 10 = padding + (10 - padding) := by omega
  have hhigh : entry.toNat / 2 ^ (10 - padding) < 2 ^ padding := by
    rwa [Nat.div_lt_iff_lt_mul (Nat.two_pow_pos _), ← Nat.pow_add, ← hsplit]
  have htake : (Word.rawBits entry).take padding =
      Bits.ofNat padding (entry.toNat / 2 ^ (10 - padding)) := by
    rw [← List.take_left' (Bits.length_ofNat padding _), ← Bits.ofNat_add, ← hsplit]
    rfl
  rw [htake, Bits.any_ofNat, Nat.mod_eq_of_lt hhigh,
    ← Word.toNat_shiftRight (10 - padding) rfl (by omega), not_iff_not]
  exact ⟨fun h => UInt16.toNat_inj.mp h, fun h => by rw [h]; rfl⟩

/-- The bytes behind the padding of the first word. -/
theorem bytes_takeWords_takeWord {first : UInt16} {others : List UInt16} {padding : Nat}
    (hentries : ∀ entry ∈ first :: others, entry ≤ 1023) (hpadding : padding ≤ 10) :
    ((Unpacker.takeWord ⟨#[], 0, 0⟩ padding first).takeWords others).bytes.toList =
      Bits.bytes (((first :: others).flatMap Word.rawBits).drop padding) := by
  have hfirst := hentries first (by simp)
  have hothers : ∀ entry ∈ others, entry ≤ 1023 := fun entry hentry =>
    hentries entry (by simp [hentry])
  have hwidth : padding ≤ (Word.rawBits first).length := by rwa [Word.length_rawBits]
  have hempty : Unpacker.waiting ⟨#[], 0, 0⟩ < 8 := by decide
  have hwaiting : (Unpacker.takeWord ⟨#[], 0, 0⟩ padding first).waiting < 8 := by
    rw [Unpacker.waiting_takeWord hempty]
    exact Nat.mod_lt _ (by decide)
  rw [Unpacker.bytes_takeWords hwaiting hothers,
    Unpacker.bytes_takeWord_append hempty hfirst hpadding, List.flatMap_cons,
    List.drop_append_of_le_length hwidth]
  rfl

/-- **A value is read from its words as from their bits.** -/
theorem valueOfRaw_eq {entries : List UInt16} (hne : entries ≠ [])
    (hentries : ∀ entry ∈ entries, entry ≤ 1023) :
    valueOfRaw entries = valueOfBits (entries.flatMap Word.rawBits) := by
  obtain ⟨first, others, rfl⟩ := List.exists_cons_of_ne_nil hne
  have hlength := Word.length_flatMap_rawBits (first :: others)
  rw [valueOfRaw, valueOfBits, hlength]
  set padding := 10 * (first :: others).length % 16
  by_cases hlong : 8 < padding
  · simp [hlong]
  have hshort : padding ≤ 8 := Nat.not_lt.mp hlong
  have hbytes := bytes_takeWords_takeWord hentries (Nat.le_trans hshort (by decide))
  have htake : ((first :: others).flatMap Word.rawBits).take padding =
      (Word.rawBits first).take padding := by
    rw [List.flatMap_cons, List.take_append_of_le_length]
    rw [Word.length_rawBits]
    omega
  simp only [hlong, decide_false, Bool.false_or, if_false, htake,
    any_take_rawBits (hentries first (by simp)) hshort, hbytes, Bits.bytes, Bits.runs,
    List.length_drop, hlength]

/-! ### Shares -/

/-- **A share is read from its words as from their bits.** -/
theorem ofRaw_eq_bits (raw : List UInt16) : ofRaw raw =
    if raw.length < leastWords then .error (.tooFewWords raw.length leastWords)
    else if raw.any (1023 < ·) then .error (.form .wordRange)
    else
      let bits := raw.flatMap Word.rawBits
      if !Checksum.verify (Checksum.label (Parameters.ofBits bits).extendable) raw then
        .error .checksum
      else Metadata.ofBits bits >>= fun metadata =>
        valueOfBits ((bits.drop 40).take (10 * (raw.length - 7))) >>= ofParts metadata := by
  rw [ofRaw]
  by_cases hshort : raw.length < leastWords
  · rw [if_pos hshort, if_pos hshort]
  by_cases hrange : raw.any (1023 < ·) = true
  · rw [if_neg hshort, if_neg hshort, if_pos hrange, if_pos hrange]
  have hlength : 20 ≤ raw.length := Nat.not_lt.mp hshort
  have hentries : ∀ entry ∈ (raw.drop 4).take (raw.length - 7), entry ≤ 1023 := by
    intro entry hentry
    have hmem : entry ∈ raw := List.mem_of_mem_drop (List.mem_of_mem_take hentry)
    simp only [List.any_eq_true, decide_eq_true_eq, not_exists, not_and, UInt16.not_lt] at hrange
    exact hrange entry hmem
  have hne : (raw.drop 4).take (raw.length - 7) ≠ [] :=
    List.ne_nil_of_length_pos (by rw [List.length_take, List.length_drop]; omega)
  have hvalue : valueOfRaw ((raw.drop 4).take (raw.length - 7)) =
      valueOfBits (((raw.flatMap Word.rawBits).drop 40).take (10 * (raw.length - 7))) := by
    have hdrop : (raw.flatMap Word.rawBits).drop 40 = (raw.drop 4).flatMap Word.rawBits :=
      Word.drop_flatMap_rawBits raw 4
    rw [valueOfRaw_eq hne hentries, hdrop, Word.take_flatMap_rawBits]
  have hflag : (raw.getD 1 0 >>> 4 &&& 1 == 1) =
      (Parameters.ofBits (raw.flatMap Word.rawBits)).extendable :=
    Metadata.flag_eq (by omega) rfl
  simp only [hshort, hrange, hflag, hvalue, Metadata.ofRaw_eq_ofBits (by omega : 4 ≤ raw.length),
    if_false]

end Share

end ShamirBackup
