import ShamirBackup.Proofs.ShareWords

/-!
# Shares in buffers

A share is written straight into the buffer of its caller, whatever that holds. A packer turns out
the words of all bits that it is given, in whatever bytes they come (`cursor_putBytes`), so every
word of the value is put once and at its place. Then the checksum, which is made of the buffer, is
made of the share alone. The buffer starts with the words of the share and is otherwise unchanged
(`writeTo_exact`).
-/

namespace ShamirBackup

/-! ### Entries -/

/-- The entries that bits make up. Bits that do not fill one are left out. -/
def Bits.entries (bits : List Bool) : List UInt16 :=
  ((runs 10 bits).map Word.ofBits).map Word.toRaw

namespace Bits

variable {bits : List Bool}

@[simp] theorem length_entries (bits : List Bool) : (entries bits).length = bits.length / 10 := by
  simp [entries, runs]

theorem entries_of_length_lt (h : bits.length < 10) : entries bits = [] := by
  rw [entries, runs_of_length_lt h, List.map_nil, List.map_nil]

/-- The bits that the first entries leave out come before those that follow. -/
theorem entries_append (bits more : List Bool) :
    entries (bits ++ more) =
      entries bits ++ entries (bits.drop (10 * (bits.length / 10)) ++ more) := by
  rw [entries, runs_append (by decide), List.map_append, List.map_append]
  rfl

theorem entries_append_of_length (count : Nat) (h : bits.length = 10 * count) (more : List Bool) :
    entries (bits ++ more) = entries bits ++ entries more := by
  rw [entries_append, List.drop_of_length_le (by omega), List.nil_append]

/-- Ten bits of a number make an entry. -/
theorem entries_ofNat_append (n : Nat) (more : List Bool) :
    entries (ofNat 10 n ++ more) = UInt16.ofNat (n % 1024) :: entries more := by
  have hword : (Word.ofBits (ofNat 10 n)).val = n % 1024 := by
    have hval : (Word.ofBits (ofNat 10 n)).val = toNat (ofNat 10 n) % 1024 := rfl
    rw [hval, toNat_ofNat]
    exact Nat.mod_mod n 1024
  rw [entries, runs_append_of_length (by decide) (length_ofNat 10 n), List.map_cons, List.map_cons,
    Word.toRaw, hword]
  rfl

end Bits

/-! ### Cursors -/

namespace Cursor

variable {cursor : Cursor}

theorem putAll_cons (cursor : Cursor) (entry : UInt16) (entries : List UInt16) :
    cursor.putAll (entry :: entries) = (cursor.put entry).putAll entries := rfl

theorem putAll_append (cursor : Cursor) (entries more : List UInt16) :
    cursor.putAll (entries ++ more) = (cursor.putAll entries).putAll more :=
  List.foldl_append

/-- Entries take the place of as many others, and all around them stays. -/
theorem toList_putAll {before replaced after entries : List UInt16}
    (hbuffer : cursor.buffer.toList = before ++ replaced ++ after)
    (hnext : before.length = cursor.next) (hreplaced : replaced.length = entries.length)
    (hstop : cursor.next + entries.length ≤ cursor.stop) :
    (cursor.putAll entries).buffer.toList = before ++ entries ++ after := by
  induction entries generalizing cursor before replaced with
  | nil =>
    obtain rfl := List.length_eq_zero_iff.mp hreplaced
    exact hbuffer
  | cons entry entries ih =>
    obtain ⟨old, replaced, rfl⟩ := List.exists_cons_of_length_eq_add_one hreplaced
    simp only [List.length_cons] at hreplaced hstop
    have hput : cursor.put entry = { cursor with
        buffer := cursor.buffer.setIfInBounds cursor.next entry, next := cursor.next + 1 } :=
      if_pos (by omega)
    have hfilled : (cursor.put entry).buffer.toList = before ++ [entry] ++ replaced ++ after := by
      simp [hput, hbuffer, ← hnext]
    have hbehind : (before ++ [entry]).length = (cursor.put entry).next := by simp [hput, hnext]
    have hroom : (cursor.put entry).next + entries.length ≤ (cursor.put entry).stop := by
      simp only [hput]
      omega
    rw [putAll_cons, ih hfilled hbehind (Nat.add_right_cancel hreplaced) hroom]
    simp

end Cursor

/-! ### Packers -/

namespace Packer

variable {packer : Packer}

/-- The bits that wait to be put. -/
def pending (packer : Packer) : List Bool :=
  Bits.ofNat packer.waiting packer.acc.toNat

@[simp] theorem length_pending (packer : Packer) : packer.pending.length = packer.waiting :=
  Bits.length_ofNat ..

/-- What is cut out of the accumulator when a word is put. -/
theorem shifted_and_mask (acc : UInt32) {rest : Nat} (h : rest < 32) :
    (acc >>> UInt32.ofNat rest).toUInt16 &&& 1023 =
      UInt16.ofNat (acc.toNat / 2 ^ rest % 1024) := by
  have hcut : (acc >>> UInt32.ofNat rest).toUInt16.toNat = acc.toNat / 2 ^ rest % 2 ^ 16 := by
    rw [UInt32.toNat_toUInt16, Bits.toNat_shiftRight acc h]
  refine UInt16.toNat_inj.mp ((Word.toNat_and_mask 10 hcut rfl).trans ?_)
  rw [Nat.mod_mod_of_dvd _ (by decide : 2 ^ 10 ∣ 2 ^ 16),
    UInt16.toNat_ofNat_of_lt' (Nat.lt_trans (Nat.mod_lt _ (by decide)) (by decide))]
  rfl

/-- Draining puts the entries of the waiting bits and leaves the bits behind them. -/
theorem drain_eq (h : packer.waiting < 32) :
    packer.drain = { packer with
      cursor := packer.cursor.putAll (Bits.entries packer.pending)
      waiting := packer.waiting % 10 } := by
  fun_induction drain packer with
  | case1 packer hten rest entry ih =>
    have hwaiting : packer.waiting = 10 + rest := by omega
    have hentries : Bits.entries packer.pending =
        entry :: Bits.entries (Bits.ofNat rest packer.acc.toNat) := by
      rw [pending, hwaiting, Bits.ofNat_add, Bits.entries_ofNat_append,
        ← shifted_and_mask packer.acc (by omega)]
    rw [ih (by simp only; omega), hentries, hwaiting, Nat.add_mod_left]
    rfl
  | case2 packer hten =>
    rw [Bits.entries_of_length_lt (by rw [length_pending]; omega), Nat.mod_eq_of_lt (by omega)]
    rfl

/-- A byte is shifted in behind the waiting bits. -/
theorem ofNat_putByte (h : packer.waiting < 10) (byte : UInt8) :
    Bits.ofNat (packer.waiting + 8) (packer.acc <<< 8 ||| byte.toUInt32).toNat =
      packer.pending ++ Bits.ofNat 8 byte.toNat :=
  Bits.ofNat_shiftLeft_or packer.acc byte.toUInt32 8 (by decide) (by omega) byte.toNat_lt

/-- **Taking a byte.** Its bits come behind the waiting ones, and the entries that they make up
together are put. -/
theorem putByte_eq (h : packer.waiting < 10) (byte : UInt8) :
    packer.putByte byte =
      { cursor := packer.cursor.putAll (Bits.entries (packer.pending ++ Bits.ofNat 8 byte.toNat))
        acc := (packer.acc <<< 8 ||| byte.toUInt32) &&&
          ((1 <<< UInt32.ofNat ((packer.waiting + 8) % 10)) - 1)
        waiting := (packer.waiting + 8) % 10 } := by
  have hbits := ofNat_putByte h byte
  rw [putByte, drain_eq (by simp only; omega), pending, hbits]

theorem waiting_putByte_lt (h : packer.waiting < 10) (byte : UInt8) :
    (packer.putByte byte).waiting < 10 := by
  rw [putByte_eq h]
  exact Nat.mod_lt _ (by decide)

/-- What waits after a byte are the bits behind the entries that it completed. -/
theorem pending_putByte (h : packer.waiting < 10) (byte : UInt8) :
    (packer.putByte byte).pending =
      (packer.pending ++ Bits.ofNat 8 byte.toNat).drop (10 * ((packer.waiting + 8) / 10)) := by
  rw [← ofNat_putByte h, Bits.drop_runs_ofNat, putByte_eq h]
  exact Bits.ofNat_and_mask _ (Nat.mod_lt _ (by decide))

/-- **Taking bytes.** What is put are the entries of all bits, the waiting ones first. -/
theorem cursor_putBytes (h : packer.waiting < 10) (bytes : List UInt8) :
    (packer.putBytes bytes).cursor =
      packer.cursor.putAll (Bits.entries (packer.pending ++ Share.valueBits bytes)) := by
  induction bytes generalizing packer with
  | nil =>
    rw [Share.valueBits, List.flatMap_nil, List.append_nil,
      Bits.entries_of_length_lt (by rwa [length_pending])]
    rfl
  | cons byte bytes ih =>
    have hcursor := congrArg Packer.cursor (putByte_eq h byte)
    have hsplit := Bits.entries_append (packer.pending ++ Bits.ofNat 8 byte.toNat)
      (Share.valueBits bytes)
    rw [List.length_append, length_pending, Bits.length_ofNat, ← pending_putByte h byte] at hsplit
    have hbits : Share.valueBits (byte :: bytes) =
        Bits.ofNat 8 byte.toNat ++ Share.valueBits bytes := rfl
    calc (packer.putBytes (byte :: bytes)).cursor
        = ((packer.putByte byte).putBytes bytes).cursor := rfl
      _ = packer.cursor.putAll
            (Bits.entries (packer.pending ++ Share.valueBits (byte :: bytes))) := by
          rw [ih (waiting_putByte_lt h byte), hcursor, ← Cursor.putAll_append, ← hsplit, hbits,
            List.append_assoc]

end Packer

/-! ### Shares -/

namespace Share

/-- What a share is made of besides its checksum: four entries of metadata and those of the
value. -/
theorem map_toRaw_body (share : Share) :
    share.body.map Word.toRaw =
      share.metadata.words.map Word.toRaw ++ Bits.entries (paddedBits share.value) := by
  have hbody : share.body.map Word.toRaw = Bits.entries share.bits := by
    rw [body, Bits.entries, Bits.runs, length_bits, Nat.mul_div_cancel_left _ (by decide)]
  have hmetadata : share.metadata.words.map Word.toRaw = Bits.entries share.metadata.bits := by
    rw [Metadata.words, Bits.entries, Bits.runs, Metadata.length_bits]
  rw [hbody, hmetadata, bits,
    Bits.entries_append_of_length 4 share.metadata.length_bits]

/-- The value is put behind its padding. -/
theorem cursor_putBytes_value (share : Share) (cursor : Cursor) :
    (Packer.putBytes ⟨cursor, 0, paddingLength share.value.length⟩ share.value).cursor =
      cursor.putAll (Bits.entries (paddedBits share.value)) := by
  have hpadding : paddingLength share.value.length < 10 := by
    have heven := share.even_length
    have := padding_eq_mod heven
    omega
  have hzeros : Bits.ofNat (paddingLength share.value.length) 0 =
      List.replicate (paddingLength share.value.length) false := Bits.ofNat_zero _
  rw [Packer.cursor_putBytes hpadding, Packer.pending, paddedBits, ← hzeros]
  rfl

/-- A buffer that is long enough has room for the three parts of a share. -/
theorem exists_parts_of_le (share : Share) {entries : List UInt16}
    (h : share.wordCount ≤ entries.length) :
    ∃ metadata value checksum, entries =
        metadata ++ value ++ checksum ++ entries.drop share.wordCount ∧
      metadata.length = 4 ∧ value.length = valueWords share.value.length ∧
      checksum.length = 3 := by
  have hcount : share.wordCount = 4 + (valueWords share.value.length + 3) := by
    rw [wordCount]
    omega
  refine ⟨entries.take 4, (entries.drop 4).take (valueWords share.value.length),
    ((entries.drop 4).drop (valueWords share.value.length)).take 3, ?_, ?_, ?_, ?_⟩
  · rw [hcount, ← List.drop_drop, ← List.drop_drop, List.append_assoc, List.append_assoc,
      List.take_append_drop, List.take_append_drop, List.take_append_drop]
  all_goals
    simp only [List.length_take, List.length_drop]
    omega

/-- The metadata and the value take the place of as many entries. -/
theorem toList_fillBody (share : Share) {buffer : Array UInt16}
    {metadata value rest : List UInt16} (hbuffer : buffer.toList = metadata ++ value ++ rest)
    (hmetadata : metadata.length = 4) (hvalue : value.length = valueWords share.value.length) :
    (share.fillBody buffer).toList = share.body.map Word.toRaw ++ rest := by
  have hwords : (share.metadata.words.map Word.toRaw).length = 4 := by simp [Metadata.words]
  have hentries : (Bits.entries (paddedBits share.value)).length =
      valueWords share.value.length := by simp
  have hcount : share.wordCount = 7 + valueWords share.value.length := rfl
  have hhead : (Cursor.putAll ⟨buffer, 0, 4⟩ (share.metadata.words.map Word.toRaw)).buffer.toList =
      [] ++ share.metadata.words.map Word.toRaw ++ (value ++ rest) :=
    Cursor.toList_putAll (by rw [hbuffer, List.nil_append, List.append_assoc]) rfl
      (hmetadata.trans hwords.symm) (by simp [hwords])
  rw [List.nil_append, ← List.append_assoc] at hhead
  simp only [fillBody, Metadata.toRaw_eq]
  rw [cursor_putBytes_value, map_toRaw_body]
  refine Cursor.toList_putAll hhead hwords (hvalue.trans hentries.symm) ?_
  rw [hentries]
  simp only
  omega

/-- Whatever the buffer holds, its first entries become the words of the share, and the others
stay. -/
theorem toList_fill {share : Share} {buffer : Array UInt16} (h : share.wordCount ≤ buffer.size) :
    (share.fill buffer).toList =
      share.words.map Word.toRaw ++ buffer.toList.drop share.wordCount := by
  have hroom : share.wordCount ≤ buffer.toList.length := by rwa [Array.length_toList]
  obtain ⟨metadata, value, checksum, hbuffer, hmetadata, hvalue, hchecksum⟩ :=
    share.exists_parts_of_le hroom
  rw [List.append_assoc] at hbuffer
  have hfilled := share.toList_fillBody hbuffer hmetadata hvalue
  have hbody : (share.body.map Word.toRaw).length = share.wordCount - 3 := by
    rw [body, List.length_map, List.length_map, Bits.length_chunks, wordCount]
    omega
  have hcount : share.wordCount = 7 + valueWords share.value.length := rfl
  simp only [fill]
  -- The checksum is made of the buffer, which by now holds the body and no other entry before it.
  rw [hfilled, List.take_left' hbody, words, List.map_append]
  rw [← List.append_assoc] at hfilled
  refine Cursor.toList_putAll hfilled hbody ?_ ?_
  · rw [hchecksum, List.length_map, Checksum.length_create]
  · rw [List.length_map, Checksum.length_create]
    simp only
    omega

/-- The words of a share are what is written over zeros. -/
theorem fill_replicate (share : Share) :
    (share.fill (Array.replicate share.wordCount 0)).toList = share.words.map Word.toRaw := by
  rw [toList_fill (by simp), List.drop_of_length_le (by simp), List.append_nil]

/-- **Writing touches the words of the share and nothing else.** A buffer that is too short is
refused with the two sizes and stays as it is. In any other, the words of the share take the place
of as many entries at the front, whatever these were, and all entries behind them stay. -/
theorem writeTo_exact (share : Share) (buffer : Array UInt16) :
    (buffer.size < share.wordCount → share.writeTo buffer =
      (.error (.insufficientSpace share.wordCount buffer.size), buffer)) ∧
    (share.wordCount ≤ buffer.size → ∃ after,
      share.writeTo buffer = (.ok share.wordCount, after) ∧
      after.toList.take share.wordCount = share.words.map Word.toRaw ∧
      after.toList.drop share.wordCount = buffer.toList.drop share.wordCount) := by
  refine ⟨fun hshort => if_pos hshort, fun hroom => ?_⟩
  have hlength : (share.words.map Word.toRaw).length = share.wordCount := by simp
  refine ⟨share.fill buffer, if_neg (Nat.not_lt.mpr hroom), ?_, ?_⟩
  · rw [toList_fill hroom, List.take_left' hlength]
  · rw [toList_fill hroom, List.drop_left' hlength]

end Share

end ShamirBackup
