import Mathlib.Data.List.Chain
import Mathlib.Data.List.Nodup
import ShamirBackup.WordList.Basic

/-!
# Facts about the word list

The list is strictly sorted and its words are made of small letters. Both are found by looking at
the bytes of the table, which are quicker to evaluate than its characters and stand for them one by
one (`toList_eq_asciiChars`). So a word is found by its spelling, however it is capitalised.
-/

namespace ShamirBackup

namespace Text

/-! ### Small letters -/

theorem isLower_iff (c : Char) : c.isLower = true ↔ 97 ≤ c.toNat ∧ c.toNat ≤ 122 := by
  show (c.val ≥ 'a'.val && c.val ≤ 'z'.val) = true ↔ _
  simp [UInt32.le_iff_toNat_le]

theorem toLower_of_isLower {c : Char} (h : c.isLower) : c.toLower = c := by
  obtain ⟨hlow, -⟩ := (isLower_iff c).mp h
  refine dif_neg fun hupper => ?_
  have hhigh : c.toNat ≤ 90 := UInt32.le_iff_toNat_le.mp hupper.2
  omega

/-! ### Texts of ASCII bytes -/

/-- The bytes of a text. -/
def bytes (text : String) : List UInt8 := text.toByteArray.data.toList

/-- The characters of a text, if all of its bytes are ASCII. -/
def asciiChars (text : String) : List Char := (bytes text).map fun byte => Char.ofNat byte.toNat

theorem bytes_eq_flatMap (text : String) :
    bytes text = text.toList.flatMap String.utf8EncodeChar := by
  rw [bytes, ← String.utf8Encode_toList, List.utf8Encode, List.data_toByteArray]

theorem utf8EncodeChar_of_ascii {c : Char} (h : ∀ byte ∈ String.utf8EncodeChar c, byte < 128) :
    (String.utf8EncodeChar c).map (fun byte => Char.ofNat byte.toNat) = [c] := by
  revert h
  fun_cases String.utf8EncodeChar c with
  | case1 v hv =>
    intro _
    have hnat : (UInt8.ofNat v).toNat = c.toNat :=
      UInt8.toNat_ofNat_of_lt' (Nat.lt_of_le_of_lt hv (by decide))
    rw [List.map_singleton, hnat, Char.ofNat_toNat]
  | case2 v _ hv | case3 v _ _ hv | case4 v _ _ hv =>
    intro h
    have hfirst := h _ List.mem_cons_self
    rw [UInt8.lt_iff_toNat_lt, UInt8.toNat_ofNat'] at hfirst
    simp at hfirst
    omega

theorem toList_eq_asciiChars {text : String} (h : ∀ byte ∈ bytes text, byte < 128) :
    text.toList = asciiChars text := by
  rw [asciiChars, bytes_eq_flatMap] at *
  generalize text.toList = chars at h
  induction chars with
  | nil => rfl
  | cons c chars ih =>
    simp only [List.flatMap_cons, List.mem_append] at h
    rw [List.flatMap_cons, List.map_append,
      utf8EncodeChar_of_ascii fun byte hbyte => h byte (.inl hbyte),
      ← ih fun byte hbyte => h byte (.inr hbyte), List.singleton_append]

end Text

namespace WordList

open Text

/-! ### The table -/

-- A quantifier over bytes would be decided by running through all of them.
theorem all_bytes_words : words.all (fun word => !(bytes word).isEmpty &&
    (bytes word).all fun byte => 97 ≤ byte && byte ≤ 122) = true := by decide +kernel

theorem bytes_of_mem_words {word : String} (h : word ∈ words) :
    bytes word ≠ [] ∧ ∀ byte ∈ bytes word, 97 ≤ byte ∧ byte ≤ 122 := by
  simpa using List.all_eq_true.mp all_bytes_words word h

theorem isChain_asciiChars_words : (words.map asciiChars).IsChain (· < ·) := by decide +kernel

theorem toList_of_mem_words {word : String} (h : word ∈ words) : word.toList = asciiChars word := by
  refine toList_eq_asciiChars fun byte hbyte => ?_
  exact UInt8.lt_of_le_of_lt ((bytes_of_mem_words h).2 byte hbyte).2 (by decide)

/-- Every word has letters, and only small ones. -/
theorem letters_of_mem_words {word : String} (h : word ∈ words) :
    word.toList ≠ [] ∧ ∀ c ∈ word.toList, c.isLower := by
  obtain ⟨hne, hrange⟩ := bytes_of_mem_words h
  rw [toList_of_mem_words h, asciiChars]
  refine ⟨by simpa using hne, fun c hc => ?_⟩
  obtain ⟨byte, hbyte, rfl⟩ := List.mem_map.mp hc
  obtain ⟨hlow, hhigh⟩ := hrange byte hbyte
  have hlow : 97 ≤ byte.toNat := UInt8.le_iff_toNat_le.mp hlow
  have hhigh : byte.toNat ≤ 122 := UInt8.le_iff_toNat_le.mp hhigh
  have hlower : ∀ k : Fin 26, (Char.ofNat (97 + k.val)).isLower := by decide
  rw [← Nat.add_sub_cancel' hlow]
  exact hlower ⟨byte.toNat - 97, by omega⟩

/-- The words are listed in strictly ascending order. -/
theorem pairwise_lt_words : words.Pairwise (· < ·) := by
  have hchain : (words.map String.toList).IsChain (· < ·) := by
    rw [List.map_congr_left fun word hword => toList_of_mem_words hword]
    exact isChain_asciiChars_words
  have hsorted : words.IsChain (· < ·) := (List.isChain_map String.toList).mp hchain
  have : @Trans String String String (· < ·) (· < ·) (· < ·) := ⟨String.lt_trans⟩
  exact List.isChain_iff_pairwise.mp hsorted

theorem nodup_words : words.Nodup :=
  pairwise_lt_words.imp String.ne_of_lt

/-! ### Looking up -/

theorem fold_of_mem_words {word : String} (h : word ∈ words) : fold word = word := by
  have hlower : ∀ c ∈ word.toList, c.toLower = c := fun c hc =>
    toLower_of_isLower ((letters_of_mem_words h).2 c hc)
  rw [fold, List.map_congr_left hlower, List.map_id', String.ofList_toList]

theorem spelling_mem_words (word : Word) : word.spelling ∈ words := by
  rw [Word.spelling]
  exact List.get_mem ..

theorem finIdxOf?_get {spellings : List String} (h : spellings.Nodup) (i : Fin spellings.length) :
    spellings.finIdxOf? (spellings.get i) = some i := by
  refine List.finIdxOf?_eq_some_iff.mpr ⟨rfl, fun j hj heq => ?_⟩
  exact Fin.ne_of_lt hj (List.nodup_iff_injective_get.mp h heq)

theorem spelled?_spelling (word : Word) : spelled? word.spelling = some word := by
  have hfind := finIdxOf?_get nodup_words (word.cast length_words.symm)
  rw [spelled?, Word.spelling, hfind, Option.map_some, Fin.cast_cast, Fin.cast_refl,
    id_eq]

/-- A word is found by its spelling in any case. -/
theorem find?_eq_some {text : String} {word : Word} (h : fold text = word.spelling) :
    find? text = some word := by
  rw [find?, h, spelled?_spelling]

end WordList

end ShamirBackup
