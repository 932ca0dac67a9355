import ShamirBackup.Proofs.Checksum
import ShamirBackup.Proofs.Mnemonic
import ShamirBackup.Share.Words

/-!
# Any text as a mnemonic

What is made of a text that nobody promised to be a mnemonic. Only its tokens in small letters
matter (`smallTokens`): the text is read if all of them are listed words, it is then a spelling of
just these, and otherwise the first one that is not listed is named (`words_iff_listed`).
-/

namespace ShamirBackup

namespace Text

/-- The pieces of a text between blanks in small letters, without the empty pieces. -/
def smallTokens (text : String) : List String :=
  ((text.toList.splitOnP isBlank).filter (!·.isEmpty)).map fun piece => fold (String.ofList piece)

/-- The run that is being read is the beginning of the first piece. -/
theorem runs_eq_filter (run rest : List Char) : runs run rest =
    ((rest.splitOnP isBlank).modifyHead (run.reverse ++ ·)).filter (!·.isEmpty) := by
  induction rest generalizing run with
  | nil =>
    rw [runs, List.splitOnP_nil, List.modifyHead_cons, List.append_nil]
    cases run <;> simp
  | cons c rest ih =>
    rw [runs, List.splitOnP_cons_eq_if_modifyHead]
    by_cases hblank : isBlank c = true
    · have hnext : runs [] rest = (rest.splitOnP isBlank).filter (!·.isEmpty) :=
        (ih []).trans (congrArg _ (congrFun List.modifyHead_id _))
      rw [if_pos hblank, if_pos hblank, List.modifyHead_cons, List.append_nil, hnext]
      cases run <;> simp
    · have hhead : ((run.reverse ++ ·) ∘ List.cons c : List Char → List Char) =
          ((c :: run).reverse ++ ·) := by
        funext piece
        simp
      rw [if_neg hblank, if_neg hblank, ih, List.modifyHead_modifyHead, hhead]

theorem map_fold_tokens (text : String) : (tokens text).map fold = smallTokens text := by
  have hpieces : runs [] text.toList = (text.toList.splitOnP isBlank).filter (!·.isEmpty) :=
    (runs_eq_filter [] text.toList).trans (congrArg _ (congrFun List.modifyHead_id _))
  rw [tokens, hpieces, List.map_map, smallTokens]
  rfl

end Text

open Text

namespace WordList

/-! ### Listed words -/

theorem spelled?_eq_none_iff {spelling : String} : spelled? spelling = none ↔ spelling ∉ words := by
  rw [spelled?, Option.map_eq_none_iff, List.finIdxOf?_eq_none_iff]

theorem get_of_finIdxOf? {spellings : List String} {spelling : String} {i : Fin spellings.length}
    (h : spellings.finIdxOf? spelling = some i) : spellings.get i = spelling :=
  (List.finIdxOf?_eq_some_iff.mp h).1

/-- Only the word itself is found by its spelling. -/
theorem spelling_of_spelled? {spelling : String} {word : Word}
    (h : spelled? spelling = some word) : word.spelling = spelling := by
  obtain ⟨place, hplace, rfl⟩ := Option.map_eq_some_iff.mp h
  rw [Word.spelling, Fin.cast_cast, Fin.cast_refl, id_eq, get_of_finIdxOf? hplace]

end WordList

namespace Mnemonic

variable {tokens : List String} {text other : String} {read : List Word} {fault : Fault}

/-! ### Tokens one after the other -/

theorem wordsFrom_eq_ok_iff (position : Nat) :
    wordsFrom position tokens = .ok read ↔ read.map Word.spelling = tokens.map fold := by
  refine ⟨fun h => ?_, fun h => wordsFrom_eq_ok position h.symm⟩
  induction tokens generalizing position read with
  | nil =>
    cases h
    rfl
  | cons token tokens ih =>
    rw [wordsFrom] at h
    rcases hfind : WordList.find? token with _ | word
    · rw [hfind] at h
      cases h
    · rw [hfind] at h
      rcases hrest : wordsFrom (position + 1) tokens with fault | rest
      · rw [hrest] at h
        cases h
      · rw [hrest] at h
        cases h
        rw [List.map_cons, List.map_cons, ih (position + 1) hrest,
          WordList.spelling_of_spelled? hfind]

/-- The first token that is not listed is counted from the token that reading began with. -/
theorem wordsFrom_eq_error_iff (position : Nat) : wordsFrom position tokens = .error fault ↔
    ∃ place, (tokens.map fold).findIdx? (· ∉ WordList.words) = some place ∧
      fault = .unknownWord (position + place) := by
  induction tokens generalizing position with
  | nil => simp [wordsFrom]
  | cons token tokens ih =>
    rw [wordsFrom, List.map_cons, List.findIdx?_cons]
    rcases hfind : WordList.find? token with _ | word
    · have hlisted : fold token ∉ WordList.words := WordList.spelled?_eq_none_iff.mp hfind
      simp [hlisted, eq_comm]
    · have hlisted : fold token ∈ WordList.words := by
        rw [← WordList.spelling_of_spelled? hfind]
        exact WordList.spelling_mem_words word
      have hrest : (wordsFrom (position + 1) tokens).map (word :: ·) = .error fault ↔
          wordsFrom (position + 1) tokens = .error fault := by
        cases wordsFrom (position + 1) tokens <;> simp [Except.map]
      simp only [hrest, ih, hlisted]
      simp [Nat.add_comm, Nat.add_left_comm]

/-! ### Whole texts -/

theorem words_eq_ok_iff : words text = .ok read ↔ read.map Word.spelling = smallTokens text := by
  rw [words, wordsFrom_eq_ok_iff, map_fold_tokens]

theorem words_eq_error_iff : words text = .error fault ↔
    ∃ place, (smallTokens text).findIdx? (· ∉ WordList.words) = some place ∧
      fault = .unknownWord place := by
  simp only [words, wordsFrom_eq_error_iff, map_fold_tokens, Nat.zero_add]

theorem exists_words_iff : (∃ read, words text = .ok read) ↔
    ∀ token ∈ smallTokens text, token ∈ WordList.words := by
  have hnone : (∀ token ∈ smallTokens text, token ∈ WordList.words) ↔
      (smallTokens text).findIdx? (· ∉ WordList.words) = none := by
    simp [List.findIdx?_eq_none_iff]
  rw [hnone]
  rcases hwords : words text with fault | read
  · obtain ⟨place, hplace, -⟩ := words_eq_error_iff.mp hwords
    refine iff_of_false ?_ (by rw [hplace]; exact Option.some_ne_none place)
    rintro ⟨_, ⟨⟩⟩
  · have hno : ∀ place, (smallTokens text).findIdx? (· ∉ WordList.words) ≠ some place := by
      intro place hplace
      have herror := words_eq_error_iff.mpr ⟨place, hplace, rfl⟩
      rw [hwords] at herror
      cases herror
    exact iff_of_true ⟨read, rfl⟩ (Option.eq_none_iff_forall_ne_some.mpr hno)

/-- Texts with the same tokens in small letters are read alike. -/
theorem words_congr (h : smallTokens text = smallTokens other) : words text = words other := by
  rcases hwords : words text with fault | read
  · rw [words_eq_error_iff, h, ← words_eq_error_iff] at hwords
    exact hwords.symm
  · rw [words_eq_ok_iff, h, ← words_eq_ok_iff] at hwords
    exact hwords.symm

/-- **Texts are read by their tokens, and words are read back from what is written.** Writing the
words of any buffer gives a text that is read as this buffer. A text is read if all of its tokens
are listed words in some case, and then writing the words gives the same tokens in small letters
with single spaces between them. Otherwise the fault names the first token that is not listed. So
texts whose tokens differ in case only are the same share, or fail alike. -/
theorem words_iff_listed :
    (∀ raw : List UInt16, (∀ entry ∈ raw, entry ≤ 1023) → ∃ written, ofRaw raw = .ok written ∧
      (words written).map (List.map Word.toRaw) = .ok raw) ∧
    (∀ text,
      ((∃ read, words text = .ok read) ↔ ∀ token ∈ smallTokens text, token ∈ WordList.words) ∧
      (∀ read, words text = .ok read →
        ofRaw (read.map Word.toRaw) = .ok (" ".intercalate (smallTokens text))) ∧
      ∀ fault, words text = .error fault ↔
        ∃ position, (smallTokens text).findIdx? (· ∉ WordList.words) = some position ∧
          fault = .unknownWord position) ∧
    ∀ text other, smallTokens text = smallTokens other →
      Share.ofMnemonic text = Share.ofMnemonic other := by
  refine ⟨fun raw hraw => ?_, fun text => ⟨exists_words_iff, fun read hread => ?_, fun fault =>
    words_eq_error_iff⟩, fun text other hsame => ?_⟩
  · obtain ⟨read, rfl⟩ := Word.exists_map_toRaw hraw
    refine ⟨ofWords read, ofRaw_map_toRaw read, ?_⟩
    rw [words_of_spells (spells_ofWords read)]
    rfl
  · rw [ofRaw_map_toRaw, ofWords, words_eq_ok_iff.mp hread]
  · rw [Share.ofMnemonic, words_congr hsame, Share.ofMnemonic]

/-- Unusual blanks and capitals are read over, but the Kelvin sign is not a small `k`. -/
theorem words_iff_listed_kelvinSign :
    let typed := "DUCKLING \u2003enlarge\tAcademic\n"
    let strange := "duckling\u00a0\u212aidney zero"
    (∃ written, ofRaw [248, 288, 0] = .ok written ∧
      (words written).map (List.map Word.toRaw) = .ok [248, 288, 0]) ∧
    (∃ read, words typed = .ok read ∧
      ofRaw (read.map Word.toRaw) = .ok "duckling enlarge academic") ∧
    words strange = .error (.unknownWord 1) ∧
    Share.ofMnemonic typed = Share.ofMnemonic "duckling enlarge academic" := by
  intro typed strange
  obtain ⟨hwrite, hread, hshare⟩ := words_iff_listed
  have htyped : smallTokens typed = ["duckling", "enlarge", "academic"] := by decide +kernel
  have hplain : smallTokens "duckling enlarge academic" = ["duckling", "enlarge", "academic"] := by
    decide +kernel
  have hstrange : (smallTokens strange).findIdx? (· ∉ WordList.words) = some 1 := by
    decide +kernel
  obtain ⟨hlisted, hback, -⟩ := hread typed
  obtain ⟨-, -, hfault⟩ := hread strange
  obtain ⟨read, hwords⟩ := hlisted.mpr (by rw [htyped]; decide +kernel)
  refine ⟨hwrite [248, 288, 0] (by simp), ⟨read, hwords, ?_⟩, (hfault _).mpr ⟨1, hstrange, rfl⟩,
    hshare _ _ (htyped.trans hplain.symm)⟩
  rw [hback read hwords, htyped]
  rfl

end Mnemonic

end ShamirBackup
