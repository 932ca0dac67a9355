import ShamirBackup.Proofs.WordList
import ShamirBackup.WordList.Mnemonic

/-!
# Mnemonics read back

`Spells text words` says what may be typed for a list of words: each word in any ASCII case, blanks
of any kind between two words, and maybe more of them around. All such texts are read as these words
(`words_of_spells`), and the mnemonic of a list of words is one of them (`spells_ofWords`).
-/

namespace ShamirBackup

/-! ### Case and blanks -/

namespace Text

theorem isBlank_of_letter {c : Char}
    (h : (65 ≤ c.toNat ∧ c.toNat ≤ 90) ∨ (97 ≤ c.toNat ∧ c.toNat ≤ 122)) : isBlank c = false := by
  simp only [isBlank, Bool.or_eq_false_iff, Bool.and_eq_false_iff, decide_eq_false_iff_not,
    beq_eq_false_iff_ne, ne_eq]
  omega

/-- Only letters change their case, and no letter is blank. -/
theorem isBlank_toLower (c : Char) : isBlank c.toLower = isBlank c := by
  unfold Char.toLower
  split
  · rename_i h
    have hlow : 65 ≤ c.toNat := UInt32.le_iff_toNat_le.mp h.1
    have hhigh : c.toNat ≤ 90 := UInt32.le_iff_toNat_le.mp h.2
    have hsmall : (c.val + ('a'.val - 'A'.val)).toNat = c.toNat + 32 := by
      rw [UInt32.toNat_add, Char.toNat_val]
      exact Nat.mod_eq_of_lt (Nat.lt_of_le_of_lt (Nat.add_le_add_right hhigh _) (by decide))
    rw [isBlank_of_letter (.inl ⟨hlow, hhigh⟩)]
    refine isBlank_of_letter (.inr ?_)
    rw [Char.toNat, hsmall]
    omega
  · rfl

theorem toList_fold (text : String) : (fold text).toList = text.toList.map Char.toLower := by
  rw [fold, String.toList_ofList]

/-! ### Runs -/

/-- The text is over or goes on with a blank. -/
def EndsRun (text : List Char) : Prop := ∀ c ∈ text.head?, isBlank c = true

theorem runs_append {typed : List Char} (run rest : List Char)
    (h : ∀ c ∈ typed, isBlank c = false) :
    runs run (typed ++ rest) = runs (typed.reverse ++ run) rest := by
  induction typed generalizing run with
  | nil => rfl
  | cons c typed ih =>
    rw [List.cons_append, runs, if_neg (by simp [h c]), ih _ fun d hd => h d (by simp [hd])]
    simp

theorem runs_of_endsRun {run rest : List Char} (hrun : run ≠ []) (hrest : EndsRun rest) :
    runs run rest = run.reverse :: runs [] rest := by
  have hne : run.isEmpty = false := by simpa using hrun
  cases rest with
  | nil => simp [runs, hne]
  | cons c rest =>
    have hblank : isBlank c = true := hrest c rfl
    simp [runs, hne, hblank]

end Text

open Text

/-! ### Spelled texts -/

/-- What may be typed for a list of words: each in any ASCII case, with blanks behind every word but
the last and any number of blanks elsewhere. -/
inductive Spells : List Char → List String → Prop
  | nil : Spells [] []
  | blank {c : Char} {text : List Char} {words : List String} :
    isBlank c = true → Spells text words → Spells (c :: text) words
  | word {word : String} {typed text : List Char} {words : List String} :
    typed.map Char.toLower = word.toList → EndsRun text → Spells text words →
    Spells (typed ++ text) (word :: words)

/-- A token of its own: not empty, and without blanks. -/
def Solid (word : String) : Prop := word.toList ≠ [] ∧ ∀ c ∈ word.toList, isBlank c = false

/-- Spelled words are the tokens of the text but for their case. -/
theorem Spells.fold_runs {text : List Char} {words : List String} (h : Spells text words)
    (hsolid : ∀ word ∈ words, Solid word) :
    (runs [] text).map (fun run => fold (String.ofList run)) = words := by
  induction h with
  | nil => rfl
  | blank hblank _ ih => simp [runs, hblank, ih hsolid]
  | @word word typed text words hcase hend _ ih =>
    obtain ⟨hne, hclean⟩ := hsolid word (by simp)
    have htyped : ∀ c ∈ typed, isBlank c = false := by
      intro c hc
      rw [← isBlank_toLower]
      exact hclean _ (hcase ▸ List.mem_map_of_mem hc)
    have hrun : typed.reverse ++ [] ≠ [] := by
      rw [← hcase] at hne
      simpa using hne
    have hfold : fold (String.ofList typed) = word := by
      rw [fold, String.toList_ofList, hcase, String.ofList_toList]
    rw [runs_append [] text htyped, runs_of_endsRun hrun hend, List.map_cons,
      ih fun w hw => hsolid w (by simp [hw]), List.append_nil, List.reverse_reverse, hfold]

namespace Mnemonic

theorem solid_spelling (word : Word) : Solid word.spelling := by
  obtain ⟨hne, hlower⟩ := WordList.letters_of_mem_words (WordList.spelling_mem_words word)
  exact ⟨hne, fun c hc => isBlank_of_letter (.inr ((isLower_iff c).mp (hlower c hc)))⟩

theorem fold_tokens_of_spells {text : String} {words : List Word}
    (h : Spells text.toList (words.map Word.spelling)) :
    (tokens text).map fold = words.map Word.spelling := by
  rw [tokens, List.map_map]
  refine h.fold_runs fun spelling hspelling => ?_
  obtain ⟨word, -, rfl⟩ := List.mem_map.mp hspelling
  exact solid_spelling word

theorem wordsFrom_eq_ok {tokens : List String} {words : List Word} (position : Nat)
    (h : tokens.map fold = words.map Word.spelling) : wordsFrom position tokens = .ok words := by
  induction tokens generalizing words position with
  | nil =>
    have hwords : words = [] := by simpa using h.symm
    rw [hwords, wordsFrom]
  | cons token tokens ih =>
    obtain ⟨word, words, rfl⟩ : ∃ word rest, words = word :: rest := by
      cases words with
      | nil => simp at h
      | cons word rest => exact ⟨word, rest, rfl⟩
    obtain ⟨hword, hrest⟩ := List.cons.inj h
    rw [wordsFrom, WordList.find?_eq_some hword]
    simp only [ih (position + 1) hrest]
    rfl

/-- **A spelled text is read as its words.** -/
theorem words_of_spells {text : String} {words : List Word}
    (h : Spells text.toList (words.map Word.spelling)) : Mnemonic.words text = .ok words :=
  wordsFrom_eq_ok 0 (fold_tokens_of_spells h)

/-! ### Written texts -/

theorem map_toLower_spelling (word : Word) :
    word.spelling.toList.map Char.toLower = word.spelling.toList := by
  rw [← toList_fold, WordList.fold_of_mem_words (WordList.spelling_mem_words word)]

/-- Single spaces between the words are blanks enough. -/
theorem spells_ofWords (words : List Word) :
    Spells (ofWords words).toList (words.map Word.spelling) := by
  induction words with
  | nil => simpa [ofWords] using Spells.nil
  | cons word words ih =>
    cases words with
    | nil =>
      have h := Spells.word (map_toLower_spelling word) (by simp [EndsRun]) Spells.nil
      simpa [ofWords] using h
    | cons next words =>
      have hspace : EndsRun (' ' :: (ofWords (next :: words)).toList) := by
        simp [EndsRun, isBlank]
      have h := Spells.word (map_toLower_spelling word) hspace (.blank (by decide) ih)
      simpa [ofWords, String.intercalate_cons_cons] using h

theorem length_tokens_ofWords (words : List Word) :
    (tokens (ofWords words)).length = words.length := by
  simpa using congrArg List.length (fold_tokens_of_spells (spells_ofWords words))

/-- Writing a buffer of words never fails. -/
theorem ofRaw_map_toRaw (words : List Word) :
    ofRaw (words.map Word.toRaw) = .ok (ofWords words) := by
  have hback : (words.map Word.toRaw).mapM Word.ofRaw? = some words := by
    induction words with
    | nil => rfl
    | cons word words ih =>
      rw [List.map_cons, List.mapM_cons, Word.ofRaw?_toRaw, ih]
      rfl
  rw [ofRaw, hback]

end Mnemonic

end ShamirBackup
