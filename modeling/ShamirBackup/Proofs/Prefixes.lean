import ShamirBackup.Proofs.WordList

/-!
# Words by their beginning

The search looks at few words: it finds the first one that is not below the letters that were typed
and goes on from there as long as the words begin with them. Still it misses none, as texts that
begin alike stand together in order (`isPrefix_of_between`) and come after all smaller ones. So it
finds what looking through the whole list finds (`beginningWith_complete`).
-/

namespace ShamirBackup.WordList

open Text

/-! ### Halving -/

/-- Where a condition holds up to some place and nowhere behind it, halving finds this place. All
places below `low` and none from `high` on are known to meet the condition. -/
theorem lt_firstFailure_iff {holds : Nat → Bool} (hdown : ∀ i j, i ≤ j → holds j → holds i)
    {low high : Nat} (hlow : ∀ i < low, holds i) (hhigh : ∀ i, high ≤ i → ¬ holds i) (i : Nat) :
    i < firstFailure holds low high ↔ holds i := by
  fun_induction firstFailure holds low high with
  | case1 low high hlt middle hmiddle ih =>
    exact ih (fun j hj => hdown j middle (Nat.le_of_lt_succ hj) hmiddle) hhigh
  | case2 low high hlt middle hmiddle ih =>
    exact ih hlow fun j hj hholds => hmiddle (hdown middle j hj hholds)
  | case3 low high hge =>
    refine ⟨hlow i, fun hholds => ?_⟩
    by_contra hle
    exact hhigh i (by omega) hholds

/-! ### Texts in order -/

section Order

variable {start a b : List Char}

/-- A text that begins with `start` is not below it. -/
theorem not_lt_of_isPrefix (h : start <+: a) : ¬ a < start :=
  List.not_lt.mpr h.le

/-- Between `start` and a text that begins with it there are only such texts. -/
theorem isPrefix_of_between (hstart : ¬ a < start) (hlt : a < b) (hb : start <+: b) :
    start <+: a := by
  induction start generalizing a b with
  | nil => exact List.nil_prefix
  | cons c start ih =>
    obtain ⟨b, rfl, hrest⟩ : ∃ rest, b = c :: rest ∧ start <+: rest := by
      obtain ⟨rest, rfl⟩ := hb
      exact ⟨start ++ rest, rfl, List.prefix_append start rest⟩
    cases a with
    | nil => exact absurd (List.nil_lt_cons c start) hstart
    | cons d a =>
      -- The first letter is neither below that of `start` nor above that of the other text.
      rw [List.cons_lt_cons_iff, not_or, not_and] at hstart
      rcases List.cons_lt_cons_iff.mp hlt with hless | ⟨rfl, hless⟩
      · exact absurd hless hstart.1
      · exact (List.prefix_cons_inj d).mpr (ih (hstart.2 rfl) hless hrest)

end Order

/-! ### Lists -/

/-- In a list where a property fails for good after its first failure, the entries before that are
all that have it. -/
theorem takeWhile_eq_filter {α : Type} {p : α → Bool} {entries : List α}
    (h : entries.Pairwise fun a b => p b → p a) : entries.takeWhile p = entries.filter p := by
  induction entries with
  | nil => rfl
  | cons a entries ih =>
    obtain ⟨ha, hrest⟩ := List.pairwise_cons.mp h
    by_cases hp : p a = true
    · rw [List.takeWhile_cons_of_pos hp, List.filter_cons_of_pos hp, ih hrest]
    · have hnone : ∀ b ∈ entries, ¬ p b = true := fun b hb hpb => hp (ha b hb hpb)
      rw [List.takeWhile_cons_of_neg hp, List.filter_cons_of_neg hp,
        List.filter_eq_nil_iff.mpr hnone]

theorem eq_singleton_iff {α : Type} {entries : List α} (h : entries.Nodup) {a : α} :
    entries = [a] ↔ ∀ b, b ∈ entries ↔ b = a := by
  rw [← List.perm_singleton, List.perm_ext_iff_of_nodup h (List.nodup_singleton a)]
  simp only [List.mem_singleton]

/-! ### Searching -/

section Search

variable {entries : List String} {start : String} {first : Nat}

theorem lt_of_mem_take (hfirst : ∀ i, i < first ↔ entries[i]?.any (· < start) = true)
    {word : String} (h : word ∈ entries.take first) : word < start := by
  obtain ⟨i, hi, rfl⟩ := List.mem_take_iff_getElem.mp h
  have hholds := (hfirst i).mp (by omega)
  rw [List.getElem?_eq_getElem (by omega)] at hholds
  simpa using hholds

theorem not_lt_of_mem_drop (hfirst : ∀ i, i < first ↔ entries[i]?.any (· < start) = true)
    {word : String} (h : word ∈ entries.drop first) : ¬ word < start := by
  obtain ⟨i, hi, rfl⟩ := List.mem_drop_iff_getElem.mp h
  intro hless
  have hlt := (hfirst (i + first)).mpr (by
    rw [List.getElem?_eq_getElem (by omega)]
    simpa [Nat.add_comm] using hless)
  omega

theorem lt_firstFailure_of_sorted (hsorted : entries.Pairwise (· < ·)) (start : String) (i : Nat) :
    i < firstFailure (fun place => entries[place]?.any (· < start)) 0 entries.length ↔
      entries[i]?.any (· < start) = true := by
  have hlow : ∀ i < 0, entries[i]?.any (· < start) = true :=
    fun i hi => absurd hi (Nat.not_lt_zero i)
  refine lt_firstFailure_iff (fun i j hij hj => ?_) hlow (fun i hi => ?_) i
  · obtain ⟨word, hword, hless⟩ := (Option.any_eq_true _ _).mp hj
    obtain ⟨hlength, rfl⟩ := List.getElem?_eq_some_iff.mp hword
    rw [List.getElem?_eq_getElem (by omega)]
    rcases Nat.lt_or_eq_of_le hij with hlt | rfl
    · have hbelow := List.pairwise_iff_getElem.mp hsorted i j (by omega) hlength hlt
      simpa using String.lt_trans hbelow (by simpa using hless)
    · exact hless
  · rw [List.getElem?_eq_none hi]
    exact Bool.false_ne_true

/-- In a sorted list the entries that begin with `start` are those that do so one after the other
from the first one on that is not below it. -/
theorem takeWhile_drop_eq_filter (hsorted : entries.Pairwise (· < ·))
    (hfirst : ∀ i, i < first ↔ entries[i]?.any (· < start) = true) :
    (entries.drop first).takeWhile (fun word => start.toList.isPrefixOf word.toList) =
      entries.filter fun word => start.toList.isPrefixOf word.toList := by
  have hbefore : (entries.take first).filter
      (fun word => start.toList.isPrefixOf word.toList) = [] := by
    refine List.filter_eq_nil_iff.mpr fun word hword hprefix => ?_
    have hless := lt_of_mem_take hfirst hword
    exact not_lt_of_isPrefix (List.isPrefixOf_iff_prefix.mp hprefix)
      (String.lt_iff.mp hless)
  have hconvex : (entries.drop first).Pairwise fun a b =>
      start.toList.isPrefixOf b.toList → start.toList.isPrefixOf a.toList := by
    refine (hsorted.sublist (List.drop_sublist first entries)).imp_of_mem ?_
    intro a b ha _ hlt hb
    rw [List.isPrefixOf_iff_prefix] at hb ⊢
    have hstart : ¬ a.toList < start.toList :=
      mt String.lt_iff.mpr (not_lt_of_mem_drop hfirst ha)
    exact isPrefix_of_between hstart (String.lt_iff.mp hlt) hb
  rw [takeWhile_eq_filter hconvex]
  conv_rhs => rw [← List.take_append_drop first entries, List.filter_append, hbefore]
  rw [List.nil_append]

end Search

theorem beginningWith_eq_filter (text : String) : beginningWith text =
    words.filter fun word => (fold text).toList.isPrefixOf word.toList :=
  takeWhile_drop_eq_filter pairwise_lt_words (lt_firstFailure_of_sorted pairwise_lt_words _)

theorem mem_beginningWith {text word : String} :
    word ∈ beginningWith text ↔ word ∈ words ∧ (fold text).toList <+: word.toList := by
  rw [beginningWith_eq_filter, List.mem_filter, List.isPrefixOf_iff_prefix]

theorem complete?_eq_some_iff {text word : String} :
    complete? text = some word ↔ beginningWith text = [word] := by
  rw [complete?]
  split
  · rename_i only honly
    rw [honly, Option.some.injEq, List.singleton_inj]
  · rename_i hnot
    exact iff_of_false nofun (hnot word)

/-- **The search finds the words that begin with the letters typed, all of them and in order.** A
word is completed if and only if it is the only one of them. -/
theorem beginningWith_complete (text : String) :
    beginningWith text = words.filter (fun word => (fold text).toList.isPrefixOf word.toList) ∧
    ∀ word, complete? text = some word ↔
      ∀ other, other ∈ words ∧ (fold text).toList <+: other.toList ↔ other = word := by
  refine ⟨beginningWith_eq_filter text, fun word => ?_⟩
  have hnodup : (beginningWith text).Nodup := by
    rw [beginningWith_eq_filter]
    exact nodup_words.filter _
  rw [complete?_eq_some_iff, eq_singleton_iff hnodup]
  simp only [mem_beginningWith]

end ShamirBackup.WordList
