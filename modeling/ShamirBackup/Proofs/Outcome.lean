import Mathlib.Data.List.Forall2
import Mathlib.Data.List.Perm.Basic
import ShamirBackup.Entropy

/-!
# Outcomes

How a computation of several steps ends, from the ends of its steps. For a traced computation the
events are left aside. `Dealer.Yields` says that a computation succeeds with a value and leaves a
certain rest of the random bytes, which is all that the next step sees.
-/

namespace ShamirBackup

variable {ε ε' α β : Type}

/-! ### Plain computations -/

@[simp] theorem ok_bind (a : α) (next : α → Except ε β) : (Except.ok a >>= next) = next a := rfl

@[simp] theorem error_bind (fault : ε) (next : α → Except ε β) :
    (Except.error fault >>= next) = .error fault := rfl

theorem exists_of_bind_eq_ok {first : Except ε α} {next : α → Except ε β} {b : β}
    (h : first >>= next = .ok b) : ∃ a, first = .ok a ∧ next a = .ok b := by
  cases first with
  | error fault => cases h
  | ok a => exact ⟨a, rfl, h⟩

theorem bind_eq_ok_iff {first : Except ε α} {next : α → Except ε β} {b : β} :
    first >>= next = .ok b ↔ ∃ a, first = .ok a ∧ next a = .ok b := by
  refine ⟨exists_of_bind_eq_ok, ?_⟩
  rintro ⟨a, ha, hb⟩
  rw [ha, ok_bind, hb]

theorem map_eq_ok_iff {outcome : Except ε α} {f : α → β} {b : β} :
    outcome.map f = .ok b ↔ ∃ a, outcome = .ok a ∧ f a = b := by
  cases outcome <;> simp [Except.map]

/-- Saying more about a fault changes no success. -/
theorem mapError_eq_ok_iff {outcome : Except ε α} {f : ε → ε'} {a : α} :
    outcome.mapError f = .ok a ↔ outcome = .ok a := by
  cases outcome <;> simp [Except.mapError]

theorem mapM_eq_ok_of_forall₂ {f : α → Except ε β} {as : List α} {bs : List β}
    (h : List.Forall₂ (fun a b => f a = .ok b) as bs) : as.mapM f = .ok bs := by
  induction h with
  | nil => rfl
  | cons hab _ ih =>
    rw [List.mapM_cons, hab, ih]
    rfl

theorem mapM_eq_ok {f : α → Except ε β} {g : α → β} {as : List α}
    (h : ∀ a ∈ as, f a = .ok (g a)) : as.mapM f = .ok (as.map g) := by
  apply mapM_eq_ok_of_forall₂
  rw [List.forall₂_map_right_iff, List.forall₂_same]
  exact h

theorem exists_mapM_eq_ok {f : α → Except ε β} {R : α → β → Prop} {as : List α}
    (h : ∀ a ∈ as, ∃ b, f a = .ok b ∧ R a b) :
    ∃ bs, as.mapM f = .ok bs ∧ List.Forall₂ R as bs := by
  induction as with
  | nil => exact ⟨[], rfl, .nil⟩
  | cons a as ih =>
    obtain ⟨b, hb, hab⟩ := h a (by simp)
    obtain ⟨bs, hbs, hrest⟩ := ih fun c hc => h c (by simp [hc])
    refine ⟨b :: bs, ?_, .cons hab hrest⟩
    rw [List.mapM_cons, hb, hbs]
    rfl

theorem forall₂_of_mapM_eq_ok {f : α → Except ε β} {as : List α} {bs : List β}
    (h : as.mapM f = .ok bs) : List.Forall₂ (fun a b => f a = .ok b) as bs := by
  induction as generalizing bs with
  | nil =>
    cases h
    exact .nil
  | cons a as ih =>
    rw [List.mapM_cons] at h
    obtain ⟨b, hb, h⟩ := exists_of_bind_eq_ok h
    obtain ⟨rest, hrest, h⟩ := exists_of_bind_eq_ok h
    cases h
    exact .cons hb (ih hrest)

/-- Computations that all succeed do so in every order. -/
theorem exists_mapM_eq_ok_of_perm {f : α → Except ε β} {as reordered : List α} {bs : List β}
    (hperm : reordered.Perm as) (h : as.mapM f = .ok bs) :
    ∃ others, reordered.mapM f = .ok others ∧ others.Perm bs := by
  obtain ⟨others, hothers, hsame⟩ := List.perm_comp_forall₂ hperm (forall₂_of_mapM_eq_ok h)
  exact ⟨others, mapM_eq_ok_of_forall₂ hothers, hsame⟩

theorem exists_of_mem_left {R : α → β → Prop} {as : List α} {bs : List β}
    (h : List.Forall₂ R as bs) {a : α} (ha : a ∈ as) : ∃ b ∈ bs, R a b := by
  induction h with
  | nil => cases ha
  | @cons c d as bs hcd _ ih =>
    rcases List.mem_cons.mp ha with rfl | ha
    · exact ⟨d, by simp, hcd⟩
    · obtain ⟨b, hb, hab⟩ := ih ha
      exact ⟨b, by simp [hb], hab⟩

theorem exists_of_mem_right {R : α → β → Prop} {as : List α} {bs : List β}
    (h : List.Forall₂ R as bs) {b : β} (hb : b ∈ bs) : ∃ a ∈ as, R a b :=
  exists_of_mem_left (List.Forall₂.flip (R := flip R) h) hb

/-- The fault of a list of computations is the fault of the first one that fails. -/
theorem mapM_eq_error_iff {f : α → Except ε β} {as : List α} {fault : ε} :
    as.mapM f = .error fault ↔ ∃ before a after, as = before ++ a :: after ∧
      (∀ earlier ∈ before, ∃ b, f earlier = .ok b) ∧ f a = .error fault := by
  constructor
  · intro h
    induction as with
    | nil => cases h
    | cons a as ih =>
      rw [List.mapM_cons] at h
      rcases ha : f a with other | b
      · rw [ha] at h
        cases h
        exact ⟨[], a, as, rfl, List.forall_mem_nil _, ha⟩
      · rw [ha, ok_bind] at h
        rcases has : as.mapM f with other | bs
        · rw [has] at h
          cases h
          obtain ⟨before, c, after, rfl, hbefore, hc⟩ := ih has
          exact ⟨a :: before, c, after, rfl, List.forall_mem_cons.mpr ⟨⟨b, ha⟩, hbefore⟩, hc⟩
        · rw [has] at h
          cases h
  · rintro ⟨before, a, after, rfl, hbefore, ha⟩
    induction before with
    | nil => rw [List.nil_append, List.mapM_cons, ha, error_bind]
    | cons earlier before ih =>
      obtain ⟨⟨b, hb⟩, hrest⟩ := List.forall_mem_cons.mp hbefore
      rw [List.cons_append, List.mapM_cons, hb, ok_bind, ih hrest, error_bind]

theorem exists_of_mapM_eq_error {f : α → Except ε β} {as : List α} {fault : ε}
    (h : as.mapM f = .error fault) : ∃ a ∈ as, f a = .error fault := by
  obtain ⟨before, a, after, rfl, -, ha⟩ := mapM_eq_error_iff.mp h
  exact ⟨a, by simp, ha⟩

/-! ### What a computation may fail with -/

/-- Every fault of the computation has the property. -/
def FailsOnly (p : ε → Prop) (outcome : Except ε α) : Prop :=
  ∀ fault, outcome = .error fault → p fault

namespace FailsOnly

variable {p q : ε → Prop}

theorem ok (a : α) : FailsOnly p (.ok a : Except ε α) := nofun

theorem error {fault : ε} (h : p fault) : FailsOnly p (.error fault : Except ε α) := by
  rintro _ ⟨⟩
  exact h

theorem mono {outcome : Except ε α} (hpq : ∀ fault, p fault → q fault)
    (h : FailsOnly p outcome) : FailsOnly q outcome :=
  fun fault hfault => hpq fault (h fault hfault)

/-- A later step only has to be looked at for what the earlier ones found. -/
theorem bind {first : Except ε α} {next : α → Except ε β} (hfirst : FailsOnly p first)
    (hnext : ∀ a, first = .ok a → FailsOnly p (next a)) : FailsOnly p (first >>= next) := by
  intro fault hfault
  rcases hcase : first with other | a
  · rw [hcase, error_bind] at hfault
    cases hfault
    exact hfirst fault hcase
  · rw [hcase, ok_bind] at hfault
    exact hnext a hcase fault hfault

theorem map {outcome : Except ε α} (h : FailsOnly p outcome) (f : α → β) :
    FailsOnly p (outcome.map f) := by
  intro fault hfault
  rcases hcase : outcome with other | a
  · rw [hcase] at hfault
    cases hfault
    exact h fault hcase
  · rw [hcase] at hfault
    cases hfault

theorem mapM {f : α → Except ε β} {as : List α} (h : ∀ a ∈ as, FailsOnly p (f a)) :
    FailsOnly p (as.mapM f) := by
  intro fault hfault
  obtain ⟨a, ha, hfault⟩ := exists_of_mapM_eq_error hfault
  exact h a ha fault hfault

end FailsOnly

/-! ### Traced computations -/

namespace Traced

@[simp] theorem outcome_report (event : Event) : (report event : Traced ε Unit).outcome = .ok () :=
  rfl

@[simp] theorem outcome_ofExcept (outcome : Except ε α) : (ofExcept outcome).outcome = outcome :=
  rfl

@[simp] theorem outcome_lift (outcome : Except ε α) :
    (liftM outcome : Traced ε α).outcome = outcome := rfl

@[simp] theorem outcome_bind (first : Traced ε α) (next : α → Traced ε β) :
    (first >>= next).outcome = first.outcome >>= fun a => (next a).outcome := by
  rcases first with ⟨events, _ | a⟩ <;> rfl

@[simp] theorem outcome_mapError (t : Traced ε α) (f : ε → ε') :
    (t.mapError f).outcome = t.outcome.mapError f := rfl

theorem outcome_mapM (f : α → Traced ε β) (as : List α) :
    (as.mapM f).outcome = as.mapM fun a => (f a).outcome := by
  induction as with
  | nil => rfl
  | cons a as ih =>
    simp only [List.mapM_cons, outcome_bind, ih]
    rfl

end Traced

/-! ### The stream of random bytes -/

namespace Entropy

theorem skip_zero (source : Entropy) : source.skip 0 = source := rfl

theorem skip_skip (source : Entropy) (m n : Nat) :
    (source.skip m).skip n = source.skip (m + n) := by
  simp [skip, Nat.add_assoc]

/-- The next `count` blocks of `n` bytes each. -/
def blocks (source : Entropy) (n count : Nat) : List (List UInt8) :=
  (List.range count).map fun k => (source.skip (k * n)).peek n

@[simp] theorem length_blocks (source : Entropy) (n count : Nat) :
    (source.blocks n count).length = count := by
  simp [blocks]

theorem length_of_mem_blocks {source : Entropy} {n count : Nat} {block : List UInt8}
    (h : block ∈ source.blocks n count) : block.length = n := by
  obtain ⟨k, -, rfl⟩ := List.mem_map.mp h
  exact length_peek ..

theorem blocks_succ (source : Entropy) (n count : Nat) :
    source.blocks n (count + 1) = source.peek n :: (source.skip n).blocks n count := by
  have hrest : ∀ k, source.skip ((k + 1) * n) = (source.skip n).skip (k * n) := by
    intro k
    rw [skip_skip, Nat.succ_mul, Nat.add_comm]
  simp only [blocks, List.range_succ_eq_map, List.map_cons, List.map_map, Function.comp_def,
    Nat.zero_mul, skip_zero, hrest]

end Entropy

/-! ### Drawing computations -/

namespace Dealer

variable {source rest last : Entropy}

/-- From `source` the computation succeeds with `a` and leaves `rest`. -/
structure Yields (dealer : Dealer ε α) (source : Entropy) (a : α) (rest : Entropy) : Prop where
  outcome : (dealer source).1.outcome = .ok a
  remains : (dealer source).2 = rest

theorem Yields.pure (a : α) : (Pure.pure a : Dealer ε α).Yields source a source := ⟨rfl, rfl⟩

theorem Yields.report (event : Event) : (report event : Dealer ε Unit).Yields source () source :=
  ⟨rfl, rfl⟩

theorem Yields.ofExcept {outcome : Except ε α} {a : α} (h : outcome = .ok a) :
    (ofExcept outcome).Yields source a source :=
  ⟨h, rfl⟩

theorem Yields.draw (n : Nat) :
    (draw n : Dealer ε (List UInt8)).Yields source (source.peek n) (source.skip n) :=
  ⟨rfl, rfl⟩

theorem Yields.bind {first : Dealer ε α} {next : α → Dealer ε β} {a : α} {b : β}
    (hfirst : first.Yields source a rest) (hnext : (next a).Yields rest b last) :
    (first >>= next).Yields source b last := by
  obtain ⟨hok, hrest⟩ := hfirst
  rw [bind_eq]
  rcases h : first source with ⟨⟨events, outcome⟩, rest'⟩
  rw [h] at hok hrest
  subst hok hrest
  exact ⟨by simpa [andThen, h] using hnext.outcome, by simpa [andThen, h] using hnext.remains⟩

theorem Yields.drawBlocks (n count : Nat) :
    (drawBlocks n count : Dealer ε (List (List UInt8))).Yields source (source.blocks n count)
      (source.skip (count * n)) := by
  induction count generalizing source with
  | zero => exact ⟨rfl, by rw [Nat.zero_mul]; rfl⟩
  | succ count ih =>
    have hskip : source.skip ((count + 1) * n) = (source.skip n).skip (count * n) := by
      rw [Entropy.skip_skip, Nat.succ_mul, Nat.add_comm]
    rw [Entropy.blocks_succ, hskip]
    exact Yields.bind (Yields.draw n) (Yields.bind ih (Yields.pure _))

end Dealer

end ShamirBackup
