import Mathlib.Order.Bounds.Basic
import ShamirBackup.Proofs.Agreement
import ShamirBackup.Proofs.Dealing

/-!
# Combining what was dealt

Different shares of one split agree (`agrees_of_deals`), and their groups are complete exactly when
enough of their shares are there (`Plan.completed`). What combining comes to is then a matter of
numbers: with enough complete groups it finds the secret (`combine_eq_ok`), and otherwise it names
what is missing (`combine_eq_missing_groups`, `combine_eq_missing_members`).
-/

namespace ShamirBackup

open Sharing

/-- The groups of the plan of which the list holds as many shares as the group needs. -/
def Plan.completed (plan : Plan) (shares : List Share) : Finset Nat :=
  (Finset.range plan.groups.length).filter fun index =>
    ∃ group ∈ plan.groups[index]?, group.threshold.val ≤ Backup.held shares index

namespace Backup

variable {plan : Plan} {secret : EncryptedSecret} {dealing : Dealing plan secret}

namespace Dealing.Deals

variable {a b share : Share}

theorem memberThreshold_eq {group : GroupSpec} (h : dealing.Deals share)
    (hgroup : plan.groups[share.groupIndex]? = some group) :
    share.memberThreshold = group.threshold.val := by
  obtain ⟨_, hgroup', hthreshold⟩ := h.spec
  obtain rfl := Option.some.inj (hgroup'.symm.trans hgroup)
  rw [Share.memberThreshold, hthreshold]

theorem length_value (h : dealing.Deals share) : share.value.length = secret.value.length := by
  obtain ⟨group, hgroup, -⟩ := h.spec
  have hvalue : share.value = _ := h.through
  rw [hvalue, Curve.length_valueAt, (dealing.hides_member _ _ hgroup).length_eq,
    Curve.pointAt, Curve.length_valueAt, dealing.hides.length_eq]

/-- A dealt share is known by its place. -/
theorem eq_of_place_eq (ha : dealing.Deals a) (hb : dealing.Deals b)
    (hgroup : a.groupIndex = b.groupIndex) (hmember : a.memberIndex = b.memberIndex) : a = b := by
  obtain ⟨_, hspec, _⟩ := ha.spec
  have hthreshold : a.memberThreshold = b.memberThreshold := by
    rw [ha.memberThreshold_eq hspec, hb.memberThreshold_eq (hgroup ▸ hspec)]
  have hvalue : a.value = b.value := by
    have ha' : a.value = _ := ha.through
    have hb' : b.value = _ := hb.through
    rw [ha', hb', Share.point, Share.point, hgroup, hmember]
  have hparameters := ha.parameters_eq.trans hb.parameters_eq.symm
  have hgroupThreshold := ha.groupThreshold_eq.trans hb.groupThreshold_eq.symm
  have hgroupCount := ha.groupCount_eq.trans hb.groupCount_eq.symm
  obtain ⟨⟨pa, ⟨ga, _⟩, ta, na, ⟨ma, _⟩, ⟨ka, _, _⟩⟩, va, _, _⟩ := a
  obtain ⟨⟨pb, ⟨gb, _⟩, tb, nb, ⟨mb, _⟩, ⟨kb, _, _⟩⟩, vb, _, _⟩ := b
  simp only [Share.groupIndex, Share.memberIndex, Share.memberThreshold] at *
  subst hgroup hmember hthreshold hvalue hparameters hgroupThreshold hgroupCount
  rfl

theorem common_eq (ha : dealing.Deals a) (hb : dealing.Deals b) : a.common = b.common := by
  rw [Share.common, Share.common, ha.parameters_eq, ha.groupThreshold_eq, ha.groupCount_eq,
    ha.length_value, hb.parameters_eq, hb.groupThreshold_eq, hb.groupCount_eq, hb.length_value]

end Dealing.Deals

/-! ### Groups -/

section Groups

variable {shares : List Share} {index : Nat}

theorem mem_completed : index ∈ plan.completed shares ↔
    ∃ group, plan.groups[index]? = some group ∧ group.threshold.val ≤ held shares index := by
  simp only [Plan.completed, Finset.mem_filter, Finset.mem_range, Option.mem_def]
  refine ⟨fun h => h.2, fun h => ⟨?_, h⟩⟩
  obtain ⟨group, hgroup, -⟩ := h
  exact (List.getElem?_eq_some_iff.mp hgroup).1

theorem completed_subset_represented (plan : Plan) (shares : List Share) :
    plan.completed shares ⊆ represented shares := by
  intro index hindex
  obtain ⟨group, -, henough⟩ := mem_completed.mp hindex
  exact represented_iff_held_pos.mpr (Nat.lt_of_lt_of_le group.threshold.one_le henough)

variable (hshares : ∀ share ∈ shares, dealing.Deals share)

include hshares in
theorem exists_spec_of_represented (hindex : index ∈ represented shares) :
    ∃ group, plan.groups[index]? = some group := by
  obtain ⟨share, hshare, rfl⟩ := mem_represented.mp hindex
  obtain ⟨group, hgroup, -⟩ := (hshares share hshare).spec
  exact ⟨group, hgroup⟩

include hshares in
/-- What the shares say of their thresholds is what the plan says. -/
theorem complete_eq_completed : complete shares = plan.completed shares := by
  ext index
  by_cases hindex : index ∈ represented shares
  · obtain ⟨share, hshare, rfl⟩ := mem_represented.mp hindex
    obtain ⟨group, hgroup, -⟩ := (hshares share hshare).spec
    have hthreshold : ∀ other ∈ shares, other.groupIndex = share.groupIndex →
        other.memberThreshold = group.threshold.val := fun other hother hsame =>
      (hshares other hother).memberThreshold_eq (hsame ▸ hgroup)
    rw [mem_complete, mem_completed, hgroup]
    constructor
    · rintro ⟨-, henough⟩
      exact ⟨group, rfl, hthreshold share hshare rfl ▸ henough share hshare rfl⟩
    · rintro ⟨_, ⟨⟩, henough⟩
      exact ⟨hindex, fun other hother hsame => hthreshold other hother hsame ▸ henough⟩
  · exact iff_of_false (fun h => hindex (complete_subset_represented shares h))
      fun h => hindex (completed_subset_represented plan shares h)

include hshares in
theorem consistent_of_deals (hnodup : shares.Nodup) : Consistent shares where
  common_eq a ha b hb := (hshares a ha).common_eq (hshares b hb)
  threshold_eq a ha b hb hsame := by
    obtain ⟨group, hgroup, -⟩ := (hshares b hb).spec
    rw [(hshares b hb).memberThreshold_eq hgroup,
      (hshares a ha).memberThreshold_eq (hsame ▸ hgroup)]
  nodup_place := hnodup.map_on fun a ha b hb hplace => by
    obtain ⟨hgroup, hmember⟩ := Prod.mk.inj hplace
    exact (hshares a ha).eq_of_place_eq (hshares b hb) hgroup hmember

include hshares in
/-- Different shares of one split agree. -/
theorem agrees_of_deals (hnodup : shares.Nodup) : Agrees dealing.curve secret shares where
  consistent := consistent_of_deals hshares hnodup
  parameters_eq share hshare := (hshares share hshare).parameters_eq
  hides share hshare := (hshares share hshare).groupThreshold_eq ▸ dealing.hides
  hides_member index _ := by
    refine ⟨dealing.memberCurve index, fun share hshare hindex => ?_⟩
    subst hindex
    have hdeals := hshares share hshare
    obtain ⟨group, hgroup, -⟩ := hdeals.spec
    rw [hdeals.memberThreshold_eq hgroup]
    exact ⟨dealing.hides_member _ group hgroup, hdeals.through⟩

include hshares in
theorem isComplete_groupAt (hnodup : shares.Nodup) (hindex : index ∈ represented shares) :
    (groupAt shares index).isComplete = decide (index ∈ plan.completed shares) := by
  rw [(consistent_of_deals hshares hnodup).isComplete_groupAt hindex,
    complete_eq_completed hshares]

end Groups

/-! ### The outcome -/

section Outcome

variable {shares : List Share} (hshares : ∀ share ∈ shares, dealing.Deals share)
  (hnodup : shares.Nodup)

include hshares hnodup in
theorem outcome_combine (hne : shares ≠ []) :
    (combine shares).outcome =
      let needed := plan.groupThreshold.val
      if (represented shares).card < needed then
        .error (.tooFewGroups needed (represented shares).card)
      else if (plan.completed shares).card < needed then
        .error (incompleteFault (groupsOf shares) needed (plan.completed shares).card)
      else .ok secret := by
  obtain ⟨first, hfirst⟩ := List.exists_mem_of_ne_nil _ hne
  rw [outcome_combine_of_agrees (agrees_of_deals hshares hnodup) hfirst,
    complete_eq_completed hshares, (hshares first hfirst).groupThreshold_eq]

include hshares hnodup in
/-- **Enough complete groups give the secret.** -/
theorem combine_eq_ok (henough : plan.groupThreshold.val ≤ (plan.completed shares).card) :
    (combine shares).outcome = .ok secret := by
  have hrepresented : (plan.completed shares).card ≤ (represented shares).card :=
    Finset.card_le_card (completed_subset_represented plan shares)
  have hpos := plan.groupThreshold.one_le
  have hne : shares ≠ [] := by
    rintro rfl
    have hnone : (represented []).card = 0 := rfl
    omega
  rw [outcome_combine hshares hnodup hne]
  dsimp only
  rw [if_neg (by omega), if_neg (by omega)]

include hshares hnodup in
theorem combine_eq_missing_groups (hne : shares ≠ [])
    (hfew : (represented shares).card < plan.groupThreshold.val) :
    (combine shares).outcome =
      .error (.tooFewGroups plan.groupThreshold.val (represented shares).card) := by
  rw [outcome_combine hshares hnodup hne]
  exact if_pos hfew

/-- The groups that have shares in the list, but not enough of them. -/
def incomplete (plan : Plan) (shares : List Share) : Finset Nat :=
  represented shares \ plan.completed shares

include hshares hnodup in
/-- With an incomplete group, the fault names the first one. -/
theorem incompleteFault_groupsOf {index : Nat} {group : GroupSpec}
    (hleast : IsLeast (incomplete plan shares : Set Nat) index)
    (hgroup : plan.groups[index]? = some group) (needed got : Nat) :
    incompleteFault (groupsOf shares) needed got =
      .tooFewMembers index group.threshold.val (held shares index) := by
  have hrepresented : index ∈ represented shares :=
    (Finset.mem_sdiff.mp (Finset.mem_coe.mp hleast.1)).1
  obtain ⟨share, hshare, rfl⟩ := mem_represented.mp hrepresented
  rw [incomplete, ← complete_eq_completed hshares, Finset.coe_sdiff] at hleast
  rw [(consistent_of_deals hshares hnodup).incompleteFault_eq hshare hleast,
    (hshares share hshare).memberThreshold_eq hgroup]

include hshares hnodup in
/-- **Too few complete groups among enough represented ones** leave some incomplete, and the fault
names the first of these. -/
theorem combine_eq_missing_members
    (hthere : plan.groupThreshold.val ≤ (represented shares).card)
    (hfew : (plan.completed shares).card < plan.groupThreshold.val) :
    ∃ index group, plan.groups[index]? = some group ∧
      IsLeast (incomplete plan shares : Set Nat) index ∧
      (combine shares).outcome =
        .error (.tooFewMembers index group.threshold.val (held shares index)) := by
  have hmissing : (incomplete plan shares).Nonempty := by
    refine Finset.card_pos.mp ?_
    rw [incomplete, Finset.card_sdiff_of_subset (completed_subset_represented plan shares)]
    omega
  have hleast := Finset.isLeast_min' _ hmissing
  have hrepresented := (Finset.mem_sdiff.mp (Finset.min'_mem _ hmissing)).1
  obtain ⟨group, hgroup⟩ := exists_spec_of_represented hshares hrepresented
  have hne : shares ≠ [] := by
    rintro rfl
    cases hrepresented
  refine ⟨_, group, hgroup, hleast, ?_⟩
  rw [outcome_combine hshares hnodup hne]
  dsimp only
  rw [if_neg (by omega), if_pos hfew, incompleteFault_groupsOf hshares hnodup hleast hgroup]

end Outcome

end Backup

end ShamirBackup
