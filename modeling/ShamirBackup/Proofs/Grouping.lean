import Mathlib.Data.Finset.Card
import ShamirBackup.Backup.Combine

/-!
# Shares by group

The groups that combining forms are those represented among the shares (`represented`), in the order
of their indices, each with its shares in the order in which they were given (`groupsOf_eq_map`).
-/

namespace ShamirBackup

namespace Share

/-- The group of a share and its place in the group. -/
def place (share : Share) : Nat × Nat := (share.groupIndex, share.memberIndex)

theorem place_eq_iff {a b : Share} : a.place = b.place ↔
    a.metadata.groupIndex = b.metadata.groupIndex ∧
      a.metadata.memberIndex = b.metadata.memberIndex := by
  rcases a with ⟨⟨_, ⟨_, _⟩, _, _, ⟨_, _⟩, _⟩, _, _, _⟩
  rcases b with ⟨⟨_, ⟨_, _⟩, _, _, ⟨_, _⟩, _⟩, _, _, _⟩
  simp [place, groupIndex, memberIndex]

theorem groupIndex_lt (share : Share) : share.groupIndex < 16 :=
  share.metadata.groupIndex.val_lt

theorem memberIndex_lt (share : Share) : share.memberIndex < 16 :=
  share.metadata.memberIndex.val_lt

end Share

namespace Backup

variable {shares : List Share} {index : Nat}

/-- The indices of the groups that have shares in the list. -/
def represented (shares : List Share) : Finset Nat := (shares.map Share.groupIndex).toFinset

/-- How many of the shares are of the group at `index`. -/
def held (shares : List Share) (index : Nat) : Nat := shares.countP (·.groupIndex = index)

/-- The groups of which the list holds as many shares as the group needs, by what its shares say. -/
def complete (shares : List Share) : Finset Nat :=
  (represented shares).filter fun index =>
    ∀ share ∈ shares, share.groupIndex = index → share.memberThreshold ≤ held shares index

/-- The group at `index` with its members among the shares. -/
def groupAt (shares : List Share) (index : Nat) : Group :=
  ⟨index, shares.filter (·.groupIndex = index)⟩

theorem mem_represented :
    index ∈ represented shares ↔ ∃ share ∈ shares, share.groupIndex = index := by
  simp [represented]

theorem lt_of_mem_represented (h : index ∈ represented shares) : index < 16 := by
  obtain ⟨share, -, rfl⟩ := mem_represented.mp h
  exact share.groupIndex_lt

theorem mem_complete : index ∈ complete shares ↔ index ∈ represented shares ∧
    ∀ share ∈ shares, share.groupIndex = index → share.memberThreshold ≤ held shares index := by
  simp [complete]

theorem complete_subset_represented (shares : List Share) : complete shares ⊆ represented shares :=
  Finset.filter_subset ..

theorem length_members_groupAt (shares : List Share) (index : Nat) :
    (groupAt shares index).members.length = held shares index :=
  List.countP_eq_length_filter.symm

theorem mem_members_groupAt {share : Share} :
    share ∈ (groupAt shares index).members ↔ share ∈ shares ∧ share.groupIndex = index := by
  simp [groupAt]

theorem members_groupAt_eq_nil_iff :
    (groupAt shares index).members = [] ↔ index ∉ represented shares := by
  rw [List.eq_nil_iff_forall_not_mem, mem_represented]
  simp only [mem_members_groupAt, not_and, not_exists]

theorem represented_iff_held_pos : index ∈ represented shares ↔ 0 < held shares index := by
  rw [← length_members_groupAt, List.length_pos_iff, ne_eq, members_groupAt_eq_nil_iff, not_not]

/-- **The groups in order.** Each represented group stands once, by index. -/
theorem groupsOf_eq_map (shares : List Share) :
    groupsOf shares =
      ((List.range 16).filter (· ∈ represented shares)).map (groupAt shares) := by
  unfold groupsOf
  induction List.range 16 with
  | nil => rfl
  | cons index indices ih =>
    rw [List.filterMap_cons, ih]
    by_cases hindex : index ∈ represented shares
    · rw [List.filter_cons_of_pos (by simpa using hindex), List.map_cons]
      have hmembers : shares.filter (·.groupIndex = index) ≠ [] := fun h =>
        members_groupAt_eq_nil_iff.mp h hindex
      rcases h : shares.filter (·.groupIndex = index) with _ | ⟨member, members⟩
      · exact absurd h hmembers
      · simp [groupAt, h]
    · rw [List.filter_cons_of_neg (by simpa using hindex)]
      have hmembers : shares.filter (·.groupIndex = index) = [] :=
        members_groupAt_eq_nil_iff.mpr hindex
      simp only [hmembers]

/-- The indices below sixteen that lie in a set are as many as the set has, if it has no others. -/
theorem length_filter_range_mem {set : Finset Nat} (h : ∀ index ∈ set, index < 16) :
    ((List.range 16).filter (· ∈ set)).length = set.card := by
  rw [← List.toFinset_card_of_nodup (List.nodup_range.filter _)]
  congr 1
  ext index
  simp only [List.mem_toFinset, List.mem_filter, List.mem_range, decide_eq_true_eq,
    and_iff_right_iff_imp]
  exact h index

theorem length_groupsOf (shares : List Share) :
    (groupsOf shares).length = (represented shares).card := by
  rw [groupsOf_eq_map, List.length_map, length_filter_range_mem fun _ => lt_of_mem_represented]

end Backup

end ShamirBackup
