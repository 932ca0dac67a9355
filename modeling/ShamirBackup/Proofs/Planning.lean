import ShamirBackup.Plan
import ShamirBackup.Proofs.Outcome

/-!
# Which plans are made

A plan is made of groups, or of pairs of numbers that stand for groups. The second way checks the
group threshold before it looks at the pairs, and what the pairs make goes through the first way. A
pair makes a group if it is `Feasible`, and groups make a plan if there are not too many of them and
at least as many as are needed. So there is one condition for pairs to make a plan, and where it
fails, one fault that comes before the others (`ofPairs_made_iff`).
-/

namespace ShamirBackup

/-- The threshold and the count that a group can have. -/
def Feasible (pair : Nat × Nat) : Prop :=
  1 ≤ pair.1 ∧ pair.1 ≤ pair.2 ∧ pair.2 ≤ 16 ∧ (pair.1 = 1 → pair.2 = 1)

instance : DecidablePred Feasible := fun _ => inferInstanceAs (Decidable (_ ∧ _ ∧ _ ∧ _))

namespace GroupSpec

variable {pair : Nat × Nat} {pairs : List (Nat × Nat)} {group : GroupSpec}
variable {groups : List GroupSpec}

def asPair (group : GroupSpec) : Nat × Nat := (group.threshold.val, group.count.val)

theorem feasible_asPair (group : GroupSpec) : Feasible group.asPair :=
  ⟨group.threshold.one_le, group.threshold_le_count, group.count.le_sixteen, group.count_eq_one⟩

theorem ofPair_asPair (group : GroupSpec) :
    ofPair group.asPair.1 group.asPair.2 = .ok group := by
  rw [asPair, ofPair, Threshold.ofNat_val, ok_bind, ShareCount.ofNat_val, ok_bind,
    dif_pos group.threshold_le_count, dif_pos group.count_eq_one]
  rfl

theorem asPair_of_ofPair (h : ofPair pair.1 pair.2 = .ok group) : group.asPair = pair := by
  obtain ⟨t, ht, h⟩ := exists_of_bind_eq_ok h
  obtain ⟨n, hn, h⟩ := exists_of_bind_eq_ok h
  unfold Threshold.ofNat at ht
  unfold ShareCount.ofNat at hn
  split_ifs at ht hn h
  cases ht
  cases hn
  cases h
  rfl

theorem ofPair_eq_ok_iff : ofPair pair.1 pair.2 = .ok group ↔ pair = group.asPair := by
  refine ⟨fun h => (asPair_of_ofPair h).symm, ?_⟩
  rintro rfl
  exact ofPair_asPair group

theorem exists_ofPair_iff : (∃ group, ofPair pair.1 pair.2 = .ok group) ↔ Feasible pair := by
  simp only [ofPair_eq_ok_iff]
  constructor
  · rintro ⟨group, rfl⟩
    exact group.feasible_asPair
  · rintro ⟨hone, hle, hsixteen, hsingle⟩
    exact ⟨⟨⟨pair.1, hone, Nat.le_trans hle hsixteen⟩, ⟨pair.2, Nat.le_trans hone hle, hsixteen⟩,
      hle, hsingle⟩, rfl⟩

/-- The groups of the pairs, in their order. -/
def ofList (pairs : List (Nat × Nat)) : Except Fault (List GroupSpec) :=
  pairs.mapM fun pair => ofPair pair.1 pair.2

/-- Groups are made of no other pairs than their own. -/
theorem ofList_eq_ok_iff : ofList pairs = .ok groups ↔ pairs = groups.map asPair := by
  have hentries : List.Forall₂ (fun pair group => ofPair pair.1 pair.2 = .ok group) pairs groups ↔
      pairs = groups.map asPair := by
    rw [← List.forall₂_eq_eq_eq, List.forall₂_map_right_iff]
    simp only [ofPair_eq_ok_iff]
  rw [← hentries]
  exact ⟨forall₂_of_mapM_eq_ok, mapM_eq_ok_of_forall₂⟩

theorem length_of_ofList (h : ofList pairs = .ok groups) : groups.length = pairs.length := by
  rw [ofList_eq_ok_iff.mp h, List.length_map]

/-- The first pair that is not feasible gives its fault. -/
theorem ofList_eq_error_iff {fault : Fault} : ofList pairs = .error fault ↔
    ∃ pair, pairs.find? (¬ Feasible ·) = some pair ∧ ofPair pair.1 pair.2 = .error fault := by
  have hfeasible : ∀ pair, (∃ group, ofPair pair.1 pair.2 = .ok group) ↔ Feasible pair :=
    fun _ => exists_ofPair_iff
  simp only [ofList, mapM_eq_error_iff, List.find?_eq_some_iff_append, hfeasible]
  constructor
  · rintro ⟨before, pair, after, rfl, hbefore, hfault⟩
    have hpair : ¬ Feasible pair := by
      rw [← hfeasible, hfault]
      rintro ⟨_, ⟨⟩⟩
    exact ⟨pair, ⟨by simpa using hpair, before, after, rfl, by simpa using hbefore⟩, hfault⟩
  · rintro ⟨pair, ⟨-, before, after, rfl, hbefore⟩, hfault⟩
    exact ⟨before, pair, after, rfl, by simpa using hbefore, hfault⟩

theorem exists_ofList_iff : (∃ groups, ofList pairs = .ok groups) ↔
    ∀ pair ∈ pairs, Feasible pair := by
  constructor
  · rintro ⟨groups, h⟩ pair hpair
    rw [ofList_eq_ok_iff.mp h] at hpair
    obtain ⟨group, -, rfl⟩ := List.mem_map.mp hpair
    exact group.feasible_asPair
  · intro h
    obtain ⟨groups, hgroups, -⟩ := exists_mapM_eq_ok (R := fun _ _ => True) fun pair hpair =>
      (exists_ofPair_iff.mpr (h pair hpair)).imp fun _ hgroup => ⟨hgroup, trivial⟩
    exact ⟨groups, hgroups⟩

end GroupSpec

namespace Plan

variable {groupThreshold : Nat} {groups : List GroupSpec} {pairs : List (Nat × Nat)} {plan : Plan}

/-- A plan is made of its threshold and its groups, with exponent zero and not extendable. -/
theorem ofGroups_plan (plan : Plan) : ofGroups plan.groupThreshold.val plan.groups =
    .ok { plan with exponent := default, extendable := false } := by
  have hsome : ¬ plan.groups.isEmpty = true :=
    mt List.isEmpty_iff.mp (List.ne_nil_of_length_pos plan.one_le_length_groups)
  have hcount := byteCount_of_le plan.length_le
  rw [ofGroups, if_neg hsome, dif_pos plan.length_le, dif_pos]
  rw [hcount]
  exact ⟨plan.groupThreshold.one_le, plan.threshold_le_length⟩

theorem threshold_groups_of_ofGroups (h : ofGroups groupThreshold groups = .ok plan) :
    plan.groupThreshold.val = groupThreshold ∧ plan.groups = groups := by
  unfold ofGroups at h
  split_ifs at h
  cases h
  exact ⟨rfl, rfl⟩

theorem exists_ofGroups_iff : (∃ plan, ofGroups groupThreshold groups = .ok plan) ↔
    1 ≤ groupThreshold ∧ groupThreshold ≤ groups.length ∧ groups.length ≤ 16 := by
  constructor
  · rintro ⟨plan, h⟩
    obtain ⟨rfl, rfl⟩ := threshold_groups_of_ofGroups h
    exact ⟨plan.groupThreshold.one_le, plan.threshold_le_length, plan.length_le⟩
  · rintro ⟨hone, hle, hsixteen⟩
    exact ⟨_, ofGroups_plan ⟨⟨groupThreshold, hone, Nat.le_trans hle hsixteen⟩, groups, default,
      false, hle, hsixteen⟩⟩

theorem ofGroups_of_many (h : 16 < groups.length) :
    ofGroups groupThreshold groups = .error (.form .groupCount) := by
  have hsome : ¬ groups.isEmpty = true :=
    mt List.isEmpty_iff.mp (List.ne_nil_of_length_pos (by omega))
  rw [ofGroups, if_neg hsome, dif_neg (Nat.not_le.mpr h)]

/-- No choice of so many groups meets the threshold. -/
def Unmet (groupThreshold count : Nat) : Prop := groupThreshold = 0 ∨ count < groupThreshold

/-- The groups are counted in a byte only when they are few, so the check that comes before the
pairs means what it says. -/
theorem unmet_byteCount_iff {count : Nat} :
    count ≤ 16 ∧ (groupThreshold = 0 ∨ byteCount count < groupThreshold) ↔
      count ≤ 16 ∧ Unmet groupThreshold count :=
  and_congr_right fun hfew => by rw [byteCount_of_le hfew, Unmet]

theorem ofPairs_of_unmet (hfew : pairs.length ≤ 16) (hunmet : Unmet groupThreshold pairs.length) :
    ofPairs groupThreshold pairs = .error (.groupThreshold groupThreshold pairs.length) := by
  rw [ofPairs, if_pos (unmet_byteCount_iff.mpr ⟨hfew, hunmet⟩), byteCount_of_le hfew]

theorem ofPairs_of_met (h : ¬ (pairs.length ≤ 16 ∧ Unmet groupThreshold pairs.length)) :
    ofPairs groupThreshold pairs = GroupSpec.ofList pairs >>= ofGroups groupThreshold := by
  rw [ofPairs, if_neg (mt unmet_byteCount_iff.mp h), GroupSpec.ofList]

/-- Both ways of making a plan come to the same plan. -/
theorem ofPairs_eq_ok_iff : ofPairs groupThreshold pairs = .ok plan ↔
    ∃ groups, GroupSpec.ofList pairs = .ok groups ∧ ofGroups groupThreshold groups = .ok plan := by
  rw [← bind_eq_ok_iff]
  by_cases h : pairs.length ≤ 16 ∧ Unmet groupThreshold pairs.length
  · rw [ofPairs_of_unmet h.1 h.2]
    refine iff_of_false nofun fun hplan => ?_
    obtain ⟨groups, hgroups, hplan⟩ := exists_of_bind_eq_ok hplan
    obtain ⟨hone, hle, -⟩ := exists_ofGroups_iff.mp ⟨plan, hplan⟩
    rw [GroupSpec.length_of_ofList hgroups] at hle
    rw [Unmet] at h
    omega
  · rw [ofPairs_of_met h]

theorem exists_ofPairs_iff : (∃ plan, ofPairs groupThreshold pairs = .ok plan) ↔
    (1 ≤ pairs.length ∧ pairs.length ≤ 16) ∧
      (1 ≤ groupThreshold ∧ groupThreshold ≤ pairs.length) ∧ ∀ pair ∈ pairs, Feasible pair := by
  rw [← GroupSpec.exists_ofList_iff]
  constructor
  · rintro ⟨plan, h⟩
    obtain ⟨groups, hgroups, hplan⟩ := ofPairs_eq_ok_iff.mp h
    obtain ⟨hone, hle, hsixteen⟩ := exists_ofGroups_iff.mp ⟨plan, hplan⟩
    rw [GroupSpec.length_of_ofList hgroups] at hle hsixteen
    exact ⟨⟨Nat.le_trans hone hle, hsixteen⟩, ⟨hone, hle⟩, groups, hgroups⟩
  · rintro ⟨⟨-, hsixteen⟩, ⟨hone, hle⟩, groups, hgroups⟩
    rw [← GroupSpec.length_of_ofList hgroups] at hle hsixteen
    obtain ⟨plan, hplan⟩ := exists_ofGroups_iff.mpr ⟨hone, hle, hsixteen⟩
    exact ⟨plan, ofPairs_eq_ok_iff.mpr ⟨groups, hgroups, hplan⟩⟩

theorem ofPairs_of_infeasible (h : ¬ (pairs.length ≤ 16 ∧ Unmet groupThreshold pairs.length))
    {pair : Nat × Nat} (hfirst : pairs.find? (¬ Feasible ·) = some pair) :
    ∃ fault, GroupSpec.ofPair pair.1 pair.2 = .error fault ∧
      ofPairs groupThreshold pairs = .error fault := by
  have hinfeasible : ¬ Feasible pair := by simpa using List.find?_some hfirst
  rcases hpair : GroupSpec.ofPair pair.1 pair.2 with fault | group
  · have hfault := GroupSpec.ofList_eq_error_iff.mpr ⟨pair, hfirst, hpair⟩
    exact ⟨fault, rfl, by rw [ofPairs_of_met h, hfault, error_bind]⟩
  · exact absurd (GroupSpec.exists_ofPair_iff.mp ⟨group, hpair⟩) hinfeasible

theorem ofPairs_of_many (hmany : 16 < pairs.length) (hfeasible : ∀ pair ∈ pairs, Feasible pair) :
    ofPairs groupThreshold pairs = .error (.form .groupCount) := by
  have hmet : ¬ (pairs.length ≤ 16 ∧ Unmet groupThreshold pairs.length) :=
    fun h => Nat.not_le.mpr hmany h.1
  obtain ⟨groups, hgroups⟩ := GroupSpec.exists_ofList_iff.mpr hfeasible
  rw [ofPairs_of_met hmet, hgroups, ok_bind,
    ofGroups_of_many (GroupSpec.length_of_ofList hgroups ▸ hmany)]

/-- **Pairs make a plan if each of them is feasible, there are one to sixteen of them, and the group
threshold can be met.** The plan is the one of their groups, in their order. Otherwise one fault is
reported: the group threshold, if there are not too many pairs, whatever they are; or else that of
the first pair that is not feasible; or else that there are too many. -/
theorem ofPairs_made_iff (groupThreshold : Nat) (pairs : List (Nat × Nat)) :
    ((∃ plan, ofPairs groupThreshold pairs = .ok plan) ↔
      (1 ≤ pairs.length ∧ pairs.length ≤ 16) ∧
      (1 ≤ groupThreshold ∧ groupThreshold ≤ pairs.length) ∧ ∀ pair ∈ pairs, Feasible pair) ∧
    (∀ plan, ofPairs groupThreshold pairs = .ok plan →
      (∃ groups, pairs.mapM (fun pair => GroupSpec.ofPair pair.1 pair.2) = .ok groups ∧
        ofGroups groupThreshold groups = .ok plan) ∧
      plan.groupThreshold.val = groupThreshold ∧
      plan.groups.map (fun group => (group.threshold.val, group.count.val)) = pairs ∧
      plan.groupCount.val = pairs.length) ∧
    (pairs.length ≤ 16 → groupThreshold = 0 ∨ pairs.length < groupThreshold →
      ofPairs groupThreshold pairs = .error (.groupThreshold groupThreshold pairs.length)) ∧
    (¬ (pairs.length ≤ 16 ∧ (groupThreshold = 0 ∨ pairs.length < groupThreshold)) →
      (∀ pair, pairs.find? (¬ Feasible ·) = some pair → ∃ fault,
        GroupSpec.ofPair pair.1 pair.2 = .error fault ∧
        ofPairs groupThreshold pairs = .error fault) ∧
      ((∀ pair ∈ pairs, Feasible pair) → 16 < pairs.length →
        ofPairs groupThreshold pairs = .error (.form .groupCount))) := by
  refine ⟨exists_ofPairs_iff, fun plan hplan => ?_, ofPairs_of_unmet, fun hmet =>
    ⟨fun pair => ofPairs_of_infeasible hmet, fun hfeasible hmany => ofPairs_of_many hmany hfeasible⟩⟩
  obtain ⟨groups, hgroups, hplan⟩ := ofPairs_eq_ok_iff.mp hplan
  obtain ⟨hthreshold, rfl⟩ := threshold_groups_of_ofGroups hplan
  exact ⟨⟨_, hgroups, hplan⟩, hthreshold, (GroupSpec.ofList_eq_ok_iff.mp hgroups).symm,
    GroupSpec.length_of_ofList hgroups⟩

/-- One byte would hold 257 as one, and a threshold of one would seem to be met. -/
theorem ofPairs_made_iff_wrapped :
    (∃ plan, ofPairs 2 [(1, 1), (2, 3)] = .ok plan ∧ plan.groupCount.val = 2) ∧
    ofPairs 3 [(1, 1), (1, 2)] = .error (.groupThreshold 3 2) ∧
    ofPairs 1 [(1, 1), (1, 2)] = .error (.crowdedSingleton 2) ∧
    byteCount 257 = 1 ∧
    ofPairs 1 (List.replicate 257 (1, 1)) = .error (.form .groupCount) := by
  obtain ⟨hmade, hplan, -, -⟩ := ofPairs_made_iff 2 [(1, 1), (2, 3)]
  obtain ⟨-, -, hunmet, -⟩ := ofPairs_made_iff 3 [(1, 1), (1, 2)]
  obtain ⟨-, -, -, hmet⟩ := ofPairs_made_iff 1 [(1, 1), (1, 2)]
  obtain ⟨-, -, -, hmany⟩ := ofPairs_made_iff 1 (List.replicate 257 (1, 1))
  obtain ⟨plan, h⟩ := hmade.mpr (by decide)
  obtain ⟨fault, hfault, hcrowded⟩ := (hmet (by decide)).1 (1, 2) (by decide)
  obtain rfl : Fault.crowdedSingleton 2 = fault := by
    injection hfault
  refine ⟨⟨plan, h, (hplan plan h).2.2.2⟩, hunmet (by decide) (by decide), hcrowded, rfl,
    (hmany ?_).2 (fun pair hpair => ?_) ?_⟩
  · rw [List.length_replicate]
    decide
  · rw [List.eq_of_mem_replicate hpair]
    decide
  · rw [List.length_replicate]
    decide

end Plan

end ShamirBackup
