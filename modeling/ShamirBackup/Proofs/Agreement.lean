import Mathlib.Order.Bounds.Basic
import ShamirBackup.Proofs.Acceptance
import ShamirBackup.Proofs.Vetting

/-!
# Shares that agree

`Agrees curve encrypted shares` says that consistent shares, wherever they come from, fit together:
the members of every complete group lie on a curve that hides a point of `curve`, and `curve` hides
the secret. It is just what combining finds out (`combine_eq_ok_iff`). Fewer of the shares agree as
well, in any order, so whatever choice of them completes enough groups gives the same secret
(`combine_selection`).
-/

namespace ShamirBackup.Backup

open Sharing

variable {shares chosen : List Share} {share : Share} {index : Nat} {curve : Curve}
variable {encrypted : EncryptedSecret}

/-! ### Groups of consistent shares -/

namespace Consistent

variable (h : Consistent shares)

include h

theorem length_value {a b : Share} (ha : a ∈ shares) (hb : b ∈ shares) :
    a.value.length = b.value.length :=
  congrArg (·.2.2.2) (h.common_eq a ha b hb)

theorem groupThreshold_eq {a b : Share} (ha : a ∈ shares) (hb : b ∈ shares) :
    a.metadata.groupThreshold = b.metadata.groupThreshold :=
  congrArg (·.2.1) (h.common_eq a ha b hb)

theorem threshold_groupAt (hshare : share ∈ shares) :
    (groupAt shares share.groupIndex).threshold = share.memberThreshold := by
  have hmember : share ∈ (groupAt shares share.groupIndex).members :=
    mem_members_groupAt.mpr ⟨hshare, rfl⟩
  unfold Group.threshold
  rcases hmembers : (groupAt shares share.groupIndex).members with _ | ⟨first, rest⟩
  · rw [hmembers] at hmember
    cases hmember
  · have hfirst : first ∈ (groupAt shares share.groupIndex).members := by simp [hmembers]
    obtain ⟨hmem, hgroup⟩ := mem_members_groupAt.mp hfirst
    exact h.threshold_eq first hmem share hshare hgroup

theorem mem_complete_iff (hshare : share ∈ shares) :
    share.groupIndex ∈ complete shares ↔
      share.memberThreshold ≤ held shares share.groupIndex := by
  rw [mem_complete]
  refine ⟨fun hcomplete => hcomplete.2 share hshare rfl, fun henough => ?_⟩
  refine ⟨mem_represented.mpr ⟨share, hshare, rfl⟩, fun other hother hgroup => ?_⟩
  rwa [h.threshold_eq other hother share hshare hgroup]

theorem isComplete_groupAt (hindex : index ∈ represented shares) :
    (groupAt shares index).isComplete = decide (index ∈ complete shares) := by
  obtain ⟨share, hshare, rfl⟩ := mem_represented.mp hindex
  rw [Group.isComplete, h.threshold_groupAt hshare, length_members_groupAt, decide_eq_decide,
    h.mem_complete_iff hshare]

theorem filter_isComplete_groupsOf :
    (groupsOf shares).filter Group.isComplete =
      ((List.range 16).filter (· ∈ complete shares)).map (groupAt shares) := by
  rw [groupsOf_eq_map, List.filter_map, List.filter_filter]
  congr 1
  refine List.filter_congr fun index _ => ?_
  by_cases hindex : index ∈ represented shares
  · simp [h.isComplete_groupAt hindex, hindex]
  · have hincomplete : index ∉ complete shares := fun hcomplete =>
      hindex (complete_subset_represented shares hcomplete)
    simp [hindex, hincomplete]

/-- With an incomplete group, the fault of having too few complete ones names the first such. -/
theorem incompleteFault_eq (hshare : share ∈ shares)
    (hleast : IsLeast (represented shares \ complete shares : Set Nat) share.groupIndex)
    (needed got : Nat) :
    incompleteFault (groupsOf shares) needed got =
      .tooFewMembers share.groupIndex share.memberThreshold (held shares share.groupIndex) := by
  obtain ⟨⟨hrepresented, hnot⟩, hfirst⟩ := hleast
  rw [Finset.mem_coe] at hrepresented hnot
  have hfind : (groupsOf shares).find? (!·.isComplete) =
      some (groupAt shares share.groupIndex) := by
    rw [groupsOf_eq_map, List.find?_map, List.find?_filter, Option.map_eq_some_iff]
    refine ⟨share.groupIndex, List.find?_range_eq_some.mpr ⟨?_, ?_, ?_⟩, rfl⟩
    · simp [hrepresented, h.isComplete_groupAt hrepresented, hnot]
    · exact List.mem_range.mpr (lt_of_mem_represented hrepresented)
    · intro other hother
      by_cases hthere : other ∈ represented shares
      · have hdone : other ∈ complete shares := by
          by_contra hmissing
          have hle := hfirst ⟨Finset.mem_coe.mpr hthere, by rwa [Finset.mem_coe]⟩
          omega
        simp [h.isComplete_groupAt hthere, hdone]
      · simp [hthere]
  unfold incompleteFault
  rw [hfind]
  simp only [h.threshold_groupAt hshare, length_members_groupAt]
  rfl

/-- The members of a group are different points. -/
theorem nodup_members_x (index : Nat) :
    (((groupAt shares index).members.map Share.point).map (·.x)).Nodup := by
  rw [List.map_map]
  refine ((List.Nodup.of_map _ h.nodup_place).filter _).map_on fun a ha b hb hab => ?_
  obtain ⟨ha, hgroupa⟩ := mem_members_groupAt.mp ha
  obtain ⟨hb, hgroupb⟩ := mem_members_groupAt.mp hb
  have hmember := (ofNat_eq_iff_of_lt (Nat.lt_trans a.memberIndex_lt (by decide))
    (Nat.lt_trans b.memberIndex_lt (by decide))).mp hab
  refine List.inj_on_of_nodup_map h.nodup_place ha hb ?_
  rw [Share.place, Share.place, hgroupa, hgroupb, hmember]

end Consistent

/-- The indices of the complete groups in order. -/
def completeIndices (shares : List Share) : List Nat :=
  (List.range 16).filter (· ∈ complete shares)

theorem mem_completeIndices : index ∈ completeIndices shares ↔ index ∈ complete shares := by
  simp only [completeIndices, List.mem_filter, List.mem_range, decide_eq_true_eq,
    and_iff_right_iff_imp]
  exact fun hindex => lt_of_mem_represented (complete_subset_represented shares hindex)

theorem length_completeIndices (shares : List Share) :
    (completeIndices shares).length = (complete shares).card :=
  length_filter_range_mem fun _ hindex =>
    lt_of_mem_represented (complete_subset_represented shares hindex)

theorem outcome_recover (group : Group) : group.recover.outcome =
    (Sharing.recover group.threshold (group.members.map Share.point)).map
      (Point.mk (UInt8.ofNat group.index)) := by
  unfold Group.recover
  rw [Traced.outcome_bind, Traced.outcome_lift]
  rcases Sharing.recover group.threshold (group.members.map Share.point) with fault | value <;> rfl

theorem outcome_recoverGroups (h : Consistent shares) (needed : Nat) :
    (recoverGroups needed (groupsOf shares)).outcome =
      (completeIndices shares).mapM (fun index => (groupAt shares index).recover.outcome) >>=
        fun points =>
          if (complete shares).card < needed then
            .error (incompleteFault (groupsOf shares) needed (complete shares).card)
          else .ok points := by
  unfold recoverGroups
  rw [Traced.outcome_bind, h.filter_isComplete_groupsOf, Traced.outcome_mapM, List.mapM_map]
  rcases hpoints : (completeIndices shares).mapM
    (fun index => (groupAt shares index).recover.outcome) with fault | points
  · exact congrArg (· >>= _) hpoints
  · have hlength := (forall₂_of_mapM_eq_ok hpoints).length_eq
    rw [length_completeIndices] at hlength
    refine (congrArg (· >>= _) hpoints).trans ?_
    rw [ok_bind, ok_bind, ← hlength]
    split_ifs <;> rfl

/-! ### Agreement -/

/-- The shares are consistent and those of complete groups lie on curves, as in a split. -/
structure Agrees (curve : Curve) (encrypted : EncryptedSecret) (shares : List Share) : Prop where
  consistent : Consistent shares
  parameters_eq : ∀ share ∈ shares, share.metadata.toParameters = encrypted.parameters
  hides : ∀ share ∈ shares, Hides curve share.metadata.groupThreshold.val encrypted.value
  hides_member : ∀ index ∈ complete shares, ∃ memberCurve : Curve,
    ∀ share ∈ shares, share.groupIndex = index →
      Hides memberCurve share.memberThreshold (curve.pointAt index).value ∧
        memberCurve.Through share.point

/-- The points of the complete groups on the curve of the groups. -/
noncomputable def groupPoints (curve : Curve) (shares : List Share) : List Point :=
  (completeIndices shares).map curve.pointAt

theorem nodup_groupPoints_x (curve : Curve) (shares : List Share) :
    ((groupPoints curve shares).map (·.x)).Nodup := by
  rw [groupPoints, List.map_map]
  refine nodup_map_ofNat (List.nodup_range.filter _) fun index hindex => ?_
  have hlt := List.mem_range.mp (List.mem_filter.mp hindex).1
  omega

/-- A complete group gives up its point on the curve of the groups. -/
theorem Agrees.recover_groupAt (h : Agrees curve encrypted shares)
    (hindex : index ∈ complete shares) :
    (groupAt shares index).recover.outcome = .ok (curve.pointAt index) := by
  obtain ⟨hrepresented, henough⟩ := mem_complete.mp hindex
  obtain ⟨share, hshare, rfl⟩ := mem_represented.mp hrepresented
  obtain ⟨memberCurve, hmembers⟩ := h.hides_member _ hindex
  have hon : ∀ point ∈ (groupAt shares share.groupIndex).members.map Share.point,
      memberCurve.Through point := by
    intro point hpoint
    obtain ⟨member, hmember, rfl⟩ := List.mem_map.mp hpoint
    obtain ⟨hmem, hgroup⟩ := mem_members_groupAt.mp hmember
    exact (hmembers member hmem hgroup).2
  have hrecover := recover_of_hides (hmembers share hshare rfl).1
    share.metadata.memberThreshold.one_le
    (by rw [List.length_map, length_members_groupAt]; exact henough share hshare rfl)
    ((h.consistent.nodup_members_x _).sublist ((List.take_sublist ..).map _)) hon
  rw [outcome_recover, h.consistent.threshold_groupAt hshare, hrecover]
  rfl

theorem outcome_combine_of_agrees (h : Agrees curve encrypted shares) (hshare : share ∈ shares) :
    (combine shares).outcome =
      let needed := share.metadata.groupThreshold.val
      if (represented shares).card < needed then
        .error (.tooFewGroups needed (represented shares).card)
      else if (complete shares).card < needed then
        .error (incompleteFault (groupsOf shares) needed (complete shares).card)
      else .ok encrypted := by
  have hpoints : (completeIndices shares).mapM
      (fun index => (groupAt shares index).recover.outcome) = .ok (groupPoints curve shares) :=
    mapM_eq_ok fun index hindex => h.recover_groupAt (mem_completeIndices.mp hindex)
  rw [outcome_combine_of_consistent h.consistent hshare, recoverVetted,
    outcome_recoverGroups h.consistent, hpoints, ok_bind]
  dsimp only
  split_ifs with hfew hincomplete
  · rfl
  · rfl
  · have hlength : (groupPoints curve shares).length = (complete shares).card := by
      rw [groupPoints, List.length_map, length_completeIndices]
    have hon : ∀ point ∈ groupPoints curve shares, curve.Through point := by
      intro point hpoint
      obtain ⟨index, -, rfl⟩ := List.mem_map.mp hpoint
      exact curve.through_pointAt index
    have hrecover := recover_of_hides (h.hides share hshare) share.metadata.groupThreshold.one_le
      (by rw [hlength]; exact Nat.not_lt.mp hincomplete)
      ((nodup_groupPoints_x curve shares).sublist ((List.take_sublist ..).map _)) hon
    rw [ok_bind, hrecover, ok_bind, EncryptedSecret.ofValue, dif_pos encrypted.supported,
      h.parameters_eq share hshare]

/-- The members of a group that can be recovered lie on a curve that hides its value. -/
theorem Consistent.exists_memberCurve (h : Consistent shares) {point : Point}
    (hindex : index ∈ represented shares)
    (hrecover : (groupAt shares index).recover.outcome = .ok point) :
    UInt8.ofNat index = point.x ∧ ∃ memberCurve : Curve, ∀ share ∈ shares,
      share.groupIndex = index →
        Hides memberCurve share.memberThreshold point.value ∧ memberCurve.Through share.point := by
  obtain ⟨share, hshare, rfl⟩ := mem_represented.mp hindex
  rw [outcome_recover, h.threshold_groupAt hshare] at hrecover
  rcases hvalue : Sharing.recover share.memberThreshold
    ((groupAt shares share.groupIndex).members.map Share.point) with fault | value
  · rw [hvalue] at hrecover
    cases hrecover
  · rw [hvalue] at hrecover
    cases hrecover
    obtain ⟨-, -, -, memberCurve, hhides, hon⟩ := recover_eq_ok_iff.mp hvalue
    refine ⟨rfl, memberCurve, fun other hother hgroup => ⟨?_, hon _ ?_⟩⟩
    · rwa [h.threshold_eq other hother share hshare hgroup]
    · exact List.mem_map_of_mem (mem_members_groupAt.mpr ⟨hother, hgroup⟩)

theorem exists_agrees_of_combine (h : (combine shares).outcome = .ok encrypted) :
    shares ≠ [] ∧
      (∀ share ∈ shares, share.metadata.groupThreshold.val ≤ (complete shares).card) ∧
      ∃ curve, Agrees curve encrypted shares := by
  have hconsistent := consistent_of_combine_eq_ok h
  obtain ⟨first, hfirst⟩ : ∃ first, first ∈ shares := by
    refine List.exists_mem_of_ne_nil _ ?_
    rintro rfl
    cases h
  rw [outcome_combine_of_consistent hconsistent hfirst, recoverVetted] at h
  split_ifs at h with hfew
  obtain ⟨points, hpoints, hrest⟩ := exists_of_bind_eq_ok h
  obtain ⟨value, hvalue, hofValue⟩ := exists_of_bind_eq_ok hrest
  rw [outcome_recoverGroups hconsistent] at hpoints
  obtain ⟨found, hfound, hpoints⟩ := exists_of_bind_eq_ok hpoints
  split_ifs at hpoints with hincomplete
  obtain rfl : found = points := Except.ok.inj hpoints
  obtain ⟨-, -, -, curve, hhides, hon⟩ := recover_eq_ok_iff.mp hvalue
  unfold EncryptedSecret.ofValue at hofValue
  split_ifs at hofValue with hsupported
  cases hofValue
  refine ⟨List.ne_nil_of_mem hfirst, fun share hshare => ?_, curve, hconsistent,
    fun share hshare => ?_, fun share hshare => ?_, fun index hindex => ?_⟩
  · rw [hconsistent.groupThreshold_eq hshare hfirst]
    exact Nat.not_lt.mp hincomplete
  · exact congrArg (·.1) (hconsistent.common_eq share hshare first hfirst)
  · rwa [hconsistent.groupThreshold_eq hshare hfirst]
  · obtain ⟨point, hpoint, hrecover⟩ := exists_of_mem_left (forall₂_of_mapM_eq_ok hfound)
      (mem_completeIndices.mpr hindex)
    obtain ⟨hx, memberCurve, hmembers⟩ :=
      hconsistent.exists_memberCurve (complete_subset_represented shares hindex) hrecover
    refine ⟨memberCurve, fun share hshare hgroup => ?_⟩
    have hthrough : point.value = curve.valueAt point.x := hon point hpoint
    rw [Curve.pointAt, hx, ← hthrough]
    exact hmembers share hshare hgroup

/-- **Combining succeeds if the shares agree and enough groups are complete, and only then.** -/
theorem combine_eq_ok_iff : (combine shares).outcome = .ok encrypted ↔
    (∃ share ∈ shares, share.metadata.groupThreshold.val ≤ (complete shares).card) ∧
      ∃ curve, Agrees curve encrypted shares := by
  constructor
  · intro h
    obtain ⟨hne, henough, hagrees⟩ := exists_agrees_of_combine h
    obtain ⟨first, hfirst⟩ := List.exists_mem_of_ne_nil _ hne
    exact ⟨⟨first, hfirst, henough first hfirst⟩, hagrees⟩
  · rintro ⟨⟨share, hshare, henough⟩, curve, hagrees⟩
    have hrepresented := Finset.card_le_card (complete_subset_represented shares)
    rw [outcome_combine_of_agrees hagrees hshare]
    dsimp only
    rw [if_neg (by omega), if_neg (by omega)]

/-! ### Faults of consistent shares -/

/-- The faults that consistent shares may still have. -/
inductive LateFault : Fault → Prop
  | tooFewGroups (needed got : Nat) : LateFault (.tooFewGroups needed got)
  | tooFewMembers (group needed got : Nat) : LateFault (.tooFewMembers group needed got)
  | digest : LateFault (.set .digest)
  | redundantShare : LateFault (.set .redundantShare)
  | secretLength (length : Nat) : LateFault (.secretLength length)

theorem LateFault.of_recover {fault : Fault}
    (h : fault = .set .digest ∨ fault = .set .redundantShare) : LateFault fault := by
  rcases h with rfl | rfl
  · exact .digest
  · exact .redundantShare

theorem digestLength_le_length (share : Share) : digestLength ≤ share.value.length :=
  Nat.le_trans (by decide) share.le_length

theorem Consistent.fault_of_recover_groupAt (h : Consistent shares) {fault : Fault}
    (hindex : index ∈ complete shares)
    (hfault : (groupAt shares index).recover.outcome = .error fault) :
    fault = .set .digest ∨ fault = .set .redundantShare := by
  obtain ⟨hrepresented, henough⟩ := mem_complete.mp hindex
  obtain ⟨share, hshare, rfl⟩ := mem_represented.mp hrepresented
  have hlength : ∀ point ∈ (groupAt shares share.groupIndex).members.map Share.point,
      point.value.length = share.value.length := by
    intro point hpoint
    obtain ⟨member, hmember, rfl⟩ := List.mem_map.mp hpoint
    exact h.length_value (mem_members_groupAt.mp hmember).1 hshare
  rw [outcome_recover, h.threshold_groupAt hshare] at hfault
  rcases hrecover : Sharing.recover share.memberThreshold
    ((groupAt shares share.groupIndex).members.map Share.point) with other | value
  · rw [hrecover] at hfault
    cases hfault
    refine failsOnly_recover_of_places share.metadata.memberThreshold.one_le ?_
      (h.nodup_members_x _) (digestLength_le_length share) hlength _ hrecover
    rw [List.length_map, length_members_groupAt]
    exact henough share hshare rfl
  · rw [hrecover] at hfault
    cases hfault

/-- The recovered points have different places and values as long as those of the shares. -/
theorem Consistent.places_of_recovered (h : Consistent shares) (hshare : share ∈ shares)
    {points : List Point} (hpoints : (completeIndices shares).mapM
      (fun index => (groupAt shares index).recover.outcome) = .ok points) :
    (points.map (·.x)).Nodup ∧ ∀ point ∈ points, point.value.length = share.value.length := by
  have hrecovered := forall₂_of_mapM_eq_ok hpoints
  have hplaces : ∀ index ∈ completeIndices shares, index ∈ represented shares := fun index hindex =>
    complete_subset_represented shares (mem_completeIndices.mp hindex)
  refine ⟨?_, fun point hpoint => ?_⟩
  · have hx : (completeIndices shares).map UInt8.ofNat = points.map (·.x) := by
      rw [← List.forall₂_eq_eq_eq, List.forall₂_map_left_iff, List.forall₂_map_right_iff]
      have hboth := (List.forall₂_and_left _ _).mpr ⟨hplaces, hrecovered⟩
      exact hboth.imp fun index point hindex => (h.exists_memberCurve hindex.1 hindex.2).1
    rw [← hx]
    refine nodup_map_ofNat (List.nodup_range.filter _) fun index hindex => ?_
    have hlt := lt_of_mem_represented (hplaces index hindex)
    omega
  · obtain ⟨index, hindex, hrecover⟩ := exists_of_mem_right hrecovered hpoint
    obtain ⟨member, hmember, rfl⟩ := mem_represented.mp (hplaces index hindex)
    obtain ⟨-, memberCurve, hmembers⟩ := h.exists_memberCurve (hplaces _ hindex) hrecover
    obtain ⟨hhides, hthrough⟩ := hmembers member hmember rfl
    have hvalue : member.value = memberCurve.valueAt _ := hthrough
    rw [← hhides.length_eq, h.length_value hshare hmember, hvalue, Curve.length_valueAt]

theorem lateFault_incompleteFault (groups : List Group) (needed got : Nat) :
    LateFault (incompleteFault groups needed got) := by
  unfold incompleteFault
  split
  · exact .tooFewMembers ..
  · exact .tooFewGroups ..

/-- Values that are no shorter than those of shares may still have a length that is not supported. -/
theorem fault_of_ofValue {parameters : Parameters} {value : List UInt8} {fault : Fault}
    (hleast : leastLength ≤ value.length)
    (hfault : EncryptedSecret.ofValue parameters value = .error fault) :
    ¬ SupportedLength value.length ∧ fault = .secretLength value.length := by
  unfold EncryptedSecret.ofValue at hfault
  split_ifs at hfault with hsupported
  cases hfault
  rw [lengthFault, if_neg (Nat.not_lt.mpr hleast)]
  exact ⟨hsupported, rfl⟩

/-- **Why consistent shares fail**, in the order in which it is found out. Too few groups are
represented, or too few of them complete; or points do not fit together; or the values are of a
length that no secret has. -/
theorem fault_of_consistent (h : Consistent shares) (hshare : share ∈ shares) {fault : Fault}
    (hfault : (combine shares).outcome = .error fault) :
    ((represented shares).card < share.metadata.groupThreshold.val ∧
        fault = .tooFewGroups share.metadata.groupThreshold.val (represented shares).card) ∨
      ((complete shares).card < share.metadata.groupThreshold.val ∧
        fault = incompleteFault (groupsOf shares) share.metadata.groupThreshold.val
          (complete shares).card) ∨
      (fault = .set .digest ∨ fault = .set .redundantShare) ∨
      (¬ SupportedLength share.value.length ∧ fault = .secretLength share.value.length) := by
  rw [outcome_combine_of_consistent h hshare, recoverVetted, outcome_recoverGroups h] at hfault
  split_ifs at hfault with hfew hincomplete
  · cases hfault
    exact .inl ⟨hfew, rfl⟩
  all_goals
    rcases hpoints : (completeIndices shares).mapM
      (fun index => (groupAt shares index).recover.outcome) with other | points
    · rw [hpoints] at hfault
      cases hfault
      obtain ⟨index, hindex, hother⟩ := exists_of_mapM_eq_error hpoints
      exact .inr (.inr (.inl (h.fault_of_recover_groupAt (mem_completeIndices.mp hindex) hother)))
    rw [hpoints, ok_bind] at hfault
  · cases hfault
    exact .inr (.inl ⟨hincomplete, rfl⟩)
  obtain ⟨hnodup, hlength⟩ := h.places_of_recovered hshare hpoints
  rw [ok_bind] at hfault
  rcases hvalue : Sharing.recover share.metadata.groupThreshold.val points with other | value
  · rw [hvalue] at hfault
    cases hfault
    refine .inr (.inr (.inl (failsOnly_recover_of_places share.metadata.groupThreshold.one_le ?_
      hnodup (digestLength_le_length share) hlength _ hvalue)))
    rw [← (forall₂_of_mapM_eq_ok hpoints).length_eq, length_completeIndices]
    exact Nat.not_lt.mp hincomplete
  · rw [hvalue, ok_bind] at hfault
    obtain ⟨hpos, hle, -⟩ := recover_eq_ok_iff.mp hvalue
    obtain ⟨point, hpoint⟩ := List.exists_mem_of_length_pos (Nat.lt_of_lt_of_le hpos hle)
    have hsame : value.length = share.value.length :=
      (length_of_recover hvalue hpoint).trans (hlength point hpoint)
    have hlate := fault_of_ofValue (hsame ▸ share.le_length) hfault
    rw [hsame] at hlate
    exact .inr (.inr (.inr hlate))

/-- **Consistent shares fail for lack of shares, for their values or for the length of these.** -/
theorem lateFault_of_consistent (h : Consistent shares) (hne : shares ≠ []) {fault : Fault}
    (hfault : (combine shares).outcome = .error fault) : LateFault fault := by
  obtain ⟨share, hshare⟩ := List.exists_mem_of_ne_nil _ hne
  rcases fault_of_consistent h hshare hfault with ⟨-, rfl⟩ | ⟨-, rfl⟩ | hrecover | ⟨-, rfl⟩
  · exact .tooFewGroups ..
  · exact lateFault_incompleteFault ..
  · exact .of_recover hrecover
  · exact .secretLength _

/-! ### Choices of shares -/

section Choices

variable (hchosen : ∀ share ∈ chosen, share ∈ shares) (hnodup : chosen.Nodup)

include hchosen hnodup

theorem Consistent.mono (h : Consistent shares) : Consistent chosen where
  common_eq a ha b hb := h.common_eq a (hchosen a ha) b (hchosen b hb)
  threshold_eq a ha b hb := h.threshold_eq a (hchosen a ha) b (hchosen b hb)
  nodup_place := hnodup.map_on fun a ha b hb hplace =>
    List.inj_on_of_nodup_map h.nodup_place (hchosen a ha) (hchosen b hb) hplace

theorem held_mono (index : Nat) : held chosen index ≤ held shares index :=
  (hnodup.subperm hchosen).countP_le _

theorem complete_mono (h : Consistent shares) : complete chosen ⊆ complete shares := by
  intro index hindex
  obtain ⟨share, hshare, rfl⟩ := mem_represented.mp (complete_subset_represented chosen hindex)
  have henough := ((h.mono hchosen hnodup).mem_complete_iff hshare).mp hindex
  exact (h.mem_complete_iff (hchosen share hshare)).mpr
    (henough.trans (held_mono hchosen hnodup _))

theorem Agrees.mono (h : Agrees curve encrypted shares) : Agrees curve encrypted chosen where
  consistent := h.consistent.mono hchosen hnodup
  parameters_eq share hshare := h.parameters_eq share (hchosen share hshare)
  hides share hshare := h.hides share (hchosen share hshare)
  hides_member index hindex := by
    obtain ⟨memberCurve, hmembers⟩ :=
      h.hides_member index (complete_mono hchosen hnodup h.consistent hindex)
    exact ⟨memberCurve, fun share hshare => hmembers share (hchosen share hshare)⟩

end Choices

/-- Shares that combine to a secret do so in every order. -/
theorem combine_eq_ok_of_perm {reordered : List Share} (hperm : reordered.Perm shares)
    (h : (combine shares).outcome = .ok encrypted) :
    (combine reordered).outcome = .ok encrypted := by
  obtain ⟨⟨share, hshare, henough⟩, curve, hagrees⟩ := combine_eq_ok_iff.mp h
  have hnodup : shares.Nodup := List.Nodup.of_map _ hagrees.consistent.nodup_place
  have hreordered := hagrees.mono (fun _ => hperm.mem_iff.mp) (hperm.nodup_iff.mpr hnodup)
  have hcomplete : complete shares ⊆ complete reordered :=
    complete_mono (fun _ => hperm.mem_iff.mpr) hnodup hreordered.consistent
  refine combine_eq_ok_iff.mpr ⟨⟨share, hperm.mem_iff.mpr hshare, ?_⟩, curve, hreordered⟩
  exact henough.trans (Finset.card_le_card hcomplete)

/-- **The secret depends neither on the order nor on the choice of the shares**, whoever made them.
If shares combine to a secret, so do any different ones of them, in any order, that complete enough
groups. Above all, every order of the shares gives the same secret. -/
theorem combine_selection (shares : List Share) (encrypted : EncryptedSecret)
    (hcombine : (combine shares).outcome = .ok encrypted) :
    (∀ chosen : List Share, (∀ share ∈ chosen, share ∈ shares) → chosen.Nodup →
      (∃ share ∈ shares, share.metadata.groupThreshold.val ≤ (complete chosen).card) →
      (combine chosen).outcome = .ok encrypted) ∧
    ∀ reordered : List Share, reordered.Perm shares →
      (combine reordered).outcome = .ok encrypted := by
  obtain ⟨hne, henough, curve, hagrees⟩ := exists_agrees_of_combine hcombine
  have hselect : ∀ chosen : List Share, (∀ share ∈ chosen, share ∈ shares) → chosen.Nodup →
      (∃ share ∈ shares, share.metadata.groupThreshold.val ≤ (complete chosen).card) →
      (combine chosen).outcome = .ok encrypted := by
    rintro chosen hchosen hnodup ⟨share, hshare, hcomplete⟩
    have hpos := share.metadata.groupThreshold.one_le
    obtain ⟨index, hindex⟩ : (complete chosen).Nonempty := Finset.card_pos.mp (by omega)
    obtain ⟨first, hfirst, -⟩ := mem_represented.mp (mem_complete.mp hindex).1
    rw [hagrees.consistent.groupThreshold_eq hshare (hchosen first hfirst)] at hcomplete
    exact combine_eq_ok_iff.mpr
      ⟨⟨first, hfirst, hcomplete⟩, curve, hagrees.mono hchosen hnodup⟩
  refine ⟨hselect, fun reordered hperm => ?_⟩
  obtain ⟨first, hfirst⟩ := List.exists_mem_of_ne_nil _ hne
  have hnodup : shares.Nodup := List.Nodup.of_map _ hagrees.consistent.nodup_place
  have hcomplete : complete shares ⊆ complete reordered :=
    complete_mono (fun _ => hperm.mem_iff.mpr) hnodup
      (hagrees.consistent.mono (fun _ => hperm.mem_iff.mp) (hperm.nodup_iff.mpr hnodup))
  exact hselect reordered (fun _ => hperm.mem_iff.mp) (hperm.nodup_iff.mpr hnodup)
    ⟨first, hfirst, (henough first hfirst).trans (Finset.card_le_card hcomplete)⟩

/-- A share that no plan deals out: of one group there are several members, although one of them is
enough, and there are groups beyond the number of groups. -/
def strayCopy (groupIndex memberIndex : ShareIndex) : Share where
  metadata := {
    identifier := ⟨7, by decide⟩
    extendable := false
    exponent := default
    groupIndex := groupIndex
    groupThreshold := .one
    groupCount := .one
    memberIndex := memberIndex
    memberThreshold := .one }
  value := List.replicate 16 0x5a
  le_length := by decide
  even_length := by decide

/-- Two copies of group 3 and one of group 9: any of them alone is enough. -/
theorem combine_selection_strayCopy :
    (combine [strayCopy ⟨3, by decide⟩ ⟨5, by decide⟩, strayCopy ⟨9, by decide⟩ ⟨0, by decide⟩,
      strayCopy ⟨3, by decide⟩ ⟨1, by decide⟩]).outcome =
        .ok ⟨⟨⟨7, by decide⟩, false, default⟩, List.replicate 16 0x5a, by decide⟩ ∧
    (combine [strayCopy ⟨3, by decide⟩ ⟨1, by decide⟩]).outcome =
        .ok ⟨⟨⟨7, by decide⟩, false, default⟩, List.replicate 16 0x5a, by decide⟩ := by
  have hcombine : (combine [strayCopy ⟨3, by decide⟩ ⟨5, by decide⟩,
      strayCopy ⟨9, by decide⟩ ⟨0, by decide⟩, strayCopy ⟨3, by decide⟩ ⟨1, by decide⟩]).outcome =
        .ok ⟨⟨⟨7, by decide⟩, false, default⟩, List.replicate 16 0x5a, by decide⟩ := by
    rfl
  refine ⟨hcombine, (combine_selection _ _ hcombine).1 _ (by simp) (by simp) ?_⟩
  exact ⟨_, List.mem_cons_self, by decide⟩

end ShamirBackup.Backup
