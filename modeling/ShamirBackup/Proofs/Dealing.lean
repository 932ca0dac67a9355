import ShamirBackup.Backup.Split
import ShamirBackup.Proofs.Grouping
import ShamirBackup.Proofs.Sharing

/-!
# What a split deals out

Splitting a backup never fails. It draws one curve for the groups and one for the members of each
group (`Dealing`), and hands out the points of these (`yields_splitEncrypted`). `Dealing.Deals` says
of a single share that it is one of those handed out; this is all that combining them depends on.
What a holder of the shares sees of a split, and how many random bytes it costs, is said without the
curves in `splitEncrypted_layout`.
-/

namespace ShamirBackup

open Sharing

/-- The places for which a plan has shares, in order. -/
def Plan.places (plan : Plan) : List (List (Nat × Nat)) :=
  plan.groups.mapIdx fun index group => (List.range group.count.val).map (index, ·)

namespace Backup

variable {plan : Plan} {p : Parameters} {source : Entropy}

/-! ### One group -/

/-- What all shares of one group are marked with. -/
structure Marked (plan : Plan) (p : Parameters) (index : Nat) (group : GroupSpec)
    (share : Share) : Prop where
  parameters_eq : share.metadata.toParameters = p
  groupIndex_eq : share.groupIndex = index
  groupThreshold_eq : share.metadata.groupThreshold = plan.groupThreshold
  groupCount_eq : share.metadata.groupCount = plan.groupCount
  memberThreshold_eq : share.metadata.memberThreshold = group.threshold

/-- The shares of a group: points of a curve that hides the value of the group. -/
structure DealtGroup (plan : Plan) (p : Parameters) (value : List UInt8) (index : Nat)
    (group : GroupSpec) (curve : Curve) (shares : List Share) : Prop where
  hides : Hides curve group.threshold.val value
  points_eq : shares.map Share.point = curve.points group.count.val
  marked : ∀ share ∈ shares, Marked plan p index group share

theorem DealtGroup.length_eq {value : List UInt8} {index : Nat} {group : GroupSpec}
    {curve : Curve} {shares : List Share}
    (h : DealtGroup plan p value index group curve shares) :
    shares.length = group.count.val := by
  simpa [Curve.points] using congrArg List.length h.points_eq

theorem DealtGroup.map_place {value : List UInt8} {index : Nat} {group : GroupSpec}
    {curve : Curve} {shares : List Share}
    (h : DealtGroup plan p value index group curve shares) :
    shares.map Share.place = (List.range group.count.val).map (index, ·) := by
  have hxs := congrArg (List.map fun point => point.x.toNat) h.points_eq
  rw [Curve.points, List.map_map, List.map_map] at hxs
  have hmembers : shares.map Share.memberIndex = List.range group.count.val := by
    refine (List.map_congr_left fun share _ => ?_).trans
      (hxs.trans ((List.map_congr_left fun member hmember => ?_).trans (List.map_id _)))
    · exact (UInt8.toNat_ofNat_of_lt' (Nat.lt_trans share.metadata.memberIndex.val_lt
        (by decide))).symm
    · have hlt := Nat.lt_of_lt_of_le (List.mem_range.mp hmember) group.count.le_sixteen
      exact UInt8.toNat_ofNat_of_lt' (Nat.lt_of_lt_of_le hlt (by decide))
  rw [← hmembers, List.map_map]
  refine List.map_congr_left fun share hshare => ?_
  rw [Share.place, (h.marked share hshare).groupIndex_eq]
  rfl

/-- The members of a group have its shares in order, each of the length of the value. -/
theorem DealtGroup.getElem?_shares {value : List UInt8} {index : Nat} {group : GroupSpec}
    {curve : Curve} {shares : List Share}
    (h : DealtGroup plan p value index group curve shares) {member : Nat} {share : Share}
    (hshare : shares[member]? = some share) :
    share.memberIndex = member ∧ share.value.length = value.length := by
  have hmember : share.point = curve.pointAt member ∧ share.place = (index, member) := by
    have hpoint := congrArg (·[member]?) h.points_eq
    have hplace := congrArg (·[member]?) h.map_place
    have hlt : member < group.count.val := by
      obtain ⟨hlt, -⟩ := List.getElem?_eq_some_iff.mp hshare
      rwa [h.length_eq] at hlt
    simpa [Curve.points, hshare, hlt] using And.intro hpoint hplace
  obtain ⟨hpoint, hplace⟩ := hmember
  refine ⟨congrArg Prod.snd hplace, ?_⟩
  calc share.value.length
      = (curve.pointAt member).value.length := congrArg (·.value.length) hpoint
    _ = curve.length := Curve.length_valueAt ..
    _ = value.length := h.hides.length_eq

/-- The places of the points are read back as indices. -/
theorem ofNat_pointAt_x (curve : Curve) {index : Nat} (hindex : index < 16) :
    ShareIndex.ofNat (curve.pointAt index).x.toNat = .ok ⟨index, hindex⟩ := by
  have hx : (curve.pointAt index).x.toNat = index :=
    UInt8.toNat_ofNat_of_lt' (Nat.lt_trans hindex (by decide))
  simp only [hx, ShareIndex.ofNat, dif_pos hindex]

theorem exists_shareAt_eq_ok {index member : Nat} (hindex : index < 16) (hmember : member < 16)
    (group : GroupSpec) {curve : Curve} (hleast : leastLength ≤ curve.length)
    (heven : curve.length % 2 = 0) :
    ∃ share, shareAt plan p ⟨index, hindex⟩ group (curve.pointAt member) = .ok share ∧
      Marked plan p index group share ∧ share.point = curve.pointAt member := by
  have hlength : (curve.pointAt member).value.length = curve.length := Curve.length_valueAt ..
  rw [← hlength] at hleast heven
  rw [shareAt, ofNat_pointAt_x curve hmember, ok_bind, Share.ofParts, dif_pos hleast, dif_pos heven]
  exact ⟨_, rfl, ⟨rfl, rfl, rfl, rfl, rfl⟩, rfl⟩

theorem yields_splitGroup (plan : Plan) (p : Parameters) (source : Entropy) {index : Nat}
    (hindex : index < 16) (group : GroupSpec) {curve : Curve} (hleast : leastLength ≤ curve.length)
    (heven : curve.length % 2 = 0) :
    ∃ shares, (splitGroup plan p (curve.pointAt index) group).Yields source shares
        (source.skip (Sharing.randomLength group.threshold.val curve.length)) ∧
      ∃ memberCurve,
        DealtGroup plan p (curve.pointAt index).value index group memberCurve shares := by
  have hlength : (curve.pointAt index).value.length = curve.length := Curve.length_valueAt ..
  obtain ⟨memberCurve, hhides, hsplit⟩ := yields_split source group.threshold.one_le
    group.threshold_le_count group.count.le_sixteen (hlength ▸ hleast)
  have hmemberLength : memberCurve.length = curve.length := hhides.length_eq.trans hlength
  have hmembers : ∀ point ∈ memberCurve.points group.count.val, ∃ share,
      shareAt plan p ⟨index, hindex⟩ group point = .ok share ∧
        Marked plan p index group share ∧ share.point = point := by
    intro point hpoint
    obtain ⟨member, hmember, rfl⟩ := List.mem_map.mp hpoint
    have hlt := Nat.lt_of_lt_of_le (List.mem_range.mp hmember) group.count.le_sixteen
    exact exists_shareAt_eq_ok hindex hlt group (hmemberLength ▸ hleast) (hmemberLength ▸ heven)
  obtain ⟨shares, hshares, hpoints⟩ := exists_mapM_eq_ok hmembers
  obtain ⟨hmarked, hsame⟩ := (List.forall₂_and_left _ _).mp hpoints.flip
  rw [hlength] at hsplit
  refine ⟨shares, ?_, memberCurve, hhides, ?_, hmarked⟩
  · have hgroupIndex := ofNat_pointAt_x curve hindex
    exact .bind (.report _) (.bind hsplit (.bind (.ofExcept hgroupIndex) (.ofExcept hshares)))
  · rw [← List.forall₂_eq_eq_eq]
    exact List.forall₂_map_left_iff.mpr hsame

/-! ### All groups -/

/-- The groups from index `start` on are dealt from the values of the curve at their indices. -/
theorem yields_splitGroups (plan : Plan) (p : Parameters) (source : Entropy) (start : Nat)
    (groups : List GroupSpec) (hmax : start + groups.length ≤ 16) {curve : Curve}
    (hleast : leastLength ≤ curve.length)
    (heven : curve.length % 2 = 0) :
    ∃ lists, (splitGroups plan p ((List.range' start groups.length).map curve.pointAt)
          groups).Yields source lists
        (source.skip (groups.map fun group =>
          Sharing.randomLength group.threshold.val curve.length).sum) ∧
      List.Forall₂ (fun entry shares => ∃ memberCurve, DealtGroup plan p
        (curve.pointAt entry.2).value entry.2 entry.1 memberCurve shares)
        (groups.zipIdx start) lists := by
  induction groups generalizing start source with
  | nil => exact ⟨[], .pure _, .nil⟩
  | cons group groups ih =>
    rw [List.length_cons] at hmax
    have hstart : start < 16 := by omega
    obtain ⟨shares, hgroup, hdealt⟩ :=
      yields_splitGroup plan p source hstart group hleast heven
    obtain ⟨lists, hgroups, hrest⟩ :=
      ih (source.skip (Sharing.randomLength group.threshold.val curve.length)) (start + 1)
        (by omega)
    refine ⟨shares :: lists, ?_, .cons hdealt hrest⟩
    rw [List.map_cons, List.sum_cons, ← Entropy.skip_skip, List.length_cons, List.range'_succ,
      List.map_cons]
    exact .bind hgroup (.bind hgroups (.pure _))

/-! ### A whole backup -/

/-- The curves of a split: one for the groups, and one for the members of each group. -/
structure Dealing (plan : Plan) (secret : EncryptedSecret) where
  curve : Curve
  memberCurve : Nat → Curve
  hides : Hides curve plan.groupThreshold.val secret.value
  hides_member : ∀ index group, plan.groups[index]? = some group →
    Hides (memberCurve index) group.threshold.val (curve.pointAt index).value

namespace Dealing

variable {secret : EncryptedSecret} {lists : List (List Share)}

/-- The share is one of those dealt. -/
structure Deals (dealing : Dealing plan secret) (share : Share) : Prop where
  parameters_eq : share.metadata.toParameters = secret.parameters
  groupThreshold_eq : share.metadata.groupThreshold = plan.groupThreshold
  groupCount_eq : share.metadata.groupCount = plan.groupCount
  spec : ∃ group, plan.groups[share.groupIndex]? = some group ∧
    share.metadata.memberThreshold = group.threshold
  through : (dealing.memberCurve share.groupIndex).Through share.point

/-- The lists hold the shares of all groups in order. -/
structure Lists (dealing : Dealing plan secret) (lists : List (List Share)) : Prop where
  length_eq : lists.length = plan.groups.length
  dealt : ∀ index group shares, plan.groups[index]? = some group → lists[index]? = some shares →
    DealtGroup plan secret.parameters (dealing.curve.pointAt index).value index group
      (dealing.memberCurve index) shares

variable {dealing : Dealing plan secret}

theorem Lists.deals_of_mem (h : dealing.Lists lists) {share : Share}
    (hshare : share ∈ lists.flatten) : dealing.Deals share := by
  obtain ⟨shares, hshares, hmem⟩ := List.mem_flatten.mp hshare
  obtain ⟨index, hindex⟩ := List.mem_iff_getElem?.mp hshares
  have hlt : index < plan.groups.length := by
    rw [← h.length_eq]
    exact (List.getElem?_eq_some_iff.mp hindex).1
  have hgroup : plan.groups[index]? = some plan.groups[index] := List.getElem?_eq_getElem hlt
  have hdealt := h.dealt _ _ _ hgroup hindex
  have hmarked := hdealt.marked share hmem
  have hpoint : share.point ∈ (dealing.memberCurve index).points plan.groups[index].count.val := by
    rw [← hdealt.points_eq]
    exact List.mem_map_of_mem hmem
  obtain rfl := hmarked.groupIndex_eq
  exact ⟨hmarked.parameters_eq, hmarked.groupThreshold_eq, hmarked.groupCount_eq,
    ⟨_, hgroup, hmarked.memberThreshold_eq⟩, Curve.through_of_mem_points hpoint⟩

theorem Lists.map_place (h : dealing.Lists lists) :
    lists.map (·.map Share.place) = plan.places := by
  refine List.ext_getElem (by simpa [Plan.places] using h.length_eq) fun index h₁ h₂ => ?_
  have hlist : index < lists.length := by simpa using h₁
  have hgroup : index < plan.groups.length := h.length_eq ▸ hlist
  have hdealt := h.dealt _ _ _ (List.getElem?_eq_getElem hgroup) (List.getElem?_eq_getElem hlist)
  simpa [Plan.places] using hdealt.map_place

end Dealing

/-- The curves of the groups, one for each index. -/
theorem exists_memberCurve {curve : Curve} {groups : List GroupSpec} {lists : List (List Share)}
    (hdealt : List.Forall₂ (fun entry shares => ∃ memberCurve, DealtGroup plan p
      (curve.pointAt entry.2).value entry.2 entry.1 memberCurve shares) groups.zipIdx lists) :
    ∃ memberCurve : Nat → Curve, ∀ index group shares, groups[index]? = some group →
      lists[index]? = some shares →
        DealtGroup plan p (curve.pointAt index).value index group (memberCurve index) shares := by
  have hcurves : ∀ index, ∃ memberCurve, ∀ group shares, groups[index]? = some group →
      lists[index]? = some shares →
        DealtGroup plan p (curve.pointAt index).value index group memberCurve shares := by
    intro index
    rcases hgroup : groups[index]? with _ | group
    · exact ⟨[], fun group shares h => by cases h⟩
    · obtain ⟨hlength, hget⟩ := List.forall₂_iff_get.mp hdealt
      obtain ⟨hindex, rfl⟩ := List.getElem?_eq_some_iff.mp hgroup
      have hentry : index < groups.zipIdx.length := by simpa using hindex
      obtain ⟨memberCurve, hmember⟩ := hget index hentry (hlength ▸ hentry)
      refine ⟨memberCurve, fun group shares h hshares => ?_⟩
      obtain rfl := Option.some.inj h
      obtain ⟨-, rfl⟩ := List.getElem?_eq_some_iff.mp hshares
      simpa using hmember
  choose memberCurve hmember using hcurves
  exact ⟨memberCurve, hmember⟩

/-- **Splitting never fails** and deals points of curves that hide the secret. -/
theorem yields_splitEncrypted (plan : Plan) (secret : EncryptedSecret) (source : Entropy) :
    ∃ (dealing : Dealing plan secret) (lists : List (List Share)),
      (splitEncrypted plan secret).Yields source lists
        (source.skip (randomLength plan secret.value.length)) ∧ dealing.Lists lists := by
  obtain ⟨hleast, -, heven⟩ := secret.supported
  obtain ⟨curve, hhides, hsplit⟩ := yields_split source plan.groupThreshold.one_le
    plan.threshold_le_length plan.length_le hleast
  rw [← hhides.length_eq] at hleast heven hsplit
  obtain ⟨lists, hgroups, hdealt⟩ := yields_splitGroups plan secret.parameters
    (source.skip (Sharing.randomLength plan.groupThreshold.val curve.length)) 0 plan.groups
    (by rw [Nat.zero_add]; exact plan.length_le) hleast heven
  have hlength : lists.length = plan.groups.length := by simpa using hdealt.length_eq.symm
  obtain ⟨memberCurve, hmember⟩ := exists_memberCurve hdealt
  refine ⟨⟨curve, memberCurve, hhides, fun index group hgroup => ?_⟩, lists, ?_, hlength, hmember⟩
  · obtain ⟨hindex, -⟩ := List.getElem?_eq_some_iff.mp hgroup
    have hshares := List.getElem?_eq_getElem (hlength.symm ▸ hindex)
    exact (hmember index group _ hgroup hshares).hides
  · rw [← hhides.length_eq, randomLength, ← Entropy.skip_skip]
    rw [← List.range_eq_range'] at hgroups
    exact .bind (.report _) (.bind hsplit (.bind hgroups (.bind (.report _) (.pure _))))

/-- **What a split deals out and draws.** There is one list for each group and one share for each
member, all in order, and every share bears its place, the thresholds and counts of the plan and the
parameters of the secret. A threshold of one draws nothing. Any other draws, for each member below
it, a block as long as the secret, but for the four bytes that the digest takes in the last one. -/
theorem splitEncrypted_layout (plan : Plan) (secret : EncryptedSecret) (source : Entropy) :
    let length := secret.value.length
    let drawn (threshold : Threshold) :=
      if threshold.val = 1 then 0 else (threshold.val - 1) * length - 4
    ∃ lists : List (List Share),
      (splitEncrypted plan secret source).1.outcome = .ok lists ∧
      (splitEncrypted plan secret source).2 = source.skip
        (drawn plan.groupThreshold + (plan.groups.map fun group => drawn group.threshold).sum) ∧
      lists.length = plan.groups.length ∧
      ∀ (index : Nat) (group : GroupSpec), plan.groups[index]? = some group →
        ∃ shares : List Share, lists[index]? = some shares ∧ shares.length = group.count.val ∧
        ∀ (member : Nat) (share : Share), shares[member]? = some share →
          share.metadata.toParameters = secret.parameters ∧
          share.groupIndex = index ∧ share.memberIndex = member ∧
          share.metadata.groupThreshold = plan.groupThreshold ∧
          share.metadata.groupCount.val = plan.groups.length ∧
          share.metadata.memberThreshold = group.threshold ∧
          share.value.length = length := by
  intro length drawn
  obtain ⟨dealing, lists, hyields, hlists⟩ := yields_splitEncrypted plan secret source
  refine ⟨lists, hyields.outcome, hyields.remains, hlists.length_eq, fun index group hgroup => ?_⟩
  obtain ⟨hindex, -⟩ := List.getElem?_eq_some_iff.mp hgroup
  have hshares := List.getElem?_eq_getElem (hlists.length_eq.symm ▸ hindex)
  have hdealt := hlists.dealt index group _ hgroup hshares
  refine ⟨_, hshares, hdealt.length_eq, fun member share hshare => ?_⟩
  have hmarked := hdealt.marked share (List.mem_of_getElem? hshare)
  obtain ⟨hmember, hvalue⟩ := hdealt.getElem?_shares hshare
  have hlength : (dealing.curve.pointAt index).value.length = length :=
    (Curve.length_valueAt ..).trans dealing.hides.length_eq
  exact ⟨hmarked.parameters_eq, hmarked.groupIndex_eq, hmember, hmarked.groupThreshold_eq,
    congrArg ShareCount.val hmarked.groupCount_eq, hmarked.memberThreshold_eq,
    hvalue.trans hlength⟩

end Backup

end ShamirBackup
