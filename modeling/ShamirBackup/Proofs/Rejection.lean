import ShamirBackup.Proofs.RoundTrip

/-!
# Shares that are rejected

Shares that cannot belong together are rejected by the vetting, in every order
(`combine_inconsistent`). Shares that look right but have other values than were dealt out pass it.
They are noticed in a group that has more shares than it needs: if enough of its shares are left as
they were, these fix the curve of the group, and an altered one lies off it
(`combine_tampered_of_splitEncrypted`). Neither depends on what the keyed hash computes.
-/

namespace ShamirBackup.Backup

open Sharing

/-! ### Inconsistent shares -/

theorem not_consistent_of_flaw {shares : List Share}
    (hflaw : (∃ a ∈ shares, ∃ b ∈ shares, a.common ≠ b.common) ∨
      (∃ a ∈ shares, ∃ b ∈ shares, a.groupIndex = b.groupIndex ∧
        a.memberThreshold ≠ b.memberThreshold) ∨
      ¬ (shares.map Share.place).Nodup) : ¬ Consistent shares := by
  rintro ⟨hcommon, hthreshold, hnodup⟩
  rcases hflaw with ⟨a, ha, b, hb, hne⟩ | ⟨a, ha, b, hb, hgroup, hne⟩ | hrepeat
  · exact hne (hcommon a ha b hb)
  · exact hne (hthreshold a ha b hb hgroup)
  · exact hrepeat hnodup

section RepeatedMember

variable {shares : List Share} {group member : Nat}
variable (hcommon : ∀ a ∈ shares, ∀ b ∈ shares, a.common = b.common)
variable (hthreshold : ∀ a ∈ shares, ∀ b ∈ shares, a.groupIndex = b.groupIndex →
  a.memberThreshold = b.memberThreshold)

include hcommon hthreshold

theorem not_nodup_of_repeatedMember
    (hfault : (combine shares).outcome = .error (.repeatedMember group member)) :
    ¬ (shares.map Share.place).Nodup := by
  intro hnodup
  have hne : shares ≠ [] := by
    rintro rfl
    cases hfault
  cases lateFault_of_consistent ⟨hcommon, hthreshold, hnodup⟩ hne hfault

theorem exists_repeatedMember_of_not_nodup (hnot : ¬ (shares.map Share.place).Nodup) :
    ∃ before share after, shares = before ++ share :: after ∧ (before.map Share.place).Nodup ∧
      share.place ∈ before.map Share.place ∧
      (combine shares).outcome =
        .error (.repeatedMember share.groupIndex share.memberIndex) := by
  obtain ⟨before, share, after, rfl, hnodup, hmem⟩ :=
    (nodup_or_exists_repeat Share.place shares).resolve_left hnot
  exact ⟨before, share, after, rfl, hnodup, hmem,
    combine_of_repeat hcommon hthreshold hnodup hmem⟩

/-- The fault names the member whose second entry comes first. -/
theorem combine_eq_repeatedMember_iff :
    (combine shares).outcome = .error (.repeatedMember group member) ↔
      ∃ before share after, shares = before ++ share :: after ∧
        (before.map Share.place).Nodup ∧ share.place ∈ before.map Share.place ∧
        share.place = (group, member) := by
  constructor
  · intro hfault
    obtain ⟨before, share, after, hsplit, hnodup, hmem, hrepeat⟩ :=
      exists_repeatedMember_of_not_nodup hcommon hthreshold
        (not_nodup_of_repeatedMember hcommon hthreshold hfault)
    rw [hrepeat] at hfault
    cases hfault
    exact ⟨before, share, after, hsplit, hnodup, hmem, rfl⟩
  · rintro ⟨before, share, after, rfl, hnodup, hmem, hplace⟩
    obtain ⟨rfl, rfl⟩ := Prod.mk.inj hplace
    exact combine_of_repeat hcommon hthreshold hnodup hmem

end RepeatedMember

/-- **Inconsistent shares never pass.** If two shares differ in identifier, flag, exponent, group
threshold, group count or length, or two of one group in its threshold, or a member is listed twice,
the fault is one of vetting. If only members are listed twice, it names the first that is listed
again. -/
theorem combine_inconsistent (shares : List Share) :
    ((∃ a ∈ shares, ∃ b ∈ shares, a.common ≠ b.common) ∨
        (∃ a ∈ shares, ∃ b ∈ shares, a.groupIndex = b.groupIndex ∧
          a.memberThreshold ≠ b.memberThreshold) ∨
        ¬ (shares.map Share.place).Nodup →
      (∃ flaw ∈ vettingFlaws, (combine shares).outcome = .error (.set flaw)) ∨
        ∃ group member, (combine shares).outcome = .error (.repeatedMember group member)) ∧
    ((∀ a ∈ shares, ∀ b ∈ shares, a.common = b.common) →
      (∀ a ∈ shares, ∀ b ∈ shares, a.groupIndex = b.groupIndex →
        a.memberThreshold = b.memberThreshold) →
      ((∃ group member, (combine shares).outcome = .error (.repeatedMember group member)) ↔
        ¬ (shares.map Share.place).Nodup) ∧
      ∀ group member, (combine shares).outcome = .error (.repeatedMember group member) ↔
        ∃ before share after, shares = before ++ share :: after ∧
          (before.map Share.place).Nodup ∧ share.place ∈ before.map Share.place ∧
          share.place = (group, member)) := by
  refine ⟨fun hflaw => ?_, fun hcommon hthreshold => ⟨⟨?_, fun hnot => ?_⟩, fun group member =>
    combine_eq_repeatedMember_iff hcommon hthreshold⟩⟩
  · obtain ⟨fault, hfault, ⟨flaw, hmem, rfl⟩ | ⟨share, -, rfl⟩⟩ :=
      exists_fault_of_not_consistent (not_consistent_of_flaw hflaw)
    · exact .inl ⟨flaw, hmem, hfault⟩
    · exact .inr ⟨_, _, hfault⟩
  · rintro ⟨group, member, hfault⟩
    exact not_nodup_of_repeatedMember hcommon hthreshold hfault
  · obtain ⟨_, share, _, -, -, -, hrepeat⟩ :=
      exists_repeatedMember_of_not_nodup hcommon hthreshold hnot
    exact ⟨share.groupIndex, share.memberIndex, hrepeat⟩

/-- Two members are listed twice, and the fault names the one whose second entry comes first. -/
theorem combine_inconsistent_strayCopy :
    let a := strayCopy ⟨3, by decide⟩ ⟨5, by decide⟩
    let b := strayCopy ⟨9, by decide⟩ ⟨0, by decide⟩
    (∀ x ∈ [a, b, b, a], ∀ y ∈ [a, b, b, a], x.common = y.common) ∧
      (∀ x ∈ [a, b, b, a], ∀ y ∈ [a, b, b, a], x.groupIndex = y.groupIndex →
        x.memberThreshold = y.memberThreshold) ∧
      (combine [a, b, b, a]).outcome = .error (.repeatedMember 9 0) := by
  intro a b
  have hcommon : ∀ x ∈ [a, b, b, a], ∀ y ∈ [a, b, b, a], x.common = y.common := by decide
  have hthreshold : ∀ x ∈ [a, b, b, a], ∀ y ∈ [a, b, b, a], x.groupIndex = y.groupIndex →
      x.memberThreshold = y.memberThreshold := by decide
  refine ⟨hcommon, hthreshold, ?_⟩
  exact (((combine_inconsistent [a, b, b, a]).2 hcommon hthreshold).2 9 0).mpr
    ⟨[a, b], b, [a], rfl, by decide, by decide, rfl⟩

/-! ### Altered shares -/

/-- Other values of the same length stand in some shares of one group. The rest is left alone. -/
structure Tampers (index : Nat) (alter : Share → Share) (shares : List Share) : Prop where
  metadata_eq : ∀ share ∈ shares, (alter share).metadata = share.metadata
  length_eq : ∀ share ∈ shares, (alter share).value.length = share.value.length
  eq_of_ne : ∀ share ∈ shares, share.groupIndex ≠ index → alter share = share

/-- How many of the shares are altered. -/
def altered (alter : Share → Share) (shares : List Share) : Nat :=
  shares.countP fun share => alter share ≠ share

variable {shares : List Share} {share : Share} {index : Nat} {alter : Share → Share}
variable {curve : Curve} {encrypted : EncryptedSecret}

namespace Tampers

variable (h : Tampers index alter shares)

include h

theorem groupIndex_eq (hshare : share ∈ shares) : (alter share).groupIndex = share.groupIndex := by
  rw [Share.groupIndex, Share.groupIndex, h.metadata_eq share hshare]

theorem memberIndex_eq (hshare : share ∈ shares) :
    (alter share).memberIndex = share.memberIndex := by
  rw [Share.memberIndex, Share.memberIndex, h.metadata_eq share hshare]

theorem memberThreshold_eq (hshare : share ∈ shares) :
    (alter share).memberThreshold = share.memberThreshold := by
  rw [Share.memberThreshold, Share.memberThreshold, h.metadata_eq share hshare]

theorem groupIndex_of_changed (hshare : share ∈ shares) (hchanged : alter share ≠ share) :
    share.groupIndex = index := by
  by_contra hother
  exact hchanged (h.eq_of_ne share hshare hother)

theorem common_eq (hshare : share ∈ shares) : (alter share).common = share.common := by
  rw [Share.common, Share.common, h.metadata_eq share hshare, h.length_eq share hshare]

theorem map_place : (shares.map alter).map Share.place = shares.map Share.place := by
  rw [List.map_map]
  refine List.map_congr_left fun share hshare => ?_
  exact congrArg₂ Prod.mk (h.groupIndex_eq hshare) (h.memberIndex_eq hshare)

/-- Altered shares pass the vetting. -/
theorem consistent (hshares : Consistent shares) : Consistent (shares.map alter) where
  common_eq := by
    simp only [List.forall_mem_map]
    intro a ha b hb
    rw [h.common_eq ha, h.common_eq hb, hshares.common_eq a ha b hb]
  threshold_eq := by
    simp only [List.forall_mem_map]
    intro a ha b hb hgroup
    rw [h.groupIndex_eq ha, h.groupIndex_eq hb] at hgroup
    rw [h.memberThreshold_eq ha, h.memberThreshold_eq hb, hshares.threshold_eq a ha b hb hgroup]
  nodup_place := h.map_place ▸ hshares.nodup_place

theorem represented_eq : represented (shares.map alter) = represented shares := by
  have hgroups := congrArg (List.map Prod.fst) h.map_place
  simp only [List.map_map] at hgroups
  rw [represented, List.map_map]
  exact congrArg List.toFinset hgroups

theorem held_eq (other : Nat) : held (shares.map alter) other = held shares other := by
  rw [held, held, List.countP_map]
  refine List.countP_congr fun share hshare => ?_
  simp [h.groupIndex_eq hshare]

theorem complete_eq : complete (shares.map alter) = complete shares := by
  ext other
  rw [mem_complete, mem_complete, h.represented_eq, h.held_eq, List.forall_mem_map]
  refine and_congr_right fun _ => forall₂_congr fun share hshare => ?_
  rw [h.groupIndex_eq hshare, h.memberThreshold_eq hshare]

end Tampers

/-- The shares of a group that are as they were dealt. -/
def kept (alter : Share → Share) (shares : List Share) (index : Nat) : List Share :=
  (groupAt shares index).members.filter fun share => alter share = share

theorem mem_kept : share ∈ kept alter shares index ↔
    (share ∈ shares ∧ share.groupIndex = index) ∧ alter share = share := by
  simp [kept, mem_members_groupAt]

theorem held_le_kept_add_altered (alter : Share → Share) (shares : List Share) (index : Nat) :
    held shares index ≤ (kept alter shares index).length + altered alter shares := by
  have hsplit := List.length_eq_countP_add_countP (fun share => decide (alter share = share))
    (l := (groupAt shares index).members)
  have hsublist : (groupAt shares index).members.Sublist shares := List.filter_sublist
  have haltered := hsublist.countP_le (p := fun share => decide (alter share ≠ share))
  rw [length_members_groupAt, List.countP_eq_length_filter] at hsplit
  simp only [decide_eq_true_eq] at hsplit
  rw [hsplit, kept, altered]
  exact Nat.add_le_add_left haltered _

/-- Two curves below a degree that run through so many shares of one group are one. -/
theorem Consistent.valueAt_eq_of_members (h : Consistent shares) {members : List Share}
    (hmembers : members.Sublist (groupAt shares index).members) {a b : Curve} {degree : Nat}
    (hpos : 1 ≤ degree) (henough : degree ≤ members.length) (ha : a.DegreeLt degree)
    (hb : b.DegreeLt degree) (hona : ∀ member ∈ members, a.Through member.point)
    (honb : ∀ member ∈ members, b.Through member.point) (x : UInt8) :
    a.valueAt x = b.valueAt x := by
  have hlength : degree ≤ (members.map Share.point).length := by rwa [List.length_map]
  refine valueAt_eq_of_through (List.ne_nil_of_length_pos (Nat.lt_of_lt_of_le hpos hlength))
    ((h.nodup_members_x index).sublist ((hmembers.map _).map _)) (ha.mono hlength)
    (hb.mono hlength) ?_ ?_ x
  · rwa [List.forall_mem_map]
  · rwa [List.forall_mem_map]

/-- The shares that are left as they were fix the curve of the group, so an altered one lies off
every curve that the group could be recovered from. -/
theorem Agrees.recover_tampered_ne_ok (h : Agrees curve encrypted shares)
    (htampers : Tampers index alter shares) (hshare : share ∈ shares)
    (hchanged : alter share ≠ share)
    (hfew : altered alter shares + share.memberThreshold ≤ held shares index) (point : Point) :
    (groupAt (shares.map alter) index).recover.outcome ≠ .ok point := by
  intro hok
  obtain rfl := htampers.groupIndex_of_changed hshare hchanged
  have hindex : share.groupIndex ∈ represented shares := mem_represented.mpr ⟨share, hshare, rfl⟩
  have hcomplete : share.groupIndex ∈ complete shares :=
    (h.consistent.mem_complete_iff hshare).mpr (by omega)
  obtain ⟨memberCurve, hmembers⟩ := h.hides_member _ hcomplete
  obtain ⟨-, forged, hforged⟩ := (htampers.consistent h.consistent).exists_memberCurve
    (htampers.represented_eq.symm ▸ hindex) hok
  simp only [List.forall_mem_map] at hforged
  have hforgedShare := hforged share hshare (htampers.groupIndex_eq hshare)
  rw [htampers.memberThreshold_eq hshare] at hforgedShare
  -- Both curves run through the shares that are kept, and these are enough.
  have henough : share.memberThreshold ≤ (kept alter shares share.groupIndex).length := by
    have hkept := held_le_kept_add_altered alter shares share.groupIndex
    omega
  have hsame : ∀ x, forged.valueAt x = memberCurve.valueAt x := by
    refine h.consistent.valueAt_eq_of_members List.filter_sublist
      share.metadata.memberThreshold.one_le henough hforgedShare.1.degreeLt
      (hmembers share hshare rfl).1.degreeLt (fun other hother => ?_) (fun other hother => ?_)
    · obtain ⟨⟨hmem, hgroup⟩, hkept⟩ := mem_kept.mp hother
      have hthrough := (hforged other hmem ((htampers.groupIndex_eq hmem).trans hgroup)).2
      rwa [hkept] at hthrough
    · obtain ⟨⟨hmem, hgroup⟩, -⟩ := mem_kept.mp hother
      exact (hmembers other hmem hgroup).2
  have hvalue : (alter share).value = forged.valueAt (alter share).point.x := hforgedShare.2
  have hdealt : share.value = memberCurve.valueAt share.point.x := (hmembers share hshare rfl).2
  refine hchanged (Share.ext (htampers.metadata_eq share hshare) ?_)
  rw [hvalue, hdealt, hsame, Share.point, Share.point, htampers.memberIndex_eq hshare]

/-- **Altering what is redundant is noticed.** -/
theorem Agrees.combine_tampered (h : Agrees curve encrypted shares)
    (htampers : Tampers index alter shares) (hshare : share ∈ shares)
    (hchanged : alter share ≠ share)
    (hfew : altered alter shares + share.memberThreshold ≤ held shares index)
    (hthere : share.metadata.groupThreshold.val ≤ (represented shares).card) :
    (combine (shares.map alter)).outcome = .error (.set .digest) ∨
      (combine (shares.map alter)).outcome = .error (.set .redundantShare) := by
  have hconsistent := htampers.consistent h.consistent
  obtain rfl := htampers.groupIndex_of_changed hshare hchanged
  have hcomplete : share.groupIndex ∈ complete (shares.map alter) := by
    rw [htampers.complete_eq, h.consistent.mem_complete_iff hshare]
    omega
  have hfewGroups : ¬ (represented (shares.map alter)).card <
      (alter share).metadata.groupThreshold.val := by
    rw [htampers.represented_eq, htampers.metadata_eq share hshare]
    exact Nat.not_lt.mpr hthere
  rw [outcome_combine_of_consistent hconsistent (List.mem_map_of_mem hshare), recoverVetted,
    if_neg hfewGroups, outcome_recoverGroups hconsistent]
  rcases hpoints : (completeIndices (shares.map alter)).mapM
    (fun other => (groupAt (shares.map alter) other).recover.outcome) with fault | points
  · obtain ⟨other, hother, hfault⟩ := exists_of_mapM_eq_error hpoints
    rcases hconsistent.fault_of_recover_groupAt (mem_completeIndices.mp hother) hfault
      with rfl | rfl
    · exact .inl rfl
    · exact .inr rfl
  · obtain ⟨point, -, hok⟩ := exists_of_mem_left (forall₂_of_mapM_eq_ok hpoints)
      (mem_completeIndices.mpr hcomplete)
    exact absurd hok (h.recover_tampered_ne_ok htampers hshare hchanged hfew point)

/-- **Altered shares of an over-complete group are noticed.** Choose different shares of a split
that are of enough groups, and put other values of the same length into some shares of one group. If
as many of its shares are left alone as the group needs, the choice is rejected for a digest or for
a redundant share, in every order. -/
theorem combine_tampered_of_splitEncrypted (plan : Plan) (secret : EncryptedSecret)
    (source : Entropy) :
    ∃ lists : List (List Share), (splitEncrypted plan secret source).1.outcome = .ok lists ∧
      lists.map (·.map Share.place) = plan.places ∧
      ∀ chosen : List Share, (∀ share ∈ chosen, share ∈ lists.flatten) → chosen.Nodup →
        plan.groupThreshold.val ≤ (represented chosen).card →
        ∀ (index : Nat) (group : GroupSpec) (alter : Share → Share),
          plan.groups[index]? = some group → Tampers index alter chosen →
          1 ≤ altered alter chosen →
          altered alter chosen + group.threshold.val ≤ held chosen index →
          (combine (chosen.map alter)).outcome = .error (.set .digest) ∨
            (combine (chosen.map alter)).outcome = .error (.set .redundantShare) := by
  obtain ⟨dealing, lists, hsplit, hlists⟩ := yields_splitEncrypted plan secret source
  refine ⟨lists, hsplit.outcome, hlists.map_place, ?_⟩
  intro chosen hchosen hnodup hthere index group alter hgroup htampers hsome hfew
  have hdeals : ∀ share ∈ chosen, dealing.Deals share := fun share hshare =>
    hlists.deals_of_mem (hchosen share hshare)
  obtain ⟨share, hshare, hchanged⟩ := List.countP_pos_iff.mp hsome
  simp only [ne_eq, decide_not, Bool.not_eq_true', decide_eq_false_iff_not] at hchanged
  obtain rfl := htampers.groupIndex_of_changed hshare hchanged
  refine (agrees_of_deals hdeals hnodup).combine_tampered htampers hshare hchanged ?_ ?_
  · rwa [(hdeals share hshare).memberThreshold_eq hgroup]
  · rwa [(hdeals share hshare).groupThreshold_eq]

/-- Flips the lowest bits of the value of the share at a place. -/
def flipAt (place : Nat × Nat) (share : Share) : Share :=
  if share.place = place then
    { share with
      value := share.value.map (· ^^^ 1)
      le_length := by rw [List.length_map]; exact share.le_length
      even_length := by rw [List.length_map]; exact share.even_length }
  else share

theorem flipAt_eq_iff {place : Nat × Nat} : flipAt place share = share ↔ share.place ≠ place := by
  unfold flipAt
  split_ifs with hplace
  · refine iff_of_false (fun h => ?_) (not_not.mpr hplace)
    have hvalue : share.value.map (· ^^^ 1) = share.value := congrArg Share.value h
    obtain ⟨byte, hbyte⟩ := List.exists_mem_of_length_pos
      (Nat.lt_of_lt_of_le (by decide) share.le_length)
    have hsame : byte ^^^ 1 = byte :=
      List.map_eq_map_iff.mp (hvalue.trans (List.map_id _).symm) byte hbyte
    have hone := congrArg (byte ^^^ ·) hsame
    simp only [← UInt8.xor_assoc, UInt8.xor_self, UInt8.zero_xor] at hone
    exact absurd hone (by decide)
  · simp [hplace]

theorem tampers_flipAt (index member : Nat) (shares : List Share) :
    Tampers index (flipAt (index, member)) shares where
  metadata_eq share _ := by unfold flipAt; split_ifs <;> rfl
  length_eq share _ := by unfold flipAt; split_ifs <;> simp
  eq_of_ne share _ hne := flipAt_eq_iff.mpr fun hplace => hne (congrArg Prod.fst hplace)

/-- Of three members, of whom two are needed, the middle one is altered and listed first. -/
theorem combine_tampered_of_splitEncrypted_twoGroups :
    ∃ a b c d : Share,
      (splitEncrypted twoGroups
        ⟨⟨⟨7, by decide⟩, false, default⟩, List.replicate 16 0x5a, by decide⟩
        (Entropy.ofBytes ⟨#[1, 2, 3]⟩)).1.outcome = .ok [[a, b, c], [d]] ∧
      ((combine ([b, d, a, c].map (flipAt (0, 1)))).outcome = .error (.set .digest) ∨
        (combine ([b, d, a, c].map (flipAt (0, 1)))).outcome = .error (.set .redundantShare)) := by
  obtain ⟨lists, hsplit, hplaces, hnoticed⟩ := combine_tampered_of_splitEncrypted twoGroups
    ⟨⟨⟨7, by decide⟩, false, default⟩, List.replicate 16 0x5a, by decide⟩
    (Entropy.ofBytes ⟨#[1, 2, 3]⟩)
  obtain ⟨a, b, c, d, rfl, ha, hb, hc, hd⟩ := eq_of_map_place_twoGroups hplaces
  have hdifferent : ([b, d, a, c].map Share.place).Nodup := by
    simp only [List.map_cons, List.map_nil, ha, hb, hc, hd]
    decide
  have haltered : altered (flipAt (0, 1)) [b, d, a, c] = 1 := by
    simp only [altered, ne_eq, flipAt_eq_iff, not_not, List.countP_cons, List.countP_nil, ha, hb,
      hc, hd]
    decide
  simp only [Share.place, Prod.mk.injEq] at ha hb hc hd
  have hthere : represented [b, d, a, c] = {1, 0} := by
    simp [represented, ha.1, hb.1, hc.1, hd.1]
  have hheld : held [b, d, a, c] 0 = 3 := by simp [held, ha.1, hb.1, hc.1, hd.1]
  refine ⟨a, b, c, d, hsplit, ?_⟩
  exact hnoticed [b, d, a, c] (by simp) (List.Nodup.of_map _ hdifferent)
    (by rw [hthere]; decide) 0 _ (flipAt (0, 1)) rfl (tampers_flipAt 0 1 _) (by rw [haltered])
    (by rw [haltered, hheld]; decide)

end ShamirBackup.Backup
