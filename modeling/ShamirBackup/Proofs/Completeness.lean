import ShamirBackup.Proofs.Admission

/-!
# Sessions that are complete

A session says that it is complete when it has as many shares as its first one asks for and a single
group is enough. Finishing counts the members of each group instead. The two agree where all shares
are of one group. Otherwise no group may have all the members that it needs, although the shares
together are many enough, and then a complete session cannot be finished
(`Session.shortage_of_isComplete`).
-/

namespace ShamirBackup

/-! ### No complete group -/

namespace Backup

variable {shares : List Share} {share : Share}

/-- The shares fit together, but each of their groups lacks members. The first group is `group`, of
which `got` members are there and `needed` must be. -/
structure AllIncomplete (shares : List Share) (group needed got : Nat) : Prop where
  consistent : Consistent shares
  complete_eq : complete shares = ∅
  isLeast : IsLeast (represented shares : Set Nat) group
  needed_eq : ∃ share ∈ shares, share.groupIndex = group ∧ share.memberThreshold = needed
  got_eq : held shares group = got

theorem one_le_card_represented (hshare : share ∈ shares) : 1 ≤ (represented shares).card :=
  Finset.card_pos.mpr ⟨_, mem_represented.mpr ⟨share, hshare, rfl⟩⟩

theorem Consistent.exists_allIncomplete (h : Consistent shares) (hshare : share ∈ shares)
    (hnone : complete shares = ∅) : ∃ group needed got, AllIncomplete shares group needed got := by
  have hleast := (represented shares).isLeast_min' (Finset.card_pos.mp (one_le_card_represented hshare))
  obtain ⟨first, hfirst, hgroup⟩ := mem_represented.mp (Finset.mem_coe.mp hleast.1)
  exact ⟨_, _, _, h, hnone, hleast, ⟨first, hfirst, hgroup, rfl⟩, rfl⟩

theorem AllIncomplete.incompleteFault_eq {group needed got : Nat}
    (h : AllIncomplete shares group needed got) (groupThreshold count : Nat) :
    incompleteFault (groupsOf shares) groupThreshold count = .tooFewMembers group needed got := by
  obtain ⟨hconsistent, hnone, hleast, ⟨share, hshare, rfl, rfl⟩, rfl⟩ := h
  apply hconsistent.incompleteFault_eq hshare
  rwa [hnone, Finset.coe_empty, Set.sdiff_empty]

/-- Where one group is enough, the members that are missing are those of the first group. -/
theorem AllIncomplete.outcome_combine {group needed got : Nat}
    (h : AllIncomplete shares group needed got) (hshare : share ∈ shares)
    (hone : share.metadata.groupThreshold.val = 1) :
    (combine shares).outcome = .error (.tooFewMembers group needed got) := by
  have hindices : completeIndices shares = [] := by
    apply List.eq_nil_of_length_eq_zero
    rw [length_completeIndices, h.complete_eq, Finset.card_empty]
  have hrepresented := one_le_card_represented hshare
  rw [outcome_combine_of_consistent h.consistent hshare, recoverVetted, hone,
    if_neg (by omega), outcome_recoverGroups h.consistent, hindices, List.mapM_nil,
    h.complete_eq, h.incompleteFault_eq]
  rfl

/-- Where one group is enough and one is complete, no share is missing. -/
theorem Consistent.fault_of_complete (h : Consistent shares) (hshare : share ∈ shares)
    (hone : share.metadata.groupThreshold.val = 1) (hcomplete : (complete shares).Nonempty)
    (hlength : SupportedLength share.value.length) {fault : Fault}
    (hfault : (combine shares).outcome = .error fault) :
    fault = .set .digest ∨ fault = .set .redundantShare := by
  have hpos := Finset.card_pos.mpr hcomplete
  have hle := Finset.card_le_card (complete_subset_represented shares)
  rcases fault_of_consistent h hshare hfault with
    ⟨hfew, -⟩ | ⟨hfew, -⟩ | hrecover | ⟨hunsupported, -⟩
  · omega
  · omega
  · exact hrecover
  · exact absurd hlength hunsupported

theorem Consistent.complete_nonempty (h : Consistent shares) (hshare : share ∈ shares)
    (henough : share.memberThreshold ≤ shares.length)
    (hgroup : ∀ other ∈ shares, other.groupIndex = share.groupIndex) :
    (complete shares).Nonempty := by
  have hheld : held shares share.groupIndex = shares.length := by
    rw [held, List.countP_eq_length]
    simpa using hgroup
  exact ⟨share.groupIndex, (h.mem_complete_iff hshare).mpr (hheld ▸ henough)⟩

end Backup

/-! ### Complete sessions -/

namespace Recovery.Session

variable {session : Session}

theorem exists_first_of_isComplete (h : session.isComplete = true) :
    ∃ first ∈ session.shares, first.memberThreshold ≤ session.shares.length ∧
      first.metadata.groupThreshold.val = 1 := by
  unfold isComplete at h
  split at h
  · cases h
  · next first others hshares =>
    rw [Bool.and_eq_true, decide_eq_true_iff, beq_iff_eq] at h
    exact ⟨first, by simp [hshares], h.1, h.2⟩

/-- A complete session fails for want of shares only if none of its groups is complete. -/
theorem Sound.fault_of_isComplete (h : session.Sound) (hcomplete : session.isComplete = true)
    {fault : Fault} (hfault : (Backup.combine session.shares).outcome = .error fault) :
    (∃ group needed got, Backup.AllIncomplete session.shares group needed got ∧
      fault = .tooFewMembers group needed got) ∨
    fault ∈ [.set .memberThresholds, .set .digest, .set .redundantShare] := by
  obtain ⟨first, hfirst, -, hone⟩ := exists_first_of_isComplete hcomplete
  by_cases hconsistent : Backup.Consistent session.shares
  · by_cases hnone : Backup.complete session.shares = ∅
    · obtain ⟨group, needed, got, hall⟩ := hconsistent.exists_allIncomplete hfirst hnone
      rw [hall.outcome_combine hfirst hone] at hfault
      cases hfault
      exact .inl ⟨group, needed, got, hall, rfl⟩
    · right
      have hnonempty := Finset.nonempty_iff_ne_empty.mpr hnone
      have hlength := h.supportedLength hfirst
      rcases hconsistent.fault_of_complete hfirst hone hnonempty hlength hfault with rfl | rfl
      · simp
      · simp
  · right
    rw [h.combine_of_not_consistent hconsistent] at hfault
    cases hfault
    simp

theorem Sound.finish_ne_tooFewGroups (h : session.Sound) (hcomplete : session.isComplete = true)
    (passphrase : List UInt8) (needed got : Nat) :
    (session.finish passphrase).outcome ≠ .error (.tooFewGroups needed got) := by
  intro hfault
  rw [finish_eq_error_iff (by simp)] at hfault
  rcases h.fault_of_isComplete hcomplete hfault with ⟨_, _, _, -, hother⟩ | hother
  · cases hother
  · simp at hother

theorem Sound.finish_eq_tooFewMembers_iff (h : session.Sound)
    (hcomplete : session.isComplete = true) (passphrase : List UInt8) {group needed got : Nat} :
    (session.finish passphrase).outcome = .error (.tooFewMembers group needed got) ↔
      Backup.AllIncomplete session.shares group needed got := by
  rw [finish_eq_error_iff (by simp)]
  constructor
  · intro hfault
    rcases h.fault_of_isComplete hcomplete hfault with ⟨_, _, _, hall, hother⟩ | hother
    · cases hother
      exact hall
    · simp at hother
  · intro hall
    obtain ⟨first, hfirst, -, hone⟩ := exists_first_of_isComplete hcomplete
    exact hall.outcome_combine hfirst hone

/-- **What a complete session lacks.** Whatever is typed in, a session that says that it is complete
never lacks groups. It lacks members if and only if none of its groups has as many as it needs, and
then finishing names the first group. With shares of one group this cannot be. -/
theorem shortage_of_isComplete {wordCount : Nat} (hstart : start wordCount = .ok session)
    (texts : List String) (hcomplete : (session.run texts).isComplete = true)
    (passphrase : List UInt8) :
    (∀ needed got, ((session.run texts).finish passphrase).outcome ≠
      .error (.tooFewGroups needed got)) ∧
    (∀ group needed got, ((session.run texts).finish passphrase).outcome =
        .error (.tooFewMembers group needed got) ↔
      Backup.AllIncomplete (session.run texts).shares group needed got) ∧
    ((∀ a ∈ (session.run texts).shares, ∀ b ∈ (session.run texts).shares,
        a.groupIndex = b.groupIndex) →
      ∀ group needed got, ((session.run texts).finish passphrase).outcome ≠
        .error (.tooFewMembers group needed got)) := by
  have hsound := (sound_of_start hstart).run texts
  refine ⟨hsound.finish_ne_tooFewGroups hcomplete passphrase,
    fun _ _ _ => hsound.finish_eq_tooFewMembers_iff hcomplete passphrase, ?_⟩
  intro hgroup group needed got hfault
  have hall := (hsound.finish_eq_tooFewMembers_iff hcomplete passphrase).mp hfault
  obtain ⟨first, hfirst, henough, -⟩ := exists_first_of_isComplete hcomplete
  obtain ⟨index, hindex⟩ := hall.consistent.complete_nonempty hfirst henough
    fun other hother => hgroup other hother first hfirst
  rw [hall.complete_eq] at hindex
  cases hindex

/-- Two members of a group that asks for two. -/
theorem shortage_of_isComplete_rivalCopy :
    let a := rivalCopy ⟨0, by decide⟩ ⟨0, by decide⟩ ⟨2, by decide, by decide⟩
    let b := rivalCopy ⟨0, by decide⟩ ⟨1, by decide⟩ ⟨2, by decide, by decide⟩
    ∃ session, start 20 = .ok session ∧
      (session.run [a.mnemonic, b.mnemonic]).isComplete = true ∧
      ∀ passphrase group needed got,
        ((session.run [a.mnemonic, b.mnemonic]).finish passphrase).outcome ≠
          .error (.tooFewMembers group needed got) := by
  intro a b
  have hstart : start 20 = .ok ⟨20, []⟩ := rfl
  have hsound : (Session.mk 20 [a, b]).Sound :=
    ⟨by decide, by decide, by decide, by decide⟩
  have hrun : (Session.mk 20 []).run [a.mnemonic, b.mnemonic] = ⟨20, [a, b]⟩ :=
    run_of_addAll (hsound.addAll_mnemonics (by decide))
  have hcomplete : ((Session.mk 20 []).run [a.mnemonic, b.mnemonic]).isComplete = true := by
    rw [hrun]
    rfl
  refine ⟨_, hstart, hcomplete, fun passphrase => ?_⟩
  apply (shortage_of_isComplete hstart _ hcomplete passphrase).2.2
  rw [hrun]
  decide

/-- A share of a backup of several groups, any of which is enough. -/
def twin (groupCount : ShareCount) (memberThreshold : Threshold)
    (groupIndex memberIndex : ShareIndex) (value : List UInt8) (hlength : value.length = 16) :
    Share where
  metadata := {
    identifier := ⟨258, by decide⟩
    extendable := false
    exponent := default
    groupIndex := groupIndex
    groupThreshold := .one
    groupCount := groupCount
    memberIndex := memberIndex
    memberThreshold := memberThreshold }
  value := value
  le_length := by rw [hlength]; decide
  even_length := by rw [hlength]

/-- **A complete session that lacks a share.** Two shares of one backup are typed in, as many as the
first one asks for, but of different groups. -/
theorem isComplete_of_strayTwin :
    let member := twin ⟨2, by decide, by decide⟩ ⟨2, by decide, by decide⟩
    let first := member ⟨0, by decide⟩ ⟨0, by decide⟩ [0x16, 0xe4, 0xc1, 0xe3, 0x8b, 0x16, 0xdd,
      0xfc, 0xba, 0x08, 0x4b, 0x6d, 0xc0, 0x70, 0x89, 0x89] rfl
    let stray := member ⟨1, by decide⟩ ⟨0, by decide⟩ [0xb4, 0x39, 0x5e, 0xb3, 0x5a, 0x22, 0x0c,
      0xfc, 0x6b, 0xd9, 0x4b, 0x88, 0x11, 0x70, 0x89, 0x6c] rfl
    let texts := [
      "adequate away academic echo airport thumb already disease scout sympathy velvet pancake " ++
        "belong holy adapt amazing gesture darkness main adorn",
      "adequate away away echo cultural display junior detect luxury arena valuable review fancy " ++
        "lunch empty amazing fortune closet grownup syndrome"]
    let session : Session := ⟨20, [first, stray]⟩
    start 20 = .ok ⟨20, []⟩ ∧ ((Session.mk 20 []).addAll texts).outcome = .ok session ∧
      session.isComplete = true ∧
      ∀ passphrase, (session.finish passphrase).outcome = .error (.tooFewMembers 0 2 1) := by
  intro member first stray texts session
  have hsound : session.Sound := ⟨by decide, by decide, by decide, by decide⟩
  have htexts : texts = [first, stray].map Share.mnemonic := by decide +kernel
  have hleast : IsLeast (Backup.represented session.shares : Set Nat) 0 :=
    ⟨Finset.mem_coe.mpr (by decide), fun _ _ => Nat.zero_le _⟩
  have hall : Backup.AllIncomplete session.shares 0 2 1 :=
    ⟨hsound.consistent_iff.mpr (by decide), by decide, hleast,
      ⟨first, by simp [session], rfl, rfl⟩, by decide⟩
  refine ⟨rfl, ?_, rfl, fun passphrase => ?_⟩
  · rw [htexts]
    exact hsound.addAll_mnemonics (by decide)
  · exact (hsound.finish_eq_tooFewMembers_iff rfl passphrase).mpr hall

end Recovery.Session

end ShamirBackup
