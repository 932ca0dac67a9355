import ShamirBackup.Proofs.Collecting
import ShamirBackup.Proofs.PassphraseCipher

/-!
# No digest is cut short

Recovering has no answer where enough points have values too short for a digest
(`Sharing.recover_eq_truncatedDigest_iff`). Combining never asks for one, whatever the shares are.
Their values are long enough by their type, a recovered value is as long as those that it comes from,
and so the points are long at both levels (`Recovers.le_length`). Reading and decrypting do not look
at digests, so nothing that is made of them and of combining comes to a digest that is cut short.
-/

namespace ShamirBackup

/-- The computation does not come to a digest that is cut short. -/
abbrev Intact {α : Type} (outcome : Except Fault α) : Prop :=
  FailsOnly (· ≠ .truncatedDigest) outcome

/-! ### Reading -/

namespace Mnemonic

theorem intact_wordsFrom (position : Nat) (tokens : List String) :
    Intact (wordsFrom position tokens) := by
  induction tokens generalizing position with
  | nil => exact .ok _
  | cons token tokens ih =>
    rw [wordsFrom]
    cases WordList.find? token with
    | none => exact .error (by simp)
    | some word => exact (ih (position + 1)).map _

end Mnemonic

namespace Share

theorem intact_ofRaw (raw : List UInt16) : Intact (ofRaw raw) := by
  rw [ofRaw_eq_bits]
  dsimp only
  split_ifs
  · exact .error (by simp)
  · exact .error (by simp)
  · exact .error (by simp)
  refine .bind ?_ fun metadata _ => .bind ?_ fun value _ => ?_
  · unfold Metadata.ofBits
    dsimp only
    split_ifs
    · exact .ok _
    · exact .error (by simp)
  · unfold valueOfBits
    dsimp only
    split_ifs
    · exact .error (by simp)
    · exact .ok _
  · unfold ofParts
    split_ifs
    · exact .ok _
    · exact .error (by simp)
    · exact .error (by simp)

theorem intact_ofMnemonic (text : String) : Intact (ofMnemonic text) :=
  .bind (Mnemonic.intact_wordsFrom 0 _) fun _ _ => intact_ofRaw _

end Share

namespace Recovery

theorem intact_readWords (wordCount : Nat) (text : String) : Intact (readWords wordCount text) := by
  refine .bind ?_ fun _ _ => .bind (Mnemonic.intact_wordsFrom 0 _) fun words _ => ?_
  · unfold checkWordCount
    split_ifs
    · exact .ok _
    · exact .error (by simp)
  · split_ifs
    · exact .error (by simp)
    · exact .error (by simp)
    · exact .ok _

theorem intact_readFirst (wordCount : Nat) (text : String) : Intact (readFirst wordCount text) :=
  .bind (intact_readWords wordCount text) fun _ _ => Share.intact_ofRaw _

theorem intact_checkStated (memberThreshold : Nat) (shares : List Share) :
    Intact (checkStated memberThreshold shares) := by
  rcases shares with _ | ⟨first, others⟩
  · exact .error (by simp)
  · rw [checkStated]
    split_ifs
    · exact .error (by simp)
    · exact .error (by simp)
    · exact .ok _

end Recovery

theorem EncryptedSecret.intact_decrypt (encrypted : EncryptedSecret) (passphrase : List UInt8) :
    Intact (encrypted.decrypt passphrase) := by
  intro fault hfault
  rw [EncryptedSecret.fault_of_decrypt hfault]
  simp

namespace Backup

variable {shares : List Share} {threshold : Nat} {points : List Point}

/-! ### What combining recovers from -/

/-- Combining the shares may recover from these points with this threshold: they are the members of a
complete group, or the points that the complete groups gave up. -/
inductive Recovers (shares : List Share) : Nat → List Point → Prop
  | group {group : Group} (hgroup : group ∈ groupsOf shares) (hcomplete : group.isComplete = true) :
    Recovers shares group.threshold (group.members.map Share.point)
  | secret {first : Share} (hfirst : shares.head? = some first) {points : List Point}
    (hpoints : (recoverGroups first.metadata.groupThreshold.val (groupsOf shares)).outcome =
      .ok points) :
    Recovers shares first.metadata.groupThreshold.val points

theorem exists_recover_of_recoverGroups {needed : Nat} {groups : List Group}
    (h : (recoverGroups needed groups).outcome = .ok points) {point : Point}
    (hpoint : point ∈ points) : ∃ group ∈ groups, group.recover.outcome = .ok point := by
  unfold recoverGroups at h
  rw [Traced.outcome_bind, Traced.outcome_mapM] at h
  obtain ⟨found, hfound, h⟩ := exists_of_bind_eq_ok h
  split_ifs at h
  · cases h
  · cases h
    obtain ⟨group, hgroup, hrecover⟩ := exists_of_mem_right (forall₂_of_mapM_eq_ok hfound) hpoint
    exact ⟨group, List.mem_of_mem_filter hgroup, hrecover⟩

theorem le_length_of_recover_group {group : Group} {point : Point}
    (h : group.recover.outcome = .ok point) : leastLength ≤ point.value.length := by
  rw [outcome_recover] at h
  rcases hvalue : Sharing.recover group.threshold (group.members.map Share.point) with fault | value
  · rw [hvalue] at h
    cases h
  · rw [hvalue] at h
    cases h
    obtain ⟨hpos, hle, -⟩ := Sharing.recover_eq_ok_iff.mp hvalue
    obtain ⟨_, hmember⟩ := List.exists_mem_of_length_pos (Nat.lt_of_lt_of_le hpos hle)
    obtain ⟨share, -, rfl⟩ := List.mem_map.mp hmember
    -- a threshold of one or more leaves a member to compare with
    have hlength : value.length = share.value.length := Sharing.length_of_recover hvalue hmember
    rw [hlength]
    exact share.le_length

/-- At both levels the values are as long as those of shares. -/
theorem Recovers.le_length (h : Recovers shares threshold points) {point : Point}
    (hpoint : point ∈ points) : leastLength ≤ point.value.length := by
  cases h with
  | group =>
    obtain ⟨share, -, rfl⟩ := List.mem_map.mp hpoint
    exact share.le_length
  | secret _ hpoints =>
    obtain ⟨group, -, hrecover⟩ := exists_recover_of_recoverGroups hpoints hpoint
    exact le_length_of_recover_group hrecover

theorem Recovers.not_cutShort (h : Recovers shares threshold points) :
    ¬ Sharing.CutShort threshold points := by
  intro hcut
  obtain ⟨point, hpoint, hshort⟩ := hcut.exists_short
  have hlong : 16 ≤ point.value.length := h.le_length hpoint
  have hfour : point.value.length < 4 := hshort
  omega

theorem Recovers.intact (h : Recovers shares threshold points) :
    Intact (Sharing.recover threshold points) := by
  rintro fault hfault rfl
  exact h.not_cutShort (Sharing.recover_eq_truncatedDigest_iff.mp hfault)

/-! ### Combining -/

theorem incompleteFault_ne (groups : List Group) (needed got : Nat) :
    incompleteFault groups needed got ≠ .truncatedDigest := by
  unfold incompleteFault
  split
  · simp
  · simp

theorem intact_recoverGroups (needed : Nat) :
    Intact (recoverGroups needed (groupsOf shares)).outcome := by
  unfold recoverGroups
  rw [Traced.outcome_bind, Traced.outcome_mapM]
  refine .bind (.mapM fun group hgroup => ?_) fun points _ => ?_
  · rw [outcome_recover]
    obtain ⟨hmem, hcomplete⟩ := List.mem_filter.mp hgroup
    exact (Recovers.group hmem hcomplete).intact.map _
  · split_ifs
    · exact .error (incompleteFault_ne _ _ _)
    · exact .ok _

theorem intact_checkSameBackup (first : Share) (others : List Share) :
    Intact (checkSameBackup first others).outcome := by
  intro fault hfault
  obtain ⟨flaw, -, rfl⟩ := fault_of_checkSameBackup hfault
  simp

theorem intact_checkMembers (earlier others : List Share) :
    Intact (checkMembers earlier others).outcome := by
  intro fault hfault
  rcases fault_of_checkMembers hfault with rfl | ⟨share, -, rfl⟩
  · simp
  · simp

theorem intact_ofValue (parameters : Parameters) (value : List UInt8) :
    Intact (EncryptedSecret.ofValue parameters value) := by
  unfold EncryptedSecret.ofValue lengthFault
  split_ifs
  · exact .ok _
  · exact .error (by simp)
  · exact .error (by simp)

/-- Combining fails like vetting, like one of the recoveries or for the number of groups or the length
of the secret. -/
theorem intact_combine (shares : List Share) : Intact (combine shares).outcome := by
  rcases shares with _ | ⟨first, others⟩
  · exact .error (by simp)
  rw [outcome_combine_cons]
  refine .bind (intact_checkSameBackup first others) fun _ _ =>
    .bind (intact_checkMembers [] _) fun _ _ => ?_
  unfold recoverVetted
  dsimp only
  split_ifs
  · exact .error (by simp)
  · refine .bind (intact_recoverGroups _) fun points hpoints => ?_
    exact .bind (Recovers.secret rfl hpoints).intact fun value _ => intact_ofValue _ value

theorem intact_combineMnemonics (mnemonics : List String) (passphrase : List UInt8) :
    Intact (combineMnemonics mnemonics passphrase).outcome := by
  unfold combineMnemonics
  split_ifs
  · exact .error (by simp)
  · simp only [Traced.outcome_bind, Traced.outcome_ofExcept, Traced.outcome_lift]
    refine .bind (.mapM fun text _ => Share.intact_ofMnemonic text) fun shares _ => ?_
    exact .bind (intact_combine shares) fun encrypted _ => encrypted.intact_decrypt passphrase

end Backup

namespace Recovery

theorem intact_recover (memberThreshold wordCount : Nat) (mnemonics : List String) :
    Intact (recover memberThreshold wordCount mnemonics).outcome := by
  unfold recover
  simp only [Traced.outcome_bind, Traced.outcome_ofExcept, Traced.outcome_lift,
    Traced.outcome_report, ok_bind]
  refine .bind (.mapM fun text _ => intact_readFirst wordCount text) fun shares _ => ?_
  refine .bind (intact_checkStated memberThreshold shares) fun _ _ => ?_
  refine .bind (Backup.intact_combine shares) fun encrypted _ => ?_
  exact .bind (encrypted.intact_decrypt []) fun _ _ => .ok _

theorem Session.intact_finish (session : Session) (passphrase : List UInt8) :
    Intact (session.finish passphrase).outcome := by
  rw [Session.outcome_finish]
  exact .bind (Backup.intact_combine _) fun encrypted _ => encrypted.intact_decrypt passphrase

end Recovery

/-- **Combining never comes to a digest that is cut short**, though recovering does where enough
points with different places have values of one length below four. Nothing that combining recovers
from is of this kind, at either level, and no list of texts makes it so. -/
theorem combine_ne_truncatedDigest :
    (∀ threshold points, Sharing.recover threshold points = .error .truncatedDigest ↔
      Sharing.CutShort threshold points) ∧
    (∀ shares threshold points, Backup.Recovers shares threshold points →
      ¬ Sharing.CutShort threshold points) ∧
    (∀ shares, (Backup.combine shares).outcome ≠ .error .truncatedDigest) ∧
    (∀ mnemonics passphrase,
      (Backup.combineMnemonics mnemonics passphrase).outcome ≠ .error .truncatedDigest) ∧
    (∀ memberThreshold wordCount mnemonics,
      (Recovery.recover memberThreshold wordCount mnemonics).outcome ≠ .error .truncatedDigest) ∧
    ∀ (session : Recovery.Session) passphrase,
      (session.finish passphrase).outcome ≠ .error .truncatedDigest :=
  ⟨fun _ _ => Sharing.recover_eq_truncatedDigest_iff, fun _ _ _ h => h.not_cutShort,
    fun shares h => Backup.intact_combine shares _ h rfl,
    fun mnemonics passphrase h => Backup.intact_combineMnemonics mnemonics passphrase _ h rfl,
    fun _ _ mnemonics h => Recovery.intact_recover _ _ mnemonics _ h rfl,
    fun session passphrase h => session.intact_finish passphrase _ h rfl⟩

/-- Two members of a group that needs two are not cut short. Two points of one byte each are. -/
theorem combine_ne_truncatedDigest_pair :
    let share (index : ShareIndex) : Share := {
      Backup.strayCopy ⟨3, by decide⟩ index with
      metadata := {
        (Backup.strayCopy ⟨3, by decide⟩ index).metadata with
        memberThreshold := ⟨2, by decide, by decide⟩ } }
    let a := share ⟨0, by decide⟩
    let b := share ⟨1, by decide⟩
    (Backup.Recovers [a, b] 2 [a.point, b.point] ∧ ¬ Sharing.CutShort 2 [a.point, b.point]) ∧
      Sharing.recover 2 [⟨0, [1]⟩, ⟨1, [2]⟩] = .error .truncatedDigest := by
  intro share a b
  have hcall : Backup.Recovers [a, b] 2 [a.point, b.point] := by
    have hgroups : Backup.groupsOf [a, b] = [⟨3, [a, b]⟩] := rfl
    exact .group (hgroups ▸ List.mem_singleton_self _) rfl
  refine ⟨⟨hcall, combine_ne_truncatedDigest.2.1 _ _ _ hcall⟩, ?_⟩
  exact (combine_ne_truncatedDigest.1 2 _).mpr ⟨by decide, by decide, by decide, 1, by decide,
    by decide⟩

end ShamirBackup
