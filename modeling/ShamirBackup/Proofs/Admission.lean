import ShamirBackup.Proofs.EntryOrder

/-!
# What a session vets

A session compares the next share with the shares that it has, and `Session.conflict?` is what it may
hold against it. The shares that it keeps are then consistent but for one thing: whether the members
of a group agree on its threshold is looked at by combining alone. So a session that has shares can
be finished unless some are missing, their values or the passphrase are wrong, or two members of a
group disagree on its threshold (`Session.vetted_of_run`).
-/

namespace ShamirBackup

/-! ### Vetting shares of different members -/

namespace Backup

variable {shares earlier : List Share} {fault : Fault}

/-- Where no member is listed twice, the thresholds are all that the members can differ in. -/
theorem fault_of_checkMembers_of_nodup (hnodup : ((earlier ++ shares).map Share.place).Nodup)
    (h : (checkMembers earlier shares).outcome = .error fault) :
    fault = .set .memberThresholds := by
  induction shares generalizing earlier with
  | nil => cases h
  | cons share shares ih =>
    have hplace : share.place ∉ earlier.map Share.place := by
      rw [List.map_append, List.map_cons, List.nodup_middle, List.nodup_cons] at hnodup
      exact fun hmem => hnodup.1 (List.mem_append_left _ hmem)
    rw [outcome_checkMembers_cons, outcome_checkMember, if_neg hplace] at h
    split_ifs at h
    · exact ih (by rwa [← List.append_cons]) h
    · cases h
      rfl

theorem combine_of_thresholds_differ (hcommon : ∀ a ∈ shares, ∀ b ∈ shares, a.common = b.common)
    (hnodup : (shares.map Share.place).Nodup)
    (hdiffer : ∃ a ∈ shares, ∃ b ∈ shares, a.groupIndex = b.groupIndex ∧
      a.memberThreshold ≠ b.memberThreshold) :
    (combine shares).outcome = .error (.set .memberThresholds) := by
  obtain ⟨a, ha, b, hb, hgroup, hne⟩ := hdiffer
  rcases shares with _ | ⟨first, others⟩
  · cases ha
  have hsame : (checkSameBackup first others).outcome = .ok () := by
    apply checkSameBackup_eq_ok_iff.mpr
    intro other hother
    exact hcommon first (by simp) other (by simp [hother])
  rw [outcome_combine_cons, hsame, ok_bind]
  rcases hmembers : (checkMembers [] (first :: others)).outcome with fault | _
  · rw [fault_of_checkMembers_of_nodup hnodup hmembers]
    rfl
  · have hpairs := pairwise_compatible_iff.mp ((checkMembers_eq_ok_iff .nil).mp hmembers)
    exact absurd (hpairs.1 a ha b hb hgroup) hne

end Backup

/-! ### Texts that spell a share -/

namespace Share

theorem exists_words_of_ofMnemonic {text : String} {share : Share}
    (h : ofMnemonic text = .ok share) : ∃ words, Mnemonic.words text = .ok words ∧
      ofWords words = .ok share ∧ words.length = share.wordCount := by
  obtain ⟨words, hwords, hshare⟩ := exists_of_bind_eq_ok h
  exact ⟨words, hwords, hshare, length_of_ofWords hshare⟩

end Share

namespace Recovery

variable {wordCount : Nat} {text : String} {share : Share} {expected : Parameters}

theorem readWords_of_words (hcount : isWordCount wordCount = true) {words : List Word}
    (hwords : Mnemonic.words text = .ok words) : readWords wordCount text =
      if words.length < wordCount then .error (.tooFewWords words.length wordCount)
      else if wordCount < words.length then .error (.form .surplusWords)
      else .ok words := by
  rw [readWords, checkWordCount_eq_ok_iff.mpr hcount, ok_bind, hwords, ok_bind]
  rfl

/-- The text of a share is refused for nothing but the number of its words. -/
theorem readFirst_of_share (hcount : isWordCount wordCount = true)
    (hshare : Share.ofMnemonic text = .ok share) : readFirst wordCount text =
      if share.wordCount < wordCount then .error (.tooFewWords share.wordCount wordCount)
      else if wordCount < share.wordCount then .error (.form .surplusWords)
      else .ok share := by
  obtain ⟨words, hwords, hread, hlength⟩ := Share.exists_words_of_ofMnemonic hshare
  rw [readFirst, readWords_of_words hcount hwords, hlength]
  split_ifs
  · rfl
  · rfl
  · exact hread

theorem outcome_readNext_of_share (hcount : isWordCount wordCount = true)
    (hshare : Share.ofMnemonic text = .ok share) : (readNext expected wordCount text).outcome =
      if share.wordCount < wordCount then .error (.tooFewWords share.wordCount wordCount)
      else if wordCount < share.wordCount then .error (.form .surplusWords)
      else if share.metadata.toParameters ≠ expected then .error .foreignShare
      else .ok share := by
  obtain ⟨words, hwords, hread, hlength⟩ := Share.exists_words_of_ofMnemonic hshare
  rw [outcome_readNext, readWords_of_words hcount hwords, hlength]
  split_ifs with hfew hmany hforeign
  · rfl
  · rfl
  · rw [ok_bind, Share.parametersOf_of_ofWords hread, if_pos hforeign]
  · rw [ok_bind, Share.parametersOf_of_ofWords hread, if_neg hforeign, hread]

namespace Session

variable {session : Session}

/-- What a session holds against a share, in the order in which it looks: the number of its words,
the parameters of its backup, the groups of these, and its place. -/
def conflict? (session : Session) (share : Share) : Option Fault :=
  if share.wordCount < session.wordCount then
    some (.tooFewWords share.wordCount session.wordCount)
  else if session.wordCount < share.wordCount then some (.form .surplusWords)
  else if ∃ other ∈ session.shares,
      share.metadata.toParameters ≠ other.metadata.toParameters then some .foreignShare
  else if ∃ other ∈ session.shares,
      share.metadata.groupThreshold ≠ other.metadata.groupThreshold ∨
        share.metadata.groupCount ≠ other.metadata.groupCount then some (.set .groupParameters)
  else if share.place ∈ session.shares.map Share.place then
    some (.repeatedMember share.groupIndex share.memberIndex)
  else none

/-- What all shares of a backup have in common may as well be read off the first one. -/
theorem Sound.exists_iff_first {wordCount : Nat} {first : Share} {others : List Share}
    (h : (Session.mk wordCount (first :: others)).Sound) {p : Share → Prop}
    (hp : ∀ a b : Share, a.common = b.common → p a → p b) :
    (∃ other ∈ first :: others, p other) ↔ p first := by
  constructor
  · rintro ⟨other, hother, hholds⟩
    exact hp other first (h.common_eq other hother first (by simp)) hholds
  · intro hholds
    exact ⟨first, by simp, hholds⟩

theorem outcome_check_cons (wordCount : Nat) (first : Share) (others : List Share) (text : String) :
    (check ⟨wordCount, first :: others⟩ text).outcome =
      (readNext first.metadata.toParameters wordCount text).outcome >>= fun share =>
        checkFits ⟨wordCount, first :: others⟩ first.metadata share.metadata >>= fun _ =>
          .ok share.metadata := by
  simp only [check, checkNext, Traced.outcome_bind, Traced.outcome_lift, bind_assoc]
  rfl

/-- The text of a share passes the checks if the session holds nothing against it. -/
theorem Sound.outcome_check_of_share (h : session.Sound) {text : String} {share : Share}
    (hshare : Share.ofMnemonic text = .ok share) :
    (session.check text).outcome =
      (session.conflict? share).elim (.ok share.metadata) .error := by
  rcases session with ⟨wordCount, _ | ⟨first, others⟩⟩
  · rw [check, Traced.outcome_ofExcept, checkFirst, readFirst_of_share h.isWordCount hshare]
    simp only [conflict?, List.not_mem_nil, false_and, exists_false, if_false, List.map_nil]
    split_ifs <;> rfl
  · have hparameters : (∃ other ∈ first :: others,
        share.metadata.toParameters ≠ other.metadata.toParameters) ↔
        share.metadata.toParameters ≠ first.metadata.toParameters := by
      refine h.exists_iff_first fun a b hab => ?_
      rw [(Share.common_eq_iff.mp hab).1]
      exact id
    have hgroups : (∃ other ∈ first :: others,
        share.metadata.groupThreshold ≠ other.metadata.groupThreshold ∨
          share.metadata.groupCount ≠ other.metadata.groupCount) ↔
        share.metadata.groupThreshold ≠ first.metadata.groupThreshold ∨
          share.metadata.groupCount ≠ first.metadata.groupCount := by
      refine h.exists_iff_first fun a b hab => ?_
      obtain ⟨-, hthreshold, hcount, -⟩ := Share.common_eq_iff.mp hab
      rw [hthreshold, hcount]
      exact id
    rw [outcome_check_cons, outcome_readNext_of_share h.isWordCount hshare]
    simp only [conflict?, hparameters, hgroups]
    split_ifs with hfew hmany hforeign hdiffer hplace
    · rfl
    · rfl
    · rfl
    · rw [ok_bind, checkFits_eq, if_pos hdiffer]
      rfl
    · rw [ok_bind, checkFits_eq, if_neg hdiffer, if_pos hplace]
      rfl
    · rw [ok_bind, checkFits_eq, if_neg hdiffer, if_neg hplace]
      rfl

/-- **The text of a share is taken unless the session holds something against it**, and is refused
for just that. -/
theorem Sound.outcome_add_of_share (h : session.Sound) {text : String} {share : Share}
    (hshare : Share.ofMnemonic text = .ok share) :
    (session.add text).outcome =
      (session.conflict? share).elim (.ok (session.push share)) .error := by
  simp only [add, Traced.outcome_bind, Traced.outcome_lift, h.outcome_check_of_share hshare, hshare]
  cases session.conflict? share <;> rfl

/-! ### Finishing -/

/-- But for the passphrase, finishing fails as combining the shares does. -/
theorem finish_eq_error_iff {passphrase : List UInt8} {fault : Fault} (hne : fault ≠ .passphrase) :
    (session.finish passphrase).outcome = .error fault ↔
      (Backup.combine session.shares).outcome = .error fault := by
  rw [outcome_finish]
  rcases (Backup.combine session.shares).outcome with other | encrypted
  · rw [error_bind, Except.error.injEq, Except.error.injEq]
  · rw [ok_bind]
    refine iff_of_false (fun h => ?_) (by simp)
    exact hne (EncryptedSecret.fault_of_decrypt h)

/-- Shares of 20 or 33 words have values of a supported length. -/
theorem Sound.supportedLength (h : session.Sound) {share : Share} (hshare : share ∈ session.shares) :
    SupportedLength share.value.length := by
  have hcount := h.isWordCount
  rw [← h.wordCount_eq share hshare] at hcount
  simp only [Recovery.isWordCount, Bool.or_eq_true, beq_iff_eq, Share.wordCount,
    Share.valueWords] at hcount
  have heven := share.even_length
  unfold SupportedLength leastLength greatestLength
  omega

/-- The shares of a session can only fail to be consistent for their thresholds. -/
theorem Sound.consistent_iff (h : session.Sound) : Backup.Consistent session.shares ↔
    ∀ a ∈ session.shares, ∀ b ∈ session.shares, a.groupIndex = b.groupIndex →
      a.memberThreshold = b.memberThreshold :=
  ⟨fun hconsistent => hconsistent.threshold_eq,
    fun hthreshold => ⟨h.common_eq, hthreshold, h.nodup_place⟩⟩

theorem Sound.not_consistent_iff (h : session.Sound) : ¬ Backup.Consistent session.shares ↔
    ∃ a ∈ session.shares, ∃ b ∈ session.shares, a.groupIndex = b.groupIndex ∧
      a.memberThreshold ≠ b.memberThreshold := by
  rw [h.consistent_iff]
  push Not
  rfl

theorem Sound.combine_of_not_consistent (h : session.Sound)
    (hnot : ¬ Backup.Consistent session.shares) :
    (Backup.combine session.shares).outcome = .error (.set .memberThresholds) :=
  Backup.combine_of_thresholds_differ h.common_eq h.nodup_place (h.not_consistent_iff.mp hnot)

/-- The faults that are left when the shares of a session fit together: something is missing, or the
values or the passphrase are wrong. -/
inductive FinalFault : Fault → Prop
  | tooFewGroups (needed got : Nat) : FinalFault (.tooFewGroups needed got)
  | tooFewMembers (group needed got : Nat) : FinalFault (.tooFewMembers group needed got)
  | digest : FinalFault (.set .digest)
  | redundantShare : FinalFault (.set .redundantShare)
  | passphrase : FinalFault .passphrase

theorem Sound.finalFault_of_consistent (h : session.Sound) (hne : session.shares ≠ [])
    (hconsistent : Backup.Consistent session.shares) {passphrase : List UInt8} {fault : Fault}
    (hfault : (session.finish passphrase).outcome = .error fault) : FinalFault fault := by
  by_cases hpassphrase : fault = .passphrase
  · rw [hpassphrase]
    exact .passphrase
  rw [finish_eq_error_iff hpassphrase] at hfault
  obtain ⟨share, hshare⟩ := List.exists_mem_of_ne_nil _ hne
  rcases Backup.fault_of_consistent hconsistent hshare hfault with
    ⟨-, rfl⟩ | ⟨-, rfl⟩ | hrecover | ⟨hunsupported, -⟩
  · exact .tooFewGroups ..
  · unfold Backup.incompleteFault
    split
    · exact .tooFewMembers ..
    · exact .tooFewGroups ..
  · rcases hrecover with rfl | rfl
    · exact .digest
    · exact .redundantShare
  · exact absurd (h.supportedLength hshare) hunsupported

theorem Sound.finish_eq_memberThresholds_iff (h : session.Sound) (passphrase : List UInt8) :
    (session.finish passphrase).outcome = .error (.set .memberThresholds) ↔
      ∃ a ∈ session.shares, ∃ b ∈ session.shares, a.groupIndex = b.groupIndex ∧
        a.memberThreshold ≠ b.memberThreshold := by
  constructor
  · intro hfault
    apply h.not_consistent_iff.mp
    intro hconsistent
    have hne : session.shares ≠ [] := by
      intro hnil
      rw [outcome_finish, hnil] at hfault
      cases hfault
    cases h.finalFault_of_consistent hne hconsistent hfault
  · intro hdiffer
    rw [finish_eq_error_iff (by simp)]
    exact h.combine_of_not_consistent (h.not_consistent_iff.mpr hdiffer)

/-- **What a session vets.** Whatever is typed in, the next text that spells a share is taken unless
the session holds something against the share, and is refused for just that: the number of its
words, another backup, other groups or a place that is taken. Hence finishing never fails because
the shares do not fit together, with the one exception that two members of a group disagree on its
threshold. What is left are missing shares, wrong values and a passphrase that is not printable. -/
theorem vetted_of_run {wordCount : Nat} (hstart : start wordCount = .ok session)
    (texts : List String) :
    (∀ text share, Share.ofMnemonic text = .ok share →
      ((session.run texts).add text).outcome =
        ((session.run texts).conflict? share).elim (.ok ((session.run texts).push share)) .error) ∧
    ∀ passphrase,
      ((session.run texts).shares ≠ [] → ∀ fault,
        ((session.run texts).finish passphrase).outcome = .error fault →
          FinalFault fault ∨ fault = .set .memberThresholds) ∧
      (((session.run texts).finish passphrase).outcome = .error (.set .memberThresholds) ↔
        ∃ a ∈ (session.run texts).shares, ∃ b ∈ (session.run texts).shares,
          a.groupIndex = b.groupIndex ∧ a.memberThreshold ≠ b.memberThreshold) := by
  have hsound := (sound_of_start hstart).run texts
  refine ⟨fun text share hshare => hsound.outcome_add_of_share hshare, fun passphrase =>
    ⟨fun hne fault hfault => ?_, hsound.finish_eq_memberThresholds_iff passphrase⟩⟩
  by_cases hconsistent : Backup.Consistent (session.run texts).shares
  · exact .inl (hsound.finalFault_of_consistent hne hconsistent hfault)
  · rw [outcome_finish, hsound.combine_of_not_consistent hconsistent] at hfault
    cases hfault
    exact .inr rfl

/-- Copies of two groups are typed in, and then a copy of another backup. -/
theorem vetted_of_run_strayCopy :
    let a := Backup.strayCopy ⟨3, by decide⟩ ⟨5, by decide⟩
    let b := Backup.strayCopy ⟨9, by decide⟩ ⟨0, by decide⟩
    let stranger : Share := { a with metadata := { a.metadata with identifier := ⟨8, by decide⟩ } }
    ∃ session, start 20 = .ok session ∧
      (session.run [a.mnemonic, b.mnemonic]).shares = [a, b] ∧
      ((session.run [a.mnemonic, b.mnemonic]).add stranger.mnemonic).outcome =
        .error .foreignShare ∧
      ∀ passphrase fault,
        ((session.run [a.mnemonic, b.mnemonic]).finish passphrase).outcome = .error fault →
          FinalFault fault := by
  intro a b stranger
  have hstart : start 20 = .ok ⟨20, []⟩ := rfl
  have hsound : (Session.mk 20 [a, b]).Sound :=
    ⟨by decide, by decide, by decide, by decide⟩
  have hrun : (Session.mk 20 []).run [a.mnemonic, b.mnemonic] = ⟨20, [a, b]⟩ :=
    run_of_addAll (hsound.addAll_mnemonics (by decide))
  obtain ⟨hadd, hfinish⟩ := vetted_of_run hstart [a.mnemonic, b.mnemonic]
  rw [hrun] at hadd hfinish
  refine ⟨_, hstart, by rw [hrun], ?_, fun passphrase fault hfault => ?_⟩
  · have hconflict : (Session.mk 20 [a, b]).conflict? stranger = some .foreignShare := by decide
    rw [hrun, hadd _ stranger (Share.ofMnemonic_mnemonic (by decide)), hconflict]
    rfl
  · rw [hrun] at hfault
    obtain ⟨hfaults, hthresholds⟩ := hfinish passphrase
    rcases hfaults (by simp) fault hfault with hfinal | rfl
    · exact hfinal
    · exact absurd (hthresholds.mp hfault) (by decide)

/-- A copy that asks for as many members as it likes. -/
def rivalCopy (groupIndex memberIndex : ShareIndex) (memberThreshold : Threshold) : Share :=
  { Backup.strayCopy groupIndex memberIndex with
    metadata := { (Backup.strayCopy groupIndex memberIndex).metadata with memberThreshold } }

/-- **A conflict that is overlooked.** One member of a group says that two are needed, and another
one that it takes three. Both are taken, and now the session can never be finished. -/
theorem addAll_overlooks_memberThresholds :
    let a := rivalCopy ⟨0, by decide⟩ ⟨0, by decide⟩ ⟨2, by decide, by decide⟩
    let b := rivalCopy ⟨0, by decide⟩ ⟨1, by decide⟩ ⟨3, by decide, by decide⟩
    let texts := [
      "academic disaster academic acid bolt forecast hamster petition muscle forecast hamster " ++
        "petition muscle forecast hamster petition muscle slush employer process",
      "academic disaster academic agree bolt forecast hamster petition muscle forecast hamster " ++
        "petition muscle forecast hamster petition muscle tenant guest tricycle"]
    start 20 = .ok ⟨20, []⟩ ∧
      ((Session.mk 20 []).addAll texts).outcome = .ok ⟨20, [a, b]⟩ ∧
      ∀ passphrase, ((Session.mk 20 [a, b]).finish passphrase).outcome =
        .error (.set .memberThresholds) := by
  intro a b texts
  have hsound : (Session.mk 20 [a, b]).Sound :=
    ⟨by decide, by decide, by decide, by decide⟩
  have htexts : texts = [a, b].map Share.mnemonic := by decide +kernel
  refine ⟨rfl, ?_, fun passphrase => ?_⟩
  · rw [htexts]
    exact hsound.addAll_mnemonics (by decide)
  · exact (hsound.finish_eq_memberThresholds_iff passphrase).mpr (by decide)

end Session

end Recovery

end ShamirBackup
