import ShamirBackup.Proofs.Collecting
import ShamirBackup.Proofs.PassphraseCipher

/-!
# The order of entry

A session compares a share with the first one that it has, and reads the first one in another way
than those after it. Still the shares that it takes are just those that make it sound
(`sound_push_iff`), and whether shares make a session sound does not depend on their order. So texts
that are taken in one order are taken in every order, and give the same secret in the end
(`addAll_reordered`).
-/

namespace ShamirBackup

namespace Recovery.Session

variable {session final : Session} {share : Share} {texts : List String}

/-- Takes all of the texts in order, and fails for the first one that is refused. -/
def addAll (session : Session) (texts : List String) : Traced Fault Session :=
  texts.foldlM add session

theorem outcome_addAll_cons (session : Session) (text : String) (texts : List String) :
    (session.addAll (text :: texts)).outcome =
      (session.add text).outcome >>= fun next => (next.addAll texts).outcome := by
  rw [addAll, List.foldlM_cons, Traced.outcome_bind]
  rfl

/-- A session that takes all of the texts is the one that a run ends in. -/
theorem run_of_addAll (h : (session.addAll texts).outcome = .ok final) :
    session.run texts = final := by
  induction texts generalizing session with
  | nil => exact Except.ok.inj h
  | cons text texts ih =>
    rw [outcome_addAll_cons] at h
    obtain ⟨next, hadd, hrest⟩ := exists_of_bind_eq_ok h
    rw [run_cons, enter_of_ok hadd]
    exact ih hrest

/-! ### Sound sessions -/

theorem Sound.of_push (h : (session.push share).Sound) : session.Sound where
  isWordCount := h.isWordCount
  wordCount_eq other hother := h.wordCount_eq other (List.mem_append_left _ hother)
  common_eq a ha b hb :=
    h.common_eq a (List.mem_append_left _ ha) b (List.mem_append_left _ hb)
  nodup_place := by
    have hnodup := h.nodup_place
    rw [Session.push, List.map_append] at hnodup
    exact hnodup.of_append_left

theorem Sound.admits_of_push (h : (session.push share).Sound) : session.Admits share := by
  have hlast : share ∈ (session.push share).shares := by simp [Session.push]
  have hfirst : ∀ first ∈ session.shares.head?, share.common = first.common := by
    intro first hmem
    exact h.common_eq share hlast first (List.mem_append_left _ (List.mem_of_mem_head? hmem))
  refine ⟨h.wordCount_eq share hlast, fun first hmem => ?_, fun first hmem => ?_, ?_⟩
  · exact (Share.common_eq_iff.mp (hfirst first hmem)).1
  · obtain ⟨-, hthreshold, hcount, -⟩ := Share.common_eq_iff.mp (hfirst first hmem)
    exact ⟨hthreshold, hcount⟩
  · have hnodup := h.nodup_place
    rw [Session.push, List.map_append, List.map_singleton, List.nodup_append_comm] at hnodup
    exact (List.nodup_cons.mp hnodup).1

/-- A session admits the shares that leave it sound. -/
theorem sound_push_iff : (session.push share).Sound ↔ session.Sound ∧ session.Admits share :=
  ⟨fun h => ⟨h.of_push, h.admits_of_push⟩, fun h => h.1.push h.2⟩

theorem Sound.of_append {wordCount : Nat} {shares more : List Share}
    (h : (Session.mk wordCount (shares ++ more)).Sound) : (Session.mk wordCount shares).Sound := by
  induction more using List.reverseRecOn with
  | nil => rwa [List.append_nil] at h
  | append_singleton more share ih =>
    have hpush : ((Session.mk wordCount (shares ++ more)).push share).Sound := by
      rwa [← List.append_assoc] at h
    exact ih hpush.of_push

theorem Sound.perm {wordCount : Nat} {shares reordered : List Share}
    (h : (Session.mk wordCount shares).Sound) (hperm : reordered.Perm shares) :
    (Session.mk wordCount reordered).Sound where
  isWordCount := h.isWordCount
  wordCount_eq share hshare := h.wordCount_eq share (hperm.mem_iff.mp hshare)
  common_eq a ha b hb := h.common_eq a (hperm.mem_iff.mp ha) b (hperm.mem_iff.mp hb)
  nodup_place := (hperm.map _).nodup_iff.mpr h.nodup_place

theorem push_append (session : Session) (share : Share) (more : List Share) :
    (session.push share).shares ++ more = session.shares ++ share :: more := by
  rw [push, List.append_assoc, List.singleton_append]

/-- **Texts are all taken if they spell shares that leave the session sound**, and only then. -/
theorem Sound.addAll_eq_ok_iff (h : session.Sound) : (session.addAll texts).outcome = .ok final ↔
    ∃ more, texts.mapM Share.ofMnemonic = .ok more ∧
      final = ⟨session.wordCount, session.shares ++ more⟩ ∧ final.Sound := by
  induction texts generalizing session with
  | nil =>
    constructor
    · intro hfinal
      obtain rfl : session = final := Except.ok.inj hfinal
      exact ⟨[], rfl, by rw [List.append_nil], h⟩
    · rintro ⟨more, hmore, rfl, -⟩
      obtain rfl : [] = more := Except.ok.inj hmore
      rw [List.append_nil]
      rfl
  | cons text texts ih =>
    rw [outcome_addAll_cons, bind_eq_ok_iff]
    constructor
    · rintro ⟨next, hadd, hrest⟩
      obtain ⟨share, hshare, hadmits, rfl⟩ := (add_eq_ok_iff h.isWordCount).mp hadd
      obtain ⟨more, hmore, rfl, hsound⟩ := (ih (h.push hadmits)).mp hrest
      refine ⟨share :: more, ?_, ?_, hsound⟩
      · rw [List.mapM_cons, hshare, hmore]
        rfl
      · rw [push_append]
        rfl
    · rintro ⟨_, hmore, rfl, hsound⟩
      rw [List.mapM_cons] at hmore
      obtain ⟨share, hshare, hmore⟩ := exists_of_bind_eq_ok hmore
      obtain ⟨more, hrest, hmore⟩ := exists_of_bind_eq_ok hmore
      cases hmore
      -- The share is admitted as the session is sound with all of the shares.
      have hpush : (session.push share).Sound := by
        rw [← push_append] at hsound
        exact hsound.of_append
      obtain ⟨-, hadmits⟩ := sound_push_iff.mp hpush
      refine ⟨session.push share, ?_, (ih hpush).mpr ⟨more, hrest, ?_, hsound⟩⟩
      · exact (add_eq_ok_iff h.isWordCount).mpr ⟨share, hshare, hadmits, rfl⟩
      · rw [push_append]
        rfl

/-- Any shares that make a session sound can be typed in if they can be read back. -/
theorem Sound.addAll_mnemonics {wordCount : Nat} {shares : List Share}
    (h : (Session.mk wordCount shares).Sound)
    (hread : ∀ share ∈ shares, share.metadata.groupThreshold.val ≤ share.metadata.groupCount.val) :
    ((Session.mk wordCount []).addAll (shares.map Share.mnemonic)).outcome =
      .ok ⟨wordCount, shares⟩ := by
  have hempty : (Session.mk wordCount []).Sound := ⟨h.isWordCount, by simp, by simp, .nil⟩
  have hshares : (shares.map Share.mnemonic).mapM Share.ofMnemonic = .ok shares := by
    apply mapM_eq_ok_of_forall₂
    rw [List.forall₂_map_left_iff, List.forall₂_same]
    exact fun share hshare => Share.ofMnemonic_mnemonic (hread share hshare)
  exact hempty.addAll_eq_ok_iff.mpr ⟨shares, hshares, rfl, h⟩

/-! ### Other orders -/

/-- **The order of entry does not matter.** If a session takes all of some texts, it takes them in
every other order as well, and whatever the passphrase, it then ends with a secret after one order
if and only if it ends with that secret after the other. -/
theorem addAll_reordered {wordCount : Nat} (hstart : start wordCount = .ok session)
    {reordered : List String} (hperm : reordered.Perm texts)
    (hall : (session.addAll texts).outcome = .ok final) :
    ∃ other, (session.addAll reordered).outcome = .ok other ∧
      ∀ passphrase secret, (final.finish passphrase).outcome = .ok secret ↔
        (other.finish passphrase).outcome = .ok secret := by
  have hempty := sound_of_start hstart
  obtain ⟨shares, hshares, rfl, hsound⟩ := hempty.addAll_eq_ok_iff.mp hall
  obtain ⟨others, hothers, hsame⟩ := exists_mapM_eq_ok_of_perm hperm hshares
  have hsoundOther := hsound.perm (hsame.append_left _)
  refine ⟨_, hempty.addAll_eq_ok_iff.mpr ⟨others, hothers, rfl, hsoundOther⟩, ?_⟩
  intro passphrase secret
  rw [outcome_finish, outcome_finish, bind_eq_ok_iff, bind_eq_ok_iff]
  refine exists_congr fun encrypted => and_congr_left fun _ => ⟨?_, ?_⟩
  · exact Backup.combine_eq_ok_of_perm (hsame.append_left _)
  · exact Backup.combine_eq_ok_of_perm (hsame.append_left _).symm

/-- Copies of two groups are typed in, in both orders. -/
theorem addAll_reordered_strayCopy :
    let a := Backup.strayCopy ⟨3, by decide⟩ ⟨5, by decide⟩
    let b := Backup.strayCopy ⟨9, by decide⟩ ⟨0, by decide⟩
    ∃ session final other secret, start 20 = .ok session ∧
      (session.addAll [a.mnemonic, b.mnemonic]).outcome = .ok final ∧
      (session.addAll [b.mnemonic, a.mnemonic]).outcome = .ok other ∧
      (final.finish []).outcome = .ok secret ∧ (other.finish []).outcome = .ok secret := by
  have hcombine : (Backup.combine [Backup.strayCopy ⟨3, by decide⟩ ⟨5, by decide⟩,
      Backup.strayCopy ⟨9, by decide⟩ ⟨0, by decide⟩]).outcome =
        .ok ⟨⟨⟨7, by decide⟩, false, default⟩, List.replicate 16 0x5a, by decide⟩ := by
    rfl
  intro a b
  have hstart : start 20 = .ok ⟨20, []⟩ := rfl
  have hsound : (Session.mk 20 [a, b]).Sound :=
    ⟨by decide, by decide, by decide, by decide⟩
  have hall : ((Session.mk 20 []).addAll [a.mnemonic, b.mnemonic]).outcome = .ok ⟨20, [a, b]⟩ :=
    hsound.addAll_mnemonics (by decide)
  obtain ⟨other, hother, hsame⟩ := addAll_reordered hstart (.swap a.mnemonic b.mnemonic []) hall
  obtain ⟨secret, hfinish⟩ : ∃ secret,
      ((Session.mk 20 [a, b]).finish []).outcome = .ok secret := by
    rw [outcome_finish, hcombine, ok_bind]
    exact EncryptedSecret.exists_decrypt_eq_ok _ (List.forall_mem_nil _)
  exact ⟨_, _, other, secret, hstart, hall, hother, hfinish, (hsame [] secret).mp hfinish⟩

end Recovery.Session

end ShamirBackup
