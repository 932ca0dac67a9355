import ShamirBackup.Proofs.EntryOrder

/-!
# Entry points that agree

A share can be read as the first one of a recovery or as a further one, and shares can be combined
at once, one by one in a session, or first to an encrypted secret that waits for its passphrase.
These ways share few steps. Reading a further share differs from reading a first one for a share of
another backup alone (`checkNext_agrees`). And where recovering at once succeeds, all other ways
come to the same secret for every passphrase (`recover_agrees`).
-/

namespace ShamirBackup

namespace Recovery

variable {expected : Parameters} {wordCount memberThreshold : Nat} {text : String}
variable {texts : List String} {recovered : Recovered}

/-! ### First shares and further shares -/

/-- The text is made of as many words as announced, and the first two of them are not those of a
share of the backup. -/
def IsForeign (expected : Parameters) (wordCount : Nat) (text : String) : Prop :=
  (wordCount = 20 ∨ wordCount = 33) ∧ ∃ words, Mnemonic.words text = .ok words ∧
    words.length = wordCount ∧ heading words ≠ expected.number

theorem isWordCount_iff : isWordCount wordCount = true ↔ wordCount = 20 ∨ wordCount = 33 := by
  simp [isWordCount]

theorem isForeign_iff : IsForeign expected wordCount text ↔
    ∃ words, readWords wordCount text = .ok words ∧ parametersOf words ≠ expected := by
  simp only [IsForeign, readWords_eq_ok_iff, isWordCount_iff, ne_eq, parametersOf_eq_iff]
  constructor
  · rintro ⟨hcount, words, hread, hlength, hheading⟩
    exact ⟨words, ⟨hcount, hread, hlength⟩, hheading⟩
  · rintro ⟨words, ⟨hcount, hread, hlength⟩, hheading⟩
    exact ⟨hcount, words, hread, hlength, hheading⟩

theorem outcome_checkNext (expected : Parameters) (wordCount : Nat) (text : String) :
    (checkNext expected wordCount text).outcome =
      (readNext expected wordCount text).outcome >>= fun share => .ok share.metadata := by
  rw [checkNext, Traced.outcome_bind]
  rfl

/-- A text of the backup, or one without the right words, is read as a first one is. -/
theorem readNext_of_not_isForeign (h : ¬ IsForeign expected wordCount text) :
    (readNext expected wordCount text).outcome = readFirst wordCount text := by
  rw [outcome_readNext, readFirst]
  rcases hread : readWords wordCount text with fault | words
  · rfl
  · have hexpected : parametersOf words = expected := by
      by_contra hne
      exact h (isForeign_iff.mpr ⟨words, hread, hne⟩)
    rw [ok_bind, ok_bind, if_neg (not_not.mpr hexpected)]

/-- Whatever else is wrong with a foreign share, it is called foreign. -/
theorem readNext_of_isForeign (h : IsForeign expected wordCount text) :
    (readNext expected wordCount text).outcome = .error .foreignShare := by
  obtain ⟨words, hread, hne⟩ := isForeign_iff.mp h
  rw [outcome_readNext, hread, ok_bind, if_pos hne]

/-- **The early check of a further share agrees with reading it as a first one.** It takes the
shares of the backup and tells the same of them. A text whose words are in order but whose first two
spell other parameters is a share of another wallet, even if it is otherwise corrupt. Every other
text has the same fault in both ways. -/
theorem checkNext_agrees (expected : Parameters) (wordCount : Nat) (text : String) :
    (∀ metadata, (checkNext expected wordCount text).outcome = .ok metadata ↔
      checkFirst wordCount text = .ok metadata ∧ metadata.toParameters = expected) ∧
    (IsForeign expected wordCount text →
      (checkNext expected wordCount text).outcome = .error .foreignShare) ∧
    (¬ IsForeign expected wordCount text →
      (checkNext expected wordCount text).outcome = checkFirst wordCount text) := by
  refine ⟨fun metadata => ?_, fun h => ?_, fun h => ?_⟩
  · simp only [outcome_checkNext, checkFirst, bind_eq_ok_iff, readNext_eq_ok_iff]
    constructor
    · rintro ⟨share, ⟨hread, hparameters⟩, hmetadata⟩
      cases hmetadata
      exact ⟨⟨share, hread, rfl⟩, hparameters⟩
    · rintro ⟨⟨share, hread, hmetadata⟩, hparameters⟩
      cases hmetadata
      exact ⟨share, ⟨hread, hparameters⟩, rfl⟩
  · rw [outcome_checkNext, readNext_of_isForeign h, error_bind]
  · rw [outcome_checkNext, readNext_of_not_isForeign h]
    rfl

/-- The last word of a share is replaced, and the share is entered for another backup. -/
theorem checkNext_agrees_corrupt :
    let stray := Backup.strayCopy ⟨3, by decide⟩ ⟨5, by decide⟩
    let text := Mnemonic.ofWords (stray.words.set 19 0)
    let other : Parameters := ⟨⟨8, by decide⟩, false, default⟩
    IsForeign other 20 text ∧ checkFirst 20 text = .error .checksum ∧
      (checkNext other 20 text).outcome = .error .foreignShare ∧
      ¬ IsForeign stray.metadata.toParameters 20 text ∧
      (checkNext stray.metadata.toParameters 20 text).outcome = .error .checksum := by
  intro stray text other
  have hwords : Mnemonic.words text = .ok (stray.words.set 19 0) :=
    Mnemonic.words_of_spells (Mnemonic.spells_ofWords _)
  have hlength : (stray.words.set 19 0).length = 20 := by decide
  have hforeign : IsForeign other 20 text := ⟨.inl rfl, _, hwords, hlength, by decide⟩
  have hown : ¬ IsForeign stray.metadata.toParameters 20 text := by
    rintro ⟨-, words, hread, -, hne⟩
    obtain rfl := Except.ok.inj (hwords.symm.trans hread)
    exact hne (by decide)
  have hchecksum : checkFirst 20 text = .error .checksum := by
    have hread : readWords 20 text = .ok (stray.words.set 19 0) :=
      readWords_eq_ok_iff.mpr ⟨rfl, hwords, hlength⟩
    have hrefused : Share.ofWords (stray.words.set 19 0) = .error .checksum := by decide +kernel
    rw [checkFirst, readFirst, hread, ok_bind, hrefused, error_bind]
  obtain ⟨-, hrefused, -⟩ := checkNext_agrees other 20 text
  obtain ⟨-, -, hsame⟩ := checkNext_agrees stray.metadata.toParameters 20 text
  exact ⟨hforeign, hchecksum, hrefused hforeign, hown, (hsame hown).trans hchecksum⟩

/-! ### Shares at once and one by one -/

theorem recover_eq_ok_iff : (recover memberThreshold wordCount texts).outcome = .ok recovered ↔
    ∃ shares, texts.mapM (readFirst wordCount) = .ok shares ∧
      checkStated memberThreshold shares = .ok () ∧
      (Backup.combine shares).outcome = .ok recovered.encrypted ∧
      recovered.encrypted.decrypt [] = .ok recovered.secret := by
  simp only [recover, Traced.outcome_bind, Traced.outcome_ofExcept, Traced.outcome_lift,
    Traced.outcome_report, ok_bind, bind_eq_ok_iff]
  constructor
  · rintro ⟨shares, hshares, _, hstated, encrypted, hcombine, secret, hdecrypt, hrecovered⟩
    cases hrecovered
    exact ⟨shares, hshares, hstated, hcombine, hdecrypt⟩
  · rintro ⟨shares, hshares, hstated, hcombine, hdecrypt⟩
    exact ⟨shares, hshares, (), hstated, _, hcombine, _, hdecrypt, rfl⟩

/-- What recovering at once goes through: shares of the announced number of words that fit each
other, the encrypted secret of these, and what it decrypts to. -/
theorem exists_shares_of_recover
    (h : (recover memberThreshold wordCount texts).outcome = .ok recovered) :
    ∃ shares, texts.mapM Share.ofMnemonic = .ok shares ∧
      (Session.mk wordCount shares).Sound ∧
      (Backup.combine shares).outcome = .ok recovered.encrypted ∧
      recovered.encrypted.decrypt [] = .ok recovered.secret := by
  obtain ⟨shares, hshares, -, hcombine, hdecrypt⟩ := recover_eq_ok_iff.mp h
  have hreads := forall₂_of_mapM_eq_ok hshares
  simp only [readFirst_eq_ok_iff] at hreads
  have hconsistent := Backup.consistent_of_combine_eq_ok hcombine
  refine ⟨shares, mapM_eq_ok_of_forall₂ (hreads.imp fun _ _ hread => hread.2.1), ?_, hcombine,
    hdecrypt⟩
  have hcount : ∀ share ∈ shares, isWordCount wordCount = true ∧ share.wordCount = wordCount := by
    intro share hshare
    obtain ⟨_, -, hcount, -, hwords⟩ := exists_of_mem_right hreads hshare
    exact ⟨hcount, hwords⟩
  obtain ⟨first, hfirst⟩ : ∃ first, first ∈ shares := by
    refine List.exists_mem_of_ne_nil shares ?_
    rintro rfl
    cases hcombine
  exact ⟨(hcount first hfirst).1, fun share hshare => (hcount share hshare).2,
    hconsistent.common_eq, hconsistent.nodup_place⟩

theorem seed_of_encrypted (encrypted : EncryptedSecret) (passphrase : List UInt8) :
    seed encrypted.parameters encrypted.value passphrase = encrypted.decrypt passphrase := by
  rw [seed, EncryptedSecret.ofValue, dif_pos encrypted.supported]
  rfl

/-- **All ways of recovering agree.** Where recovering at once succeeds, a session takes the texts
one by one, and combining them gives the same secret without a passphrase. For every passphrase,
finishing the session and combining the texts come to the same, and so does the seed of the
encrypted secret, be it a secret or a fault. -/
theorem recover_agrees
    (h : (recover memberThreshold wordCount texts).outcome = .ok recovered) :
    ∃ session final, Session.start wordCount = .ok session ∧
      (session.addAll texts).outcome = .ok final ∧
      (Backup.combineMnemonics texts []).outcome = .ok recovered.secret ∧
      ∀ passphrase,
        final.finish passphrase = Backup.combineMnemonics texts passphrase ∧
        (Backup.combineMnemonics texts passphrase).outcome =
          seed recovered.encrypted.parameters recovered.encrypted.value passphrase := by
  obtain ⟨shares, hshares, hsound, hcombine, hdecrypt⟩ := exists_shares_of_recover h
  have hstart : Session.start wordCount = .ok ⟨wordCount, []⟩ :=
    Session.start_eq_ok_iff.mpr ⟨hsound.isWordCount, rfl⟩
  have hall : ((Session.mk wordCount []).addAll texts).outcome = .ok ⟨wordCount, shares⟩ :=
    (Session.sound_of_start hstart).addAll_eq_ok_iff.mpr ⟨shares, hshares, rfl, hsound⟩
  have hfinish : ∀ passphrase, (Session.mk wordCount shares).finish passphrase =
      Backup.combineMnemonics texts passphrase :=
    Session.finish_eq_combineMnemonics hshares
  have hseed : ∀ passphrase, (Backup.combineMnemonics texts passphrase).outcome =
      recovered.encrypted.decrypt passphrase := by
    intro passphrase
    rw [← hfinish, Session.outcome_finish, hcombine, ok_bind]
  refine ⟨_, _, hstart, hall, (hseed []).trans hdecrypt, fun passphrase => ⟨hfinish passphrase, ?_⟩⟩
  rw [hseed, seed_of_encrypted]

/-- Copies of two groups, of which each alone would do. -/
theorem recover_agrees_strayCopy :
    let a := Backup.strayCopy ⟨3, by decide⟩ ⟨5, by decide⟩
    let b := Backup.strayCopy ⟨9, by decide⟩ ⟨0, by decide⟩
    let texts := [a.mnemonic, b.mnemonic]
    ∃ recovered, (recover 1 20 texts).outcome = .ok recovered ∧
      ∃ final, ((Session.mk 20 []).addAll texts).outcome = .ok final ∧
        (Backup.combineMnemonics texts []).outcome = .ok recovered.secret ∧
        ∀ passphrase, (final.finish passphrase).outcome =
          seed recovered.encrypted.parameters recovered.encrypted.value passphrase := by
  let encrypted : EncryptedSecret :=
    ⟨⟨⟨7, by decide⟩, false, default⟩, List.replicate 16 0x5a, by decide⟩
  have hcombine : (Backup.combine [Backup.strayCopy ⟨3, by decide⟩ ⟨5, by decide⟩,
      Backup.strayCopy ⟨9, by decide⟩ ⟨0, by decide⟩]).outcome = .ok encrypted := by
    rfl
  intro a b texts
  have hread : ∀ share ∈ [a, b], readFirst 20 share.mnemonic = .ok share := by
    intro share hshare
    refine readFirst_eq_ok_iff.mpr ⟨rfl, Share.ofMnemonic_mnemonic ?_, ?_⟩
    · revert share
      decide
    · revert share
      decide
  have hshares : texts.mapM (readFirst 20) = .ok [a, b] :=
    mapM_eq_ok_of_forall₂ (.cons (hread a (by simp)) (.cons (hread b (by simp)) .nil))
  obtain ⟨secret, hsecret⟩ := encrypted.exists_decrypt_eq_ok (List.forall_mem_nil _)
  have hrecover : (recover 1 20 texts).outcome = .ok ⟨encrypted, secret⟩ :=
    recover_eq_ok_iff.mpr ⟨[a, b], hshares, rfl, hcombine, hsecret⟩
  obtain ⟨session, final, hstart, hall, hempty, hagree⟩ := recover_agrees hrecover
  cases hstart
  refine ⟨_, hrecover, final, hall, hempty, fun passphrase => ?_⟩
  obtain ⟨hfinish, hseed⟩ := hagree passphrase
  rw [hfinish, hseed]

end Recovery

end ShamirBackup
