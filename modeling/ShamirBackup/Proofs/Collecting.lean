import ShamirBackup.Proofs.Agreement
import ShamirBackup.Proofs.Heading
import ShamirBackup.Recovery.Session

/-!
# Collecting shares

A text is read up to three times before a session keeps its share: as words of the announced number,
as the parameters in the first two words, and as a share. The readings agree, so a text is taken
exactly when it is the mnemonic of a share that the session admits (`Session.add_eq_ok_iff`). What a
run of a session keeps is then the decodings of the texts it took, and finishing it is to combine
these texts at once.
-/

namespace ShamirBackup

/-! ### Readings of one text -/

namespace Share

variable {share : Share} {words : List Word}

theorem length_of_ofWords (h : ofWords words = .ok share) : words.length = share.wordCount := by
  simpa using (congrArg List.length (words_of_ofRaw h)).symm

/-- Words announce the parameters of the share that they are read as. -/
theorem parametersOf_of_ofWords (h : ofWords words = .ok share) :
    Recovery.parametersOf words = share.metadata.toParameters := by
  obtain ⟨hlength, -, hmetadata, -, -⟩ := parts_of_ofRaw h
  rw [List.length_map] at hlength
  rw [Recovery.parametersOf_eq_ofBits (by omega), Metadata.toParameters_of_ofBits hmetadata]

theorem length_value_eq_of_wordCount_eq {a b : Share} (h : a.wordCount = b.wordCount) :
    a.value.length = b.value.length := by
  have ha := a.even_length
  have hb := b.even_length
  simp only [wordCount, valueWords] at h
  omega

end Share

namespace Recovery

variable {wordCount : Nat} {text : String} {words : List Word} {share : Share}
variable {expected : Parameters}

theorem checkWordCount_eq_ok_iff : checkWordCount wordCount = .ok () ↔
    isWordCount wordCount = true := by
  unfold checkWordCount
  split_ifs with h <;> simp [h]

theorem readWords_eq_ok_iff : readWords wordCount text = .ok words ↔
    isWordCount wordCount = true ∧ Mnemonic.words text = .ok words ∧ words.length = wordCount := by
  simp only [readWords, bind_eq_ok_iff, ← checkWordCount_eq_ok_iff]
  constructor
  · rintro ⟨_, hcount, read, hread, hlength⟩
    split_ifs at hlength with hfew hmany
    cases hlength
    exact ⟨hcount, hread, by omega⟩
  · rintro ⟨hcount, hread, rfl⟩
    exact ⟨(), hcount, words, hread, by simp [pure, Except.pure]⟩

theorem readFirst_eq_ok_iff : readFirst wordCount text = .ok share ↔
    isWordCount wordCount = true ∧ Share.ofMnemonic text = .ok share ∧
      share.wordCount = wordCount := by
  simp only [readFirst, Share.ofMnemonic, bind_eq_ok_iff, readWords_eq_ok_iff]
  constructor
  · rintro ⟨words, ⟨hcount, hwords, rfl⟩, hshare⟩
    exact ⟨hcount, ⟨words, hwords, hshare⟩, (Share.length_of_ofWords hshare).symm⟩
  · rintro ⟨hcount, ⟨words, hwords, hshare⟩, rfl⟩
    exact ⟨words, ⟨hcount, hwords, Share.length_of_ofWords hshare⟩, hshare⟩

theorem outcome_readNext (expected : Parameters) (wordCount : Nat) (text : String) :
    (readNext expected wordCount text).outcome = readWords wordCount text >>= fun words =>
      if parametersOf words ≠ expected then .error .foreignShare else Share.ofWords words := by
  rw [readNext, Traced.outcome_bind, Traced.outcome_ofExcept]
  congr 1
  funext words
  split_ifs <;> rfl

/-- A further share is read as a first one is, and then it is of the expected backup. -/
theorem readNext_eq_ok_iff : (readNext expected wordCount text).outcome = .ok share ↔
    readFirst wordCount text = .ok share ∧ share.metadata.toParameters = expected := by
  rw [outcome_readNext, readFirst]
  simp only [bind_eq_ok_iff]
  constructor
  · rintro ⟨words, hwords, hshare⟩
    split_ifs at hshare with hforeign
    rw [ne_eq, not_not] at hforeign
    exact ⟨⟨words, hwords, hshare⟩, (Share.parametersOf_of_ofWords hshare).symm.trans hforeign⟩
  · rintro ⟨⟨words, hwords, hshare⟩, rfl⟩
    refine ⟨words, hwords, ?_⟩
    rw [if_neg (not_not.mpr (Share.parametersOf_of_ofWords hshare)), hshare]

/-! ### One more share -/

namespace Session

variable {session next : Session} {metadata : Metadata} {texts : List String}

/-- The share goes with those that the session has, as far as a session looks. -/
structure Admits (session : Session) (share : Share) : Prop where
  wordCount_eq : share.wordCount = session.wordCount
  parameters_eq : ∀ first ∈ session.shares.head?,
    share.metadata.toParameters = first.metadata.toParameters
  groups_eq : ∀ first ∈ session.shares.head?,
    share.metadata.groupThreshold = first.metadata.groupThreshold ∧
      share.metadata.groupCount = first.metadata.groupCount
  place_notMem : share.place ∉ session.shares.map Share.place

theorem checkFits_eq {first : Metadata} : session.checkFits first share.metadata =
    if share.metadata.groupThreshold ≠ first.groupThreshold ∨
        share.metadata.groupCount ≠ first.groupCount then .error (.set .groupParameters)
    else if share.place ∈ session.shares.map Share.place then
      .error (.repeatedMember share.groupIndex share.memberIndex)
    else .ok () := by
  have hplace : (session.shares.any fun earlier =>
      earlier.metadata.groupIndex = share.metadata.groupIndex ∧
        earlier.metadata.memberIndex = share.metadata.memberIndex) = true ↔
      share.place ∈ session.shares.map Share.place := by
    simp [Share.place_eq_iff]
  simp only [checkFits, hplace]
  rfl

theorem checkFits_eq_ok_iff {first : Metadata} :
    session.checkFits first share.metadata = .ok () ↔
      (share.metadata.groupThreshold = first.groupThreshold ∧
        share.metadata.groupCount = first.groupCount) ∧
      share.place ∉ session.shares.map Share.place := by
  simp only [checkFits_eq, ne_eq, ← not_and_or, ite_not]
  split_ifs <;> simp [*]

theorem check_eq_ok_iff (hcount : isWordCount session.wordCount = true) :
    (session.check text).outcome = .ok metadata ↔
      ∃ share, Share.ofMnemonic text = .ok share ∧ session.Admits share ∧
        share.metadata = metadata := by
  rcases session with ⟨wordCount, _ | ⟨first, others⟩⟩
  · simp only [check, Traced.outcome_ofExcept, checkFirst, bind_eq_ok_iff, readFirst_eq_ok_iff]
    constructor
    · rintro ⟨share, ⟨-, hshare, hwords⟩, hmetadata⟩
      cases hmetadata
      exact ⟨share, hshare, ⟨hwords, by simp, by simp, by simp⟩, rfl⟩
    · rintro ⟨share, hshare, hadmits, rfl⟩
      exact ⟨share, ⟨hcount, hshare, hadmits.wordCount_eq⟩, rfl⟩
  -- A further share is compared with the first one alone: its parameters while it is read, its
  -- groups by `checkFits`. Only the place is looked for among all.
  · simp only [check, checkNext, Traced.outcome_bind, Traced.outcome_lift, bind_eq_ok_iff,
      readNext_eq_ok_iff, readFirst_eq_ok_iff]
    constructor
    · rintro ⟨_, ⟨share, ⟨⟨-, hshare, hwords⟩, hparameters⟩, hread⟩, _, hfits, hmetadata⟩
      cases hread
      cases hmetadata
      obtain ⟨hgroups, hplace⟩ := checkFits_eq_ok_iff.mp hfits
      exact ⟨share, hshare, ⟨hwords, by simpa using hparameters, by simpa using hgroups, hplace⟩,
        rfl⟩
    · rintro ⟨share, hshare, hadmits, rfl⟩
      refine ⟨_, ⟨share, ⟨⟨hcount, hshare, hadmits.wordCount_eq⟩, ?_⟩, rfl⟩, (), ?_, rfl⟩
      · exact hadmits.parameters_eq first rfl
      · exact checkFits_eq_ok_iff.mpr ⟨hadmits.groups_eq first rfl, hadmits.place_notMem⟩

/-- **A session takes the mnemonics of the shares that it admits.** -/
theorem add_eq_ok_iff (hcount : isWordCount session.wordCount = true) :
    (session.add text).outcome = .ok next ↔
      ∃ share, Share.ofMnemonic text = .ok share ∧ session.Admits share ∧
        next = session.push share := by
  simp only [add, Traced.outcome_bind, Traced.outcome_lift, Traced.outcome_report, ok_bind,
    bind_eq_ok_iff, check_eq_ok_iff hcount]
  constructor
  · rintro ⟨_, ⟨share, hshare, hadmits, -⟩, again, hagain, hnext⟩
    obtain rfl := Except.ok.inj (hshare.symm.trans hagain)
    cases hnext
    exact ⟨share, hshare, hadmits, rfl⟩
  · rintro ⟨share, hshare, hadmits, rfl⟩
    exact ⟨share.metadata, ⟨share, hshare, hadmits, rfl⟩, share, hshare, rfl⟩

/-! ### The shares of a session -/

/-- What holds of the shares of a session at all times. -/
structure Sound (session : Session) : Prop where
  isWordCount : isWordCount session.wordCount = true
  wordCount_eq : ∀ share ∈ session.shares, share.wordCount = session.wordCount
  common_eq : ∀ a ∈ session.shares, ∀ b ∈ session.shares, a.common = b.common
  nodup_place : (session.shares.map Share.place).Nodup

theorem start_eq_ok_iff {wordCount : Nat} : start wordCount = .ok session ↔
    Recovery.isWordCount wordCount = true ∧ session = ⟨wordCount, []⟩ := by
  simp only [start, bind_eq_ok_iff, ← checkWordCount_eq_ok_iff]
  constructor
  · rintro ⟨_, hcount, hsession⟩
    cases hsession
    exact ⟨hcount, rfl⟩
  · rintro ⟨hcount, rfl⟩
    exact ⟨(), hcount, rfl⟩

theorem sound_of_start {wordCount : Nat} (h : start wordCount = .ok session) :
    session.Sound := by
  obtain ⟨hcount, rfl⟩ := start_eq_ok_iff.mp h
  exact ⟨hcount, by simp, by simp, .nil⟩

/-- Shares of equally many words have values of one length, so an admitted share agrees with the
first one in all that a backup has in common. -/
theorem Sound.common_of_admits (h : session.Sound) (hshare : session.Admits share) {other : Share}
    (hother : other ∈ session.shares) : share.common = other.common := by
  obtain ⟨first, hfirst⟩ : ∃ first, first ∈ session.shares.head? :=
    Option.isSome_iff_exists.mp (by rw [List.isSome_head?]; simpa using List.ne_nil_of_mem hother)
  have hmem : first ∈ session.shares := List.mem_of_mem_head? hfirst
  have hlength : share.value.length = first.value.length :=
    Share.length_value_eq_of_wordCount_eq
      (hshare.wordCount_eq.trans (h.wordCount_eq first hmem).symm)
  obtain ⟨hthreshold, hgroups⟩ := hshare.groups_eq first hfirst
  rw [← h.common_eq first hmem other hother, Share.common, Share.common,
    hshare.parameters_eq first hfirst, hthreshold, hgroups, hlength]

theorem Sound.push (h : session.Sound) (hshare : session.Admits share) :
    (session.push share).Sound where
  isWordCount := h.isWordCount
  wordCount_eq := by
    rintro other hother
    rcases List.mem_append.mp hother with hother | hother
    · exact h.wordCount_eq other hother
    · rw [List.mem_singleton.mp hother]
      exact hshare.wordCount_eq
  common_eq := by
    have hcommon : ∀ other ∈ session.shares ++ [share], share.common = other.common := by
      intro other hother
      rcases List.mem_append.mp hother with hother | hother
      · exact h.common_of_admits hshare hother
      · rw [List.mem_singleton.mp hother]
    exact fun a ha b hb => (hcommon a ha).symm.trans (hcommon b hb)
  nodup_place := by
    rw [Session.push, List.map_append, List.map_singleton, ← List.concat_eq_append]
    exact h.nodup_place.concat hshare.place_notMem

/-! ### Runs -/

/-- The session after texts were typed in, one after the other. -/
def run (session : Session) (texts : List String) : Session := texts.foldl enter session

/-- Those of the texts that are taken. -/
def taken (session : Session) : List String → List String
  | [] => []
  | text :: texts =>
    match (session.add text).outcome with
    | .ok next => text :: next.taken texts
    | .error _ => session.taken texts

theorem run_cons (session : Session) (text : String) (texts : List String) :
    session.run (text :: texts) = (session.enter text).run texts := rfl

theorem enter_of_ok (h : (session.add text).outcome = .ok next) : session.enter text = next := by
  rw [enter, h]

theorem enter_of_error {fault : Fault} (h : (session.add text).outcome = .error fault) :
    session.enter text = session := by
  rw [enter, h]

theorem taken_cons_of_ok (h : (session.add text).outcome = .ok next) :
    session.taken (text :: texts) = text :: next.taken texts := by
  rw [taken, h]

theorem taken_cons_of_error {fault : Fault} (h : (session.add text).outcome = .error fault) :
    session.taken (text :: texts) = session.taken texts := by
  rw [taken, h]

/-- A text leaves a session as it was or adds its share. -/
theorem Sound.enter (h : session.Sound) (text : String) : (session.enter text).Sound := by
  rcases hadd : (session.add text).outcome with fault | next
  · rwa [enter_of_error hadd]
  · obtain ⟨share, -, hadmits, rfl⟩ := (add_eq_ok_iff h.isWordCount).mp hadd
    rw [enter_of_ok hadd]
    exact h.push hadmits

theorem Sound.run (h : session.Sound) (texts : List String) : (session.run texts).Sound := by
  induction texts generalizing session with
  | nil => exact h
  | cons text texts ih => exact ih (h.enter text)

/-- A run adds the shares of the texts that it takes. -/
theorem Sound.exists_run_eq (h : session.Sound) (texts : List String) :
    ∃ more, (session.taken texts).mapM Share.ofMnemonic = .ok more ∧
      session.run texts = { session with shares := session.shares ++ more } := by
  induction texts generalizing session with
  | nil => exact ⟨[], rfl, by rw [List.append_nil]; rfl⟩
  | cons text texts ih =>
    rw [run_cons]
    rcases hadd : (session.add text).outcome with fault | next
    · rw [enter_of_error hadd, taken_cons_of_error hadd]
      exact ih h
    · obtain ⟨share, hshare, hadmits, rfl⟩ := (add_eq_ok_iff h.isWordCount).mp hadd
      obtain ⟨more, hmore, hrun⟩ := ih (h.push hadmits)
      rw [enter_of_ok hadd, taken_cons_of_ok hadd]
      refine ⟨share :: more, ?_, ?_⟩
      · rw [List.mapM_cons, hshare, hmore]
        rfl
      · rw [hrun, Session.push, List.append_assoc, List.singleton_append]

/-- The refused texts may as well be left out. -/
theorem run_taken (session : Session) (texts : List String) :
    session.run (session.taken texts) = session.run texts := by
  induction texts generalizing session with
  | nil => rfl
  | cons text texts ih =>
    rw [run_cons]
    rcases hadd : (session.add text).outcome with fault | next
    · rw [enter_of_error hadd, taken_cons_of_error hadd]
      exact ih session
    · rw [enter_of_ok hadd, taken_cons_of_ok hadd, run_cons, enter_of_ok hadd]
      exact ih next

theorem outcome_finish (session : Session) (passphrase : List UInt8) :
    (session.finish passphrase).outcome =
      (Backup.combine session.shares).outcome >>= fun encrypted =>
        encrypted.decrypt passphrase := by
  simp only [finish, Traced.outcome_bind, Traced.outcome_lift]

/-- Finishing is to combine the texts of the shares, reports and faults included. -/
theorem finish_eq_combineMnemonics (h : texts.mapM Share.ofMnemonic = .ok session.shares)
    (passphrase : List UInt8) :
    session.finish passphrase = Backup.combineMnemonics texts passphrase := by
  rcases texts with _ | ⟨text, texts⟩
  · obtain hshares := Except.ok.inj h
    rw [finish, ← hshares]
    rfl
  · rw [Backup.combineMnemonics, if_neg (by simp), h, finish]
    rfl

/-- **Runs of a session.** Whatever is typed in, the session has the shares that the taken texts
spell, in their order, and a refused text leaves no trace. All shares have the number of words that
was announced, agree in what shares of one backup have in common, and are of different members. The
progress is the number of the taken texts, of as many as the first share asks for, and finishing
does what combining the taken texts at once does. The next text is taken if and only if it is the
mnemonic of a share that goes with these. -/
theorem run_of_start {wordCount : Nat} (hstart : start wordCount = .ok session)
    (texts : List String) :
    (session.taken texts).mapM Share.ofMnemonic = .ok (session.run texts).shares ∧
      session.run (session.taken texts) = session.run texts ∧
      (∀ share ∈ (session.run texts).shares, share.wordCount = wordCount) ∧
      (∀ a ∈ (session.run texts).shares, ∀ b ∈ (session.run texts).shares,
        a.common = b.common) ∧
      ((session.run texts).shares.map Share.place).Nodup ∧
      (session.run texts).collected = (session.taken texts).length ∧
      (session.run texts).needed? =
        (session.run texts).shares.head?.map Share.memberThreshold ∧
      (∀ passphrase, (session.run texts).finish passphrase =
        Backup.combineMnemonics (session.taken texts) passphrase) ∧
      ∀ text next, ((session.run texts).add text).outcome = .ok next ↔
        ∃ share, Share.ofMnemonic text = .ok share ∧ (session.run texts).Admits share ∧
          next = (session.run texts).push share := by
  obtain ⟨-, rfl⟩ := start_eq_ok_iff.mp hstart
  have hsound := sound_of_start hstart
  obtain ⟨shares, hshares, hrun⟩ := hsound.exists_run_eq texts
  have hrunSound := hsound.run texts
  rw [run_taken]
  rw [hrun] at hrunSound ⊢
  refine ⟨hshares, rfl, hrunSound.wordCount_eq, hrunSound.common_eq, hrunSound.nodup_place, ?_,
    rfl, finish_eq_combineMnemonics hshares, fun _ _ => add_eq_ok_iff hrunSound.isWordCount⟩
  exact (forall₂_of_mapM_eq_ok hshares).length_eq.symm

/-- Two shares are typed in, and the first of them once more. -/
theorem run_of_start_strayCopy :
    let a := Backup.strayCopy ⟨3, by decide⟩ ⟨5, by decide⟩
    let b := Backup.strayCopy ⟨9, by decide⟩ ⟨0, by decide⟩
    let session : Session := ⟨20, []⟩
    start 20 = .ok session ∧
      session.taken [a.mnemonic, b.mnemonic, a.mnemonic] = [a.mnemonic, b.mnemonic] ∧
      (session.run [a.mnemonic, b.mnemonic, a.mnemonic]).shares = [a, b] ∧
      ∀ passphrase, (session.run [a.mnemonic, b.mnemonic, a.mnemonic]).finish passphrase =
        Backup.combineMnemonics [a.mnemonic, b.mnemonic] passphrase := by
  intro a b session
  have ha : Share.ofMnemonic a.mnemonic = .ok a := Share.ofMnemonic_mnemonic (by decide)
  have hb : Share.ofMnemonic b.mnemonic = .ok b := Share.ofMnemonic_mnemonic (by decide)
  have hfirst : (session.add a.mnemonic).outcome = .ok ⟨20, [a]⟩ :=
    (add_eq_ok_iff rfl).mpr ⟨a, ha, ⟨by decide, by decide, by decide, by decide⟩, rfl⟩
  have hsecond : ((⟨20, [a]⟩ : Session).add b.mnemonic).outcome = .ok ⟨20, [a, b]⟩ :=
    (add_eq_ok_iff rfl).mpr ⟨b, hb, ⟨by decide, by decide, by decide, by decide⟩, rfl⟩
  have hagain : ∃ fault, ((⟨20, [a, b]⟩ : Session).add a.mnemonic).outcome = .error fault := by
    rcases hadd : ((⟨20, [a, b]⟩ : Session).add a.mnemonic).outcome with fault | next
    · exact ⟨fault, rfl⟩
    · obtain ⟨share, hshare, hadmits, -⟩ := (add_eq_ok_iff rfl).mp hadd
      obtain rfl := Except.ok.inj (ha.symm.trans hshare)
      exact absurd (by simp) hadmits.place_notMem
  obtain ⟨fault, hfault⟩ := hagain
  have htaken : session.taken [a.mnemonic, b.mnemonic, a.mnemonic] =
      [a.mnemonic, b.mnemonic] := by
    rw [taken_cons_of_ok hfirst, taken_cons_of_ok hsecond, taken_cons_of_error hfault, taken]
  have hstart : start 20 = .ok session := rfl
  obtain ⟨hshares, -, -, -, -, -, -, hfinish, -⟩ :=
    run_of_start hstart [a.mnemonic, b.mnemonic, a.mnemonic]
  rw [htaken] at hshares hfinish
  refine ⟨hstart, htaken, ?_, hfinish⟩
  rw [List.mapM_cons, ha, List.mapM_cons, hb] at hshares
  exact (Except.ok.inj hshares).symm

end Session

end Recovery

end ShamirBackup
