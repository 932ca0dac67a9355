import ShamirBackup.Proofs.Combining
import ShamirBackup.Proofs.PassphraseCipher
import ShamirBackup.Proofs.ShareWords

/-!
# From secret to shares and back

Any choice of the shares of a split settles what combining it comes to. Enough members of enough
groups restore the secret, in any order and typed in any way (`restore_of_splitSecret`). With fewer
the fault says what is missing: groups, or members of the first group that lacks some
(`combine_too_few_of_splitEncrypted`).
-/

namespace ShamirBackup.Backup

variable {plan : Plan} {passphrase secret : List UInt8} {source : Entropy}

/-- The text is the mnemonic of the share, typed in any case and with any blanks. -/
def TypedFor (share : Share) (text : String) : Prop :=
  Spells text.toList (share.words.map Word.spelling)

/-! ### A plan of two groups -/

/-- Two groups are needed, of which one has three members and needs two, and the other has one. -/
def twoGroups : Plan where
  groupThreshold := ⟨2, by decide, by decide⟩
  groups := [⟨⟨2, by decide, by decide⟩, ⟨3, by decide, by decide⟩, by decide, by decide⟩,
    ⟨.one, .one, by decide, by decide⟩]
  threshold_le_length := by decide
  length_le := by decide

theorem eq_of_map_place_twoGroups {lists : List (List Share)}
    (h : lists.map (·.map Share.place) = twoGroups.places) :
    ∃ a b c d : Share, lists = [[a, b, c], [d]] ∧ a.place = (0, 0) ∧ b.place = (0, 1) ∧
      c.place = (0, 2) ∧ d.place = (1, 0) := by
  have hplaces : twoGroups.places = [[(0, 0), (0, 1), (0, 2)], [(1, 0)]] := by decide
  rw [hplaces] at h
  simp only [List.map_eq_cons_iff, List.map_eq_nil_iff] at h
  obtain ⟨_, _, rfl, ⟨a, _, rfl, ha, b, _, rfl, hb, c, _, rfl, hc, rfl⟩,
    _, _, rfl, ⟨d, _, rfl, hd, rfl⟩, rfl⟩ := h
  exact ⟨a, b, c, d, rfl, ha, hb, hc, hd⟩

/-! ### Typed texts -/

theorem mapM_ofMnemonic_of_typed {shares : List Share} {texts : List String}
    (hplan : ∀ share ∈ shares,
      share.metadata.groupThreshold.val ≤ share.metadata.groupCount.val)
    (htyped : List.Forall₂ TypedFor shares texts) : texts.mapM Share.ofMnemonic = .ok shares := by
  induction htyped with
  | nil => rfl
  | @cons share text shares texts htext _ ih =>
    have hread : Share.ofMnemonic text = .ok share := by
      rw [Share.ofMnemonic_of_spells htext, Share.ofRaw_words, if_pos (hplan share (by simp))]
    rw [List.mapM_cons, hread, ih fun other hother => hplan other (by simp [hother])]
    rfl

/-- Dealt shares can be typed in. -/
theorem combineMnemonics_of_typed {encrypted : EncryptedSecret} {dealing : Dealing plan encrypted}
    {shares : List Share} {texts : List String} (hshares : ∀ share ∈ shares, dealing.Deals share)
    (htyped : List.Forall₂ TypedFor shares texts)
    (hcombine : (combine shares).outcome = .ok encrypted) :
    (combineMnemonics texts passphrase).outcome = encrypted.decrypt passphrase := by
  have hplan : ∀ share ∈ shares,
      share.metadata.groupThreshold.val ≤ share.metadata.groupCount.val := by
    intro share hshare
    rw [(hshares share hshare).groupThreshold_eq, (hshares share hshare).groupCount_eq]
    exact plan.threshold_le_length
  have hne : texts.isEmpty = false := by
    cases htyped with
    | nil => cases hcombine
    | cons _ _ => rfl
  unfold combineMnemonics
  simp only [hne, Bool.false_eq_true, if_false, Traced.outcome_bind, Traced.outcome_ofExcept,
    mapM_ofMnemonic_of_typed hplan htyped, ok_bind, hcombine, Traced.outcome_lift]

/-! ### Restoring -/

/-- Splitting encrypts the secret under a random identifier and deals the result. -/
theorem yields_splitSecret {encrypted : EncryptedSecret} {lists : List (List Share)}
    {rest : Entropy}
    (hencrypted : EncryptedSecret.ofSecret
      ⟨Identifier.ofDraw (source.peek 2), plan.extendable, plan.exponent⟩ passphrase secret =
        .ok encrypted)
    (hsplit : (splitEncrypted plan encrypted).Yields (source.skip 2) lists rest) :
    (splitSecret plan passphrase secret).Yields source lists rest :=
  .bind (.bind (.draw 2) (.pure _)) (.bind (.report _) (.bind (.ofExcept hencrypted) hsplit))

/-- **Enough shares restore the secret.** Splitting a secret of supported length under a printable
passphrase succeeds with a share for each place of the plan, and every share can be written down.
Any different ones of them, in any order, that complete enough groups combine to the encrypted
secret, and their mnemonics, typed in any case and with any blanks, to the secret itself. -/
theorem restore_of_splitSecret (plan : Plan) (passphrase secret : List UInt8) (source : Entropy)
    (hlength : SupportedLength secret.length)
    (hprintable : ∀ byte ∈ passphrase, PassphraseCipher.isPrintable byte = true) :
    ∃ (encrypted : EncryptedSecret) (lists : List (List Share)),
      EncryptedSecret.ofSecret ⟨Identifier.ofDraw (source.peek 2), plan.extendable, plan.exponent⟩
        passphrase secret = .ok encrypted ∧
      (splitSecret plan passphrase secret source).1.outcome = .ok lists ∧
      lists.map (·.map Share.place) = plan.places ∧
      (∀ share ∈ lists.flatten,
        Mnemonic.ofRaw (share.words.map Word.toRaw) = .ok share.mnemonic) ∧
      ∀ chosen : List Share, (∀ share ∈ chosen, share ∈ lists.flatten) → chosen.Nodup →
        plan.groupThreshold.val ≤ (plan.completed chosen).card →
        (combine chosen).outcome = .ok encrypted ∧
        ∀ texts, List.Forall₂ TypedFor chosen texts →
          (combineMnemonics texts passphrase).outcome = .ok secret := by
  obtain ⟨encrypted, hencrypted, -, hdecrypt⟩ :=
    EncryptedSecret.exists_ofSecret_eq_ok hlength hprintable
  obtain ⟨dealing, lists, hsplit, hlists⟩ := yields_splitEncrypted plan encrypted (source.skip 2)
  refine ⟨encrypted, lists, hencrypted, (yields_splitSecret hencrypted hsplit).outcome,
    hlists.map_place, fun share _ => Mnemonic.ofRaw_map_toRaw share.words, ?_⟩
  intro chosen hchosen hnodup henough
  have hdeals : ∀ share ∈ chosen, dealing.Deals share := fun share hshare =>
    hlists.deals_of_mem (hchosen share hshare)
  have hcombine := combine_eq_ok hdeals hnodup henough
  refine ⟨hcombine, fun texts htyped => ?_⟩
  rw [combineMnemonics_of_typed hdeals htyped hcombine, hdecrypt]

/-- The single member and two of the three, the last one first. -/
theorem restore_of_splitSecret_twoGroups :
    (SupportedLength (List.replicate 16 (0x5a : UInt8)).length ∧
      ∀ byte ∈ [0x61, 0x20, 0x7e], PassphraseCipher.isPrintable byte = true) ∧
    ∃ a b c d : Share,
      (splitSecret twoGroups [0x61, 0x20, 0x7e] (List.replicate 16 0x5a)
        (Entropy.ofBytes ⟨#[1, 2, 3]⟩)).1.outcome = .ok [[a, b, c], [d]] ∧
      (combineMnemonics [d.mnemonic, c.mnemonic, a.mnemonic] [0x61, 0x20, 0x7e]).outcome =
        .ok (List.replicate 16 0x5a) := by
  have hlength : SupportedLength (List.replicate 16 (0x5a : UInt8)).length := by decide
  have hprintable : ∀ byte ∈ [0x61, 0x20, 0x7e], PassphraseCipher.isPrintable byte = true :=
    List.all_eq_true.mp (by decide)
  refine ⟨⟨hlength, hprintable⟩, ?_⟩
  obtain ⟨encrypted, lists, -, hsplit, hplaces, -, hrestore⟩ :=
    restore_of_splitSecret twoGroups [0x61, 0x20, 0x7e] (List.replicate 16 0x5a)
      (Entropy.ofBytes ⟨#[1, 2, 3]⟩) hlength hprintable
  obtain ⟨a, b, c, d, rfl, ha, -, hc, hd⟩ := eq_of_map_place_twoGroups hplaces
  simp only [Share.place, Prod.mk.injEq] at ha hc hd
  refine ⟨a, b, c, d, hsplit, (hrestore [d, c, a] ?_ ?_ ?_).2 _ ?_⟩
  · simp
  · have hdc : d ≠ c := by rintro rfl; omega
    have hda : d ≠ a := by rintro rfl; omega
    have hca : c ≠ a := by rintro rfl; omega
    simp [hdc, hda, hca]
  · have hcompleted : ({0, 1} : Finset Nat) ⊆ twoGroups.completed [d, c, a] := by
      intro index hindex
      rw [Finset.mem_insert, Finset.mem_singleton] at hindex
      rcases hindex with rfl | rfl
      · exact mem_completed.mpr ⟨_, rfl, by simp [held, ha.1, hc.1, hd.1]⟩
      · exact mem_completed.mpr ⟨_, rfl, by simp [held, ha.1, hc.1, hd.1]⟩
    exact Finset.card_le_card hcompleted
  · exact .cons d.spells_mnemonic (.cons c.spells_mnemonic (.cons a.spells_mnemonic .nil))

/-! ### Too few shares -/

/-- **Too few shares never give a secret**, and the fault is exact. Choose different shares of a
split that do not complete enough groups. If they are of too few groups, the fault counts these,
and otherwise it names the first group that is represented but not complete, what it needs and what
there is of it. -/
theorem combine_too_few_of_splitEncrypted (plan : Plan) (secret : EncryptedSecret)
    (source : Entropy) :
    ∃ lists : List (List Share), (splitEncrypted plan secret source).1.outcome = .ok lists ∧
      lists.map (·.map Share.place) = plan.places ∧
      ∀ chosen : List Share, chosen ≠ [] → (∀ share ∈ chosen, share ∈ lists.flatten) →
        chosen.Nodup → (plan.completed chosen).card < plan.groupThreshold.val →
        (∀ found, (combine chosen).outcome ≠ .ok found) ∧
        ((represented chosen).card < plan.groupThreshold.val → (combine chosen).outcome =
          .error (.tooFewGroups plan.groupThreshold.val (represented chosen).card)) ∧
        (plan.groupThreshold.val ≤ (represented chosen).card →
          ∃ index group, plan.groups[index]? = some group ∧
            IsLeast (incomplete plan chosen : Set Nat) index ∧ (combine chosen).outcome =
              .error (.tooFewMembers index group.threshold.val (held chosen index))) := by
  obtain ⟨dealing, lists, hsplit, hlists⟩ := yields_splitEncrypted plan secret source
  refine ⟨lists, hsplit.outcome, hlists.map_place, fun chosen hne hchosen hnodup hfew => ?_⟩
  have hdeals : ∀ share ∈ chosen, dealing.Deals share := fun share hshare =>
    hlists.deals_of_mem (hchosen share hshare)
  have hgroups := combine_eq_missing_groups hdeals hnodup hne
  have hmembers := fun hthere => combine_eq_missing_members hdeals hnodup hthere hfew
  refine ⟨fun found hfound => ?_, hgroups, hmembers⟩
  by_cases hrepresented : (represented chosen).card < plan.groupThreshold.val
  · rw [hgroups hrepresented] at hfound
    cases hfound
  · obtain ⟨index, group, -, -, hfault⟩ := hmembers (Nat.not_lt.mp hrepresented)
    rw [hfault] at hfound
    cases hfound

/-- The single member alone, and with one of the three of whom two are needed. -/
theorem combine_too_few_of_splitEncrypted_twoGroups :
    ∃ a b c d : Share,
      (splitEncrypted twoGroups
        ⟨⟨⟨7, by decide⟩, false, default⟩, List.replicate 16 0x5a, by decide⟩
        (Entropy.ofBytes ⟨#[1, 2, 3]⟩)).1.outcome = .ok [[a, b, c], [d]] ∧
      (combine [d]).outcome = .error (.tooFewGroups 2 1) ∧
      (combine [d, b]).outcome = .error (.tooFewMembers 0 2 1) := by
  obtain ⟨lists, hsplit, hplaces, hfault⟩ := combine_too_few_of_splitEncrypted twoGroups
    ⟨⟨⟨7, by decide⟩, false, default⟩, List.replicate 16 0x5a, by decide⟩
    (Entropy.ofBytes ⟨#[1, 2, 3]⟩)
  obtain ⟨a, b, c, d, rfl, -, hb, -, hd⟩ := eq_of_map_place_twoGroups hplaces
  simp only [Share.place, Prod.mk.injEq] at hb hd
  have hone : represented [d] = {1} := by simp [represented, hd.1]
  have htwo : represented [d, b] = {1, 0} := by simp [represented, hd.1, hb.1]
  have hheld : held [d, b] 0 = 1 := by simp [held, hd.1, hb.1]
  have hopen : 0 ∉ twoGroups.completed [d, b] := by
    intro h
    obtain ⟨group, hgroup, henough⟩ := mem_completed.mp h
    obtain rfl := Option.some.inj hgroup
    rw [hheld] at henough
    exact absurd henough (by decide)
  have hfew : twoGroups.completed [d, b] ⊆ {1} := by
    intro index hindex
    have hmem := completed_subset_represented _ _ hindex
    rw [htwo, Finset.mem_insert, Finset.mem_singleton] at hmem
    rcases hmem with rfl | rfl
    · exact Finset.mem_singleton_self 1
    · exact absurd hindex hopen
  refine ⟨a, b, c, d, hsplit, ?_, ?_⟩
  · have hcompleted := Finset.card_le_card (completed_subset_represented twoGroups [d])
    rw [hone, Finset.card_singleton] at hcompleted
    obtain ⟨-, hgroups, -⟩ := hfault [d] (by simp) (by simp) (by simp)
      (Nat.lt_of_le_of_lt hcompleted (by decide))
    rw [hone] at hgroups
    exact hgroups (by decide)
  · have hdb : d ≠ b := by rintro rfl; omega
    obtain ⟨-, -, hmembers⟩ := hfault [d, b] (by simp) (by simp) (by simp [hdb])
      (Nat.lt_of_le_of_lt (Finset.card_le_card hfew) (by decide))
    obtain ⟨index, group, hgroup, ⟨-, hleast⟩, hnamed⟩ := hmembers (by rw [htwo]; decide)
    have hzero : index ≤ 0 := hleast (by simp [incomplete, htwo, hopen])
    obtain rfl := Nat.le_zero.mp hzero
    obtain rfl := Option.some.inj hgroup
    rw [hnamed, hheld]

end ShamirBackup.Backup
