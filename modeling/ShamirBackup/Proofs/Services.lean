import ShamirBackup.Proofs.Agreement
import ShamirBackup.Proofs.PassphraseCipher
import ShamirBackup.Proofs.ShareWords
import ShamirBackup.Proofs.Tokens
import ShamirBackup.Service.Json

/-!
# Services that combine

The services read texts in a loop of their own, which counts them from one, and put a headline of
their own before each fault. What they answer is decided by the same steps as in the library: the
loop succeeds with the same shares (`readShares_eq_ok_iff`) and stops at the same text
(`readShares_of_first_fault`), and a headline makes no failure out of a success. So both services
answer where the library does, with the same secret in small hexadecimal digits (`combine_agrees`).
-/

namespace ShamirBackup

namespace Text.Hex

/-- Each byte is written with its high digit and its low digit, in small letters. -/
def Writes (text : String) (bytes : List UInt8) : Prop :=
  text.toList = bytes.flatMap fun byte =>
    [Nat.digitChar (byte.toNat / 16), Nat.digitChar (byte.toNat % 16)]

theorem digit_eq_digitChar : ∀ n < 16, digit n = Nat.digitChar n := by
  decide

theorem writes_iff {text : String} {bytes : List UInt8} :
    Writes text bytes ↔ text = encode bytes := by
  have hdigits : ∀ byte : UInt8,
      [Nat.digitChar (byte.toNat / 16), Nat.digitChar (byte.toNat % 16)] =
        [digit (byte.toNat / 16), digit (byte.toNat % 16)] := by
    intro byte
    have hbyte := byte.toNat_lt
    rw [digit_eq_digitChar _ (by omega), digit_eq_digitChar _ (by omega)]
  rw [Writes, encode, encodeBytes, ← String.toList_inj, String.toList_ofList]
  simp only [hdigits]

end Text.Hex

variable {texts before after : List String} {text passphrase answer : String}
variable {shares : List Share} {fault : Fault}

namespace Backup

theorem outcome_combineMnemonics (h : texts ≠ []) (passphrase : List UInt8) :
    (combineMnemonics texts passphrase).outcome = texts.mapM Share.ofMnemonic >>= fun shares =>
      (combine shares).outcome >>= fun encrypted => encrypted.decrypt passphrase := by
  rw [combineMnemonics, if_neg (mt List.isEmpty_iff.mp h)]
  simp only [Traced.outcome_bind, Traced.outcome_ofExcept, Traced.outcome_lift]

end Backup

namespace Service

namespace Plain

/-! ### Reading -/

theorem readShares_eq_ok_iff (position : Nat) :
    readShares position texts = .ok shares ↔ texts.mapM Share.ofMnemonic = .ok shares := by
  induction texts generalizing position shares with
  | nil =>
    rw [readShares, List.mapM_nil]
    exact ⟨fun h => congrArg _ (Except.ok.inj h), fun h => congrArg _ (Except.ok.inj h)⟩
  | cons text texts ih =>
    rw [readShares, List.mapM_cons]
    rcases Share.ofMnemonic text with fault | share
    · exact iff_of_false nofun nofun
    · simp only [ok_bind, map_eq_ok_iff, bind_eq_ok_iff, ih]
      exact exists_congr fun rest => and_congr_right fun _ => ⟨congrArg _, Except.ok.inj⟩

/-- The number in the headline counts from the first text on. -/
theorem readShares_of_first_fault (position : Nat)
    (hbefore : ∀ earlier ∈ before, ∃ share, Share.ofMnemonic earlier = .ok share)
    (htext : Share.ofMnemonic text = .error fault) :
    readShares position (before ++ text :: after) =
      .error (.ofFault s!"Failed to parse share #{position + before.length}" fault) := by
  induction before generalizing position with
  | nil => simp only [List.nil_append, readShares, htext, List.length_nil, Nat.add_zero]
  | cons earlier before ih =>
    obtain ⟨⟨share, hshare⟩, hrest⟩ := List.forall_mem_cons.mp hbefore
    rw [List.cons_append, readShares, hshare]
    simp only [ih (position + 1) hrest, Except.map, List.length_cons, Nat.add_right_comm position 1,
      Nat.add_assoc]

/-! ### Combining -/

theorem outcome_combine (h : texts ≠ []) (passphrase : String) :
    (combine texts passphrase).outcome = readShares 1 texts >>= fun shares =>
      (Backup.combine shares).outcome.mapError (.ofFault "Failed to combine shares") >>=
        fun encrypted => (encrypted.decrypt (bytesOf passphrase)).mapError
          (.ofFault "Failed to decrypt master secret") >>= fun secret =>
            .ok (Text.Hex.encode secret) := by
  rw [combine, if_neg (mt List.isEmpty_iff.mp h)]
  simp only [Traced.outcome_bind, Traced.outcome_ofExcept]
  rfl

theorem combine_eq_ok_iff : (combine texts passphrase).outcome = .ok answer ↔
    ∃ secret, (Backup.combineMnemonics texts (bytesOf passphrase)).outcome = .ok secret ∧
      answer = Text.Hex.encode secret := by
  by_cases hnone : texts = []
  · subst hnone
    refine iff_of_false nofun ?_
    rintro ⟨_, ⟨⟩, -⟩
  · simp only [outcome_combine hnone, Backup.outcome_combineMnemonics hnone, bind_eq_ok_iff,
      readShares_eq_ok_iff, mapError_eq_ok_iff]
    constructor
    · rintro ⟨shares, hshares, encrypted, hcombine, secret, hdecrypt, hanswer⟩
      exact ⟨secret, ⟨shares, hshares, encrypted, hcombine, hdecrypt⟩,
        (Except.ok.inj hanswer).symm⟩
    · rintro ⟨secret, ⟨shares, hshares, encrypted, hcombine, hdecrypt⟩, rfl⟩
      exact ⟨shares, hshares, encrypted, hcombine, secret, hdecrypt, rfl⟩

end Plain

namespace Json

theorem combine_eq_ok_iff : (combine texts passphrase).outcome = .ok answer ↔
    (Plain.combine texts passphrase).outcome = .ok answer := by
  rw [combine, Traced.outcome_mapError, mapError_eq_ok_iff]

end Json

/-- A text that is not read makes the list fail at the first such text. -/
theorem exists_first_fault (h : ∃ text ∈ texts, ∀ share, Share.ofMnemonic text ≠ .ok share) :
    ∃ before text after fault, texts = before ++ text :: after ∧
      (∀ earlier ∈ before, ∃ share, Share.ofMnemonic earlier = .ok share) ∧
      Share.ofMnemonic text = .error fault := by
  obtain ⟨unread, hmem, hunread⟩ := h
  rcases hall : texts.mapM Share.ofMnemonic with fault | shares
  · obtain ⟨before, text, after, hfirst⟩ := mapM_eq_error_iff.mp hall
    exact ⟨before, text, after, fault, hfirst⟩
  · obtain ⟨share, -, hshare⟩ := exists_of_mem_left (forall₂_of_mapM_eq_ok hall) hmem
    exact absurd hshare (hunread share)

/-- **The services answer where the library does.** For all texts and every passphrase, combining
succeeds in either service if and only if it succeeds in the library for the bytes of the
passphrase, and the answer is the secret in small hexadecimal digits. A text that is not read makes
all of them fail: the headline numbers the first such text, and the library has its fault. -/
theorem combine_agrees (texts : List String) (passphrase : String) :
    (∀ answer, (Plain.combine texts passphrase).outcome = .ok answer ↔ ∃ secret,
      (Backup.combineMnemonics texts passphrase.toUTF8.toList).outcome = .ok secret ∧
      Text.Hex.Writes answer secret) ∧
    (∀ answer, (Json.combine texts passphrase).outcome = .ok answer ↔ ∃ secret,
      (Backup.combineMnemonics texts passphrase.toUTF8.toList).outcome = .ok secret ∧
      Text.Hex.Writes answer secret) ∧
    ((∃ text ∈ texts, ∀ share, Share.ofMnemonic text ≠ .ok share) →
      ∃ before text after fault, texts = before ++ text :: after ∧
        (∀ earlier ∈ before, ∃ share, Share.ofMnemonic earlier = .ok share) ∧
        Share.ofMnemonic text = .error fault ∧
        (Plain.combine texts passphrase).outcome =
          .error ⟨s!"Failed to parse share #{before.length + 1}", some fault.message⟩ ∧
        (Backup.combineMnemonics texts passphrase.toUTF8.toList).outcome = .error fault) := by
  simp only [Json.combine_eq_ok_iff, Text.Hex.writes_iff]
  refine ⟨fun answer => Plain.combine_eq_ok_iff, fun answer => Plain.combine_eq_ok_iff, fun h => ?_⟩
  obtain ⟨before, text, after, fault, rfl, hbefore, htext⟩ := exists_first_fault h
  have hsome : before ++ text :: after ≠ [] := by simp
  refine ⟨before, text, after, fault, rfl, hbefore, htext, ?_, ?_⟩
  · rw [Plain.outcome_combine hsome, Plain.readShares_of_first_fault 1 hbefore htext, error_bind,
      Nat.add_comm]
    rfl
  · rw [Backup.outcome_combineMnemonics hsome,
      mapM_eq_error_iff.mpr ⟨before, text, after, rfl, hbefore, htext⟩, error_bind]

/-- Copies of two groups with a passphrase, and the same with a text between them that is no
share. -/
theorem combine_agrees_strayCopy :
    let a := Backup.strayCopy ⟨3, by decide⟩ ⟨5, by decide⟩
    let b := Backup.strayCopy ⟨9, by decide⟩ ⟨0, by decide⟩
    (∃ secret answer, (Backup.combineMnemonics [a.mnemonic, b.mnemonic]
        "TREZOR".toUTF8.toList).outcome = .ok secret ∧ Text.Hex.Writes answer secret ∧
      (Plain.combine [a.mnemonic, b.mnemonic] "TREZOR").outcome = .ok answer ∧
      (Json.combine [a.mnemonic, b.mnemonic] "TREZOR").outcome = .ok answer) ∧
    (Plain.combine [a.mnemonic, "zero abc", b.mnemonic] "é").outcome =
      .error ⟨"Failed to parse share #2", some (Fault.unknownWord 1).message⟩ ∧
    (Backup.combineMnemonics [a.mnemonic, "zero abc", b.mnemonic] "é".toUTF8.toList).outcome =
      .error (.unknownWord 1) := by
  let encrypted : EncryptedSecret :=
    ⟨⟨⟨7, by decide⟩, false, default⟩, List.replicate 16 0x5a, by decide⟩
  have hcombine : (Backup.combine [Backup.strayCopy ⟨3, by decide⟩ ⟨5, by decide⟩,
      Backup.strayCopy ⟨9, by decide⟩ ⟨0, by decide⟩]).outcome = .ok encrypted := by
    rfl
  intro a b
  have hread : ∀ share ∈ [a, b], Share.ofMnemonic share.mnemonic = .ok share := by
    intro share hshare
    apply Share.ofMnemonic_mnemonic
    revert share
    decide
  have hstrange : (Text.smallTokens "zero abc").findIdx? (· ∉ WordList.words) = some 1 := by
    decide +kernel
  have hunread : Share.ofMnemonic "zero abc" = .error (.unknownWord 1) := by
    rw [Share.ofMnemonic, Mnemonic.words_eq_error_iff.mpr ⟨1, hstrange, rfl⟩, error_bind]
  constructor
  · have hshares : [a.mnemonic, b.mnemonic].mapM Share.ofMnemonic = .ok [a, b] :=
      mapM_eq_ok_of_forall₂ (.cons (hread a (by simp)) (.cons (hread b (by simp)) .nil))
    obtain ⟨secret, hsecret⟩ := encrypted.exists_decrypt_eq_ok
      (show ∀ byte ∈ "TREZOR".toUTF8.toList, PassphraseCipher.isPrintable byte = true by
        decide +kernel)
    have hlibrary : (Backup.combineMnemonics [a.mnemonic, b.mnemonic]
        "TREZOR".toUTF8.toList).outcome = .ok secret := by
      rw [Backup.outcome_combineMnemonics (List.cons_ne_nil _ _), hshares, ok_bind, hcombine,
        ok_bind, hsecret]
    have hanswer := Text.Hex.writes_iff.mpr (rfl : Text.Hex.encode secret = _)
    obtain ⟨hplain, hjson, -⟩ := combine_agrees [a.mnemonic, b.mnemonic] "TREZOR"
    exact ⟨secret, _, hlibrary, hanswer, (hplain _).mpr ⟨secret, hlibrary, hanswer⟩,
      (hjson _).mpr ⟨secret, hlibrary, hanswer⟩⟩
  · obtain ⟨-, -, hfirst⟩ := combine_agrees [a.mnemonic, "zero abc", b.mnemonic] "é"
    obtain ⟨before, text, after, fault, hlist, hbefore, htext, hheadline, hfault⟩ :=
      hfirst ⟨"zero abc", by simp, by simp [hunread]⟩
    rcases before with _ | ⟨first, _ | ⟨second, before⟩⟩
    · cases hlist
      rw [hread a (by simp)] at htext
      cases htext
    · cases hlist
      obtain rfl := Except.error.inj (hunread.symm.trans htext)
      exact ⟨hheadline.trans (by decide +kernel), hfault⟩
    · obtain ⟨-, htail⟩ := List.cons.inj hlist
      obtain ⟨rfl, -⟩ := List.cons.inj htail
      obtain ⟨share, hshare⟩ := hbefore "zero abc" (by simp)
      rw [hunread] at hshare
      cases hshare

end Service

end ShamirBackup
