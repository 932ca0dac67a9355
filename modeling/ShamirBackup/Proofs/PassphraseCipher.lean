import ShamirBackup.Proofs.Outcome
import ShamirBackup.EncryptedSecret

/-!
# The passphrase cipher undone

A round only covers one half with a key that the other half determines, so the same round with the
halves exchanged uncovers it. The network with its rounds reversed takes back the whole
(`network_reverse`), whatever the keys are, as long as each is as long as the half it covers. The
keys of any key derivation are. So encrypting and decrypting undo each other on all texts that the
cipher does not refuse, and it refuses the same ones in both directions (`encrypt_decrypt_permute`).
-/

namespace ShamirBackup

namespace PassphraseCipher

/-! ### The network -/

theorem xor_xor_cancel {a b : List UInt8} (h : a.length = b.length) :
    List.zipWith (· ^^^ ·) (List.zipWith (· ^^^ ·) a b) b = a := by
  refine List.ext_getElem (by simp [h]) fun i hi _ => ?_
  rw [List.getElem_zipWith, List.getElem_zipWith, UInt8.xor_assoc, UInt8.xor_self, UInt8.xor_zero]

/-- The keys cover a half of any length completely. -/
def Covering (key : UInt8 → List UInt8 → List UInt8) : Prop :=
  ∀ round half, (key round half).length = half.length

/-- Both halves have this length. -/
def Halved (n : Nat) (halves : List UInt8 × List UInt8) : Prop :=
  halves.1.length = n ∧ halves.2.length = n

variable {key : UInt8 → List UInt8 → List UInt8} {n : Nat} {halves : List UInt8 × List UInt8}

theorem Halved.step (hkey : Covering key) (h : Halved n halves) (round : UInt8) :
    Halved n (step key halves round) := by
  refine ⟨h.2, ?_⟩
  rw [PassphraseCipher.step, List.length_zipWith, hkey, h.1, h.2, Nat.min_self]

theorem Halved.foldl_step (hkey : Covering key) (h : Halved n halves) (rounds : List UInt8) :
    Halved n (rounds.foldl (PassphraseCipher.step key) halves) := by
  induction rounds generalizing halves with
  | nil => exact h
  | cons round rounds ih => exact ih (h.step hkey round)

/-- A round undoes itself on exchanged halves. -/
theorem step_swap_step (hkey : Covering key) (h : Halved n halves) (round : UInt8) :
    step key (step key halves round).swap round = halves.swap := by
  have hlength : halves.1.length = (key round halves.2).length := by rw [hkey, h.1, h.2]
  show (halves.2, List.zipWith (· ^^^ ·)
    (List.zipWith (· ^^^ ·) halves.1 (key round halves.2)) (key round halves.2)) = halves.swap
  rw [xor_xor_cancel hlength]
  rfl

theorem foldl_step_reverse (hkey : Covering key) (h : Halved n halves) (rounds : List UInt8) :
    rounds.reverse.foldl (step key) (rounds.foldl (step key) halves).swap = halves.swap := by
  induction rounds generalizing halves with
  | nil => rfl
  | cons round rounds ih =>
    rw [List.foldl_cons, List.reverse_cons, List.foldl_append, ih (h.step hkey round),
      List.foldl_cons, List.foldl_nil, step_swap_step hkey h]

theorem halved_of_even {text : List UInt8} (heven : text.length % 2 = 0) :
    Halved (text.length / 2) (text.take (text.length / 2), text.drop (text.length / 2)) := by
  refine ⟨?_, ?_⟩
  · rw [List.length_take]
    omega
  · rw [List.length_drop]
    omega

theorem length_network (hkey : Covering key) (rounds : List UInt8) {text : List UInt8}
    (heven : text.length % 2 = 0) : (network key rounds text).length = text.length := by
  obtain ⟨hleft, hright⟩ := (halved_of_even heven).foldl_step hkey rounds
  simp only [network, List.length_append, hleft, hright]
  omega

/-- **The network is undone by its rounds in reverse.** -/
theorem network_reverse (hkey : Covering key) (rounds : List UInt8) {text : List UInt8}
    (heven : text.length % 2 = 0) :
    network key rounds.reverse (network key rounds text) = text := by
  have hhalved := halved_of_even heven
  obtain ⟨hleft, hright⟩ := hhalved.foldl_step hkey rounds
  have hreverse := foldl_step_reverse hkey hhalved rounds
  have hlength := length_network hkey rounds heven
  set half := text.length / 2 with hhalf
  set halves := rounds.foldl (step key) (text.take half, text.drop half) with hhalves
  have hnetwork : network key rounds text = halves.2 ++ halves.1 := rfl
  have hback : rounds.reverse.foldl (step key) (halves.2, halves.1) =
      (text.drop half, text.take half) := hreverse
  rw [network, hlength, hnetwork, ← hhalf, List.take_left' hright, List.drop_left' hright, hback,
    List.take_append_drop]

/-! ### Encrypting and decrypting -/

theorem checkPassphrase_eq_ok {passphrase : List UInt8}
    (h : ∀ byte ∈ passphrase, isPrintable byte = true) : checkPassphrase passphrase = .ok () := by
  rw [checkPassphrase, if_pos (List.all_eq_true.mpr h)]

/-- What the cipher refuses: a text that cannot be halved, and else a passphrase with a byte that is
not printable. -/
def Refuses (passphrase text : List UInt8) (fault : Fault) : Prop :=
  ((text = [] ∨ text.length % 2 = 1) ∧ fault = .secretLength text.length) ∨
    ((text ≠ [] ∧ text.length % 2 = 0) ∧ (∃ byte ∈ passphrase, byte < 0x20 ∨ 0x7e < byte) ∧
      fault = .passphrase)

theorem isPrintable_iff {byte : UInt8} : isPrintable byte = true ↔ 0x20 ≤ byte ∧ byte ≤ 0x7e := by
  rw [isPrintable, Bool.and_eq_true, decide_eq_true_eq, decide_eq_true_eq]

theorem not_isPrintable_iff {byte : UInt8} :
    ¬ isPrintable byte = true ↔ byte < 0x20 ∨ 0x7e < byte := by
  rw [isPrintable_iff, not_and_or, UInt8.not_le, UInt8.not_le]

section Keys

variable [KeyDerivation] {p : Parameters} {passphrase : List UInt8}

theorem covering_roundKey (p : Parameters) (passphrase : List UInt8) :
    Covering (roundKey p passphrase) :=
  fun _ _ => KeyDerivation.length_derive ..

theorem run_eq_ok (hprintable : ∀ byte ∈ passphrase, isPrintable byte = true)
    {text : List UInt8} (hne : text ≠ []) (heven : text.length % 2 = 0) (rounds : List UInt8) :
    run p passphrase rounds text = .ok (network (roundKey p passphrase) rounds text) := by
  have hlength : (text.isEmpty || decide (text.length % 2 ≠ 0)) = false := by
    simp [hne, heven]
  rw [run, hlength, checkPassphrase_eq_ok hprintable]
  rfl

theorem run_eq_error_iff {text : List UInt8} {rounds : List UInt8} {fault : Fault} :
    run p passphrase rounds text = .error fault ↔ Refuses passphrase text fault := by
  unfold Refuses
  by_cases hne : text = []
  · subst hne
    simp [run, eq_comm]
  by_cases heven : text.length % 2 = 0
  · have hodd : ¬ text.length % 2 = 1 := by omega
    by_cases hprintable : ∀ byte ∈ passphrase, isPrintable byte = true
    · have hnone : ¬ ∃ byte ∈ passphrase, byte < 0x20 ∨ 0x7e < byte := by
        rintro ⟨byte, hbyte, hother⟩
        exact not_isPrintable_iff.mpr hother (hprintable byte hbyte)
      rw [run_eq_ok hprintable hne heven]
      simp only [reduceCtorEq, hne, hodd, hnone, or_self, false_and, and_false]
    · have hsome : ∃ byte ∈ passphrase, byte < 0x20 ∨ 0x7e < byte := by
        push Not at hprintable
        simpa only [not_isPrintable_iff] using hprintable
      have hcheck : checkPassphrase passphrase = .error .passphrase := by
        rw [checkPassphrase, if_neg (by rwa [List.all_eq_true])]
      have hhalved : (text.isEmpty || decide (text.length % 2 ≠ 0)) = false := by
        simp [hne, heven]
      rw [run, hhalved, hcheck]
      simp [hne, heven, hsome, eq_comm]
  · have hodd : text.length % 2 = 1 := by omega
    have hhalved : (text.isEmpty || decide (text.length % 2 ≠ 0)) = true := by
      simp [hodd]
    rw [run, hhalved, if_pos rfl]
    simp [hne, hodd, eq_comm]

/-- A text that can be halved fails for its passphrase only. -/
theorem fault_of_run {text : List UInt8} (hne : text ≠ []) (heven : text.length % 2 = 0)
    {rounds : List UInt8} {fault : Fault} (h : run p passphrase rounds text = .error fault) :
    fault = .passphrase := by
  rcases run_eq_error_iff.mp h with ⟨hlength, -⟩ | ⟨-, -, rfl⟩
  · have hodd : text.length % 2 = 1 := hlength.resolve_left hne
    omega
  · rfl

/-! ### A permutation -/

/-- An extendable backup has the same keys under all identifiers. -/
theorem roundKey_other {other : Identifier} (h : p.extendable = true ∨ other = p.identifier) :
    roundKey { p with identifier := other } passphrase = roundKey p passphrase := by
  rcases h with hextendable | rfl
  · have hsalt : saltStart { p with identifier := other } = saltStart p := by
      rw [saltStart, saltStart, if_pos hextendable, if_pos hextendable]
    funext round half
    rw [roundKey, roundKey, hsalt]
  · rfl

/-- Rounds and their reverse undo each other, under another identifier too if the backup is
extendable. -/
theorem run_reverse {text : List UInt8} (hne : text ≠ []) (heven : text.length % 2 = 0)
    (hprintable : ∀ byte ∈ passphrase, isPrintable byte = true) (rounds : List UInt8) :
    ∃ covered, run p passphrase rounds text = .ok covered ∧ covered.length = text.length ∧
      ∀ other : Identifier, p.extendable = true ∨ other = p.identifier →
        run { p with identifier := other } passphrase rounds.reverse covered = .ok text := by
  have hkey := covering_roundKey p passphrase
  have hlength := length_network hkey rounds heven
  refine ⟨_, run_eq_ok hprintable hne heven rounds, hlength, fun other hother => ?_⟩
  have hcovered : network (roundKey p passphrase) rounds text ≠ [] := by
    rw [← List.length_pos_iff, hlength, List.length_pos_iff]
    exact hne
  rw [run_eq_ok hprintable hcovered (by rwa [hlength]), roundKey_other hother,
    network_reverse hkey rounds heven]

end Keys

/-- **The cipher permutes the texts of each length.** Every text of even length can be encrypted and
decrypted under a printable passphrase, to as many bytes, and each undoes the other, under any
identifier if the backup is extendable. What is refused is the same in both directions. -/
theorem encrypt_decrypt_permute (p : Parameters) (passphrase : List UInt8) :
    (∀ text : List UInt8, text ≠ [] → text.length % 2 = 0 →
      (∀ byte ∈ passphrase, 0x20 ≤ byte ∧ byte ≤ 0x7e) →
      ∃ encrypted decrypted, encrypt p passphrase text = .ok encrypted ∧
        decrypt p passphrase text = .ok decrypted ∧
        encrypted.length = text.length ∧ decrypted.length = text.length ∧
        ∀ other : Identifier, p.extendable = true ∨ other = p.identifier →
          decrypt { p with identifier := other } passphrase encrypted = .ok text ∧
          encrypt { p with identifier := other } passphrase decrypted = .ok text) ∧
    ∀ text fault,
      (encrypt p passphrase text = .error fault ↔ Refuses passphrase text fault) ∧
      (decrypt p passphrase text = .error fault ↔ Refuses passphrase text fault) := by
  refine ⟨fun text hne heven hbytes => ?_, fun _ _ => ⟨run_eq_error_iff, run_eq_error_iff⟩⟩
  have hprintable : ∀ byte ∈ passphrase, isPrintable byte = true :=
    fun byte hbyte => isPrintable_iff.mpr (hbytes byte hbyte)
  obtain ⟨encrypted, hencrypt, hencrypted, hback⟩ :=
    run_reverse (p := p) hne heven hprintable [0, 1, 2, 3]
  obtain ⟨decrypted, hdecrypt, hdecrypted, hforth⟩ :=
    run_reverse (p := p) hne heven hprintable [3, 2, 1, 0]
  exact ⟨encrypted, decrypted, hencrypt, hdecrypt, hencrypted, hdecrypted,
    fun other hother => ⟨hback other hother, hforth other hother⟩⟩

/-- An extendable backup, encrypted under one identifier and decrypted under another. -/
theorem encrypt_decrypt_permute_extendable :
    let p : Parameters := ⟨⟨7945, by decide⟩, true, ⟨1, by decide⟩⟩
    let passphrase : List UInt8 := [0x70, 0x61, 0x73, 0x73]
    let text : List UInt8 := List.replicate 32 0x42
    (text ≠ [] ∧ text.length % 2 = 0 ∧ ∀ byte ∈ passphrase, 0x20 ≤ byte ∧ byte ≤ 0x7e) ∧
      ∃ encrypted, encrypt p passphrase text = .ok encrypted ∧ encrypted.length = 32 ∧
        decrypt { p with identifier := ⟨1, by decide⟩ } passphrase encrypted = .ok text := by
  intro p passphrase text
  have hne : text ≠ [] := by decide
  have heven : text.length % 2 = 0 := by decide
  have hall : passphrase.all isPrintable = true := by decide
  have hbytes : ∀ byte ∈ passphrase, 0x20 ≤ byte ∧ byte ≤ 0x7e :=
    fun byte hbyte => isPrintable_iff.mp (List.all_eq_true.mp hall byte hbyte)
  obtain ⟨encrypted, _, hencrypt, _, hlength, _, hother⟩ :=
    (encrypt_decrypt_permute p passphrase).1 text hne heven hbytes
  exact ⟨⟨hne, heven, hbytes⟩, encrypted, hencrypt, hlength, (hother ⟨1, by decide⟩ (.inl rfl)).1⟩

end PassphraseCipher

namespace EncryptedSecret

open PassphraseCipher

variable {p : Parameters} {passphrase secret : List UInt8}

/-- Every supported secret can be encrypted, and the passphrase decrypts it. -/
theorem exists_ofSecret_eq_ok (hlength : SupportedLength secret.length)
    (hprintable : ∀ byte ∈ passphrase, isPrintable byte = true) :
    ∃ encrypted : EncryptedSecret, ofSecret p passphrase secret = .ok encrypted ∧
      encrypted.parameters = p ∧ encrypted.decrypt passphrase = .ok secret := by
  obtain ⟨hleast, -, heven⟩ := id hlength
  have hne : secret ≠ [] := List.ne_nil_of_length_pos (Nat.lt_of_lt_of_le (by decide) hleast)
  obtain ⟨value, hrun, hsame, hback⟩ := run_reverse (p := p) hne heven hprintable [0, 1, 2, 3]
  have hsupported : SupportedLength value.length := by rwa [hsame]
  refine ⟨⟨p, value, hsupported⟩, ?_, rfl, hback p.identifier (.inr rfl)⟩
  rw [ofSecret, checkSecretLength, if_pos hlength, ok_bind, encrypt, hrun, ok_bind, ofValue,
    dif_pos hsupported]

theorem ne_nil (encrypted : EncryptedSecret) : encrypted.value ≠ [] :=
  List.ne_nil_of_length_pos (Nat.lt_of_lt_of_le (by decide) encrypted.supported.1)

theorem exists_decrypt_eq_ok (encrypted : EncryptedSecret)
    (hprintable : ∀ byte ∈ passphrase, isPrintable byte = true) :
    ∃ secret, encrypted.decrypt passphrase = .ok secret :=
  ⟨_, run_eq_ok hprintable encrypted.ne_nil encrypted.supported.2.2 [3, 2, 1, 0]⟩

/-- Nothing but the passphrase keeps an encrypted secret from being decrypted. -/
theorem fault_of_decrypt {encrypted : EncryptedSecret} {fault : Fault}
    (h : encrypted.decrypt passphrase = .error fault) : fault = .passphrase :=
  fault_of_run encrypted.ne_nil encrypted.supported.2.2 h

end EncryptedSecret

end ShamirBackup
