import ShamirBackup.Backup.Combine

/-!
# Entering shares

Shares are typed in one by one, each with the number of words announced for it, 20 or 33. The first
one shows what backup it is of. The others are compared with that backup before anything else about
them is checked, so that a share of another wallet is called just that.
-/

namespace ShamirBackup.Recovery

/-- The shares of secrets of 16 and of 32 bytes have so many words. -/
def isWordCount (count : Nat) : Bool := count == 20 || count == 33

def checkWordCount (count : Nat) : Except Fault Unit :=
  if isWordCount count then .ok () else .error (.form .wordCount)

/-- The words of a mnemonic, which must be as many as announced. -/
def readWords (wordCount : Nat) (text : String) : Except Fault (List Word) := do
  checkWordCount wordCount
  let words ← Mnemonic.words text
  if words.length < wordCount then throw (.tooFewWords words.length wordCount)
  else if wordCount < words.length then throw (.form .surplusWords)
  else pure words

/-- Reads a share of a backup that is still unknown. -/
def readFirst (wordCount : Nat) (text : String) : Except Fault Share := do
  Share.ofWords (← readWords wordCount text)

/-- Ten bits and the upper five of ten others make fifteen. -/
theorem identifier_lt (first second : Word) :
    first.val <<< 5 ||| second.val >>> 5 < 1 <<< 15 := by
  rw [Nat.one_shiftLeft, Nat.shiftLeft_eq, Nat.shiftRight_eq_div_pow]
  have hfirst := first.isLt
  have hsecond := second.isLt
  exact Nat.or_lt_two_pow (by omega) (by omega)

/-- The parameters that the first two words of a share spell: fifteen bits of identifier, the flag
and four bits of exponent. -/
def parametersOf (words : List Word) : Parameters :=
  let first := words.getD 0 Word.zero
  let second := words.getD 1 Word.zero
  { identifier := ⟨first.val <<< 5 ||| second.val >>> 5, identifier_lt first second⟩
    extendable := second.val.testBit 4
    exponent := ⟨second.val &&& 0xf, Nat.and_lt_two_pow second.val (by decide : 0xf < 2 ^ 4)⟩ }

/-- Reads a share of the backup with the parameters `expected`. -/
def readNext (expected : Parameters) (wordCount : Nat) (text : String) : Traced Fault Share := do
  let words ← Traced.ofExcept (readWords wordCount text)
  if parametersOf words ≠ expected then
    Traced.report (.foreignShare expected.identifier.val)
    Traced.fail .foreignShare
  else Share.ofWords words

/-- What a first share tells. -/
def checkFirst (wordCount : Nat) (text : String) : Except Fault Metadata := do
  pure (← readFirst wordCount text).metadata

/-- What a further share tells. -/
def checkNext (expected : Parameters) (wordCount : Nat) (text : String) :
    Traced Fault Metadata := do
  pure (← readNext expected wordCount text).metadata

/-! ### Recovering in one go -/

/-- An encrypted secret and what it decrypts to without a passphrase. -/
structure Recovered where
  encrypted : EncryptedSecret
  secret : List UInt8

/-- Checks shares against the member threshold that was announced for them. -/
def checkStated (memberThreshold : Nat) (shares : List Share) : Except Fault Unit :=
  match shares with
  | [] => .error .noMnemonics
  | first :: _ =>
    if first.memberThreshold ≠ memberThreshold then .error (.set .statedThreshold)
    else if shares.length < memberThreshold then
      .error (.tooFewMembers first.groupIndex memberThreshold shares.length)
    else .ok ()

/-- Recovers a secret from mnemonics that are all there from the start. -/
def recover (memberThreshold wordCount : Nat) (mnemonics : List String) :
    Traced Fault Recovered := do
  let shares ← Traced.ofExcept (mnemonics.mapM (readFirst wordCount))
  checkStated memberThreshold shares
  let encrypted ← Backup.combine shares
  let secret ← encrypted.decrypt []
  Traced.report (.backupRecovered encrypted.parameters.identifier.val)
  pure { encrypted, secret }

/-- The secret that a passphrase gives to an encrypted one. -/
def seed (parameters : Parameters) (value passphrase : List UInt8) : Except Fault (List UInt8) := do
  (← EncryptedSecret.ofValue parameters value).decrypt passphrase

end ShamirBackup.Recovery
