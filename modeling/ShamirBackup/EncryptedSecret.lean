import ShamirBackup.PassphraseCipher
import ShamirBackup.Share.Basic

/-!
# Encrypted secrets

The encrypted master secret is what is shared. With it goes what decrypting takes besides the
passphrase.
-/

namespace ShamirBackup

/-- The most bytes that a master secret may have. -/
def greatestLength : Nat := 32

/-- The lengths of master secrets: 16, 18 and so on up to 32 bytes. -/
def SupportedLength (length : Nat) : Prop :=
  leastLength ≤ length ∧ length ≤ greatestLength ∧ length % 2 = 0

instance (length : Nat) : Decidable (SupportedLength length) :=
  inferInstanceAs (Decidable (_ ∧ _ ∧ _))

/-- What is wrong with a length that is not supported. -/
def lengthFault (length : Nat) : Fault :=
  if length < leastLength then .secretTooShort length leastLength else .secretLength length

def checkSecretLength (length : Nat) : Except Fault Unit :=
  if SupportedLength length then .ok () else .error (lengthFault length)

/-- What the shares of a backup hold together. -/
@[ext] structure EncryptedSecret where
  parameters : Parameters
  value : List UInt8
  supported : SupportedLength value.length
deriving DecidableEq

namespace EncryptedSecret

/-- Takes a value as already encrypted. -/
def ofValue (parameters : Parameters) (value : List UInt8) : Except Fault EncryptedSecret :=
  if h : SupportedLength value.length then .ok ⟨parameters, value, h⟩
  else .error (lengthFault value.length)

/-- Encrypts a master secret. Its length is checked before the passphrase. -/
def ofSecret (parameters : Parameters) (passphrase secret : List UInt8) :
    Except Fault EncryptedSecret := do
  checkSecretLength secret.length
  ofValue parameters (← PassphraseCipher.encrypt parameters passphrase secret)

/-- The master secret for a passphrase. -/
def decrypt (encrypted : EncryptedSecret) (passphrase : List UInt8) : Except Fault (List UInt8) :=
  PassphraseCipher.decrypt encrypted.parameters passphrase encrypted.value

end EncryptedSecret

end ShamirBackup
