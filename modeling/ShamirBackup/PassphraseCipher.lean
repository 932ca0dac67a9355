import ShamirBackup.Hash.Pbkdf2
import ShamirBackup.Parameters

/-!
# The passphrase cipher

A master secret is encrypted by a Feistel network of four rounds, whose round function stretches the
passphrase. Any passphrase decrypts, each to a secret of its own. Any key derivation can do the
stretching, and for backups it is `Pbkdf2`.
-/

namespace ShamirBackup.PassphraseCipher

/-- Printable ASCII only, so that every keyboard can type the passphrase. -/
def isPrintable (byte : UInt8) : Bool := 0x20 ≤ byte && byte ≤ 0x7e

/-- Refuses a passphrase that is not printable throughout. -/
def checkPassphrase (passphrase : List UInt8) : Except Fault Unit :=
  if passphrase.all isPrintable then .ok () else .error .passphrase

/-- What the salt begins with. It leaves the identifier out in an extendable backup, so that new
identifiers give the same secret. -/
def saltStart (p : Parameters) : List UInt8 :=
  if p.extendable then []
  else "shamir".toList.map (fun c => UInt8.ofNat c.toNat) ++ p.identifier.bytes

/-- The key of a round, as long as the half of the text that it is taken from. -/
def roundKey [KeyDerivation] (p : Parameters) (passphrase : List UInt8) (round : UInt8)
    (half : List UInt8) : List UInt8 :=
  KeyDerivation.derive (round :: passphrase) (saltStart p ++ half) p.exponent.roundIterations
    half.length

/-- One round: the halves change places, and the left one is covered with the key of the right. -/
def step (key : UInt8 → List UInt8 → List UInt8) (halves : List UInt8 × List UInt8)
    (round : UInt8) : List UInt8 × List UInt8 :=
  (halves.2, List.zipWith (· ^^^ ·) halves.1 (key round halves.2))

/-- Runs the rounds on the halves of a text and joins them crosswise. -/
def network (key : UInt8 → List UInt8 → List UInt8) (rounds : List UInt8) (text : List UInt8) :
    List UInt8 :=
  let half := text.length / 2
  let halves := rounds.foldl (step key) (text.take half, text.drop half)
  halves.2 ++ halves.1

variable [KeyDerivation]

/-- Runs the network on a text that can be halved. -/
def run (p : Parameters) (passphrase : List UInt8) (rounds : List UInt8) (text : List UInt8) :
    Except Fault (List UInt8) :=
  if text.isEmpty || text.length % 2 ≠ 0 then .error (.secretLength text.length)
  else do
    checkPassphrase passphrase
    pure (network (roundKey p passphrase) rounds text)

/-- Encrypts a secret to as many bytes. -/
def encrypt (p : Parameters) (passphrase secret : List UInt8) : Except Fault (List UInt8) :=
  run p passphrase [0, 1, 2, 3] secret

/-- Undoes `encrypt` by taking the rounds in reverse. -/
def decrypt (p : Parameters) (passphrase encrypted : List UInt8) : Except Fault (List UInt8) :=
  run p passphrase [3, 2, 1, 0] encrypted

end ShamirBackup.PassphraseCipher
