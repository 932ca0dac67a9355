import ShamirBackup.Backup.Combine
import ShamirBackup.Backup.Split
import ShamirBackup.Service.Failure
import ShamirBackup.Text.Hex

/-!
# Service in plain text

Splitting, combining and inspecting with secrets in hexadecimal and shares as mnemonics.
-/

namespace ShamirBackup.Service.Plain

/-- A passphrase as the cipher takes it. -/
def bytesOf (text : String) : List UInt8 := text.toUTF8.toList

/-- Reads a master secret. -/
def readSecret (text : String) : Except Failure (List UInt8) :=
  (Text.Hex.decode (Text.trim text)).mapError fun fault =>
    ⟨"Master secret must be hex encoded", some fault.message⟩

/-- The mnemonics of all shares, group by group. -/
def split (plan : Plan) (secretText passphrase : String) :
    Dealer Failure (List (List String)) := do
  let secret ← Dealer.ofExcept (readSecret secretText)
  let shares ← (Backup.splitSecret plan (bytesOf passphrase) secret).mapError
    (.ofFault "Failed to split master secret")
  pure (shares.map fun group => group.map Share.mnemonic)

/-- Reads shares; `position` is the number of the first. -/
def readShares (position : Nat) : List String → Except Failure (List Share)
  | [] => .ok []
  | text :: texts =>
    match Share.ofMnemonic text with
    | .error fault => .error (.ofFault s!"Failed to parse share #{position}" fault)
    | .ok share => (readShares (position + 1) texts).map (share :: ·)

/-- The master secret of the shares in hexadecimal. -/
def combine (shareTexts : List String) (passphrase : String) : Traced Failure String :=
  if shareTexts.isEmpty then Traced.fail { headline := "No shares provided" }
  else do
    let shares ← Traced.ofExcept (readShares 1 shareTexts)
    let encrypted ← (Backup.combine shares).mapError (.ofFault "Failed to combine shares")
    let secret ← Traced.ofExcept ((encrypted.decrypt (bytesOf passphrase)).mapError
      (.ofFault "Failed to decrypt master secret"))
    pure (Text.Hex.encode secret)

/-- The metadata of a share for people, who count from one. -/
def describe (share : Share) : String :=
  let m := share.metadata
  "\n".intercalate [
    s!"identifier: {m.identifier.val}",
    s!"extendable: {m.extendable}",
    s!"iteration exponent: {m.exponent.val}",
    s!"group: {m.groupIndex.val + 1} of {m.groupCount.val} (threshold {m.groupThreshold.val})",
    s!"member: {m.memberIndex.val + 1} (threshold {m.memberThreshold.val})",
    s!"words: {share.wordCount}",
    s!"secret length: {8 * share.value.length} bits"]

/-- Describes a share. -/
def inspect (shareText : String) : Except Failure String :=
  match Share.ofMnemonic shareText with
  | .error fault => .error (.ofFault "Failed to parse share" fault)
  | .ok share => .ok (describe share)

end ShamirBackup.Service.Plain
