import ShamirBackup.Recovery.Session

/-!
# Redacted descriptions

Descriptions for diagnosis, which tell everything about shares and secrets but their bytes.
-/

namespace ShamirBackup.Redacted

/-! ### Shapes -/

def wrapped (name : String) (value : Nat) : String := s!"{name}({value})"

def field (name value : String) : String := name ++ ": " ++ value

def record (name : String) (fields : List String) : String :=
  name ++ " \x7b " ++ ", ".intercalate fields ++ " \x7d"

def listed (items : List String) : String := "[" ++ ", ".intercalate items ++ "]"

def bytesOmitted (bytes : List UInt8) : String := s!"<{bytes.length} bytes>"

/-! ### Descriptions -/

def parameterFields (p : Parameters) : List String := [
  field "identifier" (wrapped "Identifier" p.identifier.val),
  field "extendable" (toString p.extendable),
  field "iteration_exponent" (wrapped "IterationExponent" p.exponent.val)]

def metadata (m : Metadata) : String :=
  record "ShareMetadata" (parameterFields m.toParameters ++ [
    field "group_index" (wrapped "ShareIndex" m.groupIndex.val),
    field "group_threshold" (wrapped "Threshold" m.groupThreshold.val),
    field "group_count" (wrapped "ShareCount" m.groupCount.val),
    field "member_index" (wrapped "ShareIndex" m.memberIndex.val),
    field "member_threshold" (wrapped "Threshold" m.memberThreshold.val)])

def share (s : Share) : String :=
  record "Share" [field "metadata" (metadata s.metadata), field "value" (bytesOmitted s.value)]

def mnemonic : String := "ShareMnemonic(<redacted>)"

def encryptedSecret (e : EncryptedSecret) : String :=
  record "EncryptedMasterSecret"
    (parameterFields e.parameters ++ [field "value" (bytesOmitted e.value)])

def recovered (r : Recovery.Recovered) : String :=
  record "RecoveredSecret" [field "ems" (encryptedSecret r.encrypted), ".."]

def session (s : Recovery.Session) : String :=
  record "RecoverySession"
    [field "word_count" (toString s.wordCount), field "shares" (listed (s.shares.map share))]

end ShamirBackup.Redacted
