/-!
# Faults

Everything that can go wrong with a backup, by cause. `Fault.message` is the wording for people and
`Fault.statusCode?` the negative number for callers that take numbers only.
-/

namespace ShamirBackup

/-- Why shares do not make up one set. -/
inductive SetFlaw
  | noShares
  | valueLengths
  | repeatedIndices
  | belowThreshold
  | digest
  | redundantShare
  | identifiers
  | extendableFlags
  | exponents
  | groupParameters
  | memberThresholds
  | statedThreshold
  /-- A reason in the caller's own words. -/
  | other (reason : String)
deriving DecidableEq, Repr

namespace SetFlaw

/-- The reason as a message gives it. -/
def text : SetFlaw → String
  | noShares => "no shares to interpolate"
  | valueLengths => "share values differ in length"
  | repeatedIndices => "share indices are not unique"
  | belowThreshold => "fewer shares than the threshold"
  | digest => "share digest mismatch"
  | redundantShare => "redundant share does not match the others"
  | identifiers => "shares have different identifiers"
  | extendableFlags => "shares disagree on the extendable flag"
  | exponents => "shares have different iteration exponents"
  | groupParameters => "shares have different group parameters"
  | memberThresholds => "member thresholds differ within a group"
  | statedThreshold => "member threshold does not match the shares"
  | other reason => reason

end SetFlaw

/-- Why a number, a word list or a layout has no place in a share. -/
inductive FormFlaw
  | identifierRange
  | exponentRange
  | countZero
  | countRange
  | indexRange
  | noGroups
  | groupCount
  | wordRange
  | shareCount
  | wordCount
  | surplusWords
  /-- A reason in the caller's own words. -/
  | other (reason : String)
deriving DecidableEq, Repr

namespace FormFlaw

/-- The reason as a message gives it. -/
def text : FormFlaw → String
  | identifierRange => "identifier exceeds 15 bits"
  | exponentRange => "iteration exponent cannot exceed 15"
  | countZero => "share count must be at least 1"
  | countRange => "share count cannot exceed 16"
  | indexRange => "share index cannot exceed 15"
  | noGroups => "at least one group is required"
  | groupCount => "no more than 16 groups allowed"
  | wordRange => "word value exceeds 10 bits"
  | shareCount => "no more than 16 shares can be created"
  | wordCount => "word count must be 20 or 33"
  | surplusWords => "mnemonic has too many words"
  | other reason => reason

end FormFlaw

/-- A failure of splitting, reading or combining. -/
inductive Fault
  | tooFewWords (got least : Nat)
  | checksum
  | secretTooShort (got least : Nat)
  | groupThreshold (threshold count : Nat)
  | crowdedSingleton (count : Nat)
  | insufficientSpace (needed available : Nat)
  | secretLength (length : Nat)
  | passphrase
  | set (flaw : SetFlaw)
  | noMnemonics
  | repeatedMember (group member : Nat)
  | tooFewMembers (group needed got : Nat)
  | memberThreshold (threshold : Nat)
  | padding
  | tooFewGroups (needed got : Nat)
  | form (flaw : FormFlaw)
  | unknownWord (position : Nat)
  | foreignShare
  /-- Interpolation left fewer bytes than a digest has. Vetted shares never come to this. -/
  | truncatedDigest
deriving DecidableEq, Repr

namespace Fault

/-- Positions and indices count from zero inside and words from one in the text. -/
def message : Fault → String
  | tooFewWords got least => s!"mnemonic has {got} words, at least {least} are required"
  | checksum => "invalid mnemonic checksum"
  | secretTooShort got least => s!"master secret must be at least {least} bytes, got {got}"
  | groupThreshold threshold count =>
    s!"group threshold {threshold} must be between 1 and the group count {count}"
  | crowdedSingleton count =>
    s!"a group with member threshold 1 must have exactly one member, got {count}"
  | insufficientSpace needed available =>
    s!"output buffer too small: need {needed} words, have {available}"
  | secretLength length => s!"unsupported master secret length: {length} bytes"
  | passphrase => "passphrase must contain only printable ASCII characters"
  | set flaw => "invalid share set: " ++ flaw.text
  | noMnemonics => "no mnemonics provided"
  | repeatedMember group member => s!"duplicate member index {member} in group {group}"
  | tooFewMembers group needed got => s!"group {group} needs {needed} member shares, got {got}"
  | memberThreshold threshold => s!"member threshold {threshold} is out of range"
  | padding => "invalid padding in share value"
  | tooFewGroups needed got => s!"need shares from {needed} groups, got {got}"
  | form flaw => "malformed share buffer: " ++ flaw.text
  | unknownWord position => s!"word #{position + 1} is not in the SLIP-39 wordlist"
  | foreignShare => "share does not belong to this wallet"
  | truncatedDigest => "share values are too short to hold a digest"

/-- The status code of a success. -/
def successCode : Int := 0

/-- The status code of a failure; a truncated digest is never reported, so it has none. -/
def statusCode? : Fault → Option Int
  | tooFewWords .. => some (-1)
  | checksum => some (-2)
  | secretTooShort .. => some (-3)
  | groupThreshold .. => some (-4)
  | crowdedSingleton _ => some (-5)
  | insufficientSpace .. => some (-6)
  | secretLength _ => some (-7)
  | passphrase => some (-8)
  | set _ => some (-9)
  | noMnemonics => some (-10)
  | repeatedMember .. => some (-11)
  | tooFewMembers .. => some (-12)
  | memberThreshold _ => some (-13)
  | padding => some (-14)
  | tooFewGroups .. => some (-15)
  | form _ => some (-16)
  | unknownWord _ => some (-17)
  | foreignShare => some (-18)
  | truncatedDigest => none

end Fault

end ShamirBackup
