import ShamirBackup.Service.Plain
import ShamirBackup.Text.Pairs

/-!
# Service in JSON

The same service for callers that exchange JSON: structured answers are objects in a compact form,
and a failure is a single line.
-/

namespace ShamirBackup.Service.Json

/-! ### Compact JSON -/

/-- A quoted text, of letters and spaces, in which nothing needs to be escaped. -/
def quoted (text : String) : String := "\"" ++ text ++ "\""

def list (items : List String) : String := "[" ++ ",".intercalate items ++ "]"

def object (fields : List (String × String)) : String :=
  "\x7b" ++ ",".intercalate (fields.map fun field => quoted field.1 ++ ":" ++ field.2) ++ "\x7d"

/-! ### Splitting -/

/-- The shares of a new backup and the thresholds by which they recover it. -/
structure SplitReply where
  groups : List (List String)
  groupThreshold : Nat
  memberThresholds : List Nat

def SplitReply.json (reply : SplitReply) : String :=
  object [
    ("groups", list (reply.groups.map fun group => list (group.map quoted))),
    ("group_threshold", toString reply.groupThreshold),
    ("member_thresholds", list (reply.memberThresholds.map toString))]

/-- Splits by a plan. -/
def splitPlan (plan : Plan) (secretText passphrase : String) : Dealer String SplitReply := do
  let groups ← (Plain.split plan secretText passphrase).mapError
    fun failure => "Split failed: " ++ failure.line
  pure {
    groups := groups
    groupThreshold := plan.groupThreshold.val
    memberThresholds := plan.groups.map (·.threshold.val) }

/-- Replaces a fault by its message behind `headline`. -/
def orSay {α : Type} (headline : String) (outcome : Except Fault α) : Dealer String α :=
  Dealer.ofExcept (outcome.mapError fun fault => headline ++ ": " ++ fault.message)

/-- Splits among the members of a single group. -/
def split (secretText passphrase : String) (threshold shares : Nat) :
    Dealer String SplitReply := do
  let plan ← orSay "Invalid configuration" (Plan.singleGroup threshold shares)
  splitPlan plan secretText passphrase

/-- Splits among groups given as JSON, which are read before all other arguments. -/
def splitGroups (secretText passphrase groupsText : String) (groupThreshold exponent : Nat)
    (extendable : Bool) : Dealer String SplitReply :=
  match Text.Pairs.parse? groupsText with
  | none =>
    Dealer.fail "Invalid groups (expected [[threshold, count], ...]): not a list of such pairs"
  | some pairs => do
    let exponent ← orSay "Invalid iteration exponent" (IterationExponent.ofNat exponent)
    let plan ← orSay "Invalid configuration" (Plan.ofPairs groupThreshold pairs)
    splitPlan ((plan.withExponent exponent).withExtendable extendable) secretText passphrase

/-! ### Other requests -/

/-- The master secret of the shares in hexadecimal. -/
def combine (shareTexts : List String) (passphrase : String) : Traced String String :=
  (Plain.combine shareTexts passphrase).mapError
    fun failure => "Combine failed: " ++ failure.line

/-- The metadata of a share as an object. -/
def shareInfo (share : Share) : String :=
  let m := share.metadata
  object [
    ("identifier", toString m.identifier.val),
    ("extendable", toString m.extendable),
    ("iteration_exponent", toString m.exponent.val),
    ("group_index", toString m.groupIndex.val),
    ("group_threshold", toString m.groupThreshold.val),
    ("group_count", toString m.groupCount.val),
    ("member_index", toString m.memberIndex.val),
    ("member_threshold", toString m.memberThreshold.val),
    ("word_count", toString share.wordCount)]

/-- Describes a share. -/
def parseShare (shareText : String) : Except String String :=
  match Share.ofMnemonic shareText with
  | .error fault => .error ("Parse failed: " ++ fault.message)
  | .ok share => .ok (shareInfo share)

/-- A fresh master secret of one of the two usual strengths. -/
def generate (bits : Nat) : Dealer String String :=
  if bits = 128 ∨ bits = 256 then do
    pure (Text.Hex.encode (← Dealer.draw (bits / 8)))
  else Dealer.fail "Invalid strength: must be 128 or 256 bits"

end ShamirBackup.Service.Json
