import ShamirBackup.EncryptedSecret
import ShamirBackup.Plan
import ShamirBackup.Share.Words
import ShamirBackup.Sharing

/-!
# Splitting a backup

The encrypted secret is shared among the groups of a plan, and the share of each group among its
members. The result lists the shares of every group in the order of the groups.
-/

namespace ShamirBackup.Backup

/-- The share of the member at `point` of the group at `groupIndex`. -/
def shareAt (plan : Plan) (parameters : Parameters) (groupIndex : ShareIndex) (group : GroupSpec)
    (point : Point) : Except Fault Share := do
  let memberIndex ← ShareIndex.ofNat point.x.toNat
  Share.ofParts {
    toParameters := parameters
    groupIndex := groupIndex
    groupThreshold := plan.groupThreshold
    groupCount := plan.groupCount
    memberIndex := memberIndex
    memberThreshold := group.threshold } point.value

/-- Shares the value of one group among its members. -/
def splitGroup (plan : Plan) (parameters : Parameters) (point : Point) (group : GroupSpec) :
    Dealer Fault (List Share) := do
  Dealer.report (.splittingGroup point.x.toNat group.count.val group.threshold.val)
  let points ← Sharing.split group.threshold.val group.count.val point.value
  let groupIndex ← ShareIndex.ofNat point.x.toNat
  Dealer.ofExcept (points.mapM (shareAt plan parameters groupIndex group))

/-- Shares the value of each group among its members. -/
def splitGroups (plan : Plan) (parameters : Parameters) :
    List Point → List GroupSpec → Dealer Fault (List (List Share))
  | point :: points, group :: groups => do
    let shares ← splitGroup plan parameters point group
    let others ← splitGroups plan parameters points groups
    pure (shares :: others)
  | _, _ => pure []

/-- Splits an encrypted secret. Its own parameters go into the shares; of the plan only the groups
count. -/
def splitEncrypted (plan : Plan) (secret : EncryptedSecret) :
    Dealer Fault (List (List Share)) := do
  let parameters := secret.parameters
  Dealer.report (.splittingBackup parameters.identifier.val plan.groupCount.val
    plan.groupThreshold.val)
  let points ← Sharing.split plan.groupThreshold.val plan.groupCount.val secret.value
  let groups ← splitGroups plan parameters points plan.groups
  Dealer.report (.groupsEncoded groups.length)
  pure groups

/-- The random bytes that splitting a secret of `length` bytes takes. -/
def randomLength (plan : Plan) (length : Nat) : Nat :=
  Sharing.randomLength plan.groupThreshold.val length +
    (plan.groups.map fun group => Sharing.randomLength group.threshold.val length).foldr (· + ·) 0

/-- A random identifier. -/
def drawIdentifier : Dealer Fault Identifier := do
  pure (Identifier.ofDraw (← Dealer.draw 2))

/-- Encrypts a master secret under a fresh identifier and splits it. -/
def splitSecret (plan : Plan) (passphrase secret : List UInt8) :
    Dealer Fault (List (List Share)) := do
  let identifier ← drawIdentifier
  Dealer.report (.encrypting identifier.val plan.exponent.val plan.extendable)
  let parameters := { identifier, extendable := plan.extendable, exponent := plan.exponent }
  splitEncrypted plan (← EncryptedSecret.ofSecret parameters passphrase secret)

/-- Splits a master secret straight into mnemonics, for groups given as threshold and count. -/
def splitToMnemonics (secret : List UInt8) (exponent : Nat) (passphrase : List UInt8)
    (groups : List (Nat × Nat)) (groupThreshold : Nat) : Dealer Fault (List (List String)) := do
  let plan ← Plan.ofPairs groupThreshold groups
  let exponent ← IterationExponent.ofNat exponent
  let shares ← splitSecret (plan.withExponent exponent) passphrase secret
  pure (shares.map fun group => group.map Share.mnemonic)

end ShamirBackup.Backup
