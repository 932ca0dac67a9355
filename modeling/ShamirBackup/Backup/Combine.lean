import ShamirBackup.EncryptedSecret
import ShamirBackup.Share.Words
import ShamirBackup.Sharing

/-!
# Combining shares

Shares are first vetted: they must be of one backup, agree on the threshold of each group and be of
different members. Groups with enough members give up their share of the secret, the others are left
out, and enough groups give up the secret.
-/

namespace ShamirBackup

namespace Share

def groupIndex (share : Share) : Nat := share.metadata.groupIndex.val

def memberIndex (share : Share) : Nat := share.metadata.memberIndex.val

def memberThreshold (share : Share) : Nat := share.metadata.memberThreshold.val

/-- The share as a point on the polynomials of its group. -/
def point (share : Share) : Point := ⟨UInt8.ofNat share.memberIndex, share.value⟩

/-- The first thing in which two shares cannot be of one backup. -/
def mismatch? (a b : Share) : Option SetFlaw :=
  if a.metadata.identifier ≠ b.metadata.identifier then some .identifiers
  else if a.metadata.extendable ≠ b.metadata.extendable then some .extendableFlags
  else if a.metadata.exponent ≠ b.metadata.exponent then some .exponents
  else if a.metadata.groupThreshold ≠ b.metadata.groupThreshold ∨
      a.metadata.groupCount ≠ b.metadata.groupCount then some .groupParameters
  else if a.value.length ≠ b.value.length then some .valueLengths
  else none

end Share

namespace Backup

/-! ### Vetting -/

/-- Compares each share with the first one. -/
def checkSameBackup (first : Share) : List Share → Traced Fault Unit
  | [] => pure ()
  | share :: shares =>
    match first.mismatch? share with
    | none => checkSameBackup first shares
    | some flaw => do
      Traced.report (.setRejected flaw)
      Traced.fail (.set flaw)

/-- Compares a share with the earlier members of its group: the first of them for the threshold, and
all of them for the index. -/
def checkMember (earlier : List Share) (share : Share) : Traced Fault Unit :=
  let fellows := earlier.filter (·.groupIndex = share.groupIndex)
  if fellows.head?.any (·.memberThreshold ≠ share.memberThreshold) then do
    Traced.report (.thresholdsDiffer share.groupIndex)
    Traced.fail (.set .memberThresholds)
  else if fellows.any (·.memberIndex = share.memberIndex) then do
    Traced.report (.memberRepeated share.groupIndex share.memberIndex)
    Traced.fail (.repeatedMember share.groupIndex share.memberIndex)
  else pure ()

/-- Compares each share with those before it; `earlier` holds the ones already compared. -/
def checkMembers (earlier : List Share) : List Share → Traced Fault Unit
  | [] => pure ()
  | share :: shares => do
    checkMember earlier share
    checkMembers (earlier ++ [share]) shares

/-! ### Groups -/

/-- The shares of one group, in the order in which they were given. -/
structure Group where
  index : Nat
  members : List Share

namespace Group

/-- The threshold that the members agree on. -/
def threshold (group : Group) : Nat :=
  match group.members with
  | [] => 0
  | member :: _ => member.memberThreshold

def isComplete (group : Group) : Bool :=
  group.threshold ≤ group.members.length

/-- The point of the group on the polynomials of the backup. -/
def recover (group : Group) : Traced Fault Point := do
  let value ← Sharing.recover group.threshold (group.members.map Share.point)
  Traced.report (.groupRecovered group.index group.members.length)
  pure ⟨UInt8.ofNat group.index, value⟩

end Group

/-- The groups that have members among `shares`, by index. -/
def groupsOf (shares : List Share) : List Group :=
  (List.range 16).filterMap fun index =>
    match shares.filter (·.groupIndex = index) with
    | [] => none
    | members => some ⟨index, members⟩

/-- The fault of having too few complete groups: it names the first one that is not. -/
def incompleteFault (groups : List Group) (needed got : Nat) : Fault :=
  match groups.find? (!·.isComplete) with
  | some group => .tooFewMembers group.index group.threshold group.members.length
  | none => .tooFewGroups needed got

/-- Recovers the points of the complete groups, of which there must be `needed`. -/
def recoverGroups (needed : Nat) (groups : List Group) : Traced Fault (List Point) := do
  let points ← (groups.filter Group.isComplete).mapM Group.recover
  if points.length < needed then
    let fault := incompleteFault groups needed points.length
    Traced.report (.groupsIncomplete fault)
    Traced.fail fault
  else pure points

/-! ### The secret -/

/-- The encrypted secret of shares in any order. -/
def combine (shares : List Share) : Traced Fault EncryptedSecret :=
  match shares with
  | [] => Traced.fail .noMnemonics
  | first :: others => do
    let common := first.metadata
    Traced.report (.combining shares.length common.identifier.val)
    checkSameBackup first others
    checkMembers [] shares
    let groups := groupsOf shares
    let needed := common.groupThreshold.val
    if groups.length < needed then
      Traced.report (.groupsMissing groups.length needed)
      Traced.fail (.tooFewGroups needed groups.length)
    else
      let points ← recoverGroups needed groups
      let value ← Sharing.recover needed points
      Traced.report (.secretRecovered common.identifier.val)
      EncryptedSecret.ofValue common.toParameters value

/-- Reads mnemonics, combines their shares and decrypts the secret. -/
def combineMnemonics (mnemonics : List String) (passphrase : List UInt8) :
    Traced Fault (List UInt8) :=
  if mnemonics.isEmpty then Traced.fail .noMnemonics
  else do
    let shares ← Traced.ofExcept (mnemonics.mapM Share.ofMnemonic)
    let encrypted ← combine shares
    encrypted.decrypt passphrase

end Backup

end ShamirBackup
