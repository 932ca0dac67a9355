import ShamirBackup.Parameters

/-!
# Plans

A plan says how a secret is to be shared: how many groups there are, how many of them are needed,
and the same for the members of each group. Only plans that can be carried out exist.
-/

namespace ShamirBackup

/-- A number as one byte holds it: from 256 on it starts again from zero. Groups are counted in a
byte, and only once they are known to be few. -/
def byteCount (n : Nat) : Nat := (UInt8.ofNat n).toNat

theorem byteCount_of_le {n : Nat} (h : n ≤ 16) : byteCount n = n :=
  UInt8.toNat_ofNat_of_lt' (Nat.lt_of_le_of_lt h (by decide))

/-- The members of one group. A threshold of one means a single share, not copies of it. -/
structure GroupSpec where
  threshold : Threshold
  count : ShareCount
  threshold_le_count : threshold.val ≤ count.val
  count_eq_one : threshold.val = 1 → count.val = 1
deriving DecidableEq

/-- The group of this threshold and count. Each is checked on its own before they are compared. -/
def GroupSpec.ofPair (threshold count : Nat) : Except Fault GroupSpec := do
  let t ← Threshold.ofNat threshold
  let n ← ShareCount.ofNat count
  if h : t.val ≤ n.val then
    if h₁ : t.val = 1 → n.val = 1 then pure ⟨t, n, h, h₁⟩ else throw (.crowdedSingleton count)
  else throw (.memberThreshold threshold)

/-- The groups of a backup, how many of them are needed, and what the encryption is to use. -/
structure Plan where
  groupThreshold : Threshold
  groups : List GroupSpec
  exponent : IterationExponent := default
  extendable : Bool := false
  threshold_le_length : groupThreshold.val ≤ groups.length
  length_le : groups.length ≤ 16
deriving DecidableEq

namespace Plan

/-- The plan for these groups, with exponent zero and not extendable. -/
def ofGroups (groupThreshold : Nat) (groups : List GroupSpec) : Except Fault Plan :=
  if groups.isEmpty then .error (.form .noGroups)
  else if hlen : groups.length ≤ 16 then
    if h : 1 ≤ groupThreshold ∧ groupThreshold ≤ byteCount groups.length then
      have hle : groupThreshold ≤ groups.length := byteCount_of_le hlen ▸ h.2
      .ok {
        groupThreshold := ⟨groupThreshold, h.1, Nat.le_trans hle hlen⟩
        groups := groups
        threshold_le_length := hle
        length_le := hlen }
    else .error (.groupThreshold groupThreshold (byteCount groups.length))
  else .error (.form .groupCount)

/-- The plan for groups given as threshold and count. A group threshold that no choice of groups of
this number could meet is reported before the groups are looked at. -/
def ofPairs (groupThreshold : Nat) (pairs : List (Nat × Nat)) : Except Fault Plan :=
  if pairs.length ≤ 16 ∧ (groupThreshold = 0 ∨ byteCount pairs.length < groupThreshold) then
    .error (.groupThreshold groupThreshold (byteCount pairs.length))
  else do
    let groups ← pairs.mapM fun pair => GroupSpec.ofPair pair.1 pair.2
    ofGroups groupThreshold groups

/-- The plan for one group alone. -/
def singleGroup (threshold count : Nat) : Except Fault Plan := do
  let group ← GroupSpec.ofPair threshold count
  ofGroups 1 [group]

def withExponent (plan : Plan) (exponent : IterationExponent) : Plan :=
  { plan with exponent }

def withExtendable (plan : Plan) (extendable : Bool) : Plan :=
  { plan with extendable }

theorem one_le_length_groups (plan : Plan) : 1 ≤ plan.groups.length :=
  Nat.le_trans plan.groupThreshold.one_le plan.threshold_le_length

def groupCount (plan : Plan) : ShareCount :=
  ⟨plan.groups.length, plan.one_le_length_groups, plan.length_le⟩

end Plan

end ShamirBackup
