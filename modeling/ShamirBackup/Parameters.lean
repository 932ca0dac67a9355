import ShamirBackup.Bits
import ShamirBackup.Fault

/-!
# Parameters of a backup

The small numbers that a share carries, each with its range, and the three of them that belong to
the backup as a whole.
-/

namespace ShamirBackup

/-- The random number that ties the shares of one backup together. -/
structure Identifier where
  val : Nat
  val_lt : val < 1 <<< 15
deriving DecidableEq

namespace Identifier

def ofNat (n : Nat) : Except Fault Identifier :=
  if h : n < 1 <<< 15 then .ok ⟨n, h⟩ else .error (.form .identifierRange)

@[simp] theorem ofNat_val (id : Identifier) : ofNat id.val = .ok id := dif_pos id.val_lt

/-- The lowest fifteen bits of two random bytes. -/
def ofDraw (draw : List UInt8) : Identifier :=
  let n := draw.foldl (fun n byte => 256 * n + byte.toNat) 0
  ⟨n % (1 <<< 15), Nat.mod_lt _ (by decide)⟩

/-- Two bytes, the high one first. -/
def bytes (id : Identifier) : List UInt8 :=
  [UInt8.ofNat (id.val / 256), UInt8.ofNat id.val]

end Identifier

/-- How often the work of testing a passphrase is doubled. -/
structure IterationExponent where
  val : Nat
  val_lt : val < 16
deriving DecidableEq

namespace IterationExponent

def ofNat (n : Nat) : Except Fault IterationExponent :=
  if h : n < 16 then .ok ⟨n, h⟩ else .error (.form .exponentRange)

@[simp] theorem ofNat_val (exponent : IterationExponent) : ofNat exponent.val = .ok exponent :=
  dif_pos exponent.val_lt

instance : Inhabited IterationExponent := ⟨⟨0, Nat.zero_lt_succ 15⟩⟩

/-- The iterations of one round of the cipher, which has four. -/
def roundIterations (exponent : IterationExponent) : Nat :=
  2500 <<< exponent.val

end IterationExponent

/-- How many of the groups or members are needed. -/
structure Threshold where
  val : Nat
  one_le : 1 ≤ val
  le_sixteen : val ≤ 16
deriving DecidableEq

def Threshold.ofNat (n : Nat) : Except Fault Threshold :=
  if h : 1 ≤ n ∧ n ≤ 16 then .ok ⟨n, h.1, h.2⟩ else .error (.memberThreshold n)

@[simp] theorem Threshold.ofNat_val (threshold : Threshold) : ofNat threshold.val = .ok threshold :=
  dif_pos ⟨threshold.one_le, threshold.le_sixteen⟩

/-- The threshold that any one meets. -/
def Threshold.one : Threshold := ⟨1, by decide, by decide⟩

@[simp] theorem Threshold.val_one : one.val = 1 := rfl

/-- How many groups or members there are. -/
structure ShareCount where
  val : Nat
  one_le : 1 ≤ val
  le_sixteen : val ≤ 16
deriving DecidableEq

def ShareCount.ofNat (n : Nat) : Except Fault ShareCount :=
  if h₁ : 1 ≤ n then
    if h₂ : n ≤ 16 then .ok ⟨n, h₁, h₂⟩ else .error (.form .countRange)
  else .error (.form .countZero)

@[simp] theorem ShareCount.ofNat_val (count : ShareCount) : ofNat count.val = .ok count := by
  rw [ofNat, dif_pos count.one_le, dif_pos count.le_sixteen]

def ShareCount.one : ShareCount := ⟨1, by decide, by decide⟩

/-- The place of a group in its backup or of a member in its group, from zero on. -/
structure ShareIndex where
  val : Nat
  val_lt : val < 16
deriving DecidableEq

def ShareIndex.ofNat (n : Nat) : Except Fault ShareIndex :=
  if h : n < 16 then .ok ⟨n, h⟩ else .error (.form .indexRange)

@[simp] theorem ShareIndex.ofNat_val (index : ShareIndex) : ofNat index.val = .ok index :=
  dif_pos index.val_lt

/-- What the encryption of a backup depends on and all of its shares agree in. -/
structure Parameters where
  identifier : Identifier
  extendable : Bool
  exponent : IterationExponent
deriving DecidableEq

namespace Parameters

def bits (p : Parameters) : List Bool :=
  Bits.ofNat 15 p.identifier.val ++ p.extendable :: Bits.ofNat 4 p.exponent.val

/-- The parameters in the first twenty bits. -/
def ofBits (bits : List Bool) : Parameters where
  identifier := ⟨Bits.field bits 0 15, Bits.field_lt ..⟩
  extendable := Bits.field bits 15 1 == 1
  exponent := ⟨Bits.field bits 16 4, Bits.field_lt ..⟩

end Parameters

end ShamirBackup
