import ShamirBackup.Entropy
import ShamirBackup.Hash.Hmac
import ShamirBackup.Interpolation
import ShamirBackup.Share.Basic

/-!
# Sharing a secret

The secret is the value at 255 of random polynomials, and the shares are their values at 0, 1, 2 and
so on. At 254 stands a digest of the secret, by which a wrong set of shares is noticed when the
secret is recovered. Both levels of a backup are shared in this way. Any keyed hash can make the
digests, and those of backups are made by `Hmac`.
-/

namespace ShamirBackup.Sharing

/-- The place of the secret. -/
def secretIndex : UInt8 := 255

/-- The place of the digest. -/
def digestIndex : UInt8 := 254

def digestLength : Nat := 4

/-- The most shares of one secret. -/
def maxShares : Nat := 16

variable [KeyedHash]

/-- The digest of a secret, keyed with random bytes that stand behind it. -/
def digest (random secret : List UInt8) : List UInt8 :=
  (KeyedHash.tag random secret).take digestLength

/-! ### Splitting -/

/-- The points that fix the polynomials: the random shares, the digest and the secret. -/
def base (randomShares : List (List UInt8)) (random secret : List UInt8) : List Point :=
  randomShares.mapIdx (fun i value => ⟨UInt8.ofNat i, value⟩) ++
    [⟨digestIndex, digest random secret ++ random⟩, ⟨secretIndex, secret⟩]

/-- `count` shares for the given random ones, which come first. The threshold is two more than their
number. -/
def deal (count : Nat) (randomShares : List (List UInt8)) (random secret : List UInt8) :
    Except Fault (List Point) := do
  let points := base randomShares random secret
  let known := randomShares.length
  let derived ← (List.range' known (count - known)).mapM fun i => do
    pure ⟨UInt8.ofNat i, ← interpolate points (UInt8.ofNat i)⟩
  pure (points.take known ++ derived)

/-- Shares `secret` among `count`, any `threshold` of whom recover it. A threshold of one makes
plain copies. -/
def split (threshold count : Nat) (secret : List UInt8) : Dealer Fault (List Point) :=
  if threshold = 0 ∨ count < threshold then .fail (.memberThreshold threshold)
  else if maxShares < count then .fail (.form .shareCount)
  else if secret.length < leastLength then .fail (.secretTooShort secret.length leastLength)
  else if threshold = 1 then
    pure ((List.range count).map fun i => ⟨UInt8.ofNat i, secret⟩)
  else do
    let randomShares ← Dealer.drawBlocks secret.length (threshold - 2)
    let random ← Dealer.draw (secret.length - digestLength)
    deal count randomShares random secret

/-- The random bytes that sharing a secret of `length` bytes takes. -/
def randomLength (threshold length : Nat) : Nat :=
  if threshold = 1 then 0 else (threshold - 1) * length - digestLength

/-! ### Recovering -/

/-- The secret on the polynomials through `points`, whose digest must agree with it. -/
def reveal (points : List Point) : Except Fault (List UInt8) := do
  let secret ← interpolate points secretIndex
  let digestShare ← interpolate points digestIndex
  if digestShare.length < digestLength then throw .truncatedDigest
  else if digest (digestShare.drop digestLength) secret = digestShare.take digestLength then
    pure secret
  else throw (.set .digest)

/-- Checks that further points agree with what the points before them say of their place. -/
def checkRedundant (valueAt : UInt8 → Except Fault (List UInt8)) : List Point → Except Fault Unit
  | [] => .ok ()
  | point :: points => do
    let expected ← valueAt point.x
    if expected = point.value then checkRedundant valueAt points
    else throw (.set .redundantShare)

/-- Recovers the secret from the first `threshold` points and checks the others against them. -/
def recover (threshold : Nat) (points : List Point) : Except Fault (List UInt8) :=
  match points.take threshold with
  | [] => .error (.set .belowThreshold)
  | first :: rest =>
    if points.length < threshold then .error (.set .belowThreshold)
    else if threshold = 1 then do
      checkRedundant (fun _ => .ok first.value) (points.drop threshold)
      pure first.value
    else do
      let secret ← reveal (first :: rest)
      checkRedundant (interpolate (first :: rest)) (points.drop threshold)
      pure secret

end ShamirBackup.Sharing
