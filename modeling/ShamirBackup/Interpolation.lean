import ShamirBackup.Fault
import ShamirBackup.Field.Binary

/-!
# Interpolation

Points hold a byte string each, and every position of the strings is a polynomial over `GF256` of
its own. `interpolate` evaluates the polynomials of least degree through the points.
-/

namespace ShamirBackup

/-- A place on the sharing polynomials and their values there. -/
@[ext] structure Point where
  x : UInt8
  value : List UInt8
deriving DecidableEq

namespace Interpolation

/-- The product of `x - z` over all `z` in `zs`. -/
def vanishing (zs : List GF256) (x : GF256) : GF256 :=
  zs.foldr (fun z product => (x - z) * product) 1

/-- The value at `x` of the polynomial that is one at `node` and zero at the other nodes. -/
def weight? (nodes : List GF256) (node x : GF256) : Option GF256 :=
  let others := nodes.filter (· ≠ node)
  BinaryField.div? (vanishing others x) (vanishing others node)

/-- Adds `weight` times each byte of `value` to the bytes of `sum`. -/
def addScaled (sum : List UInt8) (weight : GF256) (value : List UInt8) : List UInt8 :=
  List.zipWith (fun s y => s ^^^ (GF256.ofByte y * weight).toByte) sum value

/-- Adds the part of each of `points` in the value at `x`. -/
def sumParts (nodes : List GF256) (x : GF256) (sum : List UInt8) :
    List Point → Except Fault (List UInt8)
  | [] => .ok sum
  | point :: points =>
    match weight? nodes (GF256.ofByte point.x) x with
    | none => .error (.set .repeatedIndices)
    | some weight => sumParts nodes x (addScaled sum weight point.value) points

end Interpolation

open Interpolation in
/-- The values at `x` of the polynomials through `points`. -/
def interpolate (points : List Point) (x : UInt8) : Except Fault (List UInt8) :=
  match points with
  | [] => .error (.set .noShares)
  | first :: _ =>
    if points.any (·.value.length ≠ first.value.length) then .error (.set .valueLengths)
    else if ¬(points.map (·.x)).Nodup then .error (.set .repeatedIndices)
    else
      match points.find? (·.x = x) with
      | some point => .ok point.value
      | none =>
        let nodes := points.map fun point => GF256.ofByte point.x
        sumParts nodes (GF256.ofByte x) (List.replicate first.value.length 0) points

end ShamirBackup
