/-!
# Numbers on the command line

Decimal numbers with an optional sign and any number of leading zeros. A text that is none is told
from a number that does not fit, by what is noticed first from left to right.
-/

namespace ShamirBackup.Console

inductive NumberFault
  | empty
  | badDigit
  | tooLarge
  | tooSmall
deriving DecidableEq, Repr

def NumberFault.message : NumberFault → String
  | empty => "cannot parse integer from empty string"
  | badDigit => "invalid digit found in string"
  | tooLarge => "number too large to fit in target type"
  | tooSmall => "number too small to fit in target type"

/-- The number that starts with `n` and goes on with `digits`, as long as it is at most `limit`. -/
def readDigits (limit : Nat) (overflow : NumberFault) (n : Nat) :
    List Char → Except NumberFault Nat
  | [] => .ok n
  | c :: digits =>
    if !c.isDigit then .error .badDigit
    else
      let next := 10 * n + (c.toNat - 48)
      if limit < next then .error overflow else readDigits limit overflow next digits

/-- A number of 64 bits with sign. -/
def readInteger (text : String) : Except NumberFault Int :=
  match text.toList with
  | [] => .error .empty
  | ['+'] => .error .badDigit
  | ['-'] => .error .badDigit
  | '+' :: digits => (readDigits ((1 <<< 63) - 1) .tooLarge 0 digits).map Int.ofNat
  | '-' :: digits => (readDigits (1 <<< 63) .tooSmall 0 digits).map fun n => -Int.ofNat n
  | digits => (readDigits ((1 <<< 63) - 1) .tooLarge 0 digits).map Int.ofNat

/-- A number up to 255, which may have a plus sign. -/
def readByte (text : String) : Except NumberFault Nat :=
  match text.toList with
  | [] => .error .empty
  | ['+'] => .error .badDigit
  | '+' :: digits => readDigits 255 .tooLarge 0 digits
  | digits => readDigits 255 .tooLarge 0 digits

end ShamirBackup.Console
