/-!
# Hexadecimal text

Bytes are written with two small digits each and read with digits of either case.
-/

namespace ShamirBackup.Text.Hex

/-- Why a text is not hexadecimal. Texts are read byte by byte in UTF-8. -/
inductive Fault
  | oddLength
  | badByte (byte : UInt8) (position : Nat)
deriving DecidableEq, Repr

/-! ### Digits -/

def digit (n : Nat) : Char := Char.ofNat (if n < 10 then 48 + n else 87 + n)

def digitValue? (byte : UInt8) : Option Nat :=
  let n := byte.toNat
  if 48 ≤ n ∧ n ≤ 57 then some (n - 48)
  else if 97 ≤ n ∧ n ≤ 102 then some (n - 87)
  else if 65 ≤ n ∧ n ≤ 70 then some (n - 55)
  else none

/-! ### Messages -/

/-- Whether a character below 256 has a shape on paper. -/
def isVisible (n : Nat) : Bool :=
  (0x20 ≤ n && n ≤ 0x7e) || (0xa1 ≤ n && n ≤ 0xff && n != 0xad)

/-- The character of a byte between single quotes, escaped where it cannot be read. -/
def quoted (byte : UInt8) : String :=
  let n := byte.toNat
  let inside :=
    if n = 0 then "\\0"
    else if n = 9 then "\\t"
    else if n = 10 then "\\n"
    else if n = 13 then "\\r"
    else if n = 39 then "\\'"
    else if n = 92 then "\\\\"
    else if isVisible n then String.ofList [Char.ofNat n]
    else "\\u\x7b" ++ String.ofList (Nat.toDigits 16 n) ++ "\x7d"
  "'" ++ inside ++ "'"

def Fault.message : Fault → String
  | oddLength => "Odd number of digits"
  | badByte byte position => s!"Invalid character {quoted byte} at position {position}"

/-! ### Reading and writing -/

def encodeBytes (bytes : List UInt8) : List Char :=
  bytes.flatMap fun byte => [digit (byte.toNat / 16), digit (byte.toNat % 16)]

def encode (bytes : List UInt8) : String := String.ofList (encodeBytes bytes)

/-- Reads pairs of digits; `position` is the place of the first. -/
def decodeFrom (position : Nat) : List UInt8 → Except Fault (List UInt8)
  | [] => .ok []
  | [_] => .error .oddLength
  | high :: low :: rest =>
    match digitValue? high, digitValue? low with
    | none, _ => .error (.badByte high position)
    | some _, none => .error (.badByte low (position + 1))
    | some h, some l =>
      (decodeFrom (position + 2) rest).map (UInt8.ofNat (16 * h + l) :: ·)

/-- Reads a text. An odd number of bytes is reported before any of them is looked at. -/
def decode (text : String) : Except Fault (List UInt8) :=
  let bytes := text.toUTF8.toList
  if bytes.length % 2 = 1 then .error .oddLength else decodeFrom 0 bytes

end ShamirBackup.Text.Hex
