/-!
# Lists of pairs

A list of pairs of small numbers in JSON, such as `[[2, 3], [1, 1]]`. Numbers go up to 255 and are
written in plain digits, without sign, fraction or leading zeros.
-/

namespace ShamirBackup.Text.Pairs

inductive Token
  | opening
  | closing
  | comma
  | number (n : Nat)
deriving DecidableEq, Repr

/-- The number that `digits`, the last one first, stand for. -/
def numberOf? (digits : List Char) : Option Nat :=
  let n := digits.foldr (fun c n => 10 * n + (c.toNat - 48)) 0
  if digits.getLast? = some '0' ∧ 1 < digits.length then none
  else if n ≤ 255 then some n
  else none

/-- Puts the number before `rest` that `digits` stand for, if there are any. -/
def flush (digits : List Char) (rest : List Token) : Option (List Token) :=
  if digits.isEmpty then some rest
  else (numberOf? digits).map fun n => .number n :: rest

/-- Cuts a text into tokens; `digits` holds, in reverse, those of the number being read. -/
def tokensFrom (digits : List Char) : List Char → Option (List Token)
  | [] => flush digits []
  | c :: cs =>
    if c.isDigit then tokensFrom (c :: digits) cs
    else
      match (tokensFrom [] cs) with
      | none => none
      | some rest =>
        if c = '[' then flush digits (.opening :: rest)
        else if c = ']' then flush digits (.closing :: rest)
        else if c = ',' then flush digits (.comma :: rest)
        else if c = ' ' ∨ c = '\t' ∨ c = '\n' ∨ c = '\r' then flush digits rest
        else none

/-- The pairs up to the end of the list, of which there is one at least. -/
def items : List Token → Option (List (Nat × Nat))
  | [.opening, .number a, .comma, .number b, .closing, .closing] => some [(a, b)]
  | .opening :: .number a :: .comma :: .number b :: .closing :: .comma :: rest =>
    (items rest).map ((a, b) :: ·)
  | _ => none

def parse? (text : String) : Option (List (Nat × Nat)) := do
  match ← tokensFrom [] text.toList with
  | [.opening, .closing] => some []
  | .opening :: rest => items rest
  | _ => none

end ShamirBackup.Text.Pairs
