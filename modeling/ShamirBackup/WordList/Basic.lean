import ShamirBackup.Fault
import ShamirBackup.Text.Blank
import ShamirBackup.Word
import ShamirBackup.WordList.Table

/-!
# Looking words up

Words are found by spelling, in any ASCII case, and by the beginning of their spelling.
-/

namespace ShamirBackup.WordList

theorem length_words : words.length = 1024 := by decide +kernel

/-- The word of this exact spelling. -/
def spelled? (spelling : String) : Option Word :=
  (words.finIdxOf? spelling).map (Fin.cast length_words)

/-- The word of a spelling in any case. -/
def find? (text : String) : Option Word :=
  spelled? (Text.fold text)

/-- The same for a text that stands alone, and so is its own first word. -/
def find (text : String) : Except Fault Word :=
  match find? text with
  | some word => .ok word
  | none => .error (.unknownWord 0)

/-- The first place from `low` up to `high` at which `holds` fails. What is left is halved at every
step, so `holds` must not become true again after it has failed. -/
def firstFailure (holds : Nat → Bool) (low high : Nat) : Nat :=
  if low < high then
    let middle := low + (high - low) / 2
    if holds middle then firstFailure holds (middle + 1) high
    else firstFailure holds low middle
  else low
termination_by high - low

/-- The place of the first word that is not below `start`. -/
def placeOf (start : String) : Nat :=
  firstFailure (fun place => words[place]?.any (· < start)) 0 words.length

/-- The words whose spelling begins with `text`: in a sorted list they stand together, from the
first word that is not below `text` on. -/
def beginningWith (text : String) : List String :=
  let start := Text.fold text
  (words.drop (placeOf start)).takeWhile fun word => start.toList.isPrefixOf word.toList

/-- The only word that begins with `text`. -/
def complete? (text : String) : Option String :=
  match beginningWith text with
  | [word] => some word
  | _ => none

end ShamirBackup.WordList

namespace ShamirBackup.Word

def spelling (word : Word) : String :=
  WordList.words.get (word.cast WordList.length_words.symm)

end ShamirBackup.Word
