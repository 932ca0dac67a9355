import ShamirBackup.WordList.Basic

/-!
# Mnemonics

A mnemonic is a text that spells a list of words. It is written with single spaces and read with any
blanks and in any case.
-/

namespace ShamirBackup.Mnemonic

/-- The words that `tokens` spell; `position` is the place of the first in the mnemonic. -/
def wordsFrom (position : Nat) : (tokens : List String) → Except Fault (List Word)
  | [] => .ok []
  | token :: tokens =>
    match WordList.find? token with
    | none => .error (.unknownWord position)
    | some word => (wordsFrom (position + 1) tokens).map (word :: ·)

/-- The words of a mnemonic. A fault names the first token that is none. -/
def words (text : String) : Except Fault (List Word) :=
  wordsFrom 0 (Text.tokens text)

/-- The words with single spaces between them. -/
def ofWords (words : List Word) : String :=
  " ".intercalate (words.map Word.spelling)

/-- The mnemonic of a word buffer, whose entries must all be words. -/
def ofRaw (raw : List UInt16) : Except Fault String :=
  match raw.mapM Word.ofRaw? with
  | some words => .ok (ofWords words)
  | none => .error (.form .wordRange)

end ShamirBackup.Mnemonic
