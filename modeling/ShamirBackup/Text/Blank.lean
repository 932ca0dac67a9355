/-!
# Blanks and case

Texts are cut at white space in the sense of the Unicode property `White_Space` and folded in ASCII
only.
-/

namespace ShamirBackup.Text

/-- The characters with the property `White_Space`. -/
def isBlank (c : Char) : Bool :=
  let n := c.toNat
  (9 ≤ n && n ≤ 13) || n == 0x20 || n == 0x85 || n == 0xa0 || n == 0x1680 ||
    (0x2000 ≤ n && n ≤ 0x200a) || n == 0x2028 || n == 0x2029 || n == 0x202f || n == 0x205f ||
    n == 0x3000

/-- The runs of other characters between blanks; `run` holds, in reverse, the one being read. -/
def runs (run : List Char) : List Char → List (List Char)
  | [] => if run.isEmpty then [] else [run.reverse]
  | c :: rest =>
    if isBlank c then
      if run.isEmpty then runs [] rest else run.reverse :: runs [] rest
    else runs (c :: run) rest

/-- The words of a text, without the blanks around them. -/
def tokens (text : String) : List String :=
  (runs [] text.toList).map String.ofList

def trimChars (chars : List Char) : List Char :=
  ((chars.dropWhile isBlank).reverse.dropWhile isBlank).reverse

/-- A text without the blanks at its ends. -/
def trim (text : String) : String :=
  String.ofList (trimChars text.toList)

/-- A text with the capitals A to Z made small. -/
def fold (text : String) : String :=
  String.ofList (text.toList.map Char.toLower)

end ShamirBackup.Text
