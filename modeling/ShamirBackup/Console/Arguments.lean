import ShamirBackup.Console.Number
import ShamirBackup.Plan
import ShamirBackup.Text.Blank

/-!
# Arguments

The command line names a command and its options. An option takes its value from the same argument,
as in `--group=2/3` or `-g2/3`, or from the next one, if that does not look like an option. A value
that comes in the next argument is looked at only when another option or the end is reached.
-/

namespace ShamirBackup.Console

/-- Why arguments are refused, or help is shown instead. -/
inductive Usage
  | help
  | helpForNothing
  | unknownCommand
  | unknownArgument
  | missingGroup
  | missingValue
  | surplusValue
  | repeatedOption
  | badValue (text : String)
deriving DecidableEq, Repr

/-- Help that was asked for is no failure; everything else ends with status two. -/
def Usage.status : Usage → Nat
  | help => 0
  | _ => 2

/-- The options of the command that splits a secret. -/
structure SplitOptions where
  groups : List GroupSpec
  groupThreshold : Nat
  exponent : IterationExponent
  extendable : Bool
  passphrase : Bool
deriving DecidableEq

/-- What the program is asked to do. -/
inductive Command
  | split (options : SplitOptions)
  | combine (passphrase : Bool)
  | inspect
deriving DecidableEq

/-! ### Values -/

def quote (text : String) : String := "'" ++ text ++ "'"

/-- A small number; a fault shows it as it was given. -/
def readNumber (text shown : String) : Except String Nat :=
  (readByte text).mapError fun _ => quote shown ++ " is not a valid number"

/-- A group as threshold and count with a slash between them. -/
def readGroup (text : String) : Except String GroupSpec :=
  let chars := text.toList
  match chars.dropWhile (· ≠ '/') with
  | [] => .error (quote text ++ " is not of the form THRESHOLD/COUNT, e.g. 2/3")
  | _ :: after => do
    let threshold := String.ofList (chars.takeWhile (· ≠ '/'))
    let count := String.ofList after
    let t ← readNumber (Text.trim threshold) threshold
    let n ← readNumber (Text.trim count) count
    (GroupSpec.ofPair t n).mapError Fault.message

def readThreshold (text : String) : Except String Nat :=
  match readInteger text with
  | .error fault => .error fault.message
  | .ok n => if 0 ≤ n ∧ n ≤ 255 then .ok n.toNat else .error s!"{n} is not in 0..=255"

def readExponent (text : String) : Except String IterationExponent := do
  (IterationExponent.ofNat (← readNumber text text)).mapError Fault.message

/-! ### Options -/

/-- The options that take a value. -/
inductive Valued
  | group
  | groupThreshold
  | exponent
deriving DecidableEq

/-- The options that take none. -/
inductive Flag
  | extendable
  | passphrase
  | help
deriving DecidableEq

/-- What an option is called and whether it takes a value. -/
structure Spelling where
  long : String
  short? : Option Char
  means : Valued ⊕ Flag

def helpSpelling : Spelling := ⟨"help", some 'h', .inr .help⟩

def passphraseSpelling : Spelling := ⟨"passphrase", some 'p', .inr .passphrase⟩

def splitSpellings : List Spelling := [
  ⟨"group", some 'g', .inl .group⟩,
  ⟨"group-threshold", some 't', .inl .groupThreshold⟩,
  ⟨"iteration-exponent", some 'e', .inl .exponent⟩,
  ⟨"extendable", none, .inr .extendable⟩,
  passphraseSpelling,
  helpSpelling]

/-! ### Reading options -/

/-- The options read so far. -/
structure Draft where
  groups : List GroupSpec := []
  groupThreshold? : Option Nat := none
  exponent? : Option IterationExponent := none
  extendable : Bool := false
  passphrase : Bool := false

/-- An option that was named without a value, and the argument after it once that is known. -/
structure Pending where
  option : Valued
  value? : Option String

/-- The state of reading options. -/
structure Reader where
  draft : Draft := {}
  pending? : Option Pending := none
  /-- Whether options have ended, so that nothing more is allowed. -/
  closed : Bool := false

namespace Draft

def refuseRepeated {α : Type} (earlier? : Option α) : Except Usage Unit :=
  if earlier?.isSome then .error .repeatedOption else .ok ()

/-- Takes the value of an option. Only groups may be given more than once. -/
def setValue (draft : Draft) (option : Valued) (text : String) : Except Usage Draft :=
  match option with
  | .group => do
    let group ← (readGroup text).mapError .badValue
    pure { draft with groups := draft.groups ++ [group] }
  | .groupThreshold => do
    refuseRepeated draft.groupThreshold?
    let threshold ← (readThreshold text).mapError .badValue
    pure { draft with groupThreshold? := some threshold }
  | .exponent => do
    refuseRepeated draft.exponent?
    let exponent ← (readExponent text).mapError .badValue
    pure { draft with exponent? := some exponent }

def setFlag (draft : Draft) : Flag → Except Usage Draft
  | .help => .error .help
  | .extendable =>
    if draft.extendable then .error .repeatedOption else .ok { draft with extendable := true }
  | .passphrase =>
    if draft.passphrase then .error .repeatedOption else .ok { draft with passphrase := true }

end Draft

namespace Reader

/-- Looks at the value of the option that is pending, which must have one by now. -/
def settle (reader : Reader) : Except Usage Reader :=
  match reader.pending? with
  | none => .ok reader
  | some ⟨_, none⟩ => .error .missingValue
  | some ⟨option, some text⟩ => do
    let draft ← reader.draft.setValue option text
    pure { reader with draft := draft, pending? := none }

/-- Takes an option together with its value. -/
def giveValue (reader : Reader) (option : Valued) (text : String) : Except Usage Reader := do
  let reader ← reader.settle
  let draft ← reader.draft.setValue option text
  pure { reader with draft }

/-- Takes an option without a value. -/
def giveFlag (reader : Reader) (flag : Flag) : Except Usage Reader := do
  let reader ← reader.settle
  let draft ← reader.draft.setFlag flag
  pure { reader with draft }

/-- Takes an option whose value is still to come. -/
def await (reader : Reader) (option : Valued) : Except Usage Reader := do
  let reader ← reader.settle
  pure { reader with pending? := some ⟨option, none⟩ }

/-- Reads an option by its long name, with the text after an equals sign if there is one. -/
def long (spellings : List Spelling) (reader : Reader) (name : String) (value? : Option String) :
    Except Usage Reader :=
  match spellings.find? (·.long = name), value? with
  | none, _ => .error .unknownArgument
  | some ⟨_, _, .inr _⟩, some _ => .error .surplusValue
  | some ⟨_, _, .inr flag⟩, none => reader.giveFlag flag
  | some ⟨_, _, .inl option⟩, some text => reader.giveValue option text
  | some ⟨_, _, .inl option⟩, none => reader.await option

/-- Reads options by their letters. The first that takes a value takes the rest of the letters. -/
def short (spellings : List Spelling) (reader : Reader) : List Char → Except Usage Reader
  | [] => .ok reader
  | letter :: rest =>
    match spellings.find? (·.short? = some letter) with
    | none => .error .unknownArgument
    | some ⟨_, _, .inr flag⟩ => do
      let reader ← reader.giveFlag flag
      short spellings reader rest
    | some ⟨_, _, .inl option⟩ =>
      match rest with
      | [] => reader.await option
      | '=' :: value => reader.giveValue option (String.ofList value)
      | value => reader.giveValue option (String.ofList value)

/-- Reads an argument that is no option, which only a pending option has use for. -/
def plain (reader : Reader) (text : String) : Except Usage Reader :=
  match reader.pending? with
  | some ⟨option, none⟩ => .ok { reader with pending? := some ⟨option, some text⟩ }
  | _ => .error .unknownArgument

/-- Reads the next argument. -/
def step (spellings : List Spelling) (reader : Reader) (argument : String) :
    Except Usage Reader :=
  if reader.closed then .error .unknownArgument
  else
    match argument.toList with
    | ['-', '-'] => .ok { reader with closed := true }
    | '-' :: '-' :: rest =>
      let name := String.ofList (rest.takeWhile (· ≠ '='))
      match rest.dropWhile (· ≠ '=') with
      | [] => reader.long spellings name none
      | _ :: value => reader.long spellings name (some (String.ofList value))
    | '-' :: letter :: letters => reader.short spellings (letter :: letters)
    | _ => reader.plain argument

end Reader

/-- Reads all arguments behind the name of a command. -/
def readOptions (spellings : List Spelling) (arguments : List String) : Except Usage Draft := do
  let reader ← arguments.foldlM (Reader.step spellings) {}
  pure (← reader.settle).draft

/-! ### Commands -/

def parseSplit (arguments : List String) : Except Usage Command := do
  let draft ← readOptions splitSpellings arguments
  if draft.groups.isEmpty then throw .missingGroup
  else pure (.split {
    groups := draft.groups
    groupThreshold := draft.groupThreshold?.getD 1
    exponent := draft.exponent?.getD default
    extendable := draft.extendable
    passphrase := draft.passphrase })

def parseCombine (arguments : List String) : Except Usage Command := do
  let draft ← readOptions [passphraseSpelling, helpSpelling] arguments
  pure (.combine draft.passphrase)

def parseInspect (arguments : List String) : Except Usage Command := do
  let _ ← readOptions [helpSpelling] arguments
  pure .inspect

def commandNames : List String := ["split", "combine", "inspect", "help"]

/-- Help takes the name of one command at most. -/
def helpFor : List String → Usage
  | [] => .help
  | [name] => if commandNames.contains name then .help else .unknownCommand
  | _ => .unknownCommand

/-- Arguments after the end of options, where the name of a command counts for nothing. -/
def afterOptions : List String → Usage
  | [] => .helpForNothing
  | name :: _ => if commandNames.contains name then .unknownArgument else .unknownCommand

/-- A first argument that names no command: an option, of which there is only the one for help, or a
word. -/
def parseUnnamed (argument : String) : Except Usage Command :=
  match argument.toList with
  | '-' :: _ :: _ => do
    let _ ← Reader.step [helpSpelling] {} argument
    throw .unknownCommand
  | _ => throw .unknownCommand

/-- Reads the arguments without the name of the program. -/
def parse : List String → Except Usage Command
  | [] => .error .helpForNothing
  | "split" :: arguments => parseSplit arguments
  | "combine" :: arguments => parseCombine arguments
  | "inspect" :: arguments => parseInspect arguments
  | "help" :: arguments => .error (helpFor arguments)
  | "--" :: arguments => .error (afterOptions arguments)
  | argument :: _ => parseUnnamed argument

end ShamirBackup.Console
