import ShamirBackup.Console.Arguments
import ShamirBackup.Service.Plain

/-!
# Running a command

A command reads its secret or shares from the lines of the standard input. It either writes its
result to the standard output or ends with status one and a report on the standard error.
-/

namespace ShamirBackup.Console

/-- What the program leaves behind. -/
structure Report where
  status : Nat
  output : String
  errors : String
deriving DecidableEq, Repr

/-! ### Input -/

/-- The lines of the input without their line feeds; `line` is the one being read, in reverse. -/
def linesFrom (line : List UInt8) : List UInt8 → List (List UInt8)
  | [] => if line.isEmpty then [] else [line.reverse]
  | 10 :: rest => line.reverse :: linesFrom [] rest
  | byte :: rest => linesFrom (byte :: line) rest

/-- The text of a line, or the failure of what was being read. -/
def decodeLine (headline : String) (line : List UInt8) : Except Failure String :=
  match String.fromUTF8? ⟨line.toArray⟩ with
  | some text => .ok (Text.trim text)
  | none => .error ⟨headline, some "stream did not contain valid UTF-8"⟩

def readLine (input : List UInt8) : Except Failure String :=
  decodeLine "Failed to read from stdin" ((linesFrom [] input).headD [])

/-- The lines before the first blank one. Nothing behind it is decoded. -/
def linesUntilBlank : List (List UInt8) → Except Failure (List String)
  | [] => .ok []
  | line :: lines => do
    let text ← decodeLine "Failed to read line from stdin" line
    if text.isEmpty then pure []
    else pure (text :: (← linesUntilBlank lines))

def readShares (input : List UInt8) : Except Failure (List String) := do
  let shares ← linesUntilBlank (linesFrom [] input)
  if shares.isEmpty then throw { headline := "No shares provided" } else pure shares

/-! ### Output -/

def line (text : String) : String := text ++ "\n"

def showGroup (count index : Nat) (group : GroupSpec) (mnemonics : List String) : String :=
  line (s!"Group {index + 1} of {count} ({group.threshold.val} of {group.count.val} " ++
    "shares required):") ++ String.join (mnemonics.map line) ++ line ""

def showGroups (count index : Nat) : List GroupSpec → List (List String) → String
  | group :: groups, mnemonics :: others =>
    showGroup count index group mnemonics ++ showGroups count (index + 1) groups others
  | _, _ => ""

def showFailure (failure : Failure) : String :=
  line ("Error: " ++ failure.headline) ++
    match failure.cause? with
    | none => ""
    | some cause => line "" ++ line "Caused by:" ++ line ("    " ++ cause)

/-! ### Commands -/

def asksPassphrase : Command → Bool
  | .split options => options.passphrase
  | .combine passphrase => passphrase
  | .inspect => false

def planOf (options : SplitOptions) : Except Failure Plan :=
  match Plan.ofGroups options.groupThreshold options.groups with
  | .error fault => .error { headline := fault.message }
  | .ok plan => .ok ((plan.withExponent options.exponent).withExtendable options.extendable)

/-- Carries out a command on the bytes of the input; `passphrase` is what was typed, if it was asked
for, and empty otherwise. -/
def perform (command : Command) (input : List UInt8) (passphrase : String) :
    Dealer Failure String :=
  match command with
  | .split options => do
    let plan ← Dealer.ofExcept (planOf options)
    let secretText ← Dealer.ofExcept (readLine input)
    let mnemonics ← Service.Plain.split plan secretText passphrase
    pure (showGroups plan.groups.length 0 plan.groups mnemonics)
  | .combine _ => do
    let shares ← Dealer.ofExcept (readShares input)
    pure (line (← Dealer.ofTraced (Service.Plain.combine shares passphrase)))
  | .inspect => do
    let shareText ← Dealer.ofExcept (readLine input)
    pure (line (← Dealer.ofExcept (Service.Plain.inspect shareText)))

def report : Except Failure String → Report
  | .ok output => { status := 0, output, errors := "" }
  | .error failure => { status := 1, output := "", errors := showFailure failure }

end ShamirBackup.Console
