import ShamirBackup.Console.Run

/-!
# The program

Reads the arguments and the standard input, carries the command out and writes its report.
-/

namespace ShamirBackup.Console

def usageText : String :=
  "Split a master secret into mnemonic shares and combine them again\n\n" ++
  "Commands:\n" ++
  "  split    -g THRESHOLD/COUNT [-g ...] [-t GROUPS] [-e EXPONENT] [--extendable] [-p]\n" ++
  "  combine  [-p]\n" ++
  "  inspect\n" ++
  "  help\n"

def usageFault : Usage → String
  | .help => ""
  | .helpForNothing => ""
  | .unknownCommand => "error: unknown command\n\n"
  | .unknownArgument => "error: unexpected argument\n\n"
  | .missingGroup => "error: at least one group is required\n\n"
  | .missingValue => "error: an option lacks its value\n\n"
  | .surplusValue => "error: a flag takes no value\n\n"
  | .repeatedOption => "error: an option is given more than once\n\n"
  | .badValue text => "error: " ++ text ++ "\n\n"

partial def readAll (stream : IO.FS.Stream) (bytes : ByteArray) : IO ByteArray := do
  let chunk ← stream.read 65536
  if chunk.isEmpty then pure bytes else readAll stream (bytes ++ chunk)

/-- Asks for a passphrase on the terminal, since the standard input holds secret or shares. -/
def askPassphrase : IO String := do
  let terminal ← IO.FS.Handle.mk "/dev/tty" .readWrite
  terminal.putStr "Enter passphrase: "
  terminal.flush
  let answer ← terminal.getLine
  pure (String.ofList (answer.toList.filter fun c => c ≠ '\n' ∧ c ≠ '\r'))

/-- More random bytes than any plan takes. -/
def drawEntropy : IO Entropy := do
  pure (Entropy.ofBytes (← IO.getRandomBytes 8192))

end ShamirBackup.Console

open ShamirBackup in
def main (arguments : List String) : IO UInt32 := do
  match Console.parse arguments with
  | .error fault =>
    let out ← if fault.status = 0 then IO.getStdout else IO.getStderr
    out.putStr (Console.usageFault fault ++ Console.usageText)
    pure (UInt32.ofNat fault.status)
  | .ok command =>
    let input ← Console.readAll (← IO.getStdin) ByteArray.empty
    let passphrase ← if Console.asksPassphrase command then Console.askPassphrase else pure ""
    let (run, _) := Console.perform command input.toList passphrase (← Console.drawEntropy)
    let report := Console.report run.outcome
    (← IO.getStdout).putStr report.output
    (← IO.getStderr).putStr report.errors
    pure (UInt32.ofNat report.status)
