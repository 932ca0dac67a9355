import ShamirBackup.Recovery.Entry

/-!
# Recovery sessions

A session collects the shares of one backup in the order in which they are entered. A share that is
refused leaves it as it was.
-/

namespace ShamirBackup.Recovery

/-- The shares so far, each of `wordCount` words. -/
structure Session where
  wordCount : Nat
  shares : List Share

namespace Session

/-- A session without shares. -/
def start (wordCount : Nat) : Except Fault Session := do
  checkWordCount wordCount
  pure { wordCount, shares := [] }

/-- Checks a share of the right backup against those that the session has. -/
def checkFits (session : Session) (first metadata : Metadata) : Except Fault Unit :=
  if metadata.groupThreshold ≠ first.groupThreshold ∨ metadata.groupCount ≠ first.groupCount then
    .error (.set .groupParameters)
  else if session.shares.any fun earlier =>
      earlier.metadata.groupIndex = metadata.groupIndex ∧
        earlier.metadata.memberIndex = metadata.memberIndex then
    .error (.repeatedMember metadata.groupIndex.val metadata.memberIndex.val)
  else .ok ()

/-- Checks the next share of a session. -/
def check (session : Session) (text : String) : Traced Fault Metadata :=
  match session.shares with
  | [] => Traced.ofExcept (checkFirst session.wordCount text)
  | first :: _ => do
    let metadata ← checkNext first.metadata.toParameters session.wordCount text
    session.checkFits first.metadata metadata
    pure metadata

/-- The session with one more share, which is the last of its list. -/
def push (session : Session) (share : Share) : Session :=
  { session with shares := session.shares ++ [share] }

/-- Takes the next share. A text that passes the check is read once more for its value. -/
def add (session : Session) (text : String) : Traced Fault Session := do
  let metadata ← session.check text
  let share ← Share.ofMnemonic text
  Traced.report (.shareAccepted metadata.groupIndex.val metadata.memberIndex.val
    (session.shares.length + 1))
  pure (session.push share)

/-- The session after a text was typed in, whether or not it was taken. -/
def enter (session : Session) (text : String) : Session :=
  match (session.add text).outcome with
  | .ok next => next
  | .error _ => session

/-! ### Progress -/

def collected (session : Session) : Nat := session.shares.length

/-- The shares that the group of the first one needs, once there is one. -/
def needed? (session : Session) : Option Nat :=
  session.shares.head?.map Share.memberThreshold

/-- Whether the shares are enough, where a single group is. -/
def isComplete (session : Session) : Bool :=
  match session.shares with
  | [] => false
  | first :: _ =>
    first.memberThreshold ≤ session.collected && first.metadata.groupThreshold.val == 1

/-- The metadata of the first share, which stand for the backup. -/
def backup? (session : Session) : Option Metadata :=
  session.shares.head?.map Share.metadata

/-- Combines the shares and decrypts the secret. -/
def finish (session : Session) (passphrase : List UInt8) : Traced Fault (List UInt8) := do
  (← Backup.combine session.shares).decrypt passphrase

end Session

end ShamirBackup.Recovery
