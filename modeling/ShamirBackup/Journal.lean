import ShamirBackup.Fault

/-!
# The journal

What splitting and combining report while they work. An event names parameters, indices and counts
and never a byte of a secret, a value or a passphrase. `Traced` is a computation that may fail,
together with the events up to its end.
-/

namespace ShamirBackup

inductive Level
  | debug
  | warn
deriving DecidableEq, Repr

def Level.text : Level → String
  | .debug => "DEBUG"
  | .warn => "WARN"

inductive Event
  | encrypting (identifier exponent : Nat) (extendable : Bool)
  | splittingBackup (identifier groups threshold : Nat)
  | splittingGroup (group members threshold : Nat)
  | groupsEncoded (groups : Nat)
  | combining (shares identifier : Nat)
  | setRejected (flaw : SetFlaw)
  | thresholdsDiffer (group : Nat)
  | memberRepeated (group member : Nat)
  | groupsMissing (got needed : Nat)
  | groupRecovered (group members : Nat)
  | groupsIncomplete (fault : Fault)
  | secretRecovered (identifier : Nat)
  | foreignShare (identifier : Nat)
  | shareAccepted (group member shares : Nat)
  | backupRecovered (identifier : Nat)
deriving DecidableEq, Repr

namespace Event

def level : Event → Level
  | encrypting .. => .debug
  | splittingBackup .. => .debug
  | splittingGroup .. => .debug
  | groupsEncoded _ => .debug
  | combining .. => .debug
  | setRejected _ => .warn
  | thresholdsDiffer _ => .warn
  | memberRepeated .. => .warn
  | groupsMissing .. => .warn
  | groupRecovered .. => .debug
  | groupsIncomplete _ => .warn
  | secretRecovered _ => .debug
  | foreignShare _ => .warn
  | shareAccepted .. => .debug
  | backupRecovered _ => .debug

def text : Event → String
  | encrypting identifier exponent extendable =>
    s!"encrypting master secret for backup {identifier} (exponent {exponent}, " ++
      s!"extendable {extendable})"
  | splittingBackup identifier groups threshold =>
    s!"splitting backup {identifier} into {groups} groups, threshold {threshold}"
  | splittingGroup group members threshold =>
    s!"splitting group {group} into {members} members, threshold {threshold}"
  | groupsEncoded groups => s!"encoded {groups} groups"
  | combining shares identifier => s!"combining {shares} shares of backup {identifier}"
  | setRejected flaw => "rejecting share set: " ++ flaw.text
  | thresholdsDiffer group => s!"member thresholds differ within group {group}"
  | memberRepeated group member => s!"member {member} of group {group} given twice"
  | groupsMissing got needed => s!"shares from {got} groups, {needed} required"
  | groupRecovered group members => s!"recovered group {group} from {members} members"
  | groupsIncomplete fault => fault.message
  | secretRecovered identifier => s!"recovered encrypted master secret of backup {identifier}"
  | foreignShare identifier => s!"share does not belong to backup {identifier}"
  | shareAccepted group member shares =>
    s!"accepted member {member} of group {group} ({shares} shares)"
  | backupRecovered identifier => s!"recovered backup {identifier}"

/-- The line of the journal. -/
def line (event : Event) : String :=
  event.level.text ++ " " ++ event.text

end Event

/-! ### Traced computations -/

/-- What came of a computation and what it reported on the way, in order. -/
@[ext] structure Traced (ε α : Type) where
  events : List Event
  outcome : Except ε α

namespace Traced

variable {ε ε' α β : Type}

/-- A failure ends the computation and keeps its events. -/
def andThen (first : Traced ε α) (next : α → Traced ε β) : Traced ε β :=
  match first.outcome with
  | .error fault => ⟨first.events, .error fault⟩
  | .ok a =>
    let rest := next a
    ⟨first.events ++ rest.events, rest.outcome⟩

instance : Monad (Traced ε) where
  pure a := ⟨[], .ok a⟩
  bind := andThen

theorem bind_eq (first : Traced ε α) (next : α → Traced ε β) :
    first >>= next = first.andThen next := rfl

@[simp] theorem andThen_error (events : List Event) (fault : ε) (next : α → Traced ε β) :
    andThen ⟨events, .error fault⟩ next = ⟨events, .error fault⟩ := rfl

@[simp] theorem andThen_ok (events : List Event) (a : α) (next : α → Traced ε β) :
    andThen ⟨events, .ok a⟩ next = ⟨events ++ (next a).events, (next a).outcome⟩ := rfl

instance : LawfulMonad (Traced ε) := LawfulMonad.mk' (Traced ε)
  (fun t => by rcases t with ⟨events, _ | a⟩ <;> simp [Functor.map, andThen])
  (fun _ _ => rfl)
  (fun t f g => by
    rcases t with ⟨events, _ | a⟩
    · rfl
    · simp only [bind_eq, andThen_ok]
      rcases f a with ⟨more, _ | b⟩ <;> simp)

def ofExcept (outcome : Except ε α) : Traced ε α := ⟨[], outcome⟩

def report (event : Event) : Traced ε Unit := ⟨[event], .ok ()⟩

def fail (fault : ε) : Traced ε α := ⟨[], .error fault⟩

def mapError (f : ε → ε') (t : Traced ε α) : Traced ε' α :=
  ⟨t.events, t.outcome.mapError f⟩

instance : MonadLift (Except ε) (Traced ε) := ⟨ofExcept⟩

end Traced

end ShamirBackup
