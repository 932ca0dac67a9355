import ShamirBackup.Journal

/-!
# Randomness

Random bytes come from a stream and are taken in order. `Dealer` is a traced computation that draws
from it; what it has drawn stays drawn also when it fails.
-/

namespace ShamirBackup

/-- A stream of random bytes, of which the first `used` are spent. -/
structure Entropy where
  byteAt : Nat → UInt8
  used : Nat := 0

namespace Entropy

/-- The stream that starts with `bytes`, with zeros behind them. -/
def ofBytes (bytes : ByteArray) : Entropy where
  byteAt k := bytes.data.getD k 0

/-- The next `n` bytes. -/
def peek (source : Entropy) (n : Nat) : List UInt8 :=
  (List.range n).map fun i => source.byteAt (source.used + i)

def skip (source : Entropy) (n : Nat) : Entropy :=
  { source with used := source.used + n }

@[simp] theorem length_peek (source : Entropy) (n : Nat) : (source.peek n).length = n := by
  simp [peek]

end Entropy

/-- A computation that draws random bytes, reports events and may fail. -/
def Dealer (ε α : Type) := Entropy → Traced ε α × Entropy

namespace Dealer

variable {ε ε' α β : Type}

def andThen (first : Dealer ε α) (next : α → Dealer ε β) : Dealer ε β := fun source =>
  let (done, rest) := first source
  match done.outcome with
  | .error fault => (⟨done.events, .error fault⟩, rest)
  | .ok a =>
    let (more, last) := next a rest
    (⟨done.events ++ more.events, more.outcome⟩, last)

instance : Monad (Dealer ε) where
  pure a := fun source => (⟨[], .ok a⟩, source)
  bind := andThen

theorem bind_eq (first : Dealer ε α) (next : α → Dealer ε β) :
    first >>= next = first.andThen next := rfl

instance : LawfulMonad (Dealer ε) := LawfulMonad.mk' (Dealer ε)
  (fun d => by
    funext source
    simp only [Functor.map, andThen]
    rcases d source with ⟨⟨events, _ | a⟩, rest⟩
    · rfl
    · exact Prod.ext (Traced.ext (List.append_nil events) rfl) rfl)
  (fun _ _ => rfl)
  (fun d f g => by
    funext source
    simp only [bind_eq, andThen]
    rcases d source with ⟨⟨events, _ | a⟩, rest⟩
    · rfl
    · simp only
      rcases f a rest with ⟨⟨more, _ | b⟩, last⟩ <;> simp)

def ofTraced (t : Traced ε α) : Dealer ε α := fun source => (t, source)

def ofExcept (outcome : Except ε α) : Dealer ε α := ofTraced (.ofExcept outcome)

def report (event : Event) : Dealer ε Unit := ofTraced (.report event)

def fail (fault : ε) : Dealer ε α := ofTraced (.fail fault)

/-- Takes the next `n` random bytes. -/
def draw (n : Nat) : Dealer ε (List UInt8) := fun source => (pure (source.peek n), source.skip n)

/-- Takes `count` blocks of `n` random bytes. -/
def drawBlocks (n : Nat) : (count : Nat) → Dealer ε (List (List UInt8))
  | 0 => pure []
  | count + 1 => do
    let block ← draw n
    let blocks ← drawBlocks n count
    pure (block :: blocks)

def mapError (f : ε → ε') (d : Dealer ε α) : Dealer ε' α := fun source =>
  let (done, rest) := d source
  (done.mapError f, rest)

instance : MonadLift (Except ε) (Dealer ε) := ⟨ofExcept⟩
instance : MonadLift (Traced ε) (Dealer ε) := ⟨ofTraced⟩

end Dealer

end ShamirBackup
