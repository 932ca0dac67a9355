import ShamirBackup.Fault

/-!
# Failures of a service

A failure says first what was being done and then what went wrong.
-/

namespace ShamirBackup

/-- What could not be done and, unless that says it all, why. -/
structure Failure where
  headline : String
  cause? : Option String := none
deriving DecidableEq, Repr

namespace Failure

def ofFault (headline : String) (fault : Fault) : Failure := ⟨headline, some fault.message⟩

/-- Both parts in one line. -/
def line (failure : Failure) : String :=
  match failure.cause? with
  | none => failure.headline
  | some cause => failure.headline ++ ": " ++ cause

end Failure

end ShamirBackup
