import Petri.Fault

/-!
# Operations that leave a record

Building a net, listing successors and reverting a set of markings leave one record when they succeed.
A record is part of an operation's outcome, beside its result.
-/

namespace Petri

/-- Which part of the library leaves a record. -/
inductive LogSource where
  | construction
  | firing
  | reversal
  deriving DecidableEq, Repr

/-- A record: where it comes from and what it says. A record is worded when it is read, and it has no wording
if it shows a number that has no numeral. -/
structure LogRecord where
  source : LogSource
  text : Option String
  deriving DecidableEq, Repr

/-- The outcome of an operation with the records that it leaves. -/
structure Logged (α : Type) where
  result : Except Fault α
  log : List LogRecord

/-- The outcome `result`, with one record if it is a success and none if it is a failure. -/
def Logged.ofResult {α : Type} (result : Except Fault α) (record : α → LogRecord) : Logged α :=
  { result
    log := match result with
      | .ok a => [record a]
      | .error _ => [] }

end Petri
