import Batchwise.Batch.Event

/-!
# Log lines

Some events are worth a line in the log: what happened in words, and the numbers and names that
belong to it.  `Event.logLine?` gives the line of an event.
-/

namespace Batchwise

inductive Severity
  | debug
  | warning
  | error
deriving DecidableEq

inductive LogValue
  | number (n : Nat)
  | text (s : String)

structure LogLine where
  severity : Severity
  message : String
  fields : List (String × LogValue)

namespace Event

variable {S C : Type}

/-- the line of an event, with the names of resolvers. -/
def logLine? (nameOf : Nat → String) : Event S C → Option LogLine
  | level number fields => some ⟨.debug, "Resolving level",
      [("level", .number number), ("fields", .number fields)]⟩
  | dispatched _ keys groups => some ⟨.debug, "Dispatching batch",
      [("keys", .number keys), ("groups", .number groups)]⟩
  | invoked _ sources => some ⟨.debug, "Invoking batched resolver",
      [("sources", .number sources)]⟩
  | unrequested resolver count => some ⟨.warning,
      "Resolver returned values for sources it was not given; ignoring them",
      [("resolver", .text (nameOf resolver)), ("unrequested", .number count)]⟩
  | missing resolver count => some ⟨.debug,
      "Resolver omitted some sources; they resolve to no value",
      [("resolver", .text (nameOf resolver)), ("missing", .number count)]⟩
  | groupFailed _ failure members => some ⟨.error,
      "Batched resolver failed; rejecting its group",
      [("error", .text failure.text), ("sources", .number members)]⟩
  | diverged _ keys => some ⟨.error,
      "Pending calls carry different execution contexts; rejecting the whole tick",
      [("keys", .number keys)]⟩
  | _ => none

end Event
end Batchwise
