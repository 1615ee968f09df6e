import Batchwise.Resolver.Call

/-!
# Events

What happens while calls are submitted, dispatched and answered, in order.  Resolvers go by
their numbers.

* `Event.isObserved`   the events that an observer is told about;
* `Counts`             how often an observer was told of what: `Counts.record` adds one event.
-/

namespace Batchwise

inductive Event (S C : Type)
  /-- a call was submitted; `shared` if it joined an equal call that was pending. -/
  | submitted (resolver : Nat) (shared : Bool)
  | dispatched (resolver keys groups : Nat)
  /-- a tick was refused because its calls carry different contexts. -/
  | diverged (resolver keys : Nat)
  /-- a group is about to be handed to its resolver. -/
  | invoked (resolver sources : Nat)
  | called (resolver : Nat) (call : Call (List S) C)
  | returned (resolver : Nat) (call : Call (List S) C)
  | groupFailed (resolver : Nat) (failure : ResolverFailure) (members : Nat)
  /-- a batched call gave answers for sources that it was not given. -/
  | unrequested (resolver count : Nat)
  /-- a batched call gave no answer for some of its sources. -/
  | missing (resolver count : Nat)
  /-- a level of a query is about to be resolved. -/
  | level (number fields : Nat)

namespace Event

variable {S C : Type}

/-- whether an observer is told about the event, if there is one. -/
def isObserved : Event S C → Bool
  | submitted _ _ => true
  | dispatched _ _ _ => true
  | invoked _ _ => true
  | groupFailed _ _ _ => true
  | _ => false

def unobserved (events : List (Event S C)) : List (Event S C) :=
  events.filter fun e => !e.isObserved

end Event

/-! ### counts -/

structure Counts where
  submissions : Nat
  deduplicated : Nat
  dispatches : Nat
  invocations : Nat
  failedGroups : Nat
  byResolver : List (Nat × Nat)

namespace Counts

def zero : Counts := ⟨0, 0, 0, 0, 0, []⟩

def invocationsOf (c : Counts) (resolver : Nat) : Nat :=
  (Entries.find? resolver c.byResolver).getD 0

def record {S C : Type} (c : Counts) : Event S C → Counts
  | .submitted _ shared => {
      c with
      submissions := c.submissions + 1
      deduplicated := c.deduplicated + shared.toNat }
  | .dispatched _ _ _ => { c with dispatches := c.dispatches + 1 }
  | .invoked resolver _ => {
      c with
      invocations := c.invocations + 1
      byResolver := Entries.put resolver (c.invocationsOf resolver + 1) c.byResolver }
  | .groupFailed _ _ _ => { c with failedGroups := c.failedGroups + 1 }
  | _ => c

def recordAll {S C : Type} (c : Counts) (events : List (Event S C)) : Counts :=
  events.foldl record c

end Counts
end Batchwise
