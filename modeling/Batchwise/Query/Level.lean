import Batchwise.Batch.Execution
import Batchwise.World

/-!
# Levels of a query

All fields that lie equally deep in a query are resolved together.  Each is started in order: a
field without a resolver has its object's own value, a simple resolver is called, a batched one
gets a call submitted.  Then every batcher with pending calls dispatches.  The level is looked at
round after round; a round says which gates are open, and in the last one all are.

* `FieldTask`      one field of one object, with the slot and the path of its value;
* `Level.start`    starts the fields in order;
* `Level.finished` dispatches what was started, and looks at it round after round;
* `Level.run`      resolves a level, and gives the outcome of each of its fields.
-/

namespace Batchwise

/-- one step on the way to a value: a member of an object or an item of a list. -/
inductive PathSegment
  | field (name : String)
  | index (n : Nat)
deriving DecidableEq

structure FieldTask (S : Type) where
  slot : Nat
  source : S
  field : Field
  path : List PathSegment

/-- why a field has no value.  That its resolver has no batcher does not come about: an execution has
one for every batched binding of its registry. -/
inductive FieldFailure
  | noBatcher (name : String)
  | batch (error : BatchError)
  | resolver (failure : ResolverFailure)

namespace FieldFailure

def message : FieldFailure → String
  | noBatcher name => "No coordinator for '" ++ name ++ "'"
  | batch error => error.message
  | resolver failure => failure.text

end FieldFailure

/-- what became of a field: no value if nothing was given for its object. -/
abbrev FieldOutcome (S : Type) := Except FieldFailure (Option (Answer S))

inductive Reply (S C : Type)
  | known (outcome : FieldOutcome S)
  | submitted (binding : Binding S C) (ticket : Ticket)
  | called (resolver : Nat) (call : Call S C) (awaited : Deferred (SimpleOutcome S))

abbrev Round := Gate → Bool

namespace Round

def allOpen : Round := fun _ => true

end Round

namespace Level

variable {S C : Type} [DecidableEq S] [DecidableEq C]

structure Started (S C : Type) where
  execution : Execution S C
  replies : List (Reply S C)
  events : List (Event S C)

def simpleCall (b : Binding S C) (shape : Shape) (source : S) (field : Field) (context : C) :
    Call S C :=
  Call.ofShape shape source field.args (b.selectionOf field.subfields) context

def startTask (world : World S) (registry : Registry S C) (context : C) (e : Execution S C)
    (task : FieldTask S) : Execution S C × Reply S C × List (Event S C) :=
  match registry.lookup? (world.typeName task.source) task.field.name with
  | none => (e, .known (.ok (world.property task.source task.field.name)), [])
  | some b =>
    match b.resolver with
    | .batched _ _ =>
      match e.submit? b.id task.source task.field.args task.field.subfields context with
      | some s => (s.1, .submitted b s.2.1, s.2.2)
      | none => (e, .known (.error (.noBatcher b.name)), [])
    | .simple shape run =>
      let call := simpleCall b shape task.source task.field context
      (e, .called b.id call (run call), [.called b.id (call.withInput [task.source])])

def start (world : World S) (registry : Registry S C) (context : C) :
    Execution S C → List (FieldTask S) → Started S C
  | e, [] => ⟨e, [], []⟩
  | e, task :: tasks =>
    let s := startTask world registry context e task
    let rest := start world registry context s.1 tasks
    ⟨rest.execution, s.2.1 :: rest.replies, s.2.2 ++ rest.events⟩

def simpleOutcome : SimpleOutcome S → FieldOutcome S
  | .ok answer => .ok (some answer)
  | .error failure => .error (.resolver failure)

def pollReply (isOpen : Round) : Reply S C → Reply S C × List (Event S C)
  | .called resolver call awaited =>
    let awaited := awaited.poll isOpen
    if awaited.isReady then
      (.known (simpleOutcome awaited.value), [.returned resolver (call.withInput [call.input])])
    else (.called resolver call awaited, [])
  | reply => (reply, [])

def pollReplies (isOpen : Round) : List (Reply S C) → List (Reply S C) × List (Event S C)
  | [] => ([], [])
  | r :: rs =>
    let p := pollReply isOpen r
    let rest := pollReplies isOpen rs
    (p.1 :: rest.1, p.2 ++ rest.2)

structure Progress (S C : Type) where
  execution : Execution S C
  run : Run
  replies : List (Reply S C)
  events : List (Event S C)

/-- dispatch what was submitted, and look at everything for the first time. -/
def dispatch (isOpen : Round) (s : Started S C) : Progress S C :=
  let d := s.execution.dispatchAll isOpen
  let p := pollReplies isOpen s.replies
  ⟨d.execution, d.run, p.1, s.events ++ d.events ++ p.2⟩

def look (isOpen : Round) (l : Progress S C) : Progress S C :=
  let d := Execution.resume isOpen l.execution l.run
  let p := pollReplies isOpen l.replies
  ⟨d.execution, d.run, p.1, l.events ++ d.events ++ p.2⟩

def lookAll (rounds : List Round) (l : Progress S C) : Progress S C :=
  rounds.foldl (fun l isOpen => look isOpen l) l

/-- the outcome that a reply stands for once its level is done. -/
def outcome (e : Execution S C) : Reply S C → FieldOutcome S
  | .known outcome => outcome
  | .called _ _ awaited => simpleOutcome awaited.value
  | .submitted b ticket =>
    match e.result? b.id ticket with
    | some (.ok answer) => .ok answer
    | some (.error error) => .error (.batch error)
    | none => .error (.batch (.abandoned b.name))

structure Done (S C : Type) where
  execution : Execution S C
  outcomes : List (FieldOutcome S)
  events : List (Event S C)

/-- start the fields of a level, dispatch, and look at what is back in each of the rounds and in a
last one with every gate open. -/
def finished (world : World S) (registry : Registry S C) (context : C) (rounds : List Round)
    (e : Execution S C) (tasks : List (FieldTask S)) : Progress S C :=
  let started := start world registry context e tasks
  match rounds with
  | [] => dispatch Round.allOpen started
  | r :: rs => lookAll (rs ++ [Round.allOpen]) (dispatch r started)

def run (world : World S) (registry : Registry S C) (context : C) (rounds : List Round)
    (e : Execution S C) (tasks : List (FieldTask S)) : Done S C :=
  let l := finished world registry context rounds e tasks
  ⟨l.execution, l.replies.map (outcome l.execution), l.events⟩

end Level
end Batchwise
