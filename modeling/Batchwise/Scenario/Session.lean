import Batchwise.Query.Level

/-!
# Sessions

A session plays with executions of one registry, command by command: calls are submitted,
dispatches are started, gone on with and given up, and gates are opened and closed in between.
Opening a gate settles nothing by itself: the calls that stand at it are woken, and pass it when
their dispatch is gone on with.

* `Session.perform`   one command: the session after it, its result, and what happened;
* `Session.status`    what the batchers of each execution are doing.
-/

namespace Batchwise.Scenario

abbrev FieldName := String × String

inductive Command
  | submit (execution : Nat) (field : FieldName) (source : String) (args : Args)
    (subfields : List Field) (context : String)
  | dispatch (execution : Nat) (field : FieldName)
  | dispatchAll (execution : Nat)
  | resume (dispatch : Nat)
  | dropDispatch (dispatch : Nat)
  | openGate (gate : Gate)
  | closeGate (gate : Gate)
  | peek (handle : Nat)
  | peekAll
  | dropHandle (handle : Nat)
  | newExecution (observed : Bool)
  | dropExecution (execution : Nat)
  | batcher (execution : Nat) (field : FieldName)
  | callSimple (field : FieldName) (source : String) (args : Args) (subfields : List Field)
    (context : String)
  | counts

inductive Refusal
  | noSuchExecution
  | noResolver
  | noBatcher
  | notSimple
  | noSuchDispatch
  | dispatchFinished
  | dispatchDropped
  | dispatchNotRunning
  | noSuchHandle
deriving DecidableEq

inductive HandleView
  | pending
  | dropped
  | settled (result : CallResult String)

inductive CommandResult
  | refused (refusal : Refusal)
  | done
  | handle (index : Nat)
  | dispatch (index : Nat) (result : Option (Except DispatchError (List Summary)))
  | view (view : HandleView)
  | views (views : List HandleView)
  | execution (index : Nat)
  | batcher (name : Option String)
  | simple (outcome : Option (SimpleOutcome String))
  | counts (counts : Counts)

structure SessionExecution where
  execution : Execution String String
  observed : Bool
  dropped : Bool

structure SessionHandle where
  execution : Nat
  resolver : Nat
  ticket : Ticket
  dropped : Bool

structure SessionDispatch where
  execution : Nat
  run : Run
  dropped : Bool

/-- executions of one registry, their handles and dispatches, and the gates that are open. -/
structure Session where
  registry : Registry String String
  executions : List SessionExecution
  handles : List SessionHandle
  dispatches : List SessionDispatch
  openGates : List Gate
  counts : Counts

namespace Session

def start (registry : Registry String String) : Session where
  registry := registry
  executions := [⟨.ofRegistry registry, true, false⟩]
  handles := []
  dispatches := []
  openGates := []
  counts := .zero

def isOpen (s : Session) (gate : Gate) : Bool := s.openGates.contains gate

structure Step where
  session : Session
  result : CommandResult
  /-- whether an observer was told what happened. -/
  observed : Bool
  events : List (Event String String)

def quiet (session : Session) (result : CommandResult) : Step := ⟨session, result, true, []⟩

/-! ### finding things -/

def execution? (s : Session) (index : Nat) : Except Refusal SessionExecution :=
  match s.executions[index]? with
  | some e => if e.dropped then .error .noSuchExecution else .ok e
  | none => .error .noSuchExecution

def binding? (s : Session) (field : FieldName) : Except Refusal (Binding String String) :=
  match s.registry.lookup? field.1 field.2 with
  | some b => .ok b
  | none => .error .noResolver

def batchedBinding? (s : Session) (field : FieldName) :
    Except Refusal (Binding String String) :=
  match s.binding? field with
  | .error refusal => .error refusal
  | .ok b => if b.isBatched then .ok b else .error .noBatcher

def view (s : Session) (h : SessionHandle) : HandleView :=
  if h.dropped then .dropped
  else
    match s.executions[h.execution]?.bind fun e => e.execution.result? h.resolver h.ticket with
    | some result => .settled result
    | none => .pending

/-! ### changing things -/

def setExecution (s : Session) (index : Nat) (e : SessionExecution) : Session :=
  { s with executions := s.executions.set index e }

def tell (s : Session) (observed : Bool) (events : List (Event String String)) : Session :=
  if observed then { s with counts := s.counts.recordAll events } else s

def started (s : Session) (index : Nat) (e : SessionExecution)
    (step : Execution.Step String String) : Step :=
  let s := s.setExecution index { e with execution := step.execution }
  let number := s.dispatches.length
  let s : Session := { s with dispatches := s.dispatches ++ [⟨index, step.run, false⟩] }
  ⟨s.tell e.observed step.events, .dispatch number (Run.result? step.run), e.observed, step.events⟩

/-! ### commands -/

def submit (s : Session) (index : Nat) (field : FieldName) (source : String) (args : Args)
    (subfields : List Field) (context : String) : Except Refusal Step := do
  let e ← s.execution? index
  let b ← s.batchedBinding? field
  match e.execution.submit? b.id source args subfields context with
  | none => .error .noBatcher
  | some (execution, ticket, events) =>
    let s := s.setExecution index { e with execution := execution }
    let number := s.handles.length
    let s : Session := { s with handles := s.handles ++ [⟨index, b.id, ticket, false⟩] }
    return ⟨s.tell e.observed events, .handle number, e.observed, events⟩

def dispatch (s : Session) (index : Nat) (field : FieldName) : Except Refusal Step := do
  let e ← s.execution? index
  let b ← s.batchedBinding? field
  return s.started index e (e.execution.dispatch s.isOpen b.id)

def dispatchAll (s : Session) (index : Nat) : Except Refusal Step := do
  let e ← s.execution? index
  return s.started index e (e.execution.dispatchAll s.isOpen)

def resume (s : Session) (number : Nat) : Except Refusal Step :=
  match s.dispatches[number]? with
  | none => .error .noSuchDispatch
  | some d =>
    if d.dropped then .error .dispatchDropped
    else if (Run.result? d.run).isSome then .error .dispatchFinished
    else
      match s.executions[d.execution]? with
      | none => .error .noSuchDispatch
      | some e =>
        let step := Execution.resume s.isOpen e.execution d.run
        let s := s.setExecution d.execution { e with execution := step.execution }
        let s := { s with dispatches := s.dispatches.set number { d with run := step.run } }
        .ok ⟨s.tell e.observed step.events, .dispatch number (Run.result? step.run), e.observed,
          step.events⟩

def dropDispatch (s : Session) (number : Nat) : Except Refusal Step :=
  match s.dispatches[number]? with
  | none => .error .dispatchNotRunning
  | some d =>
    if d.dropped || (Run.result? d.run).isSome then .error .dispatchNotRunning
    else
      match s.executions[d.execution]? with
      | none => .error .dispatchNotRunning
      | some e =>
        let s := s.setExecution d.execution { e with execution := e.execution.drop d.run }
        let s := { s with dispatches := s.dispatches.set number { d with dropped := true } }
        .ok (s.quiet .done)

def dropHandle (s : Session) (number : Nat) : Except Refusal Step :=
  match s.handles[number]? with
  | none => .error .noSuchHandle
  | some h =>
    .ok ({ s with handles := s.handles.set number { h with dropped := true } }.quiet .done)

/-- open a gate, and wake the calls of all executions that stand at it. -/
def openGate (s : Session) (gate : Gate) : Session :=
  let isIt := fun g => g == gate
  { s with
    openGates := gate :: s.openGates
    executions := s.executions.map fun e => { e with execution := e.execution.wake isIt }
    dispatches := s.dispatches.map fun d => { d with run := d.run.wake isIt } }

def closeGate (s : Session) (gate : Gate) : Session :=
  { s with openGates := s.openGates.filter fun g => g != gate }

def peek (s : Session) (number : Nat) : Except Refusal Step :=
  match s.handles[number]? with
  | none => .error .noSuchHandle
  | some h => .ok (s.quiet (.view (s.view h)))

def newExecution (s : Session) (observed : Bool) : Step :=
  let number := s.executions.length
  let s : Session := {
    s with executions := s.executions ++ [⟨.ofRegistry s.registry, observed, false⟩] }
  s.quiet (.execution number)

def dropDispatchesOf (index : Nat) (d : SessionDispatch) : SessionDispatch :=
  if d.execution = index && (Run.result? d.run).isNone then { d with dropped := true } else d

def dropExecution (s : Session) (index : Nat) : Except Refusal Step := do
  let e ← s.execution? index
  let s := s.setExecution index { e with execution := e.execution.close, dropped := true }
  let s := { s with dispatches := s.dispatches.map (dropDispatchesOf index) }
  return s.quiet .done

/-- the name of the batcher of a field, if the field has a resolver and this one a batcher. -/
def batcher (s : Session) (index : Nat) (field : FieldName) : Except Refusal Step := do
  let e ← s.execution? index
  let batcher := (s.registry.lookup? field.1 field.2).bind fun b => e.execution.batcher? b.id
  return s.quiet (.batcher (batcher.map fun b => b.service.name))

/-- call a simple resolver and see whether it is back at once. -/
def callSimple (s : Session) (field : FieldName) (source : String) (args : Args)
    (subfields : List Field) (context : String) : Except Refusal Step := do
  let b ← s.binding? field
  match b.resolver with
  | .batched _ _ => .error .notSimple
  | .simple shape run =>
    let call := Level.simpleCall b shape source ⟨none, b.fieldName, args, subfields⟩ context
    let awaited := (run call).poll s.isOpen
    let outcome := if awaited.isReady then some awaited.value else none
    return ⟨s, .simple outcome, true, [.called b.id (call.withInput [source])]⟩

def perform? (s : Session) : Command → Except Refusal Step
  | .submit index field source args subfields context =>
    s.submit index field source args subfields context
  | .dispatch index field => s.dispatch index field
  | .dispatchAll index => s.dispatchAll index
  | .resume number => s.resume number
  | .dropDispatch number => s.dropDispatch number
  | .openGate gate => .ok ((s.openGate gate).quiet .done)
  | .closeGate gate => .ok ((s.closeGate gate).quiet .done)
  | .peek number => s.peek number
  | .peekAll => .ok (s.quiet (.views (s.handles.map s.view)))
  | .dropHandle number => s.dropHandle number
  | .newExecution observed => .ok (s.newExecution observed)
  | .dropExecution index => s.dropExecution index
  | .batcher index field => s.batcher index field
  | .callSimple field source args subfields context =>
    s.callSimple field source args subfields context
  | .counts => .ok (s.quiet (.counts s.counts))

/-- perform a command; a refused one changes nothing. -/
def perform (s : Session) (command : Command) : Step :=
  match s.perform? command with
  | .ok step => step
  | .error refusal => s.quiet (.refused refusal)

def performAll : Session → List Command → List Step
  | _, [] => []
  | s, c :: cs =>
    let step := s.perform c
    step :: performAll step.session cs

/-! ### status -/

structure BatcherStatus where
  phase : Phase
  pending : Nat
  ticks : Nat

structure ExecutionStatus where
  hasPending : Bool
  batchers : List BatcherStatus

/-- what each execution is doing, if it was not dropped. -/
def status (s : Session) : List (Option ExecutionStatus) :=
  s.executions.map fun e =>
    if e.dropped then none
    else some {
      hasPending := e.execution.hasPending
      batchers := e.execution.batchers.map fun b => ⟨b.phase, b.pending.size, b.ticks⟩ }

end Session
end Batchwise.Scenario
