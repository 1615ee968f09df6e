import Batchwise.Batch.Batcher
import Batchwise.Registry

/-!
# Executions

The batchers of one execution of a query, one for each batched binding, in order of registration.
Nothing that is pending in one execution is seen by another.

* `Execution.dispatchAll`   one tick for every batcher with pending calls, in order, whatever
                            happens to the others;
* `Run`                     a started dispatch of one batcher or of all: `Run.result?` is there
                            when all its parts have ended, and is the first failure if there is
                            one;
* `Execution.resume`        go on with all parts of a dispatch: in order, but in a large execution
                            the parts that were woken go first, the earliest woken foremost.
-/

namespace Batchwise

structure RunPart where
  resolver : Nat
  dispatch : Dispatch

/-- a started dispatch of one batcher or of many. -/
structure Run where
  parts : List RunPart
  /-- the gates at which groups stand, each with the resolver; the first came first. -/
  standing : List (Nat × Gate)
  /-- the resolvers with a group that was woken since the dispatch was gone on with, in the order
  in which they were woken. -/
  woken : List Nat

namespace Run

def empty : Run := ⟨[], [], []⟩

def cons (resolver : Nat) (dispatch : Dispatch) (arrivals : List Gate) (run : Run) : Run where
  parts := ⟨resolver, dispatch⟩ :: run.parts
  standing := arrivals.map (fun gate => (resolver, gate)) ++ run.standing
  woken := run.woken

def part? (run : Run) (resolver : Nat) : Option RunPart :=
  run.parts.find? fun p => p.resolver == resolver

def update (resolver : Nat) (dispatch : Dispatch) (arrivals : List Gate) (run : Run) : Run where
  parts := run.parts.map fun p => if p.resolver == resolver then ⟨resolver, dispatch⟩ else p
  standing := run.standing ++ arrivals.map fun gate => (resolver, gate)
  woken := run.woken

/-- the resolvers at open gates join those that were woken. -/
def addWoken (isOpen : Gate → Bool) : List (Nat × Gate) → List Nat → List Nat
  | [], woken => woken
  | (resolver, gate) :: rest, woken =>
    addWoken isOpen rest
      (if isOpen gate && !woken.contains resolver then woken ++ [resolver] else woken)

def wake (isOpen : Gate → Bool) (run : Run) : Run where
  parts := run.parts
  standing := run.standing.filter fun e => !isOpen e.2
  woken := addWoken isOpen run.standing run.woken

def resolvers (run : Run) : List Nat := run.parts.map RunPart.resolver

def wokenFirst (run : Run) : List Nat :=
  run.woken ++ run.resolvers.filter fun resolver => !run.woken.contains resolver

def partResults? : List RunPart → Option (List (Except DispatchError Summary))
  | [] => some []
  | p :: ps =>
    match p.dispatch with
    | .running _ => none
    | .ended r => (partResults? ps).map (r :: ·)

/-- the summaries of all parts, or the first failure. -/
def collect : List (Except DispatchError Summary) → Except DispatchError (List Summary)
  | [] => .ok []
  | .error e :: _ => .error e
  | .ok s :: rs =>
    match collect rs with
    | .error e => .error e
    | .ok ss => .ok (s :: ss)

def result? (run : Run) : Option (Except DispatchError (List Summary)) :=
  (partResults? run.parts).map collect

end Run

structure Execution (S C : Type) where
  batchers : List (Batcher S C)

namespace Execution

variable {S C : Type}

def ofRegistry (r : Registry S C) : Execution S C where
  batchers := (r.bindings.filterMap Service.ofBinding?).map
    (Batcher.new r.settings.maxConcurrentGroups)

def batcher? (e : Execution S C) (resolver : Nat) : Option (Batcher S C) :=
  e.batchers.find? fun b => b.id == resolver

def hasPending (e : Execution S C) : Bool := e.batchers.any Batcher.hasPending

def result? (e : Execution S C) (resolver : Nat) (ticket : Ticket) : Option (CallResult S) :=
  (e.batcher? resolver).bind fun b => b.result? ticket

def replace (e : Execution S C) (batcher : Batcher S C) : Execution S C :=
  ⟨e.batchers.map fun b => if b.id == batcher.id then batcher else b⟩

structure Step (S C : Type) where
  execution : Execution S C
  run : Run
  events : List (Event S C)

variable [DecidableEq S] [DecidableEq C]

def submit? (e : Execution S C) (resolver : Nat) (source : S) (args : Args)
    (subfields : List Field) (context : C) :
    Option (Execution S C × Ticket × List (Event S C)) :=
  (e.batcher? resolver).map fun b =>
    let s := b.submit source args subfields context
    (e.replace s.batcher, s.ticket, s.events)

def dispatch (e : Execution S C) (isOpen : Gate → Bool) (resolver : Nat) : Step S C :=
  match e.batcher? resolver with
  | none => ⟨e, .empty, []⟩
  | some b =>
    let s := b.dispatch isOpen
    ⟨e.replace s.batcher, Run.empty.cons resolver s.dispatch s.arrivals, s.events⟩

def dispatchList (isOpen : Gate → Bool) :
    List (Batcher S C) → List (Batcher S C) × Run × List (Event S C)
  | [] => ([], .empty, [])
  | b :: bs =>
    let rest := dispatchList isOpen bs
    if b.hasPending then
      let s := b.dispatch isOpen
      (s.batcher :: rest.1, rest.2.1.cons b.id s.dispatch s.arrivals, s.events ++ rest.2.2)
    else (b :: rest.1, rest.2.1, rest.2.2)

/-- start a dispatch of every batcher that has pending calls. -/
def dispatchAll (e : Execution S C) (isOpen : Gate → Bool) : Step S C :=
  let s := dispatchList isOpen e.batchers
  ⟨⟨s.1⟩, s.2.1, s.2.2⟩

def wake (isOpen : Gate → Bool) (e : Execution S C) : Execution S C :=
  ⟨e.batchers.map (Batcher.wake isOpen)⟩

/-- up to this many batchers an execution is not large. -/
def largeLimit : Nat := 30

/-- whether the parts of a dispatch go on in the order in which they were woken. -/
def isLarge (e : Execution S C) : Bool := decide (largeLimit < e.batchers.length)

def resumePart (isOpen : Gate → Bool) (s : Step S C) (resolver : Nat) : Step S C :=
  match s.run.part? resolver, s.execution.batcher? resolver with
  | some ⟨_, .running number⟩, some b =>
    let t := b.poll isOpen number
    { execution := s.execution.replace t.batcher
      run := s.run.update resolver t.dispatch t.arrivals
      events := s.events ++ t.events }
  | _, _ => s

def resume (isOpen : Gate → Bool) (e : Execution S C) (run : Run) : Step S C :=
  let run := run.wake isOpen
  let order := if e.isLarge then run.wokenFirst else run.resolvers
  order.foldl (resumePart isOpen) ⟨e, { run with woken := [] }, []⟩

def drop (e : Execution S C) (run : Run) : Execution S C :=
  run.parts.foldl (fun e p =>
    match p.dispatch, e.batcher? p.resolver with
    | .running number, some b => e.replace (b.drop number)
    | _, _ => e) e

def close (e : Execution S C) : Execution S C := ⟨e.batchers.map Batcher.close⟩

end Execution
end Batchwise
