import Batchwise.Batch.Tick

/-!
# Batchers

A batcher collects the calls of one batched resolver.  Equal calls that are pending at the same
time share one ticket.  A dispatch takes everything pending as one tick; ticks may overlap, and
calls that come meanwhile wait for the next one.  Every ticket is settled once: by the group of
its call, by a refused tick, or as abandoned when its tick or the batcher is dropped.

* `Batcher.submit`     record a call, or join an equal pending one;
* `Batcher.beginTick`  take what is pending; calls of different contexts are refused together;
* `Batcher.wake`       gates open;
* `Batcher.poll`       go on with a tick, and end it when it is done;
* `Batcher.drop`       give up a tick;
* `Batcher.close`      give up everything.
-/

namespace Batchwise

inductive Phase
  | collecting
  | dispatching
  | completed
deriving DecidableEq

structure Summary where
  resolver : Nat
  /-- the number of distinct calls taken. -/
  keys : Nat
  groups : Nat
  failed : Nat
deriving DecidableEq

inductive DispatchError
  | contextDivergence (resolver : String)
deriving DecidableEq

namespace DispatchError

def message : DispatchError → String
  | contextDivergence resolver => divergenceMessage resolver

end DispatchError

inductive Dispatch
  | running (tick : Nat)
  | ended (result : Except DispatchError Summary)

/-- the pending calls and running ticks of one batched resolver in one execution. -/
structure Batcher (S C : Type) where
  service : Service S C
  maxConcurrentGroups : Option Nat
  phase : Phase
  pending : Table (Key S C) Pending
  /-- the number of dispatches that took a call. -/
  ticks : Nat
  /-- the number of ticks taken and not ended. -/
  inFlight : Nat
  running : List (Tick S C)
  /-- the result of every ticket, once there is one. -/
  results : Array (Option (CallResult S))

namespace Batcher

variable {S C : Type}

def new (maxConcurrentGroups : Option Nat) (service : Service S C) : Batcher S C where
  service := service
  maxConcurrentGroups := maxConcurrentGroups
  phase := .collecting
  pending := .empty
  ticks := 0
  inFlight := 0
  running := []
  results := #[]

def id (b : Batcher S C) : Nat := b.service.id

def hasPending (b : Batcher S C) : Bool := !b.pending.isEmpty

def result? (b : Batcher S C) (ticket : Ticket) : Option (CallResult S) :=
  (b.results[ticket]?).join

def settle (b : Batcher S C) (settled : List (Ticket × CallResult S)) : Batcher S C :=
  { b with results := settled.foldl (fun rs e => rs.setIfInBounds e.1 (some e.2)) b.results }

def settleAll (b : Batcher S C) (tickets : List Ticket) (result : CallResult S) : Batcher S C :=
  b.settle (tickets.map fun t => (t, result))

/-! ### submitting -/

section

variable [DecidableEq S] [DecidableEq C]

structure Submission (S C : Type) where
  batcher : Batcher S C
  ticket : Ticket
  events : List (Event S C)

/-- record a call of the resolver for `source`; `subfields` are the subfields of the field. -/
def submit (b : Batcher S C) (source : S) (args : Args) (subfields : List Field) (context : C) :
    Submission S C :=
  let selection := b.service.binding.selectionOf subfields
  let key := Key.ofCall b.service.binding.signature source args selection context
  let b := { b with phase := if b.phase = Phase.completed then Phase.collecting else b.phase }
  match b.pending.find? key with
  | some p => { batcher := b, ticket := p.ticket, events := [.submitted b.id true] }
  | none =>
    let ticket := b.results.size
    { batcher := {
        b with
        pending := b.pending.put key ⟨args, selection, ticket⟩
        results := b.results.push none }
      ticket := ticket
      events := [.submitted b.id false] }

end

/-! ### dispatching -/

/-- what a batcher does when one of its ticks has ended. -/
def settledPhase (inFlight : Nat) (pending : Table (Key S C) Pending) : Phase :=
  if 0 < inFlight then .dispatching
  else if pending.isEmpty then .completed
  else .collecting

def endTick (b : Batcher S C) : Batcher S C :=
  { b with
    inFlight := b.inFlight - 1
    phase := settledPhase (b.inFlight - 1) b.pending }

structure Step (S C : Type) where
  batcher : Batcher S C
  dispatch : Dispatch
  /-- the gates to which groups came, in order. -/
  arrivals : List Gate
  events : List (Event S C)

def take (b : Batcher S C) : Batcher S C :=
  { b with
    phase := .dispatching
    pending := .empty
    ticks := b.ticks + 1
    inFlight := b.inFlight + 1 }

/-- how many groups may be unfinished at a time: at least one. -/
def groupLimit (b : Batcher S C) (groups : Nat) : Nat :=
  max 1 (b.maxConcurrentGroups.getD groups)

variable [DecidableEq S] [DecidableEq C]

def formTick (b : Batcher S C) (context : C) (pending : List (Key S C × Pending)) : Tick S C :=
  let groups := (groupPending pending).values
  { number := b.ticks
    context := context
    keys := pending.length
    groups := groups.length
    limit := b.groupLimit groups.length
    queued := groups
    waiting := []
    woken := []
    failed := 0 }

/-- take what is pending as one tick, none of whose groups is started yet.  Nothing pending
changes nothing; calls of different contexts are refused together. -/
def beginTick (b : Batcher S C) : Step S C :=
  match b.pending.entries with
  | [] =>
    { batcher := b, dispatch := .ended (.ok ⟨b.id, 0, 0, 0⟩), arrivals := [], events := [] }
  | e :: es =>
    if es.all fun f => decide (f.1.context = e.1.context) then
      let tick := b.formTick e.1.context (e :: es)
      { batcher := { b.take with running := b.running ++ [tick] }
        dispatch := .running tick.number
        arrivals := []
        events := [.dispatched b.id tick.keys tick.groups] }
    else
      let name := b.service.name
      { batcher := (b.take.settleAll ((e :: es).map fun f => f.2.ticket)
          (.error (.contextDivergence name))).endTick
        dispatch := .ended (.error (.contextDivergence name))
        arrivals := []
        events := [.diverged b.id (e :: es).length] }

def tick? (b : Batcher S C) (number : Nat) : Option (Tick S C) :=
  b.running.find? fun t => t.number == number

def wake (isOpen : Gate → Bool) (b : Batcher S C) : Batcher S C :=
  { b with running := b.running.map (Tick.wake isOpen) }

/-- go on with a tick as far as its calls are back, and end it when it is done. -/
def poll (b : Batcher S C) (isOpen : Gate → Bool) (number : Nat) : Step S C :=
  match b.tick? number with
  | none => { batcher := b, dispatch := .running number, arrivals := [], events := [] }
  | some tick =>
    let p := tick.poll b.service isOpen
    let b := b.settle p.settled
    if p.tick.isDone then
      { batcher := ({ b with running := b.running.filter fun t => t.number != number }).endTick
        dispatch := .ended (.ok ⟨b.id, tick.keys, tick.groups, p.tick.failed⟩)
        arrivals := p.arrivals
        events := p.events }
    else
      { batcher := {
          b with running := b.running.map fun t => if t.number == number then p.tick else t }
        dispatch := .running number
        arrivals := p.arrivals
        events := p.events }

/-- start a dispatch and go on with it as far as its calls are back. -/
def dispatch (b : Batcher S C) (isOpen : Gate → Bool) : Step S C :=
  let begun := b.beginTick
  match begun.dispatch with
  | .ended _ => begun
  | .running number =>
    let polled := begun.batcher.poll isOpen number
    { polled with events := begun.events ++ polled.events }

/-- give up a tick: its calls that have no result are abandoned. -/
def drop (b : Batcher S C) (number : Nat) : Batcher S C :=
  match b.tick? number with
  | none => b
  | some tick =>
    let b := b.settleAll tick.unsettled (.error (.abandoned b.service.name))
    ({ b with running := b.running.filter fun t => t.number != number }).endTick

def close (b : Batcher S C) : Batcher S C :=
  let b := (b.running.map Tick.number).foldl drop b
  let b := b.settleAll (b.pending.values.map Pending.ticket) (.error (.abandoned b.service.name))
  { b with pending := .empty }

end Batcher
end Batchwise
