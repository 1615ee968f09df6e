import Batchwise.Batch.Event
import Batchwise.Batch.Group

/-!
# Ticks

A tick is the set of calls that one dispatch took, split into groups.  Groups are started in
order, at most `limit` of them unfinished at a time.  A started group waits until its call comes
back; then its members are settled and there is room for the next group.

Groups that wait at one gate stand there in the order in which they came to it.  When the gate
opens they are woken in that order, and woken groups are looked at first, the earliest first; so
of two groups that finish in one look the one comes first whose gate opened first.

* `Service`       a binding together with its batched function;
* `Tick.wake`     gates open;
* `Tick.poll`     look at the woken groups, settle those whose call is back, and start as many
                  groups as there is room for;
* `Tick.isDone`   no group is left to start or to wait for.
-/

namespace Batchwise

structure Service (S C : Type) where
  binding : Binding S C
  shape : Shape
  run : Call (List S) C → Deferred (BatchOutcome S)

namespace Service

variable {S C : Type}

def ofBinding? (b : Binding S C) : Option (Service S C) :=
  match b.resolver with
  | .batched shape run => some ⟨b, shape, run⟩
  | .simple _ _ => none

def id (s : Service S C) : Nat := s.binding.id

def name (s : Service S C) : String := s.binding.name

end Service

structure Running (S C : Type) where
  group : Group S C
  call : Call (List S) C
  awaited : Deferred (BatchOutcome S)

/-- the calls that one dispatch took. -/
structure Tick (S C : Type) where
  number : Nat
  context : C
  keys : Nat
  groups : Nat
  limit : Nat
  queued : List (Group S C)
  /-- the started groups that stand at a gate; of those at one gate the first came first. -/
  waiting : List (Running S C)
  /-- the started groups whose gate opened since they were looked at, in the order in which they
  were woken. -/
  woken : List (Running S C)
  failed : Nat

structure Progress (S C : Type) where
  running : List (Running S C)
  failed : Nat
  settled : List (Ticket × CallResult S)
  events : List (Event S C)

namespace Progress

variable {S C : Type}

def none : Progress S C := ⟨[], 0, [], []⟩

def append (p q : Progress S C) : Progress S C where
  running := p.running ++ q.running
  failed := p.failed + q.failed
  settled := p.settled ++ q.settled
  events := p.events ++ q.events

instance : Append (Progress S C) := ⟨append⟩

def after (events : List (Event S C)) (p : Progress S C) : Progress S C :=
  { p with events := events ++ p.events }

end Progress

namespace Group

variable {S C : Type} [DecidableEq S] [DecidableEq C]

def call (s : Service S C) (context : C) (g : Group S C) : Call (List S) C :=
  Call.ofShape s.shape g.sources g.args g.selection context

/-- the event of a positive count. -/
def countEvent (event : Nat → Event S C) (count : Nat) : List (Event S C) :=
  if count = 0 then [] else [event count]

def finish (s : Service S C) (g : Group S C) : BatchOutcome S → Progress S C
  | .ok answers =>
    let r := restrict g.sources answers
    { running := []
      failed := 0
      settled := (distribute g.members r.answers).1
      events := countEvent (.unrequested s.id) r.unrequested ++
        countEvent (.missing s.id) r.missing }
  | .error failure =>
    { running := []
      failed := 1
      settled := g.tickets.map fun t => (t, .error (.resolverFailed s.name failure))
      events := [.groupFailed s.id failure g.members.length] }

end Group

namespace Running

variable {S C : Type} [DecidableEq S] [DecidableEq C]

/-- whether a started group stands at an open gate, or at none. -/
def mayPass (isOpen : Gate → Bool) (r : Running S C) : Bool := r.awaited.mayPass isOpen

def poll (s : Service S C) (isOpen : Gate → Bool) (r : Running S C) : Progress S C :=
  let awaited := r.awaited.poll isOpen
  if awaited.isReady then
    (r.group.finish s awaited.value).after [.returned s.id r.call]
  else { Progress.none with running := [{ r with awaited := awaited }] }

/-- make the call of a group, and see whether it is back at once. -/
def start (s : Service S C) (isOpen : Gate → Bool) (context : C) (g : Group S C) :
    Progress S C :=
  let call := g.call s context
  (poll s isOpen ⟨g, call, s.run call⟩).after
    [.invoked s.id g.sources.length, .called s.id call]

def pollAll (s : Service S C) (isOpen : Gate → Bool) : List (Running S C) → Progress S C
  | [] => .none
  | r :: rs => r.poll s isOpen ++ pollAll s isOpen rs

end Running

namespace Tick

variable {S C : Type} [DecidableEq S] [DecidableEq C]

/-- start groups while fewer than `limit` are unfinished, of which there are `busy` now; the
groups that found no room are left. -/
def startQueued (s : Service S C) (isOpen : Gate → Bool) (context : C) (limit : Nat) :
    Nat → List (Group S C) → Progress S C × List (Group S C)
  | _, [] => (.none, [])
  | busy, g :: gs =>
    if busy < limit then
      let p := Running.start s isOpen context g
      let (q, rest) := startQueued s isOpen context limit (busy + p.running.length) gs
      (p ++ q, rest)
    else (.none, g :: gs)

def running (t : Tick S C) : List (Running S C) := t.woken ++ t.waiting

def wake (isOpen : Gate → Bool) (t : Tick S C) : Tick S C :=
  { t with
    woken := t.woken ++ t.waiting.filter fun r => r.mayPass isOpen
    waiting := t.waiting.filter fun r => !r.mayPass isOpen }

structure Polled (S C : Type) where
  tick : Tick S C
  settled : List (Ticket × CallResult S)
  /-- the gates to which groups came, in order. -/
  arrivals : List Gate
  events : List (Event S C)

/-- go on with a tick as far as its calls are back.  A woken group that is kept by a gate comes
to it after those that already stand there, and before those that are started now. -/
def poll (s : Service S C) (isOpen : Gate → Bool) (t : Tick S C) : Polled S C :=
  let t := t.wake isOpen
  let looked := Running.pollAll s isOpen t.woken
  let busy := t.waiting.length + looked.running.length
  let (started, queued) := startQueued s isOpen t.context t.limit busy t.queued
  let all := looked ++ started
  { tick := { t with
      queued := queued
      waiting := t.waiting ++ all.running
      woken := []
      failed := t.failed + all.failed }
    settled := all.settled
    arrivals := all.running.filterMap fun r => r.awaited.gate?
    events := all.events }

def isDone (t : Tick S C) : Bool := t.queued.isEmpty && t.running.isEmpty

def unsettled (t : Tick S C) : List Ticket :=
  t.running.flatMap (fun r => r.group.tickets) ++ t.queued.flatMap Group.tickets

end Tick
end Batchwise
