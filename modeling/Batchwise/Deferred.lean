/-!
# Deferred values

What a resolver answers may have to wait.  A deferred value stands behind gates, which it passes
one after the other; a gate that was passed is not asked again.  The value is there when no gate
is left.

* `Deferred.poll`      pass the gates in front that are open now: `poll_poll` says that asking
                       twice at one moment passes no more than asking once;
* `Deferred.mayPass`   whether asking now would pass a gate: else it changes nothing
                       (`poll_of_not_mayPass`).
-/

namespace Batchwise

abbrev Gate := String

structure Deferred (A : Type) where
  gates : List Gate
  value : A

namespace Deferred

variable {A : Type}

def ready (a : A) : Deferred A := ⟨[], a⟩

def isReady (d : Deferred A) : Bool := d.gates.isEmpty

def gate? (d : Deferred A) : Option Gate := d.gates.head?

/-- whether no gate, or an open one, is next. -/
def mayPass (isOpen : Gate → Bool) (d : Deferred A) : Bool := d.gate?.all isOpen

def poll (isOpen : Gate → Bool) (d : Deferred A) : Deferred A :=
  { d with gates := d.gates.dropWhile isOpen }

theorem poll_poll (isOpen : Gate → Bool) (d : Deferred A) :
    (d.poll isOpen).poll isOpen = d.poll isOpen := by
  obtain ⟨gates, a⟩ := d
  simp only [poll, mk.injEq, and_true]
  induction gates with
  | nil => rfl
  | cons g gs ih =>
    by_cases h : isOpen g = true
    · simp [h, ih]
    · simp [h]

theorem poll_of_not_mayPass {isOpen : Gate → Bool} {d : Deferred A}
    (h : d.mayPass isOpen = false) : d.poll isOpen = d := by
  obtain ⟨gates, a⟩ := d
  cases gates with
  | nil => simp [mayPass, gate?] at h
  | cons g gs =>
    have hg : isOpen g = false := by simpa [mayPass, gate?] using h
    simp [poll, hg]

theorem isReady_poll_all (d : Deferred A) : (d.poll fun _ => true).isReady = true := by
  obtain ⟨gates, a⟩ := d
  simp only [poll, isReady, List.isEmpty_iff]
  induction gates with
  | nil => rfl
  | cons g gs ih => simp [ih]

end Deferred
end Batchwise
