import Batchwise.Response.Document

/-!
# Drafts of a response

A response is drafted in slots.  A slot is reserved before its value is known, in the order of
the query, and filled later in any order, so that the finished document follows the query and
not the order in which values came.

* `Draft.addEntry`   reserves a slot for a member of an object;
* `Draft.setList`    reserves slots for the items of a list, one behind the other;
* `Draft.setObject`, `setNull`, `setScalar`   fill a slot;
* `Draft.document`   the document at a slot.  A slot only ever refers to slots reserved after it,
                     so the documents are made from the last slot to the first.
-/

namespace Batchwise

inductive Slot
  /-- reserved, and without a value so far. -/
  | pending
  | null
  | scalar (value : Document)
  | object (members : List (String × Nat))
  | list (items : List Nat)

/-- the slots of a response; the first one is the root. -/
structure Draft where
  slots : Array Slot

namespace Draft

def empty : Draft := ⟨#[.object []]⟩

def root : Nat := 0

def reserve (d : Draft) : Draft := ⟨d.slots.push .pending⟩

def fill (d : Draft) (slot : Nat) (value : Slot) : Draft := ⟨d.slots.setIfInBounds slot value⟩

/-- a draft after slots were reserved, and the first of them. -/
structure Reserved where
  draft : Draft
  slot : Nat

/-- reserve a slot for a member of the object at `parent`. -/
def addEntry (d : Draft) (parent : Nat) (key : String) : Reserved :=
  let child := d.slots.size
  let d := d.reserve
  match d.slots[parent]? with
  | some (.object members) => ⟨d.fill parent (.object (members ++ [(key, child)])), child⟩
  | _ => ⟨d, child⟩

def setObject (d : Draft) (slot : Nat) : Draft := d.fill slot (.object [])

def reserveMany : Nat → Draft → Draft
  | 0, d => d
  | n + 1, d => reserveMany n d.reserve

/-- fill a slot with a list of `size` reserved items. -/
def setList (d : Draft) (slot size : Nat) : Reserved :=
  let first := d.slots.size
  ⟨(reserveMany size d).fill slot (.list (List.range' first size)), first⟩

def setNull (d : Draft) (slot : Nat) : Draft := d.fill slot .null

def setScalar (d : Draft) (slot : Nat) (value : Document) : Draft := d.fill slot (.scalar value)

/-! ### documents -/

/-- the document of a slot, given the documents of others.  Of members with one name the first
gives the position and the last the value. -/
def slotDocument (documentAt : Nat → Document) : Slot → Document
  | .pending => .null
  | .null => .null
  | .scalar value => value
  | .object members => .object (Entries.ofList (members.map fun m => (m.1, documentAt m.2)))
  | .list items => .list (items.map documentAt)

/-- the documents of the slots from number `first` on; a slot sees the documents behind it. -/
def documentsFrom (first : Nat) : List Slot → List Document
  | [] => []
  | s :: ss =>
    let behind := documentsFrom (first + 1) ss
    slotDocument (fun slot => if first < slot then behind.getD (slot - (first + 1)) .null else .null)
      s :: behind

def document (d : Draft) (slot : Nat) : Document := (documentsFrom 0 d.slots.toList).getD slot .null

end Draft
end Batchwise
