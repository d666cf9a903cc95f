/-
  A chain: its listeners in dispatch order, in slots whose ids are NEVER used twice.

  Linked slots form a list in both directions, from `first` to `last`.  A dispatch that stands on a
  slot PINS it.  Detaching a pinned slot leaves it behind as a TOMBSTONE: out of the list, but with its
  listener and with the way forward.  When the slot a tombstone points at is detached too, the
  tombstone is moved on to the next one that is linked, so the way forward never leads through a
  removed slot.  The last pin to be released takes the tombstone away.

  No operation lets a listener vanish: one that takes a slot out of the table hands its listener back
  to the caller, who decides when it ends.  One that takes many out hands them back in an ORDER that is
  given to it, for it is a hash table that decides there, and nothing may depend on it.

  Ids, sizes and pins are numbers WITHOUT a bound.  So it is assumed that a chain is added to fewer than
  2 ^ 64 times, and pinned by fewer dispatches at once; a counter of machine words would come round.
-/
import Relay.Table

namespace Relay

/-- The name of a slot, in order of creation. -/
abbrev SlotId := Nat

/-- An order in which slots are met. -/
structure Shuffle where
  apply : List SlotId → List SlotId
  perm : ∀ ids, (apply ids).Perm ids

/-- The order in which they are given. -/
def Shuffle.plain : Shuffle := ⟨id, List.Perm.refl⟩

/-- One place in a chain. -/
structure Slot (L : Type) where
  listener : L
  before : Option SlotId
  after : Option SlotId
  /-- Part of the chain; a slot that is not is a tombstone. -/
  linked : Bool
  /-- How many dispatches stand on this slot. -/
  pins : Nat
  deriving DecidableEq, Repr

/-- A chain with listeners of type `L`, and the tombstones of those it had. -/
structure Chain (L : Type) where
  slots : Table SlotId (Slot L) := {}
  first : Option SlotId := none
  last : Option SlotId := none
  /-- The number of LINKED slots. -/
  size : Nat := 0
  nextId : SlotId := 0
  deriving DecidableEq, Repr

namespace Chain

variable {L : Type}

/-! ## Reading -/

/-- The listener of a slot, linked or not. -/
def listener? (c : Chain L) (id : SlotId) : Option L := (c.slots.get? id).map (·.listener)

/-- The slot that follows in dispatch order; after a tombstone, the first linked one that did. -/
def following (c : Chain L) (id : SlotId) : Option SlotId := (c.slots.get? id).bind (·.after)

/-- The listeners of some slots. -/
def listeners (c : Chain L) (ids : List SlotId) : List L := ids.filterMap c.listener?

/-- Whether the slot is part of the chain. -/
def contains (c : Chain L) (id : SlotId) : Bool := ((c.slots.get? id).map (·.linked)).getD false

/-- Goes back from `at`, at most as often as there are slots. -/
def walkBack (c : Chain L) : Nat → Option SlotId → List (SlotId × L)
  | 0, _ => []
  | _ + 1, none => []
  | n + 1, some id =>
    match c.slots.get? id with
    | none => []
    | some slot => (id, slot.listener) :: c.walkBack n slot.before

/-- The linked slots and their listeners, LAST first. -/
def backwards (c : Chain L) : List (SlotId × L) := c.walkBack c.slots.size c.last

/-! ## Adding -/

/-- Sets what comes after `id`; with no such slot, that is the first of the chain. -/
def setAfter (c : Chain L) (id after : Option SlotId) : Chain L :=
  match id.filter c.slots.contains with
  | some i => { c with slots := c.slots.modify i fun slot => { slot with after } }
  | none => { c with first := after }

/-- Sets what comes before `id`; with no such slot, that is the last of the chain. -/
def setBefore (c : Chain L) (id before : Option SlotId) : Chain L :=
  match id.filter c.slots.contains with
  | some i => { c with slots := c.slots.modify i fun slot => { slot with before } }
  | none => { c with last := before }

/-- Stores a listener in a new linked slot between two others, which do not know it yet. -/
def place (c : Chain L) (listener : L) (before after : Option SlotId) : Chain L :=
  { c with
    slots := c.slots.insert c.nextId { listener, before, after, linked := true, pins := 0 }
    size := c.size + 1
    nextId := c.nextId + 1 }

/-- Adds a listener after all linked ones.  Its id is the old `nextId`. -/
def append (c : Chain L) (listener : L) : Chain L :=
  let added := (c.place listener c.last none).setAfter c.last (some c.nextId)
  { added with last := some c.nextId }

/-- Adds a listener before all linked ones.  Its id is the old `nextId`. -/
def prepend (c : Chain L) (listener : L) : Chain L :=
  let added := (c.place listener none c.first).setBefore c.first (some c.nextId)
  { added with first := some c.nextId }

/-! ## Pinning -/

/-- One more dispatch stands on the slot. -/
def pin (c : Chain L) (id : SlotId) : Chain L :=
  { c with slots := c.slots.modify id fun slot => { slot with pins := slot.pins + 1 } }

/-- One dispatch less stands on the slot; a tombstone that nobody stands on any more is taken out
    and its listener handed back. -/
def unpin (c : Chain L) (id : SlotId) : Option L × Chain L :=
  match c.slots.get? id with
  | none => (none, c)
  | some slot =>
    let unpinned := { c with slots := c.slots.modify id fun slot => { slot with pins := slot.pins - 1 } }
    if slot.pins - 1 = 0 ∧ slot.linked = false then
      (some slot.listener, { unpinned with slots := unpinned.slots.erase id })
    else (none, unpinned)

/-! ## Removing -/

/-- Moves every tombstone that points at `id` on to `after`. -/
def retarget (c : Chain L) (id : SlotId) (after : Option SlotId) : Chain L :=
  { c with
    slots := c.slots.mapValues fun slot =>
      if slot.linked = false ∧ slot.after = some id then { slot with after } else slot }

/-- Takes a linked slot out of the chain.  An unpinned one is gone and its listener handed back; a
    pinned one stays as a tombstone.  Nothing happens to a slot that is not linked. -/
def detach (c : Chain L) (id : SlotId) : Option L × Chain L :=
  match c.slots.get? id with
  | none => (none, c)
  | some slot =>
    if slot.linked = false then (none, c) else
    let buried := { c with slots := c.slots.modify id fun slot => { slot with linked := false, before := none } }
    let joined := (buried.setAfter slot.before slot.after).setBefore slot.after slot.before
    let removed := { joined with size := joined.size - 1 }.retarget id slot.after
    if slot.pins > 0 then (none, removed)
    else (some slot.listener, { removed with slots := removed.slots.erase id })

/-- Takes every slot out of the chain.  Pinned ones stay as tombstones WITHOUT a way forward; the
    listeners of the others are handed back. -/
def clear (c : Chain L) (shuffle : Shuffle) : List L × Chain L :=
  let cut := c.slots.mapValues fun slot => { slot with linked := false, before := none, after := none }
  let freed := shuffle.apply (cut.filterValues (·.pins == 0)).keys
  (c.listeners freed,
    { c with slots := cut.filterValues (·.pins != 0), first := none, last := none, size := 0 })

/-- The listeners of a chain that goes. -/
def dissolve (c : Chain L) (shuffle : Shuffle) : List L := c.listeners (shuffle.apply c.slots.keys)

/-! ## What is left to a cursor -/

/-- The slots from `at` onwards, at most as many as there are. -/
def walk (c : Chain L) : Nat → Option SlotId → List SlotId
  | 0, _ => []
  | _ + 1, none => []
  | n + 1, some id =>
    match c.slots.get? id with
    | none => []
    | some slot => id :: c.walk n slot.after

/-- The ids of the linked slots in dispatch order. -/
def order (c : Chain L) : List SlotId := c.walk c.slots.size c.first

/-- The slots that a dispatch standing on `cursor` has still before it. -/
def rest (c : Chain L) (cursor : SlotId) : List SlotId := c.walk c.slots.size (c.following cursor)

/-! ## Small cases -/

/-- Three listeners, the first of them added at the front. -/
example : ((({} : Chain Nat).append 2).prepend 1 |>.append 3).order = [1, 0, 2] := by decide

/-- A pinned slot that is detached keeps its way forward, also when its follower goes. -/
example :
    let c := (((({} : Chain Nat).append 1).append 2).append 3).append 4
    let c := ((c.pin 1).detach 1).2
    c.order = [0, 2, 3] ∧ c.rest 1 = [2, 3] ∧ (c.detach 2).2.rest 1 = [3] := by decide

end Chain

end Relay
