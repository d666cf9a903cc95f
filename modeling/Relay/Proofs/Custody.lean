/-
  No operation on a chain loses a listener, or doubles one.

  `Chain.load w` adds up a weight over the listeners of ALL stored slots, linked or not.  A listener
  that an operation takes out of the table is handed back to the caller, so the load before is the
  load afterwards and the weight of what was handed back.  Because the weight is arbitrary, this
  says of each single listener where it has gone.
-/
import Relay.Proofs.Tally
import Relay.Proofs.Representation

namespace Relay
namespace Chain

variable {L : Type}

/-- The weights of all stored listeners, added up. -/
def load (c : Chain L) (w : L → Nat) : Nat := c.slots.total fun slot => w slot.listener

theorem load_empty (w : L → Nat) : ({} : Chain L).load w = 0 := rfl

/-! ## What links and pins do not touch -/

@[simp] theorem listener?_setAfter (c : Chain L) (id after : Option SlotId) (j : SlotId) :
    (c.setAfter id after).listener? j = c.listener? j := by
  rw [listener?, get?_setAfter, listener?]
  split
  · rw [Option.map_map]
    rfl
  · rfl

@[simp] theorem listener?_setBefore (c : Chain L) (id before : Option SlotId) (j : SlotId) :
    (c.setBefore id before).listener? j = c.listener? j := by
  rw [listener?, get?_setBefore, listener?]
  split
  · rw [Option.map_map]
    rfl
  · rfl

@[simp] theorem listener?_retarget (c : Chain L) (id : SlotId) (after : Option SlotId)
    (j : SlotId) :
    (c.retarget id after).listener? j = c.listener? j := by
  rw [listener?, retarget, Table.get?_mapValues, Option.map_map, listener?]
  refine congrArg (fun f => (c.slots.get? j).map f) (funext fun t => ?_)
  rw [Function.comp_apply]
  split <;> rfl

@[simp] theorem listener?_pin (c : Chain L) (id j : SlotId) :
    (c.pin id).listener? j = c.listener? j := by
  rw [listener?, get?_pin, listener?]
  split
  · rw [Option.map_map]
    rfl
  · rfl

@[simp] theorem load_setAfter (c : Chain L) (id after : Option SlotId) (w : L → Nat) :
    (c.setAfter id after).load w = c.load w := by
  unfold setAfter
  split
  · exact c.slots.total_modify_same _ _ _ fun _ => rfl
  · rfl

@[simp] theorem load_setBefore (c : Chain L) (id before : Option SlotId) (w : L → Nat) :
    (c.setBefore id before).load w = c.load w := by
  unfold setBefore
  split
  · exact c.slots.total_modify_same _ _ _ fun _ => rfl
  · rfl

@[simp] theorem load_retarget (c : Chain L) (id : SlotId) (after : Option SlotId) (w : L → Nat) :
    (c.retarget id after).load w = c.load w := by
  rw [load, retarget, Table.total_mapValues, load]
  refine congrArg c.slots.total (funext fun t => ?_)
  split <;> rfl

@[simp] theorem load_pin (c : Chain L) (id : SlotId) (w : L → Nat) : (c.pin id).load w = c.load w :=
  c.slots.total_modify_same _ _ _ fun _ => rfl

/-- A slot that is taken out takes its listener's weight along. -/
theorem load_erase (c : Chain L) {id : SlotId} {l : L} (hl : c.listener? id = some l)
    (w : L → Nat) :
    ({ c with slots := c.slots.erase id } : Chain L).load w + w l = c.load w := by
  obtain ⟨slot, hs, rfl⟩ := Option.map_eq_some_iff.1 hl
  exact c.slots.total_erase (fun slot => w slot.listener) hs

/-! ## The operations -/

theorem load_place {c : Chain L} (h : c.Coherent) (l : L) (before after : Option SlotId)
    (w : L → Nat) :
    (c.place l before after).load w = c.load w + w l :=
  c.slots.total_insert _ _ h.links.get?_nextId

theorem load_append {c : Chain L} (h : c.Coherent) (l : L) (w : L → Nat) :
    (c.append l).load w = c.load w + w l := by
  show ((c.place l c.last none).setAfter c.last (some c.nextId)).load w = _
  rw [load_setAfter, load_place h]

theorem load_prepend {c : Chain L} (h : c.Coherent) (l : L) (w : L → Nat) :
    (c.prepend l).load w = c.load w + w l := by
  show ((c.place l none c.first).setBefore c.first (some c.nextId)).load w = _
  rw [load_setBefore, load_place h]

/-- What `unpin` hands back is what is missing afterwards. -/
theorem load_unpin (c : Chain L) (id : SlotId) (w : L → Nat) :
    (c.unpin id).2.load w + ((c.unpin id).1.toList.map w).sum = c.load w := by
  unfold unpin
  cases hs : c.slots.get? id with
  | none => rfl
  | some slot =>
    dsimp only
    -- the pin is given back first, and the slot taken out afterwards if it has to go
    let unpinned :=
      { c with slots := c.slots.modify id fun slot => { slot with pins := slot.pins - 1 } }
    have hload : unpinned.load w = c.load w := c.slots.total_modify_same _ _ _ fun _ => rfl
    split
    · have hl : unpinned.listener? id = some slot.listener := by
        rw [listener?, Table.get?_modify, if_pos rfl, hs]
        rfl
      rw [← hload, ← unpinned.load_erase hl w]
      simp only [Option.toList_some, List.map_cons, List.map_nil, List.sum_cons, List.sum_nil,
        Nat.add_zero]
      rfl
    · exact hload

/-- What `detach` hands back is what is missing afterwards. -/
theorem load_detach (c : Chain L) (id : SlotId) (w : L → Nat) :
    (c.detach id).2.load w + ((c.detach id).1.toList.map w).sum = c.load w := by
  cases hs : c.slots.get? id with
  | none =>
    unfold detach
    rw [hs]
    rfl
  | some slot =>
    by_cases hl : slot.linked = true
    · let buried :=
        { c with slots := c.slots.modify id fun t => { t with linked := false, before := none } }
      let joined := (buried.setAfter slot.before slot.after).setBefore slot.after slot.before
      let removed := { joined with size := joined.size - 1 }.retarget id slot.after
      -- burying, joining and retargeting rewrite links only, so all listeners are where they were
      have hload : removed.load w = c.load w :=
        calc removed.load w = joined.load w :=
              load_retarget { joined with size := joined.size - 1 } _ _ w
          _ = buried.load w := (load_setBefore _ _ _ w).trans (load_setAfter _ _ _ w)
          _ = c.load w := c.slots.total_modify_same _ _ _ fun _ => rfl
      have hlistener : removed.listener? id = some slot.listener :=
        calc removed.listener? id = joined.listener? id :=
              listener?_retarget { joined with size := joined.size - 1 } _ _ id
          _ = buried.listener? id :=
            (listener?_setBefore _ _ _ id).trans (listener?_setAfter _ _ _ id)
          _ = some slot.listener := by
            rw [listener?, Table.get?_modify, if_pos rfl, hs]
            rfl
      rw [Links.detach_eq c hs hl]
      dsimp only
      split
      · exact hload
      · rw [← hload, ← removed.load_erase hlistener w]
        simp only [Option.toList_some, List.map_cons, List.map_nil, List.sum_cons, List.sum_nil,
          Nat.add_zero]
        rfl
    · unfold detach
      rw [hs]
      simp [hl]

/-- What `clear` hands back is what is missing afterwards. -/
theorem load_clear (c : Chain L) (shuffle : Shuffle) (w : L → Nat) :
    (c.clear shuffle).2.load w + ((c.clear shuffle).1.map w).sum = c.load w := by
  let cut :=
    c.slots.mapValues fun slot => { slot with linked := false, before := none, after := none }
  have hsplit := cut.total_filterValues (·.pins == 0) fun slot => w slot.listener
  have hcut : (cut.total fun slot => w slot.listener) = c.load w := c.slots.total_mapValues _ _
  have hfreed : ((c.clear shuffle).1.map w).sum =
      (cut.filterValues (·.pins == 0)).total fun slot => w slot.listener := by
    rw [((c.clear_fst_perm shuffle).map w).sum_nat, Table.total, List.map_map]
    simp only [cut, Table.values, Table.filterValues, Table.filter, Table.mapValues, Table.map,
      List.filter_map, List.map_map]
    rfl
  rw [hfreed, Nat.add_comm, ← hcut]
  exact hsplit

/-- What a chain leaves behind is all that it stored. -/
theorem load_dissolve (c : Chain L) (shuffle : Shuffle) (w : L → Nat) :
    ((c.dissolve shuffle).map w).sum = c.load w := by
  rw [((c.dissolve_perm shuffle).map w).sum_nat, List.map_map]
  rfl

end Chain
end Relay
