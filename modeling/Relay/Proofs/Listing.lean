/-
  A chain read as a plain list.

  `Chain.listing` is the list a user has in mind: the linked slots in dispatch order, each with its
  listener.  Links, pins and tombstones are nowhere in it, and every operation of a chain is plain
  list surgery on it: a new entry at one end, the entry of one slot taken out, or nothing left at
  all.  Pinning and unpinning do not touch it.
-/
import Relay.Proofs.Order
import Relay.Proofs.Balance

namespace Relay
namespace Chain

variable {L : Type}

/-- The slot with its listener, if it is stored. -/
def item? (c : Chain L) (x : SlotId) : Option (SlotId × L) := (c.listener? x).map fun l => (x, l)

/-- The linked slots and their listeners, FIRST first. -/
def listing (c : Chain L) : List (SlotId × L) := c.order.filterMap c.item?

/-! ## Reading the list -/

theorem item?_eq_some_iff (c : Chain L) {x : SlotId} {e : SlotId × L} :
    c.item? x = some e ↔ e.1 = x ∧ c.listener? x = some e.2 := by
  obtain ⟨y, l⟩ := e
  rw [item?, Option.map_eq_some_iff]
  constructor
  · rintro ⟨l', hl, he⟩
    obtain ⟨rfl, rfl⟩ := Prod.mk.inj he
    exact ⟨rfl, hl⟩
  · rintro ⟨rfl, hl⟩
    exact ⟨l, hl, rfl⟩

/-- Entries with the listeners that are stored are read off their slots. -/
theorem filterMap_item? (c : Chain L) {es : List (SlotId × L)}
    (h : ∀ e ∈ es, c.listener? e.1 = some e.2) : (es.map (·.1)).filterMap c.item? = es := by
  induction es with
  | nil => rfl
  | cons e rest ih =>
    have he : c.item? e.1 = some e := c.item?_eq_some_iff.2 ⟨rfl, h e List.mem_cons_self⟩
    rw [List.map_cons, List.filterMap_cons_some he,
      ih fun e' hm => h e' (List.mem_cons_of_mem e hm)]

theorem listener?_of_mem_listing {c : Chain L} {e : SlotId × L} (he : e ∈ c.listing) :
    e.1 ∈ c.order ∧ c.listener? e.1 = some e.2 := by
  obtain ⟨x, hx, hentry⟩ := List.mem_filterMap.1 he
  obtain ⟨rfl, hl⟩ := c.item?_eq_some_iff.1 hentry
  exact ⟨hx, hl⟩

/-- A linked slot has a listener. -/
theorem Links.exists_listener {c : Chain L} {ids : List SlotId} (h : c.Links ids) {x : SlotId}
    (hx : x ∈ ids) : ∃ l, c.listener? x = some l := by
  obtain ⟨slot, hs, -⟩ := h.exists_slot hx
  exact ⟨slot.listener, by rw [listener?, hs]; rfl⟩

/-- Slots that are linked can be read off as a list without a loss. -/
theorem Coherent.map_filterMap_item? {c : Chain L} (h : c.Coherent) {ids : List SlotId}
    (hids : ∀ x ∈ ids, x ∈ c.order) : (ids.filterMap c.item?).map (·.1) = ids := by
  induction ids with
  | nil => rfl
  | cons x rest ih =>
    obtain ⟨l, hl⟩ := h.links.exists_listener (hids x List.mem_cons_self)
    have hx : c.item? x = some (x, l) := c.item?_eq_some_iff.2 ⟨rfl, hl⟩
    rw [List.filterMap_cons_some hx, List.map_cons,
      ih fun y hy => hids y (List.mem_cons_of_mem x hy)]

theorem Coherent.map_listing {c : Chain L} (h : c.Coherent) : c.listing.map (·.1) = c.order :=
  h.map_filterMap_item? fun _ hx => hx

theorem Coherent.nodup_listing {c : Chain L} (h : c.Coherent) : (c.listing.map (·.1)).Nodup :=
  h.map_listing ▸ h.once

/-- The list of a chain begins with its first slot. -/
theorem Coherent.head?_listing {c : Chain L} (h : c.Coherent) :
    c.listing.head?.map (·.1) = c.first := by
  rw [← List.head?_map, h.map_listing, h.begins]

/-- The size of a chain is the length of its list. -/
theorem Coherent.length_listing {c : Chain L} (h : c.Coherent) : c.listing.length = c.size := by
  rw [← h.steps, ← h.map_listing, List.length_map]

/-- Going backwards reads the list the other way round. -/
theorem Coherent.backwards_eq {c : Chain L} (h : c.Coherent) : c.backwards = c.listing.reverse := by
  have hstored : ∀ e ∈ c.backwards, c.listener? e.1 = some e.2 :=
    fun e he => State.listener?_of_mem_walkBack c he
  rw [← c.filterMap_item? hstored, h.returns, listing, List.filterMap_reverse]

/-- Two chains with the same slots in order and the same listeners there are one list. -/
theorem listing_congr {c c' : Chain L} (ho : c'.order = c.order)
    (hl : ∀ x ∈ c.order, c'.listener? x = c.listener? x) : c'.listing = c.listing := by
  rw [listing, ho, listing]
  refine List.filterMap_congr fun x hx => ?_
  rw [item?, hl x hx, item?]

/-! ## The operations -/

theorem listener?_place (c : Chain L) (l : L) (before after : Option SlotId) (j : SlotId) :
    (c.place l before after).listener? j = if c.nextId = j then some l else c.listener? j := by
  rw [listener?, place, Table.get?_insert]
  split <;> rfl

theorem listener?_add (c : Chain L) (l : L) (p : Placement) (j : SlotId) :
    (c.add l p).listener? j = if c.nextId = j then some l else c.listener? j := by
  cases p with
  | front =>
    show ((c.place l none c.first).setBefore c.first (some c.nextId)).listener? j = _
    rw [listener?_setBefore, listener?_place]
  | back =>
    show ((c.place l c.last none).setAfter c.last (some c.nextId)).listener? j = _
    rw [listener?_setAfter, listener?_place]

/-- A listener that is added makes an entry at its end, and changes no other. -/
theorem listing_add {c : Chain L} (h : c.Coherent) (l : L) (p : Placement) :
    (c.add l p).listing = p.place (c.nextId, l) c.listing := by
  have hnew : (c.add l p).item? c.nextId = some (c.nextId, l) := by
    rw [item?, listener?_add, if_pos rfl]
    rfl
  have hold : c.order.filterMap (c.add l p).item? = c.listing := by
    refine List.filterMap_congr fun x hx => ?_
    have hne : c.nextId ≠ x := fun he => h.links.nextId_not_mem (he ▸ hx)
    rw [item?, listener?_add, if_neg hne, item?]
  rw [listing, order_add h]
  cases p with
  | front => exact (List.filterMap_cons_some hnew).trans (congrArg _ hold)
  | back =>
    show (c.order ++ [c.nextId]).filterMap _ = c.listing ++ [(c.nextId, l)]
    rw [List.filterMap_append, hold, List.filterMap_cons_some hnew]
    rfl

theorem listener?_detach_ne {c : Chain L} (h : c.Coherent) (id : SlotId) {j : SlotId}
    (hj : j ≠ id) : (c.detach id).2.listener? j = c.listener? j := by
  by_cases hid : id ∈ c.order
  · obtain ⟨slot, hs, -⟩ := h.links.exists_slot hid
    rw [listener?, h.links.get?_detach_ne hid hs hj, Option.map_map, listener?]
    rfl
  · rw [h.links.detach_of_not_mem hid]

/-- A slot that is detached takes its own entry along, and no other. -/
theorem listing_detach {c : Chain L} (h : c.Coherent) (id : SlotId) :
    (c.detach id).2.listing = c.listing.filter fun e => decide (e.1 ≠ id) := by
  have hkeep : ∀ ids : List SlotId,
      (ids.filter fun x => decide (x ≠ id)).filterMap (c.detach id).2.item? =
        (ids.filterMap c.item?).filter fun e => decide (e.1 ≠ id) := by
    intro ids
    induction ids with
    | nil => rfl
    | cons x rest ih =>
      by_cases hx : x = id
      · subst hx
        rw [List.filter_cons_of_neg (by simp), ih]
        cases hl : c.listener? x <;> simp [item?, hl]
      · rw [List.filter_cons_of_pos (by simpa using hx), List.filterMap_cons, ih,
          List.filterMap_cons, item?, listener?_detach_ne h id hx, item?]
        cases c.listener? x with
        | none => rfl
        | some l => simp [hx]
  have herase : c.order.erase id = c.order.filter fun x => decide (x ≠ id) := by
    rw [List.Nodup.erase_eq_filter h.once]
    exact List.filter_congr fun x _ => by by_cases hx : x = id <;> simp [hx]
  rw [listing, order_detach h, herase, hkeep c.order]
  rfl

theorem listing_clear {c : Chain L} {shuffle : Shuffle} (h : c.Coherent) : (c.clear shuffle).2.listing = [] := by
  rw [listing, order_clear h]
  rfl

theorem listing_pin {c : Chain L} (h : c.Coherent) (id : SlotId) :
    (c.pin id).listing = c.listing :=
  listing_congr (order_pin h id) fun x _ => c.listener?_pin id x

/-- A pin that is given back may take a tombstone away, but no linked slot. -/
theorem listener?_unpin {c : Chain L} {ids : List SlotId} (h : c.Links ids) (id : SlotId)
    {x : SlotId} (hx : x ∈ ids) : (c.unpin id).2.listener? x = c.listener? x := by
  obtain ⟨slot, hs, hlinked⟩ := h.exists_slot hx
  have hstays : ¬(slot.pins - 1 = 0 ∧ slot.linked = false) := by simp [hlinked]
  rw [listener?, get?_unpin, listener?, hs]
  split
  · rw [Option.bind_some, if_neg hstays]
    rfl
  · rfl

theorem listing_unpin {c : Chain L} (h : c.Coherent) (id : SlotId) :
    (c.unpin id).2.listing = c.listing :=
  listing_congr (order_unpin h id) fun _ hx => listener?_unpin h.links id hx

/-- Three listeners, one of them removed while a dispatch stands on it: its slot is still there, but
    the list does not show it. -/
example :
    let c := ((({} : Chain Nat).append 7).append 8).prepend 9
    ((c.pin 0).detach 0).2.listing = [(2, 9), (1, 8)] ∧ ((c.pin 0).detach 0).2.slots.size = 3 := by
  decide

end Chain

/-! ## The lists of a heap -/

namespace Heap

variable {T : Vocabulary}

/-- The list of the chain numbered `c`; a chain that is not there has none. -/
def listing (h : Heap T) (c : ChainId) : List (SlotId × Fn) :=
  ((h.chains.get? c).map Chain.listing).getD []

theorem listing_of_get? {h : Heap T} {c : ChainId} {chain : Chain Fn}
    (hc : h.chains.get? c = some chain) : h.listing c = chain.listing := by
  rw [listing, hc]
  rfl

/-- The lists depend on the chains only. -/
theorem listing_congr {h g : Heap T} {c : ChainId} (hc : g.chains.get? c = h.chains.get? c) :
    g.listing c = h.listing c := by rw [listing, hc, listing]

theorem listing_scene {h g : Heap T} (hs : g.scene = h.scene) (c : ChainId) :
    g.listing c = h.listing c :=
  listing_congr (by rw [← get?_scene_chains, hs, get?_scene_chains])

/-- Where one chain is written anew, one list is. -/
theorem listing_setChain {h g : Heap T} {c : ChainId} {old new : Chain Fn}
    (hc : h.chains.get? c = some old) (hs : g.scene.chains = (h.scene.setChain c new).chains)
    (c' : ChainId) : g.listing c' = if c = c' then new.listing else h.listing c' := by
  rw [listing, ← get?_scene_chains, hs,
    Scene.get?_setChain new (by rw [get?_scene_chains, hc]) c', get?_scene_chains]
  split
  · rfl
  · rfl

/-- Only the list of a chain that is written anew matters. -/
theorem listing_setChain_same {h g : Heap T} {c : ChainId} {old new : Chain Fn}
    (hc : h.chains.get? c = some old) (hs : g.scene.chains = (h.scene.setChain c new).chains)
    (hsame : new.listing = old.listing) (c' : ChainId) : g.listing c' = h.listing c' := by
  rw [listing_setChain hc hs]
  split
  · rename_i he
    rw [← he, listing_of_get? hc, hsame]
  · rfl

end Heap

end Relay
