/-
  Every chain of every run is well made.

  `Coherent` says it in terms of the chain alone: walking forward from the first slot visits the
  linked slots, each ONCE, and ends at the last; walking backward visits them in reverse; tombstones
  lead to linked slots only; and slot numbers lie below the next one to be handed out.  It is
  `Links` with the list of slots read off the chain itself (`coherent_iff`).  No operation breaks
  it, on whatever id it is called, and a deed of a run is made of such operations, so it holds
  wherever code of the program can start.
-/
import Relay.Proofs.Residue
import Relay.Proofs.Run

namespace Relay

namespace Chain

variable {L : Type}

/-! ## A well-made chain, read off its links -/

/-- The links of a chain run through its linked slots and nothing else. -/
structure Coherent (c : Chain L) : Prop where
  /-- Going forward from the first slot visits the linked ones, and no others. -/
  visits : ∀ id, id ∈ c.order ↔ c.contains id = true
  once : c.order.Nodup
  steps : c.order.length = c.size
  begins : c.first = c.order.head?
  ends : c.last = c.order.getLast?
  forward : Threaded c.following c.order
  backward : Threaded c.preceding c.order.reverse
  /-- Going backward from the last slot visits the same ones, the other way round. -/
  returns : c.backwards.map (·.1) = c.order.reverse
  first_none : c.first = none ↔ c.size = 0
  last_none : c.last = none ↔ c.size = 0
  tombstone : ∀ id slot, c.slots.get? id = some slot → slot.linked = false →
    slot.before = none ∧ ∀ y, slot.after = some y → c.contains y = true
  /-- No link of a linked slot leads to a tombstone. -/
  linked : ∀ id slot, c.slots.get? id = some slot → slot.linked = true →
    ∀ y, slot.after = some y ∨ slot.before = some y → c.contains y = true
  fresh : ∀ id, c.slots.contains id = true → id < c.nextId

theorem Links.coherent {c : Chain L} {ids : List SlotId} (h : c.Links ids) : c.Coherent := by
  have horder : c.order = ids := h.order_eq
  have hsize : c.size = 0 ↔ ids = [] := by rw [h.size, List.length_eq_zero_iff]
  constructor
  case visits =>
    intro id
    rw [horder, h.linked]
  case once =>
    rw [horder]
    exact h.nodup
  case steps => rw [horder, h.size]
  case begins => rw [horder, h.first]
  case ends => rw [horder, h.last]
  case forward =>
    rw [horder]
    exact h.forth
  case backward =>
    rw [horder]
    exact h.back
  case returns =>
    rw [horder]
    exact h.backwards_eq
  case first_none => rw [h.first, List.head?_eq_none_iff, hsize]
  case last_none => rw [h.last, List.getLast?_eq_none_iff, hsize]
  case tombstone =>
    intro id slot hs hdead
    obtain ⟨hbefore, hafter⟩ := h.buried id slot hs hdead
    exact ⟨hbefore, fun y hy => (h.linked y).2 (hafter y hy)⟩
  case linked =>
    intro id slot hs hlive y hy
    rw [h.linked]
    rcases hy with hafter | hbefore
    · exact h.following_mem ((following_stored hs).trans hafter)
    · have hid : id ∈ ids.reverse := List.mem_reverse.2 ((h.mem_iff_linked hs).2 hlive)
      have hmem := (h.back.mem_of_eq_some hid ((preceding_stored hs).trans hbefore)).1
      exact List.mem_reverse.1 hmem
  case fresh => exact h.fresh

theorem Coherent.links {c : Chain L} (h : c.Coherent) : c.Links c.order where
  nodup := h.once
  first := h.begins
  last := h.ends
  size := h.steps.symm
  linked := fun id => (h.visits id).symm
  forth := h.forward
  back := h.backward
  buried := by
    intro id slot hs hdead
    obtain ⟨hbefore, hafter⟩ := h.tombstone id slot hs hdead
    exact ⟨hbefore, fun y hy => (h.visits y).2 (hafter y hy)⟩
  fresh := h.fresh

/-- The list of slots need not be given: it is the order of the chain. -/
theorem coherent_iff {c : Chain L} : c.Coherent ↔ ∃ ids, c.Links ids :=
  ⟨fun h => ⟨c.order, h.links⟩, fun ⟨_, h⟩ => h.coherent⟩

/-- The first slot is one of the linked ones. -/
theorem Coherent.first_mem {c : Chain L} (h : c.Coherent) {x : SlotId} (hx : c.first = some x) :
    x ∈ c.order := by
  rw [h.begins] at hx
  exact List.mem_of_head? hx

/-! ## Operations -/

/-- An operation on a chain; an id may be of a slot that is not there, and any order may come with a
    clearing. -/
inductive Operation (L : Type) where
  | prepend (listener : L)
  | append (listener : L)
  | pin (id : SlotId)
  | unpin (id : SlotId)
  | detach (id : SlotId)
  | clear (shuffle : Shuffle)

/-- What an operation hands back, and the chain afterwards. -/
def operate (c : Chain L) : Operation L → List L × Chain L
  | .prepend listener => ([], c.prepend listener)
  | .append listener => ([], c.append listener)
  | .pin id => ([], c.pin id)
  | .unpin id => ((c.unpin id).1.toList, (c.unpin id).2)
  | .detach id => ((c.detach id).1.toList, (c.detach id).2)
  | .clear shuffle => c.clear shuffle

/-- No operation breaks a chain. -/
theorem Coherent.operate {c : Chain L} (h : c.Coherent) (op : Operation L) :
    (c.operate op).2.Coherent := by
  have hlinks := h.links
  cases op with
  | prepend listener => exact (hlinks.prepend listener).coherent
  | append listener => exact (hlinks.append listener).coherent
  | pin id => exact (hlinks.pin id).coherent
  | unpin id => exact (hlinks.unpin id).coherent
  | clear shuffle => exact hlinks.clear.coherent
  | detach id =>
    show (c.detach id).2.Coherent
    by_cases hid : id ∈ c.order
    · exact (hlinks.detach hid).coherent
    · rw [hlinks.detach_of_not_mem hid]
      exact h

theorem Coherent.add {c : Chain L} (h : c.Coherent) (listener : L) (placement : Placement) :
    (c.add listener placement).Coherent := by
  cases placement with
  | front => exact h.operate (.prepend listener)
  | back => exact h.operate (.append listener)

end Chain

/-! ## Scenes -/

namespace Scene

/-- All stored chains are well made. -/
def Coherent (v : Scene) : Prop := ∀ c chain, v.chains.get? c = some chain → chain.Coherent

theorem Coherent.empty : Coherent .empty :=
  fun _ _ hget => absurd hget (by simp [Scene.empty, Table.get?, Table.find])

theorem get?_setChain {v : Scene} {c : ChainId} {old : Chain Fn} (chain : Chain Fn)
    (hc : v.chains.get? c = some old) (c' : ChainId) :
    (v.setChain c chain).chains.get? c' = if c = c' then some chain else v.chains.get? c' := by
  rw [setChain, Table.get?_modify]
  split
  · rename_i he
    rw [← he, hc]
    rfl
  · rfl

theorem Coherent.setChain {v : Scene} (hv : v.Coherent) {c : ChainId} {old chain : Chain Fn}
    (hc : v.chains.get? c = some old) (h : chain.Coherent) : (v.setChain c chain).Coherent := by
  intro c' chain' hget
  rw [get?_setChain chain hc] at hget
  split at hget
  · exact Option.some.inj hget ▸ h
  · exact hv c' chain' hget

end Scene

/-- No deed breaks a chain. -/
theorem Change.coherent {deed : Deed} {v w : Scene} (h : Change deed v w) (hv : v.Coherent) :
    w.Coherent := by
  cases h with
  | nothing => exact hv
  | stayed => exact hv
  | opened =>
    intro c chain hget
    rw [Table.get?_insert] at hget
    split at hget
    · exact Option.some.inj hget ▸ Chain.Links.nil.coherent
    · exact hv c chain hget
  | added hc listener placement => exact hv.setChain hc ((hv _ _ hc).add listener placement)
  | detached hc => exact hv.setChain hc ((hv _ _ hc).operate (.detach _))
  | cleared hc => exact hv.setChain hc ((hv _ _ hc).operate (.clear _))
  | started hc => exact hv.setChain hc ((hv _ _ hc).operate (.pin _))
  | moved _ hc => exact hv.setChain hc (((hv _ _ hc).operate (.unpin _)).operate (.pin _))
  | finished _ hc => exact hv.setChain hc ((hv _ _ hc).operate (.unpin _))
  | closed _ hc => exact hv.setChain hc ((hv _ _ hc).operate (.unpin _))
  | closedPast => exact hv
  | dropped =>
    intro c chain hget
    rw [Table.get?_erase] at hget
    split at hget
    · exact absurd hget (by simp)
    · exact hv c chain hget

/-! ## Runs -/

theorem Reachable.coherent {H : Host} {s : State H} (hs : Reachable s) : s.heap.scene.Coherent :=
  hs.scene_induction .empty Change.coherent

/-- At every point of every run, and after any operation that comes next, a chain is well made. -/
theorem chain_coherent {H : Host} {s : State H} (hs : Reachable s) {c : ChainId} {chain : Chain Fn}
    (hc : s.heap.chains.get? c = some chain) :
    chain.Coherent ∧ ∀ op : Chain.Operation Fn, (chain.operate op).2.Coherent := by
  have hchain : chain.Coherent := hs.coherent c chain (by rw [Heap.get?_scene_chains, hc])
  exact ⟨hchain, hchain.operate⟩

/-- A chain with a tombstone, in the middle of a run. -/
theorem chain_coherent_tombstone :
    ∃ chain, ((Script.start Script.lateRemoval).after 58).heap.chains.get? 0 = some chain ∧
      chain.Coherent ∧ chain.order = [0] ∧ chain.listener? 2 ≠ none := by
  have hview : (((Script.start Script.lateRemoval).after 58).heap.chains.get? 0).map
      (fun chain => (chain.order, (chain.listener? 2).isSome)) = some ([0], true) := by
    decide +kernel
  obtain ⟨chain, hc, hchain⟩ := Option.map_eq_some_iff.1 hview
  obtain ⟨horder, hslot⟩ := Prod.mk.inj hchain
  have hs := (Script.reachable_start Script.lateRemoval).after 58
  exact ⟨chain, hc, (chain_coherent hs hc).1, horder, Option.isSome_iff_ne_none.1 hslot⟩

end Relay
