/-
  What is left to a dispatch, in every reachable state.

  A dispatch that is alive stands on a slot of a chain that is there, and its chain is well made; so
  the rest of its slot obeys plain LIST laws, whatever operation comes next, wherever the dispatch
  stands and however many others stand beside it.  It does not matter who keeps the dispatch alive:
  an event that somebody has put aside counts as much as one that is being worked on.
-/
import Relay.Proofs.Balance
import Relay.Proofs.Course

namespace Relay

variable {H : Host}

/-- What is left to dispatch `d`, which stands on slot `x` of `chain`, and what becomes of it. -/
structure ResidualLaw (s : State H) (d : DispatchId) (c : ChainId) (x : SlotId) (chain : Chain Fn) :
    Prop where
  /-- What is left to a slot are the slots that its links lead to, one after the other. -/
  reached : ∀ y, chain.rest y = match chain.following y with
    | none => []
    | some z => z :: chain.rest z
  linked : ∀ y ∈ chain.rest x, chain.contains y = true
  once : (chain.rest x).Nodup
  prepend : ∀ l, (chain.prepend l).rest x = chain.rest x
  append : ∀ l, (chain.append l).rest x =
    if chain.contains x = false ∧ chain.rest x = [] then [] else chain.rest x ++ [chain.nextId]
  detach : ∀ y, (chain.detach y).2.rest x = (chain.rest x).erase y
  clear : ∀ shuffle, (chain.clear shuffle).2.rest x = []
  pin : ∀ y, (chain.pin y).rest x = chain.rest x
  /-- Another dispatch gives its pin back, maybe on the very same slot. -/
  unpin : ∀ d' y, d' ≠ d → s.heap.dispatches.get? d' = some ⟨c, some y⟩ →
    (chain.unpin y).2.rest x = chain.rest x
  /-- The coming step calls `next` of another dispatch. -/
  other_next : ∀ d', d' ≠ d → s.onward = some d' → s.step.heap.scene.Left d c x (chain.rest x)
  /-- The coming step calls `next` of this one. -/
  own_next : s.onward = some d →
    match chain.rest x with
    | [] => s.step.heap.dispatches.get? d = some ⟨c, none⟩
    | y :: rest => s.step.heap.scene.Left d c y rest

/-- A `next` adds and removes nothing. -/
theorem Deed.surgery_of_next {deed : Deed} {d : DispatchId} (h : deed.next? = some d) (c : ChainId)
    (gone : Bool) (rest : List SlotId) : deed.surgery c gone rest = rest := by
  cases deed <;> first | rfl | exact absurd h (by simp [Deed.next?])

/-- To every dispatch that is alive and not past the end, the residual law applies. -/
theorem residual_law {s : State H} (hs : Reachable s) {d : DispatchId} {c : ChainId} {x : SlotId}
    (hd : s.heap.dispatches.get? d = some ⟨c, some x⟩) :
    ∃ chain, s.heap.chains.get? c = some chain ∧ ResidualLaw s d c x chain := by
  obtain ⟨chain, hc⟩ := hs.exists_chain hd
  dsimp only at hc
  have hd' : s.heap.scene.dispatches.get? d = some ⟨c, some x⟩ := by
    rw [Heap.get?_scene_dispatches, hd]
  have hc' : s.heap.scene.chains.get? c = some chain := by rw [Heap.get?_scene_chains, hc]
  have hv := hs.coherent
  have ha := hs.accounted
  have hlinks := (hv c chain hc').links
  obtain ⟨slot, hslot, hpins⟩ := ha.exists_slot hd' hc'
  have hold : x ≠ chain.nextId := Nat.ne_of_lt (hlinks.lt_nextId hslot)
  refine ⟨chain, hc, ?_⟩
  constructor
  case reached => exact hlinks.rest_unfold
  case linked => exact fun y hy => (hlinks.linked y).2 ((hlinks.rest_spec x).1.subset hy)
  case once => exact hlinks.rest_nodup x
  case prepend => exact fun l => hlinks.rest_prepend l hold
  case append => exact fun l => hlinks.rest_append l hold
  case detach => exact fun y => hlinks.rest_detach y fun _ => ⟨slot, hslot, hpins⟩
  case clear => exact fun shuffle => hlinks.rest_clear shuffle x
  case pin => exact fun y => hlinks.rest_pin y x
  case unpin =>
    intro d' y hne hy
    refine hlinks.rest_unpin y ?_
    rintro rfl
    obtain ⟨slot, hs, hp⟩ :=
      ha.exists_second_pin hne.symm hd' (by rw [Heap.get?_scene_dispatches, hy]) hc'
    exact ⟨slot, hs, .inr hp⟩
  case other_next =>
    intro d' hne hcalled
    obtain ⟨deed, hdoes⟩ := s.step_does
    have hnext : deed.next? = some d' := hdoes.next?.trans hcalled
    have hcourse := hdoes.change.course hv ha hd' hc'
      (by rw [hnext]; exact fun he => hne (Option.some.inj he))
      (by rintro rfl; exact absurd hnext (by simp [Deed.next?]))
      (by rintro rfl; exact absurd hnext (by simp [Deed.next?]))
    rwa [Deed.surgery_of_next hnext] at hcourse
  case own_next =>
    intro hcalled
    obtain ⟨deed, hdoes⟩ := s.step_does
    have hadvance := hdoes.change.advance hv hd' hc' (hdoes.next?.trans hcalled)
    cases hrest : chain.rest x with
    | nil =>
      rw [hrest] at hadvance
      rwa [← Heap.get?_scene_dispatches]
    | cons y rest =>
      rw [hrest] at hadvance
      exact hadvance

/-- A dispatch on a tombstone: its slot has been removed, and slot 2 is still before it. -/
theorem residual_law_tombstone :
    ∃ chain, ((Script.start Script.lateRemoval).after 35).heap.chains.get? 0 = some chain ∧
      ResidualLaw ((Script.start Script.lateRemoval).after 35) 0 0 1 chain ∧
      chain.contains 1 = false ∧ chain.rest 1 = [2] := by
  have hd :
      ((Script.start Script.lateRemoval).after 35).heap.dispatches.get? 0 = some ⟨0, some 1⟩ := by
    decide +kernel
  obtain ⟨chain, hc, hlaw⟩ := residual_law ((Script.reachable_start Script.lateRemoval).after 35) hd
  have hview : (((Script.start Script.lateRemoval).after 35).heap.chains.get? 0).map
      (fun chain => (chain.contains 1, chain.rest 1)) = some (false, [2]) := by decide +kernel
  rw [hc] at hview
  obtain ⟨hgone, hrest⟩ := Prod.mk.inj (Option.some.inj hview)
  exact ⟨chain, hc, hlaw, hgone, hrest⟩

end Relay
