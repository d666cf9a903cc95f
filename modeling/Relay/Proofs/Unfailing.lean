/-
  NO look-up fails.

  A library that is careful has an answer for everything: for a link that leads to no slot, for a
  listener that is empty, for a slot that has no pin to give back.  Here it is shown that none of these
  answers is ever given.  What is in a slot is a stored callable, and a listener around a function has
  a function inside (`Reachable.whole_listener`); every link leads to a linked slot (`Chain.Unbroken`);
  a dispatch stands on a slot that is stored and pinned.  So a call gives nothing only where nothing is
  linked, and a `next` only at the end of its chain.  And a function that is run is there, unless the
  program has called an empty one itself.

  The probe of a removal may be a listener around NOTHING.  It is never in a slot, no handle is on it,
  and so it is never run.
-/
import Relay.Proofs.Comparison
import Relay.Proofs.CutOff
import Relay.Proofs.Nesting
import Relay.Proofs.SelfRemoval
import Relay.Proofs.Unlinking

namespace Relay

variable {T : Vocabulary} {H : Host}

/-! ## Additions -/

/-- What is added to a list is the function that was named, or a new listener around it. -/
theorem Request.edit_added {h : Heap T} {rq : Request T} {c : ChainId} {x : SlotId}
    {placement : Placement} {l : Fn} (he : rq.edit h = .added c x placement l) :
    ∃ chain function p, h.functionOf function = some (some p) ∧
      (rq = .add chain function placement ∧ l = some p ∨
        rq = .addSimple chain function placement ∧ l = some h.payloads.nextId ∧
          rq.stores? h = some ⟨.simple (some p), .byValue⟩) := by
  unfold edit at he
  cases rq with
  | add chain function placement =>
    dsimp only at he
    split at he
    · rename_i p _ hf
      obtain ⟨-, -, rfl, rfl⟩ := Edit.added.inj he
      exact ⟨chain, function, p, hf, .inl ⟨rfl, rfl⟩⟩
    · exact absurd he (by simp)
  | addSimple chain function placement =>
    dsimp only at he
    split at he
    · rename_i p hc hf
      obtain ⟨-, -, rfl, rfl⟩ := Edit.added.inj he
      refine ⟨chain, function, p, hf, .inr ⟨rfl, rfl, ?_⟩⟩
      unfold stores?
      dsimp only
      rw [hc, hf]
    · exact absurd he (by simp)
  | clear chain =>
    dsimp only at he
    split at he <;> exact absurd he (by simp)
  | _ => exact absurd he (by simp)

/-- What is in a list after an edit was in it before, or has been added by it. -/
theorem Edit.mem_on {edit : Edit} {c : ChainId} {list : List (SlotId × Fn)} {e : SlotId × Fn}
    (he : e ∈ edit.on c list) : e ∈ list ∨ ∃ placement, edit = .added c e.1 placement e.2 := by
  unfold on at he
  cases edit with
  | nothing => exact .inl he
  | added c' slot placement listener =>
    dsimp only at he
    split at he
    · rename_i hc
      rcases placement.mem_place.1 he with rfl | hold
      · exact .inr ⟨placement, by rw [hc]⟩
      · exact .inl hold
    · exact .inl he
  | detached c' slot =>
    dsimp only at he
    split at he
    · exact .inl (List.mem_of_mem_filter he)
    · exact .inl he
  | cleared c' =>
    dsimp only at he
    split at he
    · exact absurd he List.not_mem_nil
    · exact .inl he

/-- A step that adds a slot has been asked to, with the listener that the slot bears now. -/
theorem Reachable.edit_of_added {s : State H} (hs : Reachable s) {c : ChainId} {x : SlotId}
    {placement : Placement} {chain : Chain Fn} {l : Fn}
    (hchange : Change (.added c x placement) s.heap.scene s.step.heap.scene)
    (hc : s.step.heap.chains.get? c = some chain) (hl : chain.listener? x = some l) :
    ∃ placement', s.edit = .added c x placement' l := by
  obtain ⟨old, hold, rfl⟩ := hchange.added_nextId
  have hchain : s.step.heap.scene.chains.get? c = some chain := by rw [Heap.get?_scene_chains, hc]
  have hlinks := (hs.coherent c old hold).links
  -- the new slot is linked, so it is in the list, and it was not there before
  have horder : old.nextId ∈ chain.order := by
    rcases hchange.reorder hs.coherent hchain with ⟨-, rfl⟩ | ⟨old', hold', horder, -⟩
    · exact absurd hl (by simp [Chain.listener?, Table.get?, Table.find])
    · obtain rfl := Option.some.inj (hold.symm.trans hold')
      rw [horder, Deed.reorder, if_pos rfl]
      exact placement.mem_place.2 (.inl rfl)
  have hmem : (old.nextId, l) ∈ s.step.heap.listing c := by
    rw [Heap.listing_of_get? hc]
    exact List.mem_filterMap.2 ⟨old.nextId, horder, chain.item?_eq_some_iff.2 ⟨rfl, hl⟩⟩
  rw [hs.passes.lists c (by rw [hc]; exact Option.some_ne_none chain)] at hmem
  rcases Edit.mem_on hmem with hin | hadded
  · rw [Heap.get?_scene_chains] at hold
    rw [Heap.listing_of_get? hold] at hin
    exact absurd (Chain.listener?_of_mem_listing hin).1 hlinks.nextId_not_mem
  · exact hadded

/-! ## What is in the slots -/

/-- A function that is stored, and is no listener around nothing. -/
def Heap.Whole (h : Heap T) (f : Fn) : Prop :=
  ∃ p load, f = some p ∧ h.payloads.get? p = some load ∧ load.body ≠ .simple none

namespace Reachable

variable {s : State H}

/-- What is whole stays so for as long as it is there. -/
theorem whole_step (hs : Reachable s) {f : Fn} (hf : s.heap.Whole f)
    (halive : s.step.heap.Alive (.function f)) : s.step.heap.Whole f := by
  obtain ⟨p, load, rfl, hload, hbody⟩ := hf
  obtain ⟨load', hload'⟩ := stored_of_alive halive rfl
  have hsame := hs.payload_before (s.heap.payloads.lt_of_get? hload) (n := 1) hload'
  obtain rfl := Option.some.inj (hload.symm.trans hsame)
  exact ⟨p, load, rfl, hload', hbody⟩

/-- What the program names is whole, unless it is empty. -/
theorem whole_functionOf (hs : Reachable s) {i : HandleId} {p : PayloadId}
    (hi : s.heap.functionOf i = some (some p)) : s.heap.Whole (some p) := by
  obtain ⟨load, hload⟩ := hs.stores_functionOf hi p rfl
  exact ⟨p, load, rfl, hload, (hs.secluded.heap.functionOf hi p rfl).2 load none hload⟩

/-- What a step adds to a chain is whole. -/
theorem whole_of_edit (hs : Reachable s) {c : ChainId} {x : SlotId} {placement : Placement} {l : Fn}
    (hedit : s.edit = .added c x placement l) (halive : s.step.heap.Alive (.function l)) :
    s.step.heap.Whole l := by
  rcases s.edit_cases with hnone | ⟨rq, below, hasks, hrq⟩ | ⟨found, rest, -, -, hfound⟩
  · exact absurd (hnone.symm.trans hedit) (by simp)
  · obtain ⟨chain, function, p, hf, h⟩ := Request.edit_added (hrq.symm.trans hedit)
    rcases h with ⟨-, rfl⟩ | ⟨-, rfl, hstores⟩
    · exact hs.whole_step (hs.whole_functionOf hf) halive
    · -- the listener around it is new
      obtain ⟨t, hheap, -, hstep⟩ := hasks.exists_step
      have hload := t.ask_stores (hheap ▸ hstores)
      rw [← hstep, hheap] at hload
      exact ⟨s.heap.payloads.nextId, _, rfl, hload, by simp⟩
  · exact absurd (hfound.symm.trans hedit) (by simp)

/-- In every reachable state what is in a slot is whole, linked or not. -/
theorem whole_listener (hs : Reachable s) {c : ChainId} {chain : Chain Fn} {x : SlotId} {l : Fn}
    (hc : s.heap.chains.get? c = some chain) (hl : chain.listener? x = some l) :
    s.heap.Whole l := by
  induction hs generalizing c chain x l with
  | begin n code memory =>
    obtain rfl := Heap.eq_empty_of_opened hc
    exact absurd hl (by simp [Chain.listener?, Table.get?, Table.find])
  | @step s hs ih =>
    have halive := Heap.Balanced.alive_of_slot hs.step.balanced hc hl
    obtain ⟨deed, hdoes⟩ := s.step_does
    rcases hdoes.change.listener_cases hs.coherent (by rw [Heap.get?_scene_chains, hc]) hl with
      ⟨old, hold, hbefore⟩ | ⟨placement, rfl⟩
    · rw [Heap.get?_scene_chains] at hold
      exact hs.whole_step (ih hold hbefore) halive
    · obtain ⟨placement', hedit⟩ := hs.edit_of_added hdoes.change hc hl
      exact hs.whole_of_edit hedit halive

/-- What is delivered to a listener names a whole one. -/
theorem whole_recipient (hs : Reachable s) {entry : Entry} {event : Event}
    (h : s.Delivers entry event) : s.heap.Whole event.recipient := by
  induction hs with
  | begin n code memory =>
    rcases h with ⟨f, arg, hmode⟩ | ⟨arg, hf⟩
    · exact absurd hmode (by simp [State.begin])
    · exact absurd hf (by simp [State.begin])
  | @step s hs ih =>
    -- whoever is to receive an event is held until then
    have hheld : .event event ∈ s.step.mode.held ++ s.step.frames.flatMap Frame.held := by
      rcases h with ⟨f, arg, hmode⟩ | ⟨arg, hf⟩
      · rw [hmode]
        exact List.mem_append_left _ (List.mem_singleton_self _)
      · exact List.mem_append_right _ (List.mem_flatMap.2 ⟨_, hf, List.mem_singleton_self _⟩)
    have halive : s.step.heap.Alive (.function event.recipient) := by
      intro t ht
      refine Heap.Balanced.alive_of_mem hs.step.balanced hheld t ?_
      rw [Ref.weight_event]
      omega
    rcases hs.delivers_step h with hold | ⟨-, chain, hc, hl⟩
    · exact hs.whole_step (ih hold) halive
    · rw [Heap.get?_scene_chains] at hc
      exact hs.whole_step (hs.whole_listener hc hl) halive

/-- The function inside a listener is stored. -/
theorem stored_inner (hs : Reachable s) {p q : PayloadId} {load : Payload H.toVocabulary}
    (hload : s.heap.payloads.get? p = some load) (hbody : load.body = .simple (some q)) :
    ∃ load', s.heap.payloads.get? q = some load' := by
  refine stored_of_alive (hs.balanced.alive_of_keeps hload ?_) rfl
  rw [hbody]
  exact List.mem_singleton_self _

/-- What is run through a slot is whole. -/
theorem whole_of_entry (hs : Reachable s) {entry : Entry} {f : Fn} {event : Option Event} {arg : H.Arg}
    (hmode : s.mode = .invoke (some entry) f event arg) : s.heap.Whole f := by
  obtain ⟨e, arg', hinvoke⟩ :=
    hs.invoke_of_entry? (show _ = some entry from congrArg Mode.entry? hmode)
  obtain ⟨-, rfl, -, -⟩ := Mode.invoke.inj (hinvoke.symm.trans hmode)
  exact hs.whole_recipient (.inl ⟨_, _, hinvoke⟩)

end Reachable

/-! ## What is run through no slot -/

/-- The function that is about to run through no slot. -/
def Mode.bare? : Mode H → Option Fn
  | .invoke none f _ _ => some f
  | _ => none

/-- The request calls the function by a handle on it. -/
def Request.Applies (h : Heap T) (f : Fn) : Request T → Prop
  | .apply function _ | .deliver function _ _ _ => h.functionOf function = some f
  | _ => False

theorem Request.Applies.functionOf {h : Heap T} {f : Fn} {rq : Request T} (ha : rq.Applies h f) :
    ∃ function, h.functionOf function = some f := by
  cases rq with
  | apply function arg => exact ⟨function, ha⟩
  | deliver function event arg guarded => exact ⟨function, ha⟩
  | _ => exact ha.elim

namespace State

variable {s : State H} {f : Fn}

theorem bare?_startCall (s : State H) (c : ChainId) (arg : H.Arg) :
    (s.startCall c arg).mode.bare? = none := by
  have houtcome := s.startCall_outcome c arg
  generalize s.startCall c arg = t at houtcome
  cases houtcome <;> rfl

theorem bare?_advance (s : State H) (event : Event) (arg : H.Arg) :
    (s.advance event arg).mode.bare? = none := by
  have houtcome := s.advance_outcome event arg
  generalize s.advance event arg = t at houtcome
  cases houtcome <;> rfl

theorem bare?_search (s : State H) (c : ChainId) (probe : Fn)
    (snapshot remaining : List (SlotId × Fn)) :
    (s.search c probe snapshot remaining).mode.bare? = none := by
  cases remaining <;> rfl

theorem bare?_link (s : State H) (c : ChainId) (listener : Fn) (placement : Placement) :
    (s.link c listener placement).mode.bare? = none := by
  unfold link
  split <;> rfl

/-- Of all that can be asked for, two requests run a function through no slot. -/
theorem applies_of_ask {rq : Request H.toVocabulary} (h : (s.ask rq).mode.bare? = some f) :
    rq.Applies s.heap f := by
  have hnone {t : State H} (ht : t.mode.bare? = none) (h : t.mode.bare? = some f) :
      rq.Applies s.heap f := absurd (ht.symm.trans h) (by simp)
  unfold ask at h
  cases rq with
  | apply function arg =>
    dsimp only at h
    split at h
    · exact hnone rfl h
    · rename_i g hg
      obtain rfl := Option.some.inj h
      exact hg
  | deliver function i arg guarded =>
    dsimp only at h
    split at h
    · rename_i g event hg _
      split at h
      · exact hnone rfl h
      · split at h
        · exact hnone rfl h
        · obtain rfl := Option.some.inj h
          exact hg
    · exact hnone rfl h
  | add chain function placement =>
    dsimp only at h
    split at h
    · exact hnone rfl h
    · exact hnone (bare?_link _ _ _ _) h
    · exact hnone rfl h
  | addSimple chain function placement =>
    dsimp only at h
    split at h
    · exact hnone rfl h
    · exact hnone (bare?_link _ _ _ _) h
    · exact hnone rfl h
  | call chain arg =>
    dsimp only at h
    split at h
    · exact hnone rfl h
    · exact hnone (bare?_startCall _ _ _) h
  | next i arg =>
    dsimp only at h
    split at h
    · exact hnone rfl h
    · exact hnone (bare?_advance _ _ _) h
  | remove | removeCurrent | removeSimple | removeNative =>
    dsimp only at h
    split at h
    · exact hnone (bare?_search _ _ _ _ _) h
    · exact hnone rfl h
  | wrap =>
    dsimp only at h
    split at h
    · split at h <;> exact hnone rfl h
    · exact hnone rfl h
  | copy | clear | size | same | kindOf | finished =>
    dsimp only at h
    split at h <;> exact hnone rfl h
  | makeEmpty | make | openChain | share | discard => exact hnone rfl h

theorem bare?_compare (s : State H) (left right : Fn) : (s.compare left right).mode.bare? = none := by
  unfold compare
  split
  · rfl
  · split
    · split <;> rfl
    · rfl

theorem bare?_releaseNext (s : State H) (todo : List Ref) (r : Reply H.toVocabulary) :
    (s.releaseNext todo r).mode.bare? = none := by
  unfold releaseNext
  cases todo with
  | nil => rfl
  | cons ref rest =>
    dsimp only
    split <;> rfl

theorem bare?_detachFound (s : State H) (found : Search) : (s.detachFound found).mode.bare? = none := by
  obtain ⟨-, hmode⟩ := s.detachFound_over found
  rw [hmode]
  rfl

/-- A function runs through no slot because the program has called it, or because a listener around
    it runs. -/
theorem bare_cases (h : s.step.mode.bare? = some f) :
    (∃ rq below, s.Asks rq below ∧ rq.Applies s.heap f) ∨
      ∃ entry p load event arg, s.mode = .invoke entry (some p) event arg ∧
        s.heap.payloads.get? p = some load ∧ load.body = .simple f := by
  obtain ⟨heap, memory, journal, frames, mode⟩ := s
  have hnone {t : State H} {P : Prop} (ht : t.mode.bare? = none) (h : t.mode.bare? = some f) : P :=
    absurd (ht.symm.trans h) (by simp)
  cases mode with
  | compare left right => exact hnone (bare?_compare _ left right) h
  | invoke entry g event arg =>
    right
    change (invoke _ g event arg).mode.bare? = some f at h
    unfold invoke at h
    cases hfound : g.bind heap.payloads.get? with
    | none =>
      rw [hfound] at h
      exact hnone rfl h
    | some load =>
      rw [hfound] at h
      obtain ⟨p, rfl, hload⟩ := Option.bind_eq_some_iff.1 hfound
      obtain ⟨body, rule⟩ := load
      cases body with
      | native n keeps => cases event <;> exact hnone rfl h
      | chain c => exact hnone (bare?_startCall _ _ _) h
      | simple inner =>
        obtain rfl : inner = f := by cases event <;> exact Option.some.inj h
        exact ⟨entry, p, _, event, arg, rfl, hload, rfl⟩
  | reply r =>
    cases frames with
    | nil => exact hnone (t := ⟨heap, memory, journal, [], .reply r⟩) rfl h
    | cons fr frames =>
      let s : State H := ⟨heap, memory, journal, frames, .reply r⟩
      cases fr with
      | user code owned =>
        cases hact : (H.resume code r memory).act with
        | request rq code' =>
          have hasks : Asks ⟨heap, memory, journal, .user code owned :: frames, .reply r⟩ rq
              (.user code' owned :: frames) := ⟨r, code, owned, frames, code', rfl, rfl, hact, rfl⟩
          obtain ⟨t, hheap, -, hstep⟩ := hasks.exists_step
          rw [hstep] at h
          exact .inl ⟨rq, _, hasks, hheap ▸ applies_of_ask h⟩
        | finish | pause =>
          refine hnone ?_ h
          show (s.takeTurn code owned r).mode.bare? = none
          unfold takeTurn
          dsimp only
          rw [hact]
          rfl
      | releasing todo answer =>
        rcases s.hear_releasing r todo answer with ⟨answer', -, hgoes⟩ | ⟨-, hstands⟩
        · exact hnone (s.bare?_releaseNext todo answer') (hgoes ▸ h)
        · exact hnone (t := (s.push (.releasing todo answer)).answer r) rfl (hstands ▸ h)
      | await held => exact hnone (t := s.release held r) rfl h
      | entering entry event arg =>
        cases r with
        | fault fault => exact hnone (t := s.release [.event event] (.fault fault)) rfl h
        | _ =>
          exact hnone (t := { s with mode := .invoke (some entry) event.recipient (some event) arg })
            rfl h
      | afterSimple event arg =>
        cases r with
        | fault fault => exact hnone (t := s.release [.event event] (.fault fault)) rfl h
        | _ => exact hnone ((s.push (.await [.event event])).bare?_advance event arg) h
      | searching found =>
        have hsearch := s.bare?_search found.chain found.probe found.snapshot found.remaining
        cases r with
        | fault fault =>
          exact hnone (t := s.release (found.snapshot.map fun e => .function e.2) (.fault fault)) rfl h
        | flag same =>
          cases same with
          | true => exact hnone (s.bare?_detachFound found) h
          | false => exact hnone hsearch h
        | _ => exact hnone hsearch h

end State

/-! ## What is run is there -/

namespace Reachable

variable {s : State H}

/-- What a step that ends nothing finds stored it leaves so. -/
theorem stored_step (hs : Reachable s) (hdropping : s.dropping = none) {p : PayloadId}
    {load : Payload H.toVocabulary} (hload : s.heap.payloads.get? p = some load) :
    s.step.heap.payloads.get? p = some load := by
  rw [hs.passes.payloads p (s.heap.payloads.lt_of_get? hload), hdropping, if_neg (by simp)]
  exact hload

/-- What is run after a step is stored; or it is empty, it is run through no slot, and the program has
    called it by a handle on an empty function. -/
theorem runs_step (hs : Reachable s) {entry : Option Entry} {f : Fn} {event : Option Event}
    {arg : H.Arg} (hmode : s.step.mode = .invoke entry f event arg) :
    (∃ p load, f = some p ∧ s.step.heap.payloads.get? p = some load) ∨
      f = none ∧ entry = none ∧ ∃ rq below, s.Asks rq below ∧ rq.Applies s.heap none := by
  cases entry with
  | some entry =>
    obtain ⟨p, load, hp, hload, -⟩ := hs.step.whole_of_entry hmode
    exact .inl ⟨p, load, hp, hload⟩
  | none =>
    have hbare : s.step.mode.bare? = some f := by
      rw [hmode]
      rfl
    rcases State.bare_cases hbare with ⟨rq, below, hasks, happlies⟩ | hinside
    · cases f with
      | none => exact .inr ⟨rfl, rfl, rq, below, hasks, happlies⟩
      | some p =>
        obtain ⟨function, hfunction⟩ := happlies.functionOf
        obtain ⟨load, hload⟩ := hs.stores_functionOf hfunction p rfl
        obtain ⟨r, code, owned, rest, code', hreply, hframes, -⟩ := hasks
        have hdropping : s.dropping = none := by
          unfold State.dropping
          rw [hreply, hframes]
        exact .inl ⟨p, load, rfl, hs.stored_step hdropping hload⟩
    · obtain ⟨entry, p, load, event', arg', hrun, hload, hbody⟩ := hinside
      have hdropping : s.dropping = none := by
        unfold State.dropping
        rw [hrun]
      -- a listener around a function runs through its slot, so there is something in it
      have hwhole : ∃ q, f = some q := by
        cases entry with
        | none =>
          have hfits := hs.secluded.mode
          rw [hrun] at hfits
          exact absurd hbody ((hfits.1 p rfl).2 load f hload)
        | some entry =>
          obtain ⟨p', load', hp, hload', hne⟩ := hs.whole_of_entry hrun
          obtain rfl := Option.some.inj hp
          obtain rfl := Option.some.inj (hload.symm.trans hload')
          cases f with
          | none => exact absurd hbody hne
          | some q => exact ⟨q, rfl⟩
      obtain ⟨q, rfl⟩ := hwhole
      obtain ⟨load', hload'⟩ := hs.stored_inner hload hbody
      exact .inl ⟨q, load', rfl, hs.stored_step hdropping hload'⟩

end Reachable

/-! ## What a call and a `next` find -/

/-- Every link of a chain leads to a linked slot, and the two ways through it meet the same slots. -/
structure Chain.Unbroken {L : Type} (c : Chain L) : Prop where
  first : ∀ x, c.first = some x → c.contains x = true
  last : ∀ x, c.last = some x → c.contains x = true
  /-- Also the way forward from a tombstone. -/
  after : ∀ x slot y, c.slots.get? x = some slot → slot.after = some y → c.contains y = true
  before : ∀ x slot y, c.slots.get? x = some slot → slot.before = some y → c.contains y = true
  /-- Where a slot is linked the size is not zero. -/
  size : ∀ x, c.contains x = true → 0 < c.size
  /-- The walk from the last slot stops at the first, and not before. -/
  walk : c.backwards.length = c.size ∧ ∀ x, c.contains x = true → x ∈ c.backwards.map (·.1)

theorem Chain.Coherent.unbroken {L : Type} {c : Chain L} (h : c.Coherent) : c.Unbroken where
  first := fun x hx => (h.visits x).1 (h.first_mem hx)
  last := fun x hx => (h.visits x).1 (List.mem_of_getLast? (h.ends.symm.trans hx))
  after := by
    intro x slot y hs hy
    cases hlinked : slot.linked with
    | true => exact h.linked x slot hs hlinked y (.inl hy)
    | false => exact (h.tombstone x slot hs hlinked).2 y hy
  before := by
    intro x slot y hs hy
    cases hlinked : slot.linked with
    | true => exact h.linked x slot hs hlinked y (.inr hy)
    | false => exact absurd ((h.tombstone x slot hs hlinked).1.symm.trans hy) (by simp)
  size := fun x hx => h.steps ▸ List.length_pos_of_mem ((h.visits x).2 hx)
  walk := by
    refine ⟨?_, fun x hx => ?_⟩
    · rw [← List.length_map (·.1), h.returns, List.length_reverse, h.steps]
    · rw [h.returns, List.mem_reverse]
      exact (h.visits x).2 hx

namespace State

/-- The coming step calls the chain numbered `c` for `below`: code of the program asks for it, or a
    function runs that is a chain. -/
inductive Calls (s : State H) (c : ChainId) : List (Frame H) → Prop
  | asked {i : HandleId} {arg : H.Arg} {below : List (Frame H)} (hasks : s.Asks (.call i arg) below)
      (hc : s.heap.chainOf i = some c) : Calls s c below
  | run {entry : Option Entry} {p : PayloadId} {load : Payload H.toVocabulary} {event : Option Event}
      {arg : H.Arg} (hmode : s.mode = .invoke entry (some p) event arg)
      (hload : s.heap.payloads.get? p = some load) (hbody : load.body = .chain c) :
      Calls s c s.frames

/-- What a call finds. -/
inductive CallFinds (s : State H) (c : ChainId) (below : List (Frame H)) : Prop
  /-- Nothing is linked, and `below` is told so. -/
  | nothing (hlist : s.heap.listing c = []) (hanswer : Promised (.result none) below s.step)
  /-- The first listener is run. -/
  | first {x : SlotId} {l : Fn} {rest : List (SlotId × Fn)} {d : DispatchId} {arg : H.Arg}
      (hlist : s.heap.listing c = (x, l) :: rest)
      (hmode : s.step.mode = .invoke (some ⟨c, x, d⟩) l (some ⟨d, l⟩) arg)

/-- What a `next` of dispatch `d` finds. -/
inductive NextFinds (s : State H) (d : DispatchId) (below : List (Frame H)) : Prop
  /-- The dispatch is past the end, and `below` is told so. -/
  | past {c : ChainId} (hd : s.heap.dispatches.get? d = some ⟨c, none⟩)
      (hanswer : Promised (.result none) below s.step)
  /-- Nothing comes after the slot on which it stands, and `below` is told so. -/
  | last {c : ChainId} {chain : Chain Fn} {x : SlotId} {slot : Slot Fn}
      (hd : s.heap.dispatches.get? d = some ⟨c, some x⟩) (hc : s.heap.chains.get? c = some chain)
      (hs : chain.slots.get? x = some slot) (hpins : 0 < slot.pins) (hafter : slot.after = none)
      (hanswer : Promised (.result none) below s.step)
  /-- The slot that comes after it is linked, and its listener is about to run. -/
  | on {c : ChainId} {chain : Chain Fn} {x y : SlotId} {slot next : Slot Fn} {arg : H.Arg}
      (hd : s.heap.dispatches.get? d = some ⟨c, some x⟩) (hc : s.heap.chains.get? c = some chain)
      (hs : chain.slots.get? x = some slot) (hpins : 0 < slot.pins) (hafter : slot.after = some y)
      (hnext : chain.slots.get? y = some next) (hlinked : next.linked = true)
      (hwaits : .entering ⟨c, y, d⟩ ⟨d, next.listener⟩ arg ∈ s.step.frames)

/-- Whoever calls it, what happens is that a dispatch starts. -/
theorem Calls.exists_start {s : State H} {c : ChainId} {below : List (Frame H)} (h : s.Calls c below) :
    ∃ (t : State H) (arg : H.Arg) (held : List (List Ref)), t.heap.scene = s.heap.scene ∧
      t.frames = passers held ++ below ∧ s.step = t.startCall c arg := by
  cases h with
  | @asked i arg _ hasks hc =>
    obtain ⟨t, hheap, rfl, hstep⟩ := hasks.exists_step
    refine ⟨t.hold [i], arg, [[.handle i]], ?_, rfl, ?_⟩
    · exact (t.heap.scene_retainAll _).trans (congrArg _ hheap)
    · rw [hstep]
      unfold ask
      dsimp only
      rw [hheap, hc]
  | @run entry p load event arg hmode hload hbody =>
    refine ⟨s.push (.await (event.toList.map .event)), arg, [event.toList.map .event], rfl, rfl, ?_⟩
    obtain ⟨body, rule⟩ := load
    dsimp only at hbody
    subst hbody
    rw [step_of_invoke hmode]
    unfold invoke
    rw [Option.bind_some, hload]

end State

namespace Reachable

variable {s : State H} {below : List (Frame H)}

/-- A call gives nothing only where nothing is linked. -/
theorem call_finds (hs : Reachable s) {c : ChainId} (h : s.Calls c below) : s.CallFinds c below := by
  obtain ⟨t, arg, held, hscene, hframes, hstep⟩ := h.exists_start
  have hlist := Heap.listing_scene hscene c
  have hcoherent : ∀ chain, t.heap.chains.get? c = some chain → chain.Coherent := by
    intro chain hc
    exact hs.coherent c chain (by rw [← hscene, Heap.get?_scene_chains, hc])
  have houtcome := t.startCall_outcome c arg
  rw [← hstep] at houtcome
  generalize hu : s.step = u at houtcome
  cases houtcome with
  | nothing hnone =>
    refine .nothing ?_ (hu ▸ State.promised_of_passers hframes rfl)
    rw [← hlist]
    cases hc : t.heap.chains.get? c with
    | none =>
      rw [Heap.listing, hc]
      rfl
    | some chain =>
      have hchain := hcoherent chain hc
      rw [Heap.listing_of_get? hc, ← List.head?_eq_none_iff]
      by_contra hne
      obtain ⟨e, he⟩ := Option.ne_none_iff_exists'.1 hne
      have hfirst := hchain.head?_listing
      rw [he] at hfirst
      have hlistener := (Chain.listener?_of_mem_listing (List.mem_of_mem_head? he)).2
      exact absurd ((hnone chain e.1 hc hfirst.symm).symm.trans hlistener) (by simp)
  | @started chain i l hc hfirst hl =>
    have hchain := hcoherent chain hc
    obtain ⟨e, he, hi⟩ := Option.map_eq_some_iff.1 (hchain.head?_listing.trans hfirst)
    obtain ⟨rest, hrest⟩ := List.head?_eq_some_iff.1 he
    have hlistener := (Chain.listener?_of_mem_listing (List.mem_of_mem_head? he)).2
    rw [hi, hl] at hlistener
    have hbegins : s.heap.listing c = (i, l) :: rest := by
      rw [← hlist, Heap.listing_of_get? hc, hrest, ← hi, Option.some.inj hlistener]
    exact .first hbegins (congrArg State.mode hu)

/-- The dispatch whose `next` is called is there, and so is its chain. -/
theorem exists_dispatch_of_nexts (hs : Reachable s) {d : DispatchId} (h : s.Nexts d below) :
    ∃ e chain, s.heap.dispatches.get? d = some e ∧ s.heap.chains.get? e.chain = some chain := by
  have halive : s.heap.Alive (.dispatch d) := by
    intro t ht
    cases h with
    | @asked i arg event _ hasks hevent hd =>
      refine hs.balanced.alive_of_handle (State.Owes.handle_of_eventOf hevent) t ?_
      rw [Ref.weight_event, hd]
      omega
    | @simple event arg r rest hmode hframes hr hd =>
      have hheld : .event event ∈ s.mode.held ++ s.frames.flatMap Frame.held := by
        rw [hframes]
        exact List.mem_append_right _ (List.mem_append_left _ (List.mem_singleton_self _))
      refine hs.balanced.alive_of_mem hheld t ?_
      rw [Ref.weight_event, hd]
      omega
  have hcount := halive (.dispatch d) (by simp [Ref.weight])
  obtain ⟨e, hd⟩ := Option.isSome_iff_exists.1 ((Pool.count_pos_iff _ _).1 hcount)
  obtain ⟨chain, hc⟩ := hs.balanced.alive_of_dispatch hd
  exact ⟨e, chain, hd, hc⟩

/-- A `next` gives nothing only past the end, or where nothing comes after the slot. -/
theorem next_finds (hs : Reachable s) {d : DispatchId} (h : s.Nexts d below) :
    s.NextFinds d below := by
  obtain ⟨e, chain, hd, hc⟩ := hs.exists_dispatch_of_nexts h
  obtain ⟨t, event, arg, held, rfl, hscene, hframes, hstep⟩ := h.exists_advance
  have hdispatch : t.heap.dispatches.get? event.dispatch = some e := by
    rw [← Heap.get?_scene_dispatches, hscene, Heap.get?_scene_dispatches, hd]
  have hchain : t.heap.chains.get? e.chain = some chain := by
    rw [← Heap.get?_scene_chains, hscene, Heap.get?_scene_chains, hc]
  have hcoherent : chain.Coherent := hs.coherent e.chain chain (by rw [Heap.get?_scene_chains, hc])
  have hleaving {u : State H} {todo : List Ref}
      (hu : u.frames = .releasing todo (.result none) :: t.frames) (hmode : u.mode = .reply .done) :
      State.Promised (.result none) below u := by
    have hleft : u.frames = .releasing todo (.result none) :: (State.passers held ++ below) :=
      hframes ▸ hu
    exact State.promised_of_leaving hleft hmode
  have houtcome := t.advance_outcome event arg
  rw [← hstep] at houtcome
  generalize hu : s.step = u at houtcome
  cases houtcome with
  | nowhere hgone => exact absurd ((hgone e hdispatch).symm.trans hchain) (by simp)
  | past hpast =>
    obtain rfl := Option.some.inj (hdispatch.symm.trans hpast)
    exact .past hd (hu ▸ hleaving rfl rfl)
  | @ended c chain' slot hstands hc' hend =>
    obtain rfl := Option.some.inj (hdispatch.symm.trans hstands)
    obtain rfl := Option.some.inj (hchain.symm.trans hc')
    obtain ⟨place, hs', hpins⟩ := hs.accounted.exists_slot
      (by rw [Heap.get?_scene_dispatches, hd]) (by rw [Heap.get?_scene_chains, hc])
    refine .last hd hc hs' hpins ?_ (hu ▸ hleaving rfl rfl)
    -- what comes after is linked, so it is found though the pin has been given back
    by_contra hafter
    obtain ⟨y, hy⟩ := Option.ne_none_iff_exists'.1 hafter
    have hfollow : chain.following slot = some y := (Chain.following_stored hs').trans hy
    have hmem := (hcoherent.visits y).2 (hcoherent.unbroken.after slot place y hs' hy)
    obtain ⟨l, hl⟩ := hcoherent.links.exists_listener hmem
    have hnone := hend y hfollow
    rw [Chain.listener?_unpin hcoherent.links slot hmem, hl] at hnone
    exact absurd hnone (by simp)
  | @moved c chain' slot i l hstands hc' hnext hl =>
    obtain rfl := Option.some.inj (hdispatch.symm.trans hstands)
    obtain rfl := Option.some.inj (hchain.symm.trans hc')
    obtain ⟨place, hs', hpins⟩ := hs.accounted.exists_slot
      (by rw [Heap.get?_scene_dispatches, hd]) (by rw [Heap.get?_scene_chains, hc])
    have hafter : place.after = some i := (Chain.following_stored hs').symm.trans hnext
    have hmem := (hcoherent.visits i).2 (hcoherent.unbroken.after slot place i hs' hafter)
    obtain ⟨next, hi, hlinked⟩ := hcoherent.links.exists_slot hmem
    have hlistener := Chain.listener?_of_unpin hl
    rw [Chain.listener?, hi] at hlistener
    obtain rfl : next.listener = l := Option.some.inj hlistener
    have hwaits : .entering ⟨c, i, event.dispatch⟩ ⟨event.dispatch, next.listener⟩ arg ∈
        s.step.frames := by
      rw [hu]
      exact List.mem_cons_of_mem _ List.mem_cons_self
    exact .on hd hc hs' hpins hafter hi hlinked hwaits

end Reachable

/-! ## Nothing is missed -/

/-- What is so in a state of any run: the answers that the library has for the case that a look-up
    fails are never given. -/
structure State.Unfailing (s : State H) : Prop where
  /-- In a slot, linked or not, is a stored callable; and if that is a listener around a function, then
      the function is stored, too. -/
  listeners : ∀ c chain x l, s.heap.chains.get? c = some chain → chain.listener? x = some l →
    ∃ p load, l = some p ∧ s.heap.payloads.get? p = some load ∧
      ∀ inner, load.body = .simple inner →
        ∃ q load', inner = some q ∧ s.heap.payloads.get? q = some load'
  links : ∀ c chain, s.heap.chains.get? c = some chain → chain.Unbroken
  /-- A dispatch has its chain, and stands on a slot that is pinned; no other slot is ever unpinned. -/
  cursors : ∀ d e, s.heap.dispatches.get? d = some e →
    ∃ chain, s.heap.chains.get? e.chain = some chain ∧
      ∀ x, e.cursor = some x → ∃ slot, chain.slots.get? x = some slot ∧ 0 < slot.pins
  calls : ∀ c below, s.Calls c below → s.CallFinds c below
  nexts : ∀ d below, s.Nexts d below → s.NextFinds d below
  /-- What the coming step has run is stored, unless the program itself calls an empty function. -/
  runs : ∀ entry f event arg, s.step.mode = .invoke entry f event arg →
    (∃ p load, f = some p ∧ s.step.heap.payloads.get? p = some load) ∨
      f = none ∧ entry = none ∧ ∃ rq below, s.Asks rq below ∧ rq.Applies s.heap none

/-- In every reachable state of every run. -/
theorem lookups_never_fail {s : State H} (hs : Reachable s) : s.Unfailing where
  listeners := by
    intro c chain x l hc hl
    obtain ⟨p, load, rfl, hload, hbody⟩ := hs.whole_listener hc hl
    refine ⟨p, load, rfl, hload, fun inner hinner => ?_⟩
    cases inner with
    | none => exact absurd hinner hbody
    | some q =>
      obtain ⟨load', hload'⟩ := hs.stored_inner hload hinner
      exact ⟨q, load', rfl, hload'⟩
  links := fun c chain hc => (hs.coherent c chain (by rw [Heap.get?_scene_chains, hc])).unbroken
  cursors := by
    intro d e hd
    obtain ⟨chain, hc⟩ := hs.balanced.alive_of_dispatch hd
    refine ⟨chain, hc, fun x hx => ?_⟩
    obtain ⟨c, cursor⟩ := e
    obtain rfl : cursor = some x := hx
    exact hs.accounted.exists_slot (by rw [Heap.get?_scene_dispatches, hd])
      (by rw [Heap.get?_scene_chains, hc])
  calls := fun c below h => hs.call_finds h
  nexts := fun d below h => hs.next_finds h
  runs := fun entry f event arg h => hs.runs_step h

/-- Listener `l` removes itself, and then, while its slot is pinned under it, a simple listener around
    NOTHING; after that it goes on to `n`, a simple listener. -/
def Script.hollowProbe : Script.Program Unit :=
  [ .defineSimple "e" .empty,
    .defineSimple "n" (.pointer .note),
    .define "l" (.closure ⟨"l",
      [.removeCurrent none none, .removeSimple "e" none, .next {} none false], none⟩ false),
    .add "l" none (some .back),
    .addSimple "n" none (some .back),
    .call ⟨.given (), .absent⟩ none false ]

/-- The listener around nothing is stored while it is compared with what is in slot 1, and is in no
    slot; nor does the dispatch lose its way from slot 0, which is unlinked by then. -/
theorem lookups_never_fail_hollowProbe :
    ((Script.start Script.hollowProbe).after 27).Unfailing ∧
    ((Script.start Script.hollowProbe).after 27).mode.pair? = some (some 2, some 3) ∧
    (((Script.start Script.hollowProbe).after 27).heap.payloads.get? 3).map
      (fun load => (load.body.kind, load.body.keeps)) = some (.simpleListener, [.function none]) ∧
    (((Script.start Script.hollowProbe).after 27).heap.chains.get? 0).map
      (fun c => (c.listener? 0, c.contains 0, c.listener? 1)) =
        some (some (some 1), false, some (some 2)) ∧
    ((Script.start Script.hollowProbe).after 45).mode.delivery? =
      some (⟨0, 1, 0⟩, ⟨0, some 2⟩) := by
  have hs := (Script.reachable_start Script.hollowProbe).after 27
  exact ⟨lookups_never_fail hs, by decide +kernel, by decide +kernel, by decide +kernel,
    by decide +kernel⟩

end Relay
