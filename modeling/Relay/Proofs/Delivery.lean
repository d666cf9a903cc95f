/-
  A listener is told WHO IT IS.

  The event that a listener receives names a recipient, and that is the listener of the very slot it
  is run through (`Reachable.delivered`).  A slot keeps its listener for as long as it is stored, and
  its number is never used again (`Scene.Bears`), so the name stays right whatever the program does
  to the chain while the listener runs.

  A listener comes to be run through a slot in three ways only (`State.step_chooses`): a call chooses
  the first slot, a `next` chooses the one that follows, or a frame that has waited to run it goes on.
-/
import Relay.Proofs.Answer
import Relay.Proofs.Course
import Relay.Proofs.Custody
import Relay.Proofs.Listing

namespace Relay

variable {H : Host}

/-! ## The listener of a slot -/

namespace Chain

variable {L : Type} {c : Chain L} {x : SlotId} {l : L}

/-- What is stored after a pin was given back was stored before. -/
theorem listener?_of_unpin {id : SlotId} (hl : (c.unpin id).2.listener? x = some l) :
    c.listener? x = some l := by
  obtain ⟨t, ht, rfl⟩ := Option.map_eq_some_iff.1 hl
  rw [get?_unpin] at ht
  split at ht
  · obtain ⟨slot, hs, hu⟩ := Option.bind_eq_some_iff.1 ht
    split at hu
    · exact absurd hu (by simp)
    · obtain rfl := Option.some.inj hu
      exact Option.map_eq_some_iff.2 ⟨slot, hs, rfl⟩
  · exact Option.map_eq_some_iff.2 ⟨t, ht, rfl⟩

/-- So is what is stored after a slot was taken out. -/
theorem listener?_of_detach (hc : c.Coherent) {id : SlotId}
    (hl : (c.detach id).2.listener? x = some l) : c.listener? x = some l := by
  by_cases hx : x = id
  · subst hx
    by_cases hmem : x ∈ c.order
    · -- a tombstone keeps its listener
      obtain ⟨slot, hs, -⟩ := hc.links.exists_slot hmem
      rw [listener?, hc.links.get?_detach_self hmem hs] at hl
      rw [listener?, hs]
      split at hl
      · exact hl
      · exact absurd hl (by simp)
    · rwa [hc.links.detach_of_not_mem hmem] at hl
  · rwa [listener?_detach_ne hc id hx] at hl

theorem listener?_of_clear {shuffle : Shuffle} (hl : (c.clear shuffle).2.listener? x = some l) :
    c.listener? x = some l := by
  obtain ⟨t, ht, rfl⟩ := Option.map_eq_some_iff.1 hl
  obtain ⟨slot, hs, -, rfl⟩ := get?_clear_eq_some c ht
  exact Option.map_eq_some_iff.2 ⟨slot, hs, rfl⟩

/-- Slot `x` was handed out, and if it is stored still, its listener is `l`. -/
structure Bears (c : Chain L) (x : SlotId) (l : L) : Prop where
  old : x < c.nextId
  listener : ∀ l', c.listener? x = some l' → l' = l

namespace Bears

/-- Where no listener is new, and no number is handed out again. -/
theorem congr {c' : Chain L} (h : c.Bears x l) (hn : c.nextId ≤ c'.nextId)
    (hl : ∀ l', c'.listener? x = some l' → c.listener? x = some l') : c'.Bears x l :=
  ⟨Nat.lt_of_lt_of_le h.old hn, fun l' hl' => h.listener l' (hl l' hl')⟩

theorem add (h : c.Bears x l) (listener : L) (placement : Placement) :
    (c.add listener placement).Bears x l := by
  refine h.congr ?_ fun l' hl' => ?_
  · rw [nextId_add]
    exact Nat.le_succ _
  · rwa [listener?_add, if_neg (Nat.ne_of_gt h.old)] at hl'

theorem detach (h : c.Bears x l) (hc : c.Coherent) (id : SlotId) : (c.detach id).2.Bears x l :=
  h.congr (Nat.le_of_eq (Links.nextId_detach c id).symm) fun _ => listener?_of_detach hc

theorem clear {shuffle : Shuffle} (h : c.Bears x l) : (c.clear shuffle).2.Bears x l :=
  h.congr (Nat.le_refl _) fun _ => listener?_of_clear

theorem pin (h : c.Bears x l) (id : SlotId) : (c.pin id).Bears x l :=
  h.congr (Nat.le_refl _) fun l' hl' => by rwa [listener?_pin] at hl'

theorem unpin (h : c.Bears x l) (id : SlotId) : (c.unpin id).2.Bears x l :=
  h.congr (Nat.le_of_eq (ends_unpin c id).2.2.2.symm) fun _ => listener?_of_unpin

theorem lasting (x : SlotId) (l : L) : Lasting fun c => c.Bears x l where
  add := fun _ listener placement _ h => h.add listener placement
  detach := fun _ id hc h => h.detach hc id
  clear := fun _ _ _ h => h.clear
  pin := fun _ id h => h.pin id
  unpin := fun _ id h => h.unpin id

end Bears

/-- A slot that is stored has the listener it has. -/
theorem bears_of_listener? (hc : c.Coherent) (hl : c.listener? x = some l) : c.Bears x l where
  old := by
    obtain ⟨slot, hs, -⟩ := Option.map_eq_some_iff.1 hl
    exact hc.links.lt_nextId hs
  listener := fun _ hl' => Option.some.inj (hl'.symm.trans hl)

end Chain

/-- Slot `x` of the chain numbered `c` was handed out, and if it is stored still, its listener is
    `l`. -/
def Scene.Bears (v : Scene) (c : ChainId) (x : SlotId) (l : Fn) : Prop :=
  v.Upholds c fun chain => chain.Bears x l

/-! ## How a listener comes to be run through a slot -/

namespace State

/-- A step has begun with the stack `old` and come to `s`: it has a listener run through no slot, and
    none waits to be because of it. -/
structure Calm (s : State H) (old : List (Frame H)) : Prop where
  stack : ∃ pushed, s.frames = pushed ++ old ∧ pushed.filterMap Frame.entry? = []
  mode : s.mode.entry? = none

variable {s : State H}

/-- A frame that does not wait to run a listener may be left out of the count. -/
theorem Calm.under {f : Frame H} {old : List (Frame H)} (h : s.Calm (f :: old))
    (hf : f.entry? = none) : s.Calm old := by
  obtain ⟨pushed, hpushed, hnone⟩ := h.stack
  refine ⟨⟨pushed ++ [f], by rw [hpushed, List.append_assoc]; rfl, ?_⟩, h.mode⟩
  rw [List.filterMap_append, hnone, List.filterMap_cons, hf]
  rfl

variable (s)

theorem search_calm (c : ChainId) (probe : Fn) (snapshot remaining : List (SlotId × Fn)) :
    (s.search c probe snapshot remaining).Calm s.frames := by
  cases remaining <;> exact ⟨⟨[_], rfl, rfl⟩, rfl⟩

theorem startRemove_calm (c : ChainId) (probe : Fn) : (s.startRemove c probe).Calm s.frames :=
  search_calm _ c probe _ _

theorem link_calm (c : ChainId) (listener : Fn) (placement : Placement) :
    (s.link c listener placement).Calm s.frames := by
  unfold link
  split <;> exact ⟨⟨[], rfl, rfl⟩, rfl⟩

theorem detachFound_calm (found : Search) : (s.detachFound found).Calm s.frames := by
  unfold detachFound
  dsimp only
  split
  · exact ⟨⟨[_], rfl, rfl⟩, rfl⟩
  · split <;> exact ⟨⟨[_], rfl, rfl⟩, rfl⟩

theorem compare_calm (left right : Fn) : (s.compare left right).Calm s.frames := by
  unfold compare
  split
  · exact ⟨⟨[], rfl, rfl⟩, rfl⟩
  · split
    · split
      · exact ⟨⟨[], rfl, rfl⟩, rfl⟩
      · exact ⟨⟨[], rfl, rfl⟩, rfl⟩
      · exact ⟨⟨[_], rfl, rfl⟩, rfl⟩
      · exact ⟨⟨[], rfl, rfl⟩, rfl⟩
    · exact ⟨⟨[], rfl, rfl⟩, rfl⟩

theorem releaseNext_calm (todo : List Ref) (r : Reply H.toVocabulary) :
    (s.releaseNext todo r).Calm s.frames := by
  unfold releaseNext
  cases todo with
  | nil => exact ⟨⟨[], rfl, rfl⟩, rfl⟩
  | cons ref rest =>
    dsimp only
    split
    · exact ⟨⟨[_], rfl, rfl⟩, rfl⟩
    · exact ⟨⟨[_, _], rfl, rfl⟩, rfl⟩

/-- Only a call and a `next` have a listener run through a slot. -/
theorem ask_calm {rq : Request H.toVocabulary} (hcall : ∀ i arg, rq ≠ .call i arg)
    (hnext : ∀ i arg, rq ≠ .next i arg) : (s.ask rq).Calm s.frames := by
  have hrefused : (s.answer .refused).Calm s.frames := ⟨⟨[], rfl, rfl⟩, rfl⟩
  -- taking a share in a handle pushes nothing
  have hseized {i : HandleId} {ref : Option Ref} {t : State H} (ht : s.seize i = (ref, t)) :
      t.frames = s.frames := by
    rw [← show (s.seize i).2 = t from congrArg Prod.snd ht]
    rfl
  cases rq with
  | call chain arg => exact absurd rfl (hcall chain arg)
  | next i arg => exact absurd rfl (hnext i arg)
  | makeEmpty | make | openChain | share => exact ⟨⟨[], rfl, rfl⟩, rfl⟩
  | discard i => exact ⟨⟨[_], rfl, rfl⟩, rfl⟩
  | copy i =>
    unfold ask
    dsimp only
    split <;> exact ⟨⟨[], rfl, rfl⟩, rfl⟩
  | add chain function placement =>
    unfold ask
    dsimp only
    split
    · exact ⟨⟨[], rfl, rfl⟩, rfl⟩
    · exact link_calm _ _ _ _
    · exact hrefused
  | addSimple chain function placement =>
    unfold ask
    dsimp only
    split
    · exact ⟨⟨[], rfl, rfl⟩, rfl⟩
    · exact link_calm _ _ _ _
    · exact hrefused
  | remove chain function =>
    unfold ask
    dsimp only
    split
    · exact (startRemove_calm _ _ _).under rfl
    · exact hrefused
  | removeCurrent chain i =>
    unfold ask
    dsimp only
    split
    · exact (startRemove_calm _ _ _).under rfl
    · exact hrefused
  | removeSimple chain function =>
    unfold ask
    dsimp only
    split
    · exact ((startRemove_calm _ _ _).under rfl).under rfl
    · exact hrefused
  | removeNative chain native =>
    unfold ask
    dsimp only
    split
    · exact ((startRemove_calm _ _ _).under rfl).under rfl
    · exact hrefused
  | clear chain =>
    unfold ask
    dsimp only
    split
    · exact hrefused
    · exact ⟨⟨[_, _], rfl, rfl⟩, rfl⟩
  | size chain =>
    unfold ask
    dsimp only
    split <;> exact ⟨⟨[], rfl, rfl⟩, rfl⟩
  | apply function arg =>
    unfold ask
    dsimp only
    split
    · exact hrefused
    · exact ⟨⟨[_], rfl, rfl⟩, rfl⟩
  | deliver function i arg guarded =>
    unfold ask
    dsimp only
    split
    · split
      · rename_i ht
        rw [← hseized ht]
        exact ⟨⟨[], rfl, rfl⟩, rfl⟩
      · rename_i ht
        rw [← hseized ht]
        split
        · exact ⟨⟨[_, _], rfl, rfl⟩, rfl⟩
        · exact ⟨⟨[_], rfl, rfl⟩, rfl⟩
    · exact hrefused
  | wrap chain =>
    unfold ask
    dsimp only
    split
    · split <;> (rename_i ht; rw [← hseized ht]; exact ⟨⟨[], rfl, rfl⟩, rfl⟩)
    · exact hrefused
  | same left right =>
    unfold ask
    dsimp only
    split
    · exact ⟨⟨[_], rfl, rfl⟩, rfl⟩
    · exact hrefused
  | kindOf function =>
    unfold ask
    dsimp only
    split <;> exact ⟨⟨[], rfl, rfl⟩, rfl⟩
  | finished i =>
    unfold ask
    dsimp only
    split <;> exact ⟨⟨[], rfl, rfl⟩, rfl⟩

/-- `t` comes from `s`, and if a listener is to be run through a slot because of it, a call or a `next`
    has chosen the slot. -/
inductive Chooses (s t : State H) : Prop
  | calm (h : t.Calm s.frames)
  | called {u : State H} {c : ChainId} {arg : H.Arg} (hu : Prepares s u) (ht : t = u.startCall c arg)
  | moved {u : State H} {event : Event} {arg : H.Arg} (hu : Prepares s u)
      (ht : t = u.advance event arg)

variable {s}

theorem Prepares.chooses {t u : State H} (h : Prepares s t) (h' : Chooses t u) : Chooses s u := by
  cases h' with
  | calm hcalm =>
    obtain ⟨p, hp, he⟩ := h.entries
    obtain ⟨q, hq, he'⟩ := hcalm.stack
    refine .calm ⟨⟨q ++ p, by rw [hq, hp, List.append_assoc], ?_⟩, hcalm.mode⟩
    rw [List.filterMap_append, he', he]
    rfl
  | called hu ht => exact .called (h.trans hu) ht
  | moved hu ht => exact .moved (h.trans hu) ht

variable (s)

theorem ask_chooses (rq : Request H.toVocabulary) : Chooses s (s.ask rq) := by
  cases rq with
  | call chain arg =>
    unfold ask
    dsimp only
    split
    · exact .calm ⟨⟨[], rfl, rfl⟩, rfl⟩
    · exact .called (.hold s _) rfl
  | next i arg =>
    unfold ask
    dsimp only
    split
    · exact .calm ⟨⟨[], rfl, rfl⟩, rfl⟩
    · exact .moved (.hold s _) rfl
  | _ => exact .calm (s.ask_calm (by simp) (by simp))

theorem takeTurn_chooses (code : H.Code) (owned : List Ref) (r : Reply H.toVocabulary) :
    Chooses s (s.takeTurn code owned r) := by
  unfold takeTurn
  dsimp only
  -- of the program nothing is known, so its turn may be anything
  generalize H.resume code r s.memory = turn
  obtain ⟨memory, said, act⟩ := turn
  cases act with
  | finish r => exact .calm ⟨⟨[_], rfl, rfl⟩, rfl⟩
  | pause code => exact .calm ⟨⟨[_], rfl, rfl⟩, rfl⟩
  | request rq code =>
    exact ((Prepares.turn s memory said).trans (.push _ rfl)).chooses (ask_chooses _ rq)

/-- The function that is run may be a chain. -/
theorem invoke_chooses (f : Fn) (event : Option Event) (arg : H.Arg) :
    Chooses s (s.invoke f event arg) := by
  unfold invoke
  split
  · exact .calm ⟨⟨[_], rfl, rfl⟩, rfl⟩
  · split
    · exact .calm ⟨⟨[_], rfl, rfl⟩, rfl⟩
    · exact .calm ⟨⟨[_], rfl, rfl⟩, rfl⟩
    · exact .calm ⟨⟨[_], rfl, rfl⟩, rfl⟩
    · exact .calm ⟨⟨[], rfl, rfl⟩, rfl⟩
    · exact .called (.push s rfl) rfl

/-- Whatever a step does, a slot is chosen by a call or by a `next`, unless a frame goes on that has
    waited. -/
theorem step_chooses : Chooses { s with frames := s.waiting } s.step ∨
    ∃ entry event arg r, s.mode = .reply r ∧ ¬r.Unwound ∧
      s.frames = .entering entry event arg :: s.waiting := by
  obtain ⟨heap, memory, journal, frames, mode⟩ := s
  cases mode with
  | compare left right => exact .inl (.calm (compare_calm _ left right))
  | invoke entry f event arg => exact .inl (invoke_chooses _ f event arg)
  | reply r =>
    cases frames with
    | nil => exact .inl (.calm ⟨⟨[], rfl, rfl⟩, rfl⟩)
    | cons fr frames =>
      let s : State H := ⟨heap, memory, journal, frames, .reply r⟩
      cases fr with
      | user code owned => exact .inl (s.takeTurn_chooses code owned r)
      | await held => exact .inl (.calm ⟨⟨[_], rfl, rfl⟩, rfl⟩)
      | releasing todo answer =>
        refine .inl (.calm ?_)
        show (s.hear r (.releasing todo answer)).Calm frames
        rcases s.hear_releasing r todo answer with ⟨answer', -, hgoes⟩ | ⟨-, hstands⟩
        · rw [hgoes]
          exact s.releaseNext_calm todo answer'
        · rw [hstands]
          exact ⟨⟨[_], rfl, rfl⟩, rfl⟩
      | afterSimple event arg =>
        cases r with
        | fault f => exact .inl (.calm ⟨⟨[_], rfl, rfl⟩, rfl⟩)
        | _ => exact .inl (.moved (.push s (f := .await [.event event]) rfl) rfl)
      | entering entry event arg =>
        by_cases hr : r.Unwound
        · obtain ⟨f, rfl⟩ := hr
          exact .inl (.calm ⟨⟨[_], rfl, rfl⟩, rfl⟩)
        · exact .inr ⟨entry, event, arg, r, rfl, hr, rfl⟩
      | searching found =>
        have hsearch : Chooses s (s.search found.chain found.probe found.snapshot found.remaining) :=
          .calm (s.search_calm _ _ _ _)
        cases r with
        | fault f => exact .inl (.calm ⟨⟨[_], rfl, rfl⟩, rfl⟩)
        | flag same =>
          cases same with
          | true => exact .inl (.calm (s.detachFound_calm found))
          | false => exact .inl hsearch
        | _ => exact .inl hsearch

/-! ## Who receives an event -/

/-- `event` is handed to a listener that is being run through `entry`, or will be when a frame goes
    on that waits to run it. -/
def Delivers (s : State H) (entry : Entry) (event : Event) : Prop :=
  (∃ f arg, s.mode = .invoke (some entry) f (some event) arg) ∨
    ∃ arg, .entering entry event arg ∈ s.frames

end State

/-- `event` names the place `entry`: it belongs to a dispatch that has begun, and its recipient is the
    listener there. -/
structure Scene.Names (v : Scene) (event : Event) (entry : Entry) : Prop where
  dispatch : entry.dispatch = event.dispatch
  begun : event.dispatch < v.nextDispatch
  bears : v.Bears entry.chain entry.slot event.recipient

/-- The listener of a stored slot has been there, unless the deed has added the slot. -/
theorem Change.listener_cases {deed : Deed} {v w : Scene} (h : Change deed v w) (hv : v.Coherent)
    {c : ChainId} {x : SlotId} {l : Fn} {chain : Chain Fn} (hc : w.chains.get? c = some chain)
    (hl : chain.listener? x = some l) :
    (∃ old, v.chains.get? c = some old ∧ old.listener? x = some l) ∨
      ∃ placement, deed = .added c x placement := by
  -- a deed that changes one chain, and stores no listener in it
  have one {c' : ChainId} {old new : Chain Fn} (hold : v.chains.get? c' = some old)
      (hget : (v.setChain c' new).chains.get? c = some chain)
      (hnew : new.listener? x = some l → old.listener? x = some l) :
      ∃ old, v.chains.get? c = some old ∧ old.listener? x = some l := by
    rw [Scene.get?_setChain new hold] at hget
    split at hget
    · rename_i he
      obtain rfl := Option.some.inj hget
      exact ⟨old, he ▸ hold, hnew hl⟩
    · exact ⟨chain, hget, hl⟩
  cases h with
  | nothing => exact .inl ⟨chain, hc, hl⟩
  | stayed => exact .inl ⟨chain, hc, hl⟩
  | opened =>
    rw [Table.get?_insert] at hc
    split at hc
    · obtain rfl := Option.some.inj hc
      exact absurd hl (by simp [Chain.listener?, Table.get?, Table.find])
    · exact .inl ⟨chain, hc, hl⟩
  | @added _ c' old hold listener placement =>
    by_cases hnew : c' = c ∧ old.nextId = x
    · obtain ⟨rfl, rfl⟩ := hnew
      exact .inr ⟨placement, rfl⟩
    · rw [Scene.get?_setChain _ hold] at hc
      split at hc
      · rename_i he
        obtain rfl := Option.some.inj hc
        rw [Chain.listener?_add, if_neg fun hx => hnew ⟨he, hx⟩] at hl
        exact .inl ⟨old, he ▸ hold, hl⟩
      · exact .inl ⟨chain, hc, hl⟩
  | @detached _ c' old slot hold =>
    exact .inl (one hold hc (Chain.listener?_of_detach (hv c' old hold)))
  | cleared hold => exact .inl (one hold hc Chain.listener?_of_clear)
  | started hold => exact .inl (one hold hc fun hx => by rwa [Chain.listener?_pin] at hx)
  | moved _ hold =>
    refine .inl (one hold hc fun hx => ?_)
    rw [Chain.listener?_pin] at hx
    exact Chain.listener?_of_unpin hx
  | finished _ hold => exact .inl (one hold hc Chain.listener?_of_unpin)
  | closed _ hold => exact .inl (one hold hc Chain.listener?_of_unpin)
  | closedPast => exact .inl ⟨chain, hc, hl⟩
  | dropped =>
    rw [Table.get?_erase] at hc
    split at hc
    · exact absurd hc (by simp)
    · exact .inl ⟨chain, hc, hl⟩

theorem Change.names {deed : Deed} {v w : Scene} (h : Change deed v w) (hv : v.Coherent)
    {event : Event} {entry : Entry} (hn : v.Names event entry) : w.Names event entry where
  dispatch := hn.dispatch
  begun := Nat.lt_of_lt_of_le hn.begun h.nextDispatch_le
  bears := h.upholds hv (Chain.Bears.lasting _ _) hn.bears

namespace State

variable {s : State H} {entry : Entry} {event : Event}

/-- A frame that waits to run a listener is none of those pushed by a preparation. -/
theorem mem_of_pushed {p old : List (Frame H)} (hp : p.filterMap Frame.entry? = []) {arg : H.Arg}
    (h : .entering entry event arg ∈ p ++ old) : .entering entry event arg ∈ old := by
  rcases List.mem_append.1 h with hpushed | hold
  · have hmem : entry ∈ p.filterMap Frame.entry? := List.mem_filterMap.2 ⟨_, hpushed, rfl⟩
    rw [hp] at hmem
    exact absurd hmem (by simp)
  · exact hold

theorem Prepares.mem_waiting {t : State H} (h : Prepares { s with frames := s.waiting } t)
    {arg : H.Arg} (hf : .entering entry event arg ∈ t.frames) :
    .entering entry event arg ∈ s.frames := by
  obtain ⟨p, hp, he⟩ := h.entries
  exact s.waiting_suffix.subset (mem_of_pushed he (hp ▸ hf))

/-- In going from `s` to `t` the place `entry` has been chosen for `event`, whose recipient is the
    listener there. -/
structure Chosen (s t : State H) (entry : Entry) (event : Event) : Prop where
  dispatch : entry.dispatch = event.dispatch
  begun : event.dispatch < t.heap.scene.nextDispatch
  listener : ∃ chain, s.heap.chains.get? entry.chain = some chain ∧
    chain.listener? entry.slot = some event.recipient

theorem CallOutcome.delivers {t : State H} {c : ChainId} {arg : H.Arg} (h : s.CallOutcome c arg t)
    (ht : t.Delivers entry event) :
    (∃ arg, .entering entry event arg ∈ s.frames) ∨ s.Chosen t entry event := by
  cases h with
  | nothing =>
    rcases ht with ⟨f, arg, hmode⟩ | hf
    · exact absurd hmode (by simp [answer])
    · exact .inl hf
  | @started chain i l hc _ hl =>
    rcases ht with ⟨f, arg, hmode⟩ | ⟨arg, hf⟩
    · obtain ⟨he, -, hevent, -⟩ := Mode.invoke.inj hmode
      obtain rfl := Option.some.inj he
      obtain rfl := Option.some.inj hevent
      refine .inr ⟨rfl, ?_, chain, hc, hl⟩
      show s.heap.dispatches.nextId < (s.heap.started c i l).scene.nextDispatch
      rw [s.heap.scene_started i l hc]
      exact Nat.lt_succ_self _
    · exact .inl ⟨arg, mem_of_pushed (p := [.await [.function l]]) rfl hf⟩

theorem NextOutcome.delivers {t : State H} {event' : Event} {arg : H.Arg}
    (h : s.NextOutcome event' arg t) (ht : t.Delivers entry event) :
    (∃ arg, .entering entry event arg ∈ s.frames) ∨ s.Chosen t entry event := by
  rcases ht with ⟨f, arg, hmode⟩ | ⟨arg, hf⟩
  · -- no listener is run at once
    cases h <;> exact absurd hmode (by simp [answer, release])
  · cases h with
    | nowhere => exact .inl ⟨arg, hf⟩
    | past => exact .inl ⟨arg, mem_of_pushed (p := [.releasing _ _]) rfl hf⟩
    | ended => exact .inl ⟨arg, mem_of_pushed (p := [.releasing _ _]) rfl hf⟩
    | @moved c chain slot i l hd hc _ hl =>
      rcases List.mem_cons.1 hf with he | hf
      · exact absurd he (by simp)
      · rcases List.mem_cons.1 hf with he | hf
        · obtain ⟨rfl, rfl, -⟩ := Frame.entering.inj he
          refine .inr ⟨rfl, ?_, chain, hc, Chain.listener?_of_unpin hl⟩
          have hscene := s.heap.scene_moved (chain.unpin slot).2 i l hd hc
          show event'.dispatch < (s.heap.moved event'.dispatch c _ i l).scene.nextDispatch
          rw [hscene]
          exact s.heap.dispatches.stored_lt (by rw [Table.contains, Pool.get?_stored, hd]; rfl)
        · exact .inl ⟨arg, mem_of_pushed (p := [.await [.function l]]) rfl hf⟩

end State

/-- What is delivered after a step was to be delivered before it, or the step has chosen the slot,
    which is stored and has the recipient for its listener. -/
theorem Reachable.delivers_step {s : State H} (hs : Reachable s) {entry : Entry} {event : Event}
    (h : s.step.Delivers entry event) :
    s.Delivers entry event ∨ s.step.heap.scene.Names event entry ∧
      ∃ chain, s.heap.scene.chains.get? entry.chain = some chain ∧
        chain.listener? entry.slot = some event.recipient := by
  -- what is chosen is a stored slot, and the step leaves it its listener
  have hchosen {u : State H} (hu : State.Prepares { s with frames := s.waiting } u)
      (h : (∃ arg, .entering entry event arg ∈ u.frames) ∨ u.Chosen s.step entry event) :
      s.Delivers entry event ∨ s.step.heap.scene.Names event entry ∧
        ∃ chain, s.heap.scene.chains.get? entry.chain = some chain ∧
          chain.listener? entry.slot = some event.recipient := by
    rcases h with ⟨arg, hf⟩ | hchosen
    · exact .inl (.inr ⟨arg, hu.mem_waiting hf⟩)
    · obtain ⟨chain, hc, hl⟩ := hchosen.listener
      have hc' : s.heap.scene.chains.get? entry.chain = some chain := by
        rw [← show u.heap.scene = s.heap.scene from hu.scene, Heap.get?_scene_chains, hc]
      have hbears : s.heap.scene.Bears entry.chain entry.slot event.recipient := by
        refine ⟨hs.accounted.chain_lt _ chain hc', fun chain' hget => ?_⟩
        obtain rfl := Option.some.inj (hc'.symm.trans hget)
        exact Chain.bears_of_listener? (hs.coherent _ chain hc') hl
      obtain ⟨deed, hdoes⟩ := s.step_does
      exact .inr ⟨⟨hchosen.dispatch, hchosen.begun,
        hdoes.change.upholds hs.coherent (Chain.Bears.lasting _ _) hbears⟩, chain, hc', hl⟩
  rcases s.step_chooses with hchooses | ⟨entry', event', arg', r, hreply, hcalm, htop⟩
  · cases hchooses with
    | calm hcalm =>
      obtain ⟨pushed, hpushed, hnone⟩ := hcalm.stack
      rcases h with ⟨f, arg, hmode⟩ | ⟨arg, hf⟩
      · have hentry := hcalm.mode
        rw [hmode] at hentry
        exact absurd hentry (by simp [Mode.entry?])
      · rw [hpushed] at hf
        exact .inl (.inr ⟨arg, s.waiting_suffix.subset (State.mem_of_pushed hnone hf)⟩)
    | @called u c arg hu ht =>
      have houtcome := u.startCall_outcome c arg
      rw [← ht] at houtcome
      exact hchosen hu (houtcome.delivers h)
    | @moved u event' arg hu ht =>
      have houtcome := u.advance_outcome event' arg
      rw [← ht] at houtcome
      exact hchosen hu (houtcome.delivers h)
  · have hstep := State.step_of_top htop hreply
    rw [hstep, State.hear_entering _ hcalm] at h
    rcases h with ⟨f, arg, hinvoke⟩ | ⟨arg, hf⟩
    · obtain ⟨he, -, hevent, -⟩ := Mode.invoke.inj hinvoke
      obtain rfl := Option.some.inj he
      obtain rfl := Option.some.inj hevent
      exact .inl (.inr ⟨arg', htop ▸ List.mem_cons_self⟩)
    · exact .inl (.inr ⟨arg, s.waiting_suffix.subset hf⟩)

/-- An event names the place that its listener is run through. -/
theorem Reachable.delivered {s : State H} (hs : Reachable s) {entry : Entry} {event : Event}
    (h : s.Delivers entry event) : s.heap.scene.Names event entry := by
  induction hs with
  | begin n code memory =>
    rcases h with ⟨f, arg, hmode⟩ | ⟨arg, hf⟩
    · exact absurd hmode (by simp [State.begin])
    · exact absurd hf (by simp [State.begin])
  | step hs ih =>
    rcases hs.delivers_step h with hold | ⟨hnames, -⟩
    · obtain ⟨deed, hdoes⟩ := State.step_does _
      exact hdoes.change.names hs.coherent (ih hold)
    · exact hnames

/-- It does so ever after. -/
theorem Reachable.names_after {s : State H} (hs : Reachable s) {entry : Entry} {event : Event}
    (h : s.heap.scene.Names event entry) (n : Nat) : (s.after n).heap.scene.Names event entry := by
  induction n with
  | zero => exact h
  | succ n ih =>
    obtain ⟨deed, hdoes⟩ := (s.after n).step_does
    exact hdoes.change.names (hs.after n).coherent ih

/-- Whatever is run through a slot receives an event, and it is the recipient of that event. -/
theorem Reachable.invoke_of_entry? {s : State H} (hs : Reachable s) {entry : Entry}
    (h : s.mode.entry? = some entry) :
    ∃ event arg, s.mode = .invoke (some entry) event.recipient (some event) arg := by
  cases hs with
  | begin n code memory => exact absurd h (by simp [State.begin, Mode.entry?])
  | @step s hs =>
    rcases s.step_chooses with hchooses | ⟨entry', event, arg, r, hreply, hcalm, htop⟩
    · cases hchooses with
      | calm hcalm => exact absurd (hcalm.mode.symm.trans h) (by simp)
      | @called u c arg _ ht =>
        have houtcome := u.startCall_outcome c arg
        rw [← ht] at houtcome
        generalize s.step = t at houtcome h
        cases houtcome with
        | nothing => exact absurd h (by simp [State.answer, Mode.entry?])
        | @started chain i l =>
          obtain rfl := Option.some.inj h
          exact ⟨⟨u.heap.dispatches.nextId, l⟩, arg, rfl⟩
      | @moved u event arg _ ht =>
        have houtcome := u.advance_outcome event arg
        rw [← ht] at houtcome
        generalize s.step = t at houtcome h
        cases houtcome <;> exact absurd h (by simp [State.answer, State.release, Mode.entry?])
    · have hstep := State.step_of_top htop hreply
      rw [hstep, State.hear_entering _ hcalm] at h ⊢
      obtain rfl := Option.some.inj h
      exact ⟨event, _, rfl⟩

end Relay
