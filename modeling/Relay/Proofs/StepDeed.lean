/-
  Every step of a run does exactly one deed.

  `Does deed s t` says that `t` comes from `s` by doing `deed`, and by pushing frames: what the deed
  leaves of chains and dispatches, what it adds to the record of added slots, and which places in
  chains are waiting to be entered because of it.  Most functions of a step first look things up,
  take shares and push frames, which is `Prepares`, and then do their deed.  The main result is
  `step_does`: it holds of ALL states, reachable or not.
-/
import Relay.Proofs.Change

namespace Relay

variable {H : Host}

/-! ## What can be seen of a state -/

/-- The place a frame is about to run a listener through. -/
def Frame.entry? : Frame H → Option Entry
  | .entering e _ _ => some e
  | _ => none

/-- The place a listener is being run through. -/
def Mode.entry? : Mode H → Option Entry
  | .invoke e _ _ _ => e
  | _ => none

/-- A slot that was added, and where. -/
def Note.addition? {T : Vocabulary} : Note T → Option (ChainId × SlotId × Placement)
  | .added c slot placement _ => some (c, slot, placement)
  | _ => none

/-- The dispatch whose `next` a request calls. -/
def Request.next? {T : Vocabulary} (h : Heap T) : Request T → Option DispatchId
  | .next i _ => (h.eventOf i).map (·.dispatch)
  | _ => none

namespace State

/-- All slots ever added, LATEST first. -/
def additions (s : State H) : List (ChainId × SlotId × Placement) :=
  s.journal.filterMap Note.addition?

/-- The dispatch whose `next` the coming step calls. -/
def onward (s : State H) : Option DispatchId :=
  match s.mode, s.frames with
  | .reply r, .user code _ :: _ =>
    match (H.resume code r s.memory).act with
    | .request rq _ => rq.next? s.heap
    | _ => none
  | .reply (.fault _), .afterSimple _ _ :: _ => none
  | .reply _, .afterSimple event _ :: _ => some event.dispatch
  | _, _ => none

/-- The calls that go on after the coming step as they are. -/
def waiting (s : State H) : List (Frame H) :=
  match s.mode with
  | .reply _ => s.frames.tail
  | _ => s.frames

/-- The place whose listener the coming step begins to run after waiting for it; what waits to enter
    does not once it hears a fault. -/
def resumed (s : State H) : Option Entry :=
  match s.mode with
  | .reply r =>
    match s.frames, r with
    | .entering _ _ _ :: _, .fault _ => none
    | .entering entry _ _ :: _, _ => some entry
    | _, _ => none
  | _ => none

/-! ## Doing and preparing -/

/-- `t` comes from `s` by a deed and by pushing frames. -/
structure Does (deed : Deed) (s t : State H) : Prop where
  change : Change deed s.heap.scene t.heap.scene
  additions : t.additions = deed.additions ++ s.additions
  entries : ∃ pushed, t.frames = pushed ++ s.frames ∧
    pushed.filterMap Frame.entry? ++ t.mode.entry?.toList = deed.entry?.toList

/-- `t` comes from `s` by doing nothing to chains and dispatches, and by pushing frames. -/
structure Prepares (s t : State H) : Prop where
  scene : t.heap.scene = s.heap.scene
  additions : t.additions = s.additions
  entries : ∃ pushed, t.frames = pushed ++ s.frames ∧ pushed.filterMap Frame.entry? = []

namespace Prepares

variable {s t u : State H}

theorem refl (s : State H) : Prepares s s := ⟨rfl, rfl, [], rfl, rfl⟩

theorem trans (h : Prepares s t) (h' : Prepares t u) : Prepares s u := by
  obtain ⟨p, hp, he⟩ := h.entries
  obtain ⟨q, hq, he'⟩ := h'.entries
  refine ⟨h'.scene.trans h.scene, h'.additions.trans h.additions, q ++ p, ?_, ?_⟩
  · rw [hq, hp, List.append_assoc]
  · rw [List.filterMap_append, he', he]
    rfl

/-- What comes after a preparation counts from its beginning. -/
theorem does (h : Prepares s t) {deed : Deed} (h' : Does deed t u) : Does deed s u := by
  obtain ⟨p, hp, he⟩ := h.entries
  obtain ⟨q, hq, he'⟩ := h'.entries
  refine ⟨h.scene ▸ h'.change, by rw [h'.additions, h.additions], q ++ p, ?_, ?_⟩
  · rw [hq, hp, List.append_assoc]
  · rw [List.filterMap_append, he, List.append_nil, he']

theorem push (s : State H) {f : Frame H} (hf : f.entry? = none) : Prepares s (s.push f) :=
  ⟨rfl, rfl, [f], rfl, by rw [List.filterMap_cons, hf]; rfl⟩

/-- The heap may change in any way that its scene does not show. -/
theorem heap (s : State H) {h : Heap H.toVocabulary} (hh : h.scene = s.heap.scene) :
    Prepares s { s with heap := h } := ⟨hh, rfl, [], rfl, rfl⟩

theorem report (s : State H) {n : Note H.toVocabulary} (hn : n.addition? = none) :
    Prepares s (s.report n) :=
  ⟨rfl, by
    show (n :: s.journal).filterMap Note.addition? = _
    rw [List.filterMap_cons, hn]
    rfl, [], rfl, rfl⟩

theorem hold (s : State H) (handles : List HandleId) : Prepares s (s.hold handles) :=
  (heap s (s.heap.scene_retainAll _)).trans (push _ rfl)

theorem seize (s : State H) (i : HandleId) : Prepares s (s.seize i).2 := heap s rfl

/-- Doing nothing after a preparation: only the mode is left to say. -/
theorem mode (h : Prepares s t) {m : Mode H} (hm : m.entry? = none) :
    Does .nothing s { t with mode := m } := by
  obtain ⟨p, hp, he⟩ := h.entries
  refine ⟨?_, h.additions, p, hp, ?_⟩
  · show Change _ _ t.heap.scene
    rw [h.scene]
    exact .nothing _
  · show p.filterMap Frame.entry? ++ m.entry?.toList = _
    rw [he, hm]
    rfl

theorem answer (h : Prepares s t) (r : Reply H.toVocabulary) : Does .nothing s (t.answer r) :=
  h.mode rfl

theorem release (h : Prepares s t) (refs : List Ref) (r : Reply H.toVocabulary) :
    Does .nothing s (t.release refs r) :=
  (h.trans (push t rfl)).answer .done

theorem handOut (h : Prepares s t) (ref : Ref) : Does .nothing s (t.handOut ref) :=
  (h.trans (heap t (h := (t.heap.wrapUp ref).2) rfl)).answer _

end Prepares

/-- A quiet deed was done. -/
def DoesQuietly (s t : State H) : Prop := ∃ deed : Deed, deed.next? = none ∧ Does deed s t

theorem DoesQuietly.of_nothing {s t : State H} (h : Does .nothing s t) : DoesQuietly s t :=
  ⟨.nothing, rfl, h⟩

theorem Prepares.quietly {s t u : State H} (h : Prepares s t) (h' : DoesQuietly t u) :
    DoesQuietly s u := by
  obtain ⟨deed, hn, hd⟩ := h'
  exact ⟨deed, hn, h.does hd⟩

/-! ## The functions of a step -/

theorem CallOutcome.does {s t : State H} {c : ChainId} {arg : H.Arg} (h : s.CallOutcome c arg t) :
    DoesQuietly s t := by
  cases h with
  | nothing => exact .of_nothing ((Prepares.refl s).answer _)
  | @started chain i l hc hfirst hl =>
    refine ⟨.started ⟨c, i, s.heap.dispatches.nextId⟩, rfl, ?_, rfl, [_], rfl, rfl⟩
    show Change _ _ (s.heap.started c i l).scene
    rw [s.heap.scene_started i l hc]
    exact .started (by rw [Heap.get?_scene_chains, hc]) hfirst

theorem startCall_does (s : State H) (c : ChainId) (arg : H.Arg) :
    DoesQuietly s (s.startCall c arg) :=
  (s.startCall_outcome c arg).does

theorem detachFound_does (s : State H) (found : Search) : DoesQuietly s (s.detachFound found) := by
  unfold detachFound
  dsimp only
  split
  · exact .of_nothing ((Prepares.refl s).release _ _)
  · rename_i chain hc
    split
    · rename_i hslot
      refine ⟨.detached found.chain found.candidate, rfl, ?_, rfl, [_], rfl, rfl⟩
      show Change _ _ (Heap.scene { s.heap with
        chains := s.heap.chains.modify found.chain fun _ => (chain.detach found.candidate).2 })
      rw [s.heap.scene_modifyChain found.chain _ hc]
      exact .detached (by rw [Heap.get?_scene_chains, hc]) hslot
    · exact .of_nothing ((Prepares.refl s).release _ _)

theorem search_does (s : State H) (c : ChainId) (probe : Fn)
    (snapshot remaining : List (SlotId × Fn)) :
    DoesQuietly s (s.search c probe snapshot remaining) := by
  cases remaining with
  | nil => exact .of_nothing ((Prepares.report s rfl).release _ _)
  | cons e rest => exact .of_nothing ((Prepares.push s rfl).mode rfl)

theorem startRemove_does (s : State H) (c : ChainId) (probe : Fn) :
    DoesQuietly s (s.startRemove c probe) :=
  (Prepares.heap s (s.heap.scene_retainAll _)).quietly (search_does _ _ _ _ _)

theorem link_does (s : State H) (c : ChainId) (listener : Fn) (placement : Placement) :
    DoesQuietly s (s.link c listener placement) := by
  unfold link
  split
  · exact .of_nothing ((Prepares.refl s).answer _)
  · rename_i chain hc
    refine ⟨.added c chain.nextId placement, rfl, ?_, rfl, [], rfl, rfl⟩
    show Change _ _ (Heap.scene { s.heap with chains := s.heap.chains.modify c fun _ => _ })
    rw [s.heap.scene_modifyChain c _ hc]
    have hc' : s.heap.scene.chains.get? c = some chain := by rw [Heap.get?_scene_chains, hc]
    cases placement with
    | front => exact .added hc' listener .front
    | back => exact .added hc' listener .back

/-- A `next` on a dispatch that stands nowhere leaves the scene alone. -/
theorem Prepares.stays {s t u : State H} (h : Prepares s t) (h' : Does .nothing t u)
    {d : DispatchId} (hd : ∀ c slot, s.heap.scene.dispatches.get? d = some ⟨c, some slot⟩ →
      s.heap.scene.chains.get? c = none) (hscene : u.heap.scene = s.heap.scene) :
    Does (.stayed d) s u := by
  have hdone := h.does h'
  refine ⟨?_, hdone.additions, hdone.entries⟩
  rw [hscene]
  exact .stayed hd

theorem NextOutcome.does {s t : State H} {event : Event} {arg : H.Arg}
    (h : s.NextOutcome event arg t) :
    ∃ deed : Deed, deed.next? = some event.dispatch ∧ Does deed s t := by
  -- what is looked up in the heap is found in its scene
  have hchain {c : ChainId} {chain : Chain Fn} (hc : s.heap.chains.get? c = some chain) :
      s.heap.scene.chains.get? c = some chain := by rw [Heap.get?_scene_chains, hc]
  have hdispatch {e : Dispatch} (hd : s.heap.dispatches.get? event.dispatch = some e) :
      s.heap.scene.dispatches.get? event.dispatch = some e := by rw [Heap.get?_scene_dispatches, hd]
  cases h with
  | nowhere hgone =>
    have hnowhere : ∀ c slot, s.heap.scene.dispatches.get? event.dispatch = some ⟨c, some slot⟩ →
        s.heap.scene.chains.get? c = none := by
      intro c slot hd
      rw [Heap.get?_scene_dispatches] at hd
      rw [Heap.get?_scene_chains]
      exact hgone _ hd
    exact ⟨.stayed event.dispatch, rfl,
      (Prepares.refl s).stays ((Prepares.refl s).answer _) hnowhere rfl⟩
  | @past c chain hd hc =>
    have hd' := hdispatch hd
    -- the chain and the dispatch are written back as they were
    have hscene : (s.heap.ended event.dispatch c chain).scene = s.heap.scene := by
      rw [s.heap.scene_ended chain hd hc, Scene.setChain, Table.modify_self _ (hchain hc),
        Scene.setDispatch, Table.modify_self _ hd']
    have hnowhere : ∀ c' slot, s.heap.scene.dispatches.get? event.dispatch = some ⟨c', some slot⟩ →
        s.heap.scene.chains.get? c' = none := by
      intro c' slot hstands
      exact absurd (hd'.symm.trans hstands) (by simp)
    exact ⟨.stayed event.dispatch, rfl,
      (Prepares.heap s hscene).stays ((Prepares.refl _).release _ _) hnowhere hscene⟩
  | @ended c chain slot hd hc hend =>
    refine ⟨.finished event.dispatch, rfl, ?_, rfl, [_], rfl, rfl⟩
    show Change _ _ (s.heap.ended event.dispatch c (chain.unpin slot).2).scene
    rw [s.heap.scene_ended _ hd hc]
    exact .finished (hdispatch hd) (hchain hc) hend
  | @moved c chain slot i l hd hc hnext hl =>
    refine ⟨.moved ⟨c, i, event.dispatch⟩, rfl, ?_, rfl, [_, _, _], rfl, rfl⟩
    show Change _ _ (s.heap.moved event.dispatch c (chain.unpin slot).2 i l).scene
    rw [s.heap.scene_moved _ i l hd hc]
    exact .moved (hdispatch hd) (hchain hc) hnext

/-- The one function that calls `next`: the dispatch moves on, ends, or stands nowhere. -/
theorem advance_does (s : State H) (event : Event) (arg : H.Arg) :
    ∃ deed : Deed, deed.next? = some event.dispatch ∧ Does deed s (s.advance event arg) :=
  (s.advance_outcome event arg).does

/-- Clearing a chain; what is not there is not cleared. -/
theorem clearAll_does (s : State H) (c : ChainId) (shuffle : Shuffle) (freed : List Ref) (n : Nat) :
    DoesQuietly s (({ s with heap := { s.heap with
      chains := s.heap.chains.modify c fun _ => (((s.heap.chains.get? c).getD {}).clear shuffle).2 } }.report
        (.cleared c n)).release freed .done) := by
  cases hc : s.heap.chains.get? c with
  | none =>
    refine .of_nothing (((Prepares.heap s ?_).trans (Prepares.report _ rfl)).release _ _)
    show (⟨(s.heap.chains.modify c _).stored, _, _, _⟩ : Scene) = _
    rw [Pool.stored_modify, Table.modify_of_none _ _ (by rw [Pool.get?_stored, hc])]
    rfl
  | some chain =>
    refine ⟨.cleared c, rfl, ?_, rfl, [_], rfl, rfl⟩
    show Change _ _
      (Heap.scene { s.heap with chains := s.heap.chains.modify c fun _ => (chain.clear shuffle).2 })
    rw [s.heap.scene_modifyChain c _ hc]
    exact .cleared (by rw [Heap.get?_scene_chains, hc])

theorem invoke_does (s : State H) (f : Fn) (event : Option Event) (arg : H.Arg) :
    DoesQuietly s (s.invoke f event arg) := by
  unfold invoke
  split
  · exact .of_nothing ((Prepares.refl s).release _ _)
  · split
    · rename_i e _
      have hwrapped := Prepares.heap s (h := (s.heap.wrapUp (.event e)).2) rfl
      exact .of_nothing ((hwrapped.trans (Prepares.push _ rfl)).answer _)
    · exact .of_nothing ((Prepares.push s rfl).answer _)
    · exact .of_nothing ((Prepares.push s rfl).mode rfl)
    · exact .of_nothing ((Prepares.refl s).mode rfl)
    · exact (Prepares.push s rfl).quietly (startCall_does _ _ _)

theorem compare_does (s : State H) (left right : Fn) : DoesQuietly s (s.compare left right) := by
  refine .of_nothing ?_
  have h := Prepares.refl s
  unfold compare
  split
  · exact h.answer _
  · split
    · split
      · exact h.answer _
      · exact h.mode rfl
      · exact (Prepares.push s rfl).answer _
      · exact h.answer _
    · exact h.answer _

/-- Whatever a program asks for is one deed. -/
theorem ask_does (s : State H) (rq : Request H.toVocabulary) :
    ∃ deed : Deed, deed.next? = rq.next? s.heap ∧ Does deed s (s.ask rq) := by
  have h := Prepares.refl s
  -- no request but `next` calls the `next` of a dispatch
  have quiet {t : State H} (ht : DoesQuietly s t) (hrq : rq.next? s.heap = none) :
      ∃ deed : Deed, deed.next? = rq.next? s.heap ∧ Does deed s t := by
    rw [hrq]
    exact ht
  cases rq with
  | makeEmpty => exact quiet (.of_nothing (h.handOut _)) rfl
  | make native rule keeps =>
    exact quiet (.of_nothing ((Prepares.heap s (h := (s.heap.store _).2) rfl).handOut _)) rfl
  | copy i =>
    refine quiet ?_ rfl
    unfold ask
    dsimp only
    split
    · exact .of_nothing (h.answer _)
    · exact .of_nothing ((Prepares.heap s (s.heap.scene_retain _)).handOut _)
  | openChain =>
    refine quiet ⟨.opened, rfl, ?_, rfl, [], rfl, rfl⟩ rfl
    show Change _ _ (⟨(s.heap.chains.alloc {}).2.stored, _, _, _⟩ : Scene)
    rw [Pool.stored_alloc]
    exact .opened s.heap.scene
  | share i => exact quiet (.of_nothing ((Prepares.heap s (s.heap.scene_retain _)).answer _)) rfl
  | discard i => exact quiet (.of_nothing (h.release _ _)) rfl
  | add chain function placement =>
    refine quiet ?_ rfl
    unfold ask
    dsimp only
    split
    · exact .of_nothing ((Prepares.report s rfl).answer _)
    · exact (Prepares.heap s (s.heap.scene_retain _)).quietly (link_does _ _ _ _)
    · exact .of_nothing (h.answer _)
  | addSimple chain function placement =>
    refine quiet ?_ rfl
    unfold ask
    dsimp only
    split
    · exact .of_nothing ((Prepares.report s rfl).answer _)
    · rename_i inner _ _ _
      exact (Prepares.heap s (h := ((s.heap.retain (.function inner)).store _).2)
        (s.heap.scene_retain _)).quietly (link_does _ _ _ _)
    · exact .of_nothing (h.answer _)
  | remove chain function =>
    refine quiet ?_ rfl
    unfold ask
    dsimp only
    split
    · exact (Prepares.hold s _).quietly (startRemove_does _ _ _)
    · exact .of_nothing (h.answer _)
  | removeCurrent chain i =>
    refine quiet ?_ rfl
    unfold ask
    dsimp only
    split
    · exact (Prepares.hold s _).quietly (startRemove_does _ _ _)
    · exact .of_nothing (h.answer _)
  | removeSimple chain function =>
    refine quiet ?_ rfl
    unfold ask
    dsimp only
    split
    · rename_i inner _ _
      have hheld := Prepares.hold s [chain, function]
      exact ((hheld.trans (Prepares.heap _
        (h := (((s.hold [chain, function]).heap.retain (.function inner)).store _).2)
        (Heap.scene_retain _ _))).trans (Prepares.push _ rfl)).quietly (startRemove_does _ _ _)
    · exact .of_nothing (h.answer _)
  | removeNative chain native =>
    refine quiet ?_ rfl
    unfold ask
    dsimp only
    split
    · have hheld := Prepares.hold s [chain]
      exact ((hheld.trans (Prepares.heap _ (h := ((s.hold [chain]).heap.store _).2) rfl)).trans
        (Prepares.push _ rfl)).quietly (startRemove_does _ _ _)
    · exact .of_nothing (h.answer _)
  | clear chain =>
    refine quiet ?_ rfl
    unfold ask
    dsimp only
    split
    · exact .of_nothing (h.answer _)
    · rename_i c _
      exact (Prepares.hold s [chain]).quietly (clearAll_does _ c _ _ _)
  | size chain =>
    refine quiet (.of_nothing ?_) rfl
    unfold ask
    dsimp only
    split <;> exact h.answer _
  | call chain arg =>
    refine quiet ?_ rfl
    unfold ask
    dsimp only
    split
    · exact .of_nothing (h.answer _)
    · exact (Prepares.hold s _).quietly (startCall_does _ _ _)
  | next i arg =>
    unfold ask Request.next?
    dsimp only
    split
    · rename_i hi
      rw [hi]
      exact ⟨.nothing, rfl, h.answer _⟩
    · rename_i event hi
      obtain ⟨deed, hn, hd⟩ := advance_does (s.hold [i]) event arg
      rw [hi]
      exact ⟨deed, hn, (Prepares.hold s [i]).does hd⟩
  | apply function arg =>
    refine quiet (.of_nothing ?_) rfl
    unfold ask
    dsimp only
    split
    · exact h.answer _
    · exact (Prepares.hold s _).mode rfl
  | deliver function i arg guarded =>
    refine quiet (.of_nothing ?_) rfl
    unfold ask
    dsimp only
    split
    · have hseized := Prepares.seize s i
      split
      · rename_i t ht
        rw [ht] at hseized
        exact hseized.answer _
      · rename_i t ht
        rw [ht] at hseized
        have hheld := hseized.trans (Prepares.hold t [function])
        split
        · exact hheld.release _ _
        · exact hheld.mode rfl
    · exact h.answer _
  | wrap chain =>
    refine quiet (.of_nothing ?_) rfl
    unfold ask
    dsimp only
    split
    · have hseized := Prepares.seize s chain
      split
      · rename_i t ht
        rw [ht] at hseized
        exact hseized.answer _
      · rename_i t ht
        rw [ht] at hseized
        exact (hseized.trans (Prepares.heap t (h := (t.heap.store _).2) rfl)).handOut _
    · exact h.answer _
  | same left right =>
    refine quiet (.of_nothing ?_) rfl
    unfold ask
    dsimp only
    split
    · exact (Prepares.hold s _).mode rfl
    · exact h.answer _
  | kindOf function =>
    refine quiet (.of_nothing ?_) rfl
    unfold ask
    dsimp only
    split <;> exact h.answer _
  | finished i =>
    refine quiet (.of_nothing ?_) rfl
    unfold ask
    dsimp only
    split <;> exact h.answer _

/-- What a program says adds no slot. -/
theorem Prepares.turn (s : State H) (memory : H.Memory) (said : List H.Word) :
    Prepares s { s with memory, journal := (said.map Note.said).reverse ++ s.journal } := by
  refine ⟨rfl, ?_, [], rfl, rfl⟩
  have hsaid :
      (said.map (Note.said (T := H.toVocabulary))).reverse.filterMap Note.addition? = [] := by
    rw [← List.map_reverse, List.filterMap_map]
    exact List.filterMap_eq_nil_iff.2 fun _ _ => rfl
  show ((said.map Note.said).reverse ++ s.journal).filterMap Note.addition? = _
  rw [List.filterMap_append, hsaid, List.nil_append]
  rfl

theorem takeTurn_does (s : State H) (code : H.Code) (owned : List Ref) (r : Reply H.toVocabulary) :
    ∃ deed : Deed, deed.next? = (match (H.resume code r s.memory).act with
      | .request rq _ => rq.next? s.heap
      | _ => none) ∧ Does deed s (s.takeTurn code owned r) := by
  unfold takeTurn
  dsimp only
  -- of the program nothing is known, so its turn may be anything
  generalize H.resume code r s.memory = turn
  obtain ⟨memory, said, act⟩ := turn
  have hturn := Prepares.turn s memory said
  cases act with
  | finish r => exact ⟨.nothing, rfl, hturn.release _ _⟩
  | pause code => exact ⟨.nothing, rfl, (hturn.trans (.push _ rfl)).answer _⟩
  | request rq code =>
    have hpush := hturn.trans (.push _ (f := .user code owned) rfl)
    obtain ⟨deed, hn, hd⟩ := ask_does ({ s with
      memory, journal := (said.map Note.said).reverse ++ s.journal }.push (.user code owned)) rq
    exact ⟨deed, hn, hpush.does hd⟩

theorem releaseNext_does (s : State H) (todo : List Ref) (r : Reply H.toVocabulary) :
    DoesQuietly s (s.releaseNext todo r) := by
  unfold releaseNext
  cases todo with
  | nil => exact .of_nothing ((Prepares.refl s).answer _)
  | cons ref rest =>
    dsimp only
    obtain ⟨deed, hlets, hchange⟩ := s.heap.release_change ref
    obtain ⟨hnext, hentry, hadditions⟩ := hlets.quiet
    -- whether a destructor starts because of it or not, the deed is done
    split
    · refine ⟨deed, hnext, hchange, ?_, [_], rfl, ?_⟩
      · rw [hadditions]
        rfl
      · rw [hentry]
        rfl
    · refine ⟨deed, hnext, hchange, ?_, [_, _], rfl, ?_⟩
      · rw [hadditions]
        rfl
      · rw [hentry]
        rfl

/-! ## A whole step -/

/-- What a step does: one deed, and of the calls in progress all go on but the one that hears an
    answer. -/
structure StepOf (deed : Deed) (s : State H) : Prop where
  next? : deed.next? = s.onward
  change : Change deed s.heap.scene s.step.heap.scene
  additions : s.step.additions = deed.additions ++ s.additions
  entries : ∃ pushed, s.step.frames = pushed ++ s.waiting ∧
    pushed.filterMap Frame.entry? ++ s.step.mode.entry?.toList =
      deed.entry?.toList ++ s.resumed.toList

/-- EVERY step of every run does one deed. -/
theorem step_does (s : State H) : ∃ deed : Deed, StepOf deed s := by
  obtain ⟨heap, memory, journal, frames, mode⟩ := s
  -- a deed that leaves no frame to enter with, from the state that the step function works on
  have of_does : ∀ {s t : State H} {deed : Deed},
      deed.next? = s.onward → s.step = t → s.resumed = none →
      Does deed { s with frames := s.waiting } t → StepOf deed s := by
    rintro s t deed hn rfl hr ⟨hc, ha, pushed, hp, he⟩
    exact ⟨hn, hc, ha, pushed, hp, by rw [he, hr, Option.toList_none, List.append_nil]⟩
  cases mode with
  | compare left right =>
    obtain ⟨deed, hn, hd⟩ :=
      compare_does ⟨heap, memory, journal, frames, .compare left right⟩ left right
    exact ⟨deed, of_does hn rfl rfl hd⟩
  | invoke entry f event arg =>
    obtain ⟨deed, hn, hd⟩ :=
      invoke_does ⟨heap, memory, journal, frames, .invoke entry f event arg⟩ f event arg
    exact ⟨deed, of_does hn rfl rfl hd⟩
  | reply r =>
    cases frames with
    | nil => exact ⟨.nothing, rfl, .nothing _, rfl, [], rfl, rfl⟩
    | cons fr frames =>
      let s : State H := ⟨heap, memory, journal, frames, .reply r⟩
      cases fr with
      | user code owned =>
        obtain ⟨deed, hn, hd⟩ := s.takeTurn_does code owned r
        exact ⟨deed, of_does hn rfl rfl hd⟩
      | await held => exact ⟨.nothing, of_does rfl rfl rfl ((Prepares.refl s).release _ _)⟩
      | releasing todo answer =>
        obtain ⟨deed, hn, hd⟩ : DoesQuietly s (s.hear r (.releasing todo answer)) := by
          rcases s.hear_releasing r todo answer with ⟨answer', -, hgoes⟩ | ⟨-, hstands⟩
          · rw [hgoes]
            exact s.releaseNext_does todo answer'
          · rw [hstands]
            exact .of_nothing ((Prepares.push s rfl).answer r)
        exact ⟨deed, of_does hn rfl rfl hd⟩
      | afterSimple event arg =>
        cases r with
        | fault f => exact ⟨.nothing, of_does rfl rfl rfl ((Prepares.refl s).release _ _)⟩
        | _ =>
          obtain ⟨deed, hn, hd⟩ := (s.push (.await [.event event])).advance_does event arg
          exact ⟨deed, of_does hn rfl rfl ((Prepares.push s rfl).does hd)⟩
      | entering entry event arg =>
        cases r with
        | fault f => exact ⟨.nothing, of_does rfl rfl rfl ((Prepares.refl s).release _ _)⟩
        | _ => exact ⟨.nothing, rfl, .nothing _, rfl, [], rfl, rfl⟩
      | searching found =>
        have hsearch :
            DoesQuietly s (s.search found.chain found.probe found.snapshot found.remaining) :=
          search_does _ _ _ _ _
        cases r with
        | fault f => exact ⟨.nothing, of_does rfl rfl rfl ((Prepares.refl s).release _ _)⟩
        | flag same =>
          obtain ⟨deed, hn, hd⟩ : DoesQuietly s (s.hear (.flag same) (.searching found)) := by
            cases same with
            | true => exact detachFound_does s found
            | false => exact hsearch
          exact ⟨deed, of_does hn rfl rfl hd⟩
        | _ =>
          obtain ⟨deed, hn, hd⟩ := hsearch
          exact ⟨deed, of_does hn rfl rfl hd⟩

end State

end Relay
