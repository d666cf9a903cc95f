/-
  What one step does to the LISTS of the chains, to the payloads and to the stack.

  `State.edit` reads off what is being asked, or off the search that has just found its match, what
  the coming step is to do to the list of a chain: add an entry at one end, take one out, or take
  all out.  `Yields edit s t` says that `t` comes from `s` by doing exactly that to the lists, by
  storing payloads but losing none, and by pushing frames in good order.  Every function of a step
  is such a passage, except that letting go of a share may end a payload or a chain.

  A stack is in good order if code owns handles only, and if the frame that waits to enter a slot
  lies right above the one that holds the listener of that slot.  So whenever a listener is started
  through a slot, the frame under it holds the listener.
-/
import Relay.Proofs.Listing

namespace Relay

variable {T : Vocabulary} {H : Host}

/-! ## Edits -/

/-- What happens to the list of one chain. -/
inductive Edit where
  | nothing
  | added (c : ChainId) (slot : SlotId) (placement : Placement) (listener : Fn)
  | detached (c : ChainId) (slot : SlotId)
  | cleared (c : ChainId)
  deriving DecidableEq, Repr

/-- What an edit makes of the list of the chain numbered `c`. -/
def Edit.on (c : ChainId) (list : List (SlotId × Fn)) : Edit → List (SlotId × Fn)
  | .nothing => list
  | .added c' slot placement listener =>
    if c' = c then placement.place (slot, listener) list else list
  | .detached c' slot => if c' = c then list.filter fun e => decide (e.1 ≠ slot) else list
  | .cleared c' => if c' = c then [] else list

/-- The number that the next slot of a chain gets. -/
def Heap.nextSlot (h : Heap T) (c : ChainId) : SlotId := ((h.chains.get? c).map (·.nextId)).getD 0

/-- What a request does to the lists at once.  An empty listener is ignored; a simple one is stored
    as a new payload. -/
def Request.edit (h : Heap T) : Request T → Edit
  | .add chain function placement =>
    match h.chainOf chain, h.functionOf function with
    | some c, some (some p) => .added c (h.nextSlot c) placement (some p)
    | _, _ => .nothing
  | .addSimple chain function placement =>
    match h.chainOf chain, h.functionOf function with
    | some c, some (some _) => .added c (h.nextSlot c) placement (some h.payloads.nextId)
    | _, _ => .nothing
  | .clear chain =>
    match h.chainOf chain with
    | some c => .cleared c
    | none => .nothing
  | _ => .nothing

/-- What the coming step does to the lists: what code asks for, or the end of a search. -/
def State.edit (s : State H) : Edit :=
  match s.mode, s.frames with
  | .reply r, .user code _ :: _ =>
    match (H.resume code r s.memory).act with
    | .request rq _ => rq.edit s.heap
    | _ => .nothing
  | .reply (.flag true), .searching found :: _ => .detached found.chain found.candidate
  | _, _ => .nothing

/-! ## Stacks in good order -/

/-- What a frame needs of itself and of those below it. -/
def Frame.Proper (below : List (Frame H)) : Frame H → Prop
  | .user _ owned => ∀ ref ∈ owned, ∃ i, ref = .handle i
  | .entering _ event _ => below.head? = some (.await [.function event.recipient])
  | _ => True

/-- Every frame has what it needs. -/
def Orderly : List (Frame H) → Prop
  | [] => True
  | f :: below => f.Proper below ∧ Orderly below

theorem Orderly.proper_of_mem {frames : List (Frame H)} (h : Orderly frames) {f : Frame H}
    (hf : f ∈ frames) : ∃ below, f.Proper below := by
  induction frames with
  | nil => exact absurd hf (by simp)
  | cons g below ih =>
    rcases List.mem_cons.1 hf with rfl | hrest
    · exact ⟨below, h.1⟩
    · exact ih h.2 hrest

namespace State

/-- A listener that is started through a slot is held by the frame under it. -/
def Backed (s : State H) : Prop :=
  ∀ e f event arg, s.mode = .invoke (some e) f event arg →
    s.frames.head? = some (.await [.function f])

/-- `t` comes from `s` by an edit of the lists, by storing payloads and by pushing frames. -/
structure Proceeds (edit : Edit) (s t : State H) : Prop where
  lists : ∀ c, t.heap.listing c = edit.on c (s.heap.listing c)
  kept : ∀ p, p < s.heap.payloads.nextId → t.heap.payloads.get? p = s.heap.payloads.get? p
  grown : s.heap.payloads.nextId ≤ t.heap.payloads.nextId
  stack : Orderly s.frames → Orderly t.frames

/-- The same, and nothing is started without the frame that holds it. -/
structure Yields (edit : Edit) (s t : State H) : Prop extends Proceeds edit s t where
  backed : t.Backed

/-! ## Moving on -/

namespace Proceeds

variable {edit : Edit} {s t u : State H}

theorem refl (s : State H) : Proceeds .nothing s s :=
  ⟨fun _ => rfl, fun _ _ => rfl, Nat.le_refl _, id⟩

theorem trans (h : Proceeds .nothing s t) (h' : Proceeds edit t u) : Proceeds edit s u where
  lists := fun c => by rw [h'.lists c, h.lists c]; rfl
  kept := fun p hp => (h'.kept p (Nat.lt_of_lt_of_le hp h.grown)).trans (h.kept p hp)
  grown := Nat.le_trans h.grown h'.grown
  stack := fun hs => h'.stack (h.stack hs)

theorem yields (h : Proceeds .nothing s t) (h' : Yields edit t u) : Yields edit s u :=
  ⟨h.trans h'.toProceeds, h'.backed⟩

/-- The heap may change in any way that neither lists nor payloads show. -/
theorem heap (s : State H) {h : Heap H.toVocabulary} (hl : ∀ c, h.listing c = s.heap.listing c)
    (hp : ∀ p, h.payloads.get? p = s.heap.payloads.get? p)
    (hn : h.payloads.nextId = s.heap.payloads.nextId) :
    Proceeds .nothing s { s with heap := h } :=
  ⟨hl, fun p _ => hp p, Nat.le_of_eq hn.symm, id⟩

theorem push (s : State H) (f : Frame H) (hf : f.Proper s.frames) :
    Proceeds .nothing s (s.push f) :=
  ⟨fun _ => rfl, fun _ _ => rfl, Nat.le_refl _, fun hs => And.intro hf hs⟩

/-- Code that owns nothing. -/
theorem pushCode (s : State H) (code : H.Code) : Proceeds .nothing s (s.push (.user code [])) :=
  push s (.user code []) fun _ href => absurd href List.not_mem_nil

theorem report (h : Proceeds edit s t) (n : Note H.toVocabulary) : Proceeds edit s (t.report n) :=
  ⟨h.lists, h.kept, h.grown, h.stack⟩

/-- Only the mode is left to say. -/
theorem mode (h : Proceeds edit s t) {m : Mode H} (hm : m.entry? = none) :
    Yields edit s { t with mode := m } := by
  refine ⟨⟨h.lists, h.kept, h.grown, h.stack⟩, fun e f event arg he => ?_⟩
  rw [show m = .invoke (some e) f event arg from he] at hm
  exact absurd hm (by simp [Mode.entry?])

theorem answer (h : Proceeds edit s t) (r : Reply H.toVocabulary) : Yields edit s (t.answer r) :=
  h.mode rfl

theorem release (h : Proceeds edit s t) (refs : List Ref) (r : Reply H.toVocabulary) :
    Yields edit s (t.release refs r) :=
  have hpushed : Proceeds edit s (t.push (.releasing refs r)) :=
    ⟨h.lists, h.kept, h.grown, fun hs => And.intro trivial (h.stack hs)⟩
  hpushed.answer .done

end Proceeds

end State

/-! ## The heap on the way -/

namespace Heap

theorem get?_payloads_retain (h : Heap T) (ref : Ref) (p : PayloadId) :
    (h.retain ref).payloads.get? p = h.payloads.get? p := by
  cases ref with
  | function f =>
    cases f with
    | none => rfl
    | some q => exact Pool.get?_retain _ _ _
  | event e =>
    obtain ⟨d, recipient⟩ := e
    cases recipient with
    | none => rfl
    | some q => exact Pool.get?_retain _ _ _
  | _ => rfl

theorem nextPayload_retain (h : Heap T) (ref : Ref) :
    (h.retain ref).payloads.nextId = h.payloads.nextId := by
  cases ref with
  | function f => cases f <;> rfl
  | event e =>
    obtain ⟨d, recipient⟩ := e
    cases recipient <;> rfl
  | _ => rfl

/-- Owners are no part of what the payloads are. -/
theorem payloads_retainAll (h : Heap T) (refs : List Ref) :
    (∀ p, (h.retainAll refs).payloads.get? p = h.payloads.get? p) ∧
      (h.retainAll refs).payloads.nextId = h.payloads.nextId := by
  induction refs generalizing h with
  | nil => exact ⟨fun _ => rfl, rfl⟩
  | cons ref rest ih =>
    obtain ⟨hget, hnext⟩ := ih (h.retain ref)
    exact ⟨fun p => (hget p).trans (h.get?_payloads_retain ref p),
      hnext.trans (h.nextPayload_retain ref)⟩

theorem listing_retainAll (h : Heap T) (refs : List Ref) (c : ChainId) :
    (h.retainAll refs).listing c = h.listing c :=
  listing_scene (h.scene_retainAll refs) c

end Heap

namespace State
namespace Proceeds

theorem retainAll (s : State H) (refs : List Ref) :
    Proceeds .nothing s { s with heap := s.heap.retainAll refs } :=
  heap s (s.heap.listing_retainAll refs) (s.heap.payloads_retainAll refs).1
    (s.heap.payloads_retainAll refs).2

theorem retain (s : State H) (ref : Ref) :
    Proceeds .nothing s { s with heap := s.heap.retain ref } :=
  retainAll s [ref]

/-- A new payload has a number of its own. -/
theorem store (s : State H) (load : Payload H.toVocabulary) :
    Proceeds .nothing s { s with heap := (s.heap.store load).2 } where
  lists := fun _ => rfl
  kept := fun _ hp => (Pool.get?_alloc _ _ _).trans (if_neg (Nat.ne_of_gt hp))
  grown := Nat.le_succ _
  stack := id

theorem wrapUp (s : State H) (ref : Ref) :
    Proceeds .nothing s { s with heap := (s.heap.wrapUp ref).2 } :=
  heap s (fun _ => rfl) (fun _ => rfl) rfl

theorem hold (s : State H) (handles : List HandleId) : Proceeds .nothing s (s.hold handles) :=
  (retainAll s _).trans (push _ (.await _) trivial)

theorem seize (s : State H) (i : HandleId) : Proceeds .nothing s (s.seize i).2 :=
  heap s (fun _ => rfl) (fun _ => rfl) rfl

theorem handOut {edit : Edit} {s t : State H} (h : Proceeds edit s t) (ref : Ref) :
    Yields edit s (t.handOut ref) :=
  have hmade : Proceeds edit s { t with heap := (t.heap.wrapUp ref).2 } :=
    ⟨h.lists, h.kept, h.grown, h.stack⟩
  hmade.answer _

/-- Of a program that takes its turn, memory and journal change. -/
theorem turn (s : State H) (memory : H.Memory) (journal : List (Note H.toVocabulary)) :
    Proceeds .nothing s { s with memory, journal } :=
  ⟨fun _ => rfl, fun _ _ => rfl, Nat.le_refl _, id⟩

end Proceeds

/-! ## The functions of a step -/

variable {s : State H}

theorem CallOutcome.yields {t : State H} {c : ChainId} {arg : H.Arg} (ho : s.CallOutcome c arg t)
    (hv : s.heap.scene.Coherent) : Yields .nothing s t := by
  cases ho with
  | nothing => exact (Proceeds.refl s).answer _
  | @started chain i l hc hfirst hl =>
    have hchain : chain.Coherent := hv c chain (by rw [Heap.get?_scene_chains, hc])
    have hlists := Heap.listing_setChain_same (g := s.heap.started c i l) hc
      (by rw [s.heap.scene_started i l hc]) (Chain.listing_pin hchain i)
    have hpayloads := Heap.payloads_retainAll
      { s.heap with
        chains := (s.heap.chains.modify c (·.pin i)).retain c
        dispatches := (s.heap.dispatches.alloc ⟨c, some i⟩).2 } [.function l, .function l]
    have hheap : Proceeds .nothing s { s with heap := s.heap.started c i l } :=
      .heap s hlists hpayloads.1 hpayloads.2
    have hpushed : Proceeds .nothing s
        (State.push { s with heap := s.heap.started c i l } (.await [.function l])) :=
      hheap.trans (.push { s with heap := s.heap.started c i l } (.await _) trivial)
    refine ⟨⟨hpushed.lists, hpushed.kept, hpushed.grown, hpushed.stack⟩, ?_⟩
    intro e f event arg' hmode
    obtain ⟨-, rfl, -⟩ := Mode.invoke.inj hmode
    rfl

theorem startCall_yields (hv : s.heap.scene.Coherent) (c : ChainId) (arg : H.Arg) :
    Yields .nothing s (s.startCall c arg) :=
  (s.startCall_outcome c arg).yields hv

theorem NextOutcome.yields {t : State H} {event : Event} {arg : H.Arg}
    (ho : s.NextOutcome event arg t) (hv : s.heap.scene.Coherent) : Yields .nothing s t := by
  have hcoherent {c : ChainId} {chain : Chain Fn} (hc : s.heap.chains.get? c = some chain) :
      chain.Coherent := hv c chain (by rw [Heap.get?_scene_chains, hc])
  cases ho with
  | nowhere => exact (Proceeds.refl s).answer _
  | @past c chain hd hc =>
    have hlists := Heap.listing_setChain_same (g := s.heap.ended event.dispatch c chain) hc
      (by rw [s.heap.scene_ended chain hd hc, Scene.setDispatch]) rfl
    have hheap : Proceeds .nothing s { s with heap := s.heap.ended event.dispatch c chain } :=
      .heap s hlists (fun _ => rfl) rfl
    exact hheap.release _ _
  | @ended c chain slot hd hc hend =>
    have hlists := Heap.listing_setChain_same
      (g := s.heap.ended event.dispatch c (chain.unpin slot).2) hc
      (by rw [s.heap.scene_ended _ hd hc, Scene.setDispatch])
      (Chain.listing_unpin (hcoherent hc) slot)
    have hheap : Proceeds .nothing s
        { s with heap := s.heap.ended event.dispatch c (chain.unpin slot).2 } :=
      .heap s hlists (fun _ => rfl) rfl
    exact hheap.release _ _
  | @moved c chain slot i l hd hc hnext hl =>
    have hunpinned : (chain.unpin slot).2.Coherent := (hcoherent hc).operate (.unpin slot)
    have hlists := Heap.listing_setChain_same
      (g := s.heap.moved event.dispatch c (chain.unpin slot).2 i l) hc
      (by rw [s.heap.scene_moved _ i l hd hc, Scene.setDispatch])
      ((Chain.listing_pin hunpinned i).trans (Chain.listing_unpin (hcoherent hc) slot))
    have hpayloads := Heap.payloads_retainAll
      { s.heap with
        chains := s.heap.chains.modify c fun _ => (chain.unpin slot).2.pin i
        dispatches := (s.heap.dispatches.modify event.dispatch ({ · with cursor := some i })).retain
          event.dispatch } [.function l, .function l]
    let moved : State H := { s with heap := s.heap.moved event.dispatch c (chain.unpin slot).2 i l }
    have hheap : Proceeds .nothing s moved := .heap s hlists hpayloads.1 hpayloads.2
    have hheld : Proceeds .nothing s (moved.push (.await [.function l])) :=
      hheap.trans (.push moved (.await _) trivial)
    -- the frame that enters the slot lies on the frame that holds its listener
    have hwaits : Proceeds .nothing s ((moved.push (.await [.function l])).push
        (.entering ⟨c, i, event.dispatch⟩ ⟨event.dispatch, l⟩ arg)) :=
      hheld.trans (.push (moved.push (.await [.function l])) (.entering _ _ _) rfl)
    exact hwaits.release _ _

theorem advance_yields (hv : s.heap.scene.Coherent) (event : Event) (arg : H.Arg) :
    Yields .nothing s (s.advance event arg) :=
  (s.advance_outcome event arg).yields hv

theorem invoke_yields (hv : s.heap.scene.Coherent) (f : Fn) (event : Option Event) (arg : H.Arg) :
    Yields .nothing s (s.invoke f event arg) := by
  unfold invoke
  split
  · exact (Proceeds.refl s).release _ _
  · split
    · rename_i e _
      have hproper : ∀ ref ∈ [Ref.handle (s.heap.wrapUp (.event e)).1], ∃ i, ref = .handle i :=
        fun ref href => ⟨_, List.mem_singleton.1 href⟩
      exact ((Proceeds.wrapUp s _).trans (.push _ (.user _ _) hproper)).answer _
    · exact (Proceeds.pushCode s _).answer _
    · exact (Proceeds.push s (.afterSimple _ _) trivial).mode rfl
    · exact (Proceeds.refl s).mode rfl
    · exact (Proceeds.push s (.await _) trivial).yields (startCall_yields (s := s.push _) hv _ _)

theorem compare_yields (left right : Fn) : Yields .nothing s (s.compare left right) := by
  have h := Proceeds.refl s
  unfold compare
  split
  · exact h.answer _
  · split
    · split
      · exact h.answer _
      · exact h.mode rfl
      · exact (Proceeds.pushCode s _).answer _
      · exact h.answer _
    · exact h.answer _

theorem search_yields (c : ChainId) (probe : Fn) (snapshot remaining : List (SlotId × Fn)) :
    Yields .nothing s (s.search c probe snapshot remaining) := by
  cases remaining with
  | nil => exact ((Proceeds.refl s).report _).release _ _
  | cons e rest => exact (Proceeds.push s (.searching _) trivial).mode rfl

theorem startRemove_yields (c : ChainId) (probe : Fn) :
    Yields .nothing s (s.startRemove c probe) :=
  (Proceeds.retainAll s _).yields (search_yields _ _ _ _)

/-- A match that is linked no more is not in the list either. -/
theorem detachFound_yields (hv : s.heap.scene.Coherent) (found : Search) :
    Yields (.detached found.chain found.candidate) s (s.detachFound found) := by
  -- where nothing is taken out, the slot has no entry
  have habsent (hx : ∀ e ∈ s.heap.listing found.chain, e.1 ≠ found.candidate) :
      Proceeds (.detached found.chain found.candidate) s s := by
    refine ⟨fun c => ?_, fun _ _ => rfl, Nat.le_refl _, id⟩
    rw [Edit.on]
    split
    · rename_i he
      subst he
      exact (List.filter_eq_self.2 fun e hm => decide_eq_true (hx e hm)).symm
    · rfl
  unfold detachFound
  dsimp only
  split
  · rename_i hc
    refine (habsent fun e hm => ?_).release _ _
    rw [Heap.listing, hc] at hm
    exact absurd hm (by simp)
  · rename_i chain hc
    have hchain : chain.Coherent := hv found.chain chain (by rw [Heap.get?_scene_chains, hc])
    split
    · have hlists := Heap.listing_setChain (g := { s.heap with
          chains := s.heap.chains.modify found.chain fun _ => (chain.detach found.candidate).2 }) hc
        (congrArg Scene.chains (s.heap.scene_modifyChain found.chain _ hc))
      have hdetached : Proceeds (.detached found.chain found.candidate) s { s with heap :=
          { s.heap with chains :=
            s.heap.chains.modify found.chain fun _ => (chain.detach found.candidate).2 } } := by
        refine ⟨fun c => ?_, fun _ _ => rfl, Nat.le_refl _, id⟩
        rw [hlists, Edit.on, Chain.listing_detach hchain]
        split
        · rename_i he
          subst he
          rw [Heap.listing_of_get? hc]
        · rfl
      exact (hdetached.report _).release _ _
    · rename_i hgone
      refine (habsent fun e hm he => hgone ?_).release _ _
      rw [Heap.listing_of_get? hc] at hm
      exact (hchain.visits _).1 (he ▸ (Chain.listener?_of_mem_listing hm).1)

/-- A listener that is added makes an entry under the number that was next. -/
theorem link_yields (hv : s.heap.scene.Coherent) {c : ChainId} {chain : Chain Fn}
    (hc : s.heap.chains.get? c = some chain) (listener : Fn) (placement : Placement) :
    Yields (.added c (s.heap.nextSlot c) placement listener) s (s.link c listener placement) := by
  have hchain : chain.Coherent := hv c chain (by rw [Heap.get?_scene_chains, hc])
  have hadded : Proceeds (.added c (s.heap.nextSlot c) placement listener) s { s with heap :=
      { s.heap with chains := s.heap.chains.modify c fun _ => chain.add listener placement } } := by
    refine ⟨fun c' => ?_, fun _ _ => rfl, Nat.le_refl _, id⟩
    rw [Heap.listing_setChain (g := { s.heap with
        chains := s.heap.chains.modify c fun _ => chain.add listener placement }) hc
      (congrArg Scene.chains (s.heap.scene_modifyChain c _ hc)), Chain.listing_add hchain, Edit.on,
      Heap.nextSlot, hc]
    split
    · rename_i he
      subst he
      rw [Heap.listing_of_get? hc]
      rfl
    · rfl
  unfold link
  rw [hc]
  cases placement with
  | front => exact (hadded.report _).answer _
  | back => exact (hadded.report _).answer _

theorem clearAll_yields (hv : s.heap.scene.Coherent) (c : ChainId) (shuffle : Shuffle)
    (freed : List Ref) (n : Nat) :
    Yields (.cleared c) s (({ s with heap := { s.heap with
      chains := s.heap.chains.modify c fun _ => (((s.heap.chains.get? c).getD {}).clear shuffle).2
    } }.report (.cleared c n)).release freed .done) := by
  cases hc : s.heap.chains.get? c with
  | none =>
    -- there is no such chain, and so no list of it
    have hlists (c' : ChainId) : Heap.listing { s.heap with
        chains := s.heap.chains.modify c fun _ => (Chain.clear {} shuffle).2 } c' =
          Edit.on c' (s.heap.listing c') (.cleared c) := by
      rw [Heap.listing, Pool.get?_modify, Edit.on]
      split
      · rename_i he
        rw [← he, hc]
        rfl
      · rfl
    have hcleared : Proceeds (.cleared c) s { s with heap := { s.heap with
        chains := s.heap.chains.modify c fun _ => (Chain.clear {} shuffle).2 } } :=
      ⟨hlists, fun _ _ => rfl, Nat.le_refl _, id⟩
    exact (hcleared.report _).release _ _
  | some chain =>
    have hchain : chain.Coherent := hv c chain (by rw [Heap.get?_scene_chains, hc])
    have hlists := Heap.listing_setChain
      (g := { s.heap with chains := s.heap.chains.modify c fun _ => (chain.clear shuffle).2 }) hc
      (congrArg Scene.chains (s.heap.scene_modifyChain c _ hc))
    have hcleared : Proceeds (.cleared c) s { s with
        heap := { s.heap with chains := s.heap.chains.modify c fun _ => (chain.clear shuffle).2 } } :=
      ⟨fun c' => by rw [hlists, Chain.listing_clear hchain, Edit.on], fun _ _ => rfl, Nat.le_refl _,
        id⟩
    exact (hcleared.report _).release _ _

/-- The chain of every handle is there. -/
def Grounded (s : State H) : Prop :=
  ∀ i c, s.heap.chainOf i = some c → ∃ chain, s.heap.chains.get? c = some chain

/-- A request edits the lists as it says, and at once. -/
theorem ask_yields (hv : s.heap.scene.Coherent) (hg : s.Grounded)
    (rq : Request H.toVocabulary) : Yields (rq.edit s.heap) s (s.ask rq) := by
  have h := Proceeds.refl s
  -- taking shares and handles does not touch the scene
  have hvHold (handles : List HandleId) : (s.hold handles).heap.scene.Coherent := by
    show (s.heap.retainAll (handles.map .handle)).scene.Coherent
    rw [Heap.scene_retainAll]
    exact hv
  cases rq with
  | makeEmpty => exact h.handOut _
  | make native rule keeps => exact (Proceeds.store s _).handOut _
  | copy i =>
    unfold ask
    dsimp only
    split
    · exact h.answer _
    · exact (Proceeds.retain s _).handOut _
  | openChain =>
    refine Proceeds.handOut (t := { s with heap := { s.heap with chains := _ } }) ?_ _
    refine ⟨fun c => ?_, fun _ _ => rfl, Nat.le_refl _, id⟩
    -- the new chain has no entries, and before there was none of its number
    show Heap.listing { s.heap with chains := (s.heap.chains.alloc {}).2 } c = s.heap.listing c
    rw [Heap.listing, Pool.get?_alloc, Heap.listing]
    split
    · rename_i he
      rw [← he, Pool.get?_nextId]
      rfl
    · rfl
  | share i => exact (Proceeds.retain s _).answer _
  | discard i => exact h.release _ _
  | add chain function placement =>
    unfold ask Request.edit
    dsimp only
    cases hc : s.heap.chainOf chain with
    | none => exact h.answer _
    | some c =>
      obtain ⟨found, hfound⟩ := hg chain c hc
      cases s.heap.functionOf function with
      | none => exact h.answer _
      | some f =>
        cases f with
        | none => exact (h.report _).answer _
        | some p =>
          have hlinked := link_yields (s := { s with heap := s.heap.retain (.function (some p)) })
            hv hfound (some p) placement
          exact (Proceeds.retain s (.function (some p))).yields hlinked
  | addSimple chain function placement =>
    unfold ask Request.edit
    dsimp only
    cases hc : s.heap.chainOf chain with
    | none => exact h.answer _
    | some c =>
      obtain ⟨found, hfound⟩ := hg chain c hc
      cases s.heap.functionOf function with
      | none => exact h.answer _
      | some f =>
        cases f with
        | none => exact (h.report _).answer _
        | some p =>
          let retained : State H := { s with heap := s.heap.retain (.function (some p)) }
          let stored : State H :=
            { retained with heap := (retained.heap.store ⟨.simple (some p), .byValue⟩).2 }
          have hstored : Proceeds .nothing s stored :=
            (Proceeds.retain s (.function (some p))).trans (.store retained _)
          exact hstored.yields (link_yields (s := stored) hv hfound _ placement)
  | remove chain function =>
    unfold ask
    dsimp only
    split
    · exact (Proceeds.hold s _).yields (startRemove_yields _ _)
    · exact h.answer _
  | removeCurrent chain i =>
    unfold ask
    dsimp only
    split
    · exact (Proceeds.hold s _).yields (startRemove_yields _ _)
    · exact h.answer _
  | removeSimple chain function =>
    unfold ask
    dsimp only
    split
    · rename_i inner _ _
      have hheld := (Proceeds.hold s [chain, function]).trans (.retain _ (.function inner))
      have hstored := hheld.trans (.store _ ⟨.simple inner, .byValue⟩)
      exact (hstored.trans (.push _ (.await _) trivial)).yields (startRemove_yields _ _)
    · exact h.answer _
  | removeNative chain native =>
    unfold ask
    dsimp only
    split
    · have hheld := (Proceeds.hold s [chain]).trans (.store _ ⟨.native native [], .byValue⟩)
      exact (hheld.trans (.push _ (.await _) trivial)).yields (startRemove_yields _ _)
    · exact h.answer _
  | clear chain =>
    unfold ask Request.edit
    dsimp only
    cases s.heap.chainOf chain with
    | none => exact h.answer _
    | some c => exact (Proceeds.hold s [chain]).yields (clearAll_yields (hvHold _) c _ _ _)
  | size chain =>
    unfold ask
    dsimp only
    split <;> exact h.answer _
  | call chain arg =>
    unfold ask
    dsimp only
    split
    · exact h.answer _
    · exact (Proceeds.hold s _).yields (startCall_yields (hvHold _) _ _)
  | next i arg =>
    unfold ask
    dsimp only
    split
    · exact h.answer _
    · exact (Proceeds.hold s _).yields (advance_yields (hvHold _) _ _)
  | apply function arg =>
    unfold ask
    dsimp only
    split
    · exact h.answer _
    · exact (Proceeds.hold s _).mode rfl
  | deliver function i arg guarded =>
    unfold ask
    dsimp only
    split
    · have hseized := Proceeds.seize s i
      split
      · rename_i t ht
        rw [ht] at hseized
        exact hseized.answer _
      · rename_i t ht
        rw [ht] at hseized
        have hheld := hseized.trans (.hold t [function])
        split
        · exact hheld.release _ _
        · exact hheld.mode rfl
    · exact h.answer _
  | wrap chain =>
    unfold ask
    dsimp only
    split
    · have hseized := Proceeds.seize s chain
      split
      · rename_i t ht
        rw [ht] at hseized
        exact hseized.answer _
      · rename_i t ht
        rw [ht] at hseized
        exact (hseized.trans (.store t _)).handOut _
    · exact h.answer _
  | same left right =>
    unfold ask
    dsimp only
    split
    · exact (Proceeds.hold s _).mode rfl
    · exact h.answer _
  | kindOf function =>
    unfold ask
    dsimp only
    split <;> exact h.answer _
  | finished i =>
    unfold ask
    dsimp only
    split <;> exact h.answer _

theorem takeTurn_yields (hv : s.heap.scene.Coherent) (hg : s.Grounded) (code : H.Code)
    {owned : List Ref} (howned : ∀ ref ∈ owned, ∃ i, ref = .handle i) (r : Reply H.toVocabulary) :
    Yields (match (H.resume code r s.memory).act with
      | .request rq _ => rq.edit s.heap
      | _ => .nothing) s (s.takeTurn code owned r) := by
  unfold takeTurn
  dsimp only
  generalize H.resume code r s.memory = turn
  obtain ⟨memory, said, act⟩ := turn
  have hturn := Proceeds.turn s memory ((said.map Note.said).reverse ++ s.journal)
  cases act with
  | finish r => exact hturn.release _ _
  | pause code => exact (hturn.trans (.push _ (.user _ _) howned)).answer _
  | request rq code =>
    have hpush := hturn.trans (.push _ (.user code owned) howned)
    exact hpush.yields (ask_yields (s := State.push { s with
      memory, journal := (said.map Note.said).reverse ++ s.journal } (.user code owned)) hv hg rq)

end State

/-! ## Letting go -/

namespace Heap

/-- Of the chains that are still there after a share was let go of, no list has changed. -/
theorem listing_release (h : Heap T) (hv : h.scene.Coherent) (ref : Ref) {c : ChainId}
    (hc : (h.release ref).2.chains.get? c ≠ none) : (h.release ref).2.listing c = h.listing c := by
  cases ref with
  | function f =>
    cases f with
    | none => rfl
    | some p =>
      unfold release
      dsimp only
      split <;> rfl
  | chain c' =>
    have hchains : (h.release (.chain c')).2.chains = (h.chains.release c').2 := by
      unfold release
      dsimp only
      split <;> (rename_i hr; rw [hr])
    rw [hchains, Pool.get?_release] at hc
    refine listing_congr ?_
    rw [hchains, Pool.get?_release]
    split
    · rename_i hgone
      rw [if_pos hgone] at hc
      exact absurd rfl hc
    · rfl
  | dispatch d =>
    unfold release
    dsimp only
    split
    · rfl
    · unfold closeDispatch
      split
      · rename_i gone dispatches _ _ _ slot chain _ hchain
        have hcoherent : chain.Coherent := hv gone.chain chain (by
          rw [get?_scene_chains]
          exact hchain)
        exact listing_setChain_same (h := { h with dispatches }) hchain
          (by rw [scene_modifyChain _ gone.chain _ hchain]) (Chain.listing_unpin hcoherent slot) c
      · rfl
  | event e => rfl
  | handle i =>
    unfold release
    dsimp only
    split <;> rfl

/-- The payload that goes when a share is let go of. -/
def dropped (h : Heap T) : Ref → Option PayloadId
  | .function (some p) => if h.payloads.count p = 1 then some p else none
  | _ => none

/-- Letting go of a share ends the payload that is in it, if it was the last, and no other. -/
theorem payloads_release (h : Heap T) (ref : Ref) :
    (∀ p, (h.release ref).2.payloads.get? p =
      if h.dropped ref = some p then none else h.payloads.get? p) ∧
        (h.release ref).2.payloads.nextId = h.payloads.nextId := by
  cases ref with
  | function f =>
    cases f with
    | none => exact ⟨fun p => rfl, rfl⟩
    | some q =>
      have hpayloads : (h.release (.function (some q))).2.payloads = (h.payloads.release q).2 := by
        unfold release
        dsimp only
        split <;> (rename_i hr; rw [hr])
      rw [hpayloads]
      refine ⟨fun p => ?_, Pool.nextId_release _ _⟩
      rw [Pool.get?_release, dropped]
      by_cases hlast : h.payloads.count q = 1
      · simp [hlast]
      · -- a share that nobody had was in nothing that is stored
        have hdropped : ¬(if h.payloads.count q = 1 then some q else none) = some p := by
          simp [hlast]
        rw [if_neg hdropped]
        split
        · rename_i hgone
          obtain ⟨rfl, hcount⟩ := hgone
          have hnone : ¬(h.payloads.get? q).isSome := by
            rw [← Pool.count_pos_iff]
            omega
          exact (Option.not_isSome_iff_eq_none.1 hnone).symm
        · rfl
  | chain c =>
    unfold release
    dsimp only
    split <;> exact ⟨fun p => rfl, rfl⟩
  | dispatch d =>
    unfold release
    dsimp only
    split
    · exact ⟨fun p => rfl, rfl⟩
    · unfold closeDispatch
      split <;> exact ⟨fun p => rfl, rfl⟩
  | event e => exact ⟨fun p => rfl, rfl⟩
  | handle i =>
    unfold release
    dsimp only
    split <;> exact ⟨fun p => rfl, rfl⟩

end Heap

namespace State

/-! ## One step -/

/-- The payload that the coming step ends, if the program has not been aborted. -/
def dropping (s : State H) : Option PayloadId :=
  match s.mode, s.frames with
  | .reply r, .releasing (ref :: _) answer :: _ => (answer.joined r).bind fun _ => s.heap.dropped ref
  | _, _ => none

/-- What one step does to lists, payloads and stack. -/
structure Passes (s : State H) : Prop where
  /-- The list of a chain that is still there has been edited as it was to be. -/
  lists : ∀ c, s.step.heap.chains.get? c ≠ none →
    s.step.heap.listing c = s.edit.on c (s.heap.listing c)
  /-- A payload stays as it is, or it is the one that was to go. -/
  payloads : ∀ p, p < s.heap.payloads.nextId →
    s.step.heap.payloads.get? p = if s.dropping = some p then none else s.heap.payloads.get? p
  grown : s.heap.payloads.nextId ≤ s.step.heap.payloads.nextId
  stack : Orderly s.step.frames
  backed : s.step.Backed

/-- A step that lets go of nothing. -/
theorem Yields.passes {s t : State H} (h : Yields s.edit { s with frames := s.waiting } t)
    (ht : s.step = t) (hdropping : s.dropping = none) (hs : Orderly s.waiting) : s.Passes where
  lists := fun c _ => ht ▸ h.lists c
  payloads := fun p hp => by
    rw [hdropping, if_neg (by simp), ht]
    exact h.kept p hp
  grown := ht ▸ h.grown
  stack := ht ▸ h.stack hs
  backed := ht ▸ h.backed

/-- Whatever a destructor that starts may do, it has not done it yet. -/
theorem releasing_passes {s : State H} {frames : List (Frame H)} {todo : List Ref}
    {answer r : Reply H.toVocabulary} (hv : s.heap.scene.Coherent)
    (hframes : s.frames = .releasing todo answer :: frames) (hmode : s.mode = .reply r)
    (hs : Orderly frames) : s.Passes := by
  obtain ⟨heap, memory, journal, frames', mode⟩ := s
  subst hframes hmode
  let popped : State H := ⟨heap, memory, journal, frames, .reply r⟩
  let whole : State H := ⟨heap, memory, journal, .releasing todo answer :: frames, .reply r⟩
  rcases popped.hear_releasing r todo answer with ⟨answer', hjoined, hgoes⟩ | ⟨hjoined, hstands⟩
  · cases todo with
    | nil => exact Yields.passes (s := whole) ((Proceeds.refl popped).answer answer') hgoes rfl hs
    | cons ref rest =>
      have hheap : (popped.releaseNext (ref :: rest) answer').heap = (heap.release ref).2 := by
        unfold releaseNext
        dsimp only
        split <;> rfl
      have hreply : (popped.releaseNext (ref :: rest) answer').mode = .reply .done := by
        unfold releaseNext
        dsimp only
        split <;> rfl
      have hstack : Orderly (popped.releaseNext (ref :: rest) answer').frames := by
        unfold releaseNext
        dsimp only
        split
        · exact And.intro trivial hs
        · exact And.intro (fun _ href => absurd href List.not_mem_nil) (And.intro trivial hs)
      have hstep : whole.step = popped.releaseNext (ref :: rest) answer' := hgoes
      have hdropping : whole.dropping = heap.dropped ref := by
        show (answer.joined r).bind (fun _ => heap.dropped ref) = _
        rw [hjoined, Option.bind_some]
      refine ⟨fun c hc => ?_, fun p hp => ?_, ?_, hstep ▸ hstack, fun e f event arg he => ?_⟩
      · show whole.step.heap.listing c = heap.listing c
        have hc' : (heap.release ref).2.chains.get? c ≠ none := by
          rw [← hheap, ← hstep]
          exact hc
        rw [hstep, hheap]
        exact heap.listing_release hv ref hc'
      · show whole.step.heap.payloads.get? p = if whole.dropping = some p then none else _
        rw [hstep, hheap, hdropping, (heap.payloads_release ref).1]
      · show _ ≤ whole.step.heap.payloads.nextId
        rw [hstep, hheap, (heap.payloads_release ref).2]
      · have hmode : whole.step.mode = .reply .done := hstep ▸ hreply
        exact absurd (hmode.symm.trans he) (by simp)
  · -- the program has been aborted, and nothing is let go of
    have hdropping : whole.dropping = none := by
      cases todo with
      | nil => rfl
      | cons ref rest =>
        show (answer.joined r).bind (fun _ => heap.dropped ref) = _
        rw [hjoined, Option.bind_none]
    exact Yields.passes (s := whole)
      ((Proceeds.push popped (.releasing todo answer) trivial).answer r) hstands hdropping hs

/-- EVERY step edits the lists as it was to, and ends no payload but the one that was to go. -/
theorem step_passes {s : State H} (hv : s.heap.scene.Coherent) (hg : s.Grounded)
    (hs : Orderly s.frames) : s.Passes := by
  obtain ⟨heap, memory, journal, frames, mode⟩ := s
  -- a step that lets go of nothing, from the state that the step function works on
  have of_yields {s t : State H} {edit : Edit} (h : Yields edit { s with frames := s.waiting } t)
      (hedit : s.edit = edit) (ht : s.step = t) (hd : s.dropping = none)
      (hs : Orderly s.waiting) : s.Passes := (hedit ▸ h : Yields s.edit _ t).passes ht hd hs
  cases mode with
  | compare left right =>
    exact of_yields (s := ⟨heap, memory, journal, frames, .compare left right⟩)
      (compare_yields left right) rfl rfl rfl hs
  | invoke entry f event arg =>
    exact of_yields (s := ⟨heap, memory, journal, frames, .invoke entry f event arg⟩)
      (invoke_yields hv f event arg) rfl rfl rfl hs
  | reply r =>
    cases frames with
    | nil =>
      let s : State H := ⟨heap, memory, journal, [], .reply r⟩
      exact of_yields (s := s) ((Proceeds.refl s).answer r) rfl rfl rfl hs
    | cons fr frames =>
      let s : State H := ⟨heap, memory, journal, frames, .reply r⟩
      have h : Proceeds .nothing s s := .refl s
      let whole : State H := ⟨heap, memory, journal, fr :: frames, .reply r⟩
      cases fr with
      | user code owned =>
        exact of_yields (s := whole) (takeTurn_yields (s := s) hv hg code hs.1 r) rfl rfl rfl hs.2
      | await held => exact of_yields (s := whole) (h.release held r) rfl rfl rfl hs.2
      | releasing todo answer => exact releasing_passes hv rfl rfl hs.2
      | afterSimple event arg =>
        have hadvanced : Yields .nothing s ((s.push (.await [.event event])).advance event arg) :=
          (Proceeds.push s (.await _) trivial).yields
            (advance_yields (s := s.push (.await _)) hv event arg)
        cases r with
        | fault f => exact of_yields (s := whole) (h.release _ _) rfl rfl rfl hs.2
        | _ => exact of_yields (s := whole) hadvanced rfl rfl rfl hs.2
      | entering entry event arg =>
        -- the frame that holds the listener lies right below
        have hentered : Yields .nothing s { s with
            mode := .invoke (some entry) event.recipient (some event) arg } := by
          refine ⟨⟨fun _ => rfl, fun _ _ => rfl, Nat.le_refl _, id⟩, ?_⟩
          intro e f event' arg' hmode
          obtain ⟨-, rfl, -⟩ := Mode.invoke.inj hmode
          exact hs.1
        cases r with
        | fault f => exact of_yields (s := whole) (h.release _ _) rfl rfl rfl hs.2
        | _ => exact of_yields (s := whole) hentered rfl rfl rfl hs.2
      | searching found =>
        have hsearch : Yields .nothing s
            (s.search found.chain found.probe found.snapshot found.remaining) :=
          search_yields _ _ _ _
        cases r with
        | fault f => exact of_yields (s := whole) (h.release _ _) rfl rfl rfl hs.2
        | flag same =>
          cases same with
          | true =>
            have hdetached := detachFound_yields (s := s) hv found
            exact of_yields (s := whole) hdetached rfl rfl rfl hs.2
          | false => exact of_yields (s := whole) hsearch rfl rfl rfl hs.2
        | _ => exact of_yields (s := whole) hsearch rfl rfl rfl hs.2

end State

/-! ## Runs -/

namespace Reachable

variable {s : State H}

theorem grounded (hs : Reachable s) : s.Grounded := fun _ _ hc => hs.balanced.exists_chainOf hc

/-- In every reachable state the stack is in good order, and each listener that is started through
    a slot is held. -/
theorem orderly_backed (hs : Reachable s) : Orderly s.frames ∧ s.Backed := by
  induction hs with
  | begin n code memory =>
    refine ⟨And.intro (fun _ href => absurd href List.not_mem_nil) trivial, ?_⟩
    exact fun e f event arg he => absurd he (by simp [State.begin])
  | step hs ih =>
    have hpasses := State.step_passes hs.coherent hs.grounded ih.1
    exact ⟨hpasses.stack, hpasses.backed⟩

theorem passes (hs : Reachable s) : s.Passes :=
  State.step_passes hs.coherent hs.grounded hs.orderly_backed.1

end Reachable

end Relay
