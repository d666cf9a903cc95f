/-
  In every run the shares add up.

  A call in progress holds shares: in its frame while it waits, in the mode while a function is
  about to run, and IN HAND between two operations of one step.  `Owes s inHand` says that the heap
  of `s` is balanced by what its frames hold and by `inHand`.  A step takes shares into its hand and
  has put every one of them away when it ends.  So a chain is there as long as one of its dispatches
  is, and the look-ups of a running dispatch do not fail.
-/
import Relay.Proofs.Ownership

namespace Relay

variable {H : Host}

/-- The shares that a call in progress holds. -/
def Frame.held : Frame H → List Ref
  | .user _ owned => owned
  | .await held => held
  | .releasing todo _ => todo
  | .afterSimple event _ => [.event event]
  | .entering _ event _ => [.event event]
  | .searching found => found.snapshot.map fun e => .function e.2

/-- A function that is about to run takes its event over. -/
def Mode.held : Mode H → List Ref
  | .invoke _ _ event _ => event.toList.map .event
  | _ => []

namespace State

/-- The heap is balanced by what the frames hold, and by what is in hand. -/
def Owes (s : State H) (inHand : List Ref) : Prop :=
  s.heap.Balanced (inHand ++ s.frames.flatMap Frame.held)

/-- The shares add up, and nothing is in hand. -/
def Balanced (s : State H) : Prop := s.Owes s.mode.held

/-! ## Putting shares away -/

namespace Owes

variable {s : State H} {inHand : List Ref}

/-- Only the weights of what is in hand matter. -/
theorem congr (h : s.Owes inHand) {inHand' : List Ref}
    (hw : ∀ t, weights t inHand = weights t inHand') :
    s.Owes inHand' :=
  Heap.Balanced.congr h fun t => by rw [weights_append, weights_append, hw]

theorem push {f : Frame H} (h : s.Owes (f.held ++ inHand)) : (s.push f).Owes inHand := by
  refine Heap.Balanced.congr h fun t => ?_
  show _ = weights t (inHand ++ (f :: s.frames).flatMap Frame.held)
  rw [List.flatMap_cons]
  simp only [weights_append]
  omega

/-- A frame may take over all that is in hand. -/
theorem push_all {f : Frame H} (h : s.Owes f.held) : (s.push f).Owes [] :=
  push (by rwa [List.append_nil])

theorem mode {m : Mode H} (h : s.Owes m.held) : Balanced { s with mode := m } := h

theorem answer (h : s.Owes []) (r : Reply H.toVocabulary) : (s.answer r).Balanced := h

theorem report (h : s.Owes inHand) (n : Note H.toVocabulary) : (s.report n).Owes inHand := h

theorem release {refs : List Ref} (h : s.Owes refs) (r : Reply H.toVocabulary) :
    (s.release refs r).Balanced := by
  have hpush : (s.push (.releasing refs r)).Owes [] := push_all h
  exact hpush.answer .done

theorem hold (h : s.Owes inHand) (handles : List HandleId) : (s.hold handles).Owes inHand := by
  have halive : ∀ ref ∈ handles.map Ref.handle, s.heap.Alive ref := by
    intro ref href
    obtain ⟨i, -, rfl⟩ := List.mem_map.1 href
    exact s.heap.alive_handle i
  refine push (s := { s with heap := s.heap.retainAll (handles.map .handle) }) ?_
  refine (Heap.Balanced.retainAll h _ halive).congr fun t => ?_
  simp only [weights_append, Frame.held]
  omega

theorem handOut {ref : Ref} (h : s.Owes [ref]) : (s.handOut ref).Balanced := Heap.Balanced.wrapUp h

theorem retain (h : s.Owes inHand) {ref : Ref} (ha : s.heap.Alive ref) :
    Owes { s with heap := s.heap.retain ref } (ref :: inHand) := Heap.Balanced.retain h ha

theorem store (load : Payload H.toVocabulary) (inHand : List Ref)
    (h : s.Owes (load.body.keeps ++ inHand)) :
    Owes { s with heap := (s.heap.store load).2 } (.function (s.heap.store load).1 :: inHand) := by
  rw [Owes, List.append_assoc] at h
  exact Heap.Balanced.store h

/-- What a handle with a single holder owned is in hand when it is seized. -/
theorem seize (h : s.Owes inHand) (i : HandleId) :
    (s.seize i).2.Owes ((s.seize i).1.toList ++ inHand) := by
  have hreleased := Heap.Balanced.releaseHandle h i
  rw [← List.append_assoc] at hreleased
  exact hreleased

/-- What is seized is what the handle owned. -/
theorem eq_of_seize {i : HandleId} {ref got : Ref} {t : State H}
    (hi : s.heap.handles.get? i = some ref) (hs : s.seize i = (some got, t)) : got = ref := by
  have hgot : (s.heap.handles.release i).1 = some got := congrArg Prod.fst hs
  rcases s.heap.handles.release_cases i with ⟨a, ha, -, hr, -⟩ | ⟨hr, -, -⟩
  · rw [hgot] at hr
    rw [hi] at ha
    exact (Option.some.inj hr).trans (Option.some.inj ha).symm
  · rw [hgot] at hr
    exact absurd hr (by simp)

/-! ## What is there -/

theorem handle_of_eventOf {i : HandleId} {e : Event} (hi : s.heap.eventOf i = some e) :
    s.heap.handles.get? i = some (.event e) := by
  unfold Heap.eventOf at hi
  split at hi
  · rename_i e' he
    rw [he, Option.some.inj hi]
  · exact absurd hi (by simp)

/-- The function of a handle is there. -/
theorem alive_functionOf (h : s.Owes inHand) {i : HandleId} {f : Fn}
    (hi : s.heap.functionOf i = some f) :
    s.heap.Alive (.function f) := by
  unfold Heap.functionOf at hi
  split at hi
  · rename_i g hg
    obtain rfl := Option.some.inj hi
    exact Heap.Balanced.alive_of_handle h hg
  · rename_i e he
    obtain rfl := Option.some.inj hi
    intro t ht
    refine Heap.Balanced.alive_of_handle h he t ?_
    rw [Ref.weight_event]
    omega
  · exact absurd hi (by simp)

/-- The chain of a handle is there. -/
theorem exists_chainOf (h : s.Owes inHand) {i : HandleId} {c : ChainId}
    (hi : s.heap.chainOf i = some c) :
    ∃ chain, s.heap.chains.get? c = some chain := by
  unfold Heap.chainOf at hi
  split at hi
  · rename_i c' hc
    obtain rfl := Option.some.inj hi
    rw [← Heap.count_chain_pos]
    exact Heap.Balanced.alive_of_handle h hc (.chain c') (by simp [Ref.weight])
  · obtain ⟨d, hd, rfl⟩ := Option.map_eq_some_iff.1 hi
    exact Heap.Balanced.alive_of_dispatch h hd
  · exact absurd hi (by simp)

end Owes

/-! ## The functions of a step -/

variable {s : State H}

theorem CallOutcome.balanced {t : State H} {c : ChainId} {arg : H.Arg} (ho : s.CallOutcome c arg t)
    (h : s.Owes []) : t.Balanced := by
  cases ho with
  | nothing => exact h.answer _
  | @started chain i l hc hfirst hl =>
    -- the event in the mode takes one share in the listener, the frame of the call the other
    have hstarted := Heap.Balanced.started h hc hl
    refine Heap.Balanced.congr hstarted fun t => ?_
    show weights t ([.function l, .function l] ++ .dispatch s.heap.dispatches.nextId ::
        s.frames.flatMap Frame.held) =
      weights t ([.event ⟨s.heap.dispatches.nextId, l⟩] ++
        (.function l :: s.frames.flatMap Frame.held))
    simp only [weights_append, weights_cons, weights_nil, Ref.weight_event]
    omega

theorem startCall_balanced (h : s.Owes []) (c : ChainId) (arg : H.Arg) :
    (s.startCall c arg).Balanced :=
  (s.startCall_outcome c arg).balanced h

theorem NextOutcome.balanced {t : State H} {event : Event} {arg : H.Arg}
    (ho : s.NextOutcome event arg t) (h : s.Owes []) : t.Balanced := by
  cases ho with
  | nowhere => exact h.answer _
  | @past c chain hd hc =>
    -- nothing is handed back, for the chain is written back as it was
    have hsame : ∀ w : Fn → Nat, chain.load w + (([] : List Fn).map w).sum = chain.load w :=
      fun _ => rfl
    have hended : Owes { s with heap := s.heap.ended event.dispatch c chain } [] :=
      Heap.Balanced.ended h hc hsame
    exact hended.release _
  | @ended c chain slot hd hc hend =>
    have hended : Owes { s with heap := s.heap.ended event.dispatch c (chain.unpin slot).2 }
        ((chain.unpin slot).1.toList.map .function) :=
      Heap.Balanced.ended h hc fun w => chain.load_unpin slot w
    exact hended.release _
  | @moved c chain slot i l hd hc hnext hl =>
    -- of the two shares in the listener, the event keeps one and the frame of the call the other
    have hmoved := Heap.Balanced.moved h hd hc (fun w => chain.load_unpin slot w) hl
    refine Owes.release ?_ _
    refine Heap.Balanced.congr hmoved fun t => ?_
    show weights t ([.function l, .function l] ++ .dispatch event.dispatch ::
        ((chain.unpin slot).1.toList.map .function ++ s.frames.flatMap Frame.held)) =
      weights t ((chain.unpin slot).1.toList.map .function ++
        ([.event ⟨event.dispatch, l⟩] ++ (.function l :: s.frames.flatMap Frame.held)))
    simp only [weights_append, weights_cons, weights_nil, Ref.weight_event]
    omega

theorem advance_balanced (h : s.Owes []) (event : Event) (arg : H.Arg) :
    (s.advance event arg).Balanced :=
  (s.advance_outcome event arg).balanced h

theorem invoke_balanced (f : Fn) {event : Option Event} (h : s.Owes (event.toList.map .event))
    (arg : H.Arg) : (s.invoke f event arg).Balanced := by
  unfold invoke
  cases f.bind s.heap.payloads.get? with
  | none => exact h.release _
  | some load =>
    obtain ⟨body, rule⟩ := load
    cases body with
    | native n keeps =>
      cases event with
      | none => exact Owes.answer (Owes.push (f := .user _ []) h) _
      | some e =>
        have hwrapped : Owes { s with heap := (s.heap.wrapUp (.event e)).2 } [] :=
          Heap.Balanced.wrapUp h
        exact Owes.answer (Owes.push (f := .user _ [.handle _]) (hwrapped.congr fun t => rfl)) _
    | simple inner =>
      cases event with
      | none => exact h
      | some e => exact Owes.push (f := .afterSimple e arg) h
    | chain c =>
      have hpushed : (s.push (.await (event.toList.map .event))).Owes [] := Owes.push_all h
      exact startCall_balanced hpushed _ _

theorem compare_balanced (h : s.Owes []) (left right : Fn) : (s.compare left right).Balanced := by
  unfold compare
  split
  · exact h.answer _
  · split
    · split
      · exact h.answer _
      · exact h
      · exact Owes.answer (Owes.push (f := .user _ []) h) _
      · exact h.answer _
    · exact h.answer _

/-- A search owns all listeners that it compares. -/
theorem search_balanced (c : ChainId) (probe : Fn) {snapshot : List (SlotId × Fn)}
    (h : s.Owes (snapshot.map fun e => .function e.2)) (remaining : List (SlotId × Fn)) :
    (s.search c probe snapshot remaining).Balanced := by
  cases remaining with
  | nil => exact (h.report _).release _
  | cons e rest =>
    have hpushed : (s.push (.searching ⟨c, probe, e.1, rest, snapshot⟩)).Owes [] := Owes.push_all h
    exact hpushed

/-- What is visited going backwards is stored. -/
theorem listener?_of_mem_walkBack {L : Type} (c : Chain L) {e : SlotId × L} :
    ∀ {n : Nat} {start : Option SlotId}, e ∈ c.walkBack n start → c.listener? e.1 = some e.2
  | 0, _, he => absurd he (by simp [Chain.walkBack])
  | _ + 1, none, he => absurd he (by simp [Chain.walkBack])
  | n + 1, some id, he => by
    rw [Chain.walkBack] at he
    cases hs : c.slots.get? id with
    | none => rw [hs] at he; exact absurd he (by simp)
    | some slot =>
      rw [hs] at he
      rcases List.mem_cons.1 he with rfl | hrest
      · rw [Chain.listener?, hs]
        rfl
      · exact listener?_of_mem_walkBack c hrest

theorem startRemove_balanced (h : s.Owes []) (c : ChainId) (probe : Fn) :
    (s.startRemove c probe).Balanced := by
  refine search_balanced (s := { s with heap := _ }) c probe ?_ _
  refine Heap.Balanced.retainAll h _ fun ref href => ?_
  obtain ⟨e, he, rfl⟩ := List.mem_map.1 href
  cases hc : s.heap.chains.get? c with
  | none => rw [hc] at he; exact absurd he (by simp)
  | some chain =>
    rw [hc] at he
    exact Heap.Balanced.alive_of_slot h hc (listener?_of_mem_walkBack chain he)

theorem detachFound_balanced (found : Search)
    (h : s.Owes (found.snapshot.map fun e => .function e.2)) : (s.detachFound found).Balanced := by
  unfold detachFound
  dsimp only
  split
  · exact h.release _
  · rename_i chain hc
    split
    · have hdetached := Heap.Balanced.handBack (fun _ => (chain.detach found.candidate).2)
        (chain.detach found.candidate).1.toList h hc fun w => chain.load_detach found.candidate w
      rw [← List.append_assoc] at hdetached
      exact Owes.release (Owes.report (s := { s with heap := _ }) hdetached _) _
    · exact h.release _

/-- A listener that is added is the chain's from then on. -/
theorem link_balanced (hs : s.heap.scene.Coherent) {c : ChainId} {listener : Fn}
    (h : s.Owes [.function listener]) (hc : ∃ chain, s.heap.chains.get? c = some chain)
    (placement : Placement) : (s.link c listener placement).Balanced := by
  obtain ⟨chain, hc⟩ := hc
  have hchain : chain.Coherent := hs c chain (by rw [Heap.get?_scene_chains, hc])
  unfold link
  rw [hc]
  have hadded (new : Chain Fn) (hload : ∀ w : Fn → Nat, new.load w = chain.load w + w listener) :
      Owes { s with heap := { s.heap with chains := s.heap.chains.modify c fun _ => new } } [] :=
    Heap.Balanced.modifyChain (fun _ => new) [listener] [] h hc hload
  cases placement with
  | front => exact (hadded _ fun w => Chain.load_prepend hchain listener w).answer _
  | back => exact (hadded _ fun w => Chain.load_append hchain listener w).answer _

/-- Clearing hands the listeners of all unpinned slots back. -/
theorem clearAll_balanced (h : s.Owes []) {c : ChainId} (shuffle : Shuffle)
    (hc : ∃ chain, s.heap.chains.get? c = some chain) :
    (({ s with heap := { s.heap with
      chains := s.heap.chains.modify c fun _ => (((s.heap.chains.get? c).getD {}).clear shuffle).2 } }.report
        (.cleared c (((s.heap.chains.get? c).getD {}).clear shuffle).1.length)).release
          ((((s.heap.chains.get? c).getD {}).clear shuffle).1.map .function) .done).Balanced := by
  obtain ⟨chain, hc⟩ := hc
  rw [hc]
  have hcleared :=
    Heap.Balanced.handBack (fun _ => (chain.clear shuffle).2) (chain.clear shuffle).1 h hc
      (chain.load_clear shuffle)
  exact Owes.release (Owes.report (s := { s with heap := _ }) hcleared _) _

/-- Whatever a program asks for, the shares add up. -/
theorem ask_balanced (hs : s.heap.scene.Coherent) (h : s.Owes []) (rq : Request H.toVocabulary) :
    (s.ask rq).Balanced := by
  cases rq with
  | makeEmpty => exact Owes.handOut (h.congr fun t => rfl)
  | make native rule keeps =>
    refine Owes.handOut (s := { s with heap := _ }) (Owes.store ⟨.native native keeps, rule⟩ [] ?_)
    exact h.congr fun t => by simp [Body.keeps]
  | copy i =>
    unfold ask
    dsimp only
    split
    · exact h.answer _
    · rename_i f hf
      exact Owes.handOut (s := { s with heap := _ }) (h.retain (h.alive_functionOf hf))
  | openChain => exact Owes.handOut (s := { s with heap := _ }) (Heap.Balanced.openChain h)
  | share i =>
    have hshared : Owes { s with heap := s.heap.retain (.handle i) } [] :=
      (h.retain (s.heap.alive_handle i)).congr fun t => rfl
    exact hshared.answer _
  | discard i =>
    have hhandle : s.Owes [.handle i] := h.congr fun t => rfl
    exact hhandle.release _
  | add chain function placement =>
    unfold ask
    dsimp only
    split
    · exact (h.report _).answer _
    · rename_i c f _ hc hf
      have hretained := h.retain (h.alive_functionOf hf)
      refine link_balanced (s := { s with heap := _ }) ?_ hretained ?_ placement
      · rw [Heap.scene_retain]
        exact hs
      · rw [Heap.get?_chains_retain]
        exact h.exists_chainOf hc
    · exact h.answer _
  | addSimple chain function placement =>
    unfold ask
    dsimp only
    split
    · exact (h.report _).answer _
    · rename_i c inner _ hc hf
      have hstored :
          Owes { s with heap := ((s.heap.retain (.function inner)).store ⟨.simple inner, .byValue⟩).2 }
            [.function ((s.heap.retain (.function inner)).store ⟨.simple inner, .byValue⟩).1] :=
        Owes.store (s := { s with heap := _ }) _ [] (h.retain (h.alive_functionOf hf))
      refine link_balanced ?_ hstored ?_ placement
      · show (s.heap.retain (.function inner)).scene.Coherent
        rw [Heap.scene_retain]
        exact hs
      · show ∃ chain, (s.heap.retain (.function inner)).chains.get? c = some chain
        rw [Heap.get?_chains_retain]
        exact h.exists_chainOf hc
    · exact h.answer _
  | remove chain function =>
    unfold ask
    dsimp only
    split
    · exact startRemove_balanced (h.hold _) _ _
    · exact h.answer _
  | removeCurrent chain i =>
    unfold ask
    dsimp only
    split
    · exact startRemove_balanced (h.hold _) _ _
    · exact h.answer _
  | removeSimple chain function =>
    unfold ask
    dsimp only
    split
    · rename_i c inner _ hf
      have hretained := (h.hold [chain, function]).retain ((h.alive_functionOf hf).of_payloads rfl)
      have hstored := Owes.store ⟨.simple inner, .byValue⟩ [] hretained
      exact startRemove_balanced (Owes.push (f := .await [_]) hstored) _ _
    · exact h.answer _
  | removeNative chain native =>
    unfold ask
    dsimp only
    split
    · have hstored := Owes.store ⟨.native native [], .byValue⟩ [] (h.hold [chain])
      exact startRemove_balanced (Owes.push (f := .await [_]) hstored) _ _
    · exact h.answer _
  | clear chain =>
    unfold ask
    dsimp only
    split
    · exact h.answer _
    · rename_i c hc
      exact clearAll_balanced (h.hold [chain]) _ (h.exists_chainOf hc)
  | size chain =>
    unfold ask
    dsimp only
    split <;> exact h.answer _
  | call chain arg =>
    unfold ask
    dsimp only
    split
    · exact h.answer _
    · exact startCall_balanced (h.hold _) _ _
  | next i arg =>
    unfold ask
    dsimp only
    split
    · exact h.answer _
    · exact advance_balanced (h.hold _) _ _
  | apply function arg =>
    unfold ask
    dsimp only
    split
    · exact h.answer _
    · exact h.hold [function]
  | deliver function i arg guarded =>
    unfold ask
    dsimp only
    split
    · rename_i f event hf hi
      have hseized := h.seize i
      split
      · rename_i t ht
        rw [ht] at hseized
        exact hseized.answer _
      · rename_i ref t ht
        obtain rfl := Owes.eq_of_seize (Owes.handle_of_eventOf hi) ht
        rw [ht] at hseized
        split
        · exact (hseized.hold [function]).release _
        · exact hseized.hold [function]
    · exact h.answer _
  | wrap chain =>
    unfold ask
    dsimp only
    split
    · rename_i c hc
      have hseized := h.seize chain
      split
      · rename_i t ht
        rw [ht] at hseized
        exact hseized.answer _
      · rename_i ref t ht
        obtain rfl := Owes.eq_of_seize hc ht
        rw [ht] at hseized
        exact Owes.handOut (Owes.store ⟨.chain c, .identity⟩ [] hseized)
    · exact h.answer _
  | same left right =>
    unfold ask
    dsimp only
    split
    · exact h.hold [right, left]
    · exact h.answer _
  | kindOf function =>
    unfold ask
    dsimp only
    split <;> exact h.answer _
  | finished i =>
    unfold ask
    dsimp only
    split <;> exact h.answer _

theorem takeTurn_balanced (hs : s.heap.scene.Coherent) {owned : List Ref} (h : s.Owes owned)
    (code : H.Code) (r : Reply H.toVocabulary) : (s.takeTurn code owned r).Balanced := by
  unfold takeTurn
  dsimp only
  -- a turn may be anything, but it hands the shares of its frame on or keeps them
  generalize H.resume code r s.memory = turn
  obtain ⟨memory, said, act⟩ := turn
  let t : State H := { s with memory, journal := (said.map Note.said).reverse ++ s.journal }
  have hturn : t.Owes owned := h
  have hpushed (code : H.Code) : (t.push (.user code owned)).Owes [] := hturn.push_all
  cases act with
  | finish r => exact hturn.release r
  | pause code => exact (hpushed code).answer _
  | request rq code => exact ask_balanced (s := t.push (.user code owned)) hs (hpushed code) rq

/-- What comes of the last share is let go of before the shares that were waiting. -/
theorem releaseNext_balanced {todo : List Ref} (h : s.Owes todo) (r : Reply H.toVocabulary) :
    (s.releaseNext todo r).Balanced := by
  unfold releaseNext
  cases todo with
  | nil => exact h.answer r
  | cons ref rest =>
    dsimp only
    have hreleased :
        Owes { s with heap := (s.heap.release ref).2 } ((s.heap.release ref).1.refs ++ rest) := by
      have hb : s.heap.Balanced (ref :: (rest ++ s.frames.flatMap Frame.held)) := h
      exact hb.release.congr fun t => by rw [List.append_assoc]
    have hpushed : (State.push { s with heap := (s.heap.release ref).2 }
        (.releasing ((s.heap.release ref).1.refs ++ rest) r)).Owes [] := hreleased.push_all
    split
    · exact hpushed.answer _
    · rename_i code _
      exact Owes.answer (Owes.push_all (f := .user code []) hpushed) _

theorem hear_balanced (hs : s.heap.scene.Coherent) {f : Frame H} (h : s.Owes f.held)
    (r : Reply H.toVocabulary) : (s.hear r f).Balanced := by
  cases f with
  | user code owned => exact takeTurn_balanced hs h code r
  | await held => exact h.release r
  | releasing todo answer =>
    rcases s.hear_releasing r todo answer with ⟨answer', -, hgoes⟩ | ⟨-, hstands⟩
    · rw [hgoes]
      exact releaseNext_balanced h answer'
    · have hpushed : (s.push (.releasing todo answer)).Owes [] := Owes.push_all h
      rw [hstands]
      exact hpushed.answer r
  | afterSimple event arg =>
    have hpushed : (s.push (.await [.event event])).Owes [] := Owes.push_all h
    cases r with
    | fault f => exact h.release _
    | _ => exact advance_balanced hpushed event arg
  | entering entry event arg =>
    cases r with
    | fault f => exact h.release _
    | _ => exact h
  | searching found =>
    have hsearch := search_balanced found.chain found.probe h found.remaining
    cases r with
    | fault f => exact h.release _
    | flag same =>
      cases same with
      | true => exact detachFound_balanced found h
      | false => exact hsearch
    | _ => exact hsearch

/-- One step keeps the shares adding up. -/
theorem step_balanced (hs : s.heap.scene.Coherent) (h : s.Balanced) : s.step.Balanced := by
  obtain ⟨heap, memory, journal, frames, mode⟩ := s
  cases mode with
  | compare left right => exact compare_balanced h left right
  | invoke entry f event arg => exact invoke_balanced f h arg
  | reply r =>
    cases frames with
    | nil => exact h
    | cons f frames =>
      have hpopped : Owes ⟨heap, memory, journal, frames, .reply r⟩ f.held := h
      exact hear_balanced (s := ⟨heap, memory, journal, frames, .reply r⟩) hs hpopped r

end State

/-! ## Runs -/

/-- New chains are owned by their handles. -/
theorem Heap.opened_balanced {T : Vocabulary} (n : Nat) : (opened (T := T) n).Balanced [] := by
  induction n with
  | zero => exact fun t => by cases t <;> rfl
  | succ n ih => exact (ih.openChain).wrapUp

namespace Reachable

variable {s : State H}

theorem balanced (hs : Reachable s) : s.Balanced := by
  induction hs with
  | begin n code memory => exact Heap.opened_balanced n
  | step hs ih => exact State.step_balanced hs.coherent ih

/-- The chain of a dispatch is there as long as the dispatch is. -/
theorem exists_chain (hs : Reachable s) {d : DispatchId} {e : Dispatch}
    (hd : s.heap.dispatches.get? d = some e) : ∃ chain, s.heap.chains.get? e.chain = some chain :=
  Heap.Balanced.alive_of_dispatch hs.balanced hd

end Reachable

end Relay
