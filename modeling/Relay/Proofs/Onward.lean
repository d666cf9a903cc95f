/-
  How a call that is underway goes ON.

  A dispatch that has listeners before it moves to the slot of the first of them and runs it; else it
  goes past the end.  One that is run is code of the program, which owns a handle on its event, or a
  simple listener, which starts its function.  Each of these comes after one step or three, and in
  between the call stays underway.
-/
import Relay.Proofs.Underway

namespace Relay

variable {H : Host}

/-! ## What running a listener and going on amount to -/

namespace Heap

variable {T : Vocabulary} (h : Heap T)

theorem handles_moved (d : DispatchId) (c : ChainId) (chain : Chain Fn) (i : SlotId) (l : Fn) :
    (h.moved d c chain i l).handles = h.handles := by
  cases l <;> rfl

theorem handles_started (c : ChainId) (i : SlotId) (l : Fn) :
    (h.started c i l).handles = h.handles := by
  cases l <;> rfl

/-- A dispatch that has moved stands where it has moved to. -/
theorem stands_moved {d : DispatchId} {e : Dispatch} (hd : h.dispatches.get? d = some e) (c : ChainId)
    (chain : Chain Fn) (i : SlotId) (l : Fn) :
    (h.moved d c chain i l).dispatches.get? d = some ⟨e.chain, some i⟩ := by
  have hmoved : ((h.dispatches.modify d ({ · with cursor := some i })).retain d).get? d =
      some ⟨e.chain, some i⟩ := by
    rw [Pool.get?_retain, Pool.get?_modify, if_pos rfl, hd]
    rfl
  cases l <;> exact hmoved

/-- A dispatch that has started stands on the first slot. -/
theorem stands_started (c : ChainId) (i : SlotId) (l : Fn) :
    (h.started c i l).dispatches.get? h.dispatches.nextId = some ⟨c, some i⟩ := by
  have hstarted : (h.dispatches.alloc ⟨c, some i⟩).2.get? h.dispatches.nextId = some ⟨c, some i⟩ := by
    rw [Pool.get?_alloc, if_pos rfl]
  cases l <;> exact hstarted

end Heap

namespace State

theorem invoke_native (s : State H) {p : PayloadId} {n : H.Native} {keeps : List HandleId}
    {rule : Rule H.Custom} (hp : s.heap.payloads.get? p = some ⟨.native n keeps, rule⟩) (e : Event)
    (arg : H.Arg) :
    s.invoke (some p) (some e) arg = { s with
      heap := (s.heap.wrapUp (.event e)).2
      frames := .user (H.onCall n (some s.heap.handles.nextId) arg) [.handle s.heap.handles.nextId] ::
        s.frames
      mode := .reply .done } := by
  unfold invoke
  rw [Option.bind_some, hp]
  rfl

theorem invoke_simple (s : State H) {p : PayloadId} {inner : Fn} {rule : Rule H.Custom}
    (hp : s.heap.payloads.get? p = some ⟨.simple inner, rule⟩) (e : Event) (arg : H.Arg) :
    s.invoke (some p) (some e) arg = { s with
      frames := .afterSimple e arg :: s.frames
      mode := .invoke none inner none arg } := by
  unfold invoke
  rw [Option.bind_some, hp]
  rfl

section

variable (s : State H) {code code' : H.Code} (owned : List Ref) {r : Reply H.toVocabulary}

theorem takeTurn_finish {r' : Reply H.toVocabulary}
    (hact : (H.resume code r s.memory).act = .finish r') :
    ∃ journal, s.takeTurn code owned r = { s with
      memory := (H.resume code r s.memory).memory
      journal
      frames := .releasing owned r' :: s.frames
      mode := .reply .done } := by
  unfold takeTurn
  dsimp only
  rw [hact]
  exact ⟨_, rfl⟩

theorem takeTurn_pause (hact : (H.resume code r s.memory).act = .pause code') :
    ∃ journal, s.takeTurn code owned r = { s with
      memory := (H.resume code r s.memory).memory
      journal
      frames := .user code' owned :: s.frames
      mode := .reply .done } := by
  unfold takeTurn
  dsimp only
  rw [hact]
  exact ⟨_, rfl⟩

/-- A listener calls `next` on its event, which it holds for the time of the call. -/
theorem takeTurn_next {i : HandleId} {e : Event} {arg : H.Arg}
    (hact : (H.resume code r s.memory).act = .request (.next i arg) code')
    (hi : s.heap.handles.get? i = some (.event e)) :
    ∃ journal, s.takeTurn code owned r = ({ s with
      heap := s.heap.retain (.handle i)
      memory := (H.resume code r s.memory).memory
      journal
      frames := .await [.handle i] :: .user code' owned :: s.frames } : State H).advance e arg := by
  have hevent : s.heap.eventOf i = some e := by
    unfold Heap.eventOf
    rw [hi]
  unfold takeTurn
  dsimp only
  rw [hact]
  dsimp only [ask, push]
  rw [hevent]
  exact ⟨_, rfl⟩

end

/-- A simple listener goes on with the chain when its function has come to an answer. -/
theorem step_of_afterSimple {s : State H} {e : Event} {arg : H.Arg} {F : List (Frame H)}
    {r : Reply H.toVocabulary} (hframes : s.frames = .afterSimple e arg :: F)
    (hmode : s.mode = .reply r) (hr : ∀ f, r ≠ .fault f) :
    s.step = ({ s with frames := .await [.event e] :: F } : State H).advance e arg := by
  rw [step_of_top hframes hmode]
  cases r with
  | fault f => exact absurd rfl (hr f)
  | _ => rfl

section

variable (v : State H) {c : ChainId} {chain : Chain Fn} (hc : v.heap.chains.get? c = some chain)
  (hcoh : chain.Coherent)
include hc hcoh

/-- A call of a chain without listeners has no result. -/
theorem startCall_nil (hlist : chain.listing = []) (arg : H.Arg) :
    v.startCall c arg = v.answer (.result none) := by
  have ho := v.startCall_outcome c arg
  generalize v.startCall c arg = t at ho
  cases ho with
  | nothing => rfl
  | @started chain' i l hc' hfirst =>
    obtain rfl := Option.some.inj (hc.symm.trans hc')
    rw [hcoh.begins, ← hcoh.map_listing, hlist] at hfirst
    exact absurd hfirst (by simp)

/-- Else it runs the first of them. -/
theorem startCall_cons {m : Fn} {rest : List Fn} (hlist : chain.listing.map (·.2) = m :: rest)
    (arg : H.Arg) :
    ∃ g i, v.startCall c arg = { v with
        heap := g
        frames := .await [.function m] :: v.frames
        mode := .invoke (some ⟨c, i, v.heap.dispatches.nextId⟩) m
          (some ⟨v.heap.dispatches.nextId, m⟩) arg } ∧
      g.handles = v.heap.handles ∧
      g.dispatches.get? v.heap.dispatches.nextId = some ⟨c, some i⟩ ∧
      Plain.Left chain.listing (some i) rest := by
  obtain ⟨y, hfirst, hmem, hleft⟩ := Plain.Left.first hcoh hlist
  have hlistener := (Chain.listener?_of_mem_listing hmem).2
  have ho := v.startCall_outcome c arg
  generalize v.startCall c arg = t at ho
  cases ho with
  | nothing hnone => exact absurd (hlistener.symm.trans (hnone chain y hc hfirst)) (by simp)
  | @started chain' i l hc' hfirst' hl =>
    obtain rfl := Option.some.inj (hc.symm.trans hc')
    obtain rfl := Option.some.inj (hfirst.symm.trans hfirst')
    obtain rfl := Option.some.inj (hl.symm.trans hlistener)
    exact ⟨_, y, rfl, v.heap.handles_started _ _ _, v.heap.stands_started _ _ _, hleft⟩

end

/-- No function is started in the step in which a dispatch goes on. -/
theorem log_advance {s v : State H} {e : Event} {arg : H.Arg} {k : Nat}
    (hstep : (s.after k).step = v.advance e arg) :
    s.log (k + 1) = ⟨s.calls k, s.lent k, s.passed k ++ (s.after k).handed?.toList⟩ := by
  have hmode : (v.advance e arg).mode.call? = none ∧ (v.advance e arg).mode.plain? = none := by
    have ho := v.advance_outcome e arg
    generalize v.advance e arg = t at ho
    cases ho <;> exact ⟨rfl, rfl⟩
  rw [← hstep] at hmode
  rw [log_succ, hmode.1, lends?_of_plain hmode.2]
  simp

section

variable (v : State H) (event : Event) {c : ChainId} {chain : Chain Fn} {cursor : Option SlotId}
  (hd : v.heap.dispatches.get? event.dispatch = some ⟨c, cursor⟩)
  (hc : v.heap.chains.get? c = some chain) (hcoh : chain.Coherent)
include hd hc hcoh

/-- Behind the last listener a dispatch goes past the end. -/
theorem advance_end (arg : H.Arg) (hleft : Plain.Left chain.listing cursor []) :
    ∃ g, v.advance event arg = { v with
        heap := g
        frames := .releasing [] (.result none) :: v.frames
        mode := .reply .done } ∧
      g.handles = v.heap.handles ∧ g.dispatches.get? event.dispatch = some ⟨c, none⟩ := by
  have ho := v.advance_outcome event arg
  generalize v.advance event arg = t at ho
  have hended (chain' : Chain Fn) : (v.heap.ended event.dispatch c chain').dispatches.get?
      event.dispatch = some ⟨c, none⟩ := by
    show (v.heap.dispatches.modify _ _).get? _ = _
    rw [Pool.get?_modify, if_pos rfl, hd]
    rfl
  cases ho with
  | nowhere hgone => exact absurd (hc.symm.trans (hgone _ hd)) (by simp)
  | @past c' chain' hd' hc' =>
    obtain ⟨rfl, rfl⟩ := Dispatch.mk.inj (Option.some.inj (hd.symm.trans hd'))
    exact ⟨_, rfl, rfl, hended chain'⟩
  | @ended c' chain' x hd' hc' hend =>
    obtain ⟨rfl, rfl⟩ := Dispatch.mk.inj (Option.some.inj (hd.symm.trans hd'))
    obtain rfl := Option.some.inj (hc.symm.trans hc')
    rw [Chain.unpin_linked hcoh.links hleft.mem_order]
    exact ⟨_, rfl, rfl, hended _⟩
  | @moved c' chain' x i l hd' hc' hnext hl =>
    obtain ⟨rfl, rfl⟩ := Dispatch.mk.inj (Option.some.inj (hd.symm.trans hd'))
    obtain rfl := Option.some.inj (hc.symm.trans hc')
    exact absurd (hnext.symm.trans (hleft.following_nil hcoh)) (by simp)

/-- Else it moves on to the first listener that is left. -/
theorem advance_next (arg : H.Arg) {m : Fn} {rest : List Fn}
    (hleft : Plain.Left chain.listing cursor (m :: rest)) :
    ∃ g y, v.advance event arg = { v with
        heap := g
        frames := .releasing [] .done ::
          .entering ⟨c, y, event.dispatch⟩ ⟨event.dispatch, m⟩ arg :: .await [.function m] :: v.frames
        mode := .reply .done } ∧
      g.handles = v.heap.handles ∧ g.dispatches.get? event.dispatch = some ⟨c, some y⟩ ∧
      Plain.Left chain.listing (some y) rest := by
  cases cursor with
  | none => exact absurd hleft (by simp [Plain.Left])
  | some x =>
    obtain ⟨y, hfollow, hmem, hleft'⟩ := hleft.following_cons hcoh
    obtain ⟨hy, hlistener⟩ := Chain.listener?_of_mem_listing hmem
    have hstays := Chain.listener?_unpin hcoh.links x hy
    have ho := v.advance_outcome event arg
    generalize v.advance event arg = t at ho
    cases ho with
    | nowhere hgone => exact absurd (hc.symm.trans (hgone _ hd)) (by simp)
    | past hd' => exact absurd (hd.symm.trans hd') (by simp)
    | @ended c' chain' x' hd' hc' hend =>
      obtain ⟨rfl, hx⟩ := Dispatch.mk.inj (Option.some.inj (hd.symm.trans hd'))
      obtain rfl := Option.some.inj hx
      obtain rfl := Option.some.inj (hc.symm.trans hc')
      exact absurd ((hend y hfollow).symm.trans (hstays.trans hlistener)) (by simp)
    | @moved c' chain' x' i l hd' hc' hnext hl =>
      obtain ⟨rfl, hx⟩ := Dispatch.mk.inj (Option.some.inj (hd.symm.trans hd'))
      obtain rfl := Option.some.inj hx
      obtain rfl := Option.some.inj (hc.symm.trans hc')
      obtain rfl := Option.some.inj (hfollow.symm.trans hnext)
      obtain rfl := Option.some.inj (hl.symm.trans (hstays.trans hlistener))
      rw [Chain.unpin_linked hcoh.links hleft.mem_order]
      exact ⟨_, y, rfl, v.heap.handles_moved _ _ _ _ _, v.heap.stands_moved hd _ _ _ _, hleft'⟩

end

end State

/-! ## One listener further -/

/-- In the step after step `k` the dispatch goes on: this is the state in which it does, what its
    listeners are run on, and what is to be seen of the call afterwards. -/
structure Trip.GoesOn (T : Trip H) (k : Nat) (v : State H) (f : Fn) (arg : H.Arg) (log : Log H) :
    Prop where
  step : (T.state k).step = v.advance ⟨T.dispatch, f⟩ arg
  scene : v.heap.scene = (T.state k).heap.scene
  event : (T.state k).HasEvent T.dispatch
  under : T.under <:+ v.frames
  edit : (T.state k).edit = .nothing
  owner : (T.state k).heap.SparesHandle v.heap T.owner
  log : T.origin.log (k + 1) = log

namespace Trip.At

variable {T : Trip H} {k : Nat} {log log' : Log H} {m : Fn} {rest : List Fn}

/-- A dispatch with an event is there. -/
theorem exists_dispatch (h : T.At k log rest) (hevent : (T.state k).HasEvent T.dispatch) :
    ∃ cursor, (T.state k).heap.dispatches.get? T.dispatch = some ⟨T.chain, cursor⟩ ∧
      Plain.Left T.list cursor rest := by
  obtain ⟨⟨c, cursor⟩, he⟩ := ((reachable_state k).dispatch_iff T.dispatch).2 hevent
  obtain ⟨rfl, hleft⟩ := h.stands _ he
  exact ⟨cursor, he, hleft⟩

/-- A listener that is entered through its slot. -/
theorem enters (h : T.At k log rest) {entry : Entry} {e : Event} {arg : H.Arg} {G : List (Frame H)}
    (hframes : (T.state k).frames = .releasing [] .done :: .entering entry e arg :: G)
    (hmode : (T.state k).mode = .reply .done) (hG : T.under <:+ G) :
    ∃ l, k < l ∧ T.At l { log with calls := log.calls ++ [(e.recipient, arg)] } rest ∧
      (T.state l).Matches { T.state k with
        frames := G, mode := .invoke (some entry) e.recipient (some e) arg } := by
  obtain ⟨l, hl, hat, hmatches⟩ := h.lets_go k [] hframes hmode
    (hG.trans (List.suffix_cons _ G)) fun _ href => absurd href List.not_mem_nil
  have hstep : (T.state l).step = { T.state l with
      frames := G, mode := .invoke (some entry) e.recipient (some e) arg } :=
    State.step_of_top hmatches.frames hmatches.mode
  obtain ⟨hedit, hhanded⟩ := State.edit_of_top hmatches.frames hmatches.mode (by simp) (by simp)
  have hlends : (T.state l).lends? = none := State.lends?_of_plain (by rw [hstep]; rfl)
  refine ⟨l + 1, Nat.lt_succ_of_lt hl, hat.step hstep hG hedit (Heap.Spares.refl _ _) ?_ hat.stands, ?_⟩
  · have hlog : T.origin.log l = log := hat.log
    rw [State.log_succ, ← hlog]
    show (⟨_ ++ (T.state l).step.mode.call?.toList, _ ++ (T.state l).lends?.toList,
      _ ++ (T.state l).handed?.toList⟩ : Log H) = _
    rw [hstep, hlends, hhanded]
    simp [Mode.call?, State.log]
  · rw [state_succ, hstep]
    exact ⟨rfl, rfl, hmatches.memory, hmatches.handles⟩

/-! ### Being run -/

section

variable (h : T.At k log rest) {entry : Option Entry} {e : Event} {arg : H.Arg}
  (hmode : (T.state k).mode = .invoke entry m (some e) arg) (hm : m ∈ T.listeners)
  (hunder : T.under <:+ (T.state k).frames)
include h hmode hm hunder

/-- Code of the program begins, with a handle on its event. -/
theorem begins {n : H.Native} (hn : T.origin.heap.native? m = some n) :
    T.At (k + 1) log rest ∧ T.state (k + 1) = { T.state k with
      heap := ((T.state k).heap.wrapUp (.event e)).2
      frames := .user (H.onCall n (some (T.state k).heap.handles.nextId) arg)
        [.handle (T.state k).heap.handles.nextId] :: (T.state k).frames
      mode := .reply .done } := by
  obtain ⟨p, keeps, rule, rfl, hp⟩ := Heap.exists_native hn
  rw [← h.loads p hm] at hp
  have hstep := (State.step_of_invoke hmode).trans ((T.state k).invoke_native hp e arg)
  obtain ⟨hedit, hhanded⟩ := State.edit_of_invoke hmode
  exact ⟨h.idle hstep (hunder.trans (List.suffix_cons _ _)) hedit (Heap.Spares.wrapUp _ _ _) rfl
    (.of_reply hstep rfl hhanded), hstep⟩

/-- A simple listener starts its function. -/
theorem lends {inner : Fn} (hn : T.origin.heap.inner? m = some inner) :
    T.At (k + 1) { log with lent := log.lent ++ [(inner, arg)] } rest ∧
      T.state (k + 1) = { T.state k with
        frames := .afterSimple e arg :: (T.state k).frames
        mode := .invoke none inner none arg } ∧
      (T.state k).lends? = some (inner, arg) := by
  obtain ⟨p, rule, rfl, hp⟩ := Heap.exists_simple hn
  rw [← h.loads p hm] at hp
  have hstep := (State.step_of_invoke hmode).trans ((T.state k).invoke_simple hp e arg)
  obtain ⟨hedit, hhanded⟩ := State.edit_of_invoke hmode
  have hlends : (T.state k).lends? = some (inner, arg) := by
    unfold State.lends?
    rw [hstep]
    exact if_pos rfl
  refine ⟨h.step hstep (hunder.trans (List.suffix_cons _ _)) hedit (Heap.Spares.refl _ _) ?_ h.stands,
    hstep, hlends⟩
  have hlog : T.origin.log k = log := h.log
  rw [State.log_succ, ← hlog]
  show (⟨_ ++ (T.state k).step.mode.call?.toList, _ ++ (T.state k).lends?.toList,
    _ ++ (T.state k).handed?.toList⟩ : Log H) = _
  rw [hstep, hlends, hhanded]
  simp [Mode.call?, State.log]

end

/-! ### Going on -/

section

variable (h : T.At k log rest) {v : State H} {f : Fn} {arg : H.Arg}
  (hv : T.GoesOn k v f arg log')
include h hv

/-- At the end there is nothing to run, and the answer is nothing. -/
theorem goes_past (hrest : rest = []) :
    ∃ l, k < l ∧ T.At l log' [] ∧
      (T.state l).Matches { v with mode := .reply (.result none) } := by
  subst hrest
  obtain ⟨hstep, hscene, hevent, hunder, hedit, howner, hlog⟩ := hv
  obtain ⟨cursor, hd, hleft⟩ := h.exists_dispatch hevent
  obtain ⟨chain, hc, hcoh, hlist⟩ := h.exists_chain
  rw [← Heap.get?_scene_dispatches, ← hscene, Heap.get?_scene_dispatches] at hd
  rw [← Heap.get?_scene_chains, ← hscene, Heap.get?_scene_chains] at hc
  rw [← hlist] at hleft
  obtain ⟨g, hadvance, hhandles, hstands⟩ :=
    v.advance_end ⟨T.dispatch, f⟩ hd hc hcoh arg hleft
  rw [hadvance] at hstep
  have hnext : T.At (k + 1) log' [] := by
    refine h.step hstep (hunder.trans (List.suffix_cons _ _)) hedit ?_ hlog fun e he => ?_
    · intro ref href hchain
      show g.handles.get? _ = _ ∧ _ ≤ g.handles.count _
      rw [hhandles]
      exact howner ref href hchain
    · obtain rfl := Option.some.inj (he.symm.trans hstands)
      exact ⟨rfl, rfl⟩
  obtain ⟨l, hl, hat, hmatches⟩ := lets_go (k + 1) [] hnext (by rw [state_succ, hstep])
    (by rw [state_succ, hstep]) hunder fun _ href => absurd href List.not_mem_nil
  refine ⟨l, Nat.lt_of_succ_lt hl, hat, ?_⟩
  rw [state_succ, hstep] at hmatches
  exact ⟨hmatches.frames, hmatches.mode, hmatches.memory, hmatches.handles.trans hhandles⟩

/-- Else the next listener is run. -/
theorem goes_on {rest' : List Fn} (hrest : rest = m :: rest') :
    ∃ l entry, k < l ∧ T.At l { log' with calls := log'.calls ++ [(m, arg)] } rest' ∧
      (T.state l).Matches { v with
        frames := .await [.function m] :: v.frames
        mode := .invoke (some entry) m (some ⟨T.dispatch, m⟩) arg } := by
  subst hrest
  obtain ⟨hstep, hscene, hevent, hunder, hedit, howner, hlog⟩ := hv
  obtain ⟨cursor, hd, hleft⟩ := h.exists_dispatch hevent
  obtain ⟨chain, hc, hcoh, hlist⟩ := h.exists_chain
  rw [← Heap.get?_scene_dispatches, ← hscene, Heap.get?_scene_dispatches] at hd
  rw [← Heap.get?_scene_chains, ← hscene, Heap.get?_scene_chains] at hc
  rw [← hlist] at hleft
  obtain ⟨g, y, hadvance, hhandles, hstands, hleft'⟩ :=
    v.advance_next ⟨T.dispatch, f⟩ hd hc hcoh arg hleft
  rw [hadvance] at hstep
  have hnext : T.At (k + 1) log' rest' := by
    refine h.step hstep ?_ hedit ?_ hlog fun e he => ?_
    · exact hunder.trans (List.suffix_append [_, _, _] v.frames)
    · intro ref href hchain
      show g.handles.get? _ = _ ∧ _ ≤ g.handles.count _
      rw [hhandles]
      exact howner ref href hchain
    · obtain rfl := Option.some.inj (he.symm.trans hstands)
      rw [hlist] at hleft'
      exact ⟨rfl, hleft'⟩
  obtain ⟨l, hl, hat, hmatches⟩ := hnext.enters (by rw [state_succ, hstep])
    (by rw [state_succ, hstep]) (hunder.trans (List.suffix_cons _ _))
  refine ⟨l, ⟨T.chain, y, T.dispatch⟩, Nat.lt_of_succ_lt hl, hat, ?_⟩
  rw [state_succ, hstep] at hmatches
  exact ⟨hmatches.frames, hmatches.mode, hmatches.memory, hmatches.handles.trans hhandles⟩

end

end Trip.At

end Relay
