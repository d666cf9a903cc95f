/-
  A call that is UNDERWAY, whatever simple listeners do in between.

  While nobody touches a chain, a call of it finds the chain as it was when the call was made, and
  its dispatch stands where it was left (`Trip.At`).  Functions of simple listeners may change all
  the rest of the heap meanwhile, so the heap is not described but the few things that matter are
  carried along: each step of the library keeps them, and so does a function that does no harm.

  In particular nothing ENDS when the library lets go of what a call has taken: the listeners are
  held by their slots, and the chain by whoever made the call.
-/
import Relay.Proofs.Interlude
import Relay.Proofs.Settling
import Relay.Proofs.Intact
import Relay.Proofs.Agreement

namespace Relay

variable {H : Host}

/-! ## What does not change -/

/-- A dispatch belongs to one chain. -/
theorem Change.home_eq {deed : Deed} {v w : Scene} (h : Change deed v w) (hv : v.Accounted)
    {d : DispatchId} {e e' : Dispatch} (hd : v.dispatches.get? d = some e)
    (hd' : w.dispatches.get? d = some e') : e'.chain = e.chain := by
  rcases h.dispatch_cases d with hsame | ⟨hnext, -⟩ | ⟨-, hnone⟩ | ⟨-, -, -, -, hnew, -⟩
  · rw [hsame, hd] at hd'
    rw [Option.some.inj hd']
  · cases h with
    | moved hold | finished hold =>
      obtain rfl := Option.some.inj hnext
      rw [Scene.get?_setDispatch_self hold] at hd'
      rw [← Option.some.inj hd', Option.some.inj (hd.symm.trans hold)]
    | stayed =>
      rw [hd] at hd'
      rw [Option.some.inj hd']
    | _ => exact absurd hnext (by simp [Deed.next?])
  · exact absurd (hnone.symm.trans hd') (by simp)
  · exact absurd (hv.dispatch_lt d e hd) (hnew ▸ Nat.lt_irrefl _)

theorem Heap.handles_release {T : Vocabulary} {h : Heap T} {ref : Ref} (hne : ∀ i, ref ≠ .handle i) :
    (h.release ref).2.handles = h.handles := by
  unfold Heap.release
  cases ref with
  | function f =>
    cases f with
    | none => rfl
    | some p =>
      dsimp only
      split <;> rfl
  | chain c =>
    dsimp only
    split <;> rfl
  | dispatch d =>
    dsimp only
    split
    · rfl
    · unfold Heap.closeDispatch
      split <;> rfl
  | event e => rfl
  | handle i => exact absurd rfl (hne i)

/-- A payload that stays hands nothing on. -/
theorem Heap.refs_release_function {T : Vocabulary} {h : Heap T} {f : Fn}
    (hf : h.dropped (.function f) = none) : (h.release (.function f)).1.refs = [] := by
  cases f with
  | none => rfl
  | some p =>
    unfold Heap.release
    dsimp only
    rcases h.payloads.release_cases p with ⟨load, -, hcount, -⟩ | ⟨hr, -⟩
    · rw [Heap.dropped, if_pos hcount] at hf
      exact absurd hf (by simp)
    · rw [show h.payloads.release p = (none, (h.payloads.release p).2) from Prod.ext hr rfl]

/-- Neither does a chain. -/
theorem Heap.refs_release_chain {T : Vocabulary} {h : Heap T} {c : ChainId} {chain : Chain Fn}
    (hc : (h.release (.chain c)).2.chains.get? c = some chain) :
    (h.release (.chain c)).1.refs = [] := by
  unfold Heap.release at hc ⊢
  dsimp only at hc ⊢
  rcases h.chains.release_cases c with ⟨gone, -, -, hr, hs⟩ | ⟨hr, -⟩
  · rw [show h.chains.release c = (some gone, (h.chains.release c).2) from Prod.ext hr rfl] at hc
    change (h.chains.release c).2.get? c = some chain at hc
    rw [← Pool.get?_stored, hs, Table.get?_erase, if_pos rfl] at hc
    exact absurd hc (by simp)
  · rw [show h.chains.release c = (none, (h.chains.release c).2) from Prod.ext hr rfl]

/-- A dispatch hands on its chain, and the listener of the tombstone it may have stood on. -/
theorem Heap.refs_release_dispatch {T : Vocabulary} {h : Heap T} {d : DispatchId} {ref : Ref}
    (href : ref ∈ (h.release (.dispatch d)).1.refs) :
    ∃ e, h.dispatches.get? d = some e ∧ (ref = .chain e.chain ∨ ∃ x chain l, e.cursor = some x ∧
      h.chains.get? e.chain = some chain ∧ (chain.unpin x).1 = some l ∧ ref = .function l) := by
  unfold Heap.release at href
  dsimp only at href
  rcases h.dispatches.release_cases d with ⟨gone, hd, -, hr, -⟩ | ⟨hr, -⟩
  · rw [show h.dispatches.release d = (some gone, (h.dispatches.release d).2) from Prod.ext hr rfl]
      at href
    change ref ∈ (Heap.closeDispatch { h with dispatches := (h.dispatches.release d).2 } gone).1.refs
      at href
    refine ⟨gone, hd, ?_⟩
    unfold Heap.closeDispatch at href
    split at href
    · rename_i x chain hx hc
      rcases List.mem_append.1 href with hleft | hchain
      · obtain ⟨l, hl, rfl⟩ := List.mem_map.1 hleft
        exact .inr ⟨x, chain, l, hx, hc, Option.mem_toList.1 hl, rfl⟩
      · exact .inl (List.mem_singleton.1 hchain)
    · exact .inl (List.mem_singleton.1 href)
  · rw [show h.dispatches.release d = (none, (h.dispatches.release d).2) from Prod.ext hr rfl] at href
    exact absurd href List.not_mem_nil

/-- A handle hands on what it owned. -/
theorem Heap.refs_release_handle {T : Vocabulary} {h : Heap T} {i : HandleId} {ref ref' : Ref}
    (hi : h.handles.get? i = some ref) (href : ref' ∈ (h.release (.handle i)).1.refs) : ref' = ref := by
  unfold Heap.release at href
  dsimp only at href
  rcases h.handles.release_cases i with ⟨a, ha, -, hr, -⟩ | ⟨hr, -⟩
  · rw [show h.handles.release i = (some a, (h.handles.release i).2) from Prod.ext hr rfl] at href
    rw [List.mem_singleton.1 href, Option.some.inj (hi.symm.trans ha)]
  · rw [show h.handles.release i = (none, (h.handles.release i).2) from Prod.ext hr rfl] at href
    exact absurd href List.not_mem_nil

/-- While somebody else has a share of it, it hands on nothing. -/
theorem Heap.refs_release_shared {T : Vocabulary} {h : Heap T} {i : HandleId}
    (hi : 1 < h.handles.count i) : (h.release (.handle i)).1.refs = [] := by
  unfold Heap.release
  dsimp only
  rcases h.handles.release_cases i with ⟨-, -, hcount, -⟩ | ⟨hr, -⟩
  · omega
  · rw [show h.handles.release i = (none, (h.handles.release i).2) from Prod.ext hr rfl]

/-- Who leaves a linked slot leaves it as it was. -/
theorem Chain.unpin_linked {L : Type} {c : Chain L} {ids : List SlotId} (h : c.Links ids) {x : SlotId}
    (hx : x ∈ ids) : (c.unpin x).1 = none := by
  obtain ⟨slot, hs, hlinked⟩ := h.exists_slot hx
  unfold Chain.unpin
  rw [hs]
  exact congrArg Prod.fst (if_neg (by simp [hlinked]))

namespace Reachable

variable {s : State H}

/-- A listener that is linked is there. -/
theorem exists_listed (hs : Reachable s) {c : ChainId} {p : PayloadId}
    (hp : some p ∈ s.heap.listeners c) : ∃ load, s.heap.payloads.get? p = some load := by
  obtain ⟨⟨x, f⟩, he, rfl⟩ := List.mem_map.1 hp
  cases hc : s.heap.chains.get? c with
  | none =>
    rw [Heap.listing, hc] at he
    exact absurd he List.not_mem_nil
  | some chain =>
    rw [Heap.listing_of_get? hc] at he
    have halive : s.Alive p = true :=
      (hs.alive_iff p).2 (.slot c chain x hc (Chain.listener?_of_mem_listing he).2)
    exact Option.isSome_iff_exists.1 halive

end Reachable

namespace State

/-- A frame that is neither code nor a search edits no list and hands nothing to a chain. -/
theorem edit_of_top {s : State H} {f : Frame H} {below : List (Frame H)} {r : Reply H.toVocabulary}
    (hframes : s.frames = f :: below) (hmode : s.mode = .reply r)
    (hcode : ∀ code owned, f ≠ .user code owned) (hsearch : ∀ found, f ≠ .searching found) :
    s.edit = .nothing ∧ s.handed? = none := by
  unfold edit handed? asking
  rw [hmode, hframes]
  cases f with
  | user code owned => exact absurd rfl (hcode code owned)
  | searching found => exact absurd rfl (hsearch found)
  | _ => exact ⟨rfl, rfl⟩

/-- Neither does running a function, before it has taken a turn. -/
theorem edit_of_invoke {s : State H} {entry : Option Entry} {f : Fn} {event : Option Event}
    {arg : H.Arg} (hmode : s.mode = .invoke entry f event arg) :
    s.edit = .nothing ∧ s.handed? = none := by
  unfold edit handed? asking
  rw [hmode]
  exact ⟨rfl, rfl⟩

theorem Quiet.of_reply {s t : State H} (hstep : s.step = t) {r : Reply H.toVocabulary}
    (hmode : t.mode = .reply r) (hhanded : s.handed? = none) : s.Quiet := by
  subst hstep
  exact ⟨by rw [hmode]; rfl, lends?_of_plain (by rw [hmode]; rfl), hhanded⟩

/-- A share of a handle is let go of without running code. -/
theorem step_of_releasing_handle {s : State H} {i : HandleId} {todo : List Ref}
    {r : Reply H.toVocabulary} {F : List (Frame H)}
    (hframes : s.frames = .releasing (.handle i :: todo) r :: F) (hmode : s.mode = .reply .done) :
    s.step = { s with
      heap := (s.heap.release (.handle i)).2
      frames := .releasing ((s.heap.release (.handle i)).1.refs ++ todo) r :: F
      mode := .reply .done } := by
  rcases releaseNext_spares hframes hmode with ⟨p, hp, -⟩ | hstep
  · -- a handle is not a payload
    unfold dropping at hp
    rw [hmode, hframes] at hp
    exact absurd hp (by simp [Heap.dropped])
  · exact hstep

/-- The state is like `t`, but for what is stored other than handles. -/
structure Matches (s t : State H) : Prop where
  frames : s.frames = t.frames
  mode : s.mode = t.mode
  memory : s.memory = t.memory
  handles : s.heap.handles = t.heap.handles

theorem Matches.of_eq {s t : State H} (h : s = t) : s.Matches t := h ▸ ⟨rfl, rfl, rfl, rfl⟩

end State

/-! ## A call -/

/-- The call of a chain that a program asks for. -/
structure Trip (H : Host) where
  origin : State H
  reachable : Reachable origin
  /-- The handle by which the chain is called. -/
  owner : HandleId
  arg : H.Arg
  below : List (Frame H)
  asks : origin.Asks (.call owner arg) below
  chain : ChainId
  called : origin.heap.chainOf owner = some chain

namespace Trip

variable (T : Trip H)

/-- What the run has come to after `k` steps. -/
def state (k : Nat) : State H := T.origin.after k

/-- What is under all that the call does. -/
def under : List (Frame H) := .await [.handle T.owner] :: T.below

/-- The dispatch that the call starts. -/
def dispatch : DispatchId := T.origin.heap.dispatches.nextId

/-- The slots of the chain and their listeners. -/
def list : List (SlotId × Fn) := T.origin.heap.listing T.chain

def listeners : List Fn := T.origin.heap.listeners T.chain

/-- The dispatch, if it is still there, has `rest` before it. -/
def Stands (h : Heap H.toVocabulary) (rest : List Fn) : Prop :=
  ∀ e, h.dispatches.get? T.dispatch = some e → e.chain = T.chain ∧ Plain.Left T.list e.cursor rest

/-- After `k` steps the call is underway: this is what was seen so far, and `rest` are the listeners
    that its dispatch has before it. -/
structure At (k : Nat) (log : Log H) (rest : List Fn) : Prop where
  begun : 0 < k
  log : T.origin.log k = log
  above : ∀ m, 0 < m → m ≤ k → T.under <:+ (T.state m).frames
  called : (T.state k).heap.chainOf T.owner = some T.chain
  /-- The call is not the only one to hold the handle. -/
  spared : 1 < (T.state k).heap.handles.count T.owner
  list : (T.state k).heap.listing T.chain = T.list
  loads : ∀ p, some p ∈ T.listeners →
    (T.state k).heap.payloads.get? p = T.origin.heap.payloads.get? p
  stands : T.Stands (T.state k).heap rest

variable {T}

theorem state_succ (k : Nat) : T.state (k + 1) = (T.state k).step := rfl

theorem state_add (k n : Nat) : T.state (k + n) = (T.state k).after n := T.origin.after_add k n

theorem reachable_state (k : Nat) : Reachable (T.state k) := T.reachable.after k

/-- A handle by which a chain can be called is on the chain, or on an event. -/
theorem exists_handle {h : Heap H.toVocabulary} {i : HandleId} {c : ChainId}
    (hi : h.chainOf i = some c) : ∃ ref, h.handles.get? i = some ref ∧ ref.OfChain := by
  obtain ⟨ref, href⟩ := Heap.exists_handle_of_chainOf hi
  unfold Heap.chainOf at hi
  rw [href] at hi
  cases ref with
  | chain | event => exact ⟨_, href, trivial⟩
  | _ => exact absurd hi (by simp)

/-- The chain can be called as before, if its handle is still there. -/
theorem chainOf_of_spares {h : Heap H.toVocabulary} {l : Nat} {i : HandleId} {c : ChainId}
    (hi : h.chainOf i = some c) (hspares : h.SparesHandle (T.state l).heap i)
    (hhome : ∀ d e e', h.dispatches.get? d = some e →
      (T.state l).heap.dispatches.get? d = some e' → e'.chain = e.chain) :
    (T.state l).heap.chainOf i = some c := by
  obtain ⟨ref, href⟩ := Heap.exists_handle_of_chainOf hi
  unfold Heap.chainOf at hi ⊢
  rw [href] at hi
  cases ref with
  | chain c' =>
    rw [(hspares _ href trivial).1]
    exact hi
  | event e =>
    obtain ⟨old, hold, rfl⟩ := Option.map_eq_some_iff.1 hi
    have hevent := (hspares _ href trivial).1
    -- the event keeps its dispatch
    have hhas : (T.state l).HasEvent e.dispatch :=
      ⟨.event e, ((T.state l).mem_shares_iff _).2 (.inl ⟨i, hevent⟩), .inr ⟨e.recipient, rfl⟩⟩
    obtain ⟨new, hnew⟩ := ((reachable_state l).dispatch_iff e.dispatch).2 hhas
    rw [hevent]
    show ((T.state l).heap.dispatches.get? e.dispatch).map (·.chain) = _
    rw [hnew, Option.map_some, hhome e.dispatch old new hold hnew]
  | _ => exact absurd hi (by simp)

/-- While the chain has its listeners, they are what they were. -/
theorem loads_of_list {l : Nat} (hlist : (T.state l).heap.listing T.chain = T.list) {p : PayloadId}
    (hp : some p ∈ T.listeners) :
    (T.state l).heap.payloads.get? p = T.origin.heap.payloads.get? p := by
  have hlisted : some p ∈ (T.state l).heap.listeners T.chain := by
    rw [Heap.listeners, hlist]
    exact hp
  obtain ⟨load, hload⟩ := (reachable_state l).exists_listed hlisted
  obtain ⟨old, hold⟩ := T.reachable.exists_listed hp
  have hlt : p < T.origin.heap.payloads.nextId := T.origin.heap.payloads.lt_of_get? hold
  rw [hload, T.reachable.payload_before hlt hload]

namespace At

variable {k n : Nat} {log log' : Log H} {rest rest' : List Fn}

/-- The chain is there. -/
theorem exists_chain (h : T.At k log rest) :
    ∃ chain, (T.state k).heap.chains.get? T.chain = some chain ∧ chain.Coherent ∧
      chain.listing = T.list := by
  obtain ⟨chain, hc⟩ := (reachable_state k).grounded _ _ h.called
  refine ⟨chain, hc, (reachable_state k).coherent _ chain (by rw [Heap.get?_scene_chains, hc]), ?_⟩
  rw [← Heap.listing_of_get? hc, h.list]

/-- Some steps later, if the chain has stayed as it was. -/
theorem later (h : T.At k log rest) (hlog : T.origin.log (k + n) = log')
    (habove : ∀ m ≤ n, 0 < m → T.under <:+ (T.state (k + m)).frames)
    (hspares : (T.state k).heap.SparesHandle (T.state (k + n)).heap T.owner)
    (hhome : ∀ d e e', (T.state k).heap.dispatches.get? d = some e →
      (T.state (k + n)).heap.dispatches.get? d = some e' → e'.chain = e.chain)
    (hlist : (T.state (k + n)).heap.chains.get? T.chain ≠ none →
      (T.state (k + n)).heap.listing T.chain = (T.state k).heap.listing T.chain)
    (hstands : T.Stands (T.state (k + n)).heap rest') : T.At (k + n) log' rest' := by
  have hcalled := chainOf_of_spares h.called hspares hhome
  obtain ⟨chain, hc⟩ := (reachable_state (k + n)).grounded _ _ hcalled
  have hsame : (T.state (k + n)).heap.listing T.chain = T.list :=
    (hlist (by rw [hc]; exact Option.some_ne_none chain)).trans h.list
  refine ⟨Nat.lt_of_lt_of_le h.begun (Nat.le_add_right k n), hlog, ?_, hcalled, ?_, hsame,
    fun p hp => loads_of_list hsame hp, hstands⟩
  · intro m hm hle
    rcases Nat.lt_or_ge k m with hlt | hge
    · obtain ⟨j, rfl⟩ := Nat.exists_eq_add_of_le (Nat.le_of_lt hlt)
      exact habove j (by omega) (by omega)
    · exact h.above m hm hge
  · obtain ⟨ref, href, hchain⟩ := exists_handle h.called
    exact Nat.lt_of_lt_of_le h.spared (hspares ref href hchain).2

/-- A step that edits no list and lets go of no handle on a chain. -/
theorem step (h : T.At k log rest) {t : State H} (hstep : (T.state k).step = t)
    (hunder : T.under <:+ t.frames) (hedit : (T.state k).edit = .nothing)
    (hspares : (T.state k).heap.SparesHandle t.heap T.owner) (hlog : T.origin.log (k + 1) = log')
    (hstands : T.Stands t.heap rest') : T.At (k + 1) log' rest' := by
  subst hstep
  obtain ⟨deed, hdoes⟩ := (T.state k).step_does
  refine h.later hlog (fun m hm hpos => ?_) hspares (fun d e e' hd hd' => ?_) (fun hc => ?_) hstands
  · obtain rfl : m = 1 := by omega
    exact hunder
  · exact hdoes.change.home_eq (reachable_state k).accounted
      (by rw [Heap.get?_scene_dispatches, hd]) (by rw [Heap.get?_scene_dispatches]; exact hd')
  · have hlists := (reachable_state k).passes.lists T.chain hc
    rw [hedit] at hlists
    exact hlists

/-- A step in which there is nothing to be seen, and that leaves all chains and dispatches alone. -/
theorem idle (h : T.At k log rest) {t : State H} (hstep : (T.state k).step = t)
    (hunder : T.under <:+ t.frames) (hedit : (T.state k).edit = .nothing)
    (hspares : (T.state k).heap.SparesHandle t.heap T.owner)
    (hscene : t.heap.scene = (T.state k).heap.scene)
    (hquiet : (T.state k).Quiet) : T.At (k + 1) log rest := by
  refine h.step hstep hunder hedit hspares (hquiet.log_succ.trans h.log) fun e he => ?_
  rw [← Heap.get?_scene_dispatches, hscene, Heap.get?_scene_dispatches] at he
  exact h.stands e he

/-- A function that does no harm. -/
theorem harmless (h : T.At k log rest) {M : Manner H} (hharm : M.Harmless (T.state k) n)
    (hplain : (T.state k).mode.listens = false) : T.At (k + n) log rest := by
  have hscene : (T.state (k + n)).heap.scene = (T.state k).heap.scene := by
    rw [state_add, hharm.scene]
  have hdispatch (d : DispatchId) : (T.state (k + n)).heap.dispatches.get? d =
      (T.state k).heap.dispatches.get? d := by
    rw [← Heap.get?_scene_dispatches, hscene, Heap.get?_scene_dispatches]
  refine h.later ((State.log_harmless hharm hplain).trans h.log) (fun m hm _ => ?_) ?_ ?_ ?_ ?_
  · rw [state_add]
    exact (h.above k h.begun (Nat.le_refl k)).trans (hharm.above m hm)
  · rw [state_add]
    exact hharm.handles T.owner
  · intro d e e' hd hd'
    rw [hdispatch, hd] at hd'
    rw [Option.some.inj hd']
  · intro _
    exact Heap.listing_scene hscene T.chain
  · intro e he
    rw [hdispatch] at he
    exact h.stands e he

end At

/-! ## Letting go -/

variable (T) in
/-- A share that the call has taken in the chain, in its dispatch, or in a listener. -/
def Tame : Ref → Prop
  | .function f => f ∈ T.listeners
  | .chain c => c = T.chain
  | .dispatch d => d = T.dispatch
  | .event e => e.dispatch = T.dispatch ∧ e.recipient ∈ T.listeners
  | .handle _ => False

namespace At

variable {k : Nat} {log : Log H} {rest : List Fn} {ref : Ref} {todo : List Ref}
  {r : Reply H.toVocabulary} {F : List (Frame H)}

/-- The slot of a listener keeps it. -/
theorem not_dropping (h : T.At k log rest)
    (hframes : (T.state k).frames = .releasing (ref :: todo) r :: F)
    (hmode : (T.state k).mode = .reply .done) (href : T.Tame ref) : (T.state k).dropping = none := by
  cases hdropping : (T.state k).dropping with
  | none => rfl
  | some p =>
    have hdropped : (T.state k).heap.dropped ref = some p := by
      unfold State.dropping at hdropping
      rwa [hmode, hframes] at hdropping
    obtain rfl : ref = .function (some p) := by
      unfold Heap.dropped at hdropped
      split at hdropped
      · split at hdropped
        · rw [Option.some.inj hdropped]
        · exact absurd hdropped (by simp)
      · exact absurd hdropped (by simp)
    have hlisted : some p ∈ (T.state (k + 1)).heap.listeners T.chain := by
      rw [Heap.listeners, state_succ, Heap.listing_scene (State.scene_of_dropping hdropping), h.list]
      exact href
    obtain ⟨load, hload⟩ := (reachable_state (k + 1)).exists_listed hlisted
    have hgone := ((reachable_state k).passes.dropping_iff p).1 hdropping
    have halive : (T.state (k + 1)).Alive p = true := by
      rw [State.Alive, hload]
      rfl
    exact absurd (hgone.2.symm.trans halive) (by simp)

/-- So nothing ends when such a share is let go of. -/
theorem lets_go_of (h : T.At k log rest)
    (hframes : (T.state k).frames = .releasing (ref :: todo) r :: F)
    (hmode : (T.state k).mode = .reply .done) (hF : T.under <:+ F) (href : T.Tame ref) :
    T.At (k + 1) log rest ∧ T.state (k + 1) = { T.state k with
      heap := ((T.state k).heap.release ref).2
      frames := .releasing (((T.state k).heap.release ref).1.refs ++ todo) r :: F
      mode := .reply .done } := by
  have hkeeps := h.not_dropping hframes hmode href
  have hstep : (T.state k).step = { T.state k with
      heap := ((T.state k).heap.release ref).2
      frames := .releasing (((T.state k).heap.release ref).1.refs ++ todo) r :: F
      mode := .reply .done } := by
    rcases State.releaseNext_spares hframes hmode with ⟨p, hp, -⟩ | hstep
    · exact absurd (hkeeps.symm.trans hp) (by simp)
    · exact hstep
  obtain ⟨hedit, hhanded⟩ := State.edit_of_top hframes hmode (by simp) (by simp)
  have hhandles : ((T.state k).heap.release ref).2.handles = (T.state k).heap.handles :=
    Heap.handles_release fun i he => by rw [he] at href; exact href
  refine ⟨?_, hstep⟩
  refine h.step hstep (hF.trans (List.suffix_cons _ F)) hedit (Heap.Spares.of_eq hhandles _)
    ((State.Quiet.of_reply hstep rfl hhanded).log_succ.trans h.log) fun e he => ?_
  obtain ⟨deed, hdeed, hchange⟩ := (T.state k).heap.release_change ref
  rw [← Heap.get?_scene_dispatches] at he
  rcases hchange.dispatch_cases T.dispatch with hsame | ⟨hnext, -⟩ | ⟨-, hnone⟩ | ⟨_, _, _, rfl, -⟩
  · rw [hsame, Heap.get?_scene_dispatches] at he
    exact h.stands e he
  · exact absurd (hdeed.quiet.1.symm.trans hnext) (by simp)
  · exact absurd (hnone.symm.trans he) (by simp)
  · exact hdeed.elim

/-- What comes of letting go of it are such shares again. -/
theorem tame_of_release (h : T.At k log rest)
    (hframes : (T.state k).frames = .releasing (ref :: todo) r :: F)
    (hmode : (T.state k).mode = .reply .done) (hF : T.under <:+ F) (href : T.Tame ref) {ref' : Ref}
    (href' : ref' ∈ ((T.state k).heap.release ref).1.refs) : T.Tame ref' := by
  cases ref with
  | function f =>
    have hkeeps := h.not_dropping hframes hmode href
    have hdropped : (T.state k).heap.dropped (.function f) = none := by
      unfold State.dropping at hkeeps
      rwa [hmode, hframes] at hkeeps
    rw [Heap.refs_release_function hdropped] at href'
    exact absurd href' List.not_mem_nil
  | chain c =>
    -- the chain is still there afterwards
    obtain ⟨hnext, hstep⟩ := h.lets_go_of hframes hmode hF href
    obtain rfl : c = T.chain := href
    obtain ⟨chain, hc, -⟩ := hnext.exists_chain
    rw [hstep] at hc
    rw [Heap.refs_release_chain hc] at href'
    exact absurd href' List.not_mem_nil
  | dispatch d =>
    obtain rfl : d = T.dispatch := href
    obtain ⟨e, he, hcases⟩ := Heap.refs_release_dispatch href'
    obtain ⟨hchain, hleft⟩ := h.stands e he
    rcases hcases with rfl | ⟨x, chain, l, hx, hc, hl, -⟩
    · exact hchain
    · -- the dispatch stands on a slot that is linked
      obtain ⟨chain', hc', hcoh, hlist⟩ := h.exists_chain
      rw [hchain, hc'] at hc
      obtain rfl := Option.some.inj hc
      rw [hx, ← hlist] at hleft
      exact absurd (hl.symm.trans (Chain.unpin_linked hcoh.links hleft.mem_order)) (by simp)
  | event e =>
    obtain ⟨hd, hl⟩ := href
    rcases List.mem_pair.1 href' with rfl | rfl
    · exact hd
    · exact hl
  | handle i => exact href.elim

/-- A frame lets go of such shares, one after the other, and gives its answer. -/
theorem lets_go (k : Nat) (todo : List Ref) (h : T.At k log rest)
    (hframes : (T.state k).frames = .releasing todo r :: F) (hmode : (T.state k).mode = .reply .done)
    (hF : T.under <:+ F) (htodo : ∀ ref ∈ todo, T.Tame ref) :
    ∃ l, k < l ∧ T.At l log rest ∧
      (T.state l).Matches { T.state k with frames := F, mode := .reply r } := by
  cases todo with
  | nil =>
    have hstep : (T.state k).step = { T.state k with frames := F, mode := .reply r } :=
      State.step_of_top hframes hmode
    obtain ⟨hedit, hhanded⟩ := State.edit_of_top hframes hmode (by simp) (by simp)
    exact ⟨k + 1, Nat.lt_succ_self k, h.idle hstep hF hedit (Heap.Spares.refl _ _) rfl
      (.of_reply hstep rfl hhanded), .of_eq hstep⟩
  | cons ref todo =>
    have href : T.Tame ref := htodo ref List.mem_cons_self
    obtain ⟨hnext, hstep⟩ := h.lets_go_of hframes hmode hF href
    have hless := (T.state k).heap.release_owners ref
    have hhandles : ((T.state k).heap.release ref).2.handles = (T.state k).heap.handles :=
      Heap.handles_release fun i he => by rw [he] at href; exact href
    have hall : ∀ ref' ∈ ((T.state k).heap.release ref).1.refs ++ todo, T.Tame ref' := by
      intro ref' href'
      rcases List.mem_append.1 href' with hnew | hold
      · exact h.tame_of_release hframes hmode hF href hnew
      · exact htodo ref' (List.mem_cons_of_mem ref hold)
    obtain ⟨l, hl, hat, hmatches⟩ := lets_go (k + 1)
      (((T.state k).heap.release ref).1.refs ++ todo) hnext (by rw [hstep]) (by rw [hstep]) hF hall
    refine ⟨l, Nat.lt_of_succ_lt hl, hat, ?_⟩
    rw [hstep] at hmatches
    exact ⟨hmatches.frames, hmatches.mode, hmatches.memory, hmatches.handles.trans hhandles⟩
termination_by ((T.state k).heap.owners, (todo.map Ref.bulk).sum)
decreasing_by
  subst_vars
  rw [hstep]
  simp only [List.map_append, List.sum_append, List.map_cons, List.sum_cons]
  rcases hless with hgone | ⟨hsame, hbulk⟩
  · exact .left _ _ hgone
  · rw [hsame]
    exact .right _ (by omega)

/-- A frame that holds such shares passes the answer on. -/
theorem passes_on (h : T.At k log rest) {held : List Ref}
    (hframes : (T.state k).frames = .await held :: F) (hmode : (T.state k).mode = .reply r)
    (hF : T.under <:+ F) (hheld : ∀ ref ∈ held, T.Tame ref) :
    ∃ l, k < l ∧ T.At l log rest ∧
      (T.state l).Matches { T.state k with frames := F, mode := .reply r } := by
  have hstep : (T.state k).step = ({ T.state k with frames := F } : State H).release held r :=
    State.step_of_top hframes hmode
  obtain ⟨hedit, hhanded⟩ := State.edit_of_top hframes hmode (by simp) (by simp)
  have hnext : T.At (k + 1) log rest :=
    h.idle hstep (hF.trans (List.suffix_cons _ F)) hedit (Heap.Spares.refl _ _) rfl
      (.of_reply hstep rfl hhanded)
  obtain ⟨l, hl, hat, hmatches⟩ := lets_go (k + 1) held hnext (by rw [state_succ, hstep]; rfl)
    (by rw [state_succ, hstep]; rfl) hF hheld
  refine ⟨l, Nat.lt_of_succ_lt hl, hat, ?_⟩
  rw [state_succ, hstep] at hmatches
  exact hmatches

/-- So does a frame that holds a handle on an event of the dispatch. -/
theorem lets_go_handle (h : T.At k log rest) {j : HandleId} {e : Event}
    (hframes : (T.state k).frames = .releasing [.handle j] r :: F)
    (hmode : (T.state k).mode = .reply .done) (hF : T.under <:+ F)
    (hj : (T.state k).heap.handles.get? j = some (.event e)) (he : T.Tame (.event e))
    (hne : j ≠ T.owner) :
    ∃ l, k < l ∧ T.At l log rest ∧ (T.state l).Matches { T.state k with
      heap := ((T.state k).heap.release (.handle j)).2, frames := F, mode := .reply r } := by
  have hstep := State.step_of_releasing_handle hframes hmode
  obtain ⟨hedit, hhanded⟩ := State.edit_of_top hframes hmode (by simp) (by simp)
  have hscene : ((T.state k).heap.release (.handle j)).2.scene = (T.state k).heap.scene := by
    unfold Heap.release
    dsimp only
    split <;> rfl
  have howner : (T.state k).heap.SparesHandle ((T.state k).heap.release (.handle j)).2 T.owner := by
    intro ref href _
    rw [Heap.handles_release_handle, Pool.get?_release, Pool.count_release, if_neg hne,
      if_neg fun hj => hne hj.1]
    exact ⟨href, Nat.le_refl _⟩
  have hnext : T.At (k + 1) log rest := h.idle hstep (hF.trans (List.suffix_cons _ F)) hedit howner
    hscene (.of_reply hstep rfl hhanded)
  have htame : ∀ ref ∈ ((T.state k).heap.release (.handle j)).1.refs ++ [], T.Tame ref := by
    intro ref href
    rw [List.append_nil] at href
    obtain rfl := Heap.refs_release_handle hj href
    exact he
  obtain ⟨l, hl, hat, hmatches⟩ := lets_go (k + 1) _ hnext (by rw [state_succ, hstep])
    (by rw [state_succ, hstep]) hF htame
  refine ⟨l, Nat.lt_of_succ_lt hl, hat, ?_⟩
  rw [state_succ, hstep] at hmatches
  exact hmatches

end At

end Trip

end Relay
