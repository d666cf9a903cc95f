/-
  What one step does to the chains and dispatches, SAID ONCE.

  A step of a run may touch payloads, handles, frames and memory in many ways, but of chains and
  dispatches it does one of a dozen things.  `Deed` names them, and `Change` says for each what it
  finds and what it leaves.  Every later property of chains, cursors and pins is read off `Change`,
  and the step function is opened nowhere else for it.

  A `Scene` is what such properties are about: the stored chains and dispatches, owners apart.
-/
import Relay.Proofs.Outcome
import Relay.Proofs.Tally

namespace Relay

/-! ## Scenes -/

/-- The stored chains and dispatches, owners apart. -/
structure Scene where
  chains : Table ChainId (Chain Fn)
  nextChain : ChainId
  dispatches : Table DispatchId Dispatch
  nextDispatch : DispatchId

namespace Scene

/-- Nothing is stored, and nothing ever was. -/
def empty : Scene := ⟨{}, 0, {}, 0⟩

/-- The scene with another chain in the place of `c`. -/
def setChain (v : Scene) (c : ChainId) (chain : Chain Fn) : Scene :=
  { v with chains := v.chains.modify c fun _ => chain }

/-- The scene with another dispatch in the place of `d`. -/
def setDispatch (v : Scene) (d : DispatchId) (dispatch : Dispatch) : Scene :=
  { v with dispatches := v.dispatches.modify d fun _ => dispatch }

end Scene

/-- The chain with a listener added at one of its ends. -/
def Chain.add {L : Type} (c : Chain L) (listener : L) : Placement → Chain L
  | .front => c.prepend listener
  | .back => c.append listener

/-! ## Deeds -/

/-- What a step does to chains and dispatches. -/
inductive Deed where
  | nothing
  | opened
  | added (c : ChainId) (slot : SlotId) (placement : Placement)
  | detached (c : ChainId) (slot : SlotId)
  | cleared (c : ChainId)
  /-- A call has started a dispatch. -/
  | started (entry : Entry)
  /-- A `next` has moved a dispatch on. -/
  | moved (entry : Entry)
  /-- A `next` has taken a dispatch past the end. -/
  | finished (d : DispatchId)
  /-- A `next` on a dispatch that stands nowhere. -/
  | stayed (d : DispatchId)
  /-- The last event of a dispatch has gone. -/
  | closed (d : DispatchId)
  | dropped (c : ChainId)

namespace Deed

/-- The dispatch whose `next` the step calls. -/
def next? : Deed → Option DispatchId
  | .moved e => some e.dispatch
  | .finished d | .stayed d => some d
  | _ => none

/-- The place in a chain that a listener is about to be run through because of this. -/
def entry? : Deed → Option Entry
  | .started e | .moved e => some e
  | _ => none

/-- The slots that were added. -/
def additions : Deed → List (ChainId × SlotId × Placement)
  | .added c slot placement => [(c, slot, placement)]
  | _ => []

/-- Nothing is done but to let go: of a dispatch whose last event has gone, of a chain that nobody owns
    any more. -/
def LettingGo : Deed → Prop
  | .nothing | .closed _ | .dropped _ => True
  | _ => False

/-- Who lets go neither calls `next`, nor is about to run a listener, nor adds one. -/
theorem LettingGo.quiet {deed : Deed} (h : deed.LettingGo) :
    deed.next? = none ∧ deed.entry? = none ∧ deed.additions = [] := by
  cases deed with
  | nothing | closed d | dropped c => exact ⟨rfl, rfl, rfl⟩
  | _ => exact h.elim

end Deed

/-- What each deed finds, and what it leaves. -/
inductive Change : Deed → Scene → Scene → Prop
  | nothing (v : Scene) : Change .nothing v v
  | opened (v : Scene) :
      Change .opened v
        { v with chains := v.chains.insert v.nextChain {}, nextChain := v.nextChain + 1 }
  | added {v : Scene} {c : ChainId} {chain : Chain Fn} (hc : v.chains.get? c = some chain)
      (listener : Fn) (placement : Placement) :
      Change (.added c chain.nextId placement) v (v.setChain c (chain.add listener placement))
  | detached {v : Scene} {c : ChainId} {chain : Chain Fn} {slot : SlotId}
      (hc : v.chains.get? c = some chain) (hslot : chain.contains slot = true) :
      Change (.detached c slot) v (v.setChain c (chain.detach slot).2)
  | cleared {v : Scene} {c : ChainId} {chain : Chain Fn} {shuffle : Shuffle} (hc : v.chains.get? c = some chain) :
      Change (.cleared c) v (v.setChain c (chain.clear shuffle).2)
  | started {v : Scene} {c : ChainId} {chain : Chain Fn} {slot : SlotId}
      (hc : v.chains.get? c = some chain) (hfirst : chain.first = some slot) :
      Change (.started ⟨c, slot, v.nextDispatch⟩) v
        { v.setChain c (chain.pin slot) with
          dispatches := v.dispatches.insert v.nextDispatch ⟨c, some slot⟩
          nextDispatch := v.nextDispatch + 1 }
  | moved {v : Scene} {d : DispatchId} {c : ChainId} {chain : Chain Fn} {slot next : SlotId}
      (hd : v.dispatches.get? d = some ⟨c, some slot⟩) (hc : v.chains.get? c = some chain)
      (hnext : chain.following slot = some next) :
      Change (.moved ⟨c, next, d⟩) v
        ((v.setChain c ((chain.unpin slot).2.pin next)).setDispatch d ⟨c, some next⟩)
  | finished {v : Scene} {d : DispatchId} {c : ChainId} {chain : Chain Fn} {slot : SlotId}
      (hd : v.dispatches.get? d = some ⟨c, some slot⟩) (hc : v.chains.get? c = some chain)
      -- the look-up of a slot that a link leads to never fails, but that is an invariant
      (hend : ∀ next, chain.following slot = some next →
        (chain.unpin slot).2.listener? next = none) :
      Change (.finished d) v
        ((v.setChain c (chain.unpin slot).2).setDispatch d ⟨c, none⟩)
  | stayed {v : Scene} {d : DispatchId}
      (hd : ∀ c slot, v.dispatches.get? d = some ⟨c, some slot⟩ → v.chains.get? c = none) :
      Change (.stayed d) v v
  | closed {v : Scene} {d : DispatchId} {c : ChainId} {chain : Chain Fn} {slot : SlotId}
      (hd : v.dispatches.get? d = some ⟨c, some slot⟩) (hc : v.chains.get? c = some chain) :
      Change (.closed d) v
        { v.setChain c (chain.unpin slot).2 with dispatches := v.dispatches.erase d }
  | closedPast {v : Scene} {d : DispatchId} {c : ChainId} {cursor : Option SlotId}
      (hd : v.dispatches.get? d = some ⟨c, cursor⟩)
      (hpast : ∀ slot, cursor = some slot → v.chains.get? c = none) :
      Change (.closed d) v { v with dispatches := v.dispatches.erase d }
  | dropped {v : Scene} {c : ChainId} {chain : Chain Fn} (hc : v.chains.get? c = some chain) :
      Change (.dropped c) v { v with chains := v.chains.erase c }

/-! ## The scene of a heap -/

namespace Heap

variable {T : Vocabulary}

/-- The chains and dispatches of a heap, owners apart. -/
def scene (h : Heap T) : Scene :=
  ⟨h.chains.stored, h.chains.nextId, h.dispatches.stored, h.dispatches.nextId⟩

@[simp] theorem get?_scene_chains (h : Heap T) (c : ChainId) :
    h.scene.chains.get? c = h.chains.get? c := Pool.get?_stored _ _

@[simp] theorem get?_scene_dispatches (h : Heap T) (d : DispatchId) :
    h.scene.dispatches.get? d = h.dispatches.get? d := Pool.get?_stored _ _

/-- Another owner changes nothing in the scene. -/
@[simp] theorem scene_retain (h : Heap T) (ref : Ref) : (h.retain ref).scene = h.scene := by
  cases ref with
  | function f => cases f <;> rfl
  | chain c =>
    show (⟨(h.chains.retain c).stored, _, _, _⟩ : Scene) = _
    rw [Pool.stored_retain]
    rfl
  | dispatch d =>
    show (⟨_, _, (h.dispatches.retain d).stored, _⟩ : Scene) = _
    rw [Pool.stored_retain]
    rfl
  | event e =>
    have hd :
        ({ h with dispatches := h.dispatches.retain e.dispatch } : Heap T).scene = h.scene := by
      show (⟨_, _, (h.dispatches.retain e.dispatch).stored, _⟩ : Scene) = _
      rw [Pool.stored_retain]
      rfl
    obtain ⟨d, recipient⟩ := e
    cases recipient <;> exact hd
  | handle i => rfl

@[simp] theorem scene_retainAll (h : Heap T) (refs : List Ref) :
    (h.retainAll refs).scene = h.scene := by
  induction refs generalizing h with
  | nil => rfl
  | cons ref rest ih => rw [retainAll, List.foldl_cons, ← retainAll, ih, scene_retain]

theorem get?_chains_retain (h : Heap T) (ref : Ref) (c : ChainId) :
    (h.retain ref).chains.get? c = h.chains.get? c := by
  rw [← get?_scene_chains, scene_retain, get?_scene_chains]

theorem scene_modifyChain (h : Heap T) (c : ChainId) (f : Chain Fn → Chain Fn) {chain : Chain Fn}
    (hc : h.chains.get? c = some chain) :
    ({ h with chains := h.chains.modify c f } : Heap T).scene = h.scene.setChain c (f chain) := by
  show (⟨(h.chains.modify c f).stored, _, _, _⟩ : Scene) = _
  rw [Pool.stored_modify_const _ _ hc]
  rfl

/-! ### Starting and moving a dispatch -/

theorem scene_started (h : Heap T) {c : ChainId} {chain : Chain Fn} (i : SlotId) (l : Fn)
    (hc : h.chains.get? c = some chain) :
    (h.started c i l).scene =
      { h.scene.setChain c (chain.pin i) with
        dispatches := h.scene.dispatches.insert h.scene.nextDispatch ⟨c, some i⟩
        nextDispatch := h.scene.nextDispatch + 1 } := by
  rw [started, scene_retainAll]
  show (⟨((h.chains.modify c (·.pin i)).retain c).stored, _,
    (h.dispatches.alloc ⟨c, some i⟩).2.stored, _⟩ : Scene) = _
  rw [Pool.stored_retain, Pool.stored_alloc, Pool.stored_modify_const _ _ hc]
  rfl

theorem scene_ended (h : Heap T) {c : ChainId} {chain : Chain Fn} {d : DispatchId} {old : Dispatch}
    (left : Chain Fn) (hd : h.dispatches.get? d = some old) (hc : h.chains.get? c = some chain) :
    (h.ended d c left).scene = (h.scene.setChain c left).setDispatch d ⟨old.chain, none⟩ := by
  show (⟨(h.chains.modify c fun _ => left).stored, _,
    (h.dispatches.modify d ({ · with cursor := none })).stored, _⟩ : Scene) = _
  rw [Pool.stored_modify_const _ _ hc, Pool.stored_modify_const _ _ hd]
  rfl

theorem scene_moved (h : Heap T) {c : ChainId} {chain : Chain Fn} {d : DispatchId} {old : Dispatch}
    (left : Chain Fn) (i : SlotId) (l : Fn) (hd : h.dispatches.get? d = some old)
    (hc : h.chains.get? c = some chain) :
    (h.moved d c left i l).scene =
      (h.scene.setChain c (left.pin i)).setDispatch d ⟨old.chain, some i⟩ := by
  rw [moved, scene_retainAll]
  show (⟨(h.chains.modify c fun _ => left.pin i).stored, _,
    ((h.dispatches.modify d ({ · with cursor := some i })).retain d).stored, _⟩ : Scene) = _
  rw [Pool.stored_retain, Pool.stored_modify_const _ _ hc, Pool.stored_modify_const _ _ hd]
  rfl

/-! ### Letting go -/

/-- The last event of a dispatch gives its pin back. -/
theorem closeDispatch_change (h : Heap T) {d : DispatchId} {gone : Dispatch}
    (hd : h.dispatches.get? d = some gone) (h' : Heap T) (hchains : h'.chains = h.chains)
    (hstored : h'.dispatches.stored = h.dispatches.stored.erase d)
    (hnext : h'.dispatches.nextId = h.dispatches.nextId) :
    Change (.closed d) h.scene (h'.closeDispatch gone).2.scene := by
  obtain ⟨c, cursor⟩ := gone
  have herase : h'.scene = { h.scene with dispatches := h.scene.dispatches.erase d } := by
    show (⟨_, _, h'.dispatches.stored, _⟩ : Scene) = _
    rw [hchains, hstored, hnext]
    rfl
  have hd' : h.scene.dispatches.get? d = some ⟨c, cursor⟩ := by rw [get?_scene_dispatches, hd]
  unfold closeDispatch
  rw [hchains]
  cases cursor with
  | none =>
    show Change _ _ h'.scene
    rw [herase]
    exact .closedPast hd' fun _ he => absurd he (by simp)
  | some slot =>
    cases hc : h.chains.get? c with
    | none =>
      -- the chain has gone before the dispatch, and the pin with it
      show Change _ _ h'.scene
      rw [herase]
      exact .closedPast hd' fun _ _ => by rw [get?_scene_chains, hc]
    | some chain =>
      have hscene := h'.scene_modifyChain c (fun _ => (chain.unpin slot).2) (hchains ▸ hc)
      rw [hchains, herase] at hscene
      show Change _ _
        (Heap.scene { h' with chains := h.chains.modify c fun _ => (chain.unpin slot).2 })
      rw [hscene]
      exact .closed hd' (by rw [get?_scene_chains, hc])

/-- Letting go of a share takes a chain out, closes a dispatch, or touches neither. -/
theorem release_change (h : Heap T) (ref : Ref) :
    ∃ deed : Deed, deed.LettingGo ∧ Change deed h.scene (h.release ref).2.scene := by
  -- payloads, events and handles are not part of the scene
  have nothing : ∀ v : Scene, ∃ deed : Deed, deed.LettingGo ∧ Change deed v v := fun v =>
    ⟨.nothing, trivial, .nothing v⟩
  unfold release
  cases ref with
  | function f =>
    cases f with
    | none => exact nothing _
    | some p =>
      dsimp only
      split <;> exact nothing _
  | chain c =>
    dsimp only
    rcases h.chains.release_cases c with ⟨gone, hc, -, hr, hs⟩ | ⟨hr, hs, -⟩
    · rw [show h.chains.release c = (some gone, (h.chains.release c).2) from Prod.ext hr rfl]
      refine ⟨.dropped c, trivial, ?_⟩
      show Change _ _ (⟨(h.chains.release c).2.stored, (h.chains.release c).2.nextId, _, _⟩ : Scene)
      rw [hs, Pool.nextId_release]
      exact .dropped (v := h.scene) (by rw [get?_scene_chains, hc])
    · rw [show h.chains.release c = (none, (h.chains.release c).2) from Prod.ext hr rfl]
      refine ⟨.nothing, trivial, ?_⟩
      show Change _ _ (⟨(h.chains.release c).2.stored, (h.chains.release c).2.nextId, _, _⟩ : Scene)
      rw [hs, Pool.nextId_release]
      exact .nothing h.scene
  | dispatch d =>
    dsimp only
    rcases h.dispatches.release_cases d with ⟨gone, hd, -, hr, hs⟩ | ⟨hr, hs, -⟩
    · rw [show h.dispatches.release d = (some gone, (h.dispatches.release d).2) from Prod.ext hr rfl]
      refine ⟨.closed d, trivial, ?_⟩
      exact h.closeDispatch_change hd { h with dispatches := (h.dispatches.release d).2 } rfl hs
        (Pool.nextId_release _ _)
    · rw [show h.dispatches.release d = (none, (h.dispatches.release d).2) from Prod.ext hr rfl]
      refine ⟨.nothing, trivial, ?_⟩
      show Change _ _
        (⟨_, _, (h.dispatches.release d).2.stored, (h.dispatches.release d).2.nextId⟩ : Scene)
      rw [hs, Pool.nextId_release]
      exact .nothing h.scene
  | event e => exact nothing _
  | handle i =>
    dsimp only
    split <;> exact nothing _

end Heap

end Relay
