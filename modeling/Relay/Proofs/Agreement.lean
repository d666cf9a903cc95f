/-
  What the plain interpreter and the library agree on while they do the same.

  The interpreter has one list for a dispatch, where the library has a cursor in a chain, a pin
  under it, and events, handles and frames that share it.  What is left of the list are the
  listeners behind the cursor (`Left`).  Everything else still looks as code sees it (`Shows`), since
  a task that is done leaves the heap as it found it, but for the place where its dispatch stands and
  for numbers that are used up (`Leaves`).  `Agrees` is all of this together; the lemmas say that it
  survives whatever a dispatch does.
-/
import Relay.Proofs.Restore
import Relay.Proofs.Reference

namespace Relay

/-! ## What is left behind a cursor -/

namespace Chain

variable {L : Type} {c : Chain L}

theorem following_pin (c : Chain L) (x y : SlotId) : (c.pin x).following y = c.following y := by
  rw [following, get?_pin, following]
  split
  · cases c.slots.get? y <;> rfl
  · rfl

theorem Coherent.pinnedAt (h : c.Coherent) (pos : Option SlotId) : (c.pinnedAt pos).Coherent := by
  cases pos with
  | none => exact h
  | some x => exact h.operate (.pin x)

theorem listing_pinnedAt (h : c.Coherent) (pos : Option SlotId) :
    (c.pinnedAt pos).listing = c.listing := by
  cases pos with
  | none => rfl
  | some x => exact listing_pin h x

end Chain

namespace Plain

/-- These listeners come after the place where a dispatch stands. -/
def Left (list : List (SlotId × Fn)) : Option SlotId → List Fn → Prop
  | none, rest => rest = []
  | some x, rest => ∃ pre l post, list = pre ++ (x, l) :: post ∧ rest = post.map (·.2)

section Left

variable {chain : Chain Fn} {x : SlotId} {rest : List Fn}

theorem Left.mem_order (h : Left chain.listing (some x) rest) : x ∈ chain.order := by
  obtain ⟨pre, l, post, hlist, -⟩ := h
  have hmem : (x, l) ∈ chain.listing := hlist ▸ List.mem_append_right pre List.mem_cons_self
  exact (Chain.listener?_of_mem_listing hmem).1

/-- Links lead along the list. -/
theorem following_of_listing (hc : chain.Coherent) {pre post : List (SlotId × Fn)} {l : Fn}
    (hlist : chain.listing = pre ++ (x, l) :: post) :
    chain.following x = (post.map (·.1)).head? := by
  refine hc.forward x (post.map (·.1)) ⟨pre.map (·.1), ?_⟩
  rw [← hc.map_listing, hlist, List.map_append, List.map_cons]

/-- Behind the last listener there is nothing. -/
theorem Left.following_nil (hc : chain.Coherent) (h : Left chain.listing (some x) []) :
    chain.following x = none := by
  obtain ⟨pre, l, post, hlist, hrest⟩ := h
  rw [following_of_listing hc hlist, List.map_eq_nil_iff.1 hrest.symm]
  rfl

/-- The slot that follows has the first listener that is left. -/
theorem Left.following_cons (hc : chain.Coherent) {m : Fn}
    (h : Left chain.listing (some x) (m :: rest)) :
    ∃ y, chain.following x = some y ∧ (y, m) ∈ chain.listing ∧
      Left chain.listing (some y) rest := by
  obtain ⟨pre, l, post, hlist, hrest⟩ := h
  cases post with
  | nil => exact absurd hrest (by simp)
  | cons e post =>
    obtain ⟨y, m'⟩ := e
    obtain ⟨rfl, rfl⟩ := List.cons.inj hrest
    have hmem : (y, m) ∈ chain.listing := by
      rw [hlist]
      exact List.mem_append_right pre (List.mem_cons_of_mem _ List.mem_cons_self)
    refine ⟨y, ?_, hmem, pre ++ [(x, l)], m, post, ?_, rfl⟩
    · rw [following_of_listing hc hlist]
      rfl
    · rw [hlist, List.append_assoc]
      rfl

/-- Where a dispatch begins. -/
theorem Left.first (hc : chain.Coherent) {m : Fn} (h : chain.listing.map (·.2) = m :: rest) :
    ∃ y, chain.first = some y ∧ (y, m) ∈ chain.listing ∧ Left chain.listing (some y) rest := by
  obtain ⟨⟨y, m'⟩, post, hlist, rfl, rfl⟩ := List.map_eq_cons_iff.1 h
  have hmem : (y, m') ∈ chain.listing := hlist ▸ List.mem_cons_self
  refine ⟨y, ?_, hmem, [], m', post, hlist, rfl⟩
  rw [hc.begins, ← hc.map_listing, hlist]
  rfl

end Left

/-! ## The dispatch that code runs in -/

/-- A dispatch that is on its way: its number, the number of its chain, and what that chain is
    without the pin of this dispatch. -/
structure Journey where
  dispatch : DispatchId
  home : ChainId
  chain : Chain Fn

namespace Journey

/-- What a listener receives that is run by this dispatch. -/
def event (j : Journey) (f : Fn) : Event := ⟨j.dispatch, f⟩

/-- The dispatch stands here. -/
structure At {T : Vocabulary} (j : Journey) (h : Heap T) (pos : Option SlotId) : Prop where
  chained : h.chains.get? j.home = some (j.chain.pinnedAt pos)
  stands : h.dispatches.get? j.dispatch = some ⟨j.home, pos⟩
  coherent : j.chain.Coherent

end Journey

/-- What is found at the number of the dispatch. -/
theorem Journey.At.eq_of_found {T : Vocabulary} {j : Journey} {h : Heap T}
    {pos cursor : Option SlotId} {c : ChainId} {chain : Chain Fn} (hj : j.At h pos)
    (hd : h.dispatches.get? j.dispatch = some ⟨c, cursor⟩) (hc : h.chains.get? c = some chain) :
    c = j.home ∧ cursor = pos ∧ chain = j.chain.pinnedAt pos := by
  obtain ⟨rfl, rfl⟩ := Dispatch.mk.inj (Option.some.inj (hj.stands.symm.trans hd))
  exact ⟨rfl, rfl, Option.some.inj (hc.symm.trans hj.chained)⟩

/-- Where the dispatch stands, if there is one. -/
def Standing {T : Vocabulary} (h : Heap T) : Option Journey → Option SlotId → Prop
  | none, _ => True
  | some j, pos => j.At h pos

/-- What is left to it; past the end there is not even a place. -/
def Remains : Option Journey → Option SlotId → Rest → Prop
  | none, _, rest => rest = none
  | some _, none, rest => rest = none
  | some j, some x, rest => ∃ left, rest = some left ∧ Left j.chain.listing (some x) left

end Plain

open Plain

namespace Heap

variable {T : Vocabulary}

/-- The heap with the dispatch, if there is one, standing at `pos`. -/
def placed (h : Heap T) (j : Option Journey) (pos : Option SlotId) : Heap T :=
  match j with
  | none => h
  | some j => h.stand j.home j.dispatch j.chain pos

theorem placed_placed (h : Heap T) (j : Option Journey) (pos pos' : Option SlotId) :
    (h.placed j pos).placed j pos' = h.placed j pos' := by
  cases j with
  | none => rfl
  | some j => exact h.stand_stand j.home j.dispatch j.chain pos pos'

theorem placed_aged (h : Heap T) (j : Option Journey) (pos : Option SlotId) (i k l : Nat) :
    (h.aged i k l).placed j pos = (h.placed j pos).aged i k l := by
  cases j <;> rfl

theorem placed_wrapUp (h : Heap T) (j : Option Journey) (pos : Option SlotId) (ref : Ref) :
    (h.wrapUp ref).2.placed j pos = ((h.placed j pos).wrapUp ref).2 := by
  cases j <;> rfl

theorem placed_retain_handle (h : Heap T) (j : Option Journey) (pos : Option SlotId)
    (i : HandleId) : (h.retain (.handle i)).placed j pos = (h.placed j pos).retain (.handle i) := by
  cases j <;> rfl

theorem placed_retainAll_handles (h : Heap T) (j : Option Journey) (pos : Option SlotId)
    (is : List HandleId) : (h.retainAll (is.map .handle)).placed j pos =
      (h.placed j pos).retainAll (is.map .handle) := by
  induction is generalizing h with
  | nil => rfl
  | cons i is ih =>
    refine (ih (h.retain (.handle i))).trans ?_
    rw [placed_retain_handle]
    rfl

theorem handles_placed (h : Heap T) (j : Option Journey) (pos : Option SlotId) :
    (h.placed j pos).handles = h.handles := by
  cases j <;> rfl

theorem payloads_placed (h : Heap T) (j : Option Journey) (pos : Option SlotId) :
    (h.placed j pos).payloads = h.payloads := by
  cases j <;> rfl

/-- Moving on is standing somewhere else, with one event more. -/
theorem moved_eq_placed (h : Heap T) (j : Journey) (i : SlotId) (l : Fn) :
    h.moved j.dispatch j.home j.chain i l =
      ((h.placed (some j) (some i)).retain (.dispatch j.dispatch)).retainAll
        [.function l, .function l] := rfl

theorem placed_eq_self {h : Heap T} {j : Option Journey} {pos : Option SlotId}
    (hj : Standing h j pos) : h.placed j pos = h := by
  cases j with
  | none => rfl
  | some j => exact stand_eq_self hj.chained hj.stands

end Heap

namespace Plain

section

variable {T : Vocabulary} {h : Heap T}

theorem Journey.At.retain {j : Journey} {pos : Option SlotId} (hj : j.At h pos) (ref : Ref) :
    j.At (h.retain ref) pos where
  chained := by rw [Heap.get?_chains_retain, hj.chained]
  stands := by rw [← Heap.get?_scene_dispatches, Heap.scene_retain, Heap.get?_scene_dispatches,
    hj.stands]
  coherent := hj.coherent

theorem Journey.At.stand {j : Journey} {pos : Option SlotId} (hj : j.At h pos)
    (pos' : Option SlotId) : j.At (h.stand j.home j.dispatch j.chain pos') pos' where
  chained := by
    show (h.chains.modify _ _).get? j.home = _
    rw [Pool.get?_modify, if_pos rfl, hj.chained]
    rfl
  stands := by
    show (h.dispatches.modify _ _).get? j.dispatch = _
    rw [Pool.get?_modify, if_pos rfl, hj.stands]
    rfl
  coherent := hj.coherent

/-- A dispatch that has just begun. -/
theorem Journey.At.started {c : ChainId} {chain : Chain Fn} (hc : h.chains.get? c = some chain)
    (hcoh : chain.Coherent) (i : SlotId) (l : Fn) :
    (⟨h.dispatches.nextId, c, chain⟩ : Journey).At (h.started c i l) (some i) where
  chained := by
    rw [← Heap.get?_scene_chains, Heap.started, Heap.scene_retainAll, Heap.get?_scene_chains]
    show ((h.chains.modify c (·.pin i)).retain c).get? c = _
    rw [Pool.get?_retain, Pool.get?_modify, if_pos rfl, hc]
    rfl
  stands := by
    rw [← Heap.get?_scene_dispatches, Heap.started, Heap.scene_retainAll,
      Heap.get?_scene_dispatches]
    show (h.dispatches.alloc ⟨c, some i⟩).2.get? _ = _
    rw [Pool.get?_alloc, if_pos rfl]
  coherent := hcoh

theorem Standing.retain {j : Option Journey} {pos : Option SlotId} (hj : Standing h j pos)
    (ref : Ref) : Standing (h.retain ref) j pos := by
  cases j with
  | none => exact hj
  | some j => exact Journey.At.retain hj ref

theorem Standing.placed {j : Option Journey} {pos : Option SlotId} (hj : Standing h j pos)
    (pos' : Option SlotId) : Standing (h.placed j pos') j pos' := by
  cases j with
  | none => exact hj
  | some j => exact Journey.At.stand hj pos'

theorem Standing.aged {j : Option Journey} {pos : Option SlotId} (hj : Standing h j pos)
    (i k l : Nat) : Standing (h.aged i k l) j pos := by
  cases j with
  | none => exact hj
  | some j => exact ⟨hj.chained, hj.stands, hj.coherent⟩

theorem Standing.wrapUp {j : Option Journey} {pos : Option SlotId} (hj : Standing h j pos)
    (ref : Ref) : Standing (h.wrapUp ref).2 j pos := by
  cases j with
  | none => exact hj
  | some j => exact ⟨hj.chained, hj.stands, hj.coherent⟩

end

/-! ## What everything else looks like -/

/-- The heap `g` looks as `h` did, but for where dispatch `d` stands, and for handles and dispatches
    that have come since. -/
structure Resembles {T : Vocabulary} (d : Option DispatchId) (h g : Heap T) : Prop where
  lists : ∀ c, (g.chains.get? c).map Chain.listing = (h.chains.get? c).map Chain.listing
  coherent : ∀ c chain, g.chains.get? c = some chain → h.chains.get? c = some chain ∨ chain.Coherent
  payloads : ∀ q, g.payloads.get? q = h.payloads.get? q
  handles : ∀ i ref, h.handles.get? i = some ref → g.handles.get? i = some ref
  dispatches : ∀ k e, h.dispatches.get? k = some e → ∃ e', g.dispatches.get? k = some e' ∧
    e'.chain = e.chain ∧ (d ≠ some k → e'.cursor = e.cursor)

namespace Resembles

variable {T : Vocabulary} {d : Option DispatchId} {h g k : Heap T}

/-- What is found at every number is the same. -/
theorem of_eq (hchains : ∀ c, g.chains.get? c = h.chains.get? c)
    (hpayloads : ∀ q, g.payloads.get? q = h.payloads.get? q)
    (hhandles : ∀ i, g.handles.get? i = h.handles.get? i)
    (hdispatches : ∀ k, g.dispatches.get? k = h.dispatches.get? k) : Resembles d h g where
  lists := fun c => by rw [hchains]
  coherent := fun c chain hc => .inl ((hchains c).symm.trans hc)
  payloads := hpayloads
  handles := fun i ref hi => (hhandles i).trans hi
  dispatches := fun k e hk => ⟨e, (hdispatches k).trans hk, rfl, fun _ => rfl⟩

theorem trans (hg : Resembles d h g) (hk : Resembles d g k) : Resembles d h k where
  lists := fun c => (hk.lists c).trans (hg.lists c)
  coherent := fun c chain hc => (hk.coherent c chain hc).elim (hg.coherent c chain) .inr
  payloads := fun q => (hk.payloads q).trans (hg.payloads q)
  handles := fun i ref hi => hk.handles i ref (hg.handles i ref hi)
  dispatches := fun l e hl => by
    obtain ⟨e', he', hchain, hcursor⟩ := hg.dispatches l e hl
    obtain ⟨e'', he'', hchain', hcursor'⟩ := hk.dispatches l e' he'
    exact ⟨e'', he'', hchain'.trans hchain, fun hd => (hcursor' hd).trans (hcursor hd)⟩

theorem retain (h : Heap T) (ref : Ref) : Resembles d h (h.retain ref) :=
  .of_eq (h.get?_chains_retain ref) (h.get?_payloads_retain ref) (h.get?_handles_retain ref)
    fun k => by rw [← Heap.get?_scene_dispatches, Heap.scene_retain, Heap.get?_scene_dispatches]

theorem retainAll (h : Heap T) (refs : List Ref) : Resembles d h (h.retainAll refs) := by
  induction refs generalizing h with
  | nil => exact .of_eq (fun _ => rfl) (fun _ => rfl) (fun _ => rfl) fun _ => rfl
  | cons ref rest ih => exact (retain h ref).trans (ih (h.retain ref))

theorem aged (h : Heap T) (i j k : Nat) : Resembles d h (h.aged i j k) :=
  .of_eq (fun _ => rfl) (fun _ => rfl) (fun _ => rfl) fun _ => rfl

theorem wrapUp (h : Heap T) (ref : Ref) : Resembles d h (h.wrapUp ref).2 where
  lists := fun _ => rfl
  coherent := fun _ _ hc => .inl hc
  payloads := fun _ => rfl
  handles := fun i ref' hi => by
    have hne : h.handles.nextId ≠ i := (h.handles.lt_of_get? hi).ne'
    show (h.handles.alloc ref).2.get? i = _
    rw [Pool.get?_alloc, if_neg hne, hi]
  dispatches := fun _ e hk => ⟨e, hk, rfl, fun _ => rfl⟩

/-- A chain may be written anew if it shows the same list. -/
theorem modifyChain {c : ChainId} {old new : Chain Fn} (hc : h.chains.get? c = some old)
    (hlist : new.listing = old.listing) (hcoh : new.Coherent) (f : Chain Fn → Chain Fn)
    (hf : f old = new) : Resembles d h { h with chains := h.chains.modify c f } := by
  have hget (c' : ChainId) : (h.chains.modify c f).get? c' =
      if c = c' then some new else h.chains.get? c' := by
    rw [Pool.get?_modify]
    split
    · rename_i he
      rw [← he, hc, Option.map_some, hf]
    · rfl
  refine ⟨fun c' => ?_, fun c' chain hc' => ?_, fun _ => rfl, fun _ _ hi => hi,
    fun _ e hk => ⟨e, hk, rfl, fun _ => rfl⟩⟩
  · show ((h.chains.modify c f).get? c').map Chain.listing = _
    rw [hget]
    split
    · rename_i he
      rw [← he, hc, Option.map_some, Option.map_some, hlist]
    · rfl
  · replace hc' : (h.chains.modify c f).get? c' = some chain := hc'
    rw [hget] at hc'
    split at hc'
    · exact .inr (Option.some.inj hc' ▸ hcoh)
    · exact .inl hc'

theorem modifyDispatch (h : Heap T) (k : DispatchId) (pos : Option SlotId) :
    Resembles (some k) h { h with dispatches := h.dispatches.modify k ({ · with cursor := pos }) } where
  lists := fun _ => rfl
  coherent := fun _ _ hc => .inl hc
  payloads := fun _ => rfl
  handles := fun _ _ hi => hi
  dispatches := fun l e hl => by
    by_cases hk : k = l
    · subst hk
      refine ⟨{ e with cursor := pos }, ?_, rfl, fun hne => absurd rfl hne⟩
      show (h.dispatches.modify k _).get? k = _
      rw [Pool.get?_modify, if_pos rfl, hl]
      rfl
    · refine ⟨e, ?_, rfl, fun _ => rfl⟩
      show (h.dispatches.modify k _).get? l = _
      rw [Pool.get?_modify, if_neg hk, hl]

theorem allocDispatch (h : Heap T) (e : Dispatch) :
    Resembles d h { h with dispatches := (h.dispatches.alloc e).2 } where
  lists := fun _ => rfl
  coherent := fun _ _ hc => .inl hc
  payloads := fun _ => rfl
  handles := fun _ _ hi => hi
  dispatches := fun l e' hl => by
    have hne : h.dispatches.nextId ≠ l := (h.dispatches.lt_of_get? hl).ne'
    refine ⟨e', ?_, rfl, fun _ => rfl⟩
    show (h.dispatches.alloc e).2.get? l = _
    rw [Pool.get?_alloc, if_neg hne, hl]

theorem placed {j : Option Journey} {pos : Option SlotId} (hj : Standing h j pos)
    (pos' : Option SlotId) : Resembles (j.map (·.dispatch)) h (h.placed j pos') := by
  cases j with
  | none => exact .of_eq (fun _ => rfl) (fun _ => rfl) (fun _ => rfl) fun _ => rfl
  | some j =>
    have hlist : (j.chain.pinnedAt pos').listing = (j.chain.pinnedAt pos).listing := by
      rw [Chain.listing_pinnedAt hj.coherent, Chain.listing_pinnedAt hj.coherent]
    let moved : Heap T :=
      { h with dispatches := h.dispatches.modify j.dispatch ({ · with cursor := pos' }) }
    have hmoved : moved.chains.get? j.home = some (j.chain.pinnedAt pos) := hj.chained
    exact (modifyDispatch h j.dispatch pos').trans
      (.modifyChain hmoved hlist (hj.coherent.pinnedAt pos') _ rfl)

theorem started {c : ChainId} {chain : Chain Fn} (hc : h.chains.get? c = some chain)
    (hcoh : chain.Coherent) (i : SlotId) (l : Fn) : Resembles d h (h.started c i l) := by
  have hpinned : Resembles d h { h with chains := h.chains.modify c (·.pin i) } :=
    .modifyChain hc (Chain.listing_pin hcoh i) (hcoh.operate (.pin i)) _ rfl
  exact ((hpinned.trans (.retain _ (.chain c))).trans (.allocDispatch _ ⟨c, some i⟩)).trans
    (.retainAll _ _)

theorem listing_eq (hg : Resembles d h g) (c : ChainId) : g.listing c = h.listing c := by
  rw [Heap.listing, hg.lists, Heap.listing]

theorem stores (hg : Resembles d h g) {f : Fn} (hf : h.Stores f) : g.Stores f := by
  intro q hq
  rw [hg.payloads]
  exact hf q hq

theorem functionOf (hg : Resembles d h g) {i : HandleId} {f : Fn} (hi : h.functionOf i = some f) :
    g.functionOf i = some f := by
  obtain ⟨ref, href⟩ := Heap.exists_handle_of_functionOf hi
  unfold Heap.functionOf at hi ⊢
  rw [hg.handles i ref href, ← href]
  exact hi

/-- A chain that could be reached is still there. -/
theorem chain_isSome (hg : Resembles d h g) {c : ChainId} {chain : Chain Fn}
    (hc : h.chains.get? c = some chain) : ∃ chain', g.chains.get? c = some chain' := by
  have hlists := hg.lists c
  rw [hc, Option.map_some] at hlists
  obtain ⟨chain', hc', -⟩ := Option.map_eq_some_iff.1 hlists
  exact ⟨chain', hc'⟩

theorem chainOf (hg : Resembles d h g) {i : HandleId} {c : ChainId} (hi : h.chainOf i = some c) :
    g.chainOf i = some c := by
  obtain ⟨ref, href⟩ := Heap.exists_handle_of_chainOf hi
  unfold Heap.chainOf at hi ⊢
  rw [href] at hi
  rw [hg.handles i ref href]
  cases ref with
  | event e =>
    obtain ⟨k, hk, hchain⟩ := Option.map_eq_some_iff.1 hi
    obtain ⟨k', hk', hsame, -⟩ := hg.dispatches e.dispatch k hk
    exact Option.map_eq_some_iff.2 ⟨k', hk', hsame.trans hchain⟩
  | _ => exact hi

end Resembles

/-! ## What code sees -/

section Shows

variable {H : Host} {v : View H} {h g : Heap H.toVocabulary} {j : Option Journey}

/-- What code sees is so, while `j` is the dispatch that it runs in. -/
structure Shows (v : View H) (h : Heap H.toVocabulary) (j : Option Journey) : Prop where
  lists : ∀ c, v.listeners c = (h.listing c).map (·.2)
  /-- A listener of a chain is stored. -/
  listed : ∀ c, ∀ e ∈ h.listing c, h.Stores e.2
  coherent : ∀ c chain, h.chains.get? c = some chain → chain.Coherent
  payloads : ∀ q, v.payload q = h.payloads.get? q
  functions : ∀ i f, v.functionOf i = some f → h.functionOf i = some f ∧ h.Stores f
  chains : ∀ i c, v.chainOf i = some c →
    h.chainOf i = some c ∧ ∃ chain, h.chains.get? c = some chain
  finished : ∀ i b, v.finished i = some b → ∃ e k, h.handles.get? i = some (.event e) ∧
    h.dispatches.get? e.dispatch = some k ∧ k.cursor.isNone = b ∧
      j.map (·.dispatch) ≠ some e.dispatch

namespace Shows

theorem resembles (hv : Shows v h j) (hg : Resembles (j.map (·.dispatch)) h g) : Shows v g j where
  lists := fun c => by rw [hg.listing_eq, hv.lists]
  listed := fun c e he => hg.stores (hv.listed c e (hg.listing_eq c ▸ he))
  coherent := fun c chain hc => (hg.coherent c chain hc).elim (hv.coherent c chain) id
  payloads := fun q => (hv.payloads q).trans (hg.payloads q).symm
  functions := fun i f hi =>
    ⟨hg.functionOf (hv.functions i f hi).1, hg.stores (hv.functions i f hi).2⟩
  chains := fun i c hi => by
    obtain ⟨hchain, chain, hc⟩ := hv.chains i c hi
    exact ⟨hg.chainOf hchain, hg.chain_isSome hc⟩
  finished := fun i b hi => by
    obtain ⟨e, k, he, hk, hb, hne⟩ := hv.finished i b hi
    obtain ⟨k', hk', -, hcursor⟩ := hg.dispatches e.dispatch k hk
    exact ⟨e, k', hg.handles i _ he, hk', by rw [hcursor hne, hb], hne⟩

/-- Code outside of any dispatch sees as much. -/
theorem outside (hv : Shows v h j) : Shows v h none :=
  { hv with
    finished := fun i b hi => by
      obtain ⟨e, k, he, hk, hb, -⟩ := hv.finished i b hi
      exact ⟨e, k, he, hk, hb, by simp⟩ }

/-- So does code that runs in a new dispatch. -/
theorem inside (hv : Shows v h j) {j' : Journey} (hnew : j'.dispatch = h.dispatches.nextId) :
    Shows v h (some j') :=
  { hv with
    finished := fun i b hi => by
      obtain ⟨e, k, he, hk, hb, -⟩ := hv.finished i b hi
      refine ⟨e, k, he, hk, hb, fun hsame => ?_⟩
      have heq : j'.dispatch = e.dispatch := Option.some.inj hsame
      exact (h.dispatches.lt_of_get? hk).ne (heq.symm.trans hnew) }

/-- An event has been received. -/
theorem receive {j : Journey} (hv : Shows v h (some j)) {i : HandleId} {f : Fn}
    {pos : Option SlotId} (hi : h.handles.get? i = some (.event (j.event f))) (hf : h.Stores f)
    (hj : j.At h pos) : Shows (v.receive i j.home f) h (some j) where
  lists := hv.lists
  listed := hv.listed
  coherent := hv.coherent
  payloads := hv.payloads
  functions := fun k f' hk => by
    simp only [View.receive] at hk
    split at hk
    · rename_i he
      obtain rfl := Option.some.inj hk
      refine ⟨?_, hf⟩
      rw [he, Heap.functionOf, hi]
      rfl
    · exact hv.functions k f' hk
  chains := fun k c hk => by
    simp only [View.receive] at hk
    split at hk
    · rename_i he
      obtain rfl := Option.some.inj hk
      refine ⟨?_, _, hj.chained⟩
      have hstands : h.dispatches.get? (j.event f).dispatch = some ⟨j.home, pos⟩ := hj.stands
      rw [he, Heap.chainOf, hi]
      dsimp only
      rw [hstands]
      rfl
    · exact hv.chains k c hk
  finished := hv.finished

/-- What can be seen of a function is what is stored of it. -/
theorem stored (hv : Shows v h j) (f : Fn) : v.stored f = h.stored f := by
  unfold View.stored Heap.stored
  cases f with
  | none => rfl
  | some q => exact congrArg (Option.map _) (hv.payloads q)

theorem payload (hv : Shows v h j) (f : Fn) : f.bind v.payload = f.bind h.payloads.get? := by
  cases f with
  | none => rfl
  | some q => exact hv.payloads q

end Shows

end Shows

/-! ## The agreement -/

section Agrees

variable {H : Host} {v : View H} {h : Heap H.toVocabulary} {j : Option Journey} {pos : Option SlotId}
  {rest : Rest} {p : Progress H}

/-- The library, at heap `h`, can go on as the interpreter does, which sees `v`. -/
structure Agrees (v : View H) (h : Heap H.toVocabulary) (j : Option Journey) (pos : Option SlotId)
    (rest : Rest) (p : Progress H) : Prop where
  shows : Shows v h j
  standing : Standing h j pos
  remains : Remains j pos rest
  fresh : p.fresh = h.handles.nextId
  stored : p.stored = h.payloads.nextId

/-- A task that began at heap `h` may leave this heap behind. -/
inductive Leaves (h : Heap H.toVocabulary) (j : Option Journey) (rest : Rest) (p : Progress H) :
    Heap H.toVocabulary → Prop
  | intro (pos : Option SlotId) (i k l : Nat) (hrest : Remains j pos rest)
      (hfresh : p.fresh = h.handles.nextId + k) (hstored : p.stored = h.payloads.nextId + l) :
      Leaves h j rest p ((h.placed j pos).aged i k l)

namespace Agrees

/-- Of what the interpreter has done, only the numbers matter that it gives out next. -/
theorem congr (ha : Agrees v h j pos rest p) {q : Progress H} (hq : q.fresh = p.fresh)
    (hq' : q.stored = p.stored) : Agrees v h j pos rest q :=
  ⟨ha.shows, ha.standing, ha.remains, hq.trans ha.fresh, hq'.trans ha.stored⟩

theorem retain_handle (ha : Agrees v h j pos rest p) (i : HandleId) :
    Agrees v (h.retain (.handle i)) j pos rest p :=
  ⟨ha.shows.resembles (.retain _ _), ha.standing.retain _, ha.remains, ha.fresh, ha.stored⟩

theorem retain_handles (ha : Agrees v h j pos rest p) (is : List HandleId) :
    Agrees v (h.retainAll (is.map .handle)) j pos rest p := by
  induction is generalizing h with
  | nil => exact ha
  | cons i is ih => exact ih (ha.retain_handle i)

/-- Code receives its event. -/
theorem receive {j : Journey} (ha : Agrees v h (some j) pos rest p) {f : Fn} (hf : h.Stores f) :
    Agrees (v.receive p.fresh j.home f) (h.wrapUp (.event (j.event f))).2 (some j) pos rest
      p.named := by
  have hstanding : Standing (h.wrapUp (.event (j.event f))).2 (some j) pos := ha.standing.wrapUp _
  have hown : (h.wrapUp (.event (j.event f))).2.handles.get? p.fresh =
      some (.event (j.event f)) := by
    show (h.handles.alloc _).2.get? p.fresh = _
    rw [ha.fresh, Pool.get?_alloc, if_pos rfl]
  exact ⟨(ha.shows.resembles (.wrapUp _ _)).receive hown hf hstanding, hstanding, ha.remains,
    congrArg (· + 1) ha.fresh, ha.stored⟩

/-- Code outside of any dispatch. -/
theorem outside (ha : Agrees v h j pos rest p) : Agrees v h none none none p :=
  ⟨ha.shows.outside, trivial, rfl, ha.fresh, ha.stored⟩

theorem leaves (ha : Agrees v h j pos rest p) : Leaves h j rest p h := by
  have h0 := Leaves.intro (h := h) (p := p) pos 0 0 0 ha.remains ha.fresh ha.stored
  rwa [Heap.placed_eq_self ha.standing, Heap.aged_zero] at h0

/-- A call leaves the dispatch that it was made in where it is. -/
theorem leaves_aged (ha : Agrees v h j pos rest p) {q : Progress H} {i k l : Nat}
    (hfresh : q.fresh = h.handles.nextId + k) (hstored : q.stored = h.payloads.nextId + l) :
    Leaves h j rest q (h.aged i k l) := by
  have h0 := Leaves.intro (h := h) (p := q) pos i k l ha.remains hfresh hstored
  rwa [Heap.placed_eq_self ha.standing] at h0

theorem leaves_of_outside (ha : Agrees v h j pos rest p) {left : Rest} {q : Progress H}
    {g : Heap H.toVocabulary} (hg : Leaves h none left q g) : Leaves h j rest q g := by
  obtain ⟨pos', i, k, l, -, hfresh, hstored⟩ := hg
  exact ha.leaves_aged hfresh hstored

theorem moved {j : Journey} (ha : Agrees v h (some j) pos rest p) {y : SlotId}
    (m : Fn) {left : List Fn} (hleft : Left j.chain.listing (some y) left) :
    Agrees v (h.moved j.dispatch j.home j.chain y m) (some j) (some y) (some left) p := by
  rw [Heap.moved_eq_placed]
  refine ⟨?_, ?_, ⟨left, rfl, hleft⟩, ?_, ?_⟩
  · exact ha.shows.resembles (((Resembles.placed ha.standing _).trans (.retain _ _)).trans
      (.retainAll _ _))
  · exact (((ha.standing.placed (some y)).retain (.dispatch j.dispatch)).retain
      (.function m)).retain (.function m)
  · rw [Heap.nextHandle_retainAll, Heap.nextHandle_retain, Heap.handles_placed, ha.fresh]
  · rw [(Heap.payloads_retainAll _ _).2, Heap.nextPayload_retain, Heap.payloads_placed, ha.stored]

theorem started (ha : Agrees v h j pos rest p) {c : ChainId} {chain : Chain Fn}
    (hc : h.chains.get? c = some chain) {i : SlotId} (l : Fn) {left : List Fn}
    (hleft : Left chain.listing (some i) left) :
    Agrees v (h.started c i l) (some ⟨h.dispatches.nextId, c, chain⟩) (some i) (some left) p := by
  have hcoh := ha.shows.coherent c chain hc
  refine ⟨(ha.shows.inside rfl).resembles (.started hc hcoh i l), .started hc hcoh i l,
    ⟨left, rfl, hleft⟩, ?_, ?_⟩
  · rw [Heap.started, Heap.nextHandle_retainAll, ha.fresh]
  · rw [Heap.started, (Heap.payloads_retainAll _ _).2, ha.stored]

end Agrees

namespace Leaves

variable {g : Heap H.toVocabulary} {rest' : Rest} {q : Progress H}

theorem agrees (hl : Leaves h j rest' q g) (ha : Agrees v h j pos rest p) :
    ∃ pos', Agrees v g j pos' rest' q := by
  obtain ⟨pos', i, k, l, hrest, hfresh, hstored⟩ := hl
  refine ⟨pos', ha.shows.resembles ((Resembles.placed ha.standing pos').trans (.aged _ i k l)),
    (ha.standing.placed pos').aged i k l, hrest, ?_, ?_⟩
  · rw [hfresh]
    show _ = (h.placed j pos').handles.nextId + k
    rw [Heap.handles_placed]
  · rw [hstored]
    show _ = (h.placed j pos').payloads.nextId + l
    rw [Heap.payloads_placed]

theorem trans {g' : Heap H.toVocabulary} (hl : Leaves h j rest p g) (hl' : Leaves g j rest' q g') :
    Leaves h j rest' q g' := by
  obtain ⟨pos, i, k, l, hrest, hfresh, hstored⟩ := hl
  obtain ⟨pos', i', k', l', hrest', hfresh', hstored'⟩ := hl'
  rw [Heap.placed_aged, Heap.placed_placed, Heap.aged_aged]
  refine .intro pos' _ _ _ hrest' ?_ ?_
  · rw [hfresh']
    show (h.placed j pos).handles.nextId + k + k' = _
    rw [Heap.handles_placed, Nat.add_assoc]
  · rw [hstored']
    show (h.placed j pos).payloads.nextId + l + l' = _
    rw [Heap.payloads_placed, Nat.add_assoc]

/-! ### Letting go of what a task was given -/

/-- Handles that were held for the time of a request. -/
theorem drains_handles {is : List HandleId}
    (hl : Leaves (h.retainAll (is.map .handle)) j rest p g)
    (his : ∀ i ∈ is, ∃ ref, h.handles.get? i = some ref) :
    ∃ g', Leaves h j rest p g' ∧ g.Drains (is.map .handle) g' := by
  obtain ⟨pos, i', k, l, hrest, hfresh, hstored⟩ := hl
  rw [Heap.nextHandle_retainAll] at hfresh
  rw [(Heap.payloads_retainAll _ _).2] at hstored
  refine ⟨_, .intro pos i' k l hrest hfresh hstored, ?_⟩
  rw [Heap.placed_retainAll_handles]
  have his' : ∀ i ∈ is, ∃ ref, (h.placed j pos).handles.get? i = some ref := by
    rw [Heap.handles_placed]
    exact his
  exact (Heap.drains_handles his').aged i' k l

/-- The handle of an event that a listener has received. -/
theorem release_handle {ref : Ref} (hl : Leaves (h.wrapUp ref).2 j rest p g) :
    ∃ g', Leaves h j rest p g' ∧
      g.release (.handle h.handles.nextId) = ({ refs := [ref] }, g') := by
  obtain ⟨pos, i, k, l, hrest, hfresh, hstored⟩ := hl
  refine ⟨_, .intro pos i (1 + k) l hrest (hfresh.trans (Nat.add_assoc _ _ _)) hstored, ?_⟩
  have hnext : h.handles.nextId = (h.placed j pos).handles.nextId := by rw [Heap.handles_placed]
  rw [Heap.placed_wrapUp, Heap.release_aged, hnext, Heap.release_wrapUp, Heap.aged_aged,
    Nat.zero_add, Nat.zero_add]

/-- The event that a `next` has made. -/
theorem drains_event {j : Journey} {pos : Option SlotId} {y : SlotId} {m : Fn}
    (hl : Leaves (h.moved j.dispatch j.home j.chain y m) (some j) rest p g)
    (hj : j.At h pos) (hm : h.Stores m) :
    ∃ g', Leaves h (some j) rest p g' ∧ g'.Stores m ∧
      g.Drains [.event (j.event m)] (g'.retain (.function m)) := by
  obtain ⟨pos', i, k, l, hrest, hfresh, hstored⟩ := hl
  have hhandles : (h.moved j.dispatch j.home j.chain y m).handles.nextId = h.handles.nextId := by
    rw [Heap.moved, Heap.nextHandle_retainAll]
  have hpayloads : (h.moved j.dispatch j.home j.chain y m).payloads.nextId = h.payloads.nextId := by
    rw [Heap.moved, (Heap.payloads_retainAll _ _).2]
  refine ⟨_, .intro pos' i k l hrest (hhandles ▸ hfresh) (hpayloads ▸ hstored), ?_, ?_⟩
  · intro q hq
    show ∃ load, (h.placed (some j) pos').payloads.get? q = some load
    exact hm q hq
  · rw [Heap.retain_aged]
    show Heap.Drains (((h.moved _ _ _ _ _).stand _ _ _ _).aged i k l) _ _
    rw [Heap.stand_moved]
    exact (Heap.drains_event (hj.stand pos').stands hm).aged i k l

/-- The event that a call has made. -/
theorem drains_last_event {c : ChainId} {chain : Chain Fn} {y : SlotId} {m : Fn}
    (hl : Leaves (h.started c y m) (some ⟨h.dispatches.nextId, c, chain⟩) rest p g)
    (hc : h.chains.get? c = some chain) (hcoh : chain.Coherent) (hm : h.Stores m) :
    ∃ i k l, p.fresh = h.handles.nextId + k ∧ p.stored = h.payloads.nextId + l ∧
      (h.aged i k l).Stores m ∧
      g.Drains [.event ⟨h.dispatches.nextId, m⟩] ((h.aged i k l).retain (.function m)) := by
  obtain ⟨pos, i, k, l, hrest, hfresh, hstored⟩ := hl
  have hhandles : (h.started c y m).handles.nextId = h.handles.nextId := by
    rw [Heap.started, Heap.nextHandle_retainAll]
  have hpayloads : (h.started c y m).payloads.nextId = h.payloads.nextId := by
    rw [Heap.started, (Heap.payloads_retainAll _ _).2]
  have hpos : ∀ x, pos = some x → x ∈ chain.order := by
    rintro x rfl
    obtain ⟨left, -, hleft⟩ := hrest
    exact Left.mem_order hleft
  refine ⟨1 + i, k, l, hhandles ▸ hfresh, hpayloads ▸ hstored, hm, ?_⟩
  have hdrains := (Heap.drains_last_event hc hcoh.links hpos hm y).aged i k l
  rw [Heap.aged_aged, Nat.zero_add, Nat.zero_add] at hdrains
  rw [Heap.retain_aged]
  exact hdrains

end Leaves

end Agrees

end Plain
end Relay
