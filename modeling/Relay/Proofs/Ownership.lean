/-
  Shares add up: a stored thing has as many owners as there are shares in it.

  A share is either owned by another stored thing or HELD by a call in progress.
  `Heap.Balanced h out` says that the counts of `h` are the shares its own things have, and those in
  `out`.  Then nothing is gone while somebody has a share in it, and nothing is there without one.
  Each operation of the heap moves shares between the two sides and never makes one up; handles are
  the program's own business and weigh nothing, but what a handle owns does.
-/
import Relay.Proofs.Custody

namespace Relay

/-! ## Weights -/

/-- What has owners that are counted here. -/
inductive Thing where
  | payload (p : PayloadId)
  | chain (c : ChainId)
  | dispatch (d : DispatchId)
  deriving DecidableEq, Repr

/-- How many shares in a thing one `Ref` is. -/
def Ref.weight (t : Thing) : Ref → Nat
  | .function none => 0
  | .function (some p) => if t = .payload p then 1 else 0
  | .chain c => if t = .chain c then 1 else 0
  | .dispatch d => if t = .dispatch d then 1 else 0
  | .event e =>
    (if t = .dispatch e.dispatch then 1 else 0) +
      match e.recipient with
      | none => 0
      | some p => if t = .payload p then 1 else 0
  | .handle _ => 0

/-- An event is a share in its dispatch and one in its recipient. -/
theorem Ref.weight_event (t : Thing) (e : Event) :
    Ref.weight t (.event e) =
      Ref.weight t (.dispatch e.dispatch) + Ref.weight t (.function e.recipient) := by
  obtain ⟨d, recipient⟩ := e
  cases recipient <;> rfl

/-- How many shares in a thing there are in a list. -/
def weights (t : Thing) (refs : List Ref) : Nat := (refs.map (Ref.weight t)).sum

@[simp] theorem weights_nil (t : Thing) : weights t [] = 0 := rfl

@[simp] theorem weights_cons (t : Thing) (ref : Ref) (refs : List Ref) :
    weights t (ref :: refs) = ref.weight t + weights t refs := rfl

@[simp] theorem weights_append (t : Thing) (refs refs' : List Ref) :
    weights t (refs ++ refs') = weights t refs + weights t refs' := by
  rw [weights, List.map_append, List.sum_append, weights, weights]

/-- Handles weigh nothing. -/
@[simp] theorem weights_handles (t : Thing) (handles : List HandleId) :
    weights t (handles.map .handle) = 0 := by
  induction handles with
  | nil => rfl
  | cons i rest ih =>
    rw [List.map_cons, weights_cons, ih]
    rfl

theorem weight_le_weights (t : Thing) {ref : Ref} {refs : List Ref} (h : ref ∈ refs) :
    ref.weight t ≤ weights t refs := by
  obtain ⟨front, back, rfl⟩ := List.append_of_mem h
  rw [weights_append, weights_cons]
  omega

theorem weights_functions (t : Thing) (fs : List Fn) :
    weights t (fs.map .function) = (fs.map fun f => Ref.weight t (.function f)).sum := by
  rw [weights, List.map_map]
  rfl

namespace Heap

variable {T : Vocabulary}

/-! ## Counts and shares -/

/-- The number of owners of a thing. -/
def count (h : Heap T) : Thing → Nat
  | .payload p => h.payloads.count p
  | .chain c => h.chains.count c
  | .dispatch d => h.dispatches.count d

/-- The shares in a thing that stored things have. -/
def owned (h : Heap T) (t : Thing) : Nat :=
  h.payloads.total (fun load => weights t load.body.keeps) +
    h.chains.total (fun chain => chain.load fun listener => Ref.weight t (.function listener)) +
    h.dispatches.total (fun d => Ref.weight t (.chain d.chain)) + h.handles.total (Ref.weight t)

/-- Everything has as many owners as there are shares in it, those in `out` included. -/
def Balanced (h : Heap T) (out : List Ref) : Prop := ∀ t, h.count t = h.owned t + weights t out

/-- A share in something that is there. -/
def Alive (h : Heap T) (ref : Ref) : Prop := ∀ t, 0 < ref.weight t → 0 < h.count t

theorem count_chain_pos (h : Heap T) (c : ChainId) :
    0 < h.count (.chain c) ↔ ∃ chain, h.chains.get? c = some chain := by
  rw [count, Pool.count_pos_iff, Option.isSome_iff_exists]

namespace Balanced

variable {h : Heap T} {out out' : List Ref}

/-- Only the weights of what is held matter. -/
theorem congr (hb : h.Balanced out) (hw : ∀ t, weights t out = weights t out') : h.Balanced out' :=
  fun t => by rw [hb t, hw t]

/-- What a handle owns is there. -/
theorem alive_of_handle (hb : h.Balanced out) {i : HandleId} {ref : Ref}
    (hi : h.handles.get? i = some ref) : h.Alive ref := by
  intro t ht
  have hle := h.handles.le_total (Ref.weight t) hi
  have hcount := hb t
  rw [owned] at hcount
  omega

/-- The listener of a stored slot is there. -/
theorem alive_of_slot (hb : h.Balanced out) {c : ChainId} {chain : Chain Fn} {x : SlotId} {l : Fn}
    (hc : h.chains.get? c = some chain) (hl : chain.listener? x = some l) :
    h.Alive (.function l) := by
  intro t ht
  have hle := h.chains.le_total
    (fun chain => chain.load fun listener => Ref.weight t (.function listener)) hc
  obtain ⟨slot, hs, rfl⟩ := Option.map_eq_some_iff.1 hl
  have hslot := chain.slots.le_total (fun slot => Ref.weight t (.function slot.listener)) hs
  rw [Chain.load] at hle
  have hcount := hb t
  rw [owned] at hcount
  omega

/-- What a stored payload keeps is there. -/
theorem alive_of_keeps (hb : h.Balanced out) {p : PayloadId} {load : Payload T} {ref : Ref}
    (hp : h.payloads.get? p = some load) (href : ref ∈ load.body.keeps) : h.Alive ref := by
  intro t ht
  have hle := h.payloads.le_total (fun load => weights t load.body.keeps) hp
  have hweight := weight_le_weights t href
  have hcount := hb t
  rw [owned] at hcount
  omega

/-- What is held is there. -/
theorem alive_of_mem (hb : h.Balanced out) {ref : Ref} (href : ref ∈ out) : h.Alive ref := by
  intro t ht
  have hweight := weight_le_weights t href
  have hcount := hb t
  omega

/-- The chain of a dispatch is there. -/
theorem alive_of_dispatch (hb : h.Balanced out) {d : DispatchId} {e : Dispatch}
    (hd : h.dispatches.get? d = some e) : ∃ chain, h.chains.get? e.chain = some chain := by
  rw [← count_chain_pos]
  have hle := h.dispatches.le_total (fun d => Ref.weight (.chain e.chain) (.chain d.chain)) hd
  rw [Ref.weight, if_pos rfl] at hle
  have hcount := hb (.chain e.chain)
  rw [owned] at hcount
  omega

/-- What is held, and comes first, is there. -/
theorem count_pos {ref : Ref} (hb : h.Balanced (ref :: out)) (t : Thing) (ht : 0 < ref.weight t) :
    0 < h.count t := by
  rw [hb t, weights_cons]
  omega

end Balanced

/-! ## Retaining -/

theorem owned_retain (h : Heap T) (ref : Ref) (t : Thing) : (h.retain ref).owned t = h.owned t := by
  cases ref with
  | function f =>
    cases f with
    | none => rfl
    | some p => simp only [retain, owned, Pool.total_retain]
  | chain c => simp only [retain, owned, Pool.total_retain]
  | dispatch d => simp only [retain, owned, Pool.total_retain]
  | event e =>
    obtain ⟨d, recipient⟩ := e
    cases recipient <;> simp only [retain, owned, Pool.total_retain]
  | handle i => simp only [retain, owned, Pool.total_retain]

theorem count_retain (h : Heap T) {ref : Ref} (ha : h.Alive ref) (t : Thing) :
    (h.retain ref).count t = h.count t + ref.weight t := by
  cases ref with
  | function f =>
    cases f with
    | none => rfl
    | some p =>
      have hp : 0 < h.payloads.count p := ha (.payload p) (by simp [Ref.weight])
      cases t <;> simp [retain, count, Ref.weight, Pool.count_retain_of_pos hp]
  | chain c =>
    have hc : 0 < h.chains.count c := ha (.chain c) (by simp [Ref.weight])
    cases t <;> simp [retain, count, Ref.weight, Pool.count_retain_of_pos hc]
  | dispatch d =>
    have hd : 0 < h.dispatches.count d := ha (.dispatch d) (by simp [Ref.weight])
    cases t <;> simp [retain, count, Ref.weight, Pool.count_retain_of_pos hd]
  | event e =>
    obtain ⟨d, recipient⟩ := e
    have hd : 0 < h.dispatches.count d := ha (.dispatch d) (by simp [Ref.weight])
    cases recipient with
    | none => cases t <;> simp [retain, count, Ref.weight, Pool.count_retain_of_pos hd]
    | some p =>
      have hp : 0 < h.payloads.count p := ha (.payload p) (by simp [Ref.weight])
      cases t <;>
        simp [retain, count, Ref.weight, Pool.count_retain_of_pos hd, Pool.count_retain_of_pos hp]
  | handle i => rfl

theorem Alive.retain {h : Heap T} {ref ref' : Ref} (ha : h.Alive ref) (ha' : h.Alive ref') :
    (h.retain ref).Alive ref' := by
  intro t ht
  rw [h.count_retain ha]
  exact Nat.lt_of_lt_of_le (ha' t ht) (Nat.le_add_right _ _)

/-! ## The counts after storing and letting go -/

theorem count_allocPayload (h : Heap T) (load : Payload T) (t : Thing) :
    count { h with payloads := (h.payloads.alloc load).2 } t =
      h.count t + Ref.weight t (.function (some h.payloads.nextId)) := by
  cases t <;> simp [count, Ref.weight, Pool.count_alloc_eq]

theorem count_allocChain (h : Heap T) (chain : Chain Fn) (t : Thing) :
    count { h with chains := (h.chains.alloc chain).2 } t =
      h.count t + Ref.weight t (.chain h.chains.nextId) := by
  cases t <;> simp [count, Ref.weight, Pool.count_alloc_eq]

theorem count_allocDispatch (h : Heap T) (e : Dispatch) (t : Thing) :
    count { h with dispatches := (h.dispatches.alloc e).2 } t =
      h.count t + Ref.weight t (.dispatch h.dispatches.nextId) := by
  cases t <;> simp [count, Ref.weight, Pool.count_alloc_eq]

theorem count_releasePayload (h : Heap T) {p : PayloadId} (hp : 0 < h.payloads.count p)
    (t : Thing) :
    count { h with payloads := (h.payloads.release p).2 } t + Ref.weight t (.function (some p)) =
      h.count t := by
  cases t <;> simp [count, Ref.weight, Pool.count_release_of_pos hp]

theorem count_releaseChain (h : Heap T) {c : ChainId} (hc : 0 < h.chains.count c) (t : Thing) :
    count { h with chains := (h.chains.release c).2 } t + Ref.weight t (.chain c) = h.count t := by
  cases t <;> simp [count, Ref.weight, Pool.count_release_of_pos hc]

theorem count_releaseDispatch (h : Heap T) {d : DispatchId} (hd : 0 < h.dispatches.count d)
    (t : Thing) :
    count { h with dispatches := (h.dispatches.release d).2 } t + Ref.weight t (.dispatch d) =
      h.count t := by
  cases t <;> simp [count, Ref.weight, Pool.count_release_of_pos hd]

theorem alive_chain {h : Heap T} {c : ChainId} {chain : Chain Fn}
    (hc : h.chains.get? c = some chain) :
    h.Alive (.chain c) := by
  intro t ht
  have he : t = .chain c := by
    by_contra hne
    rw [Ref.weight, if_neg hne] at ht
    exact absurd ht (Nat.lt_irrefl 0)
  rw [he, count_chain_pos]
  exact ⟨chain, hc⟩

theorem alive_dispatch {h : Heap T} {d : DispatchId} {e : Dispatch}
    (hd : h.dispatches.get? d = some e) :
    h.Alive (.dispatch d) := by
  intro t ht
  have he : t = .dispatch d := by
    by_contra hne
    rw [Ref.weight, if_neg hne] at ht
    exact absurd ht (Nat.lt_irrefl 0)
  rw [he, count, Pool.count_pos_iff, hd]
  rfl

/-- Whether a function is there depends on the payloads only. -/
theorem Alive.of_payloads {h h' : Heap T} {f : Fn} (ha : h.Alive (.function f))
    (hp : h'.payloads = h.payloads) : h'.Alive (.function f) := by
  intro t ht
  have hpos := ha t ht
  cases f with
  | none => exact absurd ht (Nat.lt_irrefl 0)
  | some p =>
    cases t with
    | payload p' =>
      show 0 < h'.payloads.count p'
      rw [hp]
      exact hpos
    | _ => exact absurd ht (by simp [Ref.weight])

theorem alive_handle (h : Heap T) (i : HandleId) : h.Alive (.handle i) :=
  fun _ ht => absurd ht (Nat.lt_irrefl 0)

namespace Balanced

variable {h : Heap T} {out : List Ref}

/-- One more owner is one more share. -/
theorem retain (hb : h.Balanced out) {ref : Ref} (ha : h.Alive ref) :
    (h.retain ref).Balanced (ref :: out) := by
  intro t
  rw [h.count_retain ha, h.owned_retain, hb t, weights_cons]
  omega

theorem retainAll (hb : h.Balanced out) (refs : List Ref) (ha : ∀ ref ∈ refs, h.Alive ref) :
    (h.retainAll refs).Balanced (refs ++ out) := by
  induction refs generalizing h out with
  | nil => exact hb
  | cons ref rest ih =>
    have hfirst : h.Alive ref := ha ref List.mem_cons_self
    have hrest : ∀ ref' ∈ rest, (h.retain ref).Alive ref' := fun ref' hmem =>
      hfirst.retain (ha ref' (List.mem_cons_of_mem _ hmem))
    rw [Heap.retainAll, List.foldl_cons, ← Heap.retainAll]
    refine (ih (hb.retain hfirst) hrest).congr fun t => ?_
    simp only [weights_append, weights_cons, List.cons_append]
    omega

/-- A listener that is entered is shared by its event and by the call. -/
theorem retain_twice {l : Fn} (hb : h.Balanced out) (ha : h.Alive (.function l)) :
    (h.retainAll [.function l, .function l]).Balanced ([.function l, .function l] ++ out) := by
  refine hb.retainAll _ fun ref href => ?_
  obtain rfl : ref = .function l := by simpa using href
  exact ha

/-! ## Storing -/

/-- A new payload takes over the shares that it keeps. -/
theorem store {load : Payload T} (hb : h.Balanced (load.body.keeps ++ out)) :
    (h.store load).2.Balanced (.function (h.store load).1 :: out) := by
  intro t
  have ht := hb t
  show count { h with payloads := (h.payloads.alloc load).2 } t =
    owned { h with payloads := (h.payloads.alloc load).2 } t +
      weights t (.function (some h.payloads.nextId) :: out)
  rw [count_allocPayload, weights_cons]
  simp only [owned, Pool.total_alloc, weights_append] at ht ⊢
  omega

/-- A handle takes over the share it is made for. -/
theorem wrapUp {ref : Ref} (hb : h.Balanced (ref :: out)) : (h.wrapUp ref).2.Balanced out := by
  intro t
  have ht := hb t
  show h.count t = owned { h with handles := (h.handles.alloc ref).2 } t + weights t out
  simp only [owned, Pool.total_alloc, weights_cons] at ht ⊢
  omega

/-- A new chain has nothing in it. -/
theorem openChain (hb : h.Balanced out) :
    Balanced { h with chains := (h.chains.alloc {}).2 } (.chain h.chains.nextId :: out) := by
  intro t
  have ht := hb t
  rw [count_allocChain, weights_cons]
  simp only [owned, Pool.total_alloc, Chain.load_empty] at ht ⊢
  omega

/-- A new dispatch takes over a share in its chain. -/
theorem startDispatch {c : ChainId} (cursor : Option SlotId) (hb : h.Balanced (.chain c :: out)) :
    Balanced { h with dispatches := (h.dispatches.alloc ⟨c, cursor⟩).2 }
      (.dispatch h.dispatches.nextId :: out) := by
  intro t
  have ht := hb t
  rw [count_allocDispatch, weights_cons]
  simp only [owned, Pool.total_alloc, weights_cons] at ht ⊢
  omega

/-! ## Changing what is stored -/

/-- What a chain takes in comes out of what is held, and what it hands back goes there. -/
theorem modifyChain {c : ChainId} {old : Chain Fn} (f : Chain Fn → Chain Fn)
    (given handed : List Fn)
    (hb : h.Balanced (given.map .function ++ out)) (hc : h.chains.get? c = some old)
    (hload : ∀ w : Fn → Nat, (f old).load w + (handed.map w).sum = old.load w + (given.map w).sum) :
    Balanced { h with chains := h.chains.modify c f } (handed.map .function ++ out) := by
  intro t
  have ht := hb t
  have hnew := hload fun listener => Ref.weight t (.function listener)
  have htotal := h.chains.total_modify
    (fun chain => chain.load fun listener => Ref.weight t (.function listener)) f hc
  have hcount : count { h with chains := h.chains.modify c f } t = h.count t := by
    cases t with
    | chain c' => exact Pool.count_modify _ _ _ _
    | _ => rfl
  rw [hcount]
  simp only [weights_append, weights_functions, owned] at ht ⊢
  omega

/-- The same for an operation that takes nothing in. -/
theorem handBack {c : ChainId} {old : Chain Fn} (f : Chain Fn → Chain Fn) (handed : List Fn)
    (hb : h.Balanced out) (hc : h.chains.get? c = some old)
    (hload : ∀ w : Fn → Nat, (f old).load w + (handed.map w).sum = old.load w) :
    Balanced { h with chains := h.chains.modify c f } (handed.map .function ++ out) :=
  modifyChain f [] handed hb hc hload

/-- A dispatch that moves keeps its share in its chain. -/
theorem modifyCursor (hb : h.Balanced out) (d : DispatchId) (cursor : Option SlotId) :
    Balanced { h with dispatches := h.dispatches.modify d ({ · with cursor }) } out := by
  intro t
  have ht := hb t
  have htotal :
      (h.dispatches.modify d ({ · with cursor })).total (fun e => Ref.weight t (.chain e.chain)) =
        h.dispatches.total fun e => Ref.weight t (.chain e.chain) := by
    rw [Pool.total, Pool.stored_modify, Pool.total]
    exact h.dispatches.stored.total_modify_same _ d ({ · with cursor }) fun _ => rfl
  have hcount :
      count { h with dispatches := h.dispatches.modify d ({ · with cursor }) } t = h.count t := by
    cases t with
    | dispatch d' => exact Pool.count_modify _ _ _ _
    | _ => rfl
  rw [hcount]
  simp only [owned, htotal] at ht ⊢
  exact ht

/-- A dispatch that starts is held by its event, and its listener by the event and by the call. -/
theorem started {c : ChainId} {chain : Chain Fn} {i : SlotId} {l : Fn} (hb : h.Balanced out)
    (hc : h.chains.get? c = some chain) (hl : chain.listener? i = some l) :
    (h.started c i l).Balanced
      ([.function l, .function l] ++ .dispatch h.dispatches.nextId :: out) := by
  have hlistener : h.Alive (.function l) := hb.alive_of_slot hc hl
  have hpinned := handBack (·.pin i) [] hb hc fun w => chain.load_pin i w
  have hchain : Alive { h with chains := h.chains.modify c (·.pin i) } (.chain c) :=
    alive_chain (by rw [Pool.get?_modify, if_pos rfl, hc]; rfl)
  -- the new dispatch takes over the share in the chain
  have hstarted := (hpinned.retain hchain).startDispatch (some i)
  exact hstarted.retain_twice (hlistener.of_payloads rfl)

/-- What a chain hands back when a dispatch ends is held. -/
theorem ended {d : DispatchId} {c : ChainId} {chain left : Chain Fn} {handed : List Fn}
    (hb : h.Balanced out) (hc : h.chains.get? c = some chain)
    (hload : ∀ w : Fn → Nat, left.load w + (handed.map w).sum = chain.load w) :
    (h.ended d c left).Balanced (handed.map .function ++ out) :=
  (handBack (fun _ => left) handed hb hc hload).modifyCursor d none

/-- A dispatch that moves is held by one event more, and what its tombstone held is held, too. -/
theorem moved {d : DispatchId} {c : ChainId} {e : Dispatch} {chain left : Chain Fn}
    {handed : List Fn} {i : SlotId} {l : Fn} (hb : h.Balanced out) (hd : h.dispatches.get? d = some e)
    (hc : h.chains.get? c = some chain)
    (hload : ∀ w : Fn → Nat, left.load w + (handed.map w).sum = chain.load w)
    (hl : left.listener? i = some l) :
    (h.moved d c left i l).Balanced
      ([.function l, .function l] ++ .dispatch d :: (handed.map .function ++ out)) := by
  have hpinned (w : Fn → Nat) : (left.pin i).load w + (handed.map w).sum = chain.load w := by
    rw [Chain.load_pin, hload w]
  have hmoved := (handBack (fun _ => left.pin i) handed hb hc hpinned).modifyCursor d (some i)
  have hdispatch : Alive { h with
      chains := h.chains.modify c fun _ => left.pin i
      dispatches := h.dispatches.modify d ({ · with cursor := some i }) } (.dispatch d) :=
    alive_dispatch (by rw [Pool.get?_modify, if_pos rfl, hd]; rfl)
  have hlistener := hmoved.alive_of_slot (c := c) (by rw [Pool.get?_modify, if_pos rfl, hc]; rfl)
    ((left.listener?_pin i i).trans hl)
  exact (hmoved.retain hdispatch).retain_twice (hlistener.of_payloads rfl)

/-! ## Letting go -/

/-- A dispatch that closes passes its share in the chain on, and what its tombstone held. -/
theorem closeDispatch {gone : Dispatch} (hb : h.Balanced (.chain gone.chain :: out)) :
    (h.closeDispatch gone).2.Balanced ((h.closeDispatch gone).1.refs ++ out) := by
  obtain ⟨c, cursor⟩ := gone
  unfold Heap.closeDispatch
  split
  · rename_i slot chain hcursor hc
    have hmoved := handBack (fun _ => (chain.unpin slot).2) (chain.unpin slot).1.toList hb hc
      fun w => chain.load_unpin slot w
    refine hmoved.congr fun t => ?_
    simp only [weights_append, weights_cons, weights_nil]
    omega
  · exact hb

theorem releasePayload {p : PayloadId} (hb : h.Balanced (.function (some p) :: out)) :
    Balanced { h with payloads := (h.payloads.release p).2 }
      (((h.payloads.release p).1.map (·.body.keeps)).getD [] ++ out) := by
  intro t
  have ht := hb t
  have hcount := h.count_releasePayload (hb.count_pos (.payload p) (by simp [Ref.weight])) t
  have htotal := h.payloads.total_release (fun load => weights t load.body.keeps) p
  have hgone :
      ((h.payloads.release p).1.toList.map fun load : Payload T => weights t load.body.keeps).sum =
        weights t (((h.payloads.release p).1.map (·.body.keeps)).getD []) := by
    cases (h.payloads.release p).1 with
    | none => rfl
    | some load => exact Nat.add_zero _
  rw [hgone] at htotal
  simp only [owned, weights_cons, weights_append] at ht ⊢
  omega

theorem releaseChain {c : ChainId} (hb : h.Balanced (.chain c :: out)) :
    Balanced { h with chains := (h.chains.release c).2 }
      (((h.chains.release c).1.map fun gone =>
        (gone.dissolve (T.shuffle c)).map Ref.function).getD [] ++ out) := by
  intro t
  have ht := hb t
  have hcount := h.count_releaseChain (hb.count_pos (.chain c) (by simp [Ref.weight])) t
  have htotal := h.chains.total_release
    (fun chain => chain.load fun listener => Ref.weight t (.function listener)) c
  have hgone : ((h.chains.release c).1.toList.map fun chain : Chain Fn =>
      chain.load fun listener => Ref.weight t (.function listener)).sum =
      weights t (((h.chains.release c).1.map fun gone =>
        (gone.dissolve (T.shuffle c)).map Ref.function).getD []) := by
    cases (h.chains.release c).1 with
    | none => rfl
    | some gone =>
      show gone.load _ + 0 = weights t ((gone.dissolve (T.shuffle c)).map Ref.function)
      rw [← gone.load_dissolve (T.shuffle c), weights, List.map_map]
      rfl
  rw [hgone] at htotal
  simp only [owned, weights_cons, weights_append] at ht ⊢
  omega

theorem releaseDispatch {d : DispatchId} (hb : h.Balanced (.dispatch d :: out)) :
    Balanced { h with dispatches := (h.dispatches.release d).2 }
      (((h.dispatches.release d).1.map fun gone => [Ref.chain gone.chain]).getD [] ++ out) := by
  intro t
  have ht := hb t
  have hcount := h.count_releaseDispatch (hb.count_pos (.dispatch d) (by simp [Ref.weight])) t
  have htotal := h.dispatches.total_release (fun e => Ref.weight t (.chain e.chain)) d
  have hgone :
      ((h.dispatches.release d).1.toList.map fun e : Dispatch => Ref.weight t (.chain e.chain)).sum =
        weights t (((h.dispatches.release d).1.map fun gone => [Ref.chain gone.chain]).getD []) := by
    cases (h.dispatches.release d).1 <;> rfl
  rw [hgone] at htotal
  simp only [owned, weights_cons, weights_append] at ht ⊢
  omega

/-- What a handle owned is held when the handle has gone. -/
theorem releaseHandle (hb : h.Balanced out) (i : HandleId) :
    Balanced { h with handles := (h.handles.release i).2 }
      ((h.handles.release i).1.toList ++ out) := by
  intro t
  have ht := hb t
  have htotal := h.handles.total_release (Ref.weight t) i
  rw [weights_append]
  show h.count t = _
  simp only [owned, weights] at ht htotal ⊢
  omega

/-- A share that is let go of is one owner less, and what the last one leaves behind is held. -/
theorem release {ref : Ref} (hb : h.Balanced (ref :: out)) :
    (h.release ref).2.Balanced ((h.release ref).1.refs ++ out) := by
  unfold Heap.release
  cases ref with
  | function f =>
    cases f with
    | none => exact hb.congr fun t => Nat.zero_add _
    | some p =>
      have hmoved := hb.releasePayload
      dsimp only
      generalize h.payloads.release p = r at hmoved ⊢
      obtain ⟨gone, payloads⟩ := r
      cases gone <;> exact hmoved
  | chain c =>
    have hmoved := hb.releaseChain
    dsimp only
    generalize h.chains.release c = r at hmoved ⊢
    obtain ⟨gone, chains⟩ := r
    cases gone <;> exact hmoved
  | dispatch d =>
    have hmoved := hb.releaseDispatch
    dsimp only
    generalize h.dispatches.release d = r at hmoved ⊢
    obtain ⟨gone, dispatches⟩ := r
    cases gone with
    | none => exact hmoved
    | some gone => exact hmoved.closeDispatch
  | event e =>
    refine hb.congr fun t => ?_
    simp only [weights_append, weights_cons, weights_nil, Ref.weight_event]
    omega
  | handle i =>
    have hout : h.Balanced out := hb.congr fun t => Nat.zero_add _
    have hmoved := hout.releaseHandle i
    dsimp only
    generalize h.handles.release i = r at hmoved ⊢
    obtain ⟨gone, handles⟩ := r
    cases gone <;> exact hmoved

end Balanced

end Heap
end Relay
