/-
  Taking a share and giving it back leaves NOTHING behind.

  A counted pool in which an owner came and went is the very same pool, a table into which something
  was put and taken out again is the very same table, and a chain in which a slot was pinned and
  unpinned is the very same chain.  Only the numbers that were given out in between are used up
  (`aged`).  `Drains` says what letting go of shares does to a heap as long as no callable ends;
  from it one reads that a dispatch that has started, moved and closed leaves the heap as it found it.
-/
import Relay.Proofs.Passage

namespace Relay

/-! ## Tables and pools -/

namespace Table

variable {κ α : Type} [DecidableEq κ]

/-- Two changes of one value are one change. -/
theorem modify_modify (t : Table κ α) (k : κ) (f g : α → α) :
    (t.modify k f).modify k g = t.modify k fun a => g (f a) := by
  apply ext_entries
  show ((t.entries.map _).map _) = t.entries.map _
  rw [List.map_map]
  refine List.map_congr_left fun e _ => ?_
  by_cases he : e.1 = k <;> simp [he]

/-- One change of the values of two keys, in either order. -/
theorem modify_comm (t : Table κ α) (k l : κ) (f : α → α) :
    (t.modify k f).modify l f = (t.modify l f).modify k f := by
  apply ext_entries
  show ((t.entries.map _).map _) = ((t.entries.map _).map _)
  rw [List.map_map, List.map_map]
  refine List.map_congr_left fun e _ => ?_
  obtain ⟨i, a⟩ := e
  dsimp only [Function.comp_apply]
  split <;> split <;> rfl

/-- What is put in under a new key goes to the end. -/
theorem put_of_find {k : κ} (a : α) {es : List (κ × α)} (h : find k es = none) :
    put k a es = es ++ [(k, a)] := by
  induction es with
  | nil => rfl
  | cons e rest ih =>
    rw [find] at h
    split at h
    · exact absurd h (by simp)
    · rename_i hne
      rw [put, if_neg hne, ih h, List.cons_append]

/-- What was put in can be taken out again. -/
theorem erase_insert (t : Table κ α) {k : κ} (a : α) (h : t.get? k = none) :
    (t.insert k a).erase k = t := by
  apply ext_entries
  show (put k a t.entries).filter _ = t.entries
  have hkeep : ∀ e ∈ t.entries, decide (e.1 ≠ k) = true := by
    intro e he
    refine decide_eq_true fun hk => ?_
    have hget : t.get? k = some e.2 := (t.get?_eq_some_iff k e.2).2 (hk ▸ he)
    exact absurd (h.symm.trans hget) (by simp)
  rw [put_of_find a h, List.filter_append, List.filter_eq_self.2 hkeep,
    List.filter_cons_of_neg (by simp)]
  exact List.append_nil _

end Table

namespace Pool

variable {α : Type}

/-- The pool with `k` more numbers used up. -/
def aged (p : Pool α) (k : Nat) : Pool α :=
  { p with
    nextId := p.nextId + k
    fresh := fun i h => Nat.lt_of_lt_of_le (p.fresh i h) (Nat.le_add_right p.nextId k) }

theorem ext_cells {p q : Pool α} (hc : p.cells = q.cells) (hn : p.nextId = q.nextId) : p = q := by
  obtain ⟨cells, nextId, fresh⟩ := p
  obtain ⟨cells', nextId', fresh'⟩ := q
  dsimp only at hc hn
  subst hc hn
  rfl

theorem aged_aged (p : Pool α) (k l : Nat) : (p.aged k).aged l = p.aged (k + l) :=
  ext_cells rfl (Nat.add_assoc p.nextId k l)

theorem release_aged (p : Pool α) (k i : Nat) :
    (p.aged k).release i = ((p.release i).1, (p.release i).2.aged k) := by
  have hcells : (p.aged k).cells = p.cells := rfl
  unfold release
  rw [hcells]
  cases p.cells.get? i with
  | none => rfl
  | some c =>
    obtain ⟨a, n⟩ := c
    cases n <;> rfl

theorem change_change (p : Pool α) (i : Nat) (f g : Cell α → Cell α) :
    (p.change i f).change i g = p.change i fun c => g (f c) :=
  ext_cells (p.cells.modify_modify i f g) rfl

/-- A change is what it does to the cell that is there. -/
theorem change_congr (p : Pool α) {i : Nat} {f g : Cell α → Cell α}
    (h : ∀ c, p.cells.get? i = some c → f c = g c) : p.change i f = p.change i g :=
  ext_cells (p.cells.modify_congr h) rfl

theorem change_eq_self (p : Pool α) {i : Nat} {f : Cell α → Cell α}
    (h : ∀ c, p.cells.get? i = some c → f c = c) : p.change i f = p :=
  ext_cells (p.cells.modify_eq_self h) rfl

theorem exists_cell {p : Pool α} {i : Nat} {a : α} (h : p.get? i = some a) :
    ∃ n, p.cells.get? i = some ⟨a, n⟩ := by
  obtain ⟨⟨b, n⟩, hcell, rfl⟩ := Option.map_eq_some_iff.1 h
  exact ⟨n, hcell⟩

theorem lt_of_get? (p : Pool α) {i : Nat} {a : α} (h : p.get? i = some a) : i < p.nextId := by
  obtain ⟨n, hcell⟩ := exists_cell h
  exact p.fresh i (by rw [Table.contains, hcell]; rfl)

theorem retain_comm (p : Pool α) (i j : Nat) : (p.retain i).retain j = (p.retain j).retain i :=
  ext_cells (p.cells.modify_comm i j fun c => { c with others := c.others + 1 }) rfl

/-- An owner that comes and goes. -/
theorem release_retain {p : Pool α} {i : Nat} {a : α} (h : p.get? i = some a) :
    (p.retain i).release i = (none, p) := by
  obtain ⟨n, hcell⟩ := exists_cell h
  have hretained : (p.retain i).cells.get? i = some ⟨a, n + 1⟩ := by
    show (p.cells.modify i _).get? i = _
    rw [Table.get?_modify, if_pos rfl, hcell]
    rfl
  have hback : ((p.retain i).change i fun c => { c with others := n }) = p := by
    rw [retain, change_change]
    refine p.change_eq_self fun c hc => ?_
    obtain rfl := Option.some.inj (hcell.symm.trans hc)
    rfl
  unfold release
  rw [hretained]
  exact Prod.ext rfl hback

/-- A value that is stored and taken out again by its only owner. -/
theorem release_alloc (p : Pool α) (a : α) :
    (p.alloc a).2.release p.nextId = (some a, p.aged 1) := by
  have hcell : (p.alloc a).2.cells.get? p.nextId = some ⟨a, 0⟩ := by
    show (p.cells.insert p.nextId ⟨a, 0⟩).get? p.nextId = _
    rw [Table.get?_insert, if_pos rfl]
  have hnone : p.cells.get? p.nextId = none := by
    have h := p.get?_nextId
    rwa [get?, Option.map_eq_none_iff] at h
  unfold release
  rw [hcell]
  exact Prod.ext rfl (ext_cells (p.cells.erase_insert ⟨a, 0⟩ hnone) rfl)

/-- A new value that is changed is the changed value, stored. -/
theorem modify_alloc (p : Pool α) (a : α) (f : α → α) :
    (p.alloc a).2.modify p.nextId f = (p.alloc (f a)).2 := by
  have hnone : p.cells.get? p.nextId = none := by
    have h := p.get?_nextId
    rwa [get?, Option.map_eq_none_iff] at h
  refine ext_cells (Table.ext_entries ?_) rfl
  have hkeep : ∀ e ∈ p.cells.entries, e.1 ≠ p.nextId := by
    intro e he hk
    have hget : p.cells.get? p.nextId = some e.2 := (p.cells.get?_eq_some_iff _ _).2 (hk ▸ he)
    exact absurd (hnone.symm.trans hget) (by simp)
  have hsame : p.cells.entries.map (fun e => (e.1, if e.1 = p.nextId then
      (⟨f e.2.value, e.2.others⟩ : Cell α) else e.2)) = p.cells.entries := by
    conv_rhs => rw [← List.map_id p.cells.entries]
    exact List.map_congr_left fun e he => by rw [if_neg (hkeep e he)]; rfl
  show (Table.put p.nextId ⟨a, 0⟩ p.cells.entries).map _ =
    Table.put p.nextId ⟨f a, 0⟩ p.cells.entries
  rw [Table.put_of_find _ hnone, Table.put_of_find _ hnone, List.map_append]
  exact congr (congrArg _ hsame) (by simp)

end Pool

/-! ## Chains -/

namespace Chain

variable {L : Type}

/-- The chain with a dispatch on it that stands on a slot, or past the end. -/
def pinnedAt (c : Chain L) : Option SlotId → Chain L
  | none => c
  | some x => c.pin x

/-- A pin on a linked slot that is given back. -/
theorem unpin_pin {c : Chain L} {ids : List SlotId} (h : c.Links ids) {x : SlotId} (hx : x ∈ ids) :
    (c.pin x).unpin x = (none, c) := by
  obtain ⟨slot, hs, hlinked⟩ := h.exists_slot hx
  have hpinned : (c.pin x).slots.get? x = some { slot with pins := slot.pins + 1 } := by
    rw [get?_pin, if_pos rfl, hs]
    rfl
  have hback :
      ((c.pin x).slots.modify x fun slot => { slot with pins := slot.pins - 1 }) = c.slots := by
    unfold pin
    rw [Table.modify_modify]
    exact c.slots.modify_eq_self fun _ _ => rfl
  unfold unpin
  rw [hpinned]
  dsimp only
  rw [if_neg (by simp [hlinked]), hback]
  rfl

end Chain

/-! ## Heaps -/

namespace Heap

variable {T : Vocabulary}

/-- The heap with more numbers of dispatches, handles and callables used up. -/
def aged (h : Heap T) (i j k : Nat) : Heap T :=
  { h with
    dispatches := h.dispatches.aged i
    handles := h.handles.aged j
    payloads := h.payloads.aged k }

theorem aged_zero (h : Heap T) : h.aged 0 0 0 = h := rfl

theorem aged_aged (h : Heap T) (i j k i' j' k' : Nat) :
    (h.aged i j k).aged i' j' k' = h.aged (i + i') (j + j') (k + k') := by
  unfold aged
  rw [Pool.aged_aged, Pool.aged_aged, Pool.aged_aged]

theorem retain_aged (h : Heap T) (i j k : Nat) (ref : Ref) :
    (h.aged i j k).retain ref = (h.retain ref).aged i j k := by
  cases ref with
  | function f => cases f <;> rfl
  | event e =>
    obtain ⟨d, recipient⟩ := e
    cases recipient <;> rfl
  | _ => rfl

theorem get?_handles_retain (h : Heap T) (ref : Ref) (i : HandleId) :
    (h.retain ref).handles.get? i = h.handles.get? i := by
  cases ref with
  | function f => cases f <;> rfl
  | event e =>
    obtain ⟨d, recipient⟩ := e
    cases recipient <;> rfl
  | handle j => exact Pool.get?_retain _ _ _
  | _ => rfl

theorem get?_handles_retainAll (h : Heap T) (refs : List Ref) (i : HandleId) :
    (h.retainAll refs).handles.get? i = h.handles.get? i := by
  induction refs generalizing h with
  | nil => rfl
  | cons ref rest ih => exact (ih (h.retain ref)).trans (h.get?_handles_retain ref i)

/-- Shares in functions concern no handle. -/
theorem handles_retainAll_functions (h : Heap T) (fs : List Fn) :
    (h.retainAll (fs.map .function)).handles = h.handles := by
  induction fs generalizing h with
  | nil => rfl
  | cons f rest ih =>
    refine (ih (h.retain (.function f))).trans ?_
    cases f <;> rfl

theorem exists_handle_of_chainOf {h : Heap T} {i : HandleId} {c : ChainId}
    (hc : h.chainOf i = some c) : ∃ ref, h.handles.get? i = some ref := by
  cases hi : h.handles.get? i with
  | none => exact absurd hc (by simp [chainOf, hi])
  | some ref => exact ⟨ref, rfl⟩

theorem exists_handle_of_functionOf {h : Heap T} {i : HandleId} {f : Fn}
    (hf : h.functionOf i = some f) : ∃ ref, h.handles.get? i = some ref := by
  cases hi : h.handles.get? i with
  | none => exact absurd hf (by simp [functionOf, hi])
  | some ref => exact ⟨ref, rfl⟩

theorem nextHandle_retain (h : Heap T) (ref : Ref) :
    (h.retain ref).handles.nextId = h.handles.nextId := by
  cases ref with
  | function f => cases f <;> rfl
  | event e =>
    obtain ⟨d, recipient⟩ := e
    cases recipient <;> rfl
  | _ => rfl

theorem nextHandle_retainAll (h : Heap T) (refs : List Ref) :
    (h.retainAll refs).handles.nextId = h.handles.nextId := by
  induction refs generalizing h with
  | nil => rfl
  | cons ref rest ih => exact (ih (h.retain ref)).trans (h.nextHandle_retain ref)

theorem closeDispatch_aged (h : Heap T) (d : Dispatch) (i j k : Nat) :
    (h.aged i j k).closeDispatch d = ((h.closeDispatch d).1, (h.closeDispatch d).2.aged i j k) := by
  obtain ⟨c, cursor⟩ := d
  have hchains : (h.aged i j k).chains = h.chains := rfl
  unfold closeDispatch
  rw [hchains]
  cases cursor with
  | none => rfl
  | some x => cases h.chains.get? c <;> rfl

theorem release_aged (h : Heap T) (i j k : Nat) (ref : Ref) :
    (h.aged i j k).release ref = ((h.release ref).1, (h.release ref).2.aged i j k) := by
  unfold release
  cases ref with
  | function f =>
    cases f with
    | none => rfl
    | some p =>
      dsimp only [aged]
      rw [Pool.release_aged]
      cases h.payloads.release p with
      | mk gone payloads => cases gone <;> rfl
  | chain c =>
    dsimp only [aged]
    cases h.chains.release c with
    | mk gone chains => cases gone <;> rfl
  | dispatch d =>
    dsimp only [aged]
    rw [Pool.release_aged]
    cases h.dispatches.release d with
    | mk gone dispatches =>
      cases gone with
      | none => rfl
      | some gone => exact closeDispatch_aged { h with dispatches } gone i j k
  | event e => rfl
  | handle n =>
    dsimp only [aged]
    rw [Pool.release_aged]
    cases h.handles.release n with
    | mk gone handles => cases gone <;> rfl

/-- The heap with dispatch `d` standing at `pos` of chain `c`, which is `chain` without the pin of
    this dispatch. -/
def stand (h : Heap T) (c : ChainId) (d : DispatchId) (chain : Chain Fn) (pos : Option SlotId) :
    Heap T :=
  { h with
    chains := h.chains.modify c fun _ => chain.pinnedAt pos
    dispatches := h.dispatches.modify d ({ · with cursor := pos }) }

/-! ## Letting go of everything -/

/-- Letting go of `refs`, and of what becomes due because of it, makes `g` of `h`; no callable ends
    on the way. -/
inductive Drains : Heap T → List Ref → Heap T → Prop
  | nil (h : Heap T) : Drains h [] h
  | cons {h g k : Heap T} {ref : Ref} {rest : List Ref} (refs : List Ref)
      (hr : h.release ref = ({ refs }, g)) (hd : Drains g (refs ++ rest) k) :
      Drains h (ref :: rest) k

theorem Drains.aged {h g : Heap T} {refs : List Ref} (hd : Drains h refs g) (i j k : Nat) :
    Drains (h.aged i j k) refs (g.aged i j k) := by
  induction hd with
  | nil h => exact .nil _
  | cons refs hr hd ih => exact .cons refs (by rw [release_aged, hr]) ih

/-- A function that is stored, or empty. -/
def Stores (h : Heap T) (f : Fn) : Prop := ∀ p, f = some p → ∃ load, h.payloads.get? p = some load

theorem release_retain_function {h : Heap T} {f : Fn} (hf : h.Stores f) :
    (h.retain (.function f)).release (.function f) = ({}, h) := by
  cases f with
  | none => rfl
  | some p =>
    obtain ⟨load, hload⟩ := hf p rfl
    unfold release
    dsimp only [retain]
    rw [Pool.release_retain hload]

theorem drains_function {h : Heap T} {f : Fn} (hf : h.Stores f) :
    Drains (h.retain (.function f)) [.function f] h :=
  .cons [] (release_retain_function hf) (.nil h)

theorem release_retain_handle {h : Heap T} {i : HandleId} {ref : Ref}
    (hi : h.handles.get? i = some ref) : (h.retain (.handle i)).release (.handle i) = ({}, h) := by
  unfold release
  dsimp only [retain]
  rw [Pool.release_retain hi]

/-- Shares that can be taken in any order are given back, one after the other. -/
theorem drains_retainAll {refs : List Ref} (h : Heap T)
    (hcomm : ∀ a ∈ refs, ∀ b ∈ refs, ∀ g : Heap T, (g.retain a).retain b = (g.retain b).retain a)
    (hback : ∀ a ∈ refs, ∀ taken,
      ((h.retainAll taken).retain a).release a = ({}, h.retainAll taken)) :
    Drains (h.retainAll refs) refs h := by
  induction refs with
  | nil => exact .nil h
  | cons ref rest ih =>
    -- the share that is given back first may as well have been taken last
    have hlast : ∀ taken ⊆ rest, ∀ g : Heap T,
        (g.retain ref).retainAll taken = (g.retainAll taken).retain ref := by
      intro taken
      induction taken with
      | nil => exact fun _ _ => rfl
      | cons b taken ihb =>
        intro hsub g
        show ((g.retain ref).retain b).retainAll taken = _
        rw [hcomm ref List.mem_cons_self b (List.mem_cons_of_mem _ (hsub List.mem_cons_self)) g]
        exact ihb (fun x hx => hsub (List.mem_cons_of_mem _ hx)) (g.retain b)
    show Drains ((h.retain ref).retainAll rest) (ref :: rest) h
    rw [hlast rest (List.Subset.refl rest) h]
    refine .cons [] (hback ref List.mem_cons_self rest) (ih ?_ ?_)
    · exact fun a ha b hb => hcomm a (List.mem_cons_of_mem _ ha) b (List.mem_cons_of_mem _ hb)
    · exact fun a ha => hback a (List.mem_cons_of_mem _ ha)

theorem drains_functions {h : Heap T} {fs : List Fn} (hfs : ∀ f ∈ fs, h.Stores f) :
    Drains (h.retainAll (fs.map .function)) (fs.map .function) h := by
  refine h.drains_retainAll ?_ ?_
  · intro a ha b hb g
    obtain ⟨f, -, rfl⟩ := List.mem_map.1 ha
    obtain ⟨f', -, rfl⟩ := List.mem_map.1 hb
    cases f with
    | none => rfl
    | some p =>
      cases f' with
      | none => rfl
      | some q => exact congrArg (fun payloads => { g with payloads }) (g.payloads.retain_comm p q)
  · intro a ha taken
    obtain ⟨f, hf, rfl⟩ := List.mem_map.1 ha
    refine release_retain_function fun p hp => ?_
    rw [(h.payloads_retainAll taken).1]
    exact hfs f hf p hp

theorem drains_handles {h : Heap T} {is : List HandleId}
    (his : ∀ i ∈ is, ∃ ref, h.handles.get? i = some ref) :
    Drains (h.retainAll (is.map .handle)) (is.map .handle) h := by
  refine h.drains_retainAll ?_ ?_
  · intro a ha b hb g
    obtain ⟨i, -, rfl⟩ := List.mem_map.1 ha
    obtain ⟨j, -, rfl⟩ := List.mem_map.1 hb
    exact congrArg (fun handles => { g with handles }) (g.handles.retain_comm i j)
  · intro a ha taken
    obtain ⟨i, hi, rfl⟩ := List.mem_map.1 ha
    obtain ⟨ref, href⟩ := his i hi
    exact release_retain_handle ((h.get?_handles_retainAll taken i).trans href)

/-- A new handle whose only holder lets go of it gives up what it owned. -/
theorem release_wrapUp (h : Heap T) (ref : Ref) :
    (h.wrapUp ref).2.release (.handle h.handles.nextId) = ({ refs := [ref] }, h.aged 0 1 0) := by
  unfold release
  dsimp only [wrapUp]
  rw [Pool.release_alloc]
  rfl

theorem Stores.retain {h : Heap T} {f : Fn} (hf : h.Stores f) (ref : Ref) :
    (h.retain ref).Stores f := by
  intro p hp
  rw [get?_payloads_retain]
  exact hf p hp

/-! ## A dispatch that comes and goes -/

/-- The payloads with one more owner of a function. -/
def shared (payloads : Pool (Payload T)) : Fn → Pool (Payload T)
  | none => payloads
  | some p => payloads.retain p

theorem retain_function (h : Heap T) (f : Fn) :
    h.retain (.function f) = { h with payloads := shared h.payloads f } := by
  cases f <;> rfl

/-- The pins of a dispatch move with it, and with nothing else. -/
theorem stand_stand (h : Heap T) (c : ChainId) (d : DispatchId) (chain : Chain Fn)
    (pos pos' : Option SlotId) :
    (h.stand c d chain pos).stand c d chain pos' = h.stand c d chain pos' := by
  have hchains : ((h.chains.modify c fun _ => chain.pinnedAt pos).modify c
      fun _ => chain.pinnedAt pos') = h.chains.modify c fun _ => chain.pinnedAt pos' :=
    Pool.change_change _ _ _ _
  have hdispatches : (h.dispatches.modify d ({ · with cursor := pos })).modify d
      ({ · with cursor := pos' }) = h.dispatches.modify d ({ · with cursor := pos' }) :=
    Pool.change_change _ _ _ _
  unfold stand
  rw [hchains, hdispatches]

/-- A dispatch that stands where it is said to stand. -/
theorem stand_eq_self {h : Heap T} {c : ChainId} {d : DispatchId} {chain : Chain Fn}
    {pos : Option SlotId} (hc : h.chains.get? c = some (chain.pinnedAt pos))
    (hd : h.dispatches.get? d = some ⟨c, pos⟩) : h.stand c d chain pos = h := by
  have hchains : (h.chains.modify c fun _ => chain.pinnedAt pos) = h.chains := by
    obtain ⟨n, hcell⟩ := Pool.exists_cell hc
    refine h.chains.change_eq_self fun cell hc' => ?_
    obtain rfl := Option.some.inj (hcell.symm.trans hc')
    rfl
  have hdispatches : h.dispatches.modify d ({ · with cursor := pos }) = h.dispatches := by
    obtain ⟨n, hcell⟩ := Pool.exists_cell hd
    refine h.dispatches.change_eq_self fun cell hd' => ?_
    obtain rfl := Option.some.inj (hcell.symm.trans hd')
    rfl
  unfold stand
  rw [hchains, hdispatches]

/-- A dispatch that has moved on, and stands somewhere else now: it has moved THERE. -/
theorem stand_moved (h : Heap T) (c : ChainId) (d : DispatchId) (chain : Chain Fn) (i : SlotId)
    (l : Fn) (pos : Option SlotId) :
    (h.moved d c chain i l).stand c d chain pos =
      ((h.stand c d chain pos).retain (.dispatch d)).retainAll [.function l, .function l] := by
  have hchains : ((h.chains.modify c fun _ => chain.pin i).modify c fun _ => chain.pinnedAt pos) =
      h.chains.modify c fun _ => chain.pinnedAt pos := Pool.change_change _ _ _ _
  have hdispatches : ((h.dispatches.modify d ({ · with cursor := some i })).retain d).modify d
      ({ · with cursor := pos }) = (h.dispatches.modify d ({ · with cursor := pos })).retain d := by
    simp only [Pool.modify, Pool.retain, Pool.change_change]
  unfold moved stand retainAll
  simp only [List.foldl_cons, List.foldl_nil, retain_function]
  dsimp only [retain]
  rw [hchains, hdispatches]

/-- The event that a `next` has made goes; its dispatch has other events. -/
theorem drains_event {h : Heap T} {d : DispatchId} {e : Dispatch} {l : Fn}
    (hd : h.dispatches.get? d = some e) (hl : h.Stores l) :
    Drains ((h.retain (.dispatch d)).retainAll [.function l, .function l]) [.event ⟨d, l⟩]
      (h.retain (.function l)) := by
  have hdispatch : ((h.retain (.dispatch d)).retainAll [.function l, .function l]).release
      (.dispatch d) = ({}, (h.retain (.function l)).retain (.function l)) := by
    unfold release retainAll
    simp only [List.foldl_cons, List.foldl_nil, retain_function]
    dsimp only [retain]
    rw [Pool.release_retain hd]
  exact .cons [.dispatch d, .function l] rfl (.cons [] hdispatch (drains_function (hl.retain _)))

/-- The event that a call has made goes, and is the last of its dispatch: the pin and the share in
    the chain are given back, and the chain is what it was. -/
theorem drains_last_event {h : Heap T} {c : ChainId} {chain : Chain Fn} {ids : List SlotId}
    (hc : h.chains.get? c = some chain) (hlinks : chain.Links ids) {pos : Option SlotId}
    (hpos : ∀ x, pos = some x → x ∈ ids) {l : Fn} (hl : h.Stores l) (i : SlotId) :
    Drains ((h.started c i l).stand c h.dispatches.nextId chain pos)
      [.event ⟨h.dispatches.nextId, l⟩] ((h.retain (.function l)).aged 1 0 0) := by
  obtain ⟨n, hcell⟩ := Pool.exists_cell hc
  -- writing the chain back undoes all that was done to it, but for the share of the dispatch
  have hback (f g : Chain Fn → Chain Fn) (hg : ∀ a, g a = chain) :
      ((h.chains.modify c f).retain c).modify c g = h.chains.retain c := by
    simp only [Pool.modify, Pool.retain, Pool.change_change]
    refine h.chains.change_congr fun cell hcell' => ?_
    obtain rfl := Option.some.inj (hcell.symm.trans hcell')
    exact congrArg (Cell.mk · (n + 1)) (hg _)
  let closed : Heap T :=
    { h with
      payloads := shared (shared h.payloads l) l
      chains := h.chains.retain c
      dispatches := h.dispatches.aged 1 }
  have hdispatch : ((h.started c i l).stand c h.dispatches.nextId chain pos).release
      (.dispatch h.dispatches.nextId) = ({ refs := [.chain c] }, closed) := by
    unfold release started stand retainAll
    simp only [List.foldl_cons, List.foldl_nil, retain_function]
    rw [Pool.modify_alloc, Pool.release_alloc]
    unfold closeDispatch
    cases pos with
    | none =>
      dsimp only [Chain.pinnedAt]
      rw [hback _ (fun _ => chain) fun _ => rfl]
    | some x =>
      have hstored : (((h.chains.modify c fun chain => chain.pin i).retain c).modify c
          fun _ => chain.pin x).get? c = some (chain.pin x) := by
        rw [Pool.get?_modify, if_pos rfl, Pool.get?_retain, Pool.get?_modify, if_pos rfl, hc]
        rfl
      dsimp only [Chain.pinnedAt]
      rw [hstored]
      dsimp only
      rw [Chain.unpin_pin hlinks (hpos x rfl)]
      have htwice : (((h.chains.modify c fun chain => chain.pin i).retain c).modify c
          fun _ => chain.pin x).modify c (fun _ => chain) = h.chains.retain c :=
        (Pool.change_change _ _ _ _).trans (hback _ (fun _ => chain) fun _ => rfl)
      dsimp only
      rw [htwice]
      rfl
  have hchain : closed.release (.chain c) =
      ({}, ((h.retain (.function l)).retain (.function l)).aged 1 0 0) := by
    unfold release
    simp only [retain_function]
    rw [Pool.release_retain hc]
    rfl
  have hfunction : Drains (((h.retain (.function l)).retain (.function l)).aged 1 0 0) [.function l]
      ((h.retain (.function l)).aged 1 0 0) := (drains_function (hl.retain _)).aged 1 0 0
  exact .cons [.dispatch h.dispatches.nextId, .function l] rfl
    (.cons [.chain c] hdispatch (.cons [] hchain hfunction))

end Heap

/-! ## What is stored in a reachable state -/

namespace Reachable

variable {H : Host} {s : State H}

/-- A share in a function that is there is a share in something that is stored. -/
theorem stored_of_alive {f : Fn} (ha : s.heap.Alive (.function f)) {q : PayloadId}
    (hq : f = some q) : ∃ load, s.heap.payloads.get? q = some load := by
  have hcount := ha (.payload q) (by
    rw [hq, Ref.weight, if_pos rfl]
    exact Nat.one_pos)
  exact Option.isSome_iff_exists.1 ((Pool.count_pos_iff _ _).1 hcount)

/-- The function of a handle is stored, or empty. -/
theorem stores_functionOf (hs : Reachable s) {i : HandleId} {f : Fn}
    (hi : s.heap.functionOf i = some f) : s.heap.Stores f := fun _ hp =>
  stored_of_alive (hs.balanced.alive_functionOf hi) hp

/-- So is the listener of a slot. -/
theorem stores_listener (hs : Reachable s) {c : ChainId} {e : SlotId × Fn}
    (he : e ∈ s.heap.listing c) : s.heap.Stores e.2 := by
  intro p hp
  cases hc : s.heap.chains.get? c with
  | none =>
    rw [Heap.listing, hc] at he
    exact absurd he List.not_mem_nil
  | some chain =>
    rw [Heap.listing_of_get? hc] at he
    have hl := (Chain.listener?_of_mem_listing he).2
    exact stored_of_alive (Heap.Balanced.alive_of_slot hs.balanced hc hl) hp

end Reachable

end Relay
