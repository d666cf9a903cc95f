/-
  What code makes for itself, and takes away again.

  While code runs, there are handles in the heap on functions that it has made, and callables that
  are stored for them.  `without` is the heap that there would be without such handles: it does not
  depend on the order in which they are let go of, since counts do not.  `Makes g h d` says that heap
  `h` is `g` and what code has on its desk `d`.  Everything that code does for itself keeps this, and
  uses up numbers of `g` at most, so that `g` is back when the desk is empty.  On the way it is
  settled when a callable ends: with the last handle that was made on it, and no sooner.
-/
import Relay.Proofs.Agreement

namespace Relay

/-! ## Letting go in any order -/

namespace Table

variable {κ α : Type} [DecidableEq κ]

theorem perm_insert (t : Table κ α) {k : κ} (a : α) (h : t.get? k = none) :
    (t.insert k a).entries.Perm ((k, a) :: t.entries) := by
  show (put k a t.entries).Perm _
  rw [put_of_find a h]
  exact List.perm_append_singleton (k, a) t.entries

theorem perm_erase (t : Table κ α) {k : κ} {a : α} (h : t.get? k = some a) :
    t.entries.Perm ((k, a) :: (t.erase k).entries) := by
  obtain ⟨pre, post, hentries, hpre, hpost⟩ := t.exists_split h
  have herased : (t.erase k).entries = pre ++ post := by
    show t.entries.filter (fun e => decide (e.1 ≠ k)) = _
    rw [hentries, List.filter_append, List.filter_cons_of_neg (by simp),
      List.filter_eq_self.2 fun e he => decide_eq_true (hpre e he),
      List.filter_eq_self.2 fun e he => decide_eq_true (hpost e he)]
  rw [hentries, herased]
  exact List.perm_middle

end Table

namespace Pool

variable {α : Type}

/-- What is left of an entry when one owner of number `i` has gone. -/
def lessen (i : Nat) (e : Nat × Cell α) : Option (Nat × Cell α) :=
  if e.1 = i then
    match e.2.others with
    | 0 => none
    | n + 1 => some (e.1, ⟨e.2.value, n⟩)
  else some e

theorem entries_release (p : Pool α) (i : Nat) :
    (p.release i).2.cells.entries = p.cells.entries.filterMap (lessen i) := by
  -- there is one entry at most that is concerned
  have hfound : ∀ e ∈ p.cells.entries, e.1 = i → p.cells.get? i = some e.2 := by
    intro e he hi
    exact (p.cells.get?_eq_some_iff i e.2).2 (hi ▸ he)
  unfold release
  cases hc : p.cells.get? i with
  | none =>
    have hkeep : p.cells.entries.filterMap (lessen i) = p.cells.entries.filterMap some := by
      refine List.filterMap_congr fun e he => if_neg fun hi => ?_
      exact absurd ((hfound e he hi).symm.trans hc) (by simp)
    rw [hkeep, List.filterMap_some]
  | some c =>
    obtain ⟨a, n⟩ := c
    have hcell : ∀ e ∈ p.cells.entries, e.1 = i → e.2 = ⟨a, n⟩ := fun e he hi =>
      Option.some.inj ((hfound e he hi).symm.trans hc)
    cases n with
    | zero =>
      show p.cells.entries.filter (fun e => decide (e.1 ≠ i)) = _
      rw [← List.filterMap_eq_filter]
      refine List.filterMap_congr fun e he => ?_
      by_cases hi : e.1 = i
      · simp [lessen, hi, hcell e he hi, Option.guard]
      · simp [lessen, hi, Option.guard]
    | succ n =>
      show p.cells.entries.map _ = _
      rw [← List.filterMap_eq_map]
      refine List.filterMap_congr fun e he => ?_
      by_cases hi : e.1 = i
      · simp [lessen, hi, hcell e he hi]
      · simp [lessen, hi]

theorem lessen_comm (i j : Nat) (e : Nat × Cell α) :
    (lessen i e).bind (lessen j) = (lessen j e).bind (lessen i) := by
  obtain ⟨k, a, n⟩ := e
  by_cases hi : k = i
  · by_cases hj : k = j
    · rw [← hi, ← hj]
    · cases n <;> simp [lessen, hi, hi ▸ hj]
  · by_cases hj : k = j
    · cases n <;> simp [lessen, hj, hj ▸ hi]
    · simp [lessen, hi, hj]

/-- Two owners may go in either order. -/
theorem release_comm (p : Pool α) (i j : Nat) :
    ((p.release i).2.release j).2 = ((p.release j).2.release i).2 := by
  refine ext_cells (Table.ext_entries ?_) ?_
  · simp only [entries_release, List.filterMap_filterMap, lessen_comm i j]
  · simp only [nextId_release]

end Pool

namespace Heap

variable {T : Vocabulary}

/-- The heap after a handle has gone and the share in a function that it had. -/
def forgo (h : Heap T) (e : HandleId × Fn) : Heap T :=
  { h with
    handles := (h.handles.release e.1).2
    payloads :=
      match e.2 with
      | none => h.payloads
      | some q => (h.payloads.release q).2 }

/-- The heap after all of these have gone. -/
def without (h : Heap T) (made : List (HandleId × Fn)) : Heap T := made.foldl forgo h

theorem forgo_comm (h : Heap T) (e e' : HandleId × Fn) :
    (h.forgo e).forgo e' = (h.forgo e').forgo e := by
  obtain ⟨i, f⟩ := e
  obtain ⟨j, g⟩ := e'
  unfold forgo
  dsimp only
  rw [Pool.release_comm]
  cases f with
  | none => rfl
  | some p =>
    cases g with
    | none => rfl
    | some q =>
      dsimp only
      rw [Pool.release_comm]

theorem without_perm (h : Heap T) {made made' : List (HandleId × Fn)} (hperm : made.Perm made') :
    h.without made = h.without made' := by
  apply hperm.foldl_eq'
  intro e _ e' _ g
  exact g.forgo_comm e e'

theorem forgo_aged (h : Heap T) (e : HandleId × Fn) (i j k : Nat) :
    (h.aged i j k).forgo e = (h.forgo e).aged i j k := by
  obtain ⟨n, f⟩ := e
  unfold forgo aged
  dsimp only
  rw [Pool.release_aged]
  cases f with
  | none => rfl
  | some q =>
    dsimp only
    rw [Pool.release_aged]

theorem without_aged (h : Heap T) (made : List (HandleId × Fn)) (i j k : Nat) :
    (h.aged i j k).without made = (h.without made).aged i j k := by
  induction made generalizing h with
  | nil => rfl
  | cons e rest ih =>
    show ((h.aged i j k).forgo e).without rest = ((h.forgo e).without rest).aged i j k
    rw [forgo_aged, ih]

theorem without_placed (h : Heap T) (made : List (HandleId × Fn)) (j : Option Plain.Journey)
    (pos : Option SlotId) : (h.placed j pos).without made = (h.without made).placed j pos := by
  induction made generalizing h with
  | nil => rfl
  | cons e rest ih =>
    have hforgo : (h.placed j pos).forgo e = (h.forgo e).placed j pos := by cases j <;> rfl
    show ((h.placed j pos).forgo e).without rest = ((h.forgo e).without rest).placed j pos
    rw [hforgo, ih]

/-- Only handles and counts are concerned. -/
theorem without_aside (h : Heap T) (made : List (HandleId × Fn)) :
    (h.without made).chains = h.chains ∧ (h.without made).dispatches = h.dispatches ∧
      (h.without made).handles.nextId = h.handles.nextId ∧
        (h.without made).payloads.nextId = h.payloads.nextId := by
  induction made generalizing h with
  | nil => exact ⟨rfl, rfl, rfl, rfl⟩
  | cons e rest ih =>
    obtain ⟨hchains, hdispatches, hhandles, hpayloads⟩ := ih (h.forgo e)
    refine ⟨hchains, hdispatches, hhandles.trans (Pool.nextId_release _ _), hpayloads.trans ?_⟩
    obtain ⟨i, f⟩ := e
    cases f with
    | none => rfl
    | some q => exact Pool.nextId_release _ _

/-- A handle that is there without them is there with them. -/
theorem get?_handles_without {h : Heap T} {made : List (HandleId × Fn)} {i : HandleId} {ref : Ref}
    (hi : (h.without made).handles.get? i = some ref) : h.handles.get? i = some ref := by
  induction made generalizing h with
  | nil => exact hi
  | cons e rest ih =>
    have hforgone : (h.handles.release e.1).2.get? i = some ref := ih hi
    rw [Pool.get?_release] at hforgone
    split at hforgone
    · exact absurd hforgone (by simp)
    · exact hforgone

end Heap

namespace Plain

variable {H : Host} {v : View H} {g h : Heap H.toVocabulary} {d : Desk H}

/-! ## The heap and the desk -/

section

variable (d : Desk H) (others : PayloadId → Option (Payload H.toVocabulary)) (p q : PayloadId)

theorem Desk.payload_name (i : HandleId) (f : Fn) : (d.name i f).payload others = d.payload others :=
  rfl

theorem Desk.payload_store (c : Callable H) :
    (d.store p c).payload others q = if p = q then some c.payload else d.payload others q := by
  unfold Desk.payload Desk.store
  rw [Table.get?_insert]
  by_cases he : p = q
  · rw [if_pos he, if_pos he]
  · rw [if_neg he, if_neg he]

theorem Desk.payload_erase (made : Table HandleId Fn) :
    ({ d with made, callables := d.callables.erase p } : Desk H).payload others q =
      if p = q then others q else d.payload others q := by
  unfold Desk.payload
  rw [Table.get?_erase]
  by_cases he : p = q
  · rw [if_pos he, if_pos he]
  · rw [if_neg he, if_neg he]

end

/-- Heap `h` is `g` and what code has on its desk. -/
structure Makes (g h : Heap H.toVocabulary) (d : Desk H) : Prop where
  without : h.without d.made.entries = g
  /-- Each of the handles has one holder. -/
  handles : ∀ i f, d.made.get? i = some f → h.handles.cells.get? i = some ⟨.function f, 0⟩
  /-- Each of them has a share in its callable. -/
  counted : ∀ q, h.payloads.count q = g.payloads.count q + d.made.values.count (some q)
  payloads : ∀ q, h.payloads.get? q = d.payload g.payloads.get? q
  /-- The callables of the desk are in nobody else's hands. -/
  apart : ∀ q c, d.callables.get? q = some c → g.payloads.get? q = none

namespace Makes

/-- An empty desk. -/
theorem nothing (h : Heap H.toVocabulary) (event : Option (HandleId × ChainId)) :
    Makes h h { event } where
  without := rfl
  handles := fun _ _ hi => absurd hi (by simp [Table.get?, Table.find])
  counted := fun q => (Nat.add_zero _).symm
  payloads := fun _ => rfl
  apart := fun _ _ hq => absurd hq (by simp [Table.get?, Table.find])

/-- Code that has let go of all that it has made leaves the heap as it would be without. -/
theorem eq_of_nil (hm : Makes g h d) (hd : d.made.entries = []) : h = g := by
  rw [← hm.without, hd]
  rfl

/-- Nothing that is stored without the desk is hidden by it. -/
theorem get?_of_some (hm : Makes g h d) {q : PayloadId} {load : Payload H.toVocabulary}
    (hq : g.payloads.get? q = some load) : h.payloads.get? q = some load := by
  rw [hm.payloads, Desk.payload]
  cases hc : d.callables.get? q with
  | none => exact hq
  | some c => exact absurd ((hm.apart q c hc).symm.trans hq) (by simp)

theorem stores (hm : Makes g h d) {f : Fn} (hf : g.Stores f) : h.Stores f := by
  intro q hq
  obtain ⟨load, hload⟩ := hf q hq
  exact ⟨load, hm.get?_of_some hload⟩

theorem chains (hm : Makes g h d) : g.chains = h.chains :=
  hm.without ▸ (h.without_aside d.made.entries).1

theorem dispatches (hm : Makes g h d) : g.dispatches = h.dispatches :=
  hm.without ▸ (h.without_aside d.made.entries).2.1

theorem nextHandle (hm : Makes g h d) : g.handles.nextId = h.handles.nextId :=
  hm.without ▸ (h.without_aside d.made.entries).2.2.1

theorem nextPayload (hm : Makes g h d) : g.payloads.nextId = h.payloads.nextId :=
  hm.without ▸ (h.without_aside d.made.entries).2.2.2

theorem get?_handle (hm : Makes g h d) {i : HandleId} {ref : Ref}
    (hi : g.handles.get? i = some ref) : h.handles.get? i = some ref := by
  rw [← hm.without] at hi
  exact Heap.get?_handles_without hi

/-- The functions of the desk are stored. -/
theorem stores_made (hm : Makes g h d) {i : HandleId} {f : Fn} (hi : d.made.get? i = some f) :
    h.Stores f := by
  rintro q rfl
  have hmem : some q ∈ d.made.values :=
    List.mem_map_of_mem (f := (·.2)) ((d.made.get?_eq_some_iff i _).1 hi)
  have hpos : 0 < h.payloads.count q := by
    rw [hm.counted]
    exact Nat.add_pos_right _ (List.count_pos_iff.2 hmem)
  exact Option.isSome_iff_exists.1 ((h.payloads.count_pos_iff q).1 hpos)

/-- What code sees is what its surroundings show and what it has made. -/
theorem shows_over {j : Option Journey} (hm : Makes g h d) (hv : Shows v g j) :
    Shows (v.over d) h j where
  lists := fun c => by
    rw [Heap.listing_congr (h := g) (by rw [hm.chains])]
    exact hv.lists c
  listed := fun c e he => by
    rw [Heap.listing_congr (h := g) (by rw [hm.chains])] at he
    exact hm.stores (hv.listed c e he)
  coherent := hm.chains ▸ hv.coherent
  payloads := fun q => by
    rw [hm.payloads, ← funext hv.payloads]
    rfl
  functions := fun i f hi => by
    simp only [View.over] at hi
    split at hi
    · rename_i f' hmade
      obtain rfl := Option.some.inj hi
      refine ⟨?_, hm.stores_made hmade⟩
      rw [Heap.functionOf, Pool.get?, hm.handles i f' hmade]
      rfl
    · obtain ⟨hfunction, hf⟩ := hv.functions i f hi
      obtain ⟨ref, href⟩ := Heap.exists_handle_of_functionOf hfunction
      refine ⟨?_, hm.stores hf⟩
      rw [Heap.functionOf, hm.get?_handle href, ← href]
      exact hfunction
  chains := fun i c hi => by
    obtain ⟨hchain, chain, hc⟩ := hv.chains i c hi
    obtain ⟨ref, href⟩ := Heap.exists_handle_of_chainOf hchain
    refine ⟨?_, chain, hm.chains ▸ hc⟩
    rw [Heap.chainOf, hm.get?_handle href, ← hm.dispatches, ← href]
    exact hchain
  finished := fun i b hi => by
    obtain ⟨e, k, he, hk, hb, hne⟩ := hv.finished i b hi
    exact ⟨e, k, hm.get?_handle he, hm.dispatches ▸ hk, hb, hne⟩

theorem agrees_over {j : Option Journey} {pos : Option SlotId} {rest : Rest} {p : Progress H}
    (hm : Makes g h d) (ha : Agrees v g j pos rest p) : Agrees (v.over d) h j pos rest p where
  shows := hm.shows_over ha.shows
  standing := by
    cases j with
    | none => trivial
    | some j =>
      have hj : j.At g pos := ha.standing
      exact ⟨hm.chains ▸ hj.chained, hm.dispatches ▸ hj.stands, hj.coherent⟩
  remains := ha.remains
  fresh := ha.fresh.trans hm.nextHandle
  stored := ha.stored.trans hm.nextPayload

/-- A task that code waits for leaves its desk alone. -/
theorem leaves {j : Option Journey} {rest : Rest} {p : Progress H} {h' : Heap H.toVocabulary}
    (hm : Makes g h d) (hl : Leaves h j rest p h') :
    ∃ g', Leaves g j rest p g' ∧ Makes g' h' d := by
  obtain ⟨pos, i, k, l, hrest, hfresh, hstored⟩ := hl
  refine ⟨_, .intro pos i k l hrest (hm.nextHandle ▸ hfresh) (hm.nextPayload ▸ hstored), ?_⟩
  have hhandles : (h.placed j pos).handles = h.handles := Heap.handles_placed h j pos
  have hpayloads (h : Heap H.toVocabulary) : (h.placed j pos).payloads = h.payloads :=
    Heap.payloads_placed h j pos
  constructor
  · rw [Heap.without_aged, Heap.without_placed, hm.without]
  · intro n f hn
    show (h.placed j pos).handles.cells.get? n = _
    rw [hhandles]
    exact hm.handles n f hn
  · intro q
    show (h.placed j pos).payloads.count q = (g.placed j pos).payloads.count q + _
    rw [hpayloads, hpayloads]
    exact hm.counted q
  · intro q
    show (h.placed j pos).payloads.get? q = d.payload (g.placed j pos).payloads.get? q
    rw [hpayloads, hpayloads]
    exact hm.payloads q
  · intro q c hq
    show (g.placed j pos).payloads.get? q = none
    rw [hpayloads]
    exact hm.apart q c hq

/-! ### Making -/

/-- The next handle is not on the desk. -/
theorem get?_fresh (hm : Makes g h d) : d.made.get? h.handles.nextId = none := by
  cases hi : d.made.get? h.handles.nextId with
  | none => rfl
  | some f =>
    have hnext := h.handles.get?_nextId
    rw [Pool.get?, hm.handles _ f hi] at hnext
    exact absurd hnext (by simp)

theorem handles_name (hm : Makes g h d) (f : Fn) {i : HandleId} {f' : Fn}
    (hi : (d.name h.handles.nextId f).made.get? i = some f') :
    (h.handles.alloc (.function f)).2.cells.get? i = some ⟨.function f', 0⟩ := by
  show (h.handles.cells.insert h.handles.nextId ⟨.function f, 0⟩).get? i = _
  rw [Desk.name, Table.get?_insert] at hi
  rw [Table.get?_insert]
  split at hi
  · rename_i he
    rw [if_pos he, Option.some.inj hi]
  · rename_i hne
    rw [if_neg hne]
    exact hm.handles i f' hi

theorem count_name (hm : Makes g h d) (f : Fn) (q : PayloadId) :
    (d.name h.handles.nextId f).made.values.count (some q) =
      d.made.values.count (some q) + if f = some q then 1 else 0 := by
  have hperm := (d.made.perm_insert f hm.get?_fresh).map (·.2)
  show (((d.made.insert h.handles.nextId f).entries).map (·.2)).count (some q) = _
  rw [hperm.count_eq, List.map_cons, List.count_cons]
  simp [Table.values]

/-- The heap is as it was, but for the new handle and what it owns. -/
theorem without_name (hm : Makes g h d) {f : Fn} {h' : Heap H.toVocabulary} {k : Nat}
    (hforgo : h'.forgo (h.handles.nextId, f) = h.aged 0 1 k) :
    h'.without (d.name h.handles.nextId f).made.entries = g.aged 0 1 k := by
  have hperm : (d.name h.handles.nextId f).made.entries.Perm
      ((h.handles.nextId, f) :: d.made.entries) := d.made.perm_insert f hm.get?_fresh
  rw [h'.without_perm hperm]
  show (h'.forgo (h.handles.nextId, f)).without d.made.entries = _
  rw [hforgo, Heap.without_aged, hm.without]

/-- A new handle on a function that there is. -/
theorem name (hm : Makes g h d) {f : Fn} (hf : h.Stores f) :
    Makes (g.aged 0 1 0) ((h.retain (.function f)).wrapUp (.function f)).2
      (d.name h.handles.nextId f) where
  without := by
    refine hm.without_name ?_
    unfold Heap.forgo
    dsimp only [Heap.wrapUp]
    cases f with
    | none =>
      dsimp only [Heap.retain]
      rw [Pool.release_alloc]
      rfl
    | some q =>
      obtain ⟨load, hload⟩ := hf q rfl
      dsimp only [Heap.retain]
      rw [Pool.release_alloc, Pool.release_retain hload]
      rfl
  handles := fun i f' hi => by
    have hcells := hm.handles_name f hi
    cases f <;> exact hcells
  counted := fun q => by
    rw [hm.count_name, ← Nat.add_assoc]
    show (h.retain (.function f)).payloads.count q = g.payloads.count q + _ + _
    rw [← hm.counted]
    cases f with
    | none => rfl
    | some p =>
      show (h.payloads.retain p).count q = _
      have hstored : (h.payloads.get? p).isSome := Option.isSome_iff_exists.2 (hf p rfl)
      rw [Pool.count_retain]
      simp only [hstored, and_true, Option.some.injEq]
      split <;> rfl
  payloads := fun q => by
    show (h.retain (.function f)).payloads.get? q = _
    rw [Heap.get?_payloads_retain]
    exact hm.payloads q
  apart := hm.apart

/-- A new callable, and a handle on it. -/
theorem store (hm : Makes g h d) (c : Callable H) :
    Makes (g.aged 0 1 1) ((h.store c.payload).2.wrapUp (.function (some h.payloads.nextId))).2
      ((d.store h.payloads.nextId c).name h.handles.nextId (some h.payloads.nextId)) where
  without := by
    refine hm.without_name (f := some h.payloads.nextId) ?_
    unfold Heap.forgo
    dsimp only [Heap.wrapUp, Heap.store]
    rw [Pool.release_alloc, Pool.release_alloc]
    rfl
  handles := fun i f' hi => hm.handles_name (some h.payloads.nextId) hi
  counted := fun q => by
    have hcounted := hm.counted q
    have hname := hm.count_name (some h.payloads.nextId) q
    have hcount : (h.payloads.alloc c.payload).2.count q =
        if h.payloads.nextId = q then 1 else h.payloads.count q := Pool.count_alloc _ _ _
    have hgoal : (h.payloads.alloc c.payload).2.count q = g.payloads.count q +
        (d.name h.handles.nextId (some h.payloads.nextId)).made.values.count (some q) := by
      rw [hcount, hname]
      simp only [Option.some.injEq]
      split
      · rename_i he
        have hzero : h.payloads.count q = 0 := by
          rw [← he]
          exact Nat.eq_zero_of_not_pos fun hpos => by
            have hsome := (h.payloads.count_pos_iff _).1 hpos
            rw [h.payloads.get?_nextId] at hsome
            exact absurd hsome (by simp)
        omega
      · omega
    exact hgoal
  payloads := fun q => by
    have hothers : (g.aged 0 1 1).payloads.get? = g.payloads.get? := rfl
    rw [Desk.payload_name, Desk.payload_store, hothers, ← hm.payloads]
    exact Pool.get?_alloc _ _ _
  apart := fun q c' hq => by
    show g.payloads.get? q = none
    replace hq : (d.callables.insert h.payloads.nextId c).get? q = some c' := hq
    rw [Table.get?_insert] at hq
    split at hq
    · rename_i he
      rw [← he, ← hm.nextPayload]
      exact g.payloads.get?_nextId
    · exact hm.apart q c' hq

/-! ### Letting go -/

end Makes

/-- Either some function is left of the callable that the desk has lost one of, or it was not stored
    for the desk; or it was the last. -/
theorem Desk.discard_cases (d : Desk H) (i : HandleId) (f : Fn) :
    (d.discard i f = ({ d with made := d.made.erase i }, none) ∧
      ∀ q, f = some q → some q ∈ (d.made.erase i).values ∨ d.callables.get? q = none) ∨
    ∃ q c, f = some q ∧ some q ∉ (d.made.erase i).values ∧ d.callables.get? q = some c ∧
      d.discard i f =
        ({ d with made := d.made.erase i, callables := d.callables.erase q }, some c) := by
  cases f with
  | none => exact .inl ⟨rfl, fun q hq => absurd hq (by simp)⟩
  | some q =>
    by_cases hleft : some q ∈ (d.made.erase i).values
    · refine .inl ⟨?_, fun q' hq => .inl (hq ▸ hleft)⟩
      simp only [discard, idle?, Option.bind_some, if_pos hleft]
    · cases hc : d.callables.get? q with
      | none =>
        refine .inl ⟨?_, fun q' hq => .inr (Option.some.inj hq ▸ hc)⟩
        simp only [discard, idle?, Option.bind_some, if_neg hleft, hc, Option.map_none]
      | some c =>
        refine .inr ⟨q, c, rfl, hleft, hc, ?_⟩
        simp only [discard, idle?, Option.bind_some, if_neg hleft, hc, Option.map_some]

namespace Makes

theorem release_handle (hm : Makes g h d) {i : HandleId} {f : Fn} (hi : d.made.get? i = some f) :
    h.handles.release i = (some (.function f), h.handles.remove i) := by
  unfold Pool.release
  rw [hm.handles i f hi]

/-- The shares in a callable are those of others, those that are left, and the one that goes. -/
theorem count_erase (hm : Makes g h d) {i : HandleId} {f : Fn} (hi : d.made.get? i = some f)
    (q : PayloadId) : h.payloads.count q = g.payloads.count q +
      (d.made.erase i).values.count (some q) + if f = some q then 1 else 0 := by
  have hperm := (d.made.perm_erase hi).map (·.2)
  have hcount := hperm.count_eq (some q)
  rw [List.map_cons, List.count_cons] at hcount
  rw [hm.counted, Nat.add_assoc]
  refine congrArg _ (hcount.trans ?_)
  simp [Table.values]

/-- What is left when a function of the desk has gone. -/
theorem forgo (hm : Makes g h d) {i : HandleId} {f : Fn} (hi : d.made.get? i = some f)
    {d' : Desk H} (hmade : d'.made = d.made.erase i)
    (hpayloads : ∀ q, (h.forgo (i, f)).payloads.get? q = d'.payload g.payloads.get? q)
    (hcallables : ∀ q c, d'.callables.get? q = some c → d.callables.get? q = some c) :
    Makes g (h.forgo (i, f)) d' where
  without := by
    rw [hmade, ← hm.without, h.without_perm (d.made.perm_erase hi)]
    rfl
  handles := fun k f' hk => by
    rw [hmade, Table.get?_erase] at hk
    show (h.handles.release i).2.cells.get? k = _
    rw [hm.release_handle hi]
    show (h.handles.cells.erase i).get? k = _
    rw [Table.get?_erase]
    split at hk
    · exact absurd hk (by simp)
    · rename_i hne
      rw [if_neg hne]
      exact hm.handles k f' hk
  counted := fun q => by
    have hcount := hm.count_erase hi q
    rw [hmade]
    cases f with
    | none =>
      rw [if_neg (by simp)] at hcount
      exact hcount
    | some p =>
      show (h.payloads.release p).2.count q = _
      rw [Pool.count_release]
      simp only [Option.some.injEq] at hcount
      split
      · rename_i he
        rw [if_pos he] at hcount
        omega
      · rename_i hne
        rw [if_neg hne] at hcount
        exact hcount
  payloads := hpayloads
  apart := fun q c hq => hm.apart q c (hcallables q c hq)

/-- A function that is not the last of its callable goes. -/
theorem discard_shared (hm : Makes g h d) {i : HandleId} {f : Fn} (hi : d.made.get? i = some f)
    (hshared : ∀ q, f = some q →
      some q ∈ (d.made.erase i).values ∨ d.callables.get? q = none) :
    Makes g (h.forgo (i, f)) { d with made := d.made.erase i } ∧
      Heap.release { h with handles := (h.handles.release i).2 } (.function f) =
        ({}, h.forgo (i, f)) := by
  cases f with
  | none => exact ⟨hm.forgo hi rfl hm.payloads fun _ _ hq => hq, rfl⟩
  | some q =>
    -- someone else has a share
    have hcount : 2 ≤ h.payloads.count q := by
      have hall := hm.count_erase hi q
      rw [if_pos rfl] at hall
      rcases hshared q rfl with hleft | hforeign
      · have hpos := List.count_pos_iff.2 hleft
        omega
      · have hstored : g.payloads.get? q = h.payloads.get? q := by
          rw [hm.payloads, Desk.payload, hforeign]
        have hsome : (g.payloads.get? q).isSome := by
          rw [hstored]
          exact (h.payloads.count_pos_iff q).1 (by omega)
        have hpos := (g.payloads.count_pos_iff q).2 hsome
        omega
    rcases h.payloads.release_cases q with ⟨a, -, hone, -⟩ | ⟨hnone, -, -⟩
    · omega
    · refine ⟨hm.forgo hi rfl (fun q' => ?_) fun _ _ hq => hq, ?_⟩
      · show (h.payloads.release q).2.get? q' = _
        rw [Pool.get?_release, if_neg (by omega)]
        exact hm.payloads q'
      · unfold Heap.release Heap.forgo
        dsimp only
        generalize h.payloads.release q = released at hnone
        obtain ⟨gone, payloads⟩ := released
        obtain rfl : gone = none := hnone
        rfl

/-- The last function of a callable goes, and with it the callable. -/
theorem discard_last (hm : Makes g h d) {i : HandleId} {q : PayloadId} {c : Callable H}
    (hi : d.made.get? i = some (some q)) (hleft : some q ∉ (d.made.erase i).values)
    (hc : d.callables.get? q = some c) :
    Makes g (h.forgo (i, some q))
        { d with made := d.made.erase i, callables := d.callables.erase q } ∧
      Heap.release { h with handles := (h.handles.release i).2 } (.function (some q)) =
        ({ dropped := some c.native }, h.forgo (i, some q)) := by
  have hcount : h.payloads.count q = 1 := by
    have hall := hm.count_erase hi q
    have hothers : g.payloads.count q = 0 := by
      refine Nat.eq_zero_of_not_pos fun hpos => ?_
      have hsome := (g.payloads.count_pos_iff q).1 hpos
      rw [hm.apart q c hc] at hsome
      exact absurd hsome (by simp)
    rw [if_pos rfl, List.count_eq_zero_of_not_mem hleft] at hall
    omega
  have hstored : h.payloads.get? q = some c.payload := by rw [hm.payloads, Desk.payload, hc]
  rcases h.payloads.release_cases q with ⟨a, ha, -, hgone, -⟩ | ⟨-, -, hne⟩
  · obtain rfl := Option.some.inj (hstored.symm.trans ha)
    refine ⟨hm.forgo hi rfl (fun q' => ?_) fun q' c' hq => ?_, ?_⟩
    · rw [Desk.payload_erase]
      show (h.payloads.release q).2.get? q' = _
      rw [Pool.get?_release]
      by_cases he : q = q'
      · rw [if_pos ⟨he, by omega⟩, if_pos he, ← he]
        exact (hm.apart q c hc).symm
      · rw [if_neg fun h => he h.1, if_neg he]
        exact hm.payloads q'
    · replace hq : (d.callables.erase q).get? q' = some c' := hq
      rw [Table.get?_erase] at hq
      split at hq
      · exact absurd hq (by simp)
      · exact hq
    · unfold Heap.release Heap.forgo
      dsimp only
      generalize h.payloads.release q = released at hgone
      obtain ⟨gone, payloads⟩ := released
      obtain rfl : gone = some c.payload := hgone
      rfl
  · exact absurd hcount hne

/-- Code lets go of a function that it has made, and what the library does about it is what the desk
    says. -/
theorem discard (hm : Makes g h d) {i : HandleId} {f : Fn} (hi : d.made.get? i = some f) :
    Makes g (h.forgo (i, f)) (d.discard i f).1 ∧
      h.release (.handle i) =
        ({ refs := [.function f] }, { h with handles := (h.handles.release i).2 }) ∧
      Heap.release { h with handles := (h.handles.release i).2 } (.function f) =
        ({ dropped := (d.discard i f).2.map (·.native) }, h.forgo (i, f)) := by
  have hhandle : h.release (.handle i) =
      ({ refs := [.function f] }, { h with handles := (h.handles.release i).2 }) := by
    unfold Heap.release
    dsimp only
    rw [hm.release_handle hi]
  rcases d.discard_cases i f with ⟨hd, hshared⟩ | ⟨q, c, rfl, hleft, hc, hd⟩
  · obtain ⟨hmakes, hrelease⟩ := hm.discard_shared hi hshared
    rw [hd]
    exact ⟨hmakes, hhandle, hrelease⟩
  · obtain ⟨hmakes, hrelease⟩ := hm.discard_last hi hleft hc
    rw [hd]
    exact ⟨hmakes, hhandle, hrelease⟩

end Makes

end Plain
end Relay
