/-
  A listener that is added and removed again has NEVER BEEN THERE.

  Taking out the slot that was put in last leads every link past it to where it led before, and the
  slot goes, for nobody stands on it.  So the chain is the very same chain, tombstones and pins and
  all, and only the number of the slot is used up (`Chain.numbered`).  This holds at either end, and
  does not depend on what else is in the chain.

  To be removed, a listener has to be found.  At the back it is the first to be compared, and equal to
  itself; at the front it is the last, and is found if every other listener has been told apart from
  it.  What the search takes on its way it gives back.
-/
import Relay.Proofs.Agreement
import Relay.Proofs.Bare
import Relay.Proofs.Comparison

namespace Relay

/-! ## The keys of a table -/

namespace Table

variable {κ α β : Type} [DecidableEq κ]

omit [DecidableEq κ] in
theorem keys_map (t : Table κ α) (f : κ → α → β) : (t.map f).keys = t.keys := by
  show (t.entries.map _).map _ = _
  rw [List.map_map]
  rfl

theorem keys_insert (t : Table κ α) {k : κ} (a : α) (h : t.get? k = none) :
    (t.insert k a).keys = t.keys ++ [k] := by
  show (put k a t.entries).map _ = _
  rw [put_of_find a h, List.map_append]
  rfl

theorem keys_erase (t : Table κ α) (k : κ) : (t.erase k).keys = t.keys.filter (· ≠ k) := by
  show (t.entries.filter _).map _ = (t.entries.map _).filter _
  rw [List.filter_map]
  rfl

end Table

/-! ## One chain -/

namespace Chain

variable {L : Type}

/-- The chain with one more slot number used up. -/
def numbered (c : Chain L) : Chain L := { c with nextId := c.nextId + 1 }

theorem keys_setAfter (c : Chain L) (id after : Option SlotId) :
    (c.setAfter id after).slots.keys = c.slots.keys := by
  unfold setAfter
  split
  · exact Table.keys_map _ _
  · rfl

theorem keys_setBefore (c : Chain L) (id before : Option SlotId) :
    (c.setBefore id before).slots.keys = c.slots.keys := by
  unfold setBefore
  split
  · exact Table.keys_map _ _
  · rfl

/-- A slot that nobody stands on is taken out. -/
theorem keys_detach (c : Chain L) {id : SlotId} {slot : Slot L} (hs : c.slots.get? id = some slot)
    (hl : slot.linked = true) (hpins : slot.pins = 0) :
    (c.detach id).2.slots.keys = c.slots.keys.filter (· ≠ id) := by
  rw [Links.detach_eq c hs hl]
  dsimp only
  rw [if_neg (by rw [hpins]; exact Nat.lt_irrefl 0)]
  show ((retarget _ id slot.after).slots.erase id).keys = _
  rw [Table.keys_erase, retarget, Table.mapValues, Table.keys_map]
  dsimp only
  rw [keys_setBefore, keys_setAfter]
  exact congrArg _ (Table.keys_map _ _)

namespace Links

variable {c d : Chain L} {ids ids' : List SlotId}

/-- No link leads to a slot that is not there yet. -/
theorem ne_nextId (h : c.Links ids) {j : SlotId} {t : Slot L} (ht : c.slots.get? j = some t) :
    t.after ≠ some c.nextId ∧ t.before ≠ some c.nextId := by
  cases hl : t.linked with
  | false =>
    obtain ⟨hbefore, hafter⟩ := h.buried j t ht hl
    constructor
    · exact fun hn => h.nextId_not_mem (hafter _ hn)
    · rw [hbefore]
      exact fun hn => absurd hn (by simp)
  | true =>
    have hj : j ∈ ids := (h.mem_iff_linked ht).2 hl
    constructor
    · intro hn
      exact h.nextId_not_mem (h.forth.mem_of_eq_some hj ((following_stored ht).trans hn)).1
    · intro hn
      have hmem := h.back.mem_of_eq_some (List.mem_reverse.2 hj) ((preceding_stored ht).trans hn)
      exact h.nextId_not_mem (List.mem_reverse.1 hmem.1)

/-- A chain that differs from another one in a new slot only, to which some links lead, becomes that one
    if the slot is detached. -/
theorem detach_new (h : c.Links ids) (hd : d.Links ids') (hmem : c.nextId ∈ ids')
    (hids : ids'.erase c.nextId = ids) (hnext : d.nextId = c.nextId + 1) {slot : Slot L}
    (hs : d.slots.get? c.nextId = some slot) (hpins : slot.pins = 0)
    (hkeys : d.slots.keys = c.slots.keys ++ [c.nextId])
    (hold : ∀ j ≠ c.nextId, (d.slots.get? j).map (fun t =>
      { t with
        after := if t.after = some c.nextId then slot.after else t.after
        before := if t.before = some c.nextId then slot.before else t.before }) =
      c.slots.get? j) :
    d.detach c.nextId = (some slot.listener, c.numbered) := by
  have hl : slot.linked = true := (hd.mem_iff_linked hs).1 hmem
  have hfreed : (d.detach c.nextId).1 = some slot.listener := by
    rw [detach_eq d hs hl]
    dsimp only
    rw [if_neg (by rw [hpins]; exact Nat.lt_irrefl 0)]
  have hslots : (d.detach c.nextId).2.slots = c.slots := by
    refine Table.ext_get? ?_ fun j => ?_
    · show (d.detach c.nextId).2.slots.keys = c.slots.keys
      have hfresh : ∀ j ∈ c.slots.keys, decide (j ≠ c.nextId) = true := by
        intro j hj
        obtain ⟨⟨x, t⟩, he, rfl⟩ := List.mem_map.1 hj
        exact decide_eq_true (Nat.ne_of_lt (h.lt_nextId ((c.slots.get?_eq_some_iff _ _).2 he)))
      rw [d.keys_detach hs hl hpins, hkeys, List.filter_append, List.filter_eq_self.2 hfresh,
        List.filter_cons_of_neg (by simp)]
      exact List.append_nil _
    · by_cases hj : j = c.nextId
      · subst hj
        rw [hd.get?_detach_self hmem hs, if_neg (by rw [hpins]; exact Nat.lt_irrefl 0), h.get?_nextId]
      · rw [hd.get?_detach_ne hmem hs hj, hold j hj]
  have hsize : (d.detach c.nextId).2.size = c.size := by
    rw [(hd.detach hmem).size, hids, h.size]
  refine Prod.ext hfreed ?_
  obtain ⟨slots, first, last, size, nextId⟩ := c
  have hfirst := (hd.first_detach hmem).trans (hids ▸ h.first.symm)
  have hlast := (hd.last_detach hmem).trans (hids ▸ h.last.symm)
  have hnumber := (nextId_detach d nextId).trans hnext
  cases hdetached : (d.detach nextId).2 with
  | mk slots' first' last' size' nextId' =>
    rw [hdetached] at hslots hfirst hlast hsize hnumber
    dsimp only at hslots hfirst hlast hsize hnumber
    subst hslots hfirst hlast hsize hnumber
    rfl

/-- What was added at the back is taken out again. -/
theorem detach_append (h : c.Links ids) (l : L) :
    (c.append l).detach c.nextId = (some l, c.numbered) := by
  have hs : (c.append l).slots.get? c.nextId = some ⟨l, c.last, none, true, 0⟩ := by
    rw [get?_append, if_pos rfl, if_neg h.last_ne_nextId]
  refine h.detach_new (h.append l) (List.mem_append_right _ List.mem_cons_self) ?_
    (nextId_append c l) hs rfl ?_ fun j hj => ?_
  · rw [List.erase_append_right _ h.nextId_not_mem, List.erase_cons_head, List.append_nil]
  · exact (keys_setAfter _ _ _).trans (Table.keys_insert _ _ h.get?_nextId)
  · rw [get?_append, if_neg hj.symm]
    cases ht : c.slots.get? j with
    | none => split <;> rfl
    | some t =>
      obtain ⟨hafter, hbefore⟩ := h.ne_nextId ht
      split
      · rename_i hlast
        rw [h.last] at hlast
        have hend := (h.forth.eq_none_iff h.nodup (List.mem_of_getLast? hlast)).2 hlast
        rw [following_stored ht] at hend
        simp only [Option.map_some, if_true, if_neg hbefore, ← hend]
      · simp only [Option.map_some, if_neg hafter, if_neg hbefore]

/-- What was added at the front is taken out again. -/
theorem detach_prepend (h : c.Links ids) (l : L) :
    (c.prepend l).detach c.nextId = (some l, c.numbered) := by
  have hs : (c.prepend l).slots.get? c.nextId = some ⟨l, none, c.first, true, 0⟩ := by
    rw [get?_prepend, if_pos rfl, if_neg h.first_ne_nextId]
  refine h.detach_new (h.prepend l) List.mem_cons_self (List.erase_cons_head _ _)
    (nextId_prepend c l) hs rfl ?_ fun j hj => ?_
  · exact (keys_setBefore _ _ _).trans (Table.keys_insert _ _ h.get?_nextId)
  · rw [get?_prepend, if_neg hj.symm]
    cases ht : c.slots.get? j with
    | none => split <;> rfl
    | some t =>
      obtain ⟨hafter, hbefore⟩ := h.ne_nextId ht
      split
      · rename_i hfirst
        have hhead : ids.reverse.getLast? = some j := by
          rw [List.getLast?_reverse, ← h.first, hfirst]
        have hend := (h.back.eq_none_iff (List.nodup_reverse.2 h.nodup)
          (List.mem_of_getLast? hhead)).2 hhead
        rw [preceding_stored ht] at hend
        simp only [Option.map_some, if_true, if_neg hafter, ← hend]
      · simp only [Option.map_some, if_neg hafter, if_neg hbefore]

/-- Adding and detaching leaves nothing behind, at either end. -/
theorem detach_add (h : c.Links ids) (l : L) (p : Placement) :
    (c.add l p).detach c.nextId = (some l, c.numbered) := by
  cases p with
  | front => exact h.detach_prepend l
  | back => exact h.detach_append l

end Links
end Chain

/-! ## The heap -/

namespace Heap

variable {T : Vocabulary}

/-- The heap with one more slot number of a chain used up. -/
def numbered (h : Heap T) (c : ChainId) : Heap T :=
  { h with chains := h.chains.modify c Chain.numbered }

/-- Shares in functions and handles can be taken before a chain is written or after. -/
theorem retainAll_setChains {refs : List Ref}
    (hrefs : ∀ ref ∈ refs, (∃ f, ref = .function f) ∨ ∃ i, ref = .handle i) (h : Heap T)
    (chains : Pool (Chain Fn)) :
    { h with chains }.retainAll refs = { h.retainAll refs with chains } ∧
      (h.retainAll refs).chains = h.chains := by
  induction refs generalizing h with
  | nil => exact ⟨rfl, rfl⟩
  | cons ref rest ih =>
    obtain ⟨hset, hsame⟩ := ih (fun r hr => hrefs r (List.mem_cons_of_mem _ hr)) (h.retain ref)
    rcases hrefs ref List.mem_cons_self with ⟨f, rfl⟩ | ⟨i, rfl⟩
    · cases f with
      | none => exact ⟨hset, hsame⟩
      | some p => exact ⟨hset, hsame⟩
    · exact ⟨hset, hsame⟩

/-- A share in a function can be taken before shares in handles or after. -/
theorem retainAll_handles_retain (h : Heap T) (is : List HandleId) (f : Fn) :
    (h.retain (.function f)).retainAll (is.map .handle) =
      (h.retainAll (is.map .handle)).retain (.function f) := by
  induction is generalizing h with
  | nil => rfl
  | cons i rest ih =>
    refine Eq.trans ?_ (ih (h.retain (.handle i)))
    cases f <;> rfl

/-- A listener is added; it and what a search works on are held; the slot is detached.  That is
    nothing but shares, and the number of the slot. -/
theorem detach_added {h : Heap T} {c : ChainId} {chain : Chain Fn} (hc : h.chains.get? c = some chain)
    (f : Fn) (added : Chain Fn) (is : List HandleId) (fs : List Fn) :
    let searched := (({ h.retain (.function f) with chains := h.chains.modify c fun _ => added }
      : Heap T).retainAll (is.map .handle)).retainAll (fs.map .function)
    searched.chains.get? c = some added ∧
      { searched with chains := searched.chains.modify c fun _ => chain.numbered } =
        ((h.numbered c).retainAll (is.map .handle)).retainAll ((f :: fs).map .function) := by
  have hhandles : ∀ ref ∈ is.map Ref.handle, (∃ f, ref = .function f) ∨ ∃ i, ref = .handle i := by
    intro ref hr
    obtain ⟨i, -, rfl⟩ := List.mem_map.1 hr
    exact .inr ⟨i, rfl⟩
  have hfunctions : ∀ ref ∈ fs.map Ref.function,
      (∃ f, ref = .function f) ∨ ∃ i, ref = .handle i := by
    intro ref hr
    obtain ⟨f, -, rfl⟩ := List.mem_map.1 hr
    exact .inl ⟨f, rfl⟩
  have hset (g : Heap T) (chains : Pool (Chain Fn)) :
      ({ g with chains }.retainAll (is.map .handle)).retainAll (fs.map .function) =
        { (g.retainAll (is.map .handle)).retainAll (fs.map .function) with chains } := by
    rw [(retainAll_setChains hhandles g chains).1, (retainAll_setChains hfunctions _ chains).1]
  have hchains : (h.chains.modify c fun _ => added).modify c (fun _ => chain.numbered) =
      h.chains.modify c Chain.numbered := by
    refine (Pool.change_change _ _ _ _).trans (Pool.change_congr _ fun cell hcell => ?_)
    obtain ⟨n, hstored⟩ := Pool.exists_cell hc
    obtain rfl := Option.some.inj (hstored.symm.trans hcell)
    rfl
  dsimp only
  constructor
  · rw [hset]
    exact (Pool.get?_modify _ _ _ _).trans (by rw [if_pos rfl, hc]; rfl)
  · rw [hset]
    dsimp only
    rw [hchains, ← hset, List.map_cons]
    show _ = ((((h.numbered c).retainAll (is.map .handle)).retain (.function f)).retainAll
      (fs.map .function))
    rw [← retainAll_handles_retain]
    refine congrArg (fun g : Heap T => (g.retainAll (is.map .handle)).retainAll (fs.map .function)) ?_
    cases f <;> rfl

end Heap

/-! ## The search -/

namespace State

variable {H : Host} {s : State H} {below : List (Frame H)} {c : ChainId}

/-- As long as `s` has not been answered, comparing `f` with `g` comes to a no and leaves everything as
    it was. -/
def TellsApart (s : State H) (below : List (Frame H)) (f g : Fn) : Prop :=
  ∀ m, (∀ j, 0 < j → j ≤ m → (s.after j).frames ≠ below) → (s.after m).mode = .compare f g →
    ∃ n, (s.after m).Compared n (.flag false) ∧ ((s.after m).after n).heap = (s.after m).heap

/-- A search that finds nothing equal in `es` comes to what is behind them, and has left everything as it
    was. -/
theorem search_passes (hs : Reachable s) {probe : Fn} {snapshot es rest : List (SlotId × Fn)}
    (hapart : ∀ e ∈ es, s.TellsApart below e.2 probe) {m : Nat} {t : State H}
    (hstart : s.after m = t.search c probe snapshot (es ++ rest))
    (hunder : below.length < t.frames.length)
    (habove : ∀ j, 0 < j → j ≤ m → t.frames <:+ (s.after j).frames) :
    ∃ n, ∃ t' : State H, s.after n = t'.search c probe snapshot rest ∧ t'.frames = t.frames ∧
      t'.heap = t.heap ∧ ∀ j, 0 < j → j ≤ n → t.frames <:+ (s.after j).frames := by
  induction es generalizing m t with
  | nil => exact ⟨m, t, hstart, rfl, rfl, habove⟩
  | cons e es ih =>
    let found : Search := { chain := c, probe, candidate := e.1, remaining := es ++ rest, snapshot }
    have hmode : (s.after m).mode = .compare e.2 probe := by rw [hstart]; rfl
    have hframes : (s.after m).frames = .searching found :: t.frames := by rw [hstart]; rfl
    have hheap : (s.after m).heap = t.heap := by rw [hstart]; rfl
    have hbusy : ∀ j, 0 < j → j ≤ m → (s.after j).frames ≠ below := by
      intro j hj hjm heq
      exact absurd (heq ▸ (habove j hj hjm).length_le) (Nat.not_le_of_lt hunder)
    obtain ⟨n, hcompared, hsame⟩ := hapart e List.mem_cons_self m hbusy hmode
    -- the frame of the search hears the no, and goes on
    let t' : State H := { s.after (m + n) with frames := t.frames }
    have hnext : s.after (m + n + 1) = t'.search c probe snapshot (es ++ rest) := by
      have htop : (s.after (m + n)).frames = .searching found :: t.frames := by
        rw [after_add, hcompared.frames, hframes]
      have hno : (s.after (m + n)).mode = .reply (.flag false) := by
        rw [after_add, hcompared.mode]
      exact step_of_top htop hno
    have hstill : ∀ j, 0 < j → j ≤ m + n + 1 → t'.frames <:+ (s.after j).frames := by
      intro j hj hjn
      show t.frames <:+ _
      rcases Nat.lt_or_ge m j with hlt | hle
      · obtain ⟨i, rfl⟩ := Nat.exists_eq_add_of_lt hlt
        rcases Nat.lt_or_eq_of_le hjn with hin | hlast
        · have hsuffix := hcompared.suffix (hs.after m) hmode (j := i + 1) (by omega)
          rw [hframes] at hsuffix
          rw [Nat.add_assoc, after_add]
          exact (List.suffix_cons _ _).trans hsuffix
        · rw [hlast, hnext]
          cases es ++ rest with
          | nil => exact List.suffix_cons _ _
          | cons e' es' => exact List.suffix_cons _ _
      · exact habove j hj hle
    obtain ⟨n', t'', hcomes, hframes', hheap', habove'⟩ :=
      ih (fun x hx => hapart x (List.mem_cons_of_mem e hx)) hnext hunder hstill
    refine ⟨n', t'', hcomes, hframes', hheap'.trans ?_, habove'⟩
    show (s.after (m + n)).heap = t.heap
    rw [after_add, hsame, hheap]

/-- A function is compared with itself, found, and its slot detached. -/
theorem finds_own (t : State H) {f : Fn} {snapshot rest : List (SlotId × Fn)} {chain added : Chain Fn}
    {x : SlotId} (hstart : s = t.search c f snapshot ((x, f) :: rest))
    (hc : t.heap.chains.get? c = some added) (hx : added.contains x = true)
    (hdetach : added.detach x = (some f, chain)) :
    (∀ k ≤ 2, t.frames <:+ (s.after k).frames) ∧ ∃ journal, s.after 2 =
      ⟨{ t.heap with chains := t.heap.chains.modify c fun _ => chain }, t.memory, journal,
        .releasing (.function f :: snapshot.map fun e => .function e.2) (.flag true) :: t.frames,
        .reply .done⟩ := by
  let found : Search := { chain := c, probe := f, candidate := x, remaining := rest, snapshot }
  have hone : s.step = ({ t.push (.searching found) with mode := .compare f f } : State H).answer
      (.flag true) := by
    rw [hstart]
    exact compare_one _ (.inl rfl)
  have htwo : s.after 2 =
      ⟨{ t.heap with chains := t.heap.chains.modify c fun _ => chain }, t.memory,
        .removed c x chain.size :: t.journal,
        .releasing (.function f :: snapshot.map fun e => .function e.2) (.flag true) :: t.frames,
        .reply .done⟩ := by
    show s.step.step = _
    rw [hone]
    show ({ t with mode := .reply (.flag true) } : State H).detachFound found = _
    unfold detachFound
    dsimp only
    rw [hc]
    dsimp only
    rw [if_pos hx, hdetach]
    rfl
  refine ⟨fun k hk => ?_, _, htwo⟩
  obtain rfl | rfl | rfl : k = 0 ∨ k = 1 ∨ k = 2 := by omega
  · rw [hstart]
    exact List.suffix_cons _ _
  · show t.frames <:+ s.step.frames
    rw [hone]
    exact List.suffix_cons _ _
  · rw [htwo]
    exact List.suffix_cons _ _

/-- A removal begins with a share in every listener that it is going to compare. -/
theorem Asks.remove_begins {i j : HandleId} (h : s.Asks (.remove i j) below) {chain : Chain Fn} {f : Fn}
    (hi : s.heap.chainOf i = some c) (hj : s.heap.functionOf j = some f)
    (hc : s.heap.chains.get? c = some chain) :
    ∃ t : State H, t.frames = .await ([i, j].map .handle) :: below ∧
      t.heap = (s.heap.retainAll ([i, j].map .handle)).retainAll
        ((chain.backwards.map (·.2)).map .function) ∧
      s.after 1 = t.search c f chain.backwards chain.backwards := by
  obtain ⟨t, hsame, rfl, hstep⟩ := h.exists_step
  have hheld : (t.hold [i, j]).heap = s.heap.retainAll ([i, j].map .handle) :=
    congrArg (Heap.retainAll · ([i, j].map .handle)) hsame
  have hget : (s.heap.retainAll ([i, j].map .handle)).chains.get? c = some chain := by
    rw [← Heap.get?_scene_chains, Heap.scene_retainAll, Heap.get?_scene_chains, hc]
  let searched := (s.heap.retainAll ([i, j].map .handle)).retainAll
    ((chain.backwards.map (·.2)).map .function)
  refine ⟨{ t.hold [i, j] with heap := searched }, rfl, rfl, ?_⟩
  show s.step = _
  rw [hstep]
  unfold ask
  dsimp only
  rw [hsame, hi, hj]
  dsimp only
  unfold startRemove
  have hshares : chain.backwards.map (fun e => Ref.function e.2) =
      (chain.backwards.map (·.2)).map .function := List.map_map.symm
  rw [hheld, hget, Option.map_some, Option.getD_some]
  dsimp only
  rw [hshares]

/-- What a removal took on its way is given back, and then its answer is heard. -/
theorem gives_back {g : Heap H.toVocabulary} {is : List HandleId} {fs : List Fn}
    (hfs : ∀ f ∈ fs, g.Stores f) (his : ∀ i ∈ is, ∃ ref, g.handles.get? i = some ref)
    (memory : H.Memory) (journal : List (Note H.toVocabulary)) (below : List (Frame H))
    (r : Reply H.toVocabulary) :
    ∃ n, Leads below ⟨(g.retainAll (is.map .handle)).retainAll (fs.map .function), memory, journal,
        .releasing (fs.map .function) r :: .await (is.map .handle) :: below, .reply .done⟩ n
      ⟨g, memory, journal, below, .reply r⟩ [] ∧ ∀ k < n, below.length < (State.after
        ⟨(g.retainAll (is.map .handle)).retainAll (fs.map .function), memory, journal,
          .releasing (fs.map .function) r :: .await (is.map .handle) :: below, .reply .done⟩
        k).frames.length := by
  have hstores : ∀ f ∈ fs, (g.retainAll (is.map .handle)).Stores f := by
    intro f hf p hp
    rw [(g.payloads_retainAll _).1]
    exact hfs f hf p hp
  obtain ⟨a, ha⟩ := (Heap.drains_functions hstores).returns memory journal
    (.await (is.map .handle) :: below) r
  obtain ⟨b, hb⟩ := (Heap.drains_handles his).passes memory journal below r
  refine ⟨a + b, (ha.leads.mono (List.suffix_cons _ _)).trans hb.leads, fun k hk => ?_⟩
  rcases Nat.lt_or_ge k a with hlt | hle
  · exact (ha.leads.above k (Nat.le_of_lt hlt)).length_le
  · obtain ⟨l, rfl⟩ := Nat.exists_eq_add_of_le hle
    obtain ⟨fr, hfr⟩ := hb.above l (by omega)
    rw [after_add, ha.after, hfr]
    exact Nat.lt_succ_self _

/-- What a removal of the listener that was added last compares before it: at the back nothing, at the
    front all the others. -/
theorem exists_before {chain : Chain Fn} (hchain : chain.Coherent) (f : Fn) (p : Placement)
    (hapart : p = .front → ∀ e ∈ chain.listing, s.TellsApart below e.2 f) :
    ∃ es rest, (chain.add f p).backwards = es ++ (chain.nextId, f) :: rest ∧
      ∀ e ∈ es, s.TellsApart below e.2 f := by
  rw [(hchain.add f p).backwards_eq, Chain.listing_add hchain f p]
  cases p with
  | front =>
    refine ⟨chain.listing.reverse, [], List.reverse_cons, fun e he => ?_⟩
    exact hapart rfl e (List.mem_reverse.1 he)
  | back =>
    refine ⟨[], chain.listing.reverse, List.reverse_concat .., fun e he => ?_⟩
    exact absurd he List.not_mem_nil

section

variable {g : Heap H.toVocabulary} {chain : Chain Fn} {f : Fn} {p : Placement}
  (hheap : s.heap = { g.retain (.function f) with chains := g.chains.modify c fun _ => chain.add f p })
include hheap

theorem get?_added (hc : g.chains.get? c = some chain) :
    s.heap.chains.get? c = some (chain.add f p) := by
  rw [hheap]
  exact (Pool.get?_modify _ _ _ _).trans (by rw [if_pos rfl, hc]; rfl)

/-- What was stored when a listener had been added was stored before. -/
theorem stores_before {x : Fn} (hx : s.heap.Stores x) : (g.numbered c).Stores x := by
  intro q hq
  obtain ⟨load, hload⟩ := hx q hq
  rw [hheap] at hload
  exact ⟨load, (Heap.get?_payloads_retain g (.function f) q).symm.trans hload⟩

/-- So were the handles. -/
theorem handles_before (k : HandleId) : (g.numbered c).handles.get? k = s.heap.handles.get? k := by
  rw [hheap]
  exact (Heap.get?_handles_retain g (.function f) k).symm

/-- The search comes to the listener that was added, finds it equal to itself, and detaches its slot. -/
theorem Asks.finds_added (hs : Reachable s) {i j : HandleId} (h : s.Asks (.remove i j) below)
    (hc : g.chains.get? c = some chain) (hchain : chain.Coherent) (hi : s.heap.chainOf i = some c)
    (hj : s.heap.functionOf j = some f)
    (hapart : p = .front → ∀ e ∈ chain.listing, s.TellsApart below e.2 f) :
    ∃ n memory journal, 0 < n ∧ s.after n =
      ⟨((g.numbered c).retainAll ([i, j].map .handle)).retainAll
          ((f :: (chain.add f p).backwards.map (·.2)).map .function), memory, journal,
        .releasing ((f :: (chain.add f p).backwards.map (·.2)).map .function) (.flag true) ::
          .await ([i, j].map .handle) :: below, .reply .done⟩ ∧
      ∀ k, 0 < k → k ≤ n → below.length < (s.after k).frames.length := by
  have hadded := get?_added hheap hc
  obtain ⟨es, rest, hsnapshot, hes⟩ := exists_before hchain f p hapart
  let fs := (chain.add f p).backwards.map (·.2)
  have hfs : (chain.add f p).backwards.map (fun e => Ref.function e.2) = fs.map .function :=
    List.map_map.symm
  obtain ⟨hfind, hrestore⟩ := Heap.detach_added hc f (chain.add f p) [i, j] fs
  rw [← hheap] at hfind hrestore
  have hlinked : (chain.add f p).contains chain.nextId = true := by
    refine ((hchain.add f p).links.linked _).2 ?_
    rw [Chain.order_add hchain]
    exact (Placement.mem_place p).2 (.inl rfl)
  obtain ⟨t, hframes, hheld, hbegun⟩ := h.remove_begins hi hj hadded
  have hbelow : below.length < t.frames.length := by
    rw [hframes]
    exact Nat.lt_succ_self _
  have habove : ∀ k, 0 < k → k ≤ 1 → t.frames <:+ (s.after k).frames := by
    intro k hk hk1
    obtain rfl : k = 1 := by omega
    rw [hbegun]
    cases (chain.add f p).backwards <;> exact List.suffix_cons _ _
  rw [hsnapshot] at hbegun
  obtain ⟨n, t', hcomes, hframes', hkept, hcompares⟩ := search_passes hs hes hbegun hbelow habove
  have hget : t'.heap.chains.get? c = some (chain.add f p) := by
    rw [hkept, hheld]
    exact hfind
  obtain ⟨hstill, journal, hfound⟩ :=
    finds_own t' hcomes hget hlinked (hchain.links.detach_add f p)
  refine ⟨n + 2, t'.memory, journal, Nat.succ_pos _, ?_, fun k hk hkn => ?_⟩
  · rw [after_add, hfound, hkept, hheld, hframes', hframes, ← hsnapshot, hfs]
    exact congrArg (fun heap => (⟨heap, _, _, _, _⟩ : State H)) hrestore
  · rcases Nat.lt_or_ge n k with hlt | hle
    · obtain ⟨l, rfl⟩ := Nat.exists_eq_add_of_le (Nat.le_of_lt hlt)
      rw [after_add]
      exact Nat.lt_of_lt_of_le (hframes' ▸ hbelow) (hstill l (by omega)).length_le
    · exact Nat.lt_of_lt_of_le hbelow (hcompares k hk hle).length_le

/-- A listener was added, and is removed by way of itself. -/
theorem Asks.undoes (hs : Reachable s) {i j : HandleId} (h : s.Asks (.remove i j) below)
    (hc : g.chains.get? c = some chain) (hchain : chain.Coherent) (hi : s.heap.chainOf i = some c)
    (hj : s.heap.functionOf j = some f)
    (hapart : p = .front → ∀ e ∈ chain.listing, s.TellsApart below e.2 f) :
    ∃ n, s.Answered below n (.flag true) ∧ (s.after n).heap = g.numbered c := by
  obtain ⟨n, memory, journal, hn, hdetached, habove⟩ := h.finds_added hheap hs hc hchain hi hj hapart
  -- what it has taken it gives back
  have hstores : ∀ x ∈ f :: (chain.add f p).backwards.map (·.2), (g.numbered c).Stores x := by
    intro x hx
    rcases List.mem_cons.1 hx with rfl | hmem
    · exact stores_before hheap (hs.stores_functionOf hj)
    · obtain ⟨e, he, rfl⟩ := List.mem_map.1 hmem
      rw [(hchain.add f p).backwards_eq, ← Heap.listing_of_get? (get?_added hheap hc)] at he
      exact stores_before hheap (hs.stores_listener (List.mem_reverse.1 he))
  have hhandles : ∀ k ∈ [i, j], ∃ ref, (g.numbered c).handles.get? k = some ref := by
    intro k hk
    rw [handles_before hheap]
    rcases List.mem_pair.1 hk with rfl | rfl
    · exact Heap.exists_handle_of_chainOf hi
    · exact Heap.exists_handle_of_functionOf hj
  obtain ⟨a, ha, hhigh⟩ := gives_back hstores hhandles memory journal below (.flag true)
  have hlast : s.after (n + a) = ⟨g.numbered c, memory, journal, below, .reply (.flag true)⟩ := by
    rw [after_add, hdetached]
    exact ha.after
  have hlonger : ∀ k, 0 < k → k < n + a → below.length < (s.after k).frames.length := by
    intro k hk hkn
    rcases Nat.lt_or_ge n k with hlt | hle
    · obtain ⟨l, rfl⟩ := Nat.exists_eq_add_of_le (Nat.le_of_lt hlt)
      rw [after_add, hdetached]
      exact hhigh l (by omega)
    · exact habove k hk hle
  refine ⟨n + a, ⟨by omega, by rw [hlast], by rw [hlast], fun k hk hkn heq => ?_⟩, by rw [hlast]⟩
  exact absurd (heq ▸ hlonger k hk hkn) (Nat.lt_irrefl _)

end

/-- Adding puts a slot into the chain and takes a share for it. -/
theorem Asks.heap_add {i j : HandleId} {p : Placement} (h : s.Asks (.add i j p) below)
    {chain : Chain Fn} {q : PayloadId} (hi : s.heap.chainOf i = some c)
    (hj : s.heap.functionOf j = some (some q)) (hc : s.heap.chains.get? c = some chain) :
    s.step.heap = { s.heap.retain (.function (some q)) with
      chains := s.heap.chains.modify c fun _ => chain.add (some q) p } := by
  obtain ⟨t, hsame, rfl, hstep⟩ := h.exists_step
  have hget : (s.heap.retain (.function (some q))).chains.get? c = some chain := hc
  rw [hstep]
  unfold ask
  dsimp only
  rw [hsame, hi, hj]
  dsimp only
  unfold link
  dsimp only
  rw [hget]
  cases p <;> rfl

end State

/-! ## Adding and removing -/

/-- Whoever adds a listener and then removes it finds it, and EVERYTHING is as before but for the number
    of a slot: the chain with its tombstones and pins, all that dispatches have still before them, and
    who owns what.  At the back this is so whatever else is in the chain; at the front, if each of the
    other listeners is told apart from this one. -/
theorem added_then_removed_restores {H : Host} {s : State H} (hs : Reachable s) {i j : HandleId}
    {p : Placement} {below : List (Frame H)} (hadd : s.Asks (.add i j p) below) {c : ChainId}
    (hi : s.heap.chainOf i = some c) {q : PayloadId} (hj : s.heap.functionOf j = some (some q)) {k : Nat}
    {i' j' : HandleId} {below' : List (Frame H)} (hremove : (s.after k).Asks (.remove i' j') below')
    (hi' : (s.after k).heap.chainOf i' = some c)
    (hj' : (s.after k).heap.functionOf j' = some (some q))
    (hbetween : (s.after k).heap = s.step.heap)
    (hapart : p = .front → ∀ e ∈ s.heap.listing c, (s.after k).TellsApart below' e.2 (some q)) :
    ∃ n, (s.after k).Answered below' n (.flag true) ∧
      ((s.after k).after n).heap = s.heap.numbered c := by
  obtain ⟨chain, hc⟩ := hs.balanced.exists_chainOf hi
  have hchain : chain.Coherent := hs.coherent c chain (by rw [Heap.get?_scene_chains, hc])
  rw [Heap.listing_of_get? hc] at hapart
  exact hremove.undoes (hbetween.trans (hadd.heap_add hi hj hc)) (hs.after k) hc hchain hi' hj' hapart

/-! ## A run -/

/-- The addition that is being asked for: where, to which chain, and of what. -/
def Request.addition? {T : Vocabulary} (h : Heap T) : Request T → Option (Placement × ChainId × Fn)
  | .add i j p => (h.chainOf i).bind fun c => (h.functionOf j).map fun f => (p, c, f)
  | _ => none

/-- The removal that is being asked for: from which chain, and of what. -/
def Request.removal? {T : Vocabulary} (h : Heap T) : Request T → Option (ChainId × Fn)
  | .remove i j => (h.chainOf i).bind fun c => (h.functionOf j).map fun f => (c, f)
  | _ => none

namespace State

variable {H : Host} {s : State H}

theorem exists_asks_add {p : Placement} {c : ChainId} {f : Fn}
    (h : (s.asking.bind fun q => q.1.addition? s.heap) = some (p, c, f)) :
    ∃ i j below, s.Asks (.add i j p) below ∧ s.heap.chainOf i = some c ∧
      s.heap.functionOf j = some f := by
  obtain ⟨⟨rq, below⟩, hasking, hrq⟩ := Option.bind_eq_some_iff.1 h
  cases rq with
  | add i j p' =>
    obtain ⟨c', hi, hrq⟩ := Option.bind_eq_some_iff.1 hrq
    obtain ⟨f', hj, he⟩ := Option.map_eq_some_iff.1 hrq
    obtain ⟨rfl, rfl, rfl⟩ : p' = p ∧ c' = c ∧ f' = f := by simpa using he
    exact ⟨i, j, below, asks_of_asking hasking, hi, hj⟩
  | _ => exact absurd hrq (by simp [Request.addition?])

theorem exists_asks_remove {c : ChainId} {f : Fn}
    (h : (s.asking.bind fun q => q.1.removal? s.heap) = some (c, f)) :
    ∃ i j below, s.Asks (.remove i j) below ∧ s.heap.chainOf i = some c ∧
      s.heap.functionOf j = some f := by
  obtain ⟨⟨rq, below⟩, hasking, hrq⟩ := Option.bind_eq_some_iff.1 h
  cases rq with
  | remove i j =>
    obtain ⟨c', hi, hrq⟩ := Option.bind_eq_some_iff.1 hrq
    obtain ⟨f', hj, he⟩ := Option.map_eq_some_iff.1 hrq
    obtain ⟨rfl, rfl⟩ := Prod.mk.inj he
    exact ⟨i, j, below, asks_of_asking hasking, hi, hj⟩
  | _ => exact absurd hrq (by simp [Request.removal?])

/-- Code of the program is about to take a turn in which it asks for nothing. -/
def pauses (s : State H) : Bool :=
  match s.mode, s.frames with
  | .reply r, .user code _ :: _ =>
    match (H.resume code r s.memory).act with
    | .pause _ => true
    | _ => false
  | _, _ => false

theorem heap_step_of_pauses (h : s.pauses = true) : s.step.heap = s.heap := by
  unfold pauses at h
  split at h
  · rename_i r code owned rest hmode hframes
    rw [step_of_top hframes hmode]
    show (takeTurn _ code owned r).heap = s.heap
    unfold takeTurn
    dsimp only
    split at h
    · rename_i hact
      rw [hact]
      rfl
    · exact absurd h Bool.false_ne_true
  · exact absurd h Bool.false_ne_true

end State

/-- While listener `a` runs, its slot is a tombstone.  It adds `k` in front of `b` and removes it. -/
def Script.inAndOut : Script.Program Unit :=
  [ .define "k" (.keyed ⟨"k", [], none⟩ ⟨.a, 1, none⟩ .byValue),
    .define "a" (.closure
      ⟨"a", [.removeCurrent none none, .add "k" none (some .front), .remove "k" none], none⟩ false),
    .define "b" (.pointer .forward),
    .add "a" none (some .back),
    .add "b" none (some .back),
    .call ⟨.given (), .absent⟩ none false ]

/-- `b` is told apart from `k` at once, and all is as it was. -/
theorem added_then_removed_restores_inAndOut :
    ∃ below n, (((Script.start Script.inAndOut).after 26).after 2).Answered below n (.flag true) ∧
      ((((Script.start Script.inAndOut).after 26).after 2).after n).heap =
        ((Script.start Script.inAndOut).after 26).heap.numbered 0 ∧
      ((Script.start Script.inAndOut).after 26).heap.listing 0 = [(1, some 2)] ∧
      (((Script.start Script.inAndOut).after 26).after 2).heap.listing 0 =
        [(2, some 0), (1, some 2)] := by
  have hs := (Script.reachable_start Script.inAndOut).after 26
  obtain ⟨i, j, below, hadd, hi, hj⟩ :=
    ((Script.start Script.inAndOut).after 26).exists_asks_add (p := .front) (c := 0) (f := some 0)
      (by decide +kernel)
  obtain ⟨i', j', below', hremove, hi', hj'⟩ :=
    (((Script.start Script.inAndOut).after 26).after 2).exists_asks_remove (c := 0) (f := some 0)
      (by decide +kernel)
  have hbetween : (((Script.start Script.inAndOut).after 26).after 2).heap =
      ((Script.start Script.inAndOut).after 26).step.heap :=
    State.heap_step_of_pauses (s := ((Script.start Script.inAndOut).after 26).step) (by decide +kernel)
  have hanswer := hremove.answered_of_length (n := 13) (by decide)
    (Mode.eq_of_flag? (b := true) (by decide +kernel)) (by decide +kernel) (by decide +kernel)
  have hlisting : ((Script.start Script.inAndOut).after 26).heap.listing 0 = [(1, some 2)] := by
    decide +kernel
  obtain ⟨n, hn, hheap⟩ := added_then_removed_restores hs hadd hi hj hremove hi' hj' hbetween (by
    intro _ e he m hbusy hmode
    rw [hlisting] at he
    obtain rfl := List.mem_singleton.1 he
    have hm : m < 13 := by
      by_contra hle
      exact hbusy 13 (by decide) (Nat.le_of_not_lt hle) hanswer.frames
    have hpair : ((((Script.start Script.inAndOut).after 26).after 2).after m).mode.pair? =
        some (some 2, some 0) := by
      rw [hmode]
      rfl
    have honce : ∀ m < 13, ((((Script.start Script.inAndOut).after 26).after 2).after m).mode.pair? =
        some (some 2, some 0) → m = 1 := by decide +kernel
    obtain rfl := honce m hm hpair
    exact ⟨1, State.compared_of_judge hmode (by decide +kernel)⟩)
  exact ⟨below', n, hn, hheap, hlisting, by decide +kernel⟩

end Relay
