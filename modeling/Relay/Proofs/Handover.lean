/-
  What is put into a chain comes back ONCE.

  A slot is freed by the operation that hands its listener back, and by no other.  Which operation that
  is depends on the pins: detaching a slot that nobody stands on, giving back the last pin of a
  tombstone, or clearing the chain (`Operation.frees`).  This one rule says which listeners are still
  stored after an operation (`listener?_operate`) and which it hands back (`operate_fst`).

  So along operations of any kind, called on whatever ids, a listener that was added is in its own slot
  until one operation hands it back, and the slot is never there again.  A listener is known by its
  slot, and a slot by how many listeners were added before it; it does not matter if two of them are
  equal.
-/
import Relay.Proofs.Listing

namespace Relay

/-- A table has at most one entry with key `k`. -/
theorem Table.filter_key {κ α : Type} [DecidableEq κ] (t : Table κ α) (k : κ) (p : α → Bool) :
    (t.entries.filter fun e => decide (e.1 = k) && p e.2) =
      ((t.get? k).filter p).toList.map fun a => (k, a) := by
  have others (es : List (κ × α)) (hes : ∀ e ∈ es, e.1 ≠ k) :
      (es.filter fun e => decide (e.1 = k) && p e.2) = [] :=
    List.filter_eq_nil_iff.2 fun e he => by simp [hes e he]
  cases hk : t.get? k with
  | none =>
    refine others _ fun e he hkey => ?_
    have hget : t.get? k = some e.2 := (t.get?_eq_some_iff k e.2).2 (hkey ▸ he)
    exact absurd (hk.symm.trans hget) (by simp)
  | some a =>
    obtain ⟨pre, post, he, hpre, hpost⟩ := t.exists_split hk
    rw [he, List.filter_append, others pre hpre, List.nil_append, List.filter_cons,
      others post hpost]
    cases hp : p a <;> simp [hp, Option.filter]

namespace Chain

variable {L : Type}

/-! ## One operation -/

/-- The listener that an operation adds. -/
def Operation.added? : Operation L → Option L
  | .prepend listener => some listener
  | .append listener => some listener
  | _ => none

/-- The slot that an operation is called on. -/
def Operation.target? : Operation L → Option SlotId
  | .pin id => some id
  | .unpin id => some id
  | .detach id => some id
  | _ => none

/-- Whether an operation ends the stay of slot `x`, which is stored as `slot`. -/
def Operation.frees (op : Operation L) (x : SlotId) (slot : Slot L) : Bool :=
  match op with
  | .unpin id => decide (x = id) && (!slot.linked && decide (slot.pins ≤ 1))
  | .detach id => decide (x = id) && (slot.linked && slot.pins == 0)
  | .clear _ => slot.pins == 0
  | _ => false

theorem Operation.frees_iff {op : Operation L} {x : SlotId} {slot : Slot L} :
    op.frees x slot = true ↔
      op = .detach x ∧ slot.linked = true ∧ slot.pins = 0 ∨
        op = .unpin x ∧ slot.linked = false ∧ slot.pins ≤ 1 ∨
          (∃ shuffle, op = .clear shuffle) ∧ slot.pins = 0 := by
  cases op with
  | unpin id => simp [frees, eq_comm (a := x)]
  | detach id => simp [frees, eq_comm (a := x)]
  | _ => simp [frees]

/-- The slots that an operation frees. -/
def freed (c : Chain L) (op : Operation L) : List SlotId :=
  (c.slots.entries.filter fun e => op.frees e.1 e.2).map (·.1)

theorem map_some_listeners {c : Chain L} {ids : List SlotId} (h : ∀ x ∈ ids, c.listener? x ≠ none) :
    (c.listeners ids).map some = ids.map c.listener? := by
  induction ids with
  | nil => rfl
  | cons x rest ih =>
    obtain ⟨l, hl⟩ := Option.ne_none_iff_exists'.1 (h x List.mem_cons_self)
    have hrest := ih fun y hy => h y (List.mem_cons_of_mem x hy)
    rw [listeners] at hrest ⊢
    rw [List.filterMap_cons_some hl, List.map_cons, List.map_cons, hrest, hl]

/-- At most one listener is in slot `id`. -/
theorem listeners_of_key (c : Chain L) (id : SlotId) (p : Slot L → Bool) :
    c.listeners ((c.slots.entries.filter fun e => decide (e.1 = id) && p e.2).map (·.1)) =
      (((c.slots.get? id).filter p).map (·.listener)).toList := by
  rw [c.listeners_of_entries fun _ he => List.mem_of_mem_filter he, c.slots.filter_key, List.map_map,
    Option.toList_map]
  rfl

/-- An operation hands back the listeners of the slots that it frees, in some order. -/
theorem operate_fst (c : Chain L) (op : Operation L) :
    ∃ ids, ids.Perm (c.freed op) ∧ (c.operate op).1 = c.listeners ids := by
  cases op with
  | prepend | append | pin =>
    exact ⟨[], by simp [freed, Operation.frees], rfl⟩
  | unpin id =>
    refine ⟨c.freed (.unpin id), .refl _, Eq.trans (congrArg Option.toList ?_)
      (c.listeners_of_key id fun slot => !slot.linked && decide (slot.pins ≤ 1)).symm⟩
    unfold unpin
    cases c.slots.get? id with
    | none => rfl
    | some slot =>
      cases hl : slot.linked <;> by_cases hp : slot.pins ≤ 1 <;>
        simp [Option.filter, hl, hp, Nat.sub_eq_zero_iff_le]
  | detach id =>
    refine ⟨c.freed (.detach id), .refl _, Eq.trans (congrArg Option.toList ?_)
      (c.listeners_of_key id fun slot => slot.linked && slot.pins == 0).symm⟩
    unfold detach
    cases c.slots.get? id with
    | none => rfl
    | some slot => cases hl : slot.linked <;> cases hp : slot.pins <;> simp [Option.filter, hl, hp]
  | clear shuffle =>
    refine ⟨shuffle.apply (c.freed (.clear shuffle)), shuffle.perm _, ?_⟩
    exact congrArg (fun ids => c.listeners (shuffle.apply ids)) c.keys_cut

/-- Whether an operation ends the stay of slot `x`, if it is there. -/
def frees (c : Chain L) (op : Operation L) (x : SlotId) : Bool := (c.slots.get? x).any (op.frees x)

theorem frees_iff {c : Chain L} {op : Operation L} {x : SlotId} :
    c.frees op x = true ↔ ∃ slot, c.slots.get? x = some slot ∧ op.frees x slot = true :=
  Option.any_eq_true (op.frees x) (c.slots.get? x)

theorem mem_freed {c : Chain L} {op : Operation L} {x : SlotId} :
    x ∈ c.freed op ↔ c.frees op x = true := by
  rw [frees_iff, freed, List.mem_map]
  constructor
  · rintro ⟨e, he, rfl⟩
    obtain ⟨hstored, hfrees⟩ := List.mem_filter.1 he
    exact ⟨e.2, (c.slots.get?_eq_some_iff _ _).2 hstored, hfrees⟩
  · rintro ⟨slot, hs, hfrees⟩
    exact ⟨(x, slot), List.mem_filter.2 ⟨(c.slots.get?_eq_some_iff _ _).1 hs, hfrees⟩, rfl⟩

theorem nodup_freed (c : Chain L) (op : Operation L) : (c.freed op).Nodup :=
  c.slots.distinct.sublist (List.filter_sublist.map _)

/-- What the rule never frees stays, whatever is stored there. -/
theorem frees_eq_false {c : Chain L} {op : Operation L} {x : SlotId}
    (h : ∀ slot, op.frees x slot = false) : c.frees op x = false := by
  rw [← Bool.not_eq_true, frees_iff]
  rintro ⟨slot, -, hfrees⟩
  exact nomatch (h slot).symm.trans hfrees

theorem unpin_frees (c : Chain L) (id x : SlotId) :
    (c.unpin id).2.listener? x = if c.frees (.unpin id) x then none else c.listener? x := by
  rw [listener?, get?_unpin, frees, listener?]
  cases hx : c.slots.get? x with
  | none => simp
  | some slot =>
    by_cases hid : id = x
    · cases hl : slot.linked <;> by_cases hp : slot.pins ≤ 1 <;>
        simp [Operation.frees, hid, hl, hp, Nat.sub_eq_zero_iff_le]
    · simp [Operation.frees, hid, Ne.symm hid]

theorem detach_frees {c : Chain L} (h : c.Coherent) (id x : SlotId) :
    (c.detach id).2.listener? x = if c.frees (.detach id) x then none else c.listener? x := by
  by_cases hid : x = id
  · subst hid
    by_cases hmem : x ∈ c.order
    · obtain ⟨slot, hs, hl⟩ := h.links.exists_slot hmem
      rw [listener?, h.links.get?_detach_self hmem hs, frees, listener?, hs]
      cases hp : slot.pins <;> simp [Operation.frees, hl, hp]
    · have hkept : ¬c.frees (.detach x) x = true := by
        rw [frees_iff]
        rintro ⟨slot, hs, hfrees⟩
        rw [h.links.mem_iff_linked hs] at hmem
        simp [Operation.frees, hmem] at hfrees
      rw [h.links.detach_of_not_mem hmem, if_neg hkept]
  · rw [listener?_detach_ne h id hid, frees_eq_false fun slot => by simp [Operation.frees, hid]]
    rfl

theorem clear_frees (c : Chain L) (shuffle : Shuffle) (x : SlotId) :
    (c.clear shuffle).2.listener? x = if c.frees (.clear shuffle) x then none else c.listener? x := by
  rw [listener?, get?_clear, frees, listener?]
  cases hx : c.slots.get? x with
  | none => rfl
  | some slot => cases hp : slot.pins <;> simp [Operation.frees, Option.filter, hp]

/-- What an operation does to the listeners: it may store one under the next number, and those in the
    slots that it frees are gone. -/
theorem listener?_operate {c : Chain L} (h : c.Coherent) (op : Operation L) (x : SlotId) :
    (c.operate op).2.listener? x =
      if c.nextId = x then op.added? else if c.frees op x then none else c.listener? x := by
  -- nothing is stored under the next number yet, so there is nothing to be freed
  have old (hop : op.added? = none) :
      (if c.nextId = x then op.added? else if c.frees op x then none else c.listener? x) =
        if c.frees op x then none else c.listener? x := by
    by_cases hx : c.nextId = x
    · have hnew : c.listener? x = none := by rw [listener?, ← hx, h.links.get?_nextId]; rfl
      rw [if_pos hx, hop, hnew, ite_self]
    · rw [if_neg hx]
  cases op with
  | prepend listener =>
    rw [frees_eq_false fun _ => rfl]
    exact c.listener?_add listener .front x
  | append listener =>
    rw [frees_eq_false fun _ => rfl]
    exact c.listener?_add listener .back x
  | pin id =>
    rw [old rfl, frees_eq_false fun _ => rfl]
    exact c.listener?_pin id x
  | unpin id => exact (c.unpin_frees id x).trans (old rfl).symm
  | detach id => exact (detach_frees h id x).trans (old rfl).symm
  | clear shuffle => exact (c.clear_frees shuffle x).trans (old rfl).symm

/-- An operation that adds a listener uses up one number. -/
theorem nextId_operate (c : Chain L) (op : Operation L) :
    (c.operate op).2.nextId = c.nextId + op.added?.toList.length := by
  cases op with
  | prepend listener => exact nextId_prepend c listener
  | append listener => exact nextId_append c listener
  | pin id => rfl
  | unpin id => exact (c.ends_unpin id).2.2.2
  | detach id => exact Links.nextId_detach c id
  | clear shuffle => rfl

/-- An operation on a slot that is not there does nothing. -/
theorem operate_of_absent {c : Chain L} {op : Operation L} {x : SlotId} (hop : op.target? = some x)
    (hx : c.listener? x = none) : c.operate op = ([], c) := by
  have hget : c.slots.get? x = none := Option.map_eq_none_iff.1 hx
  cases op with
  | pin id =>
    obtain rfl := Option.some.inj hop
    show ([], c.pin id) = ([], c)
    rw [pin, c.slots.modify_of_none _ hget]
  | unpin id =>
    obtain rfl := Option.some.inj hop
    show ((c.unpin id).1.toList, (c.unpin id).2) = ([], c)
    unfold unpin
    rw [hget]
    rfl
  | detach id =>
    obtain rfl := Option.some.inj hop
    show ((c.detach id).1.toList, (c.detach id).2) = ([], c)
    unfold detach
    rw [hget]
    rfl
  | _ => exact absurd hop (by simp [Operation.target?])

/-- Detaching a slot that is out of the list already does nothing. -/
theorem operate_detach_of_unlinked {c : Chain L} (h : c.Coherent) {x : SlotId}
    (hx : c.contains x = false) : c.operate (.detach x) = ([], c) := by
  have hout : x ∉ c.order := fun hmem => by
    rw [(h.visits x).1 hmem] at hx
    exact nomatch hx
  show ((c.detach x).1.toList, (c.detach x).2) = ([], c)
  rw [h.links.detach_of_not_mem hout]
  rfl

/-! ## Operations one after the other -/

/-- The listeners that operations add, in the order in which they are added. -/
def added (ops : List (Operation L)) : List L := ops.filterMap Operation.added?

/-- The chain, which was empty, after the first `n` of the operations. -/
def moment (ops : List (Operation L)) (n : Nat) : Chain L :=
  (ops.take n).foldl (fun c op => (c.operate op).2) {}

/-- What the operation numbered `k` hands back. -/
def handedBack (ops : List (Operation L)) (k : Nat) : List L :=
  (ops[k]?.map fun op => ((moment ops k).operate op).1).getD []

/-- A slot is there before the operation numbered `k`, and not afterwards. -/
def FreedAt (ops : List (Operation L)) (k : Nat) (x : SlotId) : Prop :=
  (moment ops k).listener? x ≠ none ∧ (moment ops (k + 1)).listener? x = none

variable {ops : List (Operation L)} {n k : Nat} {x : SlotId}

theorem moment_succ {op : Operation L} (hop : ops[n]? = some op) :
    moment ops (n + 1) = ((moment ops n).operate op).2 := by
  rw [moment, List.take_add_one, hop, Option.toList_some, List.foldl_append]
  rfl

/-- There is no operation numbered `n`, so nothing happens. -/
theorem moment_stays (hop : ops[n]? = none) : moment ops (n + 1) = moment ops n := by
  rw [moment, List.take_add_one, hop, Option.toList_none, List.append_nil]
  rfl

theorem coherent_moment (ops : List (Operation L)) (n : Nat) : (moment ops n).Coherent := by
  induction n with
  | zero => exact Links.nil.coherent
  | succ n ih =>
    cases hop : ops[n]? with
    | none => exact (moment_stays hop) ▸ ih
    | some op => exact (moment_succ hop) ▸ ih.operate op

theorem added_take_succ (ops : List (Operation L)) (n : Nat) :
    added (ops.take (n + 1)) = added (ops.take n) ++ (ops[n]?.bind Operation.added?).toList := by
  rw [added, List.take_add_one, List.filterMap_append]
  cases ops[n]? with
  | none => rfl
  | some op =>
    show _ ++ [op].filterMap Operation.added? = _ ++ op.added?.toList
    cases hadd : op.added? <;> simp [hadd, added]

/-- The operations that follow renumber nothing. -/
theorem added_of_take {l : L} (hx : (added (ops.take n))[x]? = some l) :
    (added ops)[x]? = some l := by
  obtain ⟨hlt, rfl⟩ := List.getElem?_eq_some_iff.1 hx
  exact List.prefix_iff_getElem?.1 ((List.take_prefix n ops).filterMap _) x hlt

/-- The next slot is numbered by how many listeners have been added. -/
theorem nextId_moment (ops : List (Operation L)) (n : Nat) :
    (moment ops n).nextId = (added (ops.take n)).length := by
  induction n with
  | zero => rfl
  | succ n ih =>
    rw [added_take_succ, List.length_append, ← ih]
    cases hop : ops[n]? with
    | none => rw [moment_stays hop]; rfl
    | some op => rw [moment_succ hop, nextId_operate]; rfl

/-- What is stored in a slot is the listener that was added under its number. -/
theorem added_of_stored {l : L} (hx : (moment ops n).listener? x = some l) :
    (added (ops.take n))[x]? = some l := by
  induction n with
  | zero => exact nomatch hx
  | succ n ih =>
    rw [added_take_succ]
    cases hop : ops[n]? with
    | none =>
      rw [moment_stays hop] at hx
      simpa using ih hx
    | some op =>
      rw [moment_succ hop, listener?_operate (coherent_moment ops n)] at hx
      split at hx
      · rename_i hnew
        rw [nextId_moment] at hnew
        rw [List.getElem?_append_right (Nat.le_of_eq hnew), hnew, Nat.sub_self]
        show op.added?.toList[0]? = some l
        rw [hx]
        rfl
      · split at hx
        · exact nomatch hx
        · have hold := ih hx
          rw [List.getElem?_append_left (List.getElem?_eq_some_iff.1 hold).1, hold]

/-- A slot has been numbered as soon as it is there. -/
theorem lt_of_stored (hx : (moment ops n).listener? x ≠ none) : x < (moment ops n).nextId := by
  obtain ⟨l, hl⟩ := Option.ne_none_iff_exists'.1 hx
  rw [nextId_moment]
  exact (List.getElem?_eq_some_iff.1 (added_of_stored hl)).1

/-- Numbers are only used up. -/
theorem nextId_mono {m : Nat} (h : n ≤ m) : (moment ops n).nextId ≤ (moment ops m).nextId := by
  rw [nextId_moment, nextId_moment]
  exact (((List.take_prefix_take_left h).filterMap Operation.added?).length_le)

/-- A slot with a number is empty after an operation if it was before, or if the operation frees it. -/
theorem listener?_succ_eq_none_iff (hx : x < (moment ops n).nextId) :
    (moment ops (n + 1)).listener? x = none ↔
      (moment ops n).listener? x = none ∨
        ∃ op, ops[n]? = some op ∧ (moment ops n).frees op x = true := by
  cases hop : ops[n]? with
  | none =>
    rw [moment_stays hop]
    simp
  | some op =>
    rw [moment_succ hop, listener?_operate (coherent_moment ops n), if_neg (Nat.ne_of_gt hx)]
    cases hfrees : (moment ops n).frees op x <;> simp [hfrees]

/-- A slot is freed exactly by the operation that the rule names. -/
theorem freedAt_iff :
    FreedAt ops k x ↔ ∃ op, ops[k]? = some op ∧ (moment ops k).frees op x = true := by
  constructor
  · rintro ⟨hbefore, hafter⟩
    exact ((listener?_succ_eq_none_iff (lt_of_stored hbefore)).1 hafter).resolve_left hbefore
  · rintro ⟨op, hop, hfrees⟩
    obtain ⟨slot, hs, -⟩ := frees_iff.1 hfrees
    have hbefore : (moment ops k).listener? x ≠ none := by
      rw [listener?, hs]
      exact Option.some_ne_none _
    exact ⟨hbefore, (listener?_succ_eq_none_iff (lt_of_stored hbefore)).2 (.inr ⟨op, hop, hfrees⟩)⟩

/-- A slot that has been freed is never there again: its number is used up. -/
theorem FreedAt.gone (h : FreedAt ops k x) (hn : k < n) : (moment ops n).listener? x = none := by
  induction n, hn using Nat.le_induction with
  | base => exact h.2
  | succ n hn ih =>
    have hold : x < (moment ops n).nextId :=
      Nat.lt_of_lt_of_le (lt_of_stored h.1) (nextId_mono (Nat.le_of_succ_le hn))
    exact (listener?_succ_eq_none_iff hold).2 (.inl ih)

/-- A slot is freed once. -/
theorem FreedAt.unique {j : Nat} (hj : FreedAt ops j x) (hk : FreedAt ops k x) : j = k := by
  rcases Nat.lt_trichotomy j k with hlt | heq | hgt
  · exact absurd (hj.gone hlt) hk.1
  · exact heq
  · exact absurd (hk.gone hgt) hj.1

/-- A slot that has been numbered is there, or has been freed. -/
theorem stored_or_freed (hx : x < (added (ops.take n)).length) :
    (moment ops n).listener? x ≠ none ∨ ∃ k < n, FreedAt ops k x := by
  induction n with
  | zero => exact absurd hx (Nat.not_lt_zero x)
  | succ n ih =>
    rcases Nat.lt_or_ge x (added (ops.take n)).length with hold | hnew
    · rcases ih hold with hthere | ⟨k, hk, hfrees⟩
      · by_cases hafter : (moment ops (n + 1)).listener? x = none
        · exact .inr ⟨n, Nat.lt_succ_self n, hthere, hafter⟩
        · exact .inl hafter
      · exact .inr ⟨k, Nat.lt_succ_of_lt hk, hfrees⟩
    · -- the operation adds the listener, and stores it under this very number
      rw [← nextId_moment] at hx hnew
      left
      cases hop : ops[n]? with
      | none =>
        rw [moment_stays hop] at hx
        exact absurd hx (Nat.not_lt_of_le hnew)
      | some op =>
        rw [moment_succ hop, nextId_operate] at hx
        cases hadd : op.added? with
        | none =>
          rw [hadd] at hx
          exact absurd hx (Nat.not_lt_of_le hnew)
        | some l =>
          rw [hadd] at hx
          have heq : (moment ops n).nextId = x :=
            Nat.le_antisymm hnew (Nat.le_of_lt_succ hx)
          rw [moment_succ hop, listener?_operate (coherent_moment ops n), if_pos heq, hadd]
          exact Option.some_ne_none l

/-- What an operation hands back are the listeners of the slots that it frees. -/
theorem handedBack_eq (ops : List (Operation L)) (k : Nat) :
    ∃ slots : List SlotId, slots.Nodup ∧ (∀ x, x ∈ slots ↔ FreedAt ops k x) ∧
      (handedBack ops k).map some = slots.map fun x => (added ops)[x]? := by
  cases hop : ops[k]? with
  | none =>
    refine ⟨[], List.nodup_nil, fun x => ?_, ?_⟩
    · rw [freedAt_iff, hop]
      simp
    · rw [handedBack, hop]
      rfl
  | some op =>
    obtain ⟨ids, hperm, hback⟩ := (moment ops k).operate_fst op
    have hids (x : SlotId) : x ∈ ids ↔ FreedAt ops k x := by
      rw [hperm.mem_iff, mem_freed, freedAt_iff]
      constructor
      · exact fun hfrees => ⟨op, hop, hfrees⟩
      · rintro ⟨op', hop', hfrees⟩
        obtain rfl := Option.some.inj (hop.symm.trans hop')
        exact hfrees
    refine ⟨ids, hperm.nodup_iff.2 ((moment ops k).nodup_freed op), hids, ?_⟩
    have hhanded : handedBack ops k = (moment ops k).listeners ids := by
      rw [handedBack, hop]
      exact hback
    have hstored : ∀ x ∈ ids, (moment ops k).listener? x ≠ none := fun x hx => ((hids x).1 hx).1
    rw [hhanded, map_some_listeners hstored]
    refine List.map_congr_left fun x hx => ?_
    obtain ⟨l, hl⟩ := Option.ne_none_iff_exists'.1 (hstored x hx)
    rw [hl, added_of_take (added_of_stored hl)]

/-! ## All of it -/

/-- What a chain does with the listeners that operations add to it. -/
structure Keeps (ops : List (Operation L)) : Prop where
  /-- A slot is numbered by how many listeners were added before its own. -/
  numbered : ∀ n, (moment ops n).nextId = (added (ops.take n)).length
  /-- An operation hands back the listeners of the slots that it frees, each ONCE, and nothing else. -/
  handed : ∀ k, ∃ slots : List SlotId, slots.Nodup ∧ (∀ x, x ∈ slots ↔ FreedAt ops k x) ∧
    (handedBack ops k).map some = slots.map fun x => (added ops)[x]?
  /-- At every moment a listener that has been added is in its own slot, and no operation has handed
      it back, or its slot is gone, and exactly one operation has. -/
  kept : ∀ n x l, (added (ops.take n))[x]? = some l →
    ((moment ops n).listener? x = some l ∧ ∀ k < n, ¬FreedAt ops k x) ∨
      ((moment ops n).listener? x = none ∧ ∃! k, k < n ∧ FreedAt ops k x)
  /-- Nothing is stored that was not added. -/
  nothing_else : ∀ n x l, (moment ops n).listener? x = some l → (added (ops.take n))[x]? = some l
  /-- Which operation it falls to: the one that detaches a slot on which nobody stands, the one that
      gives back the last pin of a tombstone, or the one that clears a chain with such a slot. -/
  falls_to : ∀ k x, FreedAt ops k x ↔
    ∃ op slot, ops[k]? = some op ∧ (moment ops k).slots.get? x = some slot ∧
      (op = .detach x ∧ slot.linked = true ∧ slot.pins = 0 ∨
        op = .unpin x ∧ slot.linked = false ∧ slot.pins ≤ 1 ∨
          (∃ shuffle, op = .clear shuffle) ∧ slot.pins = 0)
  /-- A slot that has been freed is never there again. -/
  for_good : ∀ k x, FreedAt ops k x → ∀ n, k < n → (moment ops n).listener? x = none
  /-- An operation on a slot that is not there does nothing. -/
  absent : ∀ n op x, op.target? = some x → (moment ops n).listener? x = none →
    (moment ops n).operate op = ([], moment ops n)
  /-- Nor does detaching a tombstone. -/
  detached : ∀ n x, (moment ops n).contains x = false →
    (moment ops n).operate (.detach x) = ([], moment ops n)

/-- No listener is lost, handed back twice, or handed back and kept. -/
theorem listeners_returned_once (ops : List (Operation L)) : Keeps ops where
  numbered := nextId_moment ops
  handed := handedBack_eq ops
  kept := by
    intro n x l hadded
    by_cases hthere : (moment ops n).listener? x = none
    · obtain hstored | ⟨k, hk, hfrees⟩ := stored_or_freed (List.getElem?_eq_some_iff.1 hadded).1
      · exact absurd hthere hstored
      · exact .inr ⟨hthere, k, ⟨hk, hfrees⟩, fun j hj => hj.2.unique hfrees⟩
    · obtain ⟨l', hl'⟩ := Option.ne_none_iff_exists'.1 hthere
      obtain rfl := Option.some.inj ((added_of_stored hl').symm.trans hadded)
      exact .inl ⟨hl', fun k hk hfrees => hthere (hfrees.gone hk)⟩
  nothing_else := fun n x l => added_of_stored
  falls_to := by
    intro k x
    rw [freedAt_iff]
    constructor
    · rintro ⟨op, hop, hfrees⟩
      obtain ⟨slot, hs, hrule⟩ := frees_iff.1 hfrees
      exact ⟨op, slot, hop, hs, Operation.frees_iff.1 hrule⟩
    · rintro ⟨op, slot, hop, hs, hrule⟩
      exact ⟨op, hop, frees_iff.2 ⟨slot, hs, Operation.frees_iff.2 hrule⟩⟩
  for_good := fun k x h n hn => h.gone hn
  absent := fun n op x => operate_of_absent
  detached := fun n x => operate_detach_of_unlinked (coherent_moment ops n)

/-- A slot that is pinned when it is detached hands its listener back with the pin; clearing the chain
    in between leaves it alone. -/
example :
    let ops : List (Operation Nat) :=
      [.append 7, .prepend 8, .pin 0, .detach 0, .clear .plain, .unpin 0, .unpin 0]
    (List.range 7).map (handedBack ops) = [[], [], [], [], [8], [7], []] := by
  decide

end Chain
end Relay
