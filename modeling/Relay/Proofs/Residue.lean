/-
  What is still before a cursor, after each operation on its chain.

  `Chain.rest` walks along the links.  Under `Links` the walk never stops early: the way forward of
  any slot, linked or not, is a SUFFIX of the linked slots, and it is determined by its first
  element (`rest_eq`).  So for each operation it is enough to name the new suffix and to check where
  the first link leads; the plain list surgery below is the result.
-/
import Relay.Proofs.Links

namespace Relay
namespace Chain

variable {L : Type}

/-! ## Walks -/

namespace Links

variable {c : Chain L} {ids : List SlotId}

/-- There are at least as many slots stored as linked. -/
theorem length_le_size (h : c.Links ids) : ids.length ≤ c.slots.size := by
  have hsub : ids ⊆ c.slots.entries.map (·.1) := by
    intro id hid
    obtain ⟨slot, hs, -⟩ := h.exists_slot hid
    exact List.mem_map_of_mem ((Table.get?_eq_some_iff c.slots id slot).1 hs)
  have hle := (h.nodup.subperm hsub).length_le
  rwa [List.length_map] at hle

/-- A walk from the head of a suffix is that suffix. -/
theorem walk_suffix (h : c.Links ids) {l : List SlotId} (hl : l <:+ ids) {n : Nat}
    (hn : l.length ≤ n) : c.walk n l.head? = l := by
  induction l generalizing n with
  | nil => cases n <;> rfl
  | cons x m ih =>
    obtain ⟨n, rfl⟩ : ∃ k, n = k + 1 := Nat.exists_eq_add_one_of_ne_zero (by
      rw [List.length_cons] at hn
      omega)
    obtain ⟨slot, hs, -⟩ := h.exists_slot (hl.subset List.mem_cons_self)
    have hafter : slot.after = m.head? := (following_stored hs).symm.trans (h.forth x m hl)
    rw [List.head?_cons, walk, hs]
    show x :: c.walk n slot.after = x :: m
    rw [hafter, ih ((List.suffix_cons x m).trans hl) (Nat.le_of_succ_le_succ hn)]

/-- A walk back from the head of a suffix of the reversed list is that suffix. -/
theorem walkBack_suffix (h : c.Links ids) {l : List SlotId} (hl : l <:+ ids.reverse) {n : Nat}
    (hn : l.length ≤ n) : (c.walkBack n l.head?).map (·.1) = l := by
  induction l generalizing n with
  | nil => cases n <;> rfl
  | cons x m ih =>
    obtain ⟨n, rfl⟩ : ∃ k, n = k + 1 := Nat.exists_eq_add_one_of_ne_zero (by
      rw [List.length_cons] at hn
      omega)
    obtain ⟨slot, hs, -⟩ := h.exists_slot (List.mem_reverse.1 (hl.subset List.mem_cons_self))
    have hbefore : slot.before = m.head? := (preceding_stored hs).symm.trans (h.back x m hl)
    rw [List.head?_cons, walkBack, hs]
    show x :: (c.walkBack n slot.before).map (·.1) = x :: m
    rw [hbefore, ih ((List.suffix_cons x m).trans hl) (Nat.le_of_succ_le_succ hn)]

/-- Following the links from the first slot visits the linked slots. -/
theorem order_eq (h : c.Links ids) : c.order = ids := by
  rw [order, h.first]
  exact h.walk_suffix List.suffix_rfl h.length_le_size

/-- Following the links back from the last slot visits them the other way round. -/
theorem backwards_eq (h : c.Links ids) : c.backwards.map (·.1) = ids.reverse := by
  rw [backwards, h.last, ← List.head?_reverse]
  exact h.walkBack_suffix List.suffix_rfl (by rw [List.length_reverse]; exact h.length_le_size)

/-- What is left to a slot is the suffix that its link leads to. -/
theorem rest_eq (h : c.Links ids) {x : SlotId} {l : List SlotId} (hl : l <:+ ids)
    (hx : c.following x = l.head?) : c.rest x = l := by
  rw [rest, hx]
  exact h.walk_suffix hl (Nat.le_trans hl.length_le h.length_le_size)

/-- The link of a stored slot leads to a linked one. -/
theorem following_mem (h : c.Links ids) {x y : SlotId} (hy : c.following x = some y) : y ∈ ids := by
  obtain ⟨slot, hs, ha⟩ := Option.bind_eq_some_iff.1 hy
  by_cases hx : x ∈ ids
  · exact (h.forth.mem_of_eq_some hx hy).1
  · exact (h.buried x slot hs (by rw [h.mem_iff_linked hs] at hx; simpa using hx)).2 y ha

/-- What is left to a slot is a suffix of the linked ones. -/
theorem rest_spec (h : c.Links ids) (x : SlotId) :
    c.rest x <:+ ids ∧ c.following x = (c.rest x).head? := by
  cases hx : c.following x with
  | none =>
    rw [h.rest_eq List.nil_suffix hx]
    exact ⟨List.nil_suffix, rfl⟩
  | some y =>
    obtain ⟨l, hl⟩ := exists_suffix (h.following_mem hx)
    rw [h.rest_eq hl hx]
    exact ⟨hl, rfl⟩

/-- To a linked slot, what comes after it is left. -/
theorem cons_rest_suffix (h : c.Links ids) {x : SlotId} (hx : x ∈ ids) : x :: c.rest x <:+ ids := by
  obtain ⟨l, hl⟩ := exists_suffix hx
  rwa [h.rest_eq ((List.suffix_cons x l).trans hl) (h.forth x l hl)]

/-- What is left to a slot is its successor and what is left to that. -/
theorem rest_unfold (h : c.Links ids) (x : SlotId) :
    c.rest x = match c.following x with
      | none => []
      | some y => y :: c.rest y := by
  obtain ⟨hsuf, hhead⟩ := h.rest_spec x
  cases hr : c.rest x with
  | nil => rw [hhead, hr]; rfl
  | cons y l =>
    rw [hr] at hsuf hhead
    have hy := h.cons_rest_suffix (hsuf.subset List.mem_cons_self)
    rw [hhead, List.head?_cons]
    show y :: l = y :: c.rest y
    rw [suffix_unique h.nodup hy hsuf]

/-- Nothing is left twice. -/
theorem rest_nodup (h : c.Links ids) (x : SlotId) : (c.rest x).Nodup :=
  h.nodup.sublist (h.rest_spec x).1.sublist

/-! ## The operations -/

theorem rest_prepend (h : c.Links ids) (l : L) {x : SlotId} (hx : x ≠ c.nextId) :
    (c.prepend l).rest x = c.rest x := by
  obtain ⟨hsuf, hhead⟩ := h.rest_spec x
  refine (h.prepend l).rest_eq (hsuf.trans (List.suffix_cons _ _)) ?_
  rw [following_prepend c l hx, hhead]

/-- A listener added at the back is left to every cursor that is not past the end of the chain. -/
theorem rest_append (h : c.Links ids) (l : L) {x : SlotId} (hx : x ≠ c.nextId) :
    (c.append l).rest x =
      if c.contains x = false ∧ c.rest x = [] then [] else c.rest x ++ [c.nextId] := by
  obtain ⟨hsuf, hhead⟩ := h.rest_spec x
  have hfollow := h.following_append l hx
  have hgrow : c.rest x ++ [c.nextId] <:+ ids ++ [c.nextId] := by
    obtain ⟨pre, hp⟩ := hsuf
    exact ⟨pre, by rw [← List.append_assoc, hp]⟩
  by_cases hin : x ∈ ids
  · have hc : c.contains x = true := (h.linked x).2 hin
    rw [if_neg (by simp [hc])]
    refine (h.append l).rest_eq hgrow ?_
    rw [hfollow, hhead]
    have hlast := suffix_last_iff h.nodup (h.cons_rest_suffix hin)
    cases hr : c.rest x with
    | nil => rw [if_pos (hlast.2 hr)]; rfl
    | cons y m => rw [if_neg fun he => List.cons_ne_nil y m (hr ▸ hlast.1 he)]; rfl
  · have hc : c.contains x = false := by
      rw [← Bool.not_eq_true, h.linked x]
      exact hin
    rw [if_neg fun he => hin (List.mem_of_getLast? he)] at hfollow
    cases hr : c.rest x with
    | nil =>
      rw [if_pos ⟨hc, rfl⟩]
      refine (h.append l).rest_eq List.nil_suffix ?_
      rw [hfollow, hhead, hr]
    | cons y m =>
      rw [if_neg (by simp)]
      refine (h.append l).rest_eq (hr ▸ hgrow) ?_
      rw [hfollow, hhead, hr]
      rfl

/-- A detached slot is gone from what is left, and nothing else is. -/
theorem rest_detach (h : c.Links ids) (id : SlotId) {x : SlotId}
    (hx : x = id → ∃ slot, c.slots.get? x = some slot ∧ 0 < slot.pins) :
    (c.detach id).2.rest x = (c.rest x).erase id := by
  obtain ⟨hsuf, hhead⟩ := h.rest_spec x
  by_cases hid : id ∈ ids
  · refine (h.detach hid).rest_eq (suffix_erase h.nodup id hsuf) ?_
    by_cases hxid : x = id
    · -- the slot itself stays as a tombstone with its old way forward, on which it does not lie
      obtain ⟨slot, hs, hp⟩ := hx hxid
      subst hxid
      have hout : x ∉ c.rest x :=
        (List.nodup_cons.1 (h.nodup.sublist (h.cons_rest_suffix hid).sublist)).1
      rw [List.erase_of_not_mem hout, ← hhead, following, h.get?_detach_self hid hs, if_pos hp,
        following, hs]
      rfl
    · rw [h.following_detach hid hxid, hhead]
      cases hr : c.rest x with
      | nil => simp
      | cons y m =>
        by_cases hy : y = id
        · subst hy
          rw [if_pos List.head?_cons, List.erase_cons_head]
          exact h.forth y m (hr ▸ hsuf)
        · rw [if_neg (by simpa using hy), List.erase_cons_tail (by simpa using hy)]
          rfl
  · rw [h.detach_of_not_mem hid, List.erase_of_not_mem fun hm => hid (hsuf.subset hm)]

theorem rest_clear (h : c.Links ids) (shuffle : Shuffle) (x : SlotId) : (c.clear shuffle).2.rest x = [] :=
  List.suffix_nil.1 (h.clear.rest_spec x).1

theorem rest_pin (h : c.Links ids) (id x : SlotId) : (c.pin id).rest x = c.rest x := by
  obtain ⟨hsuf, hhead⟩ := h.rest_spec x
  refine (h.pin id).rest_eq hsuf ?_
  rw [← hhead, following, following, get?_pin]
  split
  · cases c.slots.get? x <;> rfl
  · rfl

/-- A pin given back changes nothing for a slot that stays. -/
theorem rest_unpin (h : c.Links ids) (id : SlotId) {x : SlotId}
    (hx : x = id → ∃ slot, c.slots.get? x = some slot ∧ (slot.linked = true ∨ 1 < slot.pins)) :
    (c.unpin id).2.rest x = c.rest x := by
  obtain ⟨hsuf, hhead⟩ := h.rest_spec x
  refine (h.unpin id).rest_eq hsuf ?_
  rw [← hhead, following, following, get?_unpin]
  by_cases hxid : id = x
  · obtain ⟨slot, hs, hstay⟩ := hx hxid.symm
    have hkeep : ¬(slot.pins - 1 = 0 ∧ slot.linked = false) := by
      rintro ⟨h₁, h₂⟩
      rcases hstay with hl | hp
      · rw [hl] at h₂; exact absurd h₂ (by simp)
      · omega
    rw [if_pos hxid, hs, Option.bind_some, if_neg hkeep]
    rfl
  · rw [if_neg hxid]

end Links

end Chain
end Relay
