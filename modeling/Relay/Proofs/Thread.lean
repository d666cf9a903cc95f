/-
  Links that run THROUGH a list: from every element to the one after it, and from the last to
  nothing.

  A chain is threaded twice, forwards by what comes after a slot and backwards by what comes before
  it, and each of its operations rewrites a few links in both directions.  What that does to one
  direction is proved here once, for an arbitrary link function: an element put in front, one put at
  the end, and one taken out.  The elements are told apart by themselves, so all lists are without
  repetition.
-/
import Mathlib.Data.List.Nodup
import Mathlib.Data.List.Perm.Subperm

namespace Relay

variable {α : Type} [DecidableEq α]

/-- From each element of `ids`, `next` leads to the element after it, and from the last to none. -/
def Threaded (next : α → Option α) (ids : List α) : Prop :=
  ∀ x rest, x :: rest <:+ ids → next x = rest.head?

/-! ## Suffixes of a list without repetition -/

omit [DecidableEq α] in
/-- What comes after an element is determined by the element. -/
theorem suffix_unique {ids : List α} (hn : ids.Nodup) {x : α} {l m : List α}
    (hl : x :: l <:+ ids) (hm : x :: m <:+ ids) : l = m := by
  -- of two suffixes one is a suffix of the other, and `x` heads both
  rcases List.suffix_or_suffix_of_suffix hl hm with h | h
  · rcases List.suffix_cons_iff.1 h with he | he
    · exact (List.cons.inj he).2
    · have hx : x ∈ m := he.subset List.mem_cons_self
      exact absurd hx (List.nodup_cons.1 (hn.sublist hm.sublist)).1
  · rcases List.suffix_cons_iff.1 h with he | he
    · exact (List.cons.inj he).2.symm
    · have hx : x ∈ l := he.subset List.mem_cons_self
      exact absurd hx (List.nodup_cons.1 (hn.sublist hl.sublist)).1

omit [DecidableEq α] in
/-- Every element heads a suffix. -/
theorem exists_suffix {ids : List α} {x : α} (hx : x ∈ ids) : ∃ l, x :: l <:+ ids := by
  obtain ⟨pre, post, he⟩ := List.append_of_mem hx
  exact ⟨post, pre, he.symm⟩

omit [DecidableEq α] in
/-- An element comes after the last one in no suffix but the empty one. -/
theorem suffix_last_iff {ids : List α} (hn : ids.Nodup) {x : α} {l : List α}
    (hl : x :: l <:+ ids) : ids.getLast? = some x ↔ l = [] := by
  obtain ⟨pre, rfl⟩ := hl
  rw [List.getLast?_append]
  cases l with
  | nil => simp
  | cons y m =>
    have hx : x ∉ y :: m := (List.nodup_cons.1 (hn.sublist (List.sublist_append_right pre _))).1
    have hlast : (y :: m).getLast (by simp) ∈ y :: m := List.getLast_mem _
    simp only [List.getLast?_cons_cons, List.getLast?_eq_some_getLast (List.cons_ne_nil y m),
      Option.some_or, Option.some.injEq, reduceCtorEq, iff_false]
    intro he
    exact hx (he ▸ hlast)

/-- A suffix loses an element when the list does. -/
theorem suffix_erase {ids l : List α} (hn : ids.Nodup) (k : α) (hl : l <:+ ids) :
    l.erase k <:+ ids.erase k := by
  obtain ⟨pre, rfl⟩ := hl
  by_cases hk : k ∈ pre
  · have hkl : k ∉ l := fun h => (List.nodup_append.1 hn).2.2 k hk k h rfl
    rw [List.erase_append_left l hk, List.erase_of_not_mem hkl]
    exact List.suffix_append _ _
  · rw [List.erase_append_right l hk]
    exact List.suffix_append _ _

/-- Every suffix of what is left was one before the element was taken out. -/
theorem suffix_of_suffix_erase {ids m : List α} (hn : ids.Nodup) {k x : α}
    (hm : x :: m <:+ ids.erase k) : ∃ l, x :: l <:+ ids ∧ m = l.erase k ∧ x ≠ k := by
  have hxe : x ∈ ids.erase k := hm.subset List.mem_cons_self
  have hxk : x ≠ k := fun h => (List.Nodup.not_mem_erase hn) (h ▸ hxe)
  obtain ⟨l, hl⟩ := exists_suffix (List.mem_of_mem_erase hxe)
  refine ⟨l, hl, ?_, hxk⟩
  have he := suffix_erase hn k hl
  rw [List.erase_cons_tail (by simpa using hxk)] at he
  exact suffix_unique (hn.erase k) hm he

/-- Taking an element out of a list without repetition commutes with turning the list round. -/
theorem reverse_erase {ids : List α} (hn : ids.Nodup) (k : α) :
    (ids.erase k).reverse = ids.reverse.erase k := by
  rw [List.Nodup.erase_eq_filter hn, List.Nodup.erase_eq_filter (List.nodup_reverse.2 hn),
    List.filter_reverse]

/-- The first element is the one that nothing precedes. -/
theorem head?_erase_of_ne {ids : List α} {k : α} (h : ids.head? ≠ some k) :
    (ids.erase k).head? = ids.head? := by
  cases ids with
  | nil => rfl
  | cons x l =>
    have hx : x ≠ k := by simpa using h
    rw [List.erase_cons_tail (by simpa using hx)]
    rfl

/-! ## Three ways to rewrite the links -/

namespace Threaded

variable {next next' : α → Option α} {ids : List α}

omit [DecidableEq α] in
/-- Only the links of the elements matter. -/
theorem congr (h : Threaded next ids) (hs : ∀ x ∈ ids, next' x = next x) : Threaded next' ids := by
  intro x rest hx
  rw [hs x (hx.subset List.mem_cons_self)]
  exact h x rest hx

omit [DecidableEq α] in
/-- An element in front leads to what was the first. -/
theorem cons (h : Threaded next ids) {n : α} (hnew : next' n = ids.head?)
    (hs : ∀ x ∈ ids, next' x = next x) : Threaded next' (n :: ids) := by
  intro x rest hx
  rcases List.suffix_cons_iff.1 hx with he | he
  · obtain ⟨rfl, rfl⟩ := List.cons.inj he
    exact hnew
  · exact h.congr hs x rest he

/-- An element at the end is where the last one now leads to. -/
theorem concat (h : Threaded next ids) (hn : ids.Nodup) {n : α} (hnew : next' n = none)
    (hs : ∀ x ∈ ids, next' x = if ids.getLast? = some x then some n else next x) :
    Threaded next' (ids ++ [n]) := by
  intro x rest hx
  rcases List.suffix_concat_iff.1 hx with he | ⟨t, ht, he⟩
  · exact absurd he (List.cons_ne_nil _ _)
  · cases t with
    | nil =>
      obtain ⟨rfl, rfl⟩ := List.cons.inj ht
      exact hnew
    | cons y m =>
      obtain ⟨rfl, rfl⟩ := List.cons.inj ht
      rw [hs x (he.subset List.mem_cons_self), h x m he]
      cases m with
      | nil => rw [if_pos ((suffix_last_iff hn he).2 rfl)]; rfl
      | cons z m =>
        have hlast : ids.getLast? ≠ some x := fun hl =>
          List.cons_ne_nil z m ((suffix_last_iff hn he).1 hl)
        rw [if_neg hlast]
        rfl

/-- Whatever led to an element that is taken out leads on to where that element led. -/
theorem erase (h : Threaded next ids) (hn : ids.Nodup) {k : α}
    (hs : ∀ x ∈ ids, x ≠ k → next' x = if next x = some k then next k else next x) :
    Threaded next' (ids.erase k) := by
  intro x rest hx
  obtain ⟨l, hl, rfl, hxk⟩ := suffix_of_suffix_erase hn hx
  rw [hs x (hl.subset List.mem_cons_self) hxk, h x l hl]
  cases l with
  | nil => simp
  | cons y m =>
    by_cases hy : y = k
    · subst hy
      have hm : y :: m <:+ ids := (List.suffix_cons x (y :: m)).trans hl
      rw [if_pos List.head?_cons, h y m hm, List.erase_cons_head]
    · have hyk : (y :: m).head? ≠ some k := by simpa using hy
      rw [if_neg hyk, List.erase_cons_tail (by simpa using hy)]
      rfl

omit [DecidableEq α] in
/-- A link leads to an element of the list. -/
theorem mem_of_eq_some (h : Threaded next ids) {x y : α} (hx : x ∈ ids) (hy : next x = some y) :
    y ∈ ids ∧ ∃ l, x :: y :: l <:+ ids := by
  obtain ⟨l, hl⟩ := exists_suffix hx
  rw [h x l hl] at hy
  obtain ⟨m, rfl⟩ : ∃ m, l = y :: m := by
    cases l with
    | nil => exact absurd hy (by simp)
    | cons z m => exact ⟨m, by rw [Option.some.inj hy]⟩
  exact ⟨hl.subset (List.mem_cons_of_mem _ List.mem_cons_self), m, hl⟩

omit [DecidableEq α] in
/-- Links in one direction and links in the other are each other's inverse. -/
theorem eq_some_iff_back {back : α → Option α} (h : Threaded next ids)
    (hb : Threaded back ids.reverse) {x y : α} (hx : x ∈ ids) (hy : y ∈ ids) :
    next x = some y ↔ back y = some x := by
  constructor
  · intro he
    obtain ⟨-, l, pre, rfl⟩ := h.mem_of_eq_some hx he
    refine hb y (x :: pre.reverse) ⟨l.reverse, ?_⟩
    simp
  · intro he
    obtain ⟨-, l, pre, hp⟩ := hb.mem_of_eq_some (List.mem_reverse.2 hy) he
    have hids : ids = l.reverse ++ x :: y :: pre.reverse := by
      have := congrArg List.reverse hp
      simpa using this.symm
    exact h x (y :: pre.reverse) ⟨l.reverse, hids.symm⟩

omit [DecidableEq α] in
/-- No link leads from an element to itself. -/
theorem ne_self (h : Threaded next ids) (hn : ids.Nodup) {x : α} (hx : x ∈ ids) :
    next x ≠ some x := by
  intro he
  obtain ⟨-, l, hl⟩ := h.mem_of_eq_some hx he
  exact (List.nodup_cons.1 (hn.sublist hl.sublist)).1 List.mem_cons_self

omit [DecidableEq α] in
/-- Only the last element leads to nothing. -/
theorem eq_none_iff (h : Threaded next ids) (hn : ids.Nodup) {x : α} (hx : x ∈ ids) :
    next x = none ↔ ids.getLast? = some x := by
  obtain ⟨l, hl⟩ := exists_suffix hx
  rw [h x l hl, suffix_last_iff hn hl, List.head?_eq_none_iff]

end Threaded

end Relay
