/-
  Counted storage: a value lives EXACTLY as long as it has an owner.

  A pool hands out ids in order and never hands one out twice.  A cell has one owner and counts the
  OTHERS, so a stored value without an owner cannot be written down: `alloc` makes a cell with one
  owner, `retain` adds one, `release` takes one away and, with the last one, hands the value back to
  the caller.  The pool itself runs nothing when a cell goes: what a value's end brings about is the
  caller's business, which is why `release` returns it.
-/
import Relay.Table

namespace Relay

/-- A stored value and its owners: there is ONE, and there may be others. -/
structure Cell (α : Type) where
  value : α
  others : Nat := 0
  deriving DecidableEq, Repr

/-- Counted storage for values of one kind. -/
structure Pool (α : Type) where
  cells : Table Nat (Cell α) := {}
  nextId : Nat := 0
  fresh : ∀ i, cells.contains i → i < nextId := by exact fun _ h => Bool.noConfusion h
  deriving DecidableEq, Repr

namespace Pool

variable {α : Type}

/-- The value with this id, while it lives. -/
def get? (p : Pool α) (i : Nat) : Option α := (p.cells.get? i).map (·.value)

/-- The number of owners of a value; none once it is gone. -/
def count (p : Pool α) (i : Nat) : Nat := ((p.cells.get? i).map (·.others + 1)).getD 0

/-! ## Changes -/

/-- Stores a value with ONE owner under an id that was never used before. -/
def alloc (p : Pool α) (a : α) : Nat × Pool α :=
  (p.nextId,
    { cells := p.cells.insert p.nextId ⟨a, 0⟩
      nextId := p.nextId + 1
      fresh := fun i h => by
        rw [Table.contains_insert, Bool.or_eq_true, decide_eq_true_eq] at h
        exact h.elim (fun e => by omega) fun h => Nat.lt_succ_of_lt (p.fresh i h) })

/-- Changes a cell, if there is one. -/
def change (p : Pool α) (i : Nat) (f : Cell α → Cell α) : Pool α :=
  { p with
    cells := p.cells.modify i f
    fresh := fun j h => p.fresh j (by rwa [Table.contains_modify] at h) }

/-- One more owner. -/
def retain (p : Pool α) (i : Nat) : Pool α := p.change i fun c => { c with others := c.others + 1 }

/-- Takes a value out. -/
def remove (p : Pool α) (i : Nat) : Pool α :=
  { p with
    cells := p.cells.erase i
    fresh := fun j h => p.fresh j (by rw [Table.contains_erase, Bool.and_eq_true] at h; exact h.2) }

/-- One owner less; the LAST one takes the value out and hands it back. -/
def release (p : Pool α) (i : Nat) : Option α × Pool α :=
  match p.cells.get? i with
  | none => (none, p)
  | some ⟨a, 0⟩ => (some a, p.remove i)
  | some ⟨_, n + 1⟩ => (none, p.change i fun c => { c with others := n })

/-- Changes a stored value; its owners stay the same. -/
def modify (p : Pool α) (i : Nat) (f : α → α) : Pool α :=
  p.change i fun c => { c with value := f c.value }

/-! ## The values after each operation -/

theorem get?_alloc (p : Pool α) (a : α) (j : Nat) :
    (p.alloc a).2.get? j = if p.nextId = j then some a else p.get? j := by
  simp only [get?, alloc, Table.get?_insert]
  split <;> rfl

theorem get?_retain (p : Pool α) (i j : Nat) : (p.retain i).get? j = p.get? j := by
  simp only [get?, retain, change, Table.get?_modify]
  split
  · cases p.cells.get? j <;> rfl
  · rfl

theorem get?_modify (p : Pool α) (i j : Nat) (f : α → α) :
    (p.modify i f).get? j = if i = j then (p.get? j).map f else p.get? j := by
  simp only [get?, modify, change, Table.get?_modify]
  split
  · cases p.cells.get? j <;> rfl
  · rfl

theorem get?_release (p : Pool α) (i j : Nat) :
    (p.release i).2.get? j = if i = j ∧ p.count i ≤ 1 then none else p.get? j := by
  unfold release count
  cases hc : p.cells.get? i with
  | none =>
    by_cases h : i = j
    · subst h; simp [get?, hc]
    · simp [h]
  | some c =>
    obtain ⟨a, n⟩ := c
    cases n with
    | zero =>
      simp only [get?, remove, Table.get?_erase]
      split <;> simp_all
    | succ n =>
      simp only [get?, change, Table.get?_modify]
      split <;> simp_all

/-! ## The count after each operation -/

theorem count_alloc (p : Pool α) (a : α) (j : Nat) :
    (p.alloc a).2.count j = if p.nextId = j then 1 else p.count j := by
  simp only [count, alloc, Table.get?_insert]
  split <;> rfl

theorem count_retain (p : Pool α) (i j : Nat) :
    (p.retain i).count j = if i = j ∧ (p.get? i).isSome then p.count j + 1 else p.count j := by
  simp only [count, retain, change, Table.get?_modify, get?, Option.isSome_map]
  by_cases h : i = j
  · subst h
    cases p.cells.get? i <;> simp
  · simp [h]

theorem count_modify (p : Pool α) (i j : Nat) (f : α → α) : (p.modify i f).count j = p.count j := by
  simp only [count, modify, change, Table.get?_modify]
  split
  · cases p.cells.get? j <;> rfl
  · rfl

theorem count_release (p : Pool α) (i j : Nat) :
    (p.release i).2.count j = if i = j then p.count j - 1 else p.count j := by
  unfold release count
  cases hc : p.cells.get? i with
  | none =>
    by_cases h : i = j
    · subst h; simp [hc]
    · simp [h]
  | some c =>
    obtain ⟨a, n⟩ := c
    cases n with
    | zero =>
      simp only [remove, Table.get?_erase]
      split <;> simp_all
    | succ n =>
      simp only [change, Table.get?_modify]
      split <;> simp_all

/-- What is stored has an owner, and only that. -/
theorem count_pos_iff (p : Pool α) (i : Nat) : 0 < p.count i ↔ (p.get? i).isSome := by
  unfold count get?
  cases p.cells.get? i <;> simp

end Pool

end Relay
