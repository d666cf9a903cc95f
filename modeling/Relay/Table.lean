/-
  Finite tables: a key has AT MOST ONE value, and what a table means is its look-up `get?`.

  A table is a list of entries in the order in which their keys first came, and no key comes twice.
  `insert` writes over a key in place, `modify` changes a value in place and `erase` takes an entry
  out, so taking out what was just put in gives back the very same table and not only one that
  answers alike.  The laws at the end say what each operation does to the look-up; nobody has to
  unfold an operation again.
-/
namespace Relay

/-- A finite table from keys to values, in order of first insertion. -/
structure Table (κ α : Type) where
  entries : List (κ × α) := []
  distinct : (entries.map (·.1)).Nodup := by exact List.nodup_nil
  deriving DecidableEq, Repr

namespace Table

variable {κ α β : Type} [DecidableEq κ]

/-! ## Look-up -/

/-- The value of the FIRST entry with key `k`. -/
def find (k : κ) : List (κ × α) → Option α
  | [] => none
  | e :: rest => if e.1 = k then some e.2 else find k rest

/-- The value that the table holds for `k`. -/
def get? (t : Table κ α) (k : κ) : Option α := find k t.entries

/-- Whether the table holds a value for `k`. -/
def contains (t : Table κ α) (k : κ) : Bool := (t.get? k).isSome

/-- The number of entries. -/
def size (t : Table κ α) : Nat := t.entries.length

/-- All keys, in order of first insertion. -/
def keys (t : Table κ α) : List κ := t.entries.map (·.1)

/-- All values, in order of first insertion. -/
def values (t : Table κ α) : List α := t.entries.map (·.2)

/-! ## Changes -/

/-- Writes over the entry of `k`, or adds one at the end. -/
def put (k : κ) (a : α) : List (κ × α) → List (κ × α)
  | [] => [(k, a)]
  | e :: rest => if e.1 = k then (k, a) :: rest else e :: put k a rest

/-- Writing over an entry brings no key twice. -/
theorem distinct_put (k : κ) (a : α) (es : List (κ × α)) (h : (es.map (·.1)).Nodup) :
    ((put k a es).map (·.1)).Nodup := by
  have mem (j : κ) (es : List (κ × α)) (hj : j ∈ (put k a es).map (·.1)) :
      j = k ∨ j ∈ es.map (·.1) := by
    induction es with
    | nil => simpa [put] using hj
    | cons e rest ih => by_cases he : e.1 = k <;> grind [put]
  induction es with
  | nil => simp [put]
  | cons e rest ih =>
    simp only [List.map_cons, List.nodup_cons] at h
    by_cases he : e.1 = k
    · subst he
      rw [put, if_pos rfl]
      exact List.nodup_cons.2 h
    · simp only [put, he, if_false, List.map_cons, List.nodup_cons]
      exact ⟨fun hm => (mem _ _ hm).elim he h.1, ih h.2⟩

/-- The table with `a` for `k`. -/
def insert (t : Table κ α) (k : κ) (a : α) : Table κ α :=
  ⟨put k a t.entries, distinct_put k a t.entries t.distinct⟩

/-- The table of the entries that pass `p`. -/
def filter (t : Table κ α) (p : κ × α → Bool) : Table κ α :=
  ⟨t.entries.filter p, t.distinct.sublist (List.filter_sublist.map _)⟩

/-- The table without an entry for `k`. -/
def erase (t : Table κ α) (k : κ) : Table κ α := t.filter fun e => e.1 ≠ k

/-- The table of the entries whose value passes `p`. -/
def filterValues (t : Table κ α) (p : α → Bool) : Table κ α := t.filter fun e => p e.2

/-- The table with `f` applied to every entry. -/
def map (t : Table κ α) (f : κ → α → β) : Table κ β :=
  ⟨t.entries.map fun e => (e.1, f e.1 e.2), by
    rw [List.map_map]
    exact t.distinct⟩

/-- The table with `f` applied to every value. -/
def mapValues (t : Table κ α) (f : α → β) : Table κ β := t.map fun _ => f

/-- The table with `f` applied to the value of `k`, if there is one. -/
def modify (t : Table κ α) (k : κ) (f : α → α) : Table κ α :=
  t.map fun j a => if j = k then f a else a

/-! ## What each change does to the look-up -/

/-- The look-up finds exactly the entries. -/
theorem get?_eq_some_iff (t : Table κ α) (k : κ) (a : α) :
    t.get? k = some a ↔ (k, a) ∈ t.entries := by
  obtain ⟨es, h⟩ := t
  simp only [get?]
  induction es with
  | nil => simp [find]
  | cons e rest ih =>
    obtain ⟨j, b⟩ := e
    simp only [List.map_cons, List.nodup_cons] at h
    by_cases hj : j = k
    · subst hj
      have absent : (j, a) ∉ rest := fun hm => h.1 (List.mem_map_of_mem hm)
      simp [find, absent, eq_comm]
    · simp [find, hj, ih h.2, Ne.symm hj]

theorem find_put (k j : κ) (a : α) (es : List (κ × α)) :
    find j (put k a es) = if k = j then some a else find j es := by
  induction es with
  | nil => simp [put, find]
  | cons e rest ih => by_cases he : e.1 = k <;> grind [put, find]

theorem get?_insert (t : Table κ α) (k j : κ) (a : α) :
    (t.insert k a).get? j = if k = j then some a else t.get? j :=
  find_put k j a t.entries

theorem get?_filter (t : Table κ α) (p : κ × α → Bool) (j : κ) :
    (t.filter p).get? j = (t.get? j).filter fun a => p (j, a) := by
  ext a
  simp only [get?_eq_some_iff, filter, List.mem_filter, Option.filter_eq_some_iff]

theorem get?_erase (t : Table κ α) (k j : κ) :
    (t.erase k).get? j = if k = j then none else t.get? j := by
  rw [erase, get?_filter]
  by_cases h : k = j
  · simp [h]
  · cases t.get? j with
    | none => simp [h]
    | some a => simp [h, Ne.symm h]

theorem get?_filterValues (t : Table κ α) (p : α → Bool) (j : κ) :
    (t.filterValues p).get? j = (t.get? j).filter p :=
  get?_filter t (fun e => p e.2) j

theorem get?_map (t : Table κ α) (f : κ → α → β) (j : κ) :
    (t.map f).get? j = (t.get? j).map (f j) := by
  simp only [get?, map]
  induction t.entries with
  | nil => simp [find]
  | cons e rest ih =>
    by_cases hj : e.1 = j
    · simp [find, hj]
    · simp [find, hj, ih]

theorem get?_mapValues (t : Table κ α) (f : α → β) (j : κ) :
    (t.mapValues f).get? j = (t.get? j).map f :=
  get?_map t (fun _ => f) j

theorem get?_modify (t : Table κ α) (k j : κ) (f : α → α) :
    (t.modify k f).get? j = if k = j then (t.get? j).map f else t.get? j := by
  rw [modify, get?_map]
  by_cases h : k = j
  · simp [h]
  · simp [h, Ne.symm h]

/-- Entries of the table are found by their keys. -/
theorem filterMap_get? (t : Table κ α) {es : List (κ × α)} (h : ∀ e ∈ es, e ∈ t.entries) :
    (es.map (·.1)).filterMap t.get? = es.map (·.2) := by
  induction es with
  | nil => rfl
  | cons e rest ih =>
    have hfound : t.get? e.1 = some e.2 := (t.get?_eq_some_iff _ _).2 (h e List.mem_cons_self)
    rw [List.map_cons, List.filterMap_cons_some hfound, ih fun e he => h e (List.mem_cons_of_mem _ he),
      List.map_cons]

/-! ## What each change does to the keys -/

theorem contains_insert (t : Table κ α) (k j : κ) (a : α) :
    (t.insert k a).contains j = (decide (k = j) || t.contains j) := by
  by_cases h : k = j <;> simp [contains, get?_insert, h]

theorem contains_erase (t : Table κ α) (k j : κ) :
    (t.erase k).contains j = (decide (k ≠ j) && t.contains j) := by
  by_cases h : k = j <;> simp [contains, get?_erase, h]

theorem contains_modify (t : Table κ α) (k j : κ) (f : α → α) :
    (t.modify k f).contains j = t.contains j := by
  by_cases h : k = j <;> simp [contains, get?_modify, h]

end Table

end Relay
