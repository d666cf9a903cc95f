/-
  Adding up what a table stores.

  Two laws of this library are sums: the pins of a slot are the dispatches that stand on it, and the
  owners of a stored thing are the shares that all others have in it.  `Table.total w` adds up a
  weight over all stored values, and the lemmas say what each operation does to it.  A pool is read
  through `Pool.stored`, the table of its values: taking one owner more or less does not touch it
  unless the value goes.
-/
import Relay.Pool
import Mathlib.Tactic.Ring

namespace Relay

/-! ## Totals over a table -/

namespace Table

variable {κ α β : Type}

/-- The weights of all stored values, added up. -/
def total (t : Table κ α) (w : α → Nat) : Nat := (t.values.map w).sum

/-- Two tables with the same entries are the same. -/
theorem ext_entries {s t : Table κ α} (h : s.entries = t.entries) : s = t := by
  cases s
  cases t
  exact Table.mk.injEq _ _ _ _ ▸ h

/-- The total is what one value weighs and what the others do. -/
theorem total_split {t : Table κ α} (w : α → Nat) {pre post : List (κ × α)} {k : κ} {a : α}
    (h : t.entries = pre ++ (k, a) :: post) :
    t.total w = w a + ((pre.map fun e => w e.2).sum + (post.map fun e => w e.2).sum) := by
  simp only [total, values, h, List.map_append, List.map_map, List.map_cons, List.sum_append,
    List.sum_cons, Function.comp_def]
  omega

/-- A change that keeps every weight keeps the total. -/
theorem total_mapValues (t : Table κ α) (f : α → β) (w : β → Nat) :
    (t.mapValues f).total w = t.total fun a => w (f a) := by
  simp [total, values, mapValues, map, Function.comp_def]

/-- What passes a filter and what does not make up the whole. -/
theorem total_filterValues (t : Table κ α) (p : α → Bool) (w : α → Nat) :
    (t.filterValues p).total w + (t.filterValues fun a => !p a).total w = t.total w := by
  simp only [total, values, filterValues, filter, List.map_map, Function.comp_def]
  induction t.entries with
  | nil => rfl
  | cons e rest ih =>
    cases hp : p e.2 <;> simp only [List.filter_cons, hp, Bool.not_true, Bool.not_false, if_true,
      Bool.false_eq_true, if_false, List.map_cons, List.sum_cons] <;> omega

variable [DecidableEq κ]

/-- A stored entry splits the table; its key is in neither part. -/
theorem exists_split (t : Table κ α) {k : κ} {a : α} (h : t.get? k = some a) :
    ∃ pre post, t.entries = pre ++ (k, a) :: post ∧
      (∀ e ∈ pre, e.1 ≠ k) ∧ ∀ e ∈ post, e.1 ≠ k := by
  obtain ⟨pre, post, he⟩ := List.append_of_mem ((get?_eq_some_iff t k a).1 h)
  have hd := t.distinct
  rw [he, List.map_append, List.map_cons] at hd
  obtain ⟨-, hpost, hdisj⟩ := List.nodup_append.1 hd
  refine ⟨pre, post, he, fun e hm hk => ?_, fun e hm hk => ?_⟩
  · exact hdisj e.1 (List.mem_map_of_mem hm) k List.mem_cons_self hk
  · exact (List.nodup_cons.1 hpost).1 (List.mem_map.2 ⟨e, hm, hk⟩)

theorem le_total (t : Table κ α) (w : α → Nat) {k : κ} {a : α} (h : t.get? k = some a) :
    w a ≤ t.total w := by
  obtain ⟨pre, post, he, -⟩ := t.exists_split h
  rw [total_split w he]
  omega

theorem total_eq_zero (t : Table κ α) {w : α → Nat} (h : ∀ k a, t.get? k = some a → w a = 0) :
    t.total w = 0 := by
  refine List.sum_eq_zero_iff_forall_eq_nat.2 fun n hn => ?_
  obtain ⟨a, ha, rfl⟩ := List.mem_map.1 hn
  obtain ⟨e, he, rfl⟩ := List.mem_map.1 ha
  exact h e.1 e.2 ((get?_eq_some_iff t e.1 e.2).2 he)

/-- What is put in weighs as much more as it does beyond what it was put over. -/
theorem total_insert_over (t : Table κ α) (w : α → Nat) (k : κ) (a : α) :
    (t.insert k a).total w + (t.get? k).elim 0 w = t.total w + w a := by
  have put_over : ∀ es : List (κ × α),
      ((put k a es).map fun e => w e.2).sum + (find k es).elim 0 w =
        (es.map fun e => w e.2).sum + w a := by
    intro es
    induction es with
    | nil => simp [put, find]
    | cons e rest ih =>
      by_cases hk : e.1 = k
      · simp only [put, find, if_pos hk, List.map_cons, List.sum_cons, Option.elim_some]
        omega
      · simp only [put, find, if_neg hk, List.map_cons, List.sum_cons]
        omega
  simpa [total, values, insert, get?, Function.comp_def] using put_over t.entries

theorem total_insert (t : Table κ α) (w : α → Nat) {k : κ} (a : α) (h : t.get? k = none) :
    (t.insert k a).total w = t.total w + w a := by
  have hover := t.total_insert_over w k a
  rwa [h] at hover

theorem total_modify (t : Table κ α) (w : α → Nat) {k : κ} {a : α} (f : α → α)
    (h : t.get? k = some a) : (t.modify k f).total w + w a = t.total w + w (f a) := by
  obtain ⟨pre, post, he, hpre, hpost⟩ := t.exists_split h
  have same : ∀ es : List (κ × α), (∀ e ∈ es, e.1 ≠ k) →
      es.map (fun e => (e.1, if e.1 = k then f e.2 else e.2)) = es := by
    intro es hes
    conv_rhs => rw [← List.map_id es]
    exact List.map_congr_left fun e hm => by rw [if_neg (hes e hm)]; rfl
  have he' : (t.modify k f).entries = pre ++ (k, f a) :: post := by
    simp only [modify, map, he, List.map_append, List.map_cons, same pre hpre, same post hpost,
      if_true]
  rw [total_split w he, total_split w he']
  omega

/-- A change of one value that keeps its weight keeps the total. -/
theorem total_modify_same (t : Table κ α) (w : α → Nat) (k : κ) (f : α → α)
    (hw : ∀ a, w (f a) = w a) :
    (t.modify k f).total w = t.total w := by
  rw [modify, map, total, total, values, values, List.map_map, List.map_map, List.map_map]
  congr 1
  refine List.map_congr_left fun e _ => ?_
  simp only [Function.comp_apply]
  split
  · exact hw e.2
  · rfl

theorem total_erase (t : Table κ α) (w : α → Nat) {k : κ} {a : α} (h : t.get? k = some a) :
    (t.erase k).total w + w a = t.total w := by
  obtain ⟨pre, post, he, hpre, hpost⟩ := t.exists_split h
  have same : ∀ es : List (κ × α), (∀ e ∈ es, e.1 ≠ k) →
      es.filter (fun e => decide (e.1 ≠ k)) = es := fun es hes =>
    List.filter_eq_self.2 fun e hm => decide_eq_true (hes e hm)
  have he' : (t.erase k).entries = pre ++ post := by
    simp only [erase, filter, he, List.filter_append, same pre hpre,
      List.filter_cons_of_neg (p := fun e : κ × α => decide (e.1 ≠ k)) (a := (k, a)) (by simp),
      same post hpost]
  rw [total_split w he, total, values, he']
  simp only [List.map_append, List.map_map, List.sum_append, Function.comp_def]
  omega

/-! Where values are lists of numbers, or have such lists, a number is counted over all of them. -/

/-- What one entry lists, the whole table lists. -/
theorem total_count_pos {t : Table κ α} {k : κ} {a : α} (list : α → List Nat) {i : Nat}
    (ha : t.get? k = some a) (hi : i ∈ list a) : 0 < t.total fun a => (list a).count i :=
  Nat.lt_of_lt_of_le (List.count_pos_iff.2 hi) (t.le_total (fun a => (list a).count i) ha)

/-- What is put under a key, and what was there before, is what all listed and what comes. -/
theorem count_insert_over (t : Table κ α) (list : α → List Nat) (k : κ) (a : α) (i : Nat) :
    ((t.insert k a).total fun a => (list a).count i) +
        ((t.get? k).toList.flatMap list).count i =
      (t.total fun a => (list a).count i) + (list a).count i := by
  have hover := t.total_insert_over (fun a => (list a).count i) k a
  cases hget : t.get? k with
  | none => rwa [hget] at hover
  | some old =>
    rw [hget, Option.elim_some] at hover
    rwa [Option.toList_some, List.flatMap_singleton]

/-- A change by a function that agrees on what is there is the same change. -/
theorem modify_congr (t : Table κ α) {k : κ} {f g : α → α}
    (h : ∀ a, t.get? k = some a → f a = g a) :
    t.modify k f = t.modify k g := by
  apply ext_entries
  refine List.map_congr_left fun e hm => ?_
  show (e.1, if e.1 = k then f e.2 else e.2) = (e.1, if e.1 = k then g e.2 else e.2)
  by_cases hk : e.1 = k
  · have hget : t.get? k = some e.2 := (get?_eq_some_iff t k e.2).2 (hk ▸ hm)
    rw [if_pos hk, if_pos hk, h e.2 hget]
  · rw [if_neg hk, if_neg hk]

/-- A change by a function that keeps what is there is none. -/
theorem modify_eq_self (t : Table κ α) {k : κ} {f : α → α} (h : ∀ a, t.get? k = some a → f a = a) :
    t.modify k f = t := by
  have hid : (t.modify k fun a => a) = t := by
    apply ext_entries
    show t.entries.map (fun e => (e.1, if e.1 = k then e.2 else e.2)) = t.entries
    simp
  rw [t.modify_congr h, hid]

/-- Changing what is not there changes nothing. -/
theorem modify_of_none (t : Table κ α) {k : κ} (f : α → α) (h : t.get? k = none) :
    t.modify k f = t :=
  t.modify_eq_self fun _ ha => absurd (h.symm.trans ha) (by simp)

/-- Writing back what is there changes nothing. -/
theorem modify_self (t : Table κ α) {k : κ} {a : α} (h : t.get? k = some a) :
    (t.modify k fun _ => a) = t :=
  t.modify_eq_self fun _ hb => Option.some.inj (h.symm.trans hb)

/-- Taking out what is not there changes nothing. -/
theorem erase_of_none (t : Table κ α) {k : κ} (h : t.get? k = none) : t.erase k = t := by
  apply ext_entries
  refine List.filter_eq_self.2 fun e he => decide_eq_true ?_
  rintro rfl
  exact nomatch h.symm.trans ((get?_eq_some_iff t e.1 e.2).2 he)

/-! ## Tables that go with each other -/

theorem mapValues_insert (t : Table κ α) (f : α → β) (k : κ) (a : α) :
    (t.insert k a).mapValues f = (t.mapValues f).insert k (f a) := by
  apply ext_entries
  show (put k a t.entries).map (fun e => (e.1, f e.2)) =
    put k (f a) (t.entries.map fun e => (e.1, f e.2))
  induction t.entries with
  | nil => rfl
  | cons e rest ih =>
    by_cases hk : e.1 = k
    · simp [put, hk]
    · simp [put, hk, ih]

theorem mapValues_erase (t : Table κ α) (f : α → β) (k : κ) :
    (t.erase k).mapValues f = (t.mapValues f).erase k := by
  apply ext_entries
  show (t.entries.filter fun e => decide (e.1 ≠ k)).map (fun e => (e.1, f e.2)) =
    (t.entries.map fun e => (e.1, f e.2)).filter fun e => decide (e.1 ≠ k)
  rw [List.filter_map]
  rfl

/-- Only what a function does to the values that are there matters. -/
theorem mapValues_congr (t : Table κ α) {f g : α → β} (h : ∀ k a, t.get? k = some a → f a = g a) :
    t.mapValues f = t.mapValues g := by
  apply ext_entries
  refine List.map_congr_left fun e he => ?_
  show (e.1, f e.2) = (e.1, g e.2)
  rw [h e.1 e.2 ((get?_eq_some_iff t e.1 e.2).2 he)]

omit [DecidableEq κ] in
/-- How often a value is stored, and how often it is listed where values list themselves. -/
theorem total_singleton (t : Table κ Nat) (i : Nat) :
    (t.total fun j => [j].count i) = t.values.count i := by
  unfold total
  induction t.values with
  | nil => rfl
  | cons j rest ih =>
    rw [List.map_cons, List.sum_cons, ih]
    exact List.count_append.symm

end Table

/-! ## The values of a pool -/

namespace Pool

variable {α : Type}

/-- The stored values with their ids, owners apart. -/
def stored (p : Pool α) : Table Nat α := p.cells.mapValues (·.value)

@[simp] theorem get?_stored (p : Pool α) (i : Nat) : p.stored.get? i = p.get? i :=
  Table.get?_mapValues _ _ _

theorem stored_lt (p : Pool α) {i : Nat} (h : p.stored.contains i = true) : i < p.nextId :=
  p.fresh i (by
    rw [Table.contains, get?_stored, get?, Option.isSome_map] at h
    exact h)

/-- A number that has not been given out is in no use. -/
theorem get?_of_le (p : Pool α) {i : Nat} (h : p.nextId ≤ i) : p.get? i = none := by
  by_contra hi
  refine absurd (p.stored_lt (i := i) ?_) (Nat.not_lt_of_le h)
  rw [Table.contains, get?_stored]
  exact Option.isSome_iff_ne_none.2 hi

theorem get?_nextId (p : Pool α) : p.get? p.nextId = none := p.get?_of_le (Nat.le_refl _)

theorem count_alloc_eq (p : Pool α) (a : α) (j : Nat) :
    (p.alloc a).2.count j = p.count j + if j = p.nextId then 1 else 0 := by
  rw [count_alloc]
  by_cases hj : p.nextId = j
  · -- a number that was not handed out had no owners before
    have hzero : p.count j = 0 := by
      by_contra hne
      have hsome := (p.count_pos_iff j).1 (Nat.pos_of_ne_zero hne)
      rw [← hj, get?_nextId] at hsome
      exact absurd hsome (by simp)
    rw [if_pos hj, if_pos hj.symm, hzero]
  · rw [if_neg hj, if_neg (Ne.symm hj), Nat.add_zero]

theorem count_retain_of_pos {p : Pool α} {i : Nat} (hi : 0 < p.count i) (j : Nat) :
    (p.retain i).count j = p.count j + if j = i then 1 else 0 := by
  rw [count_retain]
  by_cases hj : i = j
  · rw [if_pos ⟨hj, (p.count_pos_iff i).1 hi⟩, if_pos hj.symm]
  · rw [if_neg fun h => hj h.1, if_neg (Ne.symm hj), Nat.add_zero]

theorem count_release_of_pos {p : Pool α} {i : Nat} (hi : 0 < p.count i) (j : Nat) :
    ((p.release i).2.count j + if j = i then 1 else 0) = p.count j := by
  rw [count_release]
  by_cases hj : i = j
  · rw [if_pos hj, if_pos hj.symm, ← hj]
    omega
  · rw [if_neg hj, if_neg (Ne.symm hj), Nat.add_zero]

/-! The same, where owners that have no place yet are listed. -/

theorem count_alloc_cons (p : Pool α) (a : α) (j : Nat) :
    (p.alloc a).2.count j = p.count j + [p.nextId].count j := by
  rw [count_alloc_eq, List.count_singleton]
  by_cases hj : j = p.nextId
  · rw [if_pos hj, if_pos (beq_iff_eq.2 hj.symm)]
  · rw [if_neg hj, if_neg fun h => hj (beq_iff_eq.1 h).symm]

theorem count_retain_cons {p : Pool α} {i : Nat} (hi : 0 < p.count i) (j : Nat) :
    (p.retain i).count j = p.count j + [i].count j := by
  rw [count_retain_of_pos hi, List.count_singleton]
  by_cases hj : j = i
  · rw [if_pos hj, if_pos (beq_iff_eq.2 hj.symm)]
  · rw [if_neg hj, if_neg fun h => hj (beq_iff_eq.1 h).symm]

theorem count_release_cons {p : Pool α} {i n : Nat} (rest : List Nat) (j : Nat)
    (h : p.count j = n + (i :: rest).count j) : (p.release i).2.count j = n + rest.count j := by
  rw [count_release, h, List.count_cons]
  by_cases hj : i = j
  · rw [if_pos hj, if_pos (beq_iff_eq.2 hj)]
    omega
  · rw [if_neg hj, if_neg fun h => hj (beq_iff_eq.1 h)]
    omega

theorem stored_alloc (p : Pool α) (a : α) : (p.alloc a).2.stored = p.stored.insert p.nextId a := by
  apply Table.ext_entries
  show (Table.put p.nextId (⟨a, 0⟩ : Cell α) p.cells.entries).map (fun e => (e.1, e.2.value)) =
    Table.put p.nextId a (p.cells.entries.map fun e => (e.1, e.2.value))
  induction p.cells.entries with
  | nil => rfl
  | cons e rest ih =>
    by_cases he : e.1 = p.nextId
    · simp [Table.put, he]
    · simp [Table.put, he, ih]

theorem stored_change (p : Pool α) (i : Nat) (f : Cell α → Cell α) (g : α → α)
    (h : ∀ c, (f c).value = g c.value) : (p.change i f).stored = p.stored.modify i g := by
  apply Table.ext_entries
  show (p.cells.entries.map fun e => (e.1, if e.1 = i then f e.2 else e.2)).map
      (fun e => (e.1, e.2.value)) =
    (p.cells.entries.map fun e => (e.1, e.2.value)).map fun e =>
    (e.1, if e.1 = i then g e.2 else e.2)
  rw [List.map_map, List.map_map]
  refine List.map_congr_left fun e _ => ?_
  by_cases he : e.1 = i <;> simp [he, h]

theorem stored_modify (p : Pool α) (i : Nat) (f : α → α) :
    (p.modify i f).stored = p.stored.modify i f :=
  p.stored_change i _ f fun _ => rfl

/-- Changing a value is writing the changed value in its place. -/
theorem stored_modify_const (p : Pool α) {i : Nat} {a : α} (f : α → α) (h : p.get? i = some a) :
    (p.modify i f).stored = p.stored.modify i fun _ => f a := by
  rw [stored_modify]
  refine p.stored.modify_congr fun b hb => ?_
  rw [get?_stored, h] at hb
  rw [Option.some.inj hb]

@[simp] theorem stored_retain (p : Pool α) (i : Nat) : (p.retain i).stored = p.stored :=
  (p.stored_change i (fun c => { c with others := c.others + 1 }) (fun a => a) fun _ => rfl).trans
    (p.stored.modify_eq_self fun _ _ => rfl)

@[simp] theorem nextId_release (p : Pool α) (i : Nat) : (p.release i).2.nextId = p.nextId := by
  unfold release
  split <;> rfl

/-- What is released goes with its last owner, and is handed back then. -/
theorem release_cases (p : Pool α) (i : Nat) :
    (∃ a, p.get? i = some a ∧ p.count i = 1 ∧ (p.release i).1 = some a ∧
      (p.release i).2.stored = p.stored.erase i) ∨
    ((p.release i).1 = none ∧ (p.release i).2.stored = p.stored ∧ p.count i ≠ 1) := by
  unfold release count get?
  cases hc : p.cells.get? i with
  | none => exact .inr ⟨rfl, rfl, by simp⟩
  | some c =>
    obtain ⟨a, n⟩ := c
    -- the last owner takes the value away, any other only counts down
    cases n with
    | zero =>
      refine .inl ⟨a, rfl, rfl, rfl, Table.ext_entries ?_⟩
      show (p.cells.entries.filter fun e => decide (e.1 ≠ i)).map (fun e => (e.1, e.2.value)) =
        (p.cells.entries.map fun e => (e.1, e.2.value)).filter fun e => decide (e.1 ≠ i)
      rw [List.filter_map]
      rfl
    | succ n =>
      exact .inr ⟨rfl, (p.stored_change i (fun c => { c with others := n }) (fun a => a)
        fun _ => rfl).trans (p.stored.modify_eq_self fun _ _ => rfl), by simp⟩

/-- Weights added up over all stored values. -/
def total (p : Pool α) (w : α → Nat) : Nat := p.stored.total w

theorem total_alloc (p : Pool α) (w : α → Nat) (a : α) :
    (p.alloc a).2.total w = p.total w + w a := by
  rw [total, stored_alloc, Table.total_insert _ _ _ (by rw [get?_stored, get?_nextId]), total]

@[simp] theorem total_retain (p : Pool α) (w : α → Nat) (i : Nat) :
    (p.retain i).total w = p.total w := by rw [total, stored_retain, total]

theorem total_modify (p : Pool α) (w : α → Nat) {i : Nat} {a : α} (f : α → α)
    (h : p.get? i = some a) : (p.modify i f).total w + w a = p.total w + w (f a) := by
  rw [total, stored_modify, Table.total_modify _ _ _ (by rwa [get?_stored]), total]

/-- What is handed back is what is missing afterwards. -/
theorem total_release (p : Pool α) (w : α → Nat) (i : Nat) :
    (p.release i).2.total w + ((p.release i).1.toList.map w).sum = p.total w := by
  rcases p.release_cases i with ⟨a, ha, -, hr, hs⟩ | ⟨hr, hs, -⟩
  · rw [total, hs, hr, total, ← Table.total_erase p.stored w (by rwa [get?_stored])]
    rfl
  · rw [total, hs, hr, total]
    rfl

theorem le_total (p : Pool α) (w : α → Nat) {i : Nat} {a : α} (h : p.get? i = some a) :
    w a ≤ p.total w := p.stored.le_total w (by rwa [get?_stored])

end Pool

end Relay
