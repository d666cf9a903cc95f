/-
  Families of handles.

  A handle is made anew, with an allocation of its own, or cloned from another one.  So handles fall
  into FAMILIES: those that go back, clone by clone, to the same `create`.  `lineage` reads off the steps
  alone which `create` each name goes back to, and knows nothing of allocations or counts.  The store
  agrees with it (`Store.Accounts`): two handles have one allocation exactly if they are of one family,
  and the allocation counts as many shares as the family has members.

  What ties the two together is a note of the step at which each allocation was made (`Store.Traces`).
  The names of the store, with that note in place of the allocation, ARE the lineage, and no two
  allocations were made at one step.
-/
import Relay.Shared.Store
import Relay.Proofs.Tally

namespace Relay.Shared

variable {C : Callables}

/-! ## Runs -/

/-- The store after a step; a step that lacks something changes nothing. -/
def Step.next (s : Store C) (step : Step C) : Store C :=
  match step.run s with
  | .ok e => e.store
  | .error _ => s

/-- The store after steps. -/
def after (s : Store C) : List (Step C) → Store C
  | [] => s
  | step :: rest => after (step.next s) rest

/-- A session goes on from the store that its first steps left. -/
theorem session_append (s : Store C) (steps more : List (Step C)) :
    session s (steps ++ more) = session s steps ++ session (after s steps) more := by
  induction steps generalizing s with
  | nil => rfl
  | cons step rest ih =>
    rw [List.cons_append, session, session, after, Step.next]
    cases step.run s with
    | ok e => exact congrArg _ (ih e.store)
    | error what => exact congrArg _ (ih s)

/-! ## Shares and handles -/

namespace Store

variable {s t : Store C} {held : List Nat}

/-- The shares of an allocation are the names that stand for it; the list has those on the way. -/
def Balanced (s : Store C) (held : List Nat) : Prop :=
  ∀ i, s.shares i = (s.names.total fun j => [j].count i) + held.count i

theorem balanced_nil : ({} : Store C).Balanced [] := fun _ => rfl

/-- What a handle stands for is there. -/
theorem Balanced.shares_pos (h : s.Balanced held) {name : String} {i : Nat}
    (hi : s.names.get? name = some i) : 0 < s.shares i := by
  have hpos : 0 < s.names.total fun j => [j].count i :=
    Table.total_count_pos (fun j => [j]) hi (List.mem_singleton_self i)
  have hcount := h i
  omega

/-- And it is there only for a handle. -/
theorem Balanced.shares_pos_iff (h : s.Balanced []) (i : Nat) :
    0 < s.shares i ↔ ∃ name, s.names.get? name = some i := by
  constructor
  · intro hpos
    rw [h i, Table.total_singleton, List.count_nil, Nat.add_zero, List.count_pos_iff] at hpos
    obtain ⟨e, he, rfl⟩ := List.mem_map.1 hpos
    exact ⟨e.1, (s.names.get?_eq_some_iff e.1 e.2).2 he⟩
  · rintro ⟨name, hi⟩
    exact h.shares_pos hi

/-- A share is given back; the last one hands the callable over, and its label is recorded. -/
theorem release_eq (s : Store C) (i : Nat) :
    s.release i = { s with
      callables := (s.callables.release i).2
      dropped := (s.callables.release i).1.toList.map C.label ++ s.dropped } := by
  unfold release
  split
  · next callables hr => rw [hr]; rfl
  · next c callables hr => rw [hr]; rfl

theorem Balanced.release {i : Nat} (h : s.Balanced (i :: held)) : (s.release i).Balanced held := by
  rw [release_eq]
  exact fun j => Pool.count_release_cons held j (h j)

/-- A name takes a share over; what it stood for before gives its own back. -/
theorem Balanced.bind {name : String} {i : Nat} (h : s.Balanced (i :: held)) :
    (s.bind name i).Balanced held := by
  have hbound : ({ s with names := s.names.insert name i } : Store C).Balanced
      ((s.names.get? name).toList.flatMap (fun j => [j]) ++ held) := by
    intro j
    have hold : s.shares j = _ + ([i] ++ held).count j := h j
    have hover := s.names.count_insert_over (fun i => [i]) name i j
    rw [List.count_append] at hold ⊢
    show s.shares j = _
    dsimp only
    omega
  unfold Store.bind
  cases hget : s.names.get? name with
  | none =>
    rw [hget] at hbound
    exact hbound
  | some old =>
    rw [hget] at hbound
    exact hbound.release

theorem Balanced.create (h : s.Balanced []) (name : String) (c : C.Payload) :
    (s.create name c).Balanced [] := by
  have hopen : ({ s with callables := (s.callables.alloc c).2 } : Store C).Balanced
      [s.callables.nextId] := by
    intro i
    have hold := h i
    show (s.callables.alloc c).2.count i = _
    rw [Pool.count_alloc_cons]
    exact congrArg (· + _) hold
  exact hopen.bind

theorem Balanced.clone (h : s.Balanced []) {i : Nat} (hi : 0 < s.shares i) (name : String) :
    (s.clone i name).Balanced [] := by
  have hopen : ({ s with callables := s.callables.retain i } : Store C).Balanced [i] := by
    intro j
    have hold := h j
    show (s.callables.retain i).count j = _
    rw [Pool.count_retain_cons hi]
    exact congrArg (· + _) hold
  exact hopen.bind

theorem Balanced.drop (h : s.Balanced []) (name : String) : (s.drop name).Balanced [] := by
  unfold Store.drop
  cases hi : s.names.get? name with
  | none => exact h
  | some i =>
    have hopen : ({ s with names := s.names.erase name } : Store C).Balanced [i] := by
      intro j
      have hold := h j
      have herase := s.names.total_erase (fun i => [i].count j) hi
      rw [List.count_nil] at hold
      show s.shares j = _
      dsimp only at herase ⊢
      omega
    exact hopen.release

/-! ## What a step leaves alone -/

theorem names_release (s : Store C) (i : Nat) : (s.release i).names = s.names := by rw [release_eq]

theorem names_bind (s : Store C) (name : String) (i : Nat) :
    (s.bind name i).names = s.names.insert name i := by
  unfold bind
  cases s.names.get? name with
  | none => rfl
  | some old => exact names_release _ old

theorem names_create (s : Store C) (name : String) (c : C.Payload) :
    (s.create name c).names = s.names.insert name s.callables.nextId :=
  names_bind _ name _

/-- `t` is `s` with other names, and with one share given back, or none. -/
inductive GivesBack (s : Store C) : Store C → Prop
  | none (names : Table String Nat) : GivesBack s { s with names }
  | share (names : Table String Nat) (old : Nat) : GivesBack s ({ s with names }.release old)

theorem givesBack_bind (s : Store C) (name : String) (i : Nat) : s.GivesBack (s.bind name i) := by
  unfold bind
  cases s.names.get? name with
  | none => exact .none _
  | some old => exact .share _ old

theorem givesBack_drop (s : Store C) (name : String) : s.GivesBack (s.drop name) := by
  unfold drop
  cases s.names.get? name with
  | none => exact .none s.names
  | some i => exact .share _ i

theorem GivesBack.nextId (h : s.GivesBack t) : t.callables.nextId = s.callables.nextId := by
  cases h with
  | none names => rfl
  | share names old =>
    rw [release_eq]
    exact s.callables.nextId_release old

/-- Nothing comes when a share is given back. -/
theorem GivesBack.isSome (h : s.GivesBack t) {j : Nat} (hj : (t.callables.get? j).isSome) :
    (s.callables.get? j).isSome := by
  cases h with
  | none names => exact hj
  | share names old =>
    rw [release_eq] at hj
    have hsome : ((s.callables.release old).2.get? j).isSome = true := hj
    rw [Pool.get?_release] at hsome
    split at hsome
    · exact nomatch hsome
    · exact hsome

/-- `t` has every allocation but `i` as `s` has it: its count, its callable, and the callable's state. -/
def Spares (s : Store C) (i : Nat) (t : Store C) : Prop :=
  ∀ j, j ≠ i → t.shares j = s.shares j ∧ t.callables.get? j = s.callables.get? j

theorem spares_release (s : Store C) (i : Nat) : s.Spares i (s.release i) := by
  intro j hj
  rw [release_eq]
  constructor
  · exact (s.callables.count_release i j).trans (if_neg (Ne.symm hj))
  · exact (s.callables.get?_release i j).trans (if_neg fun h => hj h.1.symm)

/-- A handle that is dropped does nothing to other allocations. -/
theorem spares_drop {name : String} {i : Nat} (h : s.names.get? name = some i) :
    s.Spares i (s.drop name) := by
  unfold drop
  rw [h]
  exact spares_release { s with names := s.names.erase name } i

/-- Nor does one whose name is taken over. -/
theorem spares_bind {name : String} {i : Nat} (h : s.names.get? name = some i) (new : Nat) :
    s.Spares i (s.bind name new) := by
  unfold bind
  rw [h]
  exact spares_release { s with names := s.names.insert name new } i

end Store

/-! ## What a step can do -/

/-- The step makes no handle and drops none. -/
def Step.Idle (s : Store C) : Step C → Prop
  | .create _ callable => callable = none
  | .use name (.clone _) | .use name .drop => s.names.get? name = none
  | _ => True

/-- What a step does to the store. -/
inductive Step.Does (s : Store C) : Step C → Store C → Prop
  | create (name : String) (c : C.Payload) : Does s (.create name (some c)) (s.create name c)
  | clone (name as : String) (i : Nat) (there : s.names.get? name = some i) :
    Does s (.use name (.clone as)) (s.clone i as)
  | drop (name : String) (i : Nat) (there : s.names.get? name = some i) :
    Does s (.use name .drop) (s.drop name)
  | told : Does s .dropped { s with dropped := [] }
  | invoke (name : String) (arg : Option Int64) (i : Nat) (c : C.Payload) :
    Does s (.use name (.invoke arg)) { s with callables := s.callables.modify i fun _ => c }
  | idle {step : Step C} (h : step.Idle s) : Does s step s

/-- Every step does one of these things. -/
theorem Step.does (s : Store C) (step : Step C) : step.Does s (step.next s) := by
  cases step with
  | create name callable =>
    cases callable with
    | none => exact .idle rfl
    | some c => exact .create name c
  | dropped => exact .told
  | use name action =>
    cases hi : s.names.get? name with
    | none =>
      have hnext : Step.next s (.use name action) = s := by
        rw [Step.next, Step.run, hi]
        rfl
      rw [hnext]
      refine .idle ?_
      cases action <;> trivial
    | some i =>
      have hnext : Step.next s (.use name action) =
          match action.run s name i with
          | .ok e => e.store
          | .error _ => s := by
        rw [Step.next, Step.run, hi]
        rfl
      rw [hnext]
      cases action with
      | clone as => exact .clone name as i hi
      | drop => exact .drop name i hi
      | invoke arg =>
        cases arg with
        | none => exact .idle trivial
        | some v =>
          show Step.Does s _ (s.invoke i v).2
          unfold Store.invoke
          cases s.callables.get? i with
          | none => exact .idle trivial
          | some c => exact .invoke name v i _
      | shares => exact .idle trivial
      | typeName => exact .idle trivial
      | ask question other =>
        have hasked : (match Action.run s name i (.ask question other) with
            | .ok e => e.store
            | .error _ => s) = s := by
          rw [Action.run]
          cases s.names.get? other with
          | none => rfl
          | some j => cases question <;> rfl
        rw [hasked]
        exact .idle trivial

theorem Step.Does.balanced {s t : Store C} {step : Step C} (h : step.Does s t)
    (hs : s.Balanced []) : t.Balanced [] := by
  cases h with
  | create name c => exact hs.create name c
  | clone name as i there => exact hs.clone (hs.shares_pos there) as
  | drop name i there => exact hs.drop name
  | told => exact hs
  | invoke name arg i c => exact fun j => (s.callables.count_modify i j _).trans (hs j)
  | idle => exact hs

/-! ## The lineage of handles -/

/-- Which `create` each handle goes back to, after a step that is the one numbered `time`. -/
def Step.descend (time : Nat) (o : Table String Nat) : Step C → Table String Nat
  | .create name (some _) => o.insert name time
  | .use name (.clone as) => (o.get? name).elim o (o.insert as)
  | .use name .drop => o.erase name
  | _ => o

/-- Which step each handle goes back to, after steps that are numbered from `time` on. -/
def lineage (time : Nat) (o : Table String Nat) : List (Step C) → Table String Nat
  | [] => o
  | step :: rest => lineage (time + 1) (step.descend time o) rest

theorem lineage_append (time : Nat) (o : Table String Nat) (steps more : List (Step C)) :
    lineage time o (steps ++ more) = lineage (time + steps.length) (lineage time o steps) more := by
  induction steps generalizing time o with
  | nil => rfl
  | cons step rest ih =>
    rw [List.cons_append, lineage, lineage, ih, List.length_cons, Nat.add_assoc, Nat.add_comm 1]

/-- Allocations go with families: `birth` has the step at which each one was made. -/
structure Store.Traces (s : Store C) (time : Nat) (o : Table String Nat) (birth : Nat → Nat) : Prop where
  names : o = s.names.mapValues birth
  before : ∀ i, i < s.callables.nextId → birth i < time
  apart : ∀ i j, i < s.callables.nextId → j < s.callables.nextId → birth i = birth j → i = j

namespace Store

variable {s t : Store C} {o : Table String Nat} {time : Nat} {birth : Nat → Nat}

theorem Balanced.lt_nextId (h : s.Balanced []) {name : String} {i : Nat}
    (hi : s.names.get? name = some i) : i < s.callables.nextId := by
  by_contra hle
  have hsome := (s.callables.count_pos_iff i).1 (h.shares_pos hi)
  rw [s.callables.get?_of_le (Nat.le_of_not_lt hle)] at hsome
  exact nomatch hsome

theorem traces_nil : ({} : Store C).Traces 0 {} id :=
  ⟨rfl, fun _ hi => absurd hi (Nat.not_lt_zero _), fun _ _ hi => absurd hi (Nat.not_lt_zero _)⟩

/-- Which family a handle is of. -/
theorem Traces.get? (h : s.Traces time o birth) (name : String) :
    o.get? name = (s.names.get? name).map birth := by
  rw [h.names, Table.get?_mapValues]

/-- Time goes by. -/
theorem Traces.later (h : s.Traces time o birth) (hcallables : t.callables.nextId = s.callables.nextId)
    {o' : Table String Nat} (hnames : o' = t.names.mapValues birth) :
    t.Traces (time + 1) o' birth := by
  refine ⟨hnames, fun i hi => ?_, fun i j hi hj => ?_⟩
  · rw [hcallables] at hi
    exact Nat.lt_succ_of_lt (h.before i hi)
  · rw [hcallables] at hi hj
    exact h.apart i j hi hj

theorem names_drop {name : String} {i : Nat} (h : s.names.get? name = some i) :
    (s.drop name).names = s.names.erase name := by
  unfold drop
  rw [h]
  exact names_release _ i

/-- A new allocation is the first of a new family. -/
theorem Traces.create (h : s.Traces time o birth) (hs : s.Balanced []) (name : String)
    (c : C.Payload) :
    (s.create name c).Traces (time + 1) (o.insert name time)
      fun i => if i = s.callables.nextId then time else birth i := by
  have hnext : (s.create name c).callables.nextId = s.callables.nextId + 1 :=
    (givesBack_bind _ name _).nextId
  refine ⟨?_, fun i hi => ?_, fun i j hi hj => ?_⟩
  · have hold : s.names.mapValues birth =
        s.names.mapValues fun i => if i = s.callables.nextId then time else birth i := by
      refine s.names.mapValues_congr fun n i hi => ?_
      rw [if_neg (Nat.ne_of_lt (hs.lt_nextId hi))]
    rw [names_create, Table.mapValues_insert, if_pos rfl, h.names, hold]
  · rw [hnext] at hi
    split
    · omega
    · have hbefore := h.before i (by omega)
      omega
  · rw [hnext] at hi hj
    -- no old allocation was made at this step
    split <;> split <;> intro hbirth
    · omega
    · have hbefore := h.before j (by omega)
      omega
    · have hbefore := h.before i (by omega)
      omega
    · exact h.apart i j (by omega) (by omega) hbirth

theorem Idle.descend {step : Step C} (h : step.Idle s) (ho : s.Traces time o birth) :
    step.descend time o = o := by
  cases step with
  | create name callable =>
    obtain rfl : callable = none := h
    rfl
  | dropped => rfl
  | use name action =>
    cases action with
    | clone as =>
      have hnone : o.get? name = none := by
        rw [ho.get? name, show s.names.get? name = none from h]
        rfl
      rw [Step.descend, hnone]
      rfl
    | drop =>
      refine o.erase_of_none ?_
      rw [ho.get? name, show s.names.get? name = none from h]
      rfl
    | _ => rfl

end Store

/-- One step: allocations go with families, old ones with the families they went with. -/
theorem Step.Does.traces {s t : Store C} {step : Step C} (h : step.Does s t) (hs : s.Balanced [])
    {time : Nat} {o : Table String Nat} {birth : Nat → Nat} (ho : s.Traces time o birth) :
    ∃ birth', t.Traces (time + 1) (step.descend time o) birth' ∧
      ∀ i, i < s.callables.nextId → birth' i = birth i := by
  cases h with
  | create name c =>
    refine ⟨_, ho.create hs name c, fun i hi => if_neg (Nat.ne_of_lt hi)⟩
  | clone name as i there =>
    have horigin : o.get? name = some (birth i) := by rw [ho.get? name, there]; rfl
    have hnames : (s.clone i as).names = s.names.insert as i := Store.names_bind _ as i
    have hnext : (s.clone i as).callables.nextId = s.callables.nextId :=
      (Store.givesBack_bind _ as i).nextId
    refine ⟨birth, ho.later hnext ?_, fun _ _ => rfl⟩
    rw [Step.descend, horigin, hnames, Table.mapValues_insert, ← ho.names]
    rfl
  | drop name i there =>
    refine ⟨birth, ho.later (s.givesBack_drop name).nextId ?_, fun _ _ => rfl⟩
    rw [Step.descend, Store.names_drop there, Table.mapValues_erase, ← ho.names]
  | told =>
    exact ⟨birth, ⟨ho.names, fun i hi => Nat.lt_succ_of_lt (ho.before i hi), ho.apart⟩,
      fun _ _ => rfl⟩
  | invoke name arg i c =>
    exact ⟨birth, ⟨ho.names, fun i hi => Nat.lt_succ_of_lt (ho.before i hi), ho.apart⟩,
      fun _ _ => rfl⟩
  | idle h =>
    rw [Store.Idle.descend h ho]
    exact ⟨birth, ho.later rfl ho.names, fun _ _ => rfl⟩

/-- Any steps. -/
theorem after_traces {s : Store C} (hs : s.Balanced []) {time : Nat} {o : Table String Nat}
    {birth : Nat → Nat} (ho : s.Traces time o birth) (steps : List (Step C)) :
    (after s steps).Balanced [] ∧
      ∃ birth', (after s steps).Traces (time + steps.length) (lineage time o steps) birth' := by
  induction steps generalizing s time o birth with
  | nil => exact ⟨hs, birth, ho⟩
  | cons step rest ih =>
    obtain ⟨birth', ho', -⟩ := (step.does s).traces hs ho
    rw [List.length_cons, Nat.add_comm rest.length, ← Nat.add_assoc]
    exact ih ((step.does s).balanced hs) ho'

/-! ## Families and allocations -/

/-- The store's counts and comparisons, told by families. -/
structure Store.Accounts (s : Store C) (o : Table String Nat) : Prop where
  live : ∀ name, (s.names.get? name).isSome = (o.get? name).isSome
  /-- An allocation counts as many shares as its family has handles. -/
  counted : ∀ name i k, s.names.get? name = some i → o.get? name = some k →
    s.shares i = o.values.count k
  /-- Handles have one allocation exactly if they are of one family. -/
  same : ∀ name name' i i' k k', s.names.get? name = some i → s.names.get? name' = some i' →
    o.get? name = some k → o.get? name' = some k' →
    (Question.sameAllocation.answer s i i' = true ↔ k = k')
  /-- They are equal then, whatever the rule says. -/
  equal : ∀ name name' i i' k, s.names.get? name = some i → s.names.get? name' = some i' →
    o.get? name = some k → o.get? name' = some k → Question.equals.answer s i i' = true

theorem Store.equals_self (s : Store C) (i : Nat) : s.equals i i = true := by
  unfold equals judgeWith
  rw [judge_self]

theorem Store.Traces.accounts {s : Store C} {time : Nat} {o : Table String Nat} {birth : Nat → Nat}
    (h : s.Traces time o birth) (hs : s.Balanced []) : s.Accounts o := by
  have horigin : ∀ {name i k}, s.names.get? name = some i → o.get? name = some k → birth i = k := by
    intro name i k hi hk
    rw [h.get? name, hi] at hk
    exact Option.some.inj hk
  have hsame : ∀ {name name' i i' k k'}, s.names.get? name = some i → s.names.get? name' = some i' →
      o.get? name = some k → o.get? name' = some k' → (i = i' ↔ k = k') := by
    intro name name' i i' k k' hi hi' hk hk'
    rw [← horigin hi hk, ← horigin hi' hk']
    exact ⟨congrArg birth, h.apart i i' (hs.lt_nextId hi) (hs.lt_nextId hi')⟩
  constructor
  · intro name
    rw [h.get? name, Option.isSome_map]
  · intro name i k hi hk
    have hvalues : o.values = s.names.values.map birth := by
      rw [h.names]
      simp [Table.values, Table.mapValues, Table.map]
    rw [hs i, Table.total_singleton, List.count_nil, Nat.add_zero, hvalues, ← horigin hi hk,
      List.count, List.count, List.countP_map]
    -- no other allocation that is named was made at the same step
    refine List.countP_congr fun j hj => ?_
    obtain ⟨e, he, rfl⟩ := List.mem_map.1 hj
    have hlt := hs.lt_nextId ((s.names.get?_eq_some_iff e.1 e.2).2 he)
    show (e.2 == i) = true ↔ (birth e.2 == birth i) = true
    rw [beq_iff_eq, beq_iff_eq]
    exact ⟨congrArg birth, h.apart e.2 i hlt (hs.lt_nextId hi)⟩
  · intro name name' i i' k k' hi hi' hk hk'
    show decide (i = i') = true ↔ k = k'
    rw [decide_eq_true_eq]
    exact hsame hi hi' hk hk'
  · intro name name' i i' k hi hi' hk hk'
    obtain rfl := (hsame hi hi' hk hk').2 rfl
    exact s.equals_self i

end Relay.Shared
