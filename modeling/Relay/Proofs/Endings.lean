/-
  Where callables end.

  A callable ends when the last handle on it is lost, dropped or written over, and its label is recorded
  then.  Told by families (`lineage`): the step that ends a callable is the one with which its family
  dies out (`Store.Settles`).  That a callable ends ONCE is a matter of numbers: every number is given
  out to a callable that is stored, and nothing comes back under an old one (`Store.Follows`), so over any
  steps what has been stored is what ended and what is still there (`ends_add`).
-/
import Relay.Proofs.Families

namespace Relay.Shared

variable {C : Callables}

/-! ## The end of a callable -/

/-- The callable of allocation `i` is stored before the step, and gone after it. -/
def Step.ends (s : Store C) (step : Step C) (i : Nat) : Bool :=
  (s.callables.get? i).isSome && ((step.next s).callables.get? i).isNone

/-- How many of the steps end the callable of allocation `i`. -/
def ends (s : Store C) (i : Nat) : List (Step C) → Nat
  | [] => 0
  | step :: rest => (if step.ends s i then 1 else 0) + ends (step.next s) i rest

/-- From `s` to `t` one callable ends and its label is recorded, or none does and nothing is. -/
inductive Store.Records (s t : Store C) : Prop
  | none (kept : ∀ i, (s.callables.get? i).isSome → (t.callables.get? i).isSome)
    (record : t.dropped = s.dropped)
  | one (i : Nat) (c : C.Payload) (there : s.callables.get? i = some c)
    (gone : t.callables.get? i = none)
    (kept : ∀ j, j ≠ i → (s.callables.get? j).isSome → (t.callables.get? j).isSome)
    (record : t.dropped = C.label c :: s.dropped)

namespace Store

variable {s t u : Store C}

/-- A share that is given back ends its callable, or nothing. -/
theorem GivesBack.records (h : s.GivesBack t) : s.Records t := by
  cases h with
  | none names => exact .none (fun _ h => h) rfl
  | share names old =>
    rw [release_eq]
    rcases s.callables.release_cases old with ⟨c, hc, hcount, hback, -⟩ | ⟨hback, hstored, -⟩
    · refine .one old c hc ?_ (fun j hj hsome => ?_) ?_
      · exact (s.callables.get?_release old old).trans (if_pos ⟨rfl, Nat.le_of_eq hcount⟩)
      · show ((s.callables.release old).2.get? j).isSome = true
        rw [Pool.get?_release, if_neg fun h => hj h.1.symm]
        exact hsome
      · show (s.callables.release old).1.toList.map C.label ++ s.dropped = _
        rw [hback]
        rfl
    · refine .none (fun i hsome => ?_) ?_
      · show ((s.callables.release old).2.get? i).isSome = true
        rw [← Pool.get?_stored, hstored, Pool.get?_stored]
        exact hsome
      · show (s.callables.release old).1.toList.map C.label ++ s.dropped = _
        rw [hback]
        rfl

/-- Before that, callables may come; what ends was stored before. -/
theorem Records.of_more (h : u.Records t) (hrecord : u.dropped = s.dropped)
    (hmore : ∀ i c, s.callables.get? i = some c → u.callables.get? i = some c)
    (hold : ∀ i, u.callables.get? i ≠ s.callables.get? i → (t.callables.get? i).isSome) :
    s.Records t := by
  have hkept : ∀ i, (s.callables.get? i).isSome → (u.callables.get? i).isSome := by
    intro i hsome
    obtain ⟨c, hc⟩ := Option.isSome_iff_exists.1 hsome
    rw [hmore i c hc]
    rfl
  cases h with
  | none kept record => exact .none (fun i hi => kept i (hkept i hi)) (record.trans hrecord)
  | one i c there gone kept record =>
    refine .one i c ?_ gone (fun j hj hsome => kept j hj (hkept j hsome)) (hrecord ▸ record)
    by_contra hne
    have hsome := hold i fun heq => hne (heq.symm.trans there)
    rw [gone] at hsome
    exact nomatch hsome

/-- What a name was given is there. -/
theorem Balanced.isSome (h : s.Balanced []) {name : String} {i : Nat}
    (hi : s.names.get? name = some i) : (s.callables.get? i).isSome :=
  (s.callables.count_pos_iff i).1 (h.shares_pos hi)

/-- Numbers are given out in order, to what is stored; nothing comes back under an old one. -/
structure Follows (s t : Store C) : Prop where
  old : ∀ i, i < s.callables.nextId → (t.callables.get? i).isSome → (s.callables.get? i).isSome
  new : t.callables.nextId = s.callables.nextId ∨
    t.callables.nextId = s.callables.nextId + 1 ∧ (t.callables.get? s.callables.nextId).isSome

end Store

theorem Step.Does.records {s t : Store C} {step : Step C} (h : step.Does s t) (hs : s.Balanced [])
    (hstep : step ≠ .dropped) : s.Records t := by
  have ht := h.balanced hs
  cases h with
  | create name c =>
    refine (Store.givesBack_bind _ name _).records.of_more rfl (fun i c' hi => ?_) fun i hi => ?_
    · have hne : s.callables.nextId ≠ i := by
        rintro rfl
        exact nomatch s.callables.get?_nextId.symm.trans hi
      exact (s.callables.get?_alloc c i).trans ((if_neg hne).trans hi)
    · -- what is new is there: it has a name
      have hnew : s.callables.nextId = i := by
        by_contra hne
        exact hi ((s.callables.get?_alloc c i).trans (if_neg hne))
      have hname : (s.create name c).names.get? name = some s.callables.nextId := by
        rw [Store.names_create, Table.get?_insert, if_pos rfl]
      exact hnew ▸ ht.isSome hname
  | clone name as i there =>
    refine (Store.givesBack_bind _ as i).records.of_more rfl (fun j c hj => ?_) fun j hj => absurd ?_ hj
    · exact (s.callables.get?_retain i j).trans hj
    · exact s.callables.get?_retain i j
  | drop name i there => exact (s.givesBack_drop name).records
  | told => exact absurd rfl hstep
  | invoke name arg i c =>
    refine .none (fun j hj => ?_) rfl
    show ((s.callables.modify i fun _ => c).get? j).isSome = true
    rw [Pool.get?_modify]
    split
    · rw [Option.isSome_map]
      exact hj
    · exact hj
  | idle => exact .none (fun _ hi => hi) rfl

theorem Step.Does.follows {s t : Store C} {step : Step C} (h : step.Does s t) (hs : s.Balanced []) :
    s.Follows t := by
  have ht := h.balanced hs
  cases h with
  | create name c =>
    refine ⟨fun i hi hsome => ?_, .inr ⟨(Store.givesBack_bind _ name _).nextId, ?_⟩⟩
    · have halloc : ((s.callables.alloc c).2.get? i).isSome = true := (Store.givesBack_bind _ _ _).isSome hsome
      rwa [Pool.get?_alloc, if_neg (Nat.ne_of_gt hi)] at halloc
    · have hname : (s.create name c).names.get? name = some s.callables.nextId := by
        rw [Store.names_create, Table.get?_insert, if_pos rfl]
      exact ht.isSome hname
  | clone name as i there =>
    refine ⟨fun j _ hsome => ?_, .inl (Store.givesBack_bind _ as i).nextId⟩
    have hretain : ((s.callables.retain i).get? j).isSome = true := (Store.givesBack_bind _ _ _).isSome hsome
    rwa [Pool.get?_retain] at hretain
  | drop name i there =>
    have hback := s.givesBack_drop name
    exact ⟨fun j _ hsome => hback.isSome hsome, .inl hback.nextId⟩
  | told => exact ⟨fun _ _ hsome => hsome, .inl rfl⟩
  | invoke name arg i c =>
    refine ⟨fun j _ hsome => ?_, .inl rfl⟩
    have hmodify : ((s.callables.modify i fun _ => c).get? j).isSome = true := hsome
    rw [Pool.get?_modify] at hmodify
    split at hmodify
    · rwa [Option.isSome_map] at hmodify
    · exact hmodify
  | idle => exact ⟨fun _ _ hsome => hsome, .inl rfl⟩

theorem Store.Follows.nextId_le {s t : Store C} (h : s.Follows t) :
    s.callables.nextId ≤ t.callables.nextId := by
  have hnew := h.new
  omega

theorem nextId_le_after {s : Store C} (hs : s.Balanced []) (steps : List (Step C)) :
    s.callables.nextId ≤ (after s steps).callables.nextId := by
  induction steps generalizing s with
  | nil => exact Nat.le_refl _
  | cons step rest ih =>
    exact Nat.le_trans ((step.does s).follows hs).nextId_le (ih ((step.does s).balanced hs))

/-- One step: what is stored afterwards was stored before, or is new, but for what ends. -/
theorem Step.ends_step {s : Store C} (hs : s.Balanced []) (step : Step C) (i : Nat) :
    (if step.ends s i then 1 else 0) + (if ((step.next s).callables.get? i).isSome then 1 else 0) =
      (if (s.callables.get? i).isSome then 1 else 0) +
        if s.callables.nextId ≤ i ∧ i < (step.next s).callables.nextId then 1 else 0 := by
  obtain ⟨hold, hnew⟩ := (step.does s).follows hs
  unfold Step.ends
  by_cases hi : i < s.callables.nextId
  · rw [if_neg fun h : s.callables.nextId ≤ i ∧ _ => Nat.not_lt_of_le h.1 hi]
    have hback := hold i hi
    cases hafter : (step.next s).callables.get? i with
    | none => cases s.callables.get? i <;> rfl
    | some c =>
      rw [hafter] at hback
      obtain ⟨b, hb⟩ := Option.isSome_iff_exists.1 (hback rfl)
      rw [hb]
      rfl
  · rw [s.callables.get?_of_le (Nat.le_of_not_lt hi)]
    show (if false = true then 1 else 0) + _ = (if false = true then 1 else 0) + _
    rw [if_neg Bool.false_ne_true, Nat.zero_add, Nat.zero_add]
    by_cases hlt : i < (step.next s).callables.nextId
    · -- the only new number is the next one, and it is in use
      obtain ⟨hnext, hsome⟩ := hnew.resolve_left fun h => hi (h ▸ hlt)
      obtain rfl : i = s.callables.nextId := by omega
      rw [if_pos hsome, if_pos ⟨Nat.le_refl _, hlt⟩]
    · rw [(step.next s).callables.get?_of_le (Nat.le_of_not_lt hlt)]
      exact (if_neg fun h : _ ∧ i < (step.next s).callables.nextId => hlt h.2).symm

/-- Any steps: every callable ends once, unless it is still stored. -/
theorem ends_add {s : Store C} (hs : s.Balanced []) (i : Nat) (steps : List (Step C)) :
    ends s i steps + (if ((after s steps).callables.get? i).isSome then 1 else 0) =
      (if (s.callables.get? i).isSome then 1 else 0) +
        if s.callables.nextId ≤ i ∧ i < (after s steps).callables.nextId then 1 else 0 := by
  induction steps generalizing s with
  | nil =>
    rw [if_neg fun h : s.callables.nextId ≤ i ∧ i < (after s []).callables.nextId =>
      Nat.not_lt_of_le h.1 h.2]
    exact Nat.add_comm _ _
  | cons step rest ih =>
    have ht := (step.does s).balanced hs
    have hstep := step.ends_step hs i
    have hrest := ih ht
    have hle := ((step.does s).follows hs).nextId_le
    have hle' := nextId_le_after ht rest
    rw [ends, after]
    -- a number is given out in the first step or in one of the others, not in both
    have hgiven : (if s.callables.nextId ≤ i ∧ i < (after (step.next s) rest).callables.nextId then 1
        else 0) = (if s.callables.nextId ≤ i ∧ i < (step.next s).callables.nextId then 1 else 0) +
        if (step.next s).callables.nextId ≤ i ∧ i < (after (step.next s) rest).callables.nextId then 1
        else 0 := by
      split <;> split <;> split <;> omega
    omega

/-- A callable ends at most once; it has ended exactly if it was made and no handle is left. -/
theorem ends_eq_one_iff (steps : List (Step C)) (i : Nat) :
    ends ({} : Store C) i steps ≤ 1 ∧ (ends ({} : Store C) i steps = 1 ↔
      i < (after ({} : Store C) steps).callables.nextId ∧
        ∀ name, (after ({} : Store C) steps).names.get? name ≠ some i) := by
  have hadd : ends ({} : Store C) i steps +
      (if ((after ({} : Store C) steps).callables.get? i).isSome then 1 else 0) =
        0 + if 0 ≤ i ∧ i < (after ({} : Store C) steps).callables.nextId then 1 else 0 :=
    ends_add Store.balanced_nil i steps
  have hs := (after_traces Store.balanced_nil (Store.traces_nil (C := C)) steps).1
  have hhandle := hs.shares_pos_iff i
  rw [Store.shares, Pool.count_pos_iff] at hhandle
  by_cases hsome : ((after ({} : Store C) steps).callables.get? i).isSome
  · obtain ⟨name, hi⟩ := hhandle.1 hsome
    rw [if_pos hsome] at hadd
    refine ⟨by split at hadd <;> omega, iff_of_false (by split at hadd <;> omega) ?_⟩
    rintro ⟨-, hnone⟩
    exact hnone name hi
  · have hnone : ∀ name, (after ({} : Store C) steps).names.get? name ≠ some i :=
      fun name hi => hsome (hhandle.2 ⟨name, hi⟩)
    rw [if_neg hsome] at hadd
    split at hadd
    · next hlt => exact ⟨by omega, iff_of_true (by omega) ⟨hlt.2, hnone⟩⟩
    · next hge =>
      refine ⟨by omega, iff_of_false (by omega) ?_⟩
      rintro ⟨hlt, -⟩
      exact hge ⟨Nat.zero_le i, hlt⟩

/-! ## The whole account -/

/-- The name that loses its handle to a step: the handle is dropped, or the name taken over. -/
def Step.drops? : Step C → Option String
  | .create name (some _) => some name
  | .use _ (.clone as) => some as
  | .use name .drop => some name
  | _ => none

/-- The allocation that a step makes another handle on. -/
def Step.clones? (s : Store C) : Step C → Option Nat
  | .use name (.clone _) => s.names.get? name
  | _ => none

/-- What a step makes of families, `o` before it and `o'` after it. -/
structure Store.Settles (s : Store C) (o : Table String Nat) (step : Step C) (o' : Table String Nat) :
    Prop where
  /-- A callable ends exactly if its family dies out. -/
  ends : ∀ name i k, s.names.get? name = some i → o.get? name = some k →
    (step.ends s i = true ↔ ∀ name', o'.get? name' ≠ some k)
  /-- One may end at a time, and it is recorded. -/
  records : step ≠ .dropped → s.Records (step.next s)
  /-- Where a handle is lost, other allocations keep their callables, the state of these, and their
      counts, but for the share of a handle that is cloned. -/
  spares : ∀ name i, step.drops? = some name → s.names.get? name = some i →
    ∀ j, j ≠ i → j < s.callables.nextId →
      (step.next s).callables.get? j = s.callables.get? j ∧
      (step.next s).shares j = s.shares j + if step.clones? s = some j then 1 else 0

theorem Step.Does.spares {s t : Store C} {step : Step C} (h : step.Does s t) (hs : s.Balanced [])
    {name : String} {i : Nat} (hname : step.drops? = some name) (hi : s.names.get? name = some i)
    {j : Nat} (hj : j ≠ i) (hlt : j < s.callables.nextId) :
    t.callables.get? j = s.callables.get? j ∧
      t.shares j = s.shares j + if step.clones? s = some j then 1 else 0 := by
  cases h with
  | create _ c =>
    obtain rfl := Option.some.inj hname
    obtain ⟨hshares, hget⟩ :=
      Store.spares_bind (s := { s with callables := (s.callables.alloc c).2 }) hi
        s.callables.nextId j hj
    constructor
    · exact hget.trans ((s.callables.get?_alloc c j).trans (if_neg (Nat.ne_of_gt hlt)))
    · exact hshares.trans ((s.callables.count_alloc c j).trans (if_neg (Nat.ne_of_gt hlt)))
  | clone source _ k there =>
    obtain rfl := Option.some.inj hname
    obtain ⟨hshares, hget⟩ :=
      Store.spares_bind (s := { s with callables := s.callables.retain k }) hi k j hj
    refine ⟨hget.trans (s.callables.get?_retain k j), hshares.trans ?_⟩
    have hretain : (s.callables.retain k).count j = s.callables.count j + if j = k then 1 else 0 :=
      Pool.count_retain_of_pos (hs.shares_pos there) j
    refine hretain.trans (congrArg _ (if_congr ?_ rfl rfl))
    show j = k ↔ s.names.get? source = some j
    rw [there, Option.some.injEq]
    exact eq_comm
  | drop _ k there =>
    obtain rfl := Option.some.inj hname
    obtain ⟨hshares, hget⟩ := Store.spares_drop hi j hj
    exact ⟨hget, hshares⟩
  | told | invoke => exact nomatch hname
  | idle h =>
    have hclones : step.clones? s = none := by
      cases step with
      | use source action => cases action <;> first | rfl | exact h
      | _ => rfl
    rw [hclones]
    exact ⟨rfl, (Nat.add_zero _).symm⟩

theorem Store.Traces.settles {s : Store C} {time : Nat} {o : Table String Nat} {birth : Nat → Nat}
    (h : s.Traces time o birth) (hs : s.Balanced []) (step : Step C) :
    s.Settles o step (step.descend time o) := by
  refine ⟨fun name i k hi hk => ?_, (step.does s).records hs,
    fun name i hname hi j hj hlt => (step.does s).spares hs hname hi hj hlt⟩
  have ht := (step.does s).balanced hs
  obtain ⟨birth', h', hbirth⟩ := (step.does s).traces hs h
  have hlt := hs.lt_nextId hi
  have hlt' := Nat.lt_of_lt_of_le hlt ((step.does s).follows hs).nextId_le
  obtain rfl : birth i = k := by
    rw [h.get? name, hi] at hk
    exact Option.some.inj hk
  have hgone : step.ends s i = true ↔ ¬∃ name', (step.next s).names.get? name' = some i := by
    rw [← ht.shares_pos_iff i, Store.shares, Pool.count_pos_iff, Step.ends, hs.isSome hi]
    cases (step.next s).callables.get? i <;> simp
  rw [hgone]
  constructor
  · intro hnone name' hname'
    rw [h'.get? name'] at hname'
    obtain ⟨j, hj, hsame⟩ := Option.map_eq_some_iff.1 hname'
    have hji := h'.apart j i (ht.lt_nextId hj) hlt' (hsame.trans (hbirth i hlt).symm)
    exact hnone ⟨name', hji ▸ hj⟩
  · rintro hnone ⟨name', hi'⟩
    refine hnone name' ?_
    rw [h'.get? name', hi', ← hbirth i hlt]
    rfl

/-- After any steps, handles are accounted for.  An allocation counts as many shares as its family has
    handles; handles have one allocation, and are equal then under any rule, exactly if they are of one
    family.  The next step ends a callable exactly if its family dies out with it, and records that; a
    handle that is lost in it leaves every other allocation alone.  So a callable ends ONCE, and not as
    long as there is a handle. -/
theorem handles_accounted (C : Callables) (steps : List (Step C)) :
    (after {} steps).Accounts (lineage 0 {} steps) ∧
    (∀ step, (after {} steps).Settles (lineage 0 {} steps) step (lineage 0 {} (steps ++ [step]))) ∧
    ∀ i, ends {} i steps ≤ 1 ∧ (ends {} i steps = 1 ↔ i < (after {} steps).callables.nextId ∧
      ∀ name, (after {} steps).names.get? name ≠ some i) := by
  obtain ⟨hs, birth, ho⟩ := after_traces Store.balanced_nil (Store.traces_nil (C := C)) steps
  refine ⟨ho.accounts hs, fun step => ?_, ends_eq_one_iff steps⟩
  rw [lineage_append]
  exact ho.settles hs step

/-- Two families, of `a` and of `d`; then a clone of a clone of `a` takes the name `d`. -/
def takenOver : List (Step samples) :=
  [ .create "a" (some ⟨.offset, .never, 1, "a", 0⟩), .use "a" (.clone "b"), .use "b" (.clone "c"),
    .create "d" (some ⟨.offset, .never, 1, "d", 0⟩), .use "a" .drop, .use "c" (.clone "d") ]

/-- There are three handles on what `a` stood for, and none on what `d` did: that callable has ended. -/
theorem handles_accounted_takenOver :
    (after {} takenOver).shares 0 = 3 ∧
      Question.equals.answer (after {} takenOver) 0 0 = true ∧
      ends {} 1 takenOver = 1 ∧ (∀ name, (after {} takenOver).names.get? name ≠ some 1) ∧
      (after {} takenOver).dropped = ["d"] := by
  obtain ⟨haccounts, -, hends⟩ := handles_accounted samples takenOver
  have hended : ends {} 1 takenOver = 1 := by decide +kernel
  refine ⟨(haccounts.counted "b" 0 0 ?_ ?_).trans ?_, haccounts.equal "b" "d" 0 0 0 ?_ ?_ ?_ ?_, hended,
    ((hends 1).2.1 hended).2, ?_⟩ <;> decide +kernel

end Relay.Shared
