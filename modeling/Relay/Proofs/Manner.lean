/-
  Listeners that do nothing but GO ON, and simple listeners between them.

  Nothing is known about a listener in general.  Here are those that use their argument, their own
  part of the program's memory, and `next` on the event they have received, as often as they like.
  A `Manner` describes such listeners without the library, and `Manner.play` runs them without it:
  on a list of the callables that are still to come, from which every `next` takes the first.

  Simple listeners have no place in that list.  They take their part in a chain, though, and
  `Heap.along` says which one: when arguments are handed to a chain one after the other, every other
  listener uses one up, and a simple listener is run on the next argument without using it up.
-/
import Relay.Proofs.Listing

namespace Relay

/-! ## Listeners that only go on -/

/-- How a turn of such a listener ends. -/
inductive Move (T : Vocabulary) (Part : Type) where
  | finish (r : Reply T)
  | pause (part : Part)
  /-- It calls `next` on its event. -/
  | goOn (arg : T.Arg) (part : Part)

/-- The turn as the program takes it, for a listener with its event in handle `i`. -/
def Move.act {T : Vocabulary} {Part κ : Type} (code : Part → κ) (i : HandleId) :
    Move T Part → Act T κ
  | .finish r => .finish r
  | .pause part => .pause (code part)
  | .goOn arg part => .request (.next i arg) (code part)

/-- The listeners of a program that only go on, and what they do. -/
structure Manner (H : Host) where
  /-- How far such a listener has come. -/
  Part : Type
  /-- What these listeners know of the program's memory. -/
  Sight : Type
  sight : H.Memory → Sight
  /-- The callable is such a listener. -/
  Keeps : H.Native → Prop
  start : H.Native → H.Arg → Part
  turn : Part → Reply H.toVocabulary → Sight → Sight × Move H.toVocabulary Part
  code : Part → HandleId → H.Code
  onCall : ∀ n i arg, Keeps n → H.onCall n (some i) arg = code (start n arg) i
  resume_sight : ∀ part i r memory,
    sight (H.resume (code part i) r memory).memory = (turn part r (sight memory)).1
  resume_act : ∀ part i r memory,
    (H.resume (code part i) r memory).act = (turn part r (sight memory)).2.act (code · i) i

namespace Manner

variable {H : Host} (M : Manner H)

/-- What running such listeners comes to; `passed` are the arguments that were handed on so far. -/
inductive Outcome where
  | done (r : Reply H.toVocabulary) (rest : List H.Native) (sight : M.Sight) (passed : List H.Arg)
  | timeout (passed : List H.Arg)

/-- How listeners are run: one that has come so far hears an answer, and these are still to come. -/
abbrev Runner :=
  M.Part → Reply H.toVocabulary → List H.Native → M.Sight → List H.Arg → M.Outcome

/-- Goes on with an answer, if there is one. -/
def Outcome.andThen {M : Manner H} (o : M.Outcome)
    (k : Reply H.toVocabulary → List H.Native → M.Sight → List H.Arg → M.Outcome) : M.Outcome :=
  match o with
  | .done r rest sight passed => k r rest sight passed
  | .timeout passed => .timeout passed

/-- Runs the first listener that is still to come, if there is one. -/
def pass (run : M.Runner) (arg : H.Arg) (rest : List H.Native) (sight : M.Sight)
    (passed : List H.Arg) : M.Outcome :=
  match rest with
  | [] => .done (.result none) [] sight passed
  | n :: rest => run (M.start n arg) .done rest sight passed

/-- Runs a listener, with fuel for that many turns in a row. -/
def play : Nat → M.Runner
  | 0, _, _, _, _, passed => .timeout passed
  | fuel + 1, part, r, rest, sight, passed =>
    let (sight, move) := M.turn part r sight
    match move with
    | .finish r => .done r rest sight passed
    | .pause part => play fuel part .done rest sight passed
    | .goOn arg part =>
      (M.pass (play fuel) arg rest sight (passed ++ [arg])).andThen (play fuel part)

end Manner

/-! ## Going along a chain -/

namespace Heap

variable {T : Vocabulary} (h : Heap T)

/-- The listeners of a chain, in dispatch order. -/
def listeners (c : ChainId) : List Fn := (h.listing c).map (·.2)

/-- The callable of the program's own in a function. -/
def native? (f : Fn) : Option T.Native :=
  (f.bind h.payloads.get?).bind fun load =>
    match load.body with
    | .native n _ => some n
    | _ => none

/-- The function that a simple listener runs. -/
def inner? (f : Fn) : Option Fn :=
  (f.bind h.payloads.get?).bind fun load =>
    match load.body with
    | .simple inner => some inner
    | _ => none

/-- The listeners that are run when these arguments are handed to a chain one after the other, each
    with what it is run on. -/
def along : List Fn → List T.Arg → List (Fn × T.Arg)
  | [], _ => []
  | _ :: _, [] => []
  | f :: fs, a :: as => (f, a) :: along fs (if (h.inner? f).isSome then a :: as else as)

/-- The listeners that are not reached then. -/
def ahead : List Fn → List T.Arg → List Fn
  | [], _ => []
  | f :: fs, [] => f :: fs
  | f :: fs, a :: as => ahead fs (if (h.inner? f).isSome then a :: as else as)

/-- The functions that simple listeners are to run, each on what the listener is run on. -/
def innerOf (cs : List (Fn × T.Arg)) : List (Fn × T.Arg) :=
  cs.filterMap fun e => (h.inner? e.1).map fun inner => (inner, e.2)

/-- The callables of the program's own that are run, each with what it is run on. -/
def nativeOf (cs : List (Fn × T.Arg)) : List (T.Native × T.Arg) :=
  cs.filterMap fun e => (h.native? e.1).map fun n => (n, e.2)

/-! ### One listener -/

variable {h} {f : Fn}

/-- A simple listener is not one of the program's own. -/
theorem native?_of_inner? {inner : Fn} (hf : h.inner? f = some inner) : h.native? f = none := by
  unfold inner? at hf
  unfold native?
  obtain ⟨load, hload, hbody⟩ := Option.bind_eq_some_iff.1 hf
  rw [hload, Option.bind_some]
  split at hbody
  · rename_i hsimple
    rw [hsimple]
  · exact absurd hbody (by simp)

theorem inner?_of_native? {n : T.Native} (hf : h.native? f = some n) : h.inner? f = none := by
  cases hinner : h.inner? f with
  | none => rfl
  | some inner => exact absurd ((native?_of_inner? hinner).symm.trans hf) (by simp)

/-- The payload of a callable of the program's own. -/
theorem exists_native {n : T.Native} (hf : h.native? f = some n) :
    ∃ p keeps rule, f = some p ∧ h.payloads.get? p = some ⟨.native n keeps, rule⟩ := by
  obtain ⟨load, hload, hbody⟩ := Option.bind_eq_some_iff.1 hf
  obtain ⟨p, rfl, hp⟩ := Option.bind_eq_some_iff.1 hload
  obtain ⟨body, rule⟩ := load
  cases body with
  | native m keeps =>
    obtain rfl : m = n := Option.some.inj hbody
    exact ⟨p, keeps, rule, rfl, hp⟩
  | _ => exact absurd hbody (by simp)

/-- The payload of a simple listener. -/
theorem exists_simple {inner : Fn} (hf : h.inner? f = some inner) :
    ∃ p rule, f = some p ∧ h.payloads.get? p = some ⟨.simple inner, rule⟩ := by
  obtain ⟨load, hload, hbody⟩ := Option.bind_eq_some_iff.1 hf
  obtain ⟨p, rfl, hp⟩ := Option.bind_eq_some_iff.1 hload
  obtain ⟨body, rule⟩ := load
  cases body with
  | simple g =>
    obtain rfl : g = inner := Option.some.inj hbody
    exact ⟨p, rule, rfl, hp⟩
  | _ => exact absurd hbody (by simp)

/-! ### Many arguments -/

@[simp] theorem along_nil (fs : List Fn) : h.along fs [] = [] := by
  cases fs <;> rfl

@[simp] theorem ahead_nil (fs : List Fn) : h.ahead fs [] = fs := by
  cases fs <;> rfl

theorem along_cons_native {fs : List Fn} {a : T.Arg} {as : List T.Arg} (hf : h.inner? f = none) :
    h.along (f :: fs) (a :: as) = (f, a) :: h.along fs as := by
  simp only [along, hf, Option.isSome_none, Bool.false_eq_true, if_false]

theorem along_cons_simple {fs : List Fn} {a : T.Arg} {as : List T.Arg} {inner : Fn}
    (hf : h.inner? f = some inner) :
    h.along (f :: fs) (a :: as) = (f, a) :: h.along fs (a :: as) := by
  simp only [along, hf, Option.isSome_some, if_true]

theorem ahead_cons_native {fs : List Fn} {a : T.Arg} {as : List T.Arg} (hf : h.inner? f = none) :
    h.ahead (f :: fs) (a :: as) = h.ahead fs as := by
  simp only [ahead, hf, Option.isSome_none, Bool.false_eq_true, if_false]

theorem ahead_cons_simple {fs : List Fn} {a : T.Arg} {as : List T.Arg} {inner : Fn}
    (hf : h.inner? f = some inner) : h.ahead (f :: fs) (a :: as) = h.ahead fs (a :: as) := by
  simp only [ahead, hf, Option.isSome_some, if_true]

/-- Arguments that come later go on from where the earlier ones have led. -/
theorem along_append (fs : List Fn) (as bs : List T.Arg) :
    h.along fs (as ++ bs) = h.along fs as ++ h.along (h.ahead fs as) bs := by
  induction fs generalizing as with
  | nil => rfl
  | cons f fs ih =>
    cases as with
    | nil => simp
    | cons a as =>
      cases hf : h.inner? f with
      | none => rw [List.cons_append, along_cons_native hf, along_cons_native hf,
          ahead_cons_native hf, ih, List.cons_append]
      | some inner => rw [List.cons_append, along_cons_simple hf, along_cons_simple hf,
          ahead_cons_simple hf, ← List.cons_append, ih, List.cons_append]

theorem ahead_append (fs : List Fn) (as bs : List T.Arg) :
    h.ahead fs (as ++ bs) = h.ahead (h.ahead fs as) bs := by
  induction fs generalizing as with
  | nil => rfl
  | cons f fs ih =>
    cases as with
    | nil => simp
    | cons a as =>
      cases hf : h.inner? f with
      | none => rw [List.cons_append, ahead_cons_native hf, ahead_cons_native hf, ih]
      | some inner =>
        rw [List.cons_append, ahead_cons_simple hf, ahead_cons_simple hf, ← List.cons_append, ih]

/-- Each listener that has been reached was run once, and the others are ahead. -/
theorem along_ahead (fs : List Fn) (as : List T.Arg) :
    (h.along fs as).map (·.1) ++ h.ahead fs as = fs := by
  induction fs generalizing as with
  | nil => rfl
  | cons f fs ih =>
    cases as with
    | nil => rfl
    | cons a as => exact congrArg (f :: ·) (ih _)

theorem ahead_suffix (fs : List Fn) (as : List T.Arg) : h.ahead fs as <:+ fs :=
  ⟨(h.along fs as).map (·.1), along_ahead fs as⟩

/-- Of the listeners of the program's own, each takes one of the arguments. -/
theorem nativeOf_along {fs : List Fn}
    (hfs : ∀ f ∈ fs, (h.native? f).isSome ∨ (h.inner? f).isSome) (as : List T.Arg) :
    h.nativeOf (h.along fs as) = (fs.filterMap h.native?).zip as := by
  induction fs generalizing as with
  | nil => rfl
  | cons f fs ih =>
    have hrest := ih fun g hg => hfs g (List.mem_cons_of_mem f hg)
    cases as with
    | nil => simp [nativeOf]
    | cons a as =>
      rcases hfs f List.mem_cons_self with hf | hf
      · obtain ⟨n, hn⟩ := Option.isSome_iff_exists.1 hf
        rw [along_cons_native (inner?_of_native? hn), List.filterMap_cons_some hn, List.zip_cons_cons,
          ← hrest, nativeOf, List.filterMap_cons_some (b := (n, a)) (by rw [hn]; rfl), nativeOf]
      · obtain ⟨inner, hinner⟩ := Option.isSome_iff_exists.1 hf
        have hn := native?_of_inner? hinner
        rw [along_cons_simple hinner, List.filterMap_cons_none hn, ← hrest, nativeOf,
          List.filterMap_cons_none (by rw [hn]; rfl), nativeOf]

end Heap

end Relay
