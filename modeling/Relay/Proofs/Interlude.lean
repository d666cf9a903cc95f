/-
  The FUNCTION of a simple listener, while it runs.

  A simple listener runs its function without an event, and then goes on with the chain itself.  A
  run is watched here for three things: which listeners dispatches start, which functions simple
  listeners start, and which arguments are handed to a chain.  A function is `Harmless` if it comes
  to an answer that is no fault, and if by then nothing has changed that the other listeners could
  tell: it has not touched a chain, nor an event or a handle on a chain, nor what they know of the
  program's memory.
-/
import Relay.Proofs.Manner
import Relay.Proofs.Segment

namespace Relay

variable {H : Host}

/-! ## What a run is watched for -/

/-- The argument that a request hands to a chain. -/
def Request.handed? {T : Vocabulary} : Request T → Option T.Arg
  | .call _ arg | .next _ arg => some arg
  | _ => none

/-- A listener is being run, through a slot or because an event was given to it. -/
def Mode.listens : Mode H → Bool
  | .invoke entry _ event _ => entry.isSome || event.isSome
  | _ => false

/-- The function that is being run without an event. -/
def Mode.plain? : Mode H → Option (Fn × H.Arg)
  | .invoke none f none arg => some (f, arg)
  | _ => none

theorem Mode.call?_of_listens {m : Mode H} (h : m.listens = false) : m.call? = none := by
  cases m with
  | invoke entry f event arg =>
    cases entry with
    | none => rfl
    | some e => exact absurd h (by simp [listens])
  | _ => rfl

/-- What a run was watched for. -/
structure Log (H : Host) where
  /-- The listeners that dispatches have started, each with what it is run on. -/
  calls : List (Fn × H.Arg)
  /-- The functions that simple listeners have started. -/
  lent : List (Fn × H.Arg)
  /-- The arguments that calls and `next` have handed to a chain. -/
  passed : List H.Arg

namespace State

/-- What the coming step hands to a chain. -/
def handed? (s : State H) : Option H.Arg := s.asking.bind fun e => e.1.handed?

/-- A request hands over what it says. -/
theorem Asks.handed?_eq {s : State H} {rq : Request H.toVocabulary} {below : List (Frame H)}
    (h : s.Asks rq below) : s.handed? = rq.handed? := by
  unfold handed?
  rw [h.asking_eq]
  rfl

/-- The function that a simple listener starts in the coming step: the frame that waits for it has
    been pushed. -/
def lends? (s : State H) : Option (Fn × H.Arg) :=
  match s.step.frames with
  | .afterSimple _ _ :: below => if below.length = s.frames.length then s.step.mode.plain? else none
  | _ => none

/-- What was handed to chains in the first `n` steps. -/
def passed (s : State H) (n : Nat) : List H.Arg := (List.range n).filterMap fun k => (s.after k).handed?

/-- The functions that simple listeners have started in the first `n` steps, each with what it is run
    on. -/
def lent (s : State H) (n : Nat) : List (Fn × H.Arg) :=
  (List.range n).filterMap fun k => (s.after k).lends?

def log (s : State H) (n : Nat) : Log H := ⟨s.calls n, s.lent n, s.passed n⟩

theorem log_succ (s : State H) (n : Nat) :
    s.log (n + 1) = ⟨s.calls n ++ (s.after n).step.mode.call?.toList,
      s.lent n ++ (s.after n).lends?.toList, s.passed n ++ (s.after n).handed?.toList⟩ := by
  have hlast {α : Type} (what : Nat → Option α) :
      (List.range (n + 1)).filterMap what = (List.range n).filterMap what ++ (what n).toList := by
    rw [List.range_succ, List.filterMap_append]
    cases hw : what n <;> simp [hw]
  rw [log, calls, lent, passed, hlast, hlast, hlast]
  rfl

/-- A step in which there is nothing to be seen. -/
structure Quiet (s : State H) : Prop where
  call : s.step.mode.call? = none
  lends : s.lends? = none
  handed : s.handed? = none

theorem Quiet.log_succ {s : State H} {n : Nat} (h : (s.after n).Quiet) : s.log (n + 1) = s.log n := by
  rw [State.log_succ, h.call, h.lends, h.handed]
  simp [log]

theorem lends?_of_plain {s : State H} (h : s.step.mode.plain? = none) : s.lends? = none := by
  unfold lends?
  split
  · split
    · exact h
    · rfl
  · rfl

/-! ## Who starts a function -/

/-- No function is being started under the frame of a simple listener. -/
def Unlent (s : State H) : Prop :=
  s.mode.plain? = none ∨ ∀ event arg below, s.frames ≠ .afterSimple event arg :: below

theorem CallOutcome.unlent {s t : State H} {c : ChainId} {arg : H.Arg} (ho : s.CallOutcome c arg t) :
    t.Unlent := by
  cases ho <;> exact .inl rfl

theorem NextOutcome.unlent {s t : State H} {event : Event} {arg : H.Arg}
    (ho : s.NextOutcome event arg t) : t.Unlent := by
  cases ho <;> exact .inl rfl

theorem compare_unlent (s : State H) (left right : Fn) : (s.compare left right).Unlent := by
  left
  unfold compare
  split
  · rfl
  · split
    · split <;> rfl
    · rfl

theorem search_unlent (s : State H) (c : ChainId) (probe : Fn)
    (snapshot remaining : List (SlotId × Fn)) : (s.search c probe snapshot remaining).Unlent := by
  cases remaining <;> exact .inl rfl

theorem detachFound_unlent (s : State H) (found : Search) : (s.detachFound found).Unlent := by
  left
  unfold detachFound
  dsimp only
  split
  · rfl
  · split <;> rfl

theorem link_unlent (s : State H) (c : ChainId) (listener : Fn) (placement : Placement) :
    (s.link c listener placement).Unlent := by
  left
  unfold link
  split <;> rfl

/-- A request may have a function run, but then it is the request that waits for it. -/
theorem ask_unlent (s : State H) (rq : Request H.toVocabulary) : (s.ask rq).Unlent := by
  cases rq with
  | makeEmpty | make | openChain | share | discard => exact .inl rfl
  | copy i | size c | kindOf i | finished i =>
    left
    simp only [ask]
    split <;> rfl
  | add c f placement =>
    simp only [ask]
    split
    · exact .inl rfl
    · exact link_unlent _ _ _ _
    · exact .inl rfl
  | addSimple c f placement =>
    simp only [ask]
    split
    · exact .inl rfl
    · exact link_unlent _ _ _ _
    · exact .inl rfl
  | remove c f | removeCurrent c f | removeSimple c f =>
    simp only [ask]
    split
    · exact search_unlent _ _ _ _ _
    · exact .inl rfl
  | removeNative c n =>
    simp only [ask]
    split
    · exact search_unlent _ _ _ _ _
    · exact .inl rfl
  | clear c =>
    simp only [ask]
    split <;> exact .inl rfl
  | call c arg =>
    simp only [ask]
    split
    · exact .inl rfl
    · exact (startCall_outcome _ _ _).unlent
  | next i arg =>
    simp only [ask]
    split
    · exact .inl rfl
    · exact (advance_outcome _ _ _).unlent
  | apply f arg =>
    simp only [ask]
    split
    · exact .inl rfl
    · refine .inr fun event arg below he => ?_
      exact absurd (List.cons.inj he).1 (by simp)
  | deliver f i arg guarded =>
    simp only [ask]
    split
    · split
      · exact .inl rfl
      · split <;> exact .inl rfl
    · exact .inl rfl
  | wrap c =>
    simp only [ask]
    split
    · split <;> exact .inl rfl
    · exact .inl rfl
  | same l r =>
    simp only [ask]
    split <;> exact .inl rfl

theorem takeTurn_unlent (s : State H) (code : H.Code) (owned : List Ref) (r : Reply H.toVocabulary) :
    (s.takeTurn code owned r).Unlent := by
  unfold takeTurn
  dsimp only
  split
  · exact .inl rfl
  · exact .inl rfl
  · exact ask_unlent _ _

theorem releaseNext_unlent (s : State H) (todo : List Ref) (r : Reply H.toVocabulary) :
    (s.releaseNext todo r).Unlent := by
  left
  unfold releaseNext
  split
  · rfl
  · dsimp only
    split <;> rfl

theorem hear_unlent (s : State H) (r : Reply H.toVocabulary) (f : Frame H) : (s.hear r f).Unlent := by
  cases f with
  | user code owned => exact takeTurn_unlent s code owned r
  | await held => exact .inl rfl
  | releasing todo answer =>
    rcases s.hear_releasing r todo answer with ⟨answer', -, hgoes⟩ | ⟨-, hstands⟩
    · rw [hgoes]
      exact releaseNext_unlent s todo answer'
    · rw [hstands]
      exact .inl rfl
  | afterSimple event arg =>
    simp only [hear]
    split
    · exact .inl rfl
    · exact (advance_outcome _ _ _).unlent
  | entering entry event arg =>
    simp only [hear]
    split <;> exact .inl rfl
  | searching found =>
    simp only [hear]
    split
    · exact detachFound_unlent _ _
    · exact .inl rfl
    · exact search_unlent _ _ _ _ _

/-- A function that is run without an event does not wait for another, and no frame is pushed for
    it that would. -/
theorem invoke_plain (s : State H) (f : Fn) (arg : H.Arg) :
    (s.invoke f none arg).Unlent ∨ (s.invoke f none arg).frames = s.frames := by
  unfold invoke
  split
  · exact .inl (.inl rfl)
  · split
    · rename_i he
      exact absurd he (by simp)
    · exact .inl (.inl rfl)
    · rename_i he
      exact absurd he (by simp)
    · exact .inr rfl
    · exact .inl (startCall_outcome _ _ _).unlent

/-- Who starts a function that way has been run as a listener. -/
theorem lends?_of_listens {s : State H} (h : s.mode.listens = false) : s.lends? = none := by
  have hunlent (hs : s.step.Unlent) : s.lends? = none := by
    rcases hs with hplain | hframes
    · exact lends?_of_plain hplain
    · unfold lends?
      split
      · rename_i hstep
        exact absurd hstep (hframes _ _ _)
      · rfl
  cases hmode : s.mode with
  | compare l r => exact hunlent (step_of_compare hmode ▸ compare_unlent s l r)
  | reply r =>
    cases hframes : s.frames with
    | nil => exact hunlent (.inr fun event arg below => by simp [step, hmode, hframes])
    | cons f below => exact hunlent (step_of_top hframes hmode ▸ hear_unlent _ r f)
  | invoke entry f event arg =>
    rw [hmode] at h
    cases event with
    | some e => exact absurd h (by simp [Mode.listens])
    | none =>
      rcases invoke_plain s f arg with hs | hs
      · exact hunlent (step_of_invoke hmode ▸ hs)
      · unfold lends?
        split
        · rename_i event' arg' below hstep
          -- the frame that waits would have to be one more
          rw [step_of_invoke hmode, hs] at hstep
          exact if_neg (by rw [hstep, List.length_cons]; omega)
        · rfl

end State

/-! ## Functions that do no harm -/

/-- A share in a chain, or in an event that has come along one. -/
def Ref.OfChain : Ref → Prop
  | .chain _ | .event _ => True
  | _ => False

theorem Heap.handles_release_handle {T : Vocabulary} (h : Heap T) (i : HandleId) :
    (h.release (.handle i)).2.handles = (h.handles.release i).2 := by
  unfold Heap.release
  dsimp only
  split <;> (rename_i hr; rw [hr])

/-- A handle on a chain or on an event is there as before, and has not lost a holder. -/
def Heap.SparesHandle {T : Vocabulary} (h g : Heap T) (i : HandleId) : Prop :=
  ∀ ref, h.handles.get? i = some ref → ref.OfChain →
    g.handles.get? i = some ref ∧ h.handles.count i ≤ g.handles.count i

/-- So are all such handles. -/
def Heap.Spares {T : Vocabulary} (h g : Heap T) : Prop := ∀ i, h.SparesHandle g i

namespace Heap.Spares

variable {T : Vocabulary} {h g k : Heap T}

theorem of_eq (he : g.handles = h.handles) : h.Spares g := by
  intro i ref hi _
  rw [he]
  exact ⟨hi, Nat.le_refl _⟩

theorem refl (h : Heap T) : h.Spares h := of_eq rfl

/-- A new handle takes the place of none. -/
theorem wrapUp (h : Heap T) (ref : Ref) : h.Spares (h.wrapUp ref).2 := by
  intro i ref' hi _
  have hne : h.handles.nextId ≠ i := by
    rintro rfl
    exact absurd (h.handles.get?_nextId.symm.trans hi) (by simp)
  show (h.handles.alloc ref).2.get? i = _ ∧ _ ≤ (h.handles.alloc ref).2.count i
  rw [Pool.get?_alloc, Pool.count_alloc, if_neg hne, if_neg hne]
  exact ⟨hi, Nat.le_refl _⟩

/-- One holder more. -/
theorem retain (h : Heap T) (j : HandleId) : h.Spares (h.retain (.handle j)) := by
  intro i ref hi _
  refine ⟨by rw [get?_handles_retain, hi], ?_⟩
  show _ ≤ (h.handles.retain j).count i
  rw [Pool.count_retain]
  split
  · exact Nat.le_succ _
  · exact Nat.le_refl _

theorem trans (hg : h.Spares g) (hk : g.Spares k) : h.Spares k := by
  intro i ref hi href
  obtain ⟨hi', hle⟩ := hg i ref hi href
  obtain ⟨hi'', hle'⟩ := hk i ref hi' href
  exact ⟨hi'', Nat.le_trans hle hle'⟩

/-- A handle that was not there before may be let go of. -/
theorem release_new (hg : h.Spares g) {j : HandleId} (hj : h.handles.get? j = none) :
    h.Spares (g.release (.handle j)).2 := by
  intro i ref hi href
  have hne : j ≠ i := by
    rintro rfl
    exact absurd (hj.symm.trans hi) (by simp)
  rw [handles_release_handle, Pool.get?_release, Pool.count_release, if_neg hne,
    if_neg fun he => hne he.1]
  exact hg i ref hi href

/-- So may a share of a handle that was taken in the meantime. -/
theorem release_held {j : HandleId} (hg : (h.retain (.handle j)).Spares g) :
    h.Spares (g.release (.handle j)).2 := by
  intro i ref hi href
  have hi' : (h.retain (.handle j)).handles.get? i = some ref := by rw [get?_handles_retain, hi]
  obtain ⟨hthere, hle⟩ := hg i ref hi' href
  have hcount : (h.retain (.handle j)).handles.count i =
      if j = i ∧ (h.handles.get? j).isSome then h.handles.count i + 1 else h.handles.count i :=
    Pool.count_retain _ _ _
  rw [handles_release_handle, Pool.get?_release, Pool.count_release]
  by_cases hji : j = i
  · subst hji
    have hpos : 0 < h.handles.count j := by
      rw [Pool.count_pos_iff, hi]
      rfl
    rw [if_pos ⟨rfl, by rw [hi]; rfl⟩] at hcount
    rw [if_pos rfl, if_neg fun he => by omega]
    exact ⟨hthere, by omega⟩
  · rw [if_neg fun he => hji he.1] at hcount
    rw [if_neg hji, if_neg fun he => hji he.1]
    exact ⟨hthere, hcount ▸ hle⟩

end Heap.Spares

/-- In `n` steps the function that is being run at `s` has come to an answer, and it has done no
    harm on the way. -/
structure Manner.Harmless (M : Manner H) (s : State H) (n : Nat) : Prop where
  /-- It has not failed. -/
  answers : ∃ r, (s.after n).mode = .reply r ∧ ∀ f, r ≠ .fault f
  returns : (s.after n).frames = s.frames
  above : ∀ k ≤ n, s.frames <:+ (s.after k).frames
  /-- It neither runs listeners nor hands anything to a chain. -/
  silent : ∀ k < n, (s.after (k + 1)).mode.listens = false ∧ (s.after k).handed? = none
  /-- Chains are as they were, and so are the places where dispatches stand. -/
  scene : (s.after n).heap.scene = s.heap.scene
  handles : s.heap.Spares (s.after n).heap
  sight : M.sight (s.after n).memory = M.sight s.memory

namespace State

/-- Nothing of a function that does no harm is to be seen in the log. -/
theorem log_harmless {M : Manner H} {s : State H} {k n : Nat} (h : M.Harmless (s.after k) n)
    (hplain : (s.after k).mode.listens = false) : s.log (k + n) = s.log k := by
  have hlistens : ∀ j ≤ n, ((s.after k).after j).mode.listens = false := by
    intro j hj
    cases j with
    | zero => exact hplain
    | succ j => exact (h.silent j hj).1
  have hall : ∀ j ≤ n, s.log (k + j) = s.log k := by
    intro j hj
    induction j with
    | zero => rfl
    | succ j ih =>
      have hquiet : (s.after (k + j)).Quiet := by
        rw [after_add]
        exact ⟨Mode.call?_of_listens (h.silent j hj).1,
          lends?_of_listens (hlistens j (Nat.le_of_succ_le hj)), (h.silent j hj).2⟩
      rw [← Nat.add_assoc, hquiet.log_succ]
      exact ih (Nat.le_of_succ_le hj)
  exact hall n (Nat.le_refl n)

end State

end Relay
