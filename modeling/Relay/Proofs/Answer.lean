/-
  From a request to its answer.

  A request is answered when the stack is back to what it was when the program had asked, and a run
  may do anything in between.  Two things carry over the time in between.  The calls below the one
  that is working stay as they are (`suffix_step`).  And once the answer is decided, it is PENDING:
  somewhere on the stack a frame lets go of its shares and will then give it, and the frames from
  there down to the program only pass it on.  Destructors may run on top; the one thing they can do
  to what the program gets to hear is to unwind, and then it hears their fault (`Pending.step`).
-/
import Relay.Proofs.Run

namespace Relay

variable {H : Host}

/-! ## What is being heard -/

/-- The fault that is being heard. -/
def Mode.fault? : Mode H → Option Fault
  | .reply (.fault f) => some f
  | _ => none

theorem Mode.eq_of_fault? {m : Mode H} {f : Fault} (h : m.fault? = some f) :
    m = .reply (.fault f) := by
  unfold fault? at h
  split at h
  · rw [Option.some.inj h]
  · exact absurd h (by simp)

/-- The yes or no that is being heard. -/
def Mode.flag? : Mode H → Option Bool
  | .reply (.flag b) => some b
  | _ => none

theorem Mode.eq_of_flag? {m : Mode H} {b : Bool} (h : m.flag? = some b) : m = .reply (.flag b) := by
  unfold flag? at h
  split at h
  · rw [Option.some.inj h]
  · exact absurd h (by simp)

/-- The frame passes every answer on. -/
def Frame.passes : Frame H → Bool
  | .await _ => true
  | _ => false

namespace State

/-! ## Requests -/

/-- Code on top of the stack asks `rq` in the coming step, and `below` waits for the answer. -/
def Asks (s : State H) (rq : Request H.toVocabulary) (below : List (Frame H)) : Prop :=
  ∃ r code owned rest code', s.mode = .reply r ∧ s.frames = .user code owned :: rest ∧
    (H.resume code r s.memory).act = .request rq code' ∧ below = .user code' owned :: rest

/-- What is asked in the coming step, and who waits for the answer. -/
def asking (s : State H) : Option (Request H.toVocabulary × List (Frame H)) :=
  match s.mode, s.frames with
  | .reply r, .user code owned :: rest =>
    match (H.resume code r s.memory).act with
    | .request rq code' => some (rq, .user code' owned :: rest)
    | _ => none
  | _, _ => none

theorem asks_of_asking {s : State H} {rq : Request H.toVocabulary} {below : List (Frame H)}
    (h : s.asking = some (rq, below)) : s.Asks rq below := by
  unfold asking at h
  split at h
  · rename_i r code owned rest hmode hframes
    split at h
    · rename_i rq' code' hact
      obtain ⟨rfl, rfl⟩ := Prod.mk.inj (Option.some.inj h)
      exact ⟨r, code, owned, rest, code', hmode, hframes, hact, rfl⟩
    · exact absurd h (by simp)
  · exact absurd h (by simp)

theorem Asks.asking_eq {s : State H} {rq : Request H.toVocabulary} {below : List (Frame H)}
    (h : s.Asks rq below) : s.asking = some (rq, below) := by
  obtain ⟨r, code, owned, rest, code', hmode, hframes, hact, rfl⟩ := h
  unfold asking
  rw [hmode, hframes]
  dsimp only
  rw [hact]

/-- The request is asked with the heap as it is. -/
theorem Asks.exists_step {s : State H} {rq : Request H.toVocabulary} {below : List (Frame H)}
    (h : s.Asks rq below) :
    ∃ t : State H, t.heap = s.heap ∧ t.frames = below ∧ s.step = t.ask rq := by
  obtain ⟨r, code, owned, rest, code', hmode, hframes, hact, rfl⟩ := h
  obtain ⟨heap, memory, journal, frames, mode⟩ := s
  dsimp only at hmode hframes hact
  subst hmode hframes
  refine ⟨State.push { heap, frames := rest, mode := .reply r
                       memory := (H.resume code r memory).memory
                       journal := ((H.resume code r memory).said.map Note.said).reverse ++ journal }
    (.user code' owned), rfl, rfl, ?_⟩
  show takeTurn ⟨heap, memory, journal, rest, .reply r⟩ code owned r = _
  unfold takeTurn
  dsimp only
  rw [hact]

/-- After `n` steps, and not before, `below` hears the answer `r`. -/
structure Answered (s : State H) (below : List (Frame H)) (n : Nat) (r : Reply H.toVocabulary) :
    Prop where
  pos : 0 < n
  mode : (s.after n).mode = .reply r
  frames : (s.after n).frames = below
  first : ∀ j, 0 < j → j < n → (s.after j).frames ≠ below

/-- What is asked is answered once. -/
theorem Answered.unique {s : State H} {below : List (Frame H)} {m n : Nat}
    {r r' : Reply H.toVocabulary} (h : s.Answered below m r) (h' : s.Answered below n r') :
    m = n ∧ r = r' := by
  have hmn : m = n := by
    rcases Nat.lt_trichotomy m n with hlt | heq | hgt
    · exact absurd h.frames (h'.first m h.pos hlt)
    · exact heq
    · exact absurd h'.frames (h.first n h'.pos hgt)
  subst hmn
  exact ⟨rfl, Mode.reply.inj (h.mode.symm.trans h'.mode)⟩

/-! ## What stays on the stack -/

/-- The frame on top hears an answer. -/
theorem step_of_top {s : State H} {f : Frame H} {below : List (Frame H)} {r : Reply H.toVocabulary}
    (hframes : s.frames = f :: below) (hmode : s.mode = .reply r) :
    s.step = ({ s with frames := below } : State H).hear r f := by
  obtain ⟨heap, memory, journal, frames, mode⟩ := s
  dsimp only at hframes hmode
  subst hframes hmode
  rfl

theorem step_of_invoke {s : State H} {entry : Option Entry} {f : Fn} {event : Option Event}
    {arg : H.Arg} (hmode : s.mode = .invoke entry f event arg) : s.step = s.invoke f event arg := by
  unfold step
  rw [hmode]

theorem step_of_compare {s : State H} {left right : Fn} (hmode : s.mode = .compare left right) :
    s.step = s.compare left right := by
  unfold step
  rw [hmode]

/-- The calls that go on have been in progress. -/
theorem waiting_suffix (s : State H) : s.waiting <:+ s.frames := by
  unfold waiting
  split
  · exact List.tail_suffix _
  · exact List.suffix_rfl

/-- A frame goes on until it hears an answer. -/
theorem suffix_waiting {s : State H} {f : Frame H} {below : List (Frame H)}
    (h : f :: below <:+ s.frames) (hbusy : s.frames = f :: below → ∀ r, s.mode ≠ .reply r) :
    f :: below <:+ s.waiting := by
  unfold waiting
  split
  · rename_i r hr
    obtain ⟨above, habove⟩ := h
    cases above with
    | nil => exact absurd hr (hbusy habove.symm r)
    | cons g above => exact ⟨above, by rw [← habove]; rfl⟩
  · exact h

/-- What goes on stays where it is. -/
theorem waiting_suffix_step (s : State H) : s.waiting <:+ s.step.frames := by
  obtain ⟨deed, hdoes⟩ := s.step_does
  obtain ⟨pushed, hpushed, -⟩ := hdoes.entries
  rw [hpushed]
  exact List.suffix_append pushed s.waiting

/-- A frame stays where it is until it hears an answer. -/
theorem suffix_step {s : State H} {f : Frame H} {below : List (Frame H)}
    (h : f :: below <:+ s.frames) (hbusy : s.frames = f :: below → ∀ r, s.mode ≠ .reply r) :
    f :: below <:+ s.step.frames :=
  (suffix_waiting h hbusy).trans s.waiting_suffix_step

/-- As long as a request has not been answered, the code that asked waits. -/
theorem Asks.suffix_after {s : State H} {rq : Request H.toVocabulary} {below : List (Frame H)}
    (h : s.Asks rq below) {n : Nat} (hn : 0 < n)
    (hbusy : ∀ j, 0 < j → j < n → (s.after j).frames ≠ below) : below <:+ (s.after n).frames := by
  induction n with
  | zero => exact absurd hn (Nat.lt_irrefl 0)
  | succ n ih =>
    rcases Nat.eq_zero_or_pos n with rfl | hpos
    · obtain ⟨t, -, rfl, hstep⟩ := h.exists_step
      obtain ⟨deed, -, hdoes⟩ := t.ask_does rq
      obtain ⟨pushed, hpushed, -⟩ := hdoes.entries
      show t.frames <:+ s.step.frames
      rw [hstep, hpushed]
      exact List.suffix_append _ _
    · have hbelow := ih hpos fun j hj hjn => hbusy j hj (Nat.lt_succ_of_lt hjn)
      obtain ⟨r, code, owned, rest, code', -, -, -, rfl⟩ := h
      exact suffix_step hbelow fun he => absurd he (hbusy n hpos (Nat.lt_succ_self n))

/-- How high the stack is tells when a request has been answered. -/
theorem Asks.answered_of_length {s : State H} {rq : Request H.toVocabulary}
    {below : List (Frame H)} (h : s.Asks rq below) {n : Nat} {r : Reply H.toVocabulary} (hn : 0 < n)
    (hmode : (s.after n).mode = .reply r) (hlow : (s.after n).frames.length = s.frames.length)
    (hhigh : ∀ j < n, 0 < j → s.frames.length < (s.after j).frames.length) :
    s.Answered below n r := by
  have hlength : s.frames.length = below.length := by
    obtain ⟨r, code, owned, rest, code', -, hframes, -, rfl⟩ := h
    rw [hframes]
    rfl
  have hbusy : ∀ j, 0 < j → j < n → (s.after j).frames ≠ below := by
    rintro j hj hjn rfl
    exact absurd (hhigh j hjn hj) (hlength ▸ Nat.lt_irrefl _)
  have hsuffix := h.suffix_after hn hbusy
  exact ⟨hn, hmode, (hsuffix.eq_of_length (hlength.symm.trans hlow.symm)).symm, hbusy⟩

/-! ## Answers on their way -/

/-- Frames that pass every answer on. -/
def passers (held : List (List Ref)) : List (Frame H) := held.map .await

theorem passes_of_mem_passers {held : List (List Ref)} {f : Frame H} (h : f ∈ passers held) :
    f.passes = true := by
  obtain ⟨refs, -, rfl⟩ := List.mem_map.1 h
  rfl

/-- The answer `r` has been decided, and `below` will hear it; or the fault of a destructor that has
    unwound since. -/
inductive Pending (r : Reply H.toVocabulary) (below : List (Frame H)) (s : State H) : Prop
  /-- Some frame gives it as soon as it has let go of its shares. -/
  | leaving {r' : Reply H.toVocabulary} (hr : r.MayEndAs r') (todo : List Ref) (held : List (List Ref))
      (h : .releasing todo r' :: (passers held ++ below) <:+ s.frames)
  /-- It is being heard. -/
  | heard {r' : Reply H.toVocabulary} (hr : r.MayEndAs r') (held : List (List Ref))
      (hframes : s.frames = passers held ++ below) (hmode : s.mode = .reply r')

/-- What is to be let go of is on top; if nothing is left, the answer is heard. -/
theorem releaseNext_cases (s : State H) (todo : List Ref) (r : Reply H.toVocabulary) :
    (∃ todo', .releasing todo' r :: s.frames <:+ (s.releaseNext todo r).frames) ∨
      (s.releaseNext todo r = s.answer r) := by
  cases todo with
  | nil => exact .inr rfl
  | cons ref rest =>
    refine .inl ⟨(s.heap.release ref).1.refs ++ rest, ?_⟩
    unfold releaseNext
    dsimp only
    split
    · exact List.suffix_rfl
    · exact List.suffix_cons _ _

/-- Whatever a step does, it cannot change an answer that is pending, unless a destructor unwinds. -/
theorem Pending.step {r : Reply H.toVocabulary} {below : List (Frame H)} {s : State H}
    (h : Pending r below s) (hs : s.frames ≠ below) : Pending r below s.step := by
  cases h with
  | @leaving r' hr todo held h =>
    by_cases hbusy : s.frames = .releasing todo r' :: (passers held ++ below) →
        ∀ heard, s.mode ≠ .reply heard
    · exact .leaving hr todo held (suffix_step h hbusy)
    · push Not at hbusy
      obtain ⟨hframes, heard, hmode⟩ := hbusy
      let popped : State H := { s with frames := passers held ++ below }
      have hstep : s.step = popped.hear heard (.releasing todo r') := step_of_top hframes hmode
      rw [hstep]
      rcases popped.hear_releasing heard todo r' with ⟨r'', hjoined, hgoes⟩ | ⟨-, hstands⟩
      · have hr' := hr.trans (Reply.mayEndAs_of_joined hjoined)
        rw [hgoes]
        rcases popped.releaseNext_cases todo r'' with ⟨todo', htodo⟩ | hanswer
        · exact .leaving hr' todo' held htodo
        · exact .heard hr' held (congrArg State.frames hanswer) (congrArg State.mode hanswer)
      · rw [hstands]
        exact .leaving hr todo held List.suffix_rfl
  | heard hr held hframes hmode =>
    cases held with
    | nil => exact absurd hframes hs
    | cons first held =>
      obtain ⟨heap, memory, journal, frames, mode⟩ := s
      dsimp only at hframes hmode
      subst hframes hmode
      exact .leaving hr first held List.suffix_rfl

/-- It stays pending until it has been heard. -/
theorem Pending.after {r : Reply H.toVocabulary} {below : List (Frame H)} {s : State H} {n : Nat}
    (h : Pending r below s) (hbusy : ∀ j < n, (s.after j).frames ≠ below) :
    Pending r below (s.after n) := by
  induction n with
  | zero => exact h
  | succ n ih =>
    exact (ih fun j hj => hbusy j (Nat.lt_succ_of_lt hj)).step (hbusy n (Nat.lt_succ_self n))

/-- An answer that is heard is the one that was pending, or the fault of a destructor. -/
theorem Pending.mayEndAs {r r' : Reply H.toVocabulary} {below : List (Frame H)} {s : State H}
    (h : Pending r below s) (hframes : s.frames = below) (hmode : s.mode = .reply r') :
    r.MayEndAs r' := by
  cases h with
  | leaving hr todo held h =>
    have hlength := h.length_le
    rw [hframes, List.length_cons, List.length_append] at hlength
    omega
  | heard hr held _ hreply =>
    obtain rfl := Mode.reply.inj (hmode.symm.trans hreply)
    exact hr

end State

end Relay
