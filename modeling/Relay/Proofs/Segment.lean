/-
  Stretches of a run.

  `Leads` says where a run gets in a number of steps, and what it can be relied on for on the way:
  the calls that were in progress below stay in progress, and just these listeners are started.
  Stretches are put end to end, so a run is followed by following its parts.  `Returns` is the
  stretch in which a frame lets go of its shares and passes its answer on.
-/
import Relay.Proofs.Restore
import Relay.Proofs.Answer

namespace Relay

variable {H : Host}

/-- The listener that is being started through a slot, and what it is run on. -/
def Mode.call? : Mode H → Option (Fn × H.Arg)
  | .invoke (some _) f _ arg => some (f, arg)
  | _ => none

namespace State

/-- The listeners that dispatches start in the first `n` steps, each with what it is run on, in
    order. -/
def calls (s : State H) (n : Nat) : List (Fn × H.Arg) :=
  (List.range n).filterMap fun k => (s.after (k + 1)).mode.call?

/-- The first step apart. -/
theorem after_one_add (s : State H) (n : Nat) : s.after (1 + n) = s.step.after n := s.after_add 1 n

theorem calls_add (s : State H) (m n : Nat) :
    s.calls (m + n) = s.calls m ++ (s.after m).calls n := by
  unfold calls
  rw [List.range_add, List.filterMap_append, List.filterMap_map]
  refine congrArg _ (List.filterMap_congr fun k _ => ?_)
  rw [Function.comp_apply, Nat.add_assoc, after_add]

theorem calls_one (s : State H) : s.calls 1 = s.step.mode.call?.toList := by
  have hafter : s.after (0 + 1) = s.step := rfl
  show [0].filterMap (fun k => (s.after (k + 1)).mode.call?) = _
  rw [List.filterMap_cons, List.filterMap_nil, hafter]
  cases s.step.mode.call? <;> rfl

theorem calls_one_add (s : State H) (n : Nat) :
    s.calls (1 + n) = s.step.mode.call?.toList ++ s.step.calls n := by
  rw [calls_add, calls_one]
  rfl

/-- In `n` steps the run comes from `s` to `t`, above the calls in `under` all the while, and starts
    the listeners in `calls`. -/
structure Leads (under : List (Frame H)) (s : State H) (n : Nat) (t : State H)
    (calls : List (Fn × H.Arg)) : Prop where
  after : s.after n = t
  above : ∀ k ≤ n, under <:+ (s.after k).frames
  calls : s.calls n = calls

namespace Leads

variable {under : List (Frame H)} {s t u : State H} {m n : Nat} {cs ds : List (Fn × H.Arg)}

theorem refl (h : under <:+ s.frames) : Leads under s 0 s [] where
  after := rfl
  above := fun k hk => by
    rw [Nat.le_zero.1 hk]
    exact h
  calls := rfl

theorem trans (h : Leads under s m t cs) (h' : Leads under t n u ds) :
    Leads under s (m + n) u (cs ++ ds) where
  after := by rw [after_add, h.after, h'.after]
  above := fun k hk => by
    rcases Nat.le_total k m with hkm | hmk
    · exact h.above k hkm
    · obtain ⟨j, rfl⟩ := Nat.exists_eq_add_of_le hmk
      rw [after_add, h.after]
      exact h'.above j (Nat.le_of_add_le_add_left hk)
  calls := by rw [calls_add, h.calls, h.after, h'.calls]

/-- One step. -/
theorem one (hs : under <:+ s.frames) (hstep : s.step = t) (ht : under <:+ t.frames) :
    Leads under s 1 t t.mode.call?.toList where
  after := hstep
  above := fun k hk => by
    rcases Nat.le_one_iff_eq_zero_or_eq_one.1 hk with rfl | rfl
    · exact hs
    · show under <:+ s.step.frames
      rw [hstep]
      exact ht
  calls := by rw [calls_one, hstep]

theorem mono {under' : List (Frame H)} (h : Leads under s n t cs) (hu : under' <:+ under) :
    Leads under' s n t cs :=
  ⟨h.after, fun k hk => hu.trans (h.above k hk), h.calls⟩

end Leads

/-! ## Passing an answer on -/

/-- In `n` steps the frame above `under` comes to its end, and no listener is started. -/
structure Returns (under : List (Frame H)) (s : State H) (n : Nat) (t : State H) : Prop where
  after : s.after n = t
  frames : t.frames = under
  above : ∀ k < n, ∃ f, (s.after k).frames = f :: under
  calls : s.calls n = []

namespace Returns

variable {under : List (Frame H)} {s t u : State H} {n : Nat}

theorem leads (h : Returns under s n t) : Leads under s n t [] where
  after := h.after
  above := fun k hk => by
    rcases Nat.lt_or_eq_of_le hk with hlt | rfl
    · obtain ⟨f, hf⟩ := h.above k hlt
      exact hf ▸ List.suffix_cons f under
    · rw [h.after]
      exact h.frames ▸ List.suffix_rfl
  calls := h.calls

theorem one {f : Frame H} (hs : s.frames = f :: under) (hstep : s.step = t)
    (ht : t.frames = under) (hcall : t.mode.call? = none) : Returns under s 1 t where
  after := hstep
  frames := ht
  above := fun k hk => by
    rw [Nat.lt_one_iff.1 hk]
    exact ⟨f, hs⟩
  calls := by
    rw [calls_one, hstep, hcall]
    rfl

/-- One step before. -/
theorem step {f : Frame H} (hs : s.frames = f :: under) (hstep : s.step = t)
    (hcall : t.mode.call? = none) (h : Returns under t n u) : Returns under s (1 + n) u where
  after := by rw [after_one_add, hstep, h.after]
  frames := h.frames
  above := fun k hk => by
    cases k with
    | zero => exact ⟨f, hs⟩
    | succ k =>
      rw [Nat.add_comm k 1, after_one_add, hstep]
      exact h.above k (by omega)
  calls := by
    rw [calls_one_add, hstep, hcall, h.calls]
    rfl

end Returns

end State

open State

/-- A frame that lets go of shares comes to its end, and gives its answer. -/
theorem Heap.Drains.returns {h g : Heap H.toVocabulary} {refs : List Ref} (hd : h.Drains refs g)
    (memory : H.Memory) (journal : List (Note H.toVocabulary)) (under : List (Frame H))
    (r : Reply H.toVocabulary) :
    ∃ n, Returns under ⟨h, memory, journal, .releasing refs r :: under, .reply .done⟩ n
      ⟨g, memory, journal, under, .reply r⟩ := by
  induction hd with
  | nil h => exact ⟨1, .one rfl rfl rfl rfl⟩
  | @cons h g k ref rest refs hr hd ih =>
    obtain ⟨n, hn⟩ := ih
    refine ⟨1 + n, .step rfl ?_ rfl hn⟩
    show releaseNext ⟨h, memory, journal, under, .reply .done⟩ (ref :: rest) r = _
    unfold releaseNext
    dsimp only
    rw [hr]
    rfl

/-- A frame that waits for an answer lets go of what it holds, and passes the answer on. -/
theorem Heap.Drains.passes {h g : Heap H.toVocabulary} {held : List Ref} (hd : h.Drains held g)
    (memory : H.Memory) (journal : List (Note H.toVocabulary)) (under : List (Frame H))
    (r : Reply H.toVocabulary) :
    ∃ n, Returns under ⟨h, memory, journal, .await held :: under, .reply r⟩ n
      ⟨g, memory, journal, under, .reply r⟩ := by
  obtain ⟨n, hn⟩ := hd.returns memory journal under r
  exact ⟨1 + n, .step rfl rfl rfl hn⟩

end Relay
