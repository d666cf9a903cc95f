/-
  Runs, and how a property of chains and dispatches is proved of ALL of them.

  A run begins with one piece of code on the stack and with chains that nobody has used yet, and
  goes on step by step.  Nothing is known about the program: `H` is any host, and its code may ask
  for anything at any turn, inside listeners, comparisons and destructors alike.  Since every step
  does one deed (`step_does`), a property of scenes that no deed breaks holds in every reachable
  state (`Reachable.scene_induction`).
-/
import Relay.Proofs.StepDeed
import Relay.Script.Session

namespace Relay

/-! ## Beginnings -/

/-- `n` chains without listeners, each with a handle, and nothing else. -/
def Heap.opened {T : Vocabulary} : Nat → Heap T
  | 0 => {}
  | n + 1 =>
    let h : Heap T := opened n
    ({ h with chains := (h.chains.alloc {}).2 }.wrapUp (.chain (h.chains.alloc {}).1)).2

/-- New chains come about one by one. -/
theorem Heap.opened_change {T : Vocabulary} (n : Nat) :
    Change .opened (opened (T := T) n).scene (opened (T := T) (n + 1)).scene := by
  have hscene : (opened (T := T) (n + 1)).scene =
      { (opened (T := T) n).scene with
        chains := (opened (T := T) n).scene.chains.insert (opened (T := T) n).scene.nextChain {}
        nextChain := (opened (T := T) n).scene.nextChain + 1 } := by
    show (⟨((opened (T := T) n).chains.alloc {}).2.stored, _, _, _⟩ : Scene) = _
    rw [Pool.stored_alloc]
    rfl
  rw [hscene]
  exact .opened _

/-- No new chain has a listener. -/
theorem Heap.eq_empty_of_opened {T : Vocabulary} {n : Nat} {c : ChainId} {chain : Chain Fn}
    (hc : (opened (T := T) n).chains.get? c = some chain) : chain = {} := by
  induction n with
  | zero =>
    have hnone : (opened (T := T) 0).chains.get? c = none := rfl
    exact absurd (hnone.symm.trans hc) (by simp)
  | succ n ih =>
    rw [show (opened (T := T) (n + 1)).chains.get? c = _ from Pool.get?_alloc _ _ _] at hc
    split at hc
    · exact (Option.some.inj hc).symm
    · exact ih hc

variable {H : Host}

namespace State

/-- A program about to start, with handles on `n` new chains. -/
def begin (n : Nat) (code : H.Code) (memory : H.Memory) : State H :=
  { heap := Heap.opened n, memory, frames := [.user code []] }

/-- The state after `n` steps. -/
def after (s : State H) : Nat → State H
  | 0 => s
  | n + 1 => (s.after n).step

theorem after_succ (s : State H) (n : Nat) : s.after (n + 1) = (s.after n).step := rfl

theorem after_add (s : State H) (m n : Nat) : s.after (m + n) = (s.after m).after n := by
  induction n with
  | zero => rfl
  | succ n ih => rw [← Nat.add_assoc, after_succ, ih, after_succ]

/-- A run that stops when it has ended is one of its own stages. -/
theorem exists_run_eq_after (s : State H) (n : Nat) : ∃ k ≤ n, s.run n = s.after k := by
  induction n generalizing s with
  | zero => exact ⟨0, Nat.le_refl 0, rfl⟩
  | succ n ih =>
    rw [run]
    split
    · exact ⟨0, Nat.zero_le _, rfl⟩
    · obtain ⟨k, hk, hrun⟩ := ih s.step
      exact ⟨1 + k, by omega, by rw [hrun, after_add]; rfl⟩

end State

/-! ## Reachable states -/

/-- The states that some run comes through. -/
inductive Reachable : State H → Prop
  | begin (n : Nat) (code : H.Code) (memory : H.Memory) : Reachable (.begin n code memory)
  | step {s : State H} (hs : Reachable s) : Reachable s.step

namespace Reachable

theorem after {s : State H} (hs : Reachable s) (n : Nat) : Reachable (s.after n) := by
  induction n with
  | zero => exact hs
  | succ n ih => exact ih.step

theorem run {s : State H} (hs : Reachable s) (n : Nat) : Reachable (s.run n) := by
  obtain ⟨k, -, hrun⟩ := s.exists_run_eq_after n
  exact hrun ▸ hs.after k

/-- What is so where nothing is stored, and what no deed breaks, is so in every reachable state; it
    may be about all slots ever added, too. -/
theorem story_induction {P : Scene → List (ChainId × SlotId × Placement) → Prop}
    (hempty : P .empty [])
    (hchange : ∀ {deed v w as}, Change deed v w → P v as → P w (deed.additions ++ as)) {s : State H}
    (hs : Reachable s) : P s.heap.scene s.additions := by
  induction hs with
  | begin n code memory =>
    show P (Heap.opened n).scene []
    induction n with
    | zero => exact hempty
    | succ n ih => exact hchange (Heap.opened_change n) ih
  | step _ ih =>
    obtain ⟨deed, hstep⟩ := State.step_does _
    rw [hstep.additions]
    exact hchange hstep.change ih

theorem scene_induction {P : Scene → Prop} (hempty : P .empty)
    (hchange : ∀ {deed v w}, Change deed v w → P v → P w) {s : State H} (hs : Reachable s) :
    P s.heap.scene :=
  hs.story_induction (P := fun v _ => P v) hempty hchange

end Reachable

/-! ## Scripted programs -/

namespace Script

/-- A scripted program starts as every program does. -/
theorem reachable_start {V : Type} [DecidableEq V] [Argument V] (steps : Program V) :
    Reachable (start steps) :=
  .begin 1 _ _

/-- Listener `a` goes on twice; `b` removes itself, and when its callable ends, it removes `c`.
    That end comes LATE, when the dispatch has already moved on to `c`. -/
def lateRemoval : Program Unit :=
  [ .define "a" (.closure ⟨"a", [.next {} none false, .next {} none false], none⟩ false),
    .add "a" none (some .back),
    .define "b" (.closure ⟨"b", [.removeCurrent none none], some [.remove "c" none]⟩ false),
    .add "b" none (some .back),
    .drop .listeners "b",
    .define "c" (.closure ⟨"c", [.ret {}], none⟩ false),
    .add "c" none (some .back),
    .call ⟨.given (), .absent⟩ none false ]

end Script

end Relay
