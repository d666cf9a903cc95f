/-
  Letting go comes to an END.

  A frame that lets go of shares brings more of them about: a payload hands on what it kept, a chain
  its listeners, a handle what it owned.  It ends all the same.  Either an owner has gone, and nothing
  gains one; or no owner has gone, and what is still to be let go of has become less.  So the frame
  gives its answer after some number of steps, unless on the way a callable ends that has a
  destructor, which is code of the program: it may take as long as it likes, and it may unwind.  So an
  answer that has been decided is a PROMISE, which only a destructor can break (`Promised.arrives`).
-/
import Relay.Proofs.Answer
import Relay.Proofs.Segment
import Relay.Proofs.Lifetime

namespace Relay

/-! ## The owners of everything -/

namespace Pool

variable {α : Type}

/-- The owners of all values, added up. -/
def owners (p : Pool α) : Nat := p.cells.total fun cell => cell.others + 1

theorem owners_modify (p : Pool α) (i : Nat) (f : α → α) : (p.modify i f).owners = p.owners :=
  p.cells.total_modify_same _ i _ fun _ => rfl

/-- Letting go takes one owner away, if there is one. -/
theorem release_owners (p : Pool α) (i : Nat) :
    (p.release i).2.owners + 1 = p.owners ∨ p.release i = (none, p) := by
  unfold release
  cases hc : p.cells.get? i with
  | none => exact .inr rfl
  | some cell =>
    obtain ⟨a, n⟩ := cell
    cases n with
    | zero => exact .inl (p.cells.total_erase _ hc)
    | succ n =>
      left
      have htotal := p.cells.total_modify (fun cell => cell.others + 1)
        (fun c => { c with others := n }) hc
      show (p.cells.modify i _).total _ + 1 = p.cells.total _
      dsimp only at htotal
      omega

end Pool

/-- How often a share has to be taken apart before none is left of it. -/
def Ref.bulk : Ref → Nat
  | .event _ => 3
  | _ => 1

theorem Ref.bulk_pos (ref : Ref) : 0 < ref.bulk := by
  cases ref <;> exact Nat.succ_pos _

namespace Heap

variable {T : Vocabulary}

/-- The owners of all that is stored, added up. -/
def owners (h : Heap T) : Nat :=
  h.payloads.owners + h.chains.owners + h.dispatches.owners + h.handles.owners

theorem owners_closeDispatch (h : Heap T) (d : Dispatch) :
    (h.closeDispatch d).2.owners = h.owners := by
  unfold closeDispatch
  split
  · simp only [owners, Pool.owners_modify]
  · rfl

/-- The share let go of is one in place `i` of pool `p`: an owner has gone, or nothing was there. -/
theorem release_owners_of {α : Type} {h : Heap T} {ref : Ref} (p : Pool α) (i : Nat)
    (hpool : (h.release ref).2.owners + p.owners = h.owners + (p.release i).2.owners)
    (hnothing : p.release i = (none, p) → (h.release ref).1.refs = []) :
    (h.release ref).2.owners < h.owners ∨
      (h.release ref).2.owners = h.owners ∧
        ((h.release ref).1.refs.map Ref.bulk).sum < ref.bulk := by
  rcases p.release_owners i with hgone | hsame
  · exact .inl (by omega)
  · rw [hsame] at hpool
    rw [hnothing hsame]
    exact .inr ⟨Nat.add_right_cancel hpool, ref.bulk_pos⟩

/-- An owner has gone; or what has become due is less than what was let go of. -/
theorem release_owners (h : Heap T) (ref : Ref) :
    (h.release ref).2.owners < h.owners ∨
      (h.release ref).2.owners = h.owners ∧
        ((h.release ref).1.refs.map Ref.bulk).sum < ref.bulk := by
  cases ref with
  | function f =>
    cases f with
    | none => exact .inr ⟨rfl, Nat.one_pos⟩
    | some p =>
      refine release_owners_of h.payloads p ?_ fun hsame => ?_
      · unfold release
        dsimp only
        split <;> (rename_i hr; rw [hr]; simp only [owners]; omega)
      · unfold release
        dsimp only
        rw [hsame]
  | chain c =>
    refine release_owners_of h.chains c ?_ fun hsame => ?_
    · unfold release
      dsimp only
      split <;> (rename_i hr; rw [hr]; simp only [owners]; omega)
    · unfold release
      dsimp only
      rw [hsame]
  | dispatch d =>
    refine release_owners_of h.dispatches d ?_ fun hsame => ?_
    · unfold release
      dsimp only
      split
      · rename_i hr
        rw [hr]
        simp only [owners]
        omega
      · rename_i hr
        rw [hr, owners_closeDispatch]
        simp only [owners]
        omega
    · unfold release
      dsimp only
      rw [hsame]
  | event e => exact .inr ⟨rfl, Nat.lt_succ_self 2⟩
  | handle i =>
    refine release_owners_of h.handles i ?_ fun hsame => ?_
    · unfold release
      dsimp only
      split <;> (rename_i hr; rw [hr]; simp only [owners]; omega)
    · unfold release
      dsimp only
      rw [hsame]

/-- The callable that goes, if one does, is the body of the payload that goes. -/
theorem dropped_of_release {h : Heap T} {ref : Ref} {n : T.Native}
    (hd : (h.release ref).1.dropped = some n) :
    ∃ p keeps rule, h.dropped ref = some p ∧ h.payloads.get? p = some ⟨.native n keeps, rule⟩ := by
  unfold release at hd
  cases ref with
  | function f =>
    cases f with
    | none => exact absurd hd (by simp)
    | some p =>
      dsimp only at hd
      rcases h.payloads.release_cases p with ⟨load, hload, hcount, hr, -⟩ | ⟨hr, -⟩
      · rw [show h.payloads.release p = (some load, (h.payloads.release p).2) from Prod.ext hr rfl]
          at hd
        obtain ⟨body, rule⟩ := load
        cases body with
        | native m keeps =>
          obtain rfl : m = n := Option.some.inj hd
          exact ⟨p, keeps, rule, by rw [dropped, if_pos hcount], hload⟩
        | simple inner => exact absurd hd (by simp)
        | chain c => exact absurd hd (by simp)
      · rw [show h.payloads.release p = (none, (h.payloads.release p).2) from Prod.ext hr rfl] at hd
        exact absurd hd (by simp)
  | chain c =>
    dsimp only at hd
    split at hd <;> exact absurd hd (by simp)
  | dispatch d =>
    dsimp only at hd
    split at hd
    · exact absurd hd (by simp)
    · unfold closeDispatch at hd
      split at hd <;> exact absurd hd (by simp)
  | event e => exact absurd hd (by simp)
  | handle i =>
    dsimp only at hd
    split at hd <;> exact absurd hd (by simp)

end Heap

variable {H : Host}

namespace State

/-! ## Coming to an end -/

/-- Within some number of steps the calls above `under` have ended and `under` hears `r`; unless a
    callable with a destructor ends before that. -/
inductive Settles (under : List (Frame H)) (r : Reply H.toVocabulary) (s : State H) : Prop
  | answered (n : Nat) (hmode : (s.after n).mode = .reply r) (hframes : (s.after n).frames = under)
      (hbusy : ∀ k < n, under.length < (s.after k).frames.length)
  | destructs (n : Nat) (p : PayloadId) (hbusy : ∀ k ≤ n, under.length < (s.after k).frames.length)
      (hp : (s.after n).dropping = some p) (hcode : (s.after n).destructor p ≠ none)

namespace Settles

variable {under : List (Frame H)} {r : Reply H.toVocabulary} {s t : State H}

/-- Where one stretch has led, the next goes on. -/
theorem trans {n : Nat} (hbusy : ∀ k < n, under.length < (s.after k).frames.length)
    (h : Settles under r (s.after n)) : Settles under r s := by
  have hall {m : Nat} (hm : ∀ k < m, under.length < ((s.after n).after k).frames.length) (k : Nat)
      (hk : k < n + m) : under.length < (s.after k).frames.length := by
    rcases Nat.lt_or_ge k n with hlt | hge
    · exact hbusy k hlt
    · obtain ⟨j, rfl⟩ := Nat.exists_eq_add_of_le hge
      rw [after_add]
      exact hm j (by omega)
  cases h with
  | answered m hmode hframes hm =>
    refine .answered (n + m) ?_ ?_ (hall hm)
    · rw [after_add, hmode]
    · rw [after_add, hframes]
  | destructs m p hm hp hcode =>
    rw [← after_add] at hp hcode
    exact .destructs (n + m) p
      (fun k hk => hall (m := m + 1) (fun j hj => hm j (Nat.le_of_lt_succ hj)) k (by omega)) hp hcode

/-- One step before. -/
theorem step (hs : under.length < s.frames.length) (h : Settles under r s.step) :
    Settles under r s :=
  .trans (n := 1) (fun k hk => by rwa [Nat.lt_one_iff.1 hk]) h

/-- What is heard on the way is passed on. -/
theorem through {mid : List (Frame H)} {q : Reply H.toVocabulary} (hlt : under.length ≤ mid.length)
    (h : Settles mid q s)
    (hnext : ∀ t : State H, t.frames = mid → t.mode = .reply q → Settles under r t) :
    Settles under r s := by
  cases h with
  | answered n hmode hframes hbusy =>
    exact .trans (fun k hk => Nat.lt_of_le_of_lt hlt (hbusy k hk)) (hnext _ hframes hmode)
  | destructs n p hbusy hp hcode =>
    exact .destructs n p (fun k hk => Nat.lt_of_le_of_lt hlt (hbusy k hk)) hp hcode

end Settles

/-- The next share is let go of: a destructor begins, or the rest is less than it was. -/
theorem releaseNext_spares {s : State H} {r : Reply H.toVocabulary} {ref : Ref}
    {rest : List Ref} {under : List (Frame H)}
    (hframes : s.frames = .releasing (ref :: rest) r :: under) (hmode : s.mode = .reply .done) :
    (∃ p, s.dropping = some p ∧ s.destructor p ≠ none) ∨
      s.step = { s with
        heap := (s.heap.release ref).2
        frames := .releasing ((s.heap.release ref).1.refs ++ rest) r :: under
        mode := .reply .done } := by
  obtain ⟨heap, memory, journal, frames, mode⟩ := s
  dsimp only at hframes hmode
  subst hframes hmode
  cases hcode : (heap.release ref).1.dropped.bind H.onDrop with
  | none =>
    right
    show releaseNext ⟨heap, memory, journal, under, .reply .done⟩ (ref :: rest) r = _
    unfold releaseNext
    dsimp only
    rw [hcode]
    rfl
  | some code =>
    left
    obtain ⟨n, hdropped, hn⟩ := Option.bind_eq_some_iff.1 hcode
    obtain ⟨p, keeps, rule, hp, hload⟩ := Heap.dropped_of_release hdropped
    refine ⟨p, hp, ?_⟩
    unfold destructor
    dsimp only
    rw [hload]
    dsimp only
    rw [hn]
    exact Option.some_ne_none code

/-- What is to be let go of is let go of, and the answer is given. -/
theorem settles_releasing (s : State H) (todo : List Ref) {r : Reply H.toVocabulary}
    {under : List (Frame H)} (hframes : s.frames = .releasing todo r :: under)
    (hmode : s.mode = .reply .done) : Settles under r s := by
  have habove : under.length < s.frames.length := by
    rw [hframes]
    exact Nat.lt_succ_self _
  cases todo with
  | nil =>
    have hstep : s.step = { s with frames := under, mode := .reply r } := step_of_top hframes hmode
    refine .step habove (.answered 0 ?_ ?_ fun k hk => absurd hk (Nat.not_lt_zero k))
    · show s.step.mode = _
      rw [hstep]
    · show s.step.frames = _
      rw [hstep]
  | cons ref rest =>
    rcases releaseNext_spares hframes hmode with ⟨p, hp, hcode⟩ | hstep
    · refine .destructs 0 p (fun k hk => ?_) hp hcode
      rwa [Nat.le_zero.1 hk]
    · have hless := s.heap.release_owners ref
      refine .step habove ?_
      rw [hstep]
      exact settles_releasing _ ((s.heap.release ref).1.refs ++ rest) rfl rfl
termination_by (s.heap.owners, (todo.map Ref.bulk).sum)
decreasing_by
  subst_vars
  simp only [List.map_append, List.sum_append, List.map_cons, List.sum_cons]
  rcases hless with hgone | ⟨hsame, hbulk⟩
  · exact .left _ _ hgone
  · rw [hsame]
    exact .right _ (by omega)

/-- Frames that pass an answer on let go of what they hold, one after the other. -/
theorem settles_passers {r : Reply H.toVocabulary} {under : List (Frame H)} (held : List (List Ref))
    {s : State H} (hframes : s.frames = passers held ++ under) (hmode : s.mode = .reply r) :
    Settles under r s := by
  induction held generalizing s with
  | nil => exact .answered 0 hmode hframes fun k hk => absurd hk (Nat.not_lt_zero k)
  | cons first held ih =>
    have hlength : under.length ≤ (passers held ++ under).length := by
      rw [List.length_append]
      omega
    refine .step ?_ (.through hlength ?_ fun t ht hr => ih ht hr)
    · rw [hframes]
      exact Nat.lt_succ_of_le hlength
    · have hstep : s.step = ({ s with frames := passers held ++ under } : State H).release first r :=
        step_of_top hframes hmode
      rw [hstep]
      exact settles_releasing _ first rfl rfl

/-- An answer that is pending is given, as soon as the frame that gives it is on top. -/
theorem settles_leaving {r : Reply H.toVocabulary} {under : List (Frame H)} {todo : List Ref}
    (held : List (List Ref)) {s : State H}
    (hframes : s.frames = .releasing todo r :: (passers held ++ under))
    (hmode : s.mode = .reply .done) : Settles under r s := by
  refine .through ?_ (settles_releasing s todo hframes hmode) fun t ht hr =>
    settles_passers held ht hr
  rw [List.length_append]
  omega

/-! ## Letting go of what others hold -/

/-- Payload `p` is held by a slot of a chain, or by an event that a handle owns. -/
inductive Kept (s : State H) (p : PayloadId) : Prop
  | slot (c : ChainId) (chain : Chain Fn) (x : SlotId) (hc : s.heap.chains.get? c = some chain)
      (hx : chain.listener? x = some (some p))
  | event (i : HandleId) (d : DispatchId) (hi : s.heap.handles.get? i = some (.event ⟨d, some p⟩))

theorem Kept.holds {s : State H} {p : PayloadId} (h : s.Kept p) : s.Holds p := by
  cases h with
  | slot c chain x hc hx => exact .slot c chain x hc hx
  | event i d hi => exact .event d ((s.mem_shares_iff _).2 (.inl ⟨i, hi⟩))

/-- Only chains and handles matter for that. -/
theorem Kept.congr {s t : State H} {p : PayloadId} (h : s.Kept p)
    (hchains : t.heap.chains = s.heap.chains) (hhandles : t.heap.handles = s.heap.handles) :
    t.Kept p := by
  cases h with
  | slot c chain x hc hx => exact .slot c chain x (hchains ▸ hc) hx
  | event i d hi => exact .event i d (hhandles ▸ hi)

/-- A share in a function concerns the payloads only; if it was not the last, nothing comes of it. -/
theorem release_function (h : Heap H.toVocabulary) (f : Fn) :
    ∃ payloads, (h.release (.function f)).2 = { h with payloads } ∧
      (h.dropped (.function f) = none → (h.release (.function f)).1 = {}) := by
  unfold Heap.release
  cases f with
  | none => exact ⟨h.payloads, rfl, fun _ => rfl⟩
  | some p =>
    rcases h.payloads.release_cases p with ⟨load, -, hlast, hr, -⟩ | ⟨hr, -⟩
    · dsimp only
      rw [show h.payloads.release p = (some load, (h.payloads.release p).2) from Prod.ext hr rfl]
      exact ⟨_, rfl, fun hd => absurd hd (by simp [Heap.dropped, hlast])⟩
    · dsimp only
      rw [show h.payloads.release p = (none, (h.payloads.release p).2) from Prod.ext hr rfl]
      exact ⟨_, rfl, fun _ => rfl⟩

/-- Shares in handles concern the handles only. -/
theorem retainAll_handles_eq (h : Heap H.toVocabulary) (is : List HandleId) :
    h.retainAll (is.map .handle) = { h with handles := is.foldl Pool.retain h.handles } := by
  induction is generalizing h with
  | nil => rfl
  | cons i rest ih => exact ih (h.retain (.handle i))

/-- Until the calls above `under` have ended, it hears nothing. -/
theorem ne_of_busy {s : State H} {under : List (Frame H)} {n : Nat}
    (hbusy : ∀ k < n, under.length < (s.step.after k).frames.length) {k : Nat} (hk : 0 < k)
    (hkn : k < 1 + n) : (s.after k).frames ≠ under := by
  obtain ⟨j, rfl⟩ := Nat.exists_eq_add_of_lt hk
  rw [Nat.zero_add, Nat.add_comm, after_one_add]
  intro heq
  exact absurd (hbusy j (by omega)) (heq ▸ Nat.lt_irrefl _)

/-- What is heard after a step is the answer to what was asked in that step. -/
theorem answered_of_busy {s : State H} {under : List (Frame H)} {r : Reply H.toVocabulary} {n : Nat}
    (hmode : (s.step.after n).mode = .reply r) (hframes : (s.step.after n).frames = under)
    (hbusy : ∀ k < n, under.length < (s.step.after k).frames.length) : s.Answered under (1 + n) r := by
  refine ⟨by omega, ?_, ?_, fun k hk hkn => ne_of_busy hbusy hk hkn⟩
  · rw [after_one_add, hmode]
  · rw [after_one_add, hframes]

/-- What settles after a step is the answer to what was asked in that step. -/
theorem Settles.answered_or {under : List (Frame H)} {r : Reply H.toVocabulary} {s : State H}
    (h : Settles under r s.step) :
    (∃ n, s.Answered under n r) ∨
      ∃ n p, (s.after n).dropping = some p ∧ (s.after n).destructor p ≠ none ∧
        ∀ k, 0 < k → k ≤ n → (s.after k).frames ≠ under := by
  cases h with
  | answered n hmode hframes hbusy => exact .inl ⟨1 + n, answered_of_busy hmode hframes hbusy⟩
  | destructs n p hbusy hp hcode =>
    refine .inr ⟨1 + n, p, ?_, ?_, fun k hk hkn =>
      ne_of_busy (n := n + 1) (fun j hj => hbusy j (Nat.le_of_lt_succ hj)) hk (by omega)⟩
    · rw [after_one_add, hp]
    · rw [after_one_add]
      exact hcode

/-! ## Promises -/

variable {s : State H} {q r : Reply H.toVocabulary} {below : List (Frame H)}

/-- It is decided that `below` will hear `q`, and it will, unless a callable with a destructor ends
    before. -/
structure Promised (q : Reply H.toVocabulary) (below : List (Frame H)) (s : State H) : Prop where
  pending : Pending q below s
  settles : Settles below q s

theorem promised_of_leaving {todo : List Ref} {held : List (List Ref)}
    (hframes : s.frames = .releasing todo q :: (passers held ++ below)) (hmode : s.mode = .reply .done) :
    Promised q below s :=
  ⟨.leaving (.refl q) todo held (hframes ▸ List.suffix_rfl), settles_leaving held hframes hmode⟩

theorem promised_of_passers {held : List (List Ref)} (hframes : s.frames = passers held ++ below)
    (hmode : s.mode = .reply q) : Promised q below s :=
  ⟨.heard (.refl q) held hframes hmode, settles_passers held hframes hmode⟩

/-- A promise holds until it is kept. -/
theorem Promised.after {m : Nat} (h : Promised q below (s.after m)) {n : Nat}
    (hbusy : ∀ j, m ≤ j → j < n → (s.after j).frames ≠ below) (hmn : m ≤ n) :
    Pending q below (s.after n) := by
  obtain ⟨i, rfl⟩ := Nat.exists_eq_add_of_le hmn
  rw [after_add]
  refine h.pending.after fun j hj => ?_
  rw [← after_add]
  exact hbusy (m + j) (Nat.le_add_right m j) (Nat.add_lt_add_left hj m)

/-- What was decided to be `q` by step `m` is heard in step `n` as `r`: as it was decided; or, if that
    was no fault, as the fault of a destructor that has unwound in the meantime. -/
def Arrives (s : State H) (m n : Nat) (q r : Reply H.toVocabulary) : Prop :=
  r = q ∨ ¬q.Unwound ∧ r.Unwound ∧
    ∃ k p, m ≤ k ∧ k < n ∧ (s.after k).dropping = some p ∧ (s.after k).destructor p ≠ none

theorem Arrives.eq {m n : Nat} (h : s.Arrives m n q r) (hcalm : ¬r.Unwound) : r = q :=
  h.resolve_right fun hunwound => hcalm hunwound.2.1

/-- A promise is kept, but for destructors that unwind. -/
theorem Promised.arrives {m n : Nat} (h : Promised q below (s.after m)) (hm : 0 < m) (hmn : m ≤ n)
    (hanswer : s.Answered below n r) : s.Arrives m n q r := by
  have hpending := h.after (fun j hj hjn => hanswer.first j (Nat.lt_of_lt_of_le hm hj) hjn) hmn
  rcases hpending.mayEndAs hanswer.frames hanswer.mode with hsame | ⟨hcalm, hunwound⟩
  · exact .inl hsame
  · obtain ⟨i, rfl⟩ := Nat.exists_eq_add_of_le hmn
    have hframes : ((s.after m).after i).frames = below := by rw [← after_add, hanswer.frames]
    have hmode : ((s.after m).after i).mode = .reply r := by rw [← after_add, hanswer.mode]
    cases h.settles with
    | answered j hmode' hframes' hbusy =>
      -- it is answered once
      rcases Nat.lt_trichotomy i j with hlt | rfl | hgt
      · exact absurd (hbusy i hlt) (hframes ▸ Nat.lt_irrefl _)
      · exact .inl (Mode.reply.inj (hmode.symm.trans hmode'))
      · rw [← after_add] at hframes'
        exact absurd hframes' (hanswer.first (m + j) (by omega) (by omega))
    | destructs j p hbusy hp hcode =>
      have hji : j < i := by
        by_contra hij
        exact absurd (hbusy i (Nat.le_of_not_lt hij)) (hframes ▸ Nat.lt_irrefl _)
      rw [← after_add] at hp hcode
      exact .inr ⟨hcalm, hunwound, m + j, p, Nat.le_add_right m j, Nat.add_lt_add_left hji m, hp, hcode⟩

end State

end Relay
