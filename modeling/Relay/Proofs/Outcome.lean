/-
  What a call, a `next` and a release come to.

  The first two look their way through a dispatch and a chain before they change anything, and each
  look-up may fail; a release may hear that a destructor has unwound.  The cases are told apart HERE,
  once: an outcome says what was found, and which state results.  Later proofs go through the
  outcomes.
-/
import Relay.Chain.Step

namespace Relay

/-! ## Faults -/

namespace Reply

variable {T : Vocabulary}

/-- The call was unwound. -/
def Unwound (r : Reply T) : Prop := ∃ f, r = .fault f

/-- What was decided as `r` may be heard as `r'`: a destructor that unwinds on the way has the last
    word, unless the call was being unwound before. -/
def MayEndAs (r r' : Reply T) : Prop := r' = r ∨ ¬r.Unwound ∧ r'.Unwound

theorem MayEndAs.refl (r : Reply T) : r.MayEndAs r := .inl rfl

theorem MayEndAs.trans {r r' r'' : Reply T} (h : r.MayEndAs r') (h' : r'.MayEndAs r'') :
    r.MayEndAs r'' := by
  rcases h with rfl | ⟨hcalm, hunwound⟩
  · exact h'
  · rcases h' with rfl | ⟨hcalm', -⟩
    · exact .inr ⟨hcalm, hunwound⟩
    · exact absurd hunwound hcalm'

/-- A release that hears no fault gives the answer it meant to give. -/
theorem joined_of_not_unwound {answer r : Reply T} (h : ¬r.Unwound) : answer.joined r = some answer := by
  cases r with
  | fault f => exact absurd ⟨f, rfl⟩ h
  | _ => cases answer <;> rfl

/-- What a release gives is what it meant to give, or the fault it has heard. -/
theorem mayEndAs_of_joined {answer r answer' : Reply T} (h : answer.joined r = some answer') :
    answer.MayEndAs answer' := by
  by_cases hr : r.Unwound
  · obtain ⟨f, rfl⟩ := hr
    cases answer with
    | fault g => exact absurd h (by simp [joined])
    | _ => exact .inr ⟨by simp [Unwound], f, (Option.some.inj h).symm⟩
  · exact .inl (Option.some.inj (h.symm.trans (joined_of_not_unwound hr)))

end Reply

/-! ## The heaps that result -/

namespace Heap

variable {T : Vocabulary}

/-- A dispatch has started on slot `i` of `c`, whose listener is `l`. -/
def started (h : Heap T) (c : ChainId) (i : SlotId) (l : Fn) : Heap T :=
  { h with
    chains := (h.chains.modify c (·.pin i)).retain c
    dispatches := (h.dispatches.alloc ⟨c, some i⟩).2 }.retainAll [.function l, .function l]

/-- Dispatch `d` has moved on to slot `i`, whose listener is `l`; `chain` is the chain numbered `c`
    without the old pin. -/
def moved (h : Heap T) (d : DispatchId) (c : ChainId) (chain : Chain Fn) (i : SlotId) (l : Fn) :
    Heap T :=
  { h with
    chains := h.chains.modify c fun _ => chain.pin i
    dispatches := (h.dispatches.modify d ({ · with cursor := some i })).retain d }.retainAll
      [.function l, .function l]

/-- Dispatch `d` is past the end; `chain` is what has become of the chain numbered `c`. -/
def ended (h : Heap T) (d : DispatchId) (c : ChainId) (chain : Chain Fn) : Heap T :=
  { h with
    chains := h.chains.modify c fun _ => chain
    dispatches := h.dispatches.modify d ({ · with cursor := none }) }

end Heap

namespace State

variable {H : Host} (s : State H)

/-! ## A call -/

/-- What a call of the chain numbered `c` comes to. -/
inductive CallOutcome (c : ChainId) (arg : H.Arg) : State H → Prop
  /-- There is no first listener. -/
  | nothing (hnone : ∀ chain i, s.heap.chains.get? c = some chain → chain.first = some i →
        chain.listener? i = none) :
      CallOutcome c arg (s.answer (.result none))
  | started {chain : Chain Fn} {i : SlotId} {l : Fn} (hc : s.heap.chains.get? c = some chain)
      (hfirst : chain.first = some i) (hl : chain.listener? i = some l) :
      CallOutcome c arg
        { { s with heap := s.heap.started c i l }.push (.await [.function l]) with
          mode := .invoke (some ⟨c, i, s.heap.dispatches.nextId⟩) l
            (some ⟨s.heap.dispatches.nextId, l⟩) arg }

theorem startCall_outcome (c : ChainId) (arg : H.Arg) :
    s.CallOutcome c arg (s.startCall c arg) := by
  unfold startCall
  dsimp only
  split
  · rename_i hnone
    refine .nothing fun chain i hc hfirst => ?_
    rwa [hc, Option.bind_some, hfirst, Option.bind_some, Option.map_eq_none_iff] at hnone
  · rename_i slot listener hfound
    obtain ⟨chain, hc, hfound⟩ := Option.bind_eq_some_iff.1 hfound
    obtain ⟨i, hfirst, hfound⟩ := Option.bind_eq_some_iff.1 hfound
    obtain ⟨l, hl, he⟩ := Option.map_eq_some_iff.1 hfound
    obtain ⟨rfl, rfl⟩ := Prod.mk.inj he
    exact .started hc hfirst hl

/-! ## A `next` -/

/-- What a `next` of the dispatch of `event` comes to. -/
inductive NextOutcome (event : Event) (arg : H.Arg) : State H → Prop
  /-- The dispatch has gone, or its chain. -/
  | nowhere (hgone : ∀ e, s.heap.dispatches.get? event.dispatch = some e →
        s.heap.chains.get? e.chain = none) :
      NextOutcome event arg (s.answer (.result none))
  /-- The dispatch was past the end before. -/
  | past {c : ChainId} {chain : Chain Fn}
      (hd : s.heap.dispatches.get? event.dispatch = some ⟨c, none⟩)
      (hc : s.heap.chains.get? c = some chain) :
      NextOutcome event arg
        ({ s with heap := s.heap.ended event.dispatch c chain }.release [] (.result none))
  | ended {c : ChainId} {chain : Chain Fn} {slot : SlotId}
      (hd : s.heap.dispatches.get? event.dispatch = some ⟨c, some slot⟩)
      (hc : s.heap.chains.get? c = some chain)
      (hend : ∀ next, chain.following slot = some next →
        (chain.unpin slot).2.listener? next = none) :
      NextOutcome event arg
        ({ s with heap := s.heap.ended event.dispatch c (chain.unpin slot).2 }.release
          ((chain.unpin slot).1.toList.map .function) (.result none))
  | moved {c : ChainId} {chain : Chain Fn} {slot i : SlotId} {l : Fn}
      (hd : s.heap.dispatches.get? event.dispatch = some ⟨c, some slot⟩)
      (hc : s.heap.chains.get? c = some chain) (hnext : chain.following slot = some i)
      (hl : (chain.unpin slot).2.listener? i = some l) :
      NextOutcome event arg
        ((({ s with heap := s.heap.moved event.dispatch c (chain.unpin slot).2 i l }.push
          (.await [.function l])).push
            (.entering ⟨c, i, event.dispatch⟩ ⟨event.dispatch, l⟩ arg)).release
              ((chain.unpin slot).1.toList.map .function) .done)

theorem advance_outcome (event : Event) (arg : H.Arg) :
    s.NextOutcome event arg (s.advance event arg) := by
  unfold advance
  dsimp only
  split
  · rename_i hd
    refine .nowhere fun e he => ?_
    rw [hd] at he
    exact absurd he (by simp)
  · rename_i d hd
    obtain ⟨c, cursor⟩ := d
    split
    · rename_i hc
      refine .nowhere fun e he => ?_
      obtain rfl := Option.some.inj (hd.symm.trans he)
      exact hc
    · rename_i chain hc
      cases cursor with
      | none => exact .past hd hc
      | some slot =>
        dsimp only [Option.bind_some]
        split
        · rename_i hnone
          refine .ended hd hc fun next hnext => ?_
          rwa [hnext, Option.bind_some, Option.map_eq_none_iff] at hnone
        · rename_i next listener hfound
          obtain ⟨i, hnext, hfound⟩ := Option.bind_eq_some_iff.1 hfound
          obtain ⟨l, hl, he⟩ := Option.map_eq_some_iff.1 hfound
          obtain ⟨rfl, rfl⟩ := Prod.mk.inj he
          exact .moved hd hc hnext hl

/-! ## A release, and a listener that waits -/

/-- A release that hears `r` goes on, with its own answer or with the fault it has heard; at a second
    fault it stands still. -/
theorem hear_releasing (r : Reply H.toVocabulary) (todo : List Ref) (answer : Reply H.toVocabulary) :
    (∃ answer', answer.joined r = some answer' ∧
      s.hear r (.releasing todo answer) = s.releaseNext todo answer') ∨
    (answer.joined r = none ∧
      s.hear r (.releasing todo answer) = (s.push (.releasing todo answer)).answer r) := by
  unfold hear
  dsimp only
  cases hjoined : answer.joined r with
  | none => exact .inr ⟨rfl, rfl⟩
  | some answer' => exact .inl ⟨answer', rfl, rfl⟩

/-- A release on top of the stack goes on. -/
theorem step_releasing {s : State H} {r answer answer' : Reply H.toVocabulary} {todo : List Ref}
    {below : List (Frame H)} (hmode : s.mode = .reply r) (hframes : s.frames = .releasing todo answer :: below)
    (hjoined : answer.joined r = some answer') :
    s.step = ({ s with frames := below } : State H).releaseNext todo answer' := by
  obtain ⟨heap, memory, journal, frames, mode⟩ := s
  dsimp only at hmode hframes
  subst hmode hframes
  show hear _ r (.releasing todo answer) = _
  unfold hear
  dsimp only
  rw [hjoined]

/-- An aborted program makes no step. -/
theorem step_aborted {s : State H} {r answer : Reply H.toVocabulary} {todo : List Ref}
    {below : List (Frame H)} (hmode : s.mode = .reply r) (hframes : s.frames = .releasing todo answer :: below)
    (hjoined : answer.joined r = none) : s.step = s := by
  obtain ⟨heap, memory, journal, frames, mode⟩ := s
  dsimp only at hmode hframes
  subst hmode hframes
  show hear _ r (.releasing todo answer) = _
  unfold hear
  dsimp only
  rw [hjoined]
  rfl

/-- What waits to run a listener runs it once it hears an answer that is no fault. -/
theorem hear_entering {r : Reply H.toVocabulary} (hcalm : ¬r.Unwound) (entry : Entry) (event : Event)
    (arg : H.Arg) : s.hear r (.entering entry event arg) =
      { s with mode := .invoke (some entry) event.recipient (some event) arg } := by
  cases r with
  | fault f => exact absurd ⟨f, rfl⟩ hcalm
  | _ => rfl

end State

end Relay
