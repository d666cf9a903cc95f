/-
  Dispatching does what the plain interpreter does.

  `Simulates` compares the two on one task: where the interpreter is done, the run gets to an end of
  the kind that is asked for, with the same listeners started on the way; where the interpreter is
  out of fuel, the run is still busy after as many steps; and of what has strayed nothing is said.
  `Follows` is this for every task, and is proved by induction on the fuel: one step of the run for
  one unit, and in between tasks that need less.
-/
import Relay.Proofs.Segment
import Relay.Proofs.Belongings

namespace Relay
namespace Plain

variable {H : Host}

open State

/-- The run at the point that the interpreter has come to. -/
def Progress.state (p : Progress H) (h : Heap H.toVocabulary) (frames : List (Frame H))
    (mode : Mode H) : State H :=
  { heap := h, memory := p.memory, journal := p.journal, frames, mode }

/-- How a stretch of a run ends, given what the interpreter came to. -/
abbrev Ending (H : Host) := Reply H.toVocabulary → Rest → Progress H → State H → Prop

/-- From `s` on, above the calls in `under`, the run does what the interpreter did; `calls` are the
    listeners that were started before. -/
def Simulates (under : List (Frame H)) (s : State H) (calls : List (Fn × H.Arg)) (fuel : Nat)
    (ends : Ending H) : Outcome H → Prop
  | .done r rest p => ∃ n t cs, Leads under s n t cs ∧ p.calls = calls ++ cs ∧ ends r rest p t
  | .timeout p => ∃ n t cs, Leads under s n t cs ∧ p.calls = calls ++ cs ∧ fuel ≤ n
  | .strayed => True

namespace Simulates

variable {under under' : List (Frame H)} {s t : State H} {calls cs : List (Fn × H.Arg)}
  {fuel : Nat} {ends ends' : Ending H} {o : Outcome H}

/-- A stretch before. -/
theorem after {m : Nat} (hl : Leads under s m t cs)
    (h : Simulates under t (calls ++ cs) fuel ends o) :
    Simulates under s calls (m + fuel) ends o := by
  cases o with
  | done r rest p =>
    obtain ⟨n, u, ds, hl', hcalls, hends⟩ := h
    exact ⟨m + n, u, cs ++ ds, hl.trans hl', by rw [hcalls, List.append_assoc], hends⟩
  | timeout p =>
    obtain ⟨n, u, ds, hl', hcalls, hn⟩ := h
    exact ⟨m + n, u, cs ++ ds, hl.trans hl', by rw [hcalls, List.append_assoc],
      Nat.add_le_add_left hn m⟩
  | strayed => trivial

theorem lower {fuel' : Nat} (h : Simulates under s calls fuel ends o) (hle : fuel' ≤ fuel) :
    Simulates under s calls fuel' ends o := by
  cases o with
  | done r rest p => exact h
  | timeout p =>
    obtain ⟨n, u, ds, hl, hcalls, hn⟩ := h
    exact ⟨n, u, ds, hl, hcalls, hle.trans hn⟩
  | strayed => trivial

/-- One step before, and one unit of fuel. -/
theorem step (hs : under <:+ s.frames) (hstep : s.step = t)
    (h : Simulates under t (calls ++ t.mode.call?.toList) fuel ends o) :
    Simulates under s calls (fuel + 1) ends o := by
  have hone : o ≠ .strayed → Leads under s 1 t t.mode.call?.toList := by
    intro ho
    refine .one hs hstep ?_
    cases o with
    | done r rest p =>
      obtain ⟨n, u, ds, hl, -⟩ := h
      exact hl.above 0 (Nat.zero_le n)
    | timeout p =>
      obtain ⟨n, u, ds, hl, -⟩ := h
      exact hl.above 0 (Nat.zero_le n)
    | strayed => exact absurd rfl ho
  by_cases ho : o = .strayed
  · subst ho
    trivial
  · rw [Nat.add_comm]
    exact h.after (hone ho)

/-- Where no listener is being started, none is to be counted. -/
theorem of_quiet (h : Simulates under s calls fuel ends o) (hcall : s.mode.call? = none) :
    Simulates under s (calls ++ s.mode.call?.toList) fuel ends o := by
  rw [hcall]
  exact (List.append_nil calls).symm ▸ h

/-- One step before that starts no listener. -/
theorem quiet_step (hs : under <:+ s.frames) (hstep : s.step = t) (hcall : t.mode.call? = none)
    (h : Simulates under t calls fuel ends o) : Simulates under s calls (fuel + 1) ends o :=
  .step hs hstep (h.of_quiet hcall)

/-- The interpreter goes on with an answer, and so does the run. -/
theorem andThen {k : Reply H.toVocabulary → Rest → Progress H → Outcome H}
    (h : Simulates under s calls fuel ends o) (hu : under' <:+ under)
    (hk : ∀ r rest p t, ends r rest p t → Simulates under' t p.calls fuel ends' (k r rest p)) :
    Simulates under' s calls fuel ends' (o.andThen k) := by
  cases o with
  | done r rest p =>
    obtain ⟨n, t, cs, hl, hcalls, hends⟩ := h
    have hrest := hk r rest p t hends
    rw [hcalls] at hrest
    exact (hrest.after (hl.mono hu)).lower (Nat.le_add_left fuel n)
  | timeout p =>
    obtain ⟨n, t, cs, hl, hcalls, hn⟩ := h
    exact ⟨n, t, cs, hl.mono hu, hcalls, hn⟩
  | strayed => trivial

/-- Only the run goes on. -/
theorem finish (h : Simulates under s calls fuel ends o) (hu : under' <:+ under)
    (hk : ∀ r rest p t, ends r rest p t → ∃ n u, Leads under' t n u [] ∧ ends' r rest p u) :
    Simulates under' s calls fuel ends' o := by
  have hdone : o.andThen .done = o := by cases o <;> rfl
  rw [← hdone]
  refine h.andThen hu fun r rest p t hends => ?_
  obtain ⟨n, u, hl, hends'⟩ := hk r rest p t hends
  exact ⟨n, u, [], hl, (List.append_nil _).symm, hends'⟩

end Simulates

/-! ## What the library does -/

section Moves

variable {h : Heap H.toVocabulary} {j : Journey} {pos : Option SlotId} {m : Fn} {rest : List Fn}
  (p : Progress H) (G : List (Frame H)) (mode : Mode H) (f : Fn) (arg : H.Arg)

/-- The place of a dispatch is given up without a trace. -/
theorem unpin_place (hcoh : j.chain.Coherent) {x : SlotId}
    (hleft : Left j.chain.listing (some x) rest) :
    (j.chain.pinnedAt (some x)).unpin x = (none, j.chain) :=
  Chain.unpin_pin hcoh.links hleft.mem_order

theorem advance_nil (hj : j.At h pos) (hleft : Left j.chain.listing pos []) :
    (p.state h G mode).advance (j.event f) arg =
      p.state (h.placed (some j) none) (.releasing [] (.result none) :: G) (.reply .done) := by
  have ho := (p.state h G mode).advance_outcome (j.event f) arg
  generalize (p.state h G mode).advance (j.event f) arg = t at ho
  cases ho with
  | nowhere hgone => exact absurd (hj.chained.symm.trans (hgone _ hj.stands)) (by simp)
  | past hd hc =>
    obtain ⟨rfl, rfl, rfl⟩ := hj.eq_of_found hd hc
    rfl
  | @ended c chain x hd hc hend =>
    obtain ⟨rfl, rfl, rfl⟩ := hj.eq_of_found hd hc
    rw [unpin_place hj.coherent hleft]
    rfl
  | @moved c chain x i l hd hc hnext hl =>
    obtain ⟨rfl, rfl, rfl⟩ := hj.eq_of_found hd hc
    have hnone := hleft.following_nil hj.coherent
    rw [Chain.pinnedAt, Chain.following_pin, hnone] at hnext
    exact absurd hnext (by simp)

theorem advance_cons (hj : j.At h pos) (hleft : Left j.chain.listing pos (m :: rest)) :
    ∃ y, (y, m) ∈ j.chain.listing ∧ Left j.chain.listing (some y) rest ∧
      (p.state h G mode).advance (j.event f) arg =
        p.state (h.moved j.dispatch j.home j.chain y m)
          (.releasing [] .done :: .entering ⟨j.home, y, j.dispatch⟩ (j.event m) arg ::
            .await [.function m] :: G) (.reply .done) := by
  cases pos with
  | none => exact absurd hleft (by simp [Left])
  | some x =>
    obtain ⟨y, hfollow, hmem, hleft'⟩ := hleft.following_cons hj.coherent
    have hlistener : j.chain.listener? y = some m := (Chain.listener?_of_mem_listing hmem).2
    refine ⟨y, hmem, hleft', ?_⟩
    have ho := (p.state h G mode).advance_outcome (j.event f) arg
    generalize (p.state h G mode).advance (j.event f) arg = t at ho
    cases ho with
    | nowhere hgone => exact absurd (hj.chained.symm.trans (hgone _ hj.stands)) (by simp)
    | past hd hc => exact absurd (hj.stands.symm.trans hd) (by simp)
    | @ended c chain x hd hc hend =>
      obtain ⟨rfl, ⟨⟩, rfl⟩ := hj.eq_of_found hd hc
      rw [unpin_place hj.coherent hleft, Chain.pinnedAt] at hend
      have hnone := hend y (by rw [Chain.following_pin, hfollow])
      exact absurd (hlistener.symm.trans hnone) (by simp)
    | @moved c chain x i l hd hc hnext hl =>
      obtain ⟨rfl, ⟨⟩, rfl⟩ := hj.eq_of_found hd hc
      rw [Chain.pinnedAt, Chain.following_pin, hfollow] at hnext
      obtain rfl := Option.some.inj hnext
      rw [unpin_place hj.coherent hleft] at hl ⊢
      obtain rfl := Option.some.inj (hlistener.symm.trans hl)
      rfl

variable {c : ChainId}

theorem startCall_nil (hlist : h.listing c = []) (hcoh : ∀ chain, h.chains.get? c = some chain →
    chain.Coherent) :
    (p.state h G mode).startCall c arg = p.state h G (.reply (.result none)) := by
  have ho := (p.state h G mode).startCall_outcome c arg
  generalize (p.state h G mode).startCall c arg = t at ho
  cases ho with
  | nothing hnone => rfl
  | @started chain i l hc hfirst hl =>
    have hempty : chain.listing = [] := (Heap.listing_of_get? hc).symm.trans hlist
    have hbegins := (hcoh chain hc).begins
    rw [← (hcoh chain hc).map_listing, hempty, hfirst] at hbegins
    exact absurd hbegins (by simp)

theorem startCall_cons {chain : Chain Fn} (hc : h.chains.get? c = some chain)
    (hcoh : chain.Coherent) (hlist : chain.listing.map (·.2) = m :: rest) :
    ∃ y, (y, m) ∈ chain.listing ∧ Left chain.listing (some y) rest ∧
      (p.state h G mode).startCall c arg =
        p.state (h.started c y m) (.await [.function m] :: G)
          (.invoke (some ⟨c, y, h.dispatches.nextId⟩) m (some ⟨h.dispatches.nextId, m⟩) arg) := by
  obtain ⟨y, hfirst, hmem, hleft⟩ := Left.first hcoh hlist
  have hlistener : chain.listener? y = some m := (Chain.listener?_of_mem_listing hmem).2
  refine ⟨y, hmem, hleft, ?_⟩
  have ho := (p.state h G mode).startCall_outcome c arg
  generalize (p.state h G mode).startCall c arg = t at ho
  cases ho with
  | nothing hnone => exact absurd (hlistener.symm.trans (hnone chain y hc hfirst)) (by simp)
  | @started chain' i l hc' hfirst' hl =>
    obtain rfl := Option.some.inj (hc.symm.trans hc')
    obtain rfl := Option.some.inj (hfirst.symm.trans hfirst')
    obtain rfl := Option.some.inj (hlistener.symm.trans hl)
    rfl

end Moves

section Requests

variable {h : Heap H.toVocabulary} (p : Progress H) (G : List (Frame H)) (mode : Mode H)
  {i k : HandleId} {f f' : Fn} {c : ChainId} (arg : H.Arg)

theorem ask_call (hi : h.chainOf i = some c) : (p.state h G mode).ask (.call i arg) =
    (p.state (h.retain (.handle i)) (.await [.handle i] :: G) mode).startCall c arg := by
  unfold State.ask
  dsimp only [Progress.state]
  rw [hi]
  rfl

theorem ask_next {e : Event} (hi : h.handles.get? i = some (.event e)) :
    (p.state h G mode).ask (.next i arg) =
      (p.state (h.retain (.handle i)) (.await [.handle i] :: G) mode).advance e arg := by
  unfold State.ask Heap.eventOf
  dsimp only [Progress.state]
  rw [hi]
  rfl

theorem ask_apply (hi : h.functionOf i = some f) : (p.state h G mode).ask (.apply i arg) =
    p.state (h.retain (.handle i)) (.await [.handle i] :: G) (.invoke none f none arg) := by
  unfold State.ask
  dsimp only [Progress.state]
  rw [hi]
  rfl

theorem ask_same (hi : h.functionOf i = some f) (hk : h.functionOf k = some f') :
    (p.state h G mode).ask (.same i k) =
      p.state (h.retainAll ([k, i].map .handle)) (.await ([k, i].map .handle) :: G)
        (.compare f f') := by
  unfold State.ask
  dsimp only [Progress.state]
  rw [hi, hk]
  rfl

theorem ask_size {chain : Chain Fn} (hi : h.chainOf i = some c)
    (hc : h.chains.get? c = some chain) :
    (p.state h G mode).ask (.size i) = p.state h G (.reply (.size chain.size)) := by
  unfold State.ask
  dsimp only [Progress.state]
  rw [hi, Option.bind_some, hc]
  rfl

theorem ask_kindOf (hi : h.functionOf i = some f) : (p.state h G mode).ask (.kindOf i) =
    p.state h G (.reply (.kind ((h.stored f).map (·.type)))) := by
  unfold State.ask
  dsimp only [Progress.state]
  rw [hi]
  rfl

theorem ask_finished {e : Event} {l : Dispatch} (hi : h.handles.get? i = some (.event e))
    (hd : h.dispatches.get? e.dispatch = some l) :
    (p.state h G mode).ask (.finished i) = p.state h G (.reply (.flag l.cursor.isNone)) := by
  unfold State.ask Heap.eventOf
  dsimp only [Progress.state]
  rw [hi, Option.bind_some, hd]
  rfl

end Requests

section LettingGo

variable {h h' : Heap H.toVocabulary} {ref : Ref} {freed : Heap.Freed H.toVocabulary}
  (p : Progress H) (G : List (Frame H)) (todo : List Ref) (r : Reply H.toVocabulary)

/-- A share goes, and nothing runs. -/
theorem leads_freed (hfreed : h.release ref = (freed, h'))
    (hquiet : freed.dropped.bind H.onDrop = none) :
    Leads G (p.state h (.releasing (ref :: todo) r :: G) (.reply .done)) 1
      (p.state h' (.releasing (freed.refs ++ todo) r :: G) (.reply .done)) [] := by
  refine .one (List.suffix_cons _ G) ?_ (List.suffix_cons _ G)
  show State.releaseNext (p.state h G (.reply .done)) (ref :: todo) r = _
  unfold State.releaseNext
  dsimp only [Progress.state]
  rw [hfreed]
  dsimp only
  rw [hquiet]
  rfl

/-- A share goes, and a destructor runs. -/
theorem step_freed {code : H.Code} (hfreed : h.release ref = (freed, h'))
    (hcode : freed.dropped.bind H.onDrop = some code) :
    (p.state h (.releasing (ref :: todo) r :: G) (.reply .done)).step =
      p.state h' (.user code [] :: .releasing (freed.refs ++ todo) r :: G) (.reply .done) := by
  show State.releaseNext (p.state h G (.reply .done)) (ref :: todo) r = _
  unfold State.releaseNext
  dsimp only [Progress.state]
  rw [hfreed]
  dsimp only
  rw [hcode]
  rfl

/-- Nothing is left to be let go of. -/
theorem leads_released :
    Leads G (p.state h (.releasing [] r :: G) (.reply .done)) 1 (p.state h G (.reply r)) [] :=
  .one (List.suffix_cons _ G) rfl List.suffix_rfl

end LettingGo

/-! ## Following the interpreter -/

/-- What is left on the stack hears the answer. -/
def Answers (h : Heap H.toVocabulary) (j : Option Journey) (frames : List (Frame H)) : Ending H :=
  fun r rest p t => ∃ g, Leaves h j rest p g ∧ t = p.state g frames (.reply r)

/-- So does code, which has this on its desk. -/
def AnswersOver (g : Heap H.toVocabulary) (j : Option Journey) (d : Desk H)
    (frames : List (Frame H)) : Ending H :=
  fun r rest p t => ∃ g' h', Leaves g j rest p g' ∧ Makes g' h' d ∧ t = p.state h' frames (.reply r)

/-- Only `refs` are still to be let go of before that. -/
def LetsGo (h : Heap H.toVocabulary) (j : Option Journey) (refs : List Ref)
    (frames : List (Frame H)) : Ending H :=
  fun r rest p t => ∃ g, Leaves h j rest p g ∧
    t = p.state g (.releasing refs r :: frames) (.reply .done)

/-- Code that runs in a dispatch has the event in a handle, and owns the handle. -/
inductive Owns (h : Heap H.toVocabulary) :
    Option Journey → Option (HandleId × ChainId) → List Ref → Prop
  | nothing : Owns h none none []
  | event {j : Journey} {i : HandleId} {f : Fn}
      (hi : h.handles.get? i = some (.event (j.event f))) :
      Owns h (some j) (some (i, j.home)) [.handle i]

/-- Events stay where they are. -/
theorem Owns.leaves {h g : Heap H.toVocabulary} {j : Option Journey} {rest : Rest}
    {p : Progress H} {event : Option (HandleId × ChainId)} {owned : List Ref}
    (ho : Owns h j event owned) (hg : Leaves h j rest p g) : Owns g j event owned := by
  cases ho with
  | nothing => exact .nothing
  | event hi =>
    obtain ⟨pos, i, k, l, -, -, -⟩ := hg
    exact .event hi

/-- What code has made is no event. -/
theorem Owns.over {h g : Heap H.toVocabulary} {j : Option Journey} {d : Desk H}
    {event : Option (HandleId × ChainId)} {owned : List Ref} (ho : Owns g j event owned)
    (hm : Makes g h d) : Owns h j event owned := by
  cases ho with
  | nothing => exact .nothing
  | event hi => exact .event (hm.get?_handle hi)

/-- The run follows the interpreter on every task, as long as there is fuel. -/
structure Follows (H : Host) (fuel : Nat) : Prop where
  apply : ∀ {v h j pos rest} {p : Progress H} (F : List (Frame H)) (entry : Option Entry) (f : Fn)
    (arg : H.Arg), Agrees v h j pos rest p →
    Simulates F (p.state h F (.invoke entry f (j.map (·.event f)) arg)) p.calls fuel
      (LetsGo h j ((j.map (·.event f)).toList.map .event) F)
      (interpret v fuel (.apply f (j.map (·.home)) arg) rest p)
  compare : ∀ {v h} {p : Progress H} (F : List (Frame H)) (left right : Fn),
    Agrees v h none none none p →
    Simulates F (p.state h F (.compare left right)) p.calls fuel (Answers h none F)
      (interpret v fuel (.compare left right) none p)
  resume : ∀ {v g h j pos rest d owned} {p : Progress H} (F : List (Frame H)) (code : H.Code)
    (r : Reply H.toVocabulary), Agrees v g j pos rest p → Owns g j d.event owned → Makes g h d →
    Simulates F (p.state h (.user code owned :: F) (.reply r)) p.calls fuel (LetsGo g j owned F)
      (interpret v fuel (.resume code d r) rest p)

/-- Without fuel nothing has been done. -/
theorem Follows.zero : Follows H 0 where
  apply := fun F _ _ _ _ => by
    rw [interpret]
    exact ⟨0, _, [], .refl List.suffix_rfl, (List.append_nil _).symm, Nat.le_refl 0⟩
  compare := fun F _ _ _ => by
    rw [interpret]
    exact ⟨0, _, [], .refl List.suffix_rfl, (List.append_nil _).symm, Nat.le_refl 0⟩
  resume := fun F _ _ _ _ _ => by
    rw [interpret]
    exact ⟨0, _, [], .refl (List.suffix_cons _ F), (List.append_nil _).symm, Nat.le_refl 0⟩

section Endings

variable {v : View H} {h : Heap H.toVocabulary} {j : Option Journey} {pos : Option SlotId}
  {F G : List (Frame H)} {rest : Rest} {p : Progress H} {r : Reply H.toVocabulary} {s t : State H}

/-- A dispatch that has moved on, and left no tombstone behind, runs its listener. -/
theorem leads_entering (p : Progress H) (h : Heap H.toVocabulary) (G : List (Frame H))
    (entry : Entry) (e : Event) (arg : H.Arg) (held : List Ref) :
    Leads G (p.state h (.releasing [] .done :: .entering entry e arg :: .await held :: G)
        (.reply .done)) 2
      (p.state h (.await held :: G) (.invoke (some entry) e.recipient (some e) arg))
      [(e.recipient, arg)] :=
  have hrelease : Leads G (p.state h (.releasing [] .done :: .entering entry e arg ::
      .await held :: G) (.reply .done)) 1
      (p.state h (.entering entry e arg :: .await held :: G) (.reply .done)) [] :=
    .one (List.suffix_append [_, _, _] G) rfl (List.suffix_append [_, _] G)
  hrelease.trans (.one (List.suffix_append [_, _] G) rfl (List.suffix_cons _ G))

/-- Letting go of nothing is answering. -/
theorem LetsGo.answers (ht : LetsGo h j [] F r rest p t) :
    ∃ n u, Leads F t n u [] ∧ Answers h j F r rest p u := by
  obtain ⟨g, hg, rfl⟩ := ht
  exact ⟨1, _, leads_released p F r, g, hg, rfl⟩

theorem LetsGo.suffix {refs : List Ref} (ht : LetsGo h j refs F r rest p t) : F <:+ t.frames := by
  obtain ⟨g, -, rfl⟩ := ht
  exact List.suffix_cons _ F

/-- What a task left before is as good a beginning. -/
theorem LetsGo.trans {g : Heap H.toVocabulary} {refs : List Ref} {left : Rest} {q : Progress H}
    (ht : LetsGo g j refs F r rest p t) (hg : Leaves h j left q g) :
    LetsGo h j refs F r rest p t := by
  obtain ⟨g', hg', rfl⟩ := ht
  exact ⟨g', hg.trans hg', rfl⟩

/-- What waits with a share lets go of it. -/
theorem Answers.letsGo {refs : List Ref} (ht : Answers h j (.await refs :: F) r rest p t) :
    ∃ n u, Leads F t n u [] ∧ LetsGo h j refs F r rest p u := by
  obtain ⟨g, hg, rfl⟩ := ht
  exact ⟨1, _, .one (List.suffix_cons _ F) rfl (List.suffix_cons _ F), g, hg, rfl⟩

/-- A request that held handles is answered. -/
theorem Answers.of_handles (is : List HandleId)
    (his : ∀ i ∈ is, ∃ ref, h.handles.get? i = some ref)
    (ht : Answers (h.retainAll (is.map .handle)) j (.await (is.map .handle) :: G) r rest p t) :
    ∃ n u, Leads G t n u [] ∧ Answers h j G r rest p u := by
  obtain ⟨g, hg, rfl⟩ := ht
  obtain ⟨g', hg', hd⟩ := hg.drains_handles his
  obtain ⟨n, hn⟩ := hd.passes p.memory p.journal G r
  exact ⟨n, _, hn.leads, g', hg', rfl⟩

/-- A listener that has ended gives back its event, and then the share that the dispatch has held in
    it. -/
theorem leads_listener_end {g g' : Heap H.toVocabulary} {e : Event} {m : Fn} (hm : g'.Stores m)
    (hd : g.Drains [.event e] (g'.retain (.function m))) (p : Progress H)
    (G : List (Frame H)) (r : Reply H.toVocabulary) :
    ∃ n, Leads G (p.state g (.releasing [.event e] r :: .await [.function m] :: G) (.reply .done)) n
      (p.state g' G (.reply r)) [] := by
  obtain ⟨k, hk⟩ := hd.returns p.memory p.journal (.await [.function m] :: G) r
  obtain ⟨l, hl⟩ := (Heap.drains_function hm).passes p.memory p.journal G r
  exact ⟨k + l, (hk.leads.mono (List.suffix_cons _ G)).trans hl.leads⟩

/-- A request that is answered at once. -/
theorem Agrees.answers (ha : Agrees v h j pos rest p) (G : List (Frame H))
    (r : Reply H.toVocabulary) (fuel : Nat) :
    Simulates G (p.state h G (.reply r)) p.calls fuel (Answers h j G) (.done r rest p) :=
  ⟨0, _, [], .refl List.suffix_rfl, (List.append_nil _).symm, h, ha.leaves, rfl⟩

/-- What runs outside of the dispatch does not move it. -/
theorem Agrees.answers_outside (ha : Agrees v h j pos rest p) {calls : List (Fn × H.Arg)}
    {fuel : Nat} {run : Runner H} {task : Task H}
    (hrun : Simulates G s calls fuel (Answers h none G) (run task none p)) :
    Simulates G s calls fuel (Answers h j G) (Plain.outside run task rest p) := by
  refine hrun.andThen List.suffix_rfl ?_
  rintro r left q t ⟨g, hg, rfl⟩
  exact ⟨0, _, [], .refl List.suffix_rfl, (List.append_nil _).symm, g, ha.leaves_of_outside hg, rfl⟩

/-- At the end of its list a dispatch has no listener to run. -/
theorem Remains.left_nil {j : Journey} (hr : Remains (some j) pos rest)
    (hnil : ∀ m left, rest ≠ some (m :: left)) : Left j.chain.listing pos [] := by
  cases pos with
  | none => rfl
  | some x =>
    obtain ⟨left, rfl, hleft⟩ := hr
    cases left with
    | nil => exact hleft
    | cons m left => exact absurd rfl (hnil m left)

theorem Remains.left_cons {j : Journey} {m : Fn} {left : List Fn}
    (hr : Remains (some j) pos (some (m :: left))) : Left j.chain.listing pos (m :: left) := by
  cases pos with
  | none => exact absurd hr (by simp [Remains])
  | some x =>
    obtain ⟨left', he, hleft⟩ := hr
    exact Option.some.inj he ▸ hleft

/-- Past the end nothing is left, and only there. -/
theorem Remains.isNone {j : Journey} (hr : Remains (some j) pos rest) : rest.isNone = pos.isNone := by
  cases pos with
  | none =>
    obtain rfl : rest = none := hr
    rfl
  | some x =>
    obtain ⟨left, rfl, -⟩ := hr
    rfl

end Endings

namespace Follows

variable {v : View H} {g h : Heap H.toVocabulary} {fuel : Nat} {j : Option Journey}
  {pos : Option SlotId} {rest : Rest} {p : Progress H} {d : Desk H} {owned : List Ref}

/-- A `next` runs what is left of its dispatch. -/
theorem next (hf : Follows H fuel) {j : Journey} (ha : Agrees v h (some j) pos rest p)
    (G : List (Frame H)) (mode : Mode H) (f : Fn) (arg : H.Arg) :
    Simulates G ((p.state h G mode).advance (j.event f) arg)
      (p.calls ++ ((p.state h G mode).advance (j.event f) arg).mode.call?.toList) fuel
      (Answers h (some j) G) (Plain.next (interpret v fuel) j.home arg rest p) := by
  have hends (hnil : ∀ m left, rest ≠ some (m :: left)) :
      Simulates G ((p.state h G mode).advance (j.event f) arg)
        (p.calls ++ ((p.state h G mode).advance (j.event f) arg).mode.call?.toList) fuel
        (Answers h (some j) G) (.done (.result none) none p) := by
    rw [advance_nil p G mode f arg ha.standing (ha.remains.left_nil hnil)]
    have hleaves : Leaves h (some j) none p (h.placed (some j) none) :=
      .intro none 0 0 0 rfl ha.fresh ha.stored
    have hone := leads_released (h := h.placed (some j) none) p G (.result none)
    exact Simulates.of_quiet ⟨1, _, [], hone, (List.append_nil _).symm, _, hleaves, rfl⟩ rfl
  cases rest with
  | none => exact hends fun m left => by simp
  | some left =>
    cases left with
    | nil => exact hends fun m left => by simp
    | cons m left =>
      obtain ⟨y, hmem, hleft, hstep⟩ :=
        advance_cons p G mode f arg ha.standing ha.remains.left_cons
      rw [hstep]
      have hstores : h.Stores m := by
        have hj : j.At h pos := ha.standing
        have hlisted : (y, m) ∈ h.listing j.home := by
          rw [Heap.listing_of_get? hj.chained, Chain.listing_pinnedAt hj.coherent]
          exact hmem
        exact ha.shows.listed _ _ hlisted
      let q : Progress H := { p with calls := p.calls ++ [(m, arg)] }
      have hrun := hf.apply (.await [.function m] :: G) (some ⟨j.home, y, j.dispatch⟩) m arg
        ((ha.moved m hleft).congr (q := q) rfl rfl)
      refine Simulates.of_quiet ?_ rfl
      refine (Simulates.after (leads_entering p _ G ⟨j.home, y, j.dispatch⟩ (j.event m) arg
        [.function m]) ?_).lower (Nat.le_add_left fuel 2)
      refine hrun.finish (List.suffix_cons _ G) ?_
      rintro r rest p t ⟨g, hg, rfl⟩
      obtain ⟨g', hg', hm, hd⟩ := hg.drains_event ha.standing hstores
      obtain ⟨n, hn⟩ := leads_listener_end hm hd p G r
      exact ⟨n, _, hn, g', hg', rfl⟩

/-- A call runs the list of a chain, and leaves the dispatch that it is made in where it is. -/
theorem call (hf : Follows H fuel) (ha : Agrees v h j pos rest p) (G : List (Frame H))
    (mode : Mode H) (c : ChainId) (arg : H.Arg) :
    Simulates G ((p.state h G mode).startCall c arg)
      (p.calls ++ ((p.state h G mode).startCall c arg).mode.call?.toList) fuel
      (Answers h j G) (Plain.call v (interpret v fuel) c arg rest p) := by
  unfold Plain.call
  rw [ha.shows.lists]
  cases hlist : (h.listing c).map (·.2) with
  | nil =>
    rw [startCall_nil p G mode arg (List.map_eq_nil_iff.1 hlist) (ha.shows.coherent c)]
    exact (ha.answers G (.result none) fuel).of_quiet rfl
  | cons m left =>
    obtain ⟨chain, hc⟩ : ∃ chain, h.chains.get? c = some chain := by
      cases hc : h.chains.get? c with
      | none => exact absurd hlist (by simp [Heap.listing, hc])
      | some chain => exact ⟨chain, rfl⟩
    rw [Heap.listing_of_get? hc] at hlist
    have hcoh := ha.shows.coherent c chain hc
    obtain ⟨y, hmem, hleft, hstep⟩ := startCall_cons p G mode arg hc hcoh hlist
    rw [hstep]
    have hstores : h.Stores m := ha.shows.listed c _ ((Heap.listing_of_get? hc).symm ▸ hmem)
    let q : Progress H := { p with calls := p.calls ++ [(m, arg)] }
    have hrun := hf.apply (.await [.function m] :: G) (some ⟨c, y, h.dispatches.nextId⟩) m arg
      ((ha.started hc m hleft).congr (q := q) rfl rfl)
    refine hrun.andThen (List.suffix_cons _ G) ?_
    rintro r left' q' t ⟨g, hg, rfl⟩
    obtain ⟨i, k, l, hfresh, hstored, hm, hd⟩ := hg.drains_last_event hc hcoh hstores
    obtain ⟨n, hn⟩ := leads_listener_end hm hd q' G r
    exact ⟨n, _, [], hn, (List.append_nil _).symm, _, ha.leaves_aged hfresh hstored, rfl⟩

/-- The library answers what code asks for. -/
theorem answer (hf : Follows H fuel) (ha : Agrees v h j pos rest p)
    {event : Option (HandleId × ChainId)} (ho : Owns h j event owned) (G : List (Frame H))
    (mode : Mode H) (rq : Request H.toVocabulary) :
    Simulates G ((p.state h G mode).ask rq)
      (p.calls ++ ((p.state h G mode).ask rq).mode.call?.toList) fuel
      (Answers h j G) (Plain.answer v (interpret v fuel) event rest p rq) := by
  cases rq with
  | call i arg =>
    cases hc : v.chainOf i with
    | none => simp only [Plain.answer, hc]; trivial
    | some c =>
      obtain ⟨hchain, -⟩ := ha.shows.chains i c hc
      obtain ⟨ref, hi⟩ := Heap.exists_handle_of_chainOf hchain
      have hrun := hf.call (ha.retain_handle i) (.await [.handle i] :: G) mode c arg
      rw [ask_call p G mode arg hchain]
      simp only [Plain.answer, hc]
      exact hrun.finish (List.suffix_cons _ G) fun r rest p t ht =>
        ht.of_handles [i] (by simp [hi])
  | next i arg =>
    cases ho with
    | nothing => trivial
    | @event j i' f hi =>
      by_cases he : i = i'
      · subst he
        have hrun := hf.next (ha.retain_handle i) (.await [.handle i] :: G) mode f arg
        rw [ask_next p G mode arg hi]
        simp only [Plain.answer, if_pos]
        exact hrun.finish (List.suffix_cons _ G) fun r rest p t ht =>
          ht.of_handles [i] (by simp [hi])
      · simp only [Plain.answer, if_neg he]
        trivial
  | apply i arg =>
    cases hfn : v.functionOf i with
    | none => simp only [Plain.answer, hfn]; trivial
    | some f =>
      obtain ⟨hfunction, -⟩ := ha.shows.functions i f hfn
      obtain ⟨ref, hi⟩ := Heap.exists_handle_of_functionOf hfunction
      have hrun := hf.apply (.await [.handle i] :: G) none f arg (ha.retain_handle i).outside
      rw [ask_apply p G mode arg hfunction]
      simp only [Plain.answer, hfn]
      refine (ha.answers_outside (hrun.finish (List.suffix_cons _ G) ?_)).of_quiet rfl
      intro r left q t ht
      obtain ⟨n, u, hn, hu⟩ := LetsGo.answers ht
      obtain ⟨m, w, hm, hw⟩ := hu.of_handles [i] (by simp [hi])
      exact ⟨n + m, w, (hn.mono (List.suffix_cons _ G)).trans hm, hw⟩
  | same i k =>
    cases hleft : v.functionOf i with
    | none => simp only [Plain.answer, hleft]; trivial
    | some f =>
      cases hright : v.functionOf k with
      | none => simp only [Plain.answer, hleft, hright]; trivial
      | some f' =>
        obtain ⟨hfunction, -⟩ := ha.shows.functions i f hleft
        obtain ⟨hfunction', -⟩ := ha.shows.functions k f' hright
        obtain ⟨ref, hi⟩ := Heap.exists_handle_of_functionOf hfunction
        obtain ⟨ref', hk⟩ := Heap.exists_handle_of_functionOf hfunction'
        have hrun := hf.compare (.await ([k, i].map .handle) :: G) f f'
          (ha.retain_handles [k, i]).outside
        rw [ask_same p G mode hfunction hfunction']
        simp only [Plain.answer, hleft, hright]
        refine (ha.answers_outside (hrun.finish (List.suffix_cons _ G) ?_)).of_quiet rfl
        intro r left q t ht
        exact ht.of_handles [k, i] (by simp [hi, hk])
  | size i =>
    cases hc : v.chainOf i with
    | none => simp only [Plain.answer, hc]; trivial
    | some c =>
      obtain ⟨hchain, chain, hget⟩ := ha.shows.chains i c hc
      have hsize : (v.listeners c).length = chain.size := by
        rw [ha.shows.lists, List.length_map, Heap.listing_of_get? hget,
          (ha.shows.coherent c chain hget).length_listing]
      rw [ask_size p G mode hchain hget]
      simp only [Plain.answer, hc, hsize]
      exact (ha.answers G _ fuel).of_quiet rfl
  | kindOf i =>
    cases hfn : v.functionOf i with
    | none => simp only [Plain.answer, hfn]; trivial
    | some f =>
      rw [ask_kindOf p G mode (ha.shows.functions i f hfn).1]
      simp only [Plain.answer, hfn, ha.shows.stored]
      exact (ha.answers G _ fuel).of_quiet rfl
  | finished i =>
    -- the dispatch of another event stays where it is all the while
    have helsewhere {b : Bool} (hb : v.finished i = some b) :
        Simulates G ((p.state h G mode).ask (.finished i))
          (p.calls ++ ((p.state h G mode).ask (.finished i)).mode.call?.toList) fuel
          (Answers h j G) (.done (.flag b) rest p) := by
      obtain ⟨e, k, he, hk, rfl, -⟩ := ha.shows.finished i b hb
      rw [ask_finished p G mode he hk]
      exact (ha.answers G _ fuel).of_quiet rfl
    cases ho with
    | nothing =>
      simp only [Plain.answer]
      rw [if_neg (by simp)]
      cases hb : v.finished i with
      | none => trivial
      | some b => exact helsewhere hb
    | @event j i' f hi =>
      simp only [Plain.answer]
      by_cases he : i' = i
      · subst he
        have hj : j.At h pos := ha.standing
        rw [if_pos (by simp), ha.remains.isNone, ask_finished p G mode hi hj.stands]
        exact (ha.answers G _ fuel).of_quiet rfl
      · rw [if_neg (by simpa using he)]
        cases hb : v.finished i with
        | none => trivial
        | some b => exact helsewhere hb
  | _ => trivial

/-! ### What code does for itself -/

end Follows

/-- A function is made for code. -/
theorem Makes.make {v : View H} {g h : Heap H.toVocabulary} {j : Option Journey}
    {pos : Option SlotId} {rest : Rest} {p q : Progress H} {d d' : Desk H} (hm : Makes g h d)
    (ha : Agrees v g j pos rest p) {rq : Request H.toVocabulary}
    (hmake : make? (v.over d) d p rq = some (d', q)) (G : List (Frame H)) (mode : Mode H) :
    d'.event = d.event ∧ q.calls = p.calls ∧ ∃ g' h', Leaves g j rest q g' ∧ Makes g' h' d' ∧
      (p.state h G mode).ask rq = q.state h' G (.reply (.made p.fresh)) := by
  have hfresh : p.fresh = h.handles.nextId := ha.fresh.trans hm.nextHandle
  have hstored : p.stored = h.payloads.nextId := ha.stored.trans hm.nextPayload
  have hnamed : Leaves g j rest p.named (g.aged 0 1 0) :=
    ha.leaves_aged (congrArg (· + 1) ha.fresh) ha.stored
  cases rq with
  | makeEmpty =>
    obtain ⟨rfl, rfl⟩ := Prod.mk.inj (Option.some.inj hmake)
    have hname := hm.name (f := none) fun q hq => absurd hq (by simp)
    rw [← hfresh] at hname
    refine ⟨rfl, rfl, _, _, hnamed, hname, ?_⟩
    rw [hfresh]
    rfl
  | copy i =>
    obtain ⟨f, hf, he⟩ := Option.map_eq_some_iff.1 hmake
    obtain ⟨rfl, rfl⟩ := Prod.mk.inj he
    obtain ⟨hfunction, hstores⟩ := (hm.shows_over ha.shows).functions i f hf
    have hname := hm.name hstores
    rw [← hfresh] at hname
    refine ⟨rfl, rfl, _, _, hnamed, hname, ?_⟩
    unfold State.ask
    dsimp only [Progress.state]
    rw [hfunction, hfresh, ← h.nextHandle_retain (.function f)]
    rfl
  | make native rule keeps =>
    cases keeps with
    | cons i rest => exact absurd hmake (by simp [make?])
    | nil =>
      obtain ⟨rfl, rfl⟩ := Prod.mk.inj (Option.some.inj hmake)
      have hstore := hm.store ⟨native, rule⟩
      rw [← hfresh, ← hstored] at hstore
      refine ⟨rfl, rfl, _, _, ha.leaves_aged (congrArg (· + 1) ha.fresh)
        (congrArg (· + 1) ha.stored), hstore, ?_⟩
      rw [hfresh, hstored]
      rfl
  | _ => exact absurd hmake (by simp [make?])

namespace Follows

variable {v : View H} {g h : Heap H.toVocabulary} {fuel : Nat} {j : Option Journey}
  {pos : Option SlotId} {rest : Rest} {p : Progress H} {d : Desk H} {owned : List Ref}

/-- Code lets go of a function, and a destructor may run. -/
theorem discard (hf : Follows H fuel) (ha : Agrees v g j pos rest p) (hm : Makes g h d)
    {i : HandleId} {f : Fn} (hi : d.made.get? i = some f) (G : List (Frame H)) (mode : Mode H) :
    Simulates G ((p.state h G mode).ask (.discard i)) p.calls fuel
      (AnswersOver g j (d.discard i f).1 G)
      (Plain.discard (interpret (v.over (d.discard i f).1) fuel) (d.discard i f).2 rest p) := by
  obtain ⟨hmakes, hhandle, hfunction⟩ := hm.discard hi
  generalize hd : d.discard i f = left at hmakes hfunction
  obtain ⟨d', ended⟩ := left
  dsimp only at hmakes hfunction ⊢
  -- the handle goes first, and then the share in the function
  have hask : Leads G ((p.state h G mode).ask (.discard i)) 1
      (p.state { h with handles := (h.handles.release i).2 } (.releasing [.function f] .done :: G)
        (.reply .done)) [] := leads_freed p G [] .done hhandle rfl
  have hdropped : ((ended.map fun c => c.native).bind H.onDrop) =
      ended.bind fun c => H.onDrop c.native := by
    cases ended <;> rfl
  refine (Simulates.after hask ?_).lower (Nat.le_add_left fuel 1)
  rw [List.append_nil]
  unfold Plain.discard
  cases hcode : ended.bind fun c => H.onDrop c.native with
  | none =>
    have hgone := leads_freed p G [] .done hfunction (hdropped.trans hcode)
    exact ⟨2, _, [], hgone.trans (leads_released p G .done), (List.append_nil _).symm, g, _,
      ha.leaves, hmakes, rfl⟩
  | some code =>
    have hstarts := step_freed p G [] .done hfunction (hdropped.trans hcode)
    have hover : Agrees (v.over d') (h.forgo (i, f)) j pos rest p := hmakes.agrees_over ha
    have hrun := hf.resume (.releasing [] .done :: G) code .done hover.outside .nothing
      (Makes.nothing _ none)
    have hanswers := hover.answers_outside (hrun.finish List.suffix_rfl fun r rest p t ht =>
      LetsGo.answers ht)
    refine (Simulates.quiet_step (List.suffix_cons _ G) hstarts rfl
      (hanswers.andThen (List.suffix_cons _ G) ?_)).lower (Nat.le_succ fuel)
    rintro r left q t ⟨h', hl, rfl⟩
    obtain ⟨g', hg', hm'⟩ := hmakes.leaves hl
    -- a destructor that fails decides the answer
    cases r with
    | fault x =>
      exact ⟨1, _, [], .one (List.suffix_cons _ G) rfl List.suffix_rfl, (List.append_nil _).symm,
        g', h', hg', hm', rfl⟩
    | _ =>
      exact ⟨1, _, [], .one (List.suffix_cons _ G) rfl List.suffix_rfl, (List.append_nil _).symm,
        g', h', hg', hm', rfl⟩

/-! ### One more unit of fuel -/

/-- Code that has been answered goes on. -/
theorem goes_on (hf : Follows H fuel) (ha : Agrees v g j pos rest p) (ho : Owns g j d.event owned)
    {F : List (Frame H)} {code : H.Code} {s : State H} {calls : List (Fn × H.Arg)} {o : Outcome H}
    (h : Simulates (.user code owned :: F) s calls fuel
      (AnswersOver g j d (.user code owned :: F)) o) :
    Simulates F s calls fuel (LetsGo g j owned F)
      (o.andThen fun r rest p => interpret v fuel (.resume code d r) rest p) := by
  refine h.andThen (List.suffix_cons _ F) ?_
  rintro r rest' q t ⟨g', h', hg, hm, rfl⟩
  obtain ⟨pos', hagrees⟩ := hg.agrees ha
  exact (hf.resume F code r hagrees (ho.leaves hg) hm).finish List.suffix_rfl
    fun _ _ _ _ ht => ⟨0, _, .refl ht.suffix, ht.trans hg⟩

/-- Code takes a turn. -/
theorem resume_succ (hf : Follows H fuel) (ha : Agrees v g j pos rest p)
    (ho : Owns g j d.event owned) (hm : Makes g h d) (F : List (Frame H)) (code : H.Code)
    (r : Reply H.toVocabulary) :
    Simulates F (p.state h (.user code owned :: F) (.reply r)) p.calls (fuel + 1)
      (LetsGo g j owned F) (interpret v (fuel + 1) (.resume code d r) rest p) := by
  have hturn : Agrees v g j pos rest (p.turn (H.resume code r p.memory)) := ha.congr rfl rfl
  have htake : (p.state h (.user code owned :: F) (.reply r)).step =
      (p.state h F (.reply r)).takeTurn code owned r := rfl
  unfold takeTurn at htake
  rw [interpret]
  dsimp only [Progress.state] at htake ⊢
  cases hact : (H.resume code r p.memory).act with
  | finish r' =>
    rw [hact] at htake
    dsimp only
    split
    · rename_i hempty
      obtain rfl := hm.eq_of_nil hempty
      exact .quiet_step (List.suffix_cons _ F) htake rfl
        ⟨0, _, [], .refl (List.suffix_cons _ F), (List.append_nil _).symm, _, hturn.leaves, rfl⟩
    · trivial
  | pause code' =>
    rw [hact] at htake
    exact .quiet_step (List.suffix_cons _ F) htake rfl (hf.resume F code' .done hturn ho hm)
  | request rq code' =>
    rw [hact] at htake
    let G : List (Frame H) := .user code' owned :: F
    dsimp only
    split
    · -- a function is made
      rename_i d' q hmake
      obtain ⟨hevent, hcalls, g', h', hg, hm', hask⟩ :=
        hm.make hturn hmake G (.reply r)
      obtain ⟨pos', hagrees⟩ := hg.agrees hturn
      have hresume := (hf.resume F code' (.made p.fresh) hagrees
        (hevent ▸ ho.leaves hg) hm').finish List.suffix_rfl
          fun _ _ _ _ ht => ⟨0, _, .refl ht.suffix, ht.trans hg⟩
      rw [hcalls] at hresume
      exact .quiet_step (List.suffix_cons _ F) (htake.trans hask) rfl hresume
    · -- a function goes
      rename_i i f hmake hdiscards
      cases rq with
      | discard i' =>
        obtain ⟨f', hi, he⟩ := Option.map_eq_some_iff.1 hdiscards
        obtain ⟨rfl, rfl⟩ := Prod.mk.inj he
        have hevent : (d.discard i' f').1.event = d.event := by
          rcases d.discard_cases i' f' with ⟨hd, -⟩ | ⟨q, c, -, -, -, hd⟩ <;> rw [hd]
        exact .quiet_step (List.suffix_cons _ F) htake rfl
          (hf.goes_on hturn (hevent ▸ ho) (hf.discard hturn hm hi G (.reply r)))
      | _ => exact absurd hdiscards (by simp [Desk.discards?])
    · -- something is asked that leaves the desk as it is
      rename_i hmake hdiscards
      have hanswer := hf.answer (hm.agrees_over hturn) (ho.over hm) G (.reply r) rq
      refine .step (List.suffix_cons _ F) htake (hf.goes_on hturn ho (hanswer.finish
        List.suffix_rfl ?_))
      rintro r' rest' q t ⟨h', hl, rfl⟩
      obtain ⟨g', hg', hm'⟩ := hm.leaves hl
      exact ⟨0, _, .refl List.suffix_rfl, g', h', hg', hm', rfl⟩

/-- A listener with code of its own receives its event. -/
theorem enter_native (hf : Follows H fuel) {j : Journey} (ha : Agrees v h (some j) pos rest p)
    (F : List (Frame H)) {f : Fn} (hstores : h.Stores f) (code : HandleId → H.Code) :
    Simulates F
      (p.state (h.wrapUp (.event (j.event f))).2
        (.user (code h.handles.nextId) [.handle h.handles.nextId] :: F) (.reply .done))
      p.calls fuel (LetsGo h (some j) [.event (j.event f)] F)
      (interpret (v.receive p.fresh j.home f) fuel
        (.resume (code p.fresh) { event := some (p.fresh, j.home) } .done) rest p.named) := by
  have hown : (h.wrapUp (.event (j.event f))).2.handles.get? p.fresh =
      some (.event (j.event f)) := by
    show (h.handles.alloc _).2.get? p.fresh = _
    rw [ha.fresh, Pool.get?_alloc, if_pos rfl]
  rw [← ha.fresh]
  refine (hf.resume F (code p.fresh) .done (ha.receive hstores) (.event hown)
    (Makes.nothing _ _)).finish List.suffix_rfl ?_
  rintro r rest' q t ⟨g, hg, rfl⟩
  obtain ⟨g', hg', hrelease⟩ := hg.release_handle
  refine ⟨1, _, .one (List.suffix_cons _ F) ?_ (List.suffix_cons _ F), g', hg', rfl⟩
  show releaseNext ⟨g, q.memory, q.journal, F, .reply .done⟩ [.handle p.fresh] r = _
  unfold releaseNext
  dsimp only
  rw [ha.fresh, hrelease]
  rfl

/-- A simple listener goes on with the chain after its function has run. -/
theorem after_simple (hf : Follows H fuel) {j : Journey} (ha : Agrees v h (some j) pos rest p)
    (F : List (Frame H)) (f : Fn) (arg : H.Arg) (r : Reply H.toVocabulary) :
    Simulates F (p.state h (.afterSimple (j.event f) arg :: F) (.reply r)) p.calls fuel
      (LetsGo h (some j) [.event (j.event f)] F)
      (match r with
        | .fault x => .done (.fault x) rest p
        | _ => Plain.next (interpret v fuel) j.home arg rest p) := by
  have hgoes (hr : ∀ x, r ≠ .fault x) :
      Simulates F (p.state h (.afterSimple (j.event f) arg :: F) (.reply r)) p.calls fuel
        (LetsGo h (some j) [.event (j.event f)] F)
        (Plain.next (interpret v fuel) j.home arg rest p) := by
    have hnext := hf.next ha (.await [.event (j.event f)] :: F) (.reply r) f arg
    have hstep : (p.state h (.afterSimple (j.event f) arg :: F) (.reply r)).step =
        (p.state h (.await [.event (j.event f)] :: F) (.reply r)).advance (j.event f) arg := by
      cases r with
      | fault x => exact absurd rfl (hr x)
      | _ => rfl
    exact (Simulates.step (List.suffix_cons _ F) hstep
      (hnext.finish (List.suffix_cons _ F) fun r rest p t ht => ht.letsGo)).lower (Nat.le_succ fuel)
  cases r with
  | fault x =>
    have hone : Leads F (p.state h (.afterSimple (j.event f) arg :: F) (.reply (.fault x))) 1
        (p.state h (.releasing [.event (j.event f)] (.fault x) :: F) (.reply .done)) [] :=
      .one (List.suffix_cons _ F) rfl (List.suffix_cons _ F)
    exact ⟨1, _, [], hone, (List.append_nil _).symm, h, ha.leaves, rfl⟩
  | _ => exact hgoes fun x hx => absurd hx (by simp)

/-- A function starts. -/
theorem apply_succ (hf : Follows H fuel) (ha : Agrees v h j pos rest p) (F : List (Frame H))
    (entry : Option Entry) (f : Fn) (arg : H.Arg) :
    Simulates F (p.state h F (.invoke entry f (j.map (·.event f)) arg)) p.calls (fuel + 1)
      (LetsGo h j ((j.map (·.event f)).toList.map .event) F)
      (interpret v (fuel + 1) (.apply f (j.map (·.home)) arg) rest p) := by
  have hbody : v.body f = (f.bind h.payloads.get?).map (·.body) := by
    rw [View.body, ha.shows.payload]
  have hinvoke : (p.state h F (.invoke entry f (j.map (·.event f)) arg)).step =
      (p.state h F (.invoke entry f (j.map (·.event f)) arg)).invoke f (j.map (·.event f)) arg :=
    rfl
  unfold State.invoke at hinvoke
  dsimp only [Progress.state] at hinvoke
  rw [interpret.eq_def]
  dsimp only
  rw [hbody]
  cases hload : f.bind h.payloads.get? with
  | none =>
    rw [hload] at hinvoke
    exact .quiet_step List.suffix_rfl hinvoke rfl
      ⟨0, _, [], .refl (List.suffix_cons _ F), (List.append_nil _).symm, h, ha.leaves, rfl⟩
  | some load =>
    rw [hload] at hinvoke
    obtain ⟨body, rule⟩ := load
    have hstores : h.Stores f := by
      rintro q rfl
      exact ⟨_, hload⟩
    cases body with
    | native n keeps =>
      cases j with
      | none =>
        exact .quiet_step List.suffix_rfl hinvoke rfl
          (hf.resume F (H.onCall n none arg) .done ha .nothing (Makes.nothing h none))
      | some j =>
        exact .quiet_step List.suffix_rfl hinvoke rfl
          (hf.enter_native ha F hstores fun i => H.onCall n (some i) arg)
    | simple inner =>
      cases j with
      | none => exact .quiet_step List.suffix_rfl hinvoke rfl (hf.apply F none inner arg ha)
      | some j =>
        have hinner := hf.apply (.afterSimple (j.event f) arg :: F) none inner arg ha.outside
        refine .quiet_step List.suffix_rfl hinvoke rfl (hinner.andThen (List.suffix_cons _ F) ?_)
        intro r left q t ht
        obtain ⟨m, u, hl, g, hg, rfl⟩ := LetsGo.answers ht
        have hleaves : Leaves h (some j) rest q g := ha.leaves_of_outside hg
        obtain ⟨pos', hagrees⟩ := hleaves.agrees ha
        have hafter := (hf.after_simple hagrees F f arg r).finish List.suffix_rfl
          fun _ _ _ _ ht => ⟨0, _, .refl ht.suffix, ht.trans hleaves⟩
        rw [← List.append_nil q.calls] at hafter
        exact (hafter.after (hl.mono (List.suffix_cons _ F))).lower (Nat.le_add_left fuel m)
    | chain c =>
      have hcall := hf.call ha (.await ((j.map (·.event f)).toList.map .event) :: F)
        (.invoke entry f (j.map (·.event f)) arg) c arg
      exact .step List.suffix_rfl hinvoke
        (hcall.finish (List.suffix_cons _ F) fun r rest p t ht => ht.letsGo)

/-- Two functions are compared. -/
theorem compare_succ (hf : Follows H fuel) (ha : Agrees v h none none none p) (F : List (Frame H))
    (left right : Fn) :
    Simulates F (p.state h F (.compare left right)) p.calls (fuel + 1) (Answers h none F)
      (interpret v (fuel + 1) (.compare left right) none p) := by
  have hcompare : (p.state h F (.compare left right)).step =
      (p.state h F (.compare left right)).compare left right := rfl
  have hsettled {same : Bool} (hstep : (p.state h F (.compare left right)).step =
      p.state h F (.reply (.flag same))) :
      Simulates F (p.state h F (.compare left right)) p.calls (fuel + 1) (Answers h none F)
        (.done (.flag same) none p) :=
    .quiet_step List.suffix_rfl hstep rfl (ha.answers F _ fuel)
  unfold State.compare at hcompare
  dsimp only [Progress.state] at hcompare
  rw [interpret.eq_def]
  dsimp only
  rw [ha.shows.stored, ha.shows.stored, ha.shows.payload, ha.shows.payload]
  cases hjudge : judge (h.stored left) (h.stored right) with
  | settled same =>
    rw [hjudge] at hcompare
    exact hsettled hcompare
  | consult =>
    rw [hjudge] at hcompare
    dsimp only at hcompare ⊢
    cases hl : left.bind h.payloads.get? with
    | none =>
      rw [hl] at hcompare
      exact hsettled hcompare
    | some l =>
      cases hr : right.bind h.payloads.get? with
      | none =>
        rw [hl, hr] at hcompare
        exact hsettled hcompare
      | some r =>
        rw [hl, hr] at hcompare
        obtain ⟨lbody, lrule⟩ := l
        obtain ⟨rbody, rrule⟩ := r
        dsimp only at hcompare ⊢
        have hsimple {a b : Fn} (hstep : (p.state h F (.compare left right)).step =
            p.state h F (.compare a b)) :
            Simulates F (p.state h F (.compare left right)) p.calls (fuel + 1) (Answers h none F)
              (interpret v fuel (.compare a b) none p) :=
          .quiet_step List.suffix_rfl hstep rfl (hf.compare F a b ha)
        have hnative {code : H.Code} (hstep : (p.state h F (.compare left right)).step =
            p.state h (.user code [] :: F) (.reply .done)) :
            Simulates F (p.state h F (.compare left right)) p.calls (fuel + 1) (Answers h none F)
              (interpret v fuel (.resume code {} .done) none p) :=
          .quiet_step List.suffix_rfl hstep rfl ((hf.resume F code .done ha .nothing
            (Makes.nothing h none)).finish List.suffix_rfl fun _ _ _ _ ht => LetsGo.answers ht)
        cases lrule <;> cases lbody <;> cases rbody <;>
          first | exact hsettled hcompare | exact hsimple hcompare | exact hnative hcompare

theorem succ (hf : Follows H fuel) : Follows H (fuel + 1) where
  apply := fun F entry f arg ha => hf.apply_succ ha F entry f arg
  compare := fun F left right ha => hf.compare_succ ha F left right
  resume := fun F code r ha ho hm => hf.resume_succ ha ho hm F code r

end Follows

/-- The run follows the interpreter with any amount of fuel. -/
theorem follows : ∀ fuel, Follows H fuel
  | 0 => .zero
  | fuel + 1 => (follows fuel).succ

end Plain
end Relay
