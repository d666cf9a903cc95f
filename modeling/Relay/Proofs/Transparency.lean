/-
  Simple listeners are TRANSPARENT.

  Two calls are compared: one of a chain whose listeners only go on, and one of a chain that has the
  same listeners and, wherever they were put, simple ones.  Both follow `Manner.play` on one list.  So
  they come to the same answer, or to none; and the other listeners are run in the same order on the
  same arguments, though with simple listeners in between a `next` takes the dispatch further.
-/
import Relay.Proofs.Following
import Relay.Script.Session

namespace Relay

variable {H : Host}

namespace Trip

variable {T : Trip H} {M : Manner H} {k l : Nat} {passed : List H.Arg} {sight : M.Sight}

/-! ## How a call begins -/

variable (T) in
/-- Its first step starts a dispatch, while the handle of the chain is held. -/
theorem exists_start : ∃ v : State H, v.heap = T.origin.heap.retain (.handle T.owner) ∧
    v.frames = T.under ∧ T.state 1 = v.startCall T.chain T.arg := by
  obtain ⟨t, hheap, hbelow, hstep⟩ := T.asks.exists_step
  refine ⟨t.hold [T.owner], congrArg (Heap.retain · (.handle T.owner)) hheap,
    ?_, hstep.trans ?_⟩
  · rw [under, ← hbelow]
    rfl
  · simp only [State.ask, hheap, T.called]

variable (T) in
/-- It has handed on its own argument. -/
theorem log_one : T.origin.log 1 = ⟨(T.state 1).mode.call?.toList, [], [T.arg]⟩ := by
  have hlends : T.origin.lends? = none := by
    obtain ⟨r, code, owned, rest, code', hmode, -⟩ := T.asks
    exact State.lends?_of_listens (by rw [hmode]; rfl)
  rw [State.log_succ]
  show (⟨_, _ ++ T.origin.lends?.toList, _ ++ T.origin.handed?.toList⟩ : Log H) = _
  rw [hlends, T.asks.handed?_eq]
  rfl

/-- Then it is underway. -/
theorem at_one {log : Log H} {rest : List Fn} (hlog : T.origin.log 1 = log)
    (hunder : T.under <:+ (T.state 1).frames)
    (hhandles : (T.state 1).heap.handles = (T.origin.heap.retain (.handle T.owner)).handles)
    (hstands : T.Stands (T.state 1).heap rest) : T.At 1 log rest := by
  have hspares : T.origin.heap.Spares (T.state 1).heap :=
    (Heap.Spares.retain _ T.owner).trans (.of_eq hhandles)
  have hcalled := chainOf_of_spares T.called (hspares T.owner) fun d e e' hd hd' => by
    obtain ⟨deed, hdoes⟩ := T.origin.step_does
    exact hdoes.change.home_eq T.reachable.accounted (by rw [Heap.get?_scene_dispatches, hd])
      (by rw [Heap.get?_scene_dispatches]; exact hd')
  obtain ⟨chain, hc⟩ := (reachable_state 1).grounded _ _ hcalled
  have hlist : (T.state 1).heap.listing T.chain = T.list := by
    have hlists := T.reachable.passes.lists T.chain fun he => absurd (hc.symm.trans he) (by simp)
    rw [T.asks.edit_eq] at hlists
    exact hlists
  refine ⟨Nat.one_pos, hlog, ?_, hcalled, ?_, hlist, fun p hp => loads_of_list hlist hp, hstands⟩
  · intro m hm hle
    obtain rfl : m = 1 := by omega
    exact hunder
  · obtain ⟨ref, href, -⟩ := exists_handle T.called
    have hpos : 0 < T.origin.heap.handles.count T.owner := by
      rw [Pool.count_pos_iff, href]
      rfl
    rw [hhandles]
    show _ < (T.origin.heap.handles.retain T.owner).count T.owner
    rw [Pool.count_retain, if_pos ⟨rfl, by rw [href]; rfl⟩]
    omega

/-- The call does what the listeners do by themselves, from the first of them on. -/
theorem follows_call (hT : T.Mannered M) (fuel : Nat) :
    T.Follows M 1 fuel (fun r => (T.under, .reply r))
      (M.pass (M.play fuel) T.arg (T.natives T.listeners) (M.sight (T.state 1).memory) [T.arg]) := by
  obtain ⟨v, hheap, hunder, hstart⟩ := T.exists_start
  obtain ⟨chain, hc⟩ := T.reachable.grounded _ _ T.called
  have hcoh : chain.Coherent :=
    T.reachable.coherent _ chain (by rw [Heap.get?_scene_chains, hc])
  have hlist : chain.listing = T.list := (Heap.listing_of_get? hc).symm
  have hcv : v.heap.chains.get? T.chain = some chain := by
    rw [hheap]
    exact hc
  have hdispatch : v.heap.dispatches.nextId = T.dispatch := by
    rw [hheap]
    rfl
  cases hlisteners : T.listeners with
  | nil =>
    rw [State.startCall_nil _ hcv hcoh (hlist.trans (List.map_eq_nil_iff.1 hlisteners))] at hstart
    have hat : T.At 1 (T.trace [T.arg]) (T.ahead [T.arg]) := by
      refine at_one ?_ (by rw [hstart, ← hunder]; exact List.suffix_rfl)
        (by rw [hstart, ← hheap]; rfl) ?_
      · rw [T.log_one, hstart, trace, hlisteners]
        rfl
      · intro e he
        have hnew := v.heap.dispatches.get?_nextId
        rw [hdispatch] at hnew
        rw [hstart] at he
        exact absurd (hnew.symm.trans he) (by simp)
    refine ⟨by rw [ahead, hlisteners]; rfl, 1, hat, Nat.le_refl 1, ?_, ?_, rfl, .refl _⟩ <;> rw [hstart]
    · exact hunder
    · rfl
  | cons m rest =>
    have hmap : chain.listing.map (·.2) = m :: rest := by
      rw [hlist]
      exact hlisteners
    obtain ⟨g, i, hcall, hhandles, hstands, hleft⟩ := State.startCall_cons _ hcv hcoh hmap T.arg
    rw [hcall, hdispatch] at hstart
    rw [hdispatch] at hstands
    have hat : T.At 1 ⟨[] ++ [(m, T.arg)], T.origin.heap.innerOf [], [T.arg]⟩ rest := by
      refine at_one ?_ ?_ ?_ ?_
      · rw [T.log_one, hstart]
        rfl
      · rw [hstart, ← hunder]
        exact List.suffix_cons _ _
      · rw [hstart, ← hheap]
        exact hhandles
      · intro e he
        rw [hstart] at he
        obtain rfl := Option.some.inj (he.symm.trans hstands)
        exact ⟨rfl, hlist ▸ hleft⟩
    exact follows_pass hT (follows hT fuel) hat (by rw [hstart, ← hunder]) (by rw [hstart])
      List.suffix_rfl (hlisteners ▸ List.suffix_rfl) (by rw [hlisteners]; rfl)
      (by rw [ahead, hlisteners]) rfl

/-! ## How it ends -/

/-- Who has called gets the answer. -/
theorem Hears.answered {r : Reply H.toVocabulary} (h : T.Hears M k l passed sight T.under (.reply r)) :
    ∃ n, T.origin.Answered T.below n r ∧ T.origin.log n = T.trace passed := by
  have hstep : (T.state l).step =
      ({ T.state l with frames := T.below } : State H).release [.handle T.owner] r :=
    State.step_of_top h.frames h.mode
  have hquiet : (T.state l).Quiet := .of_reply hstep rfl (State.edit_of_top h.frames h.mode
    (by simp) (by simp)).2
  -- somebody else has a share in the handle
  have hshared : ((T.state (l + 1)).heap.release (.handle T.owner)).1.refs = [] := by
    rw [state_succ, hstep]
    exact Heap.refs_release_shared h.underway.spared
  have hframes : (T.state (l + 1)).frames = .releasing [.handle T.owner] r :: T.below := by
    rw [state_succ, hstep]
    rfl
  have hmode : (T.state (l + 1)).mode = .reply .done := by
    rw [state_succ, hstep]
    rfl
  have hstep' : (T.state (l + 1)).step = { T.state (l + 1) with
      heap := ((T.state (l + 1)).heap.release (.handle T.owner)).2
      frames := .releasing [] r :: T.below
      mode := .reply .done } := by
    rw [State.step_of_releasing_handle hframes hmode, hshared]
    rfl
  have hquiet' : (T.state (l + 1)).Quiet := .of_reply hstep' rfl (State.edit_of_top hframes hmode
    (by simp) (by simp)).2
  have hframes' : (T.state (l + 2)).frames = .releasing [] r :: T.below := by
    rw [state_succ, hstep']
  have hmode' : (T.state (l + 2)).mode = .reply .done := by
    rw [state_succ, hstep']
  have hstep'' : (T.state (l + 2)).step =
      { T.state (l + 2) with frames := T.below, mode := .reply r } :=
    State.step_of_top hframes' hmode'
  have hquiet'' : (T.state (l + 2)).Quiet := .of_reply hstep'' rfl (State.edit_of_top hframes' hmode'
    (by simp) (by simp)).2
  refine ⟨l + 3, ⟨Nat.succ_pos _, congrArg State.mode hstep'', congrArg State.frames hstep'', ?_⟩, ?_⟩
  · intro j hj hlt
    rcases Nat.lt_or_ge l j with hlj | hjl
    · obtain rfl | rfl : j = l + 1 ∨ j = l + 2 := by omega
      · exact hframes ▸ List.cons_ne_self _ _
      · exact hframes' ▸ List.cons_ne_self _ _
    · exact h.underway.unanswered j hj hjl
  · rw [hquiet''.log_succ, hquiet'.log_succ, hquiet.log_succ]
    exact h.underway.log

/-- The stack is as high as it was only when the call has been answered. -/
theorem not_open (hk : 0 < k) (hlength : (T.state k).frames.length = T.origin.frames.length) :
    ¬T.Open k := by
  intro hopen
  have hbelow := T.asks.suffix_after hk fun j hj hlt => hopen j hj (Nat.le_of_lt hlt)
  obtain ⟨-, -, -, -, hsame⟩ := T.asks.below_eq
  exact hopen k hk (Nat.le_refl k) (hbelow.eq_of_length (hsame.symm.trans hlength.symm)).symm

/-! ## Two calls -/

/-- The call is the call `T` with simple listeners put in, whose functions do no harm. -/
structure Extends (T' T : Trip H) (M : Manner H) : Prop where
  arg : T'.arg = T.arg
  listeners : ∀ f ∈ T.listeners, ∃ n, T.origin.heap.native? f = some n ∧ M.Keeps n
  inserted : ∀ f ∈ T'.listeners,
    (T'.origin.heap.native? f).isSome ∨ (T'.origin.heap.inner? f).isSome
  /-- Without the simple listeners the two lists are the same. -/
  natives : T'.natives T'.listeners = T.natives T.listeners
  /-- The listeners find the memory as it is there. -/
  sight : M.sight T'.origin.step.memory = M.sight T.origin.step.memory
  harmless : ∀ k, T'.Open k → (T'.state k).lends? ≠ none → ∃ n, M.Harmless (T'.state (k + 1)) n

/-- After `n` steps of the one call and `n'` of the other the same was to be seen. -/
structure Alike (T T' : Trip H) (n n' : Nat) : Prop where
  passed : T'.origin.passed n' = T.origin.passed n
  /-- The other listeners were run in the same order, on the same arguments. -/
  natives : T'.origin.heap.nativeOf (T'.origin.calls n') = T.origin.heap.nativeOf (T.origin.calls n)
  /-- Simple listeners were run on what was passed on at their places. -/
  calls : T'.origin.calls n' = T'.origin.heap.along T'.listeners (T'.origin.passed n')
  /-- Listeners were run in their order, none was left out, and none was run twice. -/
  once : (T'.origin.calls n').map (·.1) <+: T'.listeners
  /-- Each simple listener that was run has started its function, once and on the same argument. -/
  lent : T'.origin.lent n' = T'.origin.heap.innerOf (T'.origin.calls n')

variable {T' : Trip H} {n n' : Nat}

theorem Extends.plain_mannered (h : T'.Extends T M) : T.Mannered M where
  listeners := fun f hf => .inl (h.listeners f hf)
  harmless := by
    rintro ⟨f, hf, hsimple⟩
    obtain ⟨n, hn, -⟩ := h.listeners f hf
    rw [Heap.inner?_of_native? hn] at hsimple
    exact absurd hsimple (by simp)

theorem Extends.mannered (h : T'.Extends T M) : T'.Mannered M where
  listeners := by
    intro f hf
    rcases h.inserted f hf with hn | hinner
    · obtain ⟨n, hn⟩ := Option.isSome_iff_exists.1 hn
      have hmem : n ∈ T.natives T.listeners :=
        h.natives ▸ List.mem_filterMap.2 ⟨f, hf, hn⟩
      obtain ⟨g, hg, hgn⟩ := List.mem_filterMap.1 hmem
      obtain ⟨m, hm, hkeeps⟩ := h.listeners g hg
      obtain rfl := Option.some.inj (hgn.symm.trans hm)
      exact .inl ⟨n, hn, hkeeps⟩
    · exact .inr (Option.isSome_iff_exists.1 hinner)
  harmless := fun _ => h.harmless

/-- The same arguments lead along the same listeners. -/
theorem Extends.alike (h : T'.Extends T M) (hlog : T.origin.log n = T.trace passed)
    (hlog' : T'.origin.log n' = T'.trace passed) : T.Alike T' n n' := by
  have hcalls : T.origin.calls n = T.origin.heap.along T.listeners passed := congrArg Log.calls hlog
  have hpassed : T.origin.passed n = passed := congrArg Log.passed hlog
  have hcalls' : T'.origin.calls n' = T'.origin.heap.along T'.listeners passed :=
    congrArg Log.calls hlog'
  have hpassed' : T'.origin.passed n' = passed := congrArg Log.passed hlog'
  have hall : ∀ f ∈ T.listeners,
      (T.origin.heap.native? f).isSome ∨ (T.origin.heap.inner? f).isSome := fun f hf => by
    obtain ⟨n, hn, -⟩ := h.listeners f hf
    exact .inl (by rw [hn]; rfl)
  refine ⟨hpassed'.trans hpassed.symm, ?_, by rw [hpassed', hcalls'], ?_, ?_⟩
  · rw [hcalls, hcalls', Heap.nativeOf_along hall, Heap.nativeOf_along h.inserted]
    exact congrArg (List.zip · passed) h.natives
  · rw [hcalls']
    exact ⟨_, Heap.along_ahead T'.listeners passed⟩
  · rw [hcalls']
    exact congrArg Log.lent hlog'

end Trip

/-- Put any number of simple listeners anywhere into a chain whose listeners only go on.  If their
    functions do no harm, a call has the same answer as before, or is never answered, as before; the
    other listeners are run in the same order on the same arguments; and each simple listener that
    the dispatch reaches runs its function once, on what was passed on at its place. -/
theorem simple_listeners_are_transparent {M : Manner H} {T T' : Trip H} (h : T'.Extends T M) :
    (∃ r n n', T.origin.Answered T.below n r ∧ T'.origin.Answered T'.below n' r ∧ T.Alike T' n n') ∨
      ∀ k, ∃ n n', k ≤ n ∧ k ≤ n' ∧ T.Open n ∧ T'.Open n' ∧ T.Alike T' n n' := by
  have hfollows := T.follows_call h.plain_mannered
  have hfollows' (fuel : Nat) : T'.Follows M 1 fuel (fun r => (T'.under, .reply r))
      (M.pass (M.play fuel) T.arg (T.natives T.listeners) (M.sight (T.state 1).memory) [T.arg]) := by
    have hcall := T'.follows_call h.mannered fuel
    rw [h.arg, h.natives] at hcall
    exact h.sight ▸ hcall
  by_cases hdone : ∃ fuel r rest sight passed, M.pass (M.play fuel) T.arg (T.natives T.listeners)
      (M.sight (T.state 1).memory) [T.arg] = .done r rest sight passed
  · left
    obtain ⟨fuel, r, rest, sight, passed, hdone⟩ := hdone
    have hends := hfollows fuel
    have hends' := hfollows' fuel
    rw [hdone] at hends hends'
    obtain ⟨-, l, hl⟩ := hends
    obtain ⟨-, l', hl'⟩ := hends'
    obtain ⟨n, hn, hlog⟩ := hl.answered
    obtain ⟨n', hn', hlog'⟩ := hl'.answered
    exact ⟨r, n, n', hn, hn', h.alike hlog hlog'⟩
  · right
    intro k
    have hlasts := hfollows k
    have hlasts' := hfollows' k
    cases hplay : M.pass (M.play k) T.arg (T.natives T.listeners) (M.sight (T.state 1).memory)
        [T.arg] with
    | done r rest sight passed => exact absurd ⟨k, r, rest, sight, passed, hplay⟩ hdone
    | timeout passed =>
      rw [hplay] at hlasts hlasts'
      obtain ⟨n, hn, hat⟩ := hlasts
      obtain ⟨n', hn', hat'⟩ := hlasts'
      exact ⟨n, n', by omega, by omega, hat.unanswered, hat'.unanswered, h.alike hat.log hat'.log⟩

/-! ## Ready-made listeners and functions -/

/-- The handle and the argument of a call. -/
def Request.callee? {T : Vocabulary} : Request T → Option (HandleId × T.Arg)
  | .call i arg => some (i, arg)
  | _ => none

/-- The call that is asked for in a reachable state. -/
def Trip.ofCall {s : State H} (hs : Reachable s) {i : HandleId} {a : H.Arg} {c : ChainId}
    (hasks : (s.asking.bind fun e => e.1.callee?) = some (i, a)) (hc : s.heap.chainOf i = some c) :
    Trip H where
  origin := s
  reachable := hs
  owner := i
  arg := a
  below := s.asking.elim [] (·.2)
  asks := by
    obtain ⟨⟨rq, below⟩, hasking, hcallee⟩ := Option.bind_eq_some_iff.1 hasks
    rw [hasking]
    cases rq with
    | call j b =>
      obtain ⟨rfl, rfl⟩ := Prod.mk.inj (Option.some.inj hcallee)
      exact State.asks_of_asking hasking
    | _ => exact absurd hcallee (by simp [Request.callee?])
  chain := c
  called := hc

/-- The function that a simple listener starts is run without an event. -/
theorem State.invoke_of_lends {s : State H} {f : Fn} {arg : H.Arg} (h : s.lends? = some (f, arg)) :
    s.step.mode = .invoke none f none arg := by
  unfold lends? at h
  split at h
  · split at h
    · cases hmode : s.step.mode with
      | invoke entry g event a =>
        rw [hmode] at h
        cases entry <;> cases event <;> simp_all [Mode.plain?]
      | _ =>
        rw [hmode] at h
        exact absurd h (by simp [Mode.plain?])
    · exact absurd h (by simp)
  · exact absurd h (by simp)

/-- A function that ends in its first turn does no harm, if it spares what the listeners know. -/
theorem Manner.harmless_of_finish (M : Manner H) {s : State H} {n : H.Native} {f : Fn} {arg : H.Arg}
    {r : Reply H.toVocabulary} (hmode : s.mode = .invoke none f none arg)
    (hf : s.heap.native? f = some n)
    (hact : (H.resume (H.onCall n none arg) .done s.memory).act = .finish r)
    (hr : ∀ f, r ≠ .fault f)
    (hsight : M.sight (H.resume (H.onCall n none arg) .done s.memory).memory = M.sight s.memory) :
    M.Harmless s 3 := by
  obtain ⟨p, keeps, rule, rfl, hp⟩ := Heap.exists_native hf
  have hone : s.after 1 = { s with
      frames := .user (H.onCall n none arg) [] :: s.frames, mode := .reply .done } := by
    show s.step = _
    rw [State.step_of_invoke hmode]
    unfold State.invoke
    rw [Option.bind_some, hp]
    rfl
  obtain ⟨journal, hturn⟩ := ({ s with mode := .reply .done } : State H).takeTurn_finish [] hact
  have htwo : s.after 2 = { s with
      memory := (H.resume (H.onCall n none arg) .done s.memory).memory
      journal
      frames := .releasing [] r :: s.frames
      mode := .reply .done } := by
    rw [State.after_succ, hone]
    exact hturn
  have hthree : s.after 3 = { s with
      memory := (H.resume (H.onCall n none arg) .done s.memory).memory
      journal
      mode := .reply r } := by
    rw [State.after_succ, htwo]
    rfl
  have hcode : (s.after 1).handed? = none := by
    unfold State.handed? State.asking
    rw [hone]
    dsimp only
    rw [hact]
    rfl
  refine ⟨⟨r, by rw [hthree], hr⟩, by rw [hthree], ?_, ?_, by rw [hthree], ?_,
    by rw [hthree]; exact hsight⟩
  · intro k hk
    obtain rfl | rfl | rfl | rfl : k = 0 ∨ k = 1 ∨ k = 2 ∨ k = 3 := by omega
    · exact List.suffix_rfl
    · exact hone ▸ List.suffix_cons _ _
    · exact htwo ▸ List.suffix_cons _ _
    · exact hthree ▸ List.suffix_rfl
  · intro k hk
    obtain rfl | rfl | rfl : k = 0 ∨ k = 1 ∨ k = 2 := by omega
    · exact ⟨by rw [hone]; rfl, (State.edit_of_invoke hmode).2⟩
    · exact ⟨by rw [htwo]; rfl, hcode⟩
    · exact ⟨by rw [hthree]; rfl, (State.edit_of_top (by rw [htwo]) (by rw [htwo]) (by simp)
        (by simp)).2⟩
  · rw [hthree]
    exact .refl _

namespace Script

variable {V : Type} [DecidableEq V] [Argument V]

/-- How far a ready-made listener has come. -/
inductive Stage (V : Type) where
  | begin (p : Pointer) (arg : V)
  /-- Ends with whatever it hears. -/
  | passOn

/-- What a ready-made listener does with its argument. -/
def Pointer.move (p : Pointer) (arg : V) : Move (vocabulary V) (Stage V) :=
  match p with
  | .forward => .goOn arg .passOn
  | .double => .goOn (Argument.compute .add arg arg) .passOn
  | .nothing => .finish (.result none)
  | .stop => .finish (.result (some (.ok arg)))
  | .refuse => .finish (.result (some (.error "refused")))

variable (V) in
/-- Ready-made listeners only go on.  All they know of the memory is whether there is fuel. -/
def pointers : Manner (host V) where
  Part := Stage V
  Sight := Bool
  sight := Memory.exhausted
  Keeps n := ∃ p, n = .pointer p
  start n arg :=
    match n with
    | .pointer p => .begin p arg
    | _ => .passOn
  turn part r exhausted :=
    match exhausted, part with
    | true, _ => (true, .finish .done)
    | false, .begin p arg => (false, p.move arg)
    | false, .passOn => (false, .finish r)
  code part i :=
    match part with
    | .begin p arg => .begin (.pointer p) (some i) arg
    | .passOn => .passOn
  onCall := by
    rintro n i arg ⟨p, rfl⟩
    rfl
  resume_sight := by
    intro part i r memory
    show Memory.exhausted (Code.resume _ r memory).memory = _
    unfold Code.resume
    cases hfuel : Memory.exhausted memory with
    | true => exact hfuel
    | false => cases part <;> exact hfuel
  resume_act := by
    intro part i r memory
    show (Code.resume _ r memory).act = _
    unfold Code.resume
    cases Memory.exhausted memory with
    | true => rfl
    | false =>
      cases part with
      | begin p arg => cases p <;> rfl
      | passOn => rfl

/-- A ready-made simple function does no harm. -/
theorem harmless_of_simplePointer {s : State (host V)} {f : Fn} {arg : V} {p : SimplePointer}
    (hmode : s.mode = .invoke none f none arg) (hf : s.heap.native? f = some (.simplePointer p))
    (hfuel : Memory.exhausted s.memory = false) : (pointers V).Harmless s 3 := by
  have hturn : Code.resume (.begin (.simplePointer p) none arg) .done s.memory =
      (Native.simplePointer p).begin s.memory none arg := by
    unfold Code.resume
    rw [hfuel]
    rfl
  refine Manner.harmless_of_finish _ (r := .done) hmode hf ?_ (by simp) ?_
  · show (Code.resume (.begin (.simplePointer p) none arg) .done s.memory).act = _
    rw [hturn]
    cases p <;> rfl
  · show Memory.exhausted (Code.resume (.begin (.simplePointer p) none arg) .done s.memory).memory = _
    rw [hturn]
    cases p <;> rfl

def Native.pointer? : Native V → Option Pointer
  | .pointer p => some p
  | _ => none

omit [DecidableEq V] [Argument V] in
theorem Native.eq_of_pointer? {n : Native V} {p : Pointer} (h : n.pointer? = some p) :
    n = .pointer p := by
  cases n with
  | pointer q => rw [Option.some.inj h]
  | _ => exact absurd h (by simp [pointer?])

omit [DecidableEq V] [Argument V] in
theorem Native.eq_map_of_pointer? {ns : List (Native V)} {ps : List Pointer}
    (h : ns.map Native.pointer? = ps.map some) : ns = ps.map .pointer := by
  induction ns generalizing ps with
  | nil =>
    obtain rfl := List.map_eq_nil_iff.1 h.symm
    rfl
  | cons n ns ih =>
    cases ps with
    | nil => exact absurd h (by simp)
    | cons p ps =>
      obtain ⟨hn, hns⟩ := List.cons.inj h
      rw [Native.eq_of_pointer? hn, ih hns, List.map_cons]

/-- A simple function in this state is a ready-made one, and there is fuel. -/
def readyMade (s : State (host V)) (f : Fn) : Bool :=
  match s.heap.native? f with
  | some (.simplePointer _) => !Memory.exhausted s.memory
  | _ => false

theorem harmless_of_readyMade {s : State (host V)} {f : Fn} {arg : V}
    (hmode : s.mode = .invoke none f none arg) (hf : readyMade s f = true) :
    (pointers V).Harmless s 3 := by
  unfold readyMade at hf
  split at hf
  · rename_i p hp
    exact harmless_of_simplePointer hmode hp (by simpa using hf)
  · exact absurd hf (by simp)

instance : DecidableEq (host V).Arg := inferInstanceAs (DecidableEq V)

/-- The chain doubles its argument and then returns it, with `more` before, between and after. -/
def doubling (more : Program Int64) : Program Int64 :=
  [ .define "double" (.pointer .double), .define "stop" (.pointer .stop),
    .defineSimple "note" (.pointer .note) ] ++
  more ++ [.add "double" none (some .back)] ++ more ++ [.add "stop" none (some .back)] ++ more ++
  [.call ⟨.given 3, .absent⟩ none false]

def noted : Program Int64 := doubling [.addSimple "note" none (some .back)]

/-- The call of the chain of two listeners. -/
def plainTrip : Trip (host Int64) :=
  .ofCall ((reachable_start (doubling [])).after 10) (i := 0) (a := (3 : Int64)) (c := 0)
    (by decide +kernel) (by decide +kernel)

/-- The call of the chain with three simple listeners. -/
def notedTrip : Trip (host Int64) :=
  .ofCall ((reachable_start noted).after 16) (i := 0) (a := (3 : Int64)) (c := 0)
    (by decide +kernel) (by decide +kernel)

/-- After 61 steps it has been answered. -/
theorem notedTrip_answered : ¬notedTrip.Open 61 := notedTrip.not_open (by decide) (by decide +kernel)

/-- Until then only ready-made functions are started. -/
theorem notedTrip_readyMade : ∀ k < 61, ((notedTrip.state k).lends?).all fun e =>
    readyMade (notedTrip.state (k + 1)) e.1 = true := by
  decide +kernel

theorem notedTrip_extends : notedTrip.Extends plainTrip (pointers Int64) where
  arg := by
    have hplain : plainTrip.arg = (3 : Int64) := rfl
    have hnoted : notedTrip.arg = (3 : Int64) := rfl
    exact hnoted.trans hplain.symm
  listeners := by
    have hpointers : plainTrip.listeners.all fun f =>
        ((plainTrip.origin.heap.native? f).bind Native.pointer?).isSome := by decide +kernel
    intro f hf
    obtain ⟨p, hp⟩ := Option.isSome_iff_exists.1 (List.all_eq_true.1 hpointers f hf)
    obtain ⟨n, hn, hnp⟩ := Option.bind_eq_some_iff.1 hp
    exact ⟨n, hn, p, Native.eq_of_pointer? hnp⟩
  inserted := by decide +kernel
  natives := by
    have hnoted : (notedTrip.natives notedTrip.listeners).map Native.pointer? =
        [Pointer.double, Pointer.stop].map some := by decide +kernel
    have hplain : (plainTrip.natives plainTrip.listeners).map Native.pointer? =
        [Pointer.double, Pointer.stop].map some := by decide +kernel
    exact (Native.eq_map_of_pointer? hnoted).trans (Native.eq_map_of_pointer? hplain).symm
  sight := by
    show Memory.exhausted notedTrip.origin.step.memory = Memory.exhausted plainTrip.origin.step.memory
    decide +kernel
  harmless := by
    intro k hopen hlends
    obtain ⟨⟨f, arg⟩, he⟩ := Option.ne_none_iff_exists'.1 hlends
    have hk : k < 61 := by
      by_contra hge
      exact notedTrip_answered fun m hm hle => hopen m hm (by omega)
    have hready := notedTrip_readyMade k hk
    rw [he] at hready
    exact ⟨3, harmless_of_readyMade (State.invoke_of_lends he) (by simpa using hready)⟩

end Script

/-- Two of the three functions are reached, the one behind the listener that stops is not. -/
theorem simple_listeners_are_transparent_doubling :
    Script.notedTrip.Extends Script.plainTrip (Script.pointers Int64) ∧
    Script.plainTrip.listeners.length = 2 ∧ Script.notedTrip.listeners.length = 5 ∧
    (Script.notedTrip.origin.lent 61).map (·.1) = [some 2, some 2] ∧
    ∃ r n n', Script.plainTrip.origin.Answered Script.plainTrip.below n r ∧
      Script.notedTrip.origin.Answered Script.notedTrip.below n' r ∧
      Script.plainTrip.Alike Script.notedTrip n n' := by
  refine ⟨Script.notedTrip_extends, by decide +kernel, by decide +kernel, by decide +kernel, ?_⟩
  rcases simple_listeners_are_transparent Script.notedTrip_extends with hanswered | hnever
  · exact hanswered
  · obtain ⟨n, n', -, hle, -, hopen, -⟩ := hnever 61
    exact absurd (fun m hm hm' => hopen m hm (Nat.le_trans hm' hle)) Script.notedTrip_answered

end Relay
