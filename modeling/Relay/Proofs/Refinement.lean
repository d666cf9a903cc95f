/-
  A dispatch refines the plain interpreter.

  Take any reachable state in which code calls a chain, as a chain or through the function that the
  chain was turned into.  What is in the heap at that moment does not matter: there may be
  tombstones, and other dispatches on the same chain.  If the plain interpreter never strays on that
  call, the call has the same answer with the same listeners run on the same arguments in the same
  order; and if one of the two does not come to an end, neither does the other.  So it is as long as
  listeners change no chain and leave nothing of their own behind.
-/
import Relay.Proofs.Simulation

namespace Relay

variable {H : Host}

open Plain State

/-! ## What is called -/

/-- The chain that a request calls, and the argument; it may be called through a function. -/
def Request.called? {T : Vocabulary} (h : Heap T) : Request T → Option (ChainId × T.Arg)
  | .call i arg => (h.chainOf i).map (·, arg)
  | .apply i arg =>
    ((h.functionOf i).bind fun f => (f.bind h.payloads.get?).bind fun load => load.body.chain?).map
      (·, arg)
  | _ => none

theorem Request.called?_cases {T : Vocabulary} {h : Heap T} {rq : Request T} {c : ChainId}
    {arg : T.Arg} (hcalled : rq.called? h = some (c, arg)) :
    (∃ i, rq = .call i arg ∧ h.chainOf i = some c) ∨
    (∃ i q load, rq = .apply i arg ∧ h.functionOf i = some (some q) ∧
      h.payloads.get? q = some load ∧ load.body = .chain c) := by
  cases rq with
  | call i arg' =>
    obtain ⟨c', hi, he⟩ := Option.map_eq_some_iff.1 hcalled
    obtain ⟨rfl, rfl⟩ := Prod.mk.inj he
    exact .inl ⟨i, rfl, hi⟩
  | apply i arg' =>
    obtain ⟨c', hfound, he⟩ := Option.map_eq_some_iff.1 hcalled
    obtain ⟨rfl, rfl⟩ := Prod.mk.inj he
    obtain ⟨f, hi, hfound⟩ := Option.bind_eq_some_iff.1 hfound
    obtain ⟨⟨body, rule⟩, hload, hbody⟩ := Option.bind_eq_some_iff.1 hfound
    obtain ⟨q, rfl, hload⟩ := Option.bind_eq_some_iff.1 hload
    cases body with
    | chain c =>
      obtain rfl := Option.some.inj hbody
      exact .inr ⟨i, q, _, rfl, hi, hload, rfl⟩
    | _ => exact absurd hbody (by simp [Body.chain?])
  | _ => exact absurd hcalled (by simp [called?])

/-- What the view shows of a reachable state is so. -/
theorem Reachable.shows {s : State H} (hs : Reachable s) : Shows s.heap.view s.heap none where
  lists := fun _ => rfl
  listed := fun _ _ he => hs.stores_listener he
  coherent := fun c chain hc => hs.coherent c chain (by rw [Heap.get?_scene_chains, hc])
  payloads := fun _ => rfl
  functions := fun _ _ hi => ⟨hi, hs.stores_functionOf hi⟩
  chains := fun i c hi => ⟨hi, hs.grounded i c hi⟩
  finished := fun i b hi => by
    obtain ⟨e, he, hi⟩ := Option.bind_eq_some_iff.1 hi
    obtain ⟨k, hk, hb⟩ := Option.map_eq_some_iff.1 hi
    exact ⟨e, k, State.Owes.handle_of_eventOf he, hk, hb, by simp⟩

namespace State

/-! ## The two runs side by side -/

/-- The call of a chain in the coming step, as the plain interpreter runs it. -/
def plainly (s : State H) (c : ChainId) (arg : H.Arg) (fuel : Nat) : Outcome H :=
  Plain.call s.heap.view (interpret s.heap.view fuel) c arg none
    { memory := s.step.memory, journal := s.step.journal, calls := []
      fresh := s.heap.handles.nextId, stored := s.heap.payloads.nextId }

/-- A call that the interpreter has answered does not stray, with whatever fuel. -/
theorem plainly_ne_strayed {s : State H} {c : ChainId} {arg : H.Arg} {fuel : Nat}
    {r : Reply H.toVocabulary} {rest : Rest} {p : Progress H}
    (h : s.plainly c arg fuel = .done r rest p) (fuel' : Nat) :
    s.plainly c arg fuel' ≠ .strayed := by
  have hone (n : Nat) : (s.plainly c arg n).Grows (s.plainly c arg (n + 1)) :=
    call_grows (interpret_grows s.heap.view n) c arg none _
  have hgrows {m n : Nat} (hle : m ≤ n) : (s.plainly c arg m).Grows (s.plainly c arg n) :=
    .of_le hone hle
  intro hstrayed
  rcases Nat.le_total fuel fuel' with hle | hle
  · rcases hgrows hle with ⟨q, hq⟩ | hsame
    · exact absurd (h.symm.trans hq) (by simp)
    · exact absurd (hstrayed.symm.trans (hsame.trans h)) (by simp)
  · rcases hgrows hle with ⟨q, hq⟩ | hsame
    · exact absurd (hstrayed.symm.trans hq) (by simp)
    · exact absurd (h.symm.trans (hsame.trans hstrayed)) (by simp)

/-- The call that the coming step makes, and that `below` waits for, does what `plain` does. -/
structure Refines (s : State H) (below : List (Frame H)) (plain : Nat → Outcome H) : Prop where
  /-- An answer of the interpreter is the answer of the call; memory and reports are the same, and
      of the heap nothing has changed but numbers that are used up, those of handles and callables
      just as the interpreter has used them up. -/
  returns : ∀ fuel r rest p, plain fuel = .done r rest p → ∃ n, s.Answered below n r ∧
    s.calls n = p.calls ∧ (s.after n).memory = p.memory ∧ (s.after n).journal = p.journal ∧
      ∃ i k l, (s.after n).heap = s.heap.aged i k l ∧ p.fresh = s.heap.handles.nextId + k ∧
        p.stored = s.heap.payloads.nextId + l
  /-- An answer of the call is the answer of the interpreter. -/
  answered : ∀ n r, s.Answered below n r → ∃ rest p, plain n = .done r rest p ∧ p.calls = s.calls n
  /-- While the interpreter is busy, the call is. -/
  busy : ∀ fuel p, plain fuel = .timeout p → ∃ n, fuel ≤ n ∧ s.calls n = p.calls ∧
    ∀ k, 0 < k → k ≤ n → (s.after k).frames ≠ below

end State

/-- A call starts without a look at the memory, and without a report. -/
theorem State.startCall_keeps (s : State H) (c : ChainId) (arg : H.Arg) :
    (s.startCall c arg).memory = s.memory ∧ (s.startCall c arg).journal = s.journal := by
  unfold startCall
  dsimp only
  split <;> exact ⟨rfl, rfl⟩

/-- A chain that was turned into a function is called when the function runs. -/
theorem step_invoke_chain {h : Heap H.toVocabulary} (p : Progress H) (G : List (Frame H))
    (arg : H.Arg) {q : PayloadId} {load : Payload H.toVocabulary} {c : ChainId}
    (hload : h.payloads.get? q = some load) (hbody : load.body = .chain c) :
    (p.state h G (.invoke none (some q) none arg)).step =
      (p.state h (.await [] :: G) (.invoke none (some q) none arg)).startCall c arg := by
  show State.invoke _ (some q) none arg = _
  unfold State.invoke
  dsimp only [Progress.state, Option.bind_some]
  rw [hload]
  dsimp only
  rw [hbody]
  rfl

/-- The call goes the way of the interpreter until only the handle is left that it was made with. -/
theorem Request.simulates {s : State H} (hs : Reachable s) {rq : Request H.toVocabulary}
    {below : List (Frame H)} (hasks : s.Asks rq below) {c : ChainId} {arg : H.Arg}
    (hcalled : rq.called? s.heap = some (c, arg)) :
    ∃ i ref, s.heap.handles.get? i = some ref ∧ ∀ fuel,
      Simulates (.await [.handle i] :: below) s.step s.step.mode.call?.toList fuel
        (Answers (s.heap.retain (.handle i)) none (.await [.handle i] :: below))
        (s.plainly c arg fuel) := by
  obtain ⟨⟨heap, memory, journal, frames, mode⟩, hheap, hframes, hstep⟩ := hasks.exists_step
  dsimp only at hheap hframes
  subst hheap hframes
  let p : Progress H := ⟨memory, journal, [], s.heap.handles.nextId, s.heap.payloads.nextId⟩
  have ha : Agrees s.heap.view s.heap none none none p :=
    ⟨hs.shows, trivial, rfl, rfl, rfl⟩
  rcases Request.called?_cases hcalled with ⟨i, rfl, hi⟩ | ⟨i, q, load, rfl, hi, hload, hbody⟩
  · obtain ⟨ref, href⟩ := Heap.exists_handle_of_chainOf hi
    refine ⟨i, ref, href, fun fuel => ?_⟩
    let t : State H := p.state (s.heap.retain (.handle i)) (.await [.handle i] :: frames) mode
    have hcall : s.step = t.startCall c arg := hstep.trans (ask_call p frames mode arg hi)
    have hp : s.plainly c arg fuel =
        Plain.call s.heap.view (interpret s.heap.view fuel) c arg none p := by
      unfold plainly
      rw [hcall, (t.startCall_keeps c arg).1, (t.startCall_keeps c arg).2]
      rfl
    rw [hp, hcall]
    exact (follows fuel).call (ha.retain_handle i) _ mode c arg
  · obtain ⟨ref, href⟩ := Heap.exists_handle_of_functionOf hi
    refine ⟨i, ref, href, fun fuel => ?_⟩
    let below : List (Frame H) := .await [.handle i] :: frames
    have hinvoke : s.step =
        p.state (s.heap.retain (.handle i)) below (.invoke none (some q) none arg) :=
      hstep.trans (ask_apply p frames mode arg hi)
    have hcall := step_invoke_chain p below arg
      ((s.heap.get?_payloads_retain (.handle i) q).trans hload) hbody
    have hp : s.plainly c arg fuel =
        Plain.call s.heap.view (interpret s.heap.view fuel) c arg none p := by
      unfold plainly
      rw [hinvoke]
      rfl
    have hruns := (follows fuel).call (ha.retain_handle i) (.await [] :: below)
      (.invoke none (some q) none arg) c arg
    rw [hp, hinvoke]
    show Simulates below _ [] fuel _ _
    refine (Simulates.step List.suffix_rfl hcall
      (hruns.finish (List.suffix_cons _ below) fun r rest p t ht => ?_)).lower (Nat.le_succ fuel)
    obtain ⟨m, u, hm, hu⟩ := ht.letsGo
    obtain ⟨n, v, hn, hv⟩ := LetsGo.answers hu
    exact ⟨m + n, v, hm.trans hn, hv⟩

section

variable {s t : State H} {below : List (Frame H)} {n : Nat} {cs : List (Fn × H.Arg)}

/-- As long as something waits above it, `below` has not been answered. -/
theorem State.Leads.frames_ne {f : Frame H} (hl : Leads (f :: below) s.step n t cs) {k : Nat}
    (hk : 0 < k) (hle : k ≤ 1 + n) : (s.after k).frames ≠ below := by
  obtain ⟨k, rfl⟩ := Nat.exists_eq_add_of_lt hk
  have habove := hl.above k (by omega)
  rw [Nat.zero_add, Nat.add_comm, after_one_add]
  intro heq
  have hlength := (heq ▸ habove).length_le
  rw [List.length_cons] at hlength
  omega

/-- What was decided above is heard below as soon as the handle has been let go of. -/
theorem State.Leads.answered {h : Heap H.toVocabulary} {i : HandleId} {ref : Ref}
    (href : h.handles.get? i = some ref) (hl : Leads (.await [.handle i] :: below) s.step n t cs)
    {r : Reply H.toVocabulary} {rest : Rest} {p : Progress H}
    (ht : Answers (h.retain (.handle i)) none (.await [.handle i] :: below) r rest p t) :
    ∃ m, s.Answered below m r ∧ s.calls m = s.step.mode.call?.toList ++ cs ∧
      (s.after m).memory = p.memory ∧ (s.after m).journal = p.journal ∧
        ∃ j k l, (s.after m).heap = h.aged j k l ∧ p.fresh = h.handles.nextId + k ∧
          p.stored = h.payloads.nextId + l := by
  obtain ⟨g, hg, rfl⟩ := ht
  have hg : Leaves (h.retainAll ([i].map .handle)) none rest p g := hg
  obtain ⟨g', hg', hd⟩ := hg.drains_handles (by simp [href])
  obtain ⟨o, hpasses⟩ := hd.passes p.memory p.journal below r
  obtain ⟨pos, j, k, l, -, hfresh, hstored⟩ := hg'
  have hout : Returns below (p.state g (.await [.handle i] :: below) (.reply r)) o
      (p.state (h.aged j k l) below (.reply r)) := hpasses
  have hafter : s.after (1 + (n + o)) = p.state (h.aged j k l) below (.reply r) := by
    rw [after_one_add, after_add, hl.after, hout.after]
  have hcalls : s.calls (1 + (n + o)) = s.step.mode.call?.toList ++ cs := by
    rw [calls_one_add, calls_add, hl.calls, hl.after, hout.calls, List.append_nil]
  have hfirst : ∀ m, 0 < m → m < 1 + (n + o) → (s.after m).frames ≠ below := by
    intro m hm hlt
    rcases Nat.lt_or_ge (1 + n) m with hgt | hle
    · -- on the way out, the frame that waited lets go of the handle
      obtain ⟨m, rfl⟩ := Nat.exists_eq_add_of_le (Nat.le_of_lt hgt)
      obtain ⟨f, hf⟩ := hout.above m (by omega)
      rw [Nat.add_assoc, after_one_add, after_add, hl.after, hf]
      exact List.cons_ne_self f below
    · exact hl.frames_ne hm hle
  exact ⟨1 + (n + o), ⟨by omega, by rw [hafter]; rfl, by rw [hafter]; rfl, hfirst⟩, hcalls,
    by rw [hafter]; rfl, by rw [hafter]; rfl, j, k, l, by rw [hafter]; rfl, hfresh, hstored⟩

end

/-- A call of a chain does what a plain list does, as long as its listeners change no chain: they
    may go on, call, ask, compare, and make and let go of functions of their own. -/
theorem dispatch_refines_list {s : State H} (hs : Reachable s) {rq : Request H.toVocabulary}
    {below : List (Frame H)} (hasks : s.Asks rq below) {c : ChainId} {arg : H.Arg}
    (hcalled : rq.called? s.heap = some (c, arg))
    (hplain : ∀ fuel, s.plainly c arg fuel ≠ .strayed) : s.Refines below (s.plainly c arg) := by
  obtain ⟨i, ref, href, hsim⟩ := rq.simulates hs hasks hcalled
  have hreturns : ∀ fuel r rest p, s.plainly c arg fuel = .done r rest p → ∃ n,
      s.Answered below n r ∧ s.calls n = p.calls ∧ (s.after n).memory = p.memory ∧
        (s.after n).journal = p.journal ∧ ∃ i k l, (s.after n).heap = s.heap.aged i k l ∧
          p.fresh = s.heap.handles.nextId + k ∧ p.stored = s.heap.payloads.nextId + l := by
    intro fuel r rest p hp
    have hfuel := hsim fuel
    rw [hp] at hfuel
    obtain ⟨n, t, cs, hl, hcalls, ht⟩ := hfuel
    rw [hcalls]
    exact hl.answered href ht
  have hbusy : ∀ fuel p, s.plainly c arg fuel = .timeout p → ∃ n, fuel ≤ n ∧
      s.calls n = p.calls ∧ ∀ k, 0 < k → k ≤ n → (s.after k).frames ≠ below := by
    intro fuel p hp
    have hfuel := hsim fuel
    rw [hp] at hfuel
    obtain ⟨n, t, cs, hl, hcalls, hn⟩ := hfuel
    refine ⟨1 + n, Nat.le_add_left_of_le hn, ?_, fun k hk hle => hl.frames_ne hk hle⟩
    rw [calls_one_add, hl.calls, hcalls]
  refine ⟨hreturns, fun n r hn => ?_, hbusy⟩
  cases hp : s.plainly c arg n with
  | done r' rest p =>
    obtain ⟨n', hn', hcalls, -⟩ := hreturns n r' rest p hp
    obtain ⟨rfl, rfl⟩ := hn.unique hn'
    exact ⟨rest, p, rfl, hcalls.symm⟩
  | timeout p =>
    obtain ⟨m, hm, -, hframes⟩ := hbusy n p hp
    exact absurd hn.frames (hframes n hn.pos hm)
  | strayed => exact absurd hp (hplain n)

/-! ## Cases -/

/-- Two listeners share one list: `a` goes on twice, and `b` goes on once in between. -/
def Script.sharedList : Script.Program Unit :=
  [ .define "a" (.closure ⟨"a", [.next {} none false, .next {} none false], none⟩ false),
    .add "a" none (some .back),
    .define "b" (.closure ⟨"b", [.next {} none false], none⟩ false),
    .add "b" none (some .back),
    .define "c" (.closure ⟨"c", [.ret {}], none⟩ false),
    .add "c" none (some .back),
    .define "d" (.closure ⟨"d", [.ret {}], none⟩ false),
    .add "d" none (some .back),
    .call ⟨.given (), .absent⟩ none false ]

/-- The four listeners run once each: what `b` takes from the list, `a` does not see again. -/
theorem dispatch_refines_list_sharedList :
    ∃ rq below n r, ((Script.start Script.sharedList).after 16).Asks rq below ∧
      ((Script.start Script.sharedList).after 16).Refines below
        (((Script.start Script.sharedList).after 16).plainly 0 ()) ∧
      ((Script.start Script.sharedList).after 16).Answered below n r ∧
      (((Script.start Script.sharedList).after 16).calls n).map (·.1) =
        [some 0, some 1, some 2, some 3] := by
  have hs := (Script.reachable_start Script.sharedList).after 16
  have hfound : (((Script.start Script.sharedList).after 16).asking.bind fun e =>
      (e.1.called? ((Script.start Script.sharedList).after 16).heap).map (·.1)) = some 0 := by
    decide +kernel
  obtain ⟨⟨rq, below⟩, hasking, hchain⟩ := Option.bind_eq_some_iff.1 hfound
  obtain ⟨⟨c, arg⟩, hcalled, rfl⟩ := Option.map_eq_some_iff.1 hchain
  have hlisteners : ((((Script.start Script.sharedList).after 16).plainly 0 () 20).calls?.map
      fun cs => cs.map (·.1)) = some [some 0, some 1, some 2, some 3] := by decide +kernel
  obtain ⟨cs, hcalls, hlisteners⟩ := Option.map_eq_some_iff.1 hlisteners
  obtain ⟨r, rest, p, hdone, rfl⟩ := Outcome.calls?_eq_some hcalls
  have hasks := State.asks_of_asking hasking
  have hrefines := dispatch_refines_list hs hasks hcalled (State.plainly_ne_strayed hdone)
  obtain ⟨n, hn, hcalls, -⟩ := hrefines.returns 20 r rest p hdone
  exact ⟨rq, below, n, r, hasks, hrefines, hn, hcalls ▸ hlisteners⟩

/-- A listener makes a function and a copy of it, compares the two, and lets go of both; with the
    second the callable ends, and its destructor compares functions, too. -/
def Script.ownFunction : Script.Program Unit :=
  [ .define "a" (.closure ⟨"a",
      [ .define "x" (.closure ⟨"x", [], some [.equal .listeners "a" "a"]⟩ false),
        .define "y" (.clone "x"),
        .equal .listeners "x" "y",
        .drop .listeners "x",
        .drop .listeners "y",
        .next {} none false ], none⟩ false),
    .add "a" none (some .back),
    .define "b" (.closure ⟨"b", [.ret {}], none⟩ false),
    .add "b" none (some .back),
    .call ⟨.given (), .absent⟩ none false ]

example : ((((Script.start Script.ownFunction).after 8).plainly 0 () 20).calls?.map
    fun cs => cs.map (·.1)) = some [some 0, some 1] := by decide +kernel

end Relay
