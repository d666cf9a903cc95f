/-
  A call FOLLOWS the listeners that only go on, past all simple ones.

  `Manner.play` runs such listeners on a list, without the library and without simple listeners.
  Here a call of a chain is compared with it: where `play` comes to an answer, so does the call, and
  where it is out of fuel, the call is still busy.  In between the call has handed on the same
  arguments, and what it has run is what these arguments lead along (`Trip.trace`).  One turn of a
  listener is one unit of fuel; how many simple listeners come between two turns does not matter,
  since going past them is an induction of its own, over the listeners that are left.
-/
import Relay.Proofs.Onward

namespace Relay

variable {H : Host}

namespace Trip

variable (T : Trip H) (M : Manner H)

/-- What is to be seen of the call when these arguments have been handed on. -/
def trace (passed : List H.Arg) : Log H where
  calls := T.origin.heap.along T.listeners passed
  lent := T.origin.heap.innerOf (T.origin.heap.along T.listeners passed)
  passed := passed

/-- The listeners that have not been reached then. -/
def ahead (passed : List H.Arg) : List Fn := T.origin.heap.ahead T.listeners passed

def natives (fs : List Fn) : List H.Native := fs.filterMap T.origin.heap.native?

/-- After `k` steps the call has not been answered. -/
def Open (k : Nat) : Prop := ∀ m, 0 < m → m ≤ k → (T.state m).frames ≠ T.below

/-- Every listener of the chain only goes on, or is simple; and if there is a simple one, no function
    that a simple listener starts during the call does any harm. -/
structure Mannered : Prop where
  listeners : ∀ f ∈ T.listeners, (∃ n, T.origin.heap.native? f = some n ∧ M.Keeps n) ∨
    ∃ inner, T.origin.heap.inner? f = some inner
  harmless : (∃ f ∈ T.listeners, (T.origin.heap.inner? f).isSome) → ∀ k, T.Open k →
    (T.state k).lends? ≠ none → ∃ n, M.Harmless (T.state (k + 1)) n

/-- After step `l` this is heard; handles on chains and events are as they were after step `k`. -/
structure Hears (k l : Nat) (passed : List H.Arg) (sight : M.Sight) (frames : List (Frame H))
    (mode : Mode H) : Prop where
  underway : T.At l (T.trace passed) (T.ahead passed)
  later : k ≤ l
  frames : (T.state l).frames = frames
  mode : (T.state l).mode = mode
  sight : M.sight (T.state l).memory = sight
  spares : (T.state k).heap.Spares (T.state l).heap

/-- How a stretch of a call ends that comes to an answer. -/
abbrev Ending (H : Host) := Reply H.toVocabulary → List (Frame H) × Mode H

/-- From step `k` on, the call does what the listeners do by themselves. -/
def Follows (k fuel : Nat) (ends : Ending H) : M.Outcome → Prop
  | .done r rest sight passed => rest = T.natives (T.ahead passed) ∧
      ∃ l, T.Hears M k l passed sight (ends r).1 (ends r).2
  | .timeout passed => ∃ l, k + fuel ≤ l ∧ T.At l (T.trace passed) (T.ahead passed)

/-- Code of a listener hears an answer, with its event in handle `j`. -/
structure Speaks (k : Nat) (passed : List H.Arg) (part : M.Part) (r : Reply H.toVocabulary)
    (j : HandleId) (F : List (Frame H)) (sight : M.Sight) : Prop where
  underway : T.At k (T.trace passed) (T.ahead passed)
  frames : (T.state k).frames = .user (M.code part j) [.handle j] :: F
  mode : (T.state k).mode = .reply r
  sight : M.sight (T.state k).memory = sight
  under : T.under <:+ F
  event : ∃ f ∈ T.listeners, (T.state k).heap.handles.get? j = some (.event ⟨T.dispatch, f⟩)
  other : j ≠ T.owner

variable {T M} {k k' l fuel fuel' : Nat} {passed : List H.Arg} {sight : M.Sight}

/-! ## Putting stretches together -/

namespace Follows

variable {ends ends' : Ending H} {o : M.Outcome}

/-- An answer is heard, and the call goes on from there. -/
theorem andThen (h : T.Follows M k' fuel' ends o) (hfuel : k + fuel ≤ k' + fuel')
    {cont : Reply H.toVocabulary → List H.Native → M.Sight → List H.Arg → M.Outcome}
    (hcont : ∀ r l passed sight, T.Hears M k' l passed sight (ends r).1 (ends r).2 →
      T.Follows M k fuel ends' (cont r (T.natives (T.ahead passed)) sight passed)) :
    T.Follows M k fuel ends' (o.andThen cont) := by
  cases o with
  | done r rest sight passed =>
    obtain ⟨rfl, l, hl⟩ := h
    exact hcont r l passed sight hl
  | timeout passed =>
    obtain ⟨l, hl, hat⟩ := h
    exact ⟨l, Nat.le_trans hfuel hl, hat⟩

/-- Only the library has still something to do. -/
theorem finish (h : T.Follows M k' fuel' ends o) (hfuel : k + fuel ≤ k' + fuel')
    (hends : ∀ r l passed sight, T.Hears M k' l passed sight (ends r).1 (ends r).2 →
      ∃ l', T.Hears M k l' passed sight (ends' r).1 (ends' r).2) : T.Follows M k fuel ends' o := by
  have hdone : o.andThen .done = o := by cases o <;> rfl
  rw [← hdone]
  exact h.andThen hfuel fun r l passed sight hl => ⟨rfl, hends r l passed sight hl⟩

/-- A stretch before. -/
theorem before (h : T.Follows M k' fuel' ends o) (hfuel : k + fuel ≤ k' + fuel') (hk : k ≤ k')
    (hspares : (T.state k).heap.Spares (T.state k').heap) : T.Follows M k fuel ends o :=
  h.finish hfuel fun _ l _ _ hl =>
    ⟨l, hl.underway, Nat.le_trans hk hl.later, hl.frames, hl.mode, hl.sight, hspares.trans hl.spares⟩

end Follows

/-- A frame that holds shares of the call passes an answer on. -/
theorem Hears.passes_on {r : Reply H.toVocabulary} {held : List Ref} {F : List (Frame H)}
    (h : T.Hears M k l passed sight (.await held :: F) (.reply r)) (hF : T.under <:+ F)
    (hheld : ∀ ref ∈ held, T.Tame ref) : ∃ l', T.Hears M k l' passed sight F (.reply r) := by
  obtain ⟨l', hl', hat, hmatches⟩ := h.underway.passes_on h.frames h.mode hF hheld
  refine ⟨l', hat, Nat.le_trans h.later (Nat.le_of_lt hl'), hmatches.frames, hmatches.mode, ?_, ?_⟩
  · rw [hmatches.memory]
    exact h.sight
  · exact h.spares.trans (.of_eq hmatches.handles)

/-! ## Going past simple listeners -/

/-- Until the call is answered, the stack is not what it was. -/
theorem At.unanswered {log : Log H} {rest : List Fn} (h : T.At k log rest) : T.Open k := by
  intro m hm hle he
  have hlength := (h.above m hm hle).length_le
  rw [he, under, List.length_cons] at hlength
  omega

/-- Code of a listener has ended: the handle on its event, which is new since step `k`, is let go
    of. -/
theorem Hears.lets_go_handle {r : Reply H.toVocabulary} {j : HandleId} {F : List (Frame H)} {f : Fn}
    (h : T.Hears M k' l passed sight (.releasing [.handle j] r :: F) (.reply .done))
    (hF : T.under <:+ F) (hf : f ∈ T.listeners)
    (hj : (T.state k').heap.handles.get? j = some (.event ⟨T.dispatch, f⟩)) (hne : j ≠ T.owner)
    (hk : k ≤ k') (hspares : (T.state k).heap.Spares (T.state k').heap)
    (hnew : (T.state k).heap.handles.get? j = none) :
    ∃ l', T.Hears M k l' passed sight F (.reply r) := by
  obtain ⟨l', hl', hat, hmatches⟩ := h.underway.lets_go_handle h.frames h.mode hF
    (h.spares j _ hj trivial).1 ⟨rfl, hf⟩ hne
  refine ⟨l', hat, by have := h.later; omega, hmatches.frames, hmatches.mode, ?_, ?_⟩
  · rw [hmatches.memory]
    exact h.sight
  · have hall := (hspares.trans h.spares).release_new hnew
    exact hall.trans (.of_eq hmatches.handles)

section

variable {a : H.Arg} {m : Fn} {rest : List Fn} {cs : List (Fn × H.Arg)} {G : List (Frame H)}
  {entry : Option Entry}

/-- A listener that only goes on is run, and what comes of it is its answer. -/
theorem follows_native {n : H.Native} (hn : T.origin.heap.native? m = some n) (hkeeps : M.Keeps n)
    (hplay : ∀ {k passed part r j F sight}, T.Speaks M k passed part r j F sight →
      T.Follows M k fuel (fun r => (.releasing [.handle j] r :: F, .reply .done))
        (M.play fuel part r (T.natives (T.ahead passed)) sight passed))
    (h : T.At k (T.trace passed) (T.ahead passed))
    (hframes : (T.state k).frames = .await [.function m] :: G)
    (hmode : (T.state k).mode = .invoke entry m (some ⟨T.dispatch, m⟩) a) (hG : T.under <:+ G)
    (hm : m ∈ T.listeners) (hsight : M.sight (T.state k).memory = sight) :
    T.Follows M k fuel (fun r => (G, .reply r))
      (M.play fuel (M.start n a) .done (T.natives (T.ahead passed)) sight passed) := by
  have hunder : T.under <:+ (T.state k).frames := by
    rw [hframes]
    exact hG.trans (List.suffix_cons _ G)
  obtain ⟨hat, hstate⟩ := h.begins hmode hm hunder hn
  rw [hframes, M.onCall n _ a hkeeps] at hstate
  have hnew := (T.state k).heap.handles.get?_nextId
  have hother : (T.state k).heap.handles.nextId ≠ T.owner := by
    obtain ⟨ref, href, -⟩ := exists_handle h.called
    intro he
    rw [he, href] at hnew
    exact absurd hnew (by simp)
  have hspares : (T.state k).heap.Spares (T.state (k + 1)).heap := by
    rw [hstate]
    exact .wrapUp _ _
  have hevent : (T.state (k + 1)).heap.handles.get? (T.state k).heap.handles.nextId =
      some (.event ⟨T.dispatch, m⟩) := by
    rw [hstate]
    exact (Pool.get?_alloc _ _ _).trans (if_pos rfl)
  have hspeaks : T.Speaks M (k + 1) passed (M.start n a) .done (T.state k).heap.handles.nextId
      (.await [.function m] :: G) sight :=
    ⟨hat, by rw [hstate], by rw [hstate], by rw [hstate]; exact hsight,
      hG.trans (List.suffix_cons _ G), ⟨m, hm, hevent⟩, hother⟩
  refine (hplay hspeaks).finish (by omega) fun r l passed sight hl => ?_
  obtain ⟨l', hl'⟩ := hl.lets_go_handle (hG.trans (List.suffix_cons _ G)) hm hevent hother
    (Nat.le_succ k) hspares hnew
  refine hl'.passes_on hG fun ref href => ?_
  obtain rfl := List.mem_singleton.1 href
  exact hm

theorem innerOf_concat {inner : Fn} (hinner : T.origin.heap.inner? m = some inner) :
    T.origin.heap.innerOf (cs ++ [(m, a)]) = T.origin.heap.innerOf cs ++ [(inner, a)] := by
  simp [Heap.innerOf, hinner]

/-- So it is if the listener that is run is the next of them. -/
theorem follows_first {n : H.Native} (hn : T.origin.heap.native? m = some n) (hkeeps : M.Keeps n)
    (hplay : ∀ {k passed part r j F sight}, T.Speaks M k passed part r j F sight →
      T.Follows M k fuel (fun r => (.releasing [.handle j] r :: F, .reply .done))
        (M.play fuel part r (T.natives (T.ahead passed)) sight passed))
    (h : T.At k ⟨cs ++ [(m, a)], T.origin.heap.innerOf cs, passed⟩ rest)
    (hframes : (T.state k).frames = .await [.function m] :: G)
    (hmode : (T.state k).mode = .invoke entry m (some ⟨T.dispatch, m⟩) a) (hG : T.under <:+ G)
    (hm : m ∈ T.listeners)
    (hcalls : cs ++ T.origin.heap.along (m :: rest) [a] = T.origin.heap.along T.listeners passed)
    (hahead : T.origin.heap.ahead (m :: rest) [a] = T.ahead passed)
    (hsight : M.sight (T.state k).memory = sight) :
    T.Follows M k fuel (fun r => (G, .reply r))
      (M.pass (M.play fuel) a (T.natives (m :: rest)) sight passed) := by
  have hinner := Heap.inner?_of_native? hn
  rw [Heap.along_cons_native hinner, Heap.along_nil] at hcalls
  rw [Heap.ahead_cons_native hinner, Heap.ahead_nil] at hahead
  have hlent : T.origin.heap.innerOf cs = T.origin.heap.innerOf (cs ++ [(m, a)]) := by
    simp [Heap.innerOf, hinner]
  have hnatives : T.natives (m :: rest) = n :: T.natives (T.ahead passed) := by
    rw [natives, List.filterMap_cons_some hn, hahead, natives]
  rw [hlent, hcalls, hahead] at h
  rw [hnatives]
  exact follows_native hn hkeeps hplay h hframes hmode hG hm hsight

/-- A simple listener runs its function, which comes to an answer. -/
theorem lends_harmless (hT : T.Mannered M) {inner : Fn}
    (hinner : T.origin.heap.inner? m = some inner) {log : Log H} (h : T.At k log rest)
    (hmode : (T.state k).mode = .invoke entry m (some ⟨T.dispatch, m⟩) a) (hm : m ∈ T.listeners)
    (hunder : T.under <:+ (T.state k).frames) :
    ∃ l r, k < l ∧ T.At l { log with lent := log.lent ++ [(inner, a)] } rest ∧
      (T.state l).frames = .afterSimple ⟨T.dispatch, m⟩ a :: (T.state k).frames ∧
      (T.state l).mode = .reply r ∧ (∀ f, r ≠ .fault f) ∧
      M.sight (T.state l).memory = M.sight (T.state k).memory ∧
      (T.state k).heap.Spares (T.state l).heap := by
  obtain ⟨hat, hstate, hlends⟩ := h.lends hmode hm hunder hinner
  obtain ⟨n, hharm⟩ := hT.harmless ⟨m, hm, by rw [hinner]; rfl⟩ k h.unanswered
    (by rw [hlends]; exact Option.some_ne_none _)
  have hat' := hat.harmless hharm (by rw [hstate]; rfl)
  obtain ⟨r, hreply, hr⟩ := hharm.answers
  refine ⟨k + 1 + n, r, by omega, hat', ?_, ?_, hr, ?_, ?_⟩
  · rw [state_add, hharm.returns, hstate]
  · rw [state_add, hreply]
  · rw [state_add, hharm.sight, hstate]
  · have hstart : (T.state k).heap.Spares (T.state (k + 1)).heap := by
      rw [hstate]
      exact .refl _
    rw [state_add]
    exact hstart.trans hharm.handles

/-- After that it goes on with the chain. -/
theorem lends_on (hT : T.Mannered M) {inner : Fn} (hinner : T.origin.heap.inner? m = some inner)
    {log : Log H} (h : T.At k log rest) (hframes : (T.state k).frames = .await [.function m] :: G)
    (hmode : (T.state k).mode = .invoke entry m (some ⟨T.dispatch, m⟩) a) (hm : m ∈ T.listeners)
    (hG : T.under <:+ G) :
    ∃ (l : Nat) (v : State H), k < l ∧ T.At l { log with lent := log.lent ++ [(inner, a)] } rest ∧
      T.GoesOn l v m a { log with lent := log.lent ++ [(inner, a)] } ∧
      v.frames = .await [.event ⟨T.dispatch, m⟩] :: .await [.function m] :: G ∧
      M.sight v.memory = M.sight (T.state k).memory ∧ (T.state k).heap.Spares v.heap := by
  obtain ⟨l, r, hl, hat, hwaits, hreply, hr, hsight, hspares⟩ :=
    lends_harmless hT hinner h hmode hm (hframes ▸ hG.trans (List.suffix_cons _ G))
  rw [hframes] at hwaits
  obtain ⟨hedit, hhanded⟩ := State.edit_of_top hwaits hreply (by simp) (by simp)
  have hstep := State.step_of_afterSimple hwaits hreply hr
  -- the frame that waits has kept the event
  have hevent : (T.state l).HasEvent T.dispatch := by
    have hheld : ∃ f ∈ (T.state l).frames, .event ⟨T.dispatch, m⟩ ∈ f.held :=
      ⟨_, hwaits ▸ List.mem_cons_self, List.mem_singleton_self _⟩
    exact ⟨_, (State.mem_shares_iff _ _).2 (.inr (.inr hheld)), .inr ⟨m, rfl⟩⟩
  refine ⟨l, _, hl, hat, ⟨hstep, rfl, hevent, hG.trans (List.suffix_append [_, _] G), hedit,
    Heap.Spares.refl _ _, ?_⟩, rfl, hsight, hspares⟩
  rw [State.log_advance hstep, ← hat.log]
  show (⟨_, _, _ ++ (T.state l).handed?.toList⟩ : Log H) = _
  rw [hhanded]
  simp [State.log]

/-- When it goes on, the answer of what follows is its own. -/
theorem Hears.passes_simple {r : Reply H.toVocabulary} (h : T.Hears M k l passed sight
      (.await [.event ⟨T.dispatch, m⟩] :: .await [.function m] :: G) (.reply r))
    (hG : T.under <:+ G) (hm : m ∈ T.listeners) : ∃ l', T.Hears M k l' passed sight G (.reply r) := by
  obtain ⟨l', hl'⟩ := h.passes_on (hG.trans (List.suffix_cons _ G)) fun ref href => by
    obtain rfl := List.mem_singleton.1 href
    exact ⟨rfl, hm⟩
  refine hl'.passes_on hG fun ref href => ?_
  obtain rfl := List.mem_singleton.1 href
  exact hm

/-- A simple listener that is the last one has nothing to go on to. -/
theorem follows_last (hT : T.Mannered M) {inner : Fn} (hinner : T.origin.heap.inner? m = some inner)
    (h : T.At k ⟨cs ++ [(m, a)], T.origin.heap.innerOf cs, passed⟩ [])
    (hframes : (T.state k).frames = .await [.function m] :: G)
    (hmode : (T.state k).mode = .invoke entry m (some ⟨T.dispatch, m⟩) a) (hG : T.under <:+ G)
    (hm : m ∈ T.listeners)
    (hcalls : cs ++ T.origin.heap.along [m] [a] = T.origin.heap.along T.listeners passed)
    (hahead : T.origin.heap.ahead [m] [a] = T.ahead passed)
    (hsight : M.sight (T.state k).memory = sight) :
    T.Follows M k fuel (fun r => (G, .reply r))
      (M.pass (M.play fuel) a (T.natives [m]) sight passed) := by
  obtain ⟨l, v, hl, hat, hv, hvframes, hvsight, hspares⟩ := lends_on hT hinner h hframes hmode hm hG
  obtain ⟨l', hl', hat', hmatches⟩ := hat.goes_past hv rfl
  rw [Heap.along_cons_simple hinner] at hcalls
  rw [Heap.ahead_cons_simple hinner] at hahead
  have hend : T.At l' (T.trace passed) (T.ahead passed) := by
    rw [trace, ← hcalls, ← hahead, Heap.along, innerOf_concat hinner]
    exact hat'
  have hhears : T.Hears M k l' passed sight
      (.await [.event ⟨T.dispatch, m⟩] :: .await [.function m] :: G) (.reply (.result none)) :=
    ⟨hend, by omega, hmatches.frames.trans hvframes, hmatches.mode,
      by rw [hmatches.memory]; exact hvsight.trans hsight, hspares.trans (.of_eq hmatches.handles)⟩
  have hnatives : T.natives [m] = [] := List.filterMap_cons_none (Heap.native?_of_inner? hinner)
  rw [hnatives]
  exact ⟨by rw [← hahead]; rfl, hhears.passes_simple hG hm⟩

/-- A simple listener that is not the last one has the next one run, on the same argument. -/
theorem follows_lent (hT : T.Mannered M) {inner m' : Fn} (hinner : T.origin.heap.inner? m = some inner)
    (h : T.At k ⟨cs ++ [(m, a)], T.origin.heap.innerOf cs, passed⟩ (m' :: rest))
    (hframes : (T.state k).frames = .await [.function m] :: G)
    (hmode : (T.state k).mode = .invoke entry m (some ⟨T.dispatch, m⟩) a) (hG : T.under <:+ G)
    (hm : m ∈ T.listeners) (hsight : M.sight (T.state k).memory = sight) {o : M.Outcome}
    (hrest : ∀ {l G' entry'},
      T.At l ⟨(cs ++ [(m, a)]) ++ [(m', a)], T.origin.heap.innerOf (cs ++ [(m, a)]), passed⟩ rest →
      (T.state l).frames = .await [.function m'] :: G' →
      (T.state l).mode = .invoke entry' m' (some ⟨T.dispatch, m'⟩) a → T.under <:+ G' →
      M.sight (T.state l).memory = sight → T.Follows M l fuel (fun r => (G', .reply r)) o) :
    T.Follows M k fuel (fun r => (G, .reply r)) o := by
  obtain ⟨l, v, hl, hat, hv, hvframes, hvsight, hspares⟩ := lends_on hT hinner h hframes hmode hm hG
  obtain ⟨l', entry', hl', hat', hmatches⟩ := hat.goes_on hv rfl
  have hlisted : T.At l' ⟨(cs ++ [(m, a)]) ++ [(m', a)], T.origin.heap.innerOf (cs ++ [(m, a)]),
      passed⟩ rest := by
    rw [innerOf_concat hinner]
    exact hat'
  have hnext : (T.state l').frames = .await [.function m'] ::
      .await [.event ⟨T.dispatch, m⟩] :: .await [.function m] :: G := by
    rw [hmatches.frames, hvframes]
  have hseen : M.sight (T.state l').memory = sight := by
    rw [hmatches.memory]
    exact hvsight.trans hsight
  have hfollows := hrest hlisted hnext hmatches.mode (hG.trans (List.suffix_append [_, _] G)) hseen
  refine (hfollows.before (by omega) (by omega)
    (hspares.trans (.of_eq hmatches.handles))).finish (Nat.le_refl _) fun r l'' passed sight hl'' => ?_
  exact hl''.passes_simple hG hm

/-- Whatever simple listeners come first, the next listener of the other kind is run, if there is
    one.  The induction is on the listeners behind the one that is being run. -/
theorem follows_pass (hT : T.Mannered M)
    (hplay : ∀ {k passed part r j F sight}, T.Speaks M k passed part r j F sight →
      T.Follows M k fuel (fun r => (.releasing [.handle j] r :: F, .reply .done))
        (M.play fuel part r (T.natives (T.ahead passed)) sight passed))
    (h : T.At k ⟨cs ++ [(m, a)], T.origin.heap.innerOf cs, passed⟩ rest)
    (hframes : (T.state k).frames = .await [.function m] :: G)
    (hmode : (T.state k).mode = .invoke entry m (some ⟨T.dispatch, m⟩) a) (hG : T.under <:+ G)
    (hsub : m :: rest <:+ T.listeners)
    (hcalls : cs ++ T.origin.heap.along (m :: rest) [a] = T.origin.heap.along T.listeners passed)
    (hahead : T.origin.heap.ahead (m :: rest) [a] = T.ahead passed)
    (hsight : M.sight (T.state k).memory = sight) :
    T.Follows M k fuel (fun r => (G, .reply r))
      (M.pass (M.play fuel) a (T.natives (m :: rest)) sight passed) := by
  induction rest generalizing k m cs G entry with
  | nil =>
    have hm : m ∈ T.listeners := hsub.subset List.mem_cons_self
    rcases hT.listeners m hm with ⟨n, hn, hkeeps⟩ | ⟨inner, hinner⟩
    · exact follows_first hn hkeeps hplay h hframes hmode hG hm hcalls hahead hsight
    · exact follows_last hT hinner h hframes hmode hG hm hcalls hahead hsight
  | cons m' rest ih =>
    have hm : m ∈ T.listeners := hsub.subset List.mem_cons_self
    rcases hT.listeners m hm with ⟨n, hn, hkeeps⟩ | ⟨inner, hinner⟩
    · exact follows_first hn hkeeps hplay h hframes hmode hG hm hcalls hahead hsight
    · rw [Heap.along_cons_simple hinner] at hcalls
      rw [Heap.ahead_cons_simple hinner] at hahead
      have hnatives : T.natives (m :: m' :: rest) = T.natives (m' :: rest) :=
        List.filterMap_cons_none (Heap.native?_of_inner? hinner)
      rw [hnatives]
      refine follows_lent hT hinner h hframes hmode hG hm hsight fun hlisted hnext hrun hG' hseen => ?_
      exact ih hlisted hnext hrun hG' ((List.suffix_cons m _).trans hsub)
        (by rw [List.append_assoc, ← hcalls]; rfl) hahead hseen

end

/-! ## A listener that only goes on -/

namespace Speaks

variable {part part' : M.Part} {r r' : Reply H.toVocabulary} {j : HandleId} {F : List (Frame H)}
  {sight' : M.Sight} {a : H.Arg}

/-- The handle that a `next` holds is let go of, and the code goes on. -/
def Waiting (M : Manner H) (part : M.Part) (j : HandleId) (F : List (Frame H)) : List (Frame H) :=
  .await [.handle j] :: .user (M.code part j) [.handle j] :: F

variable (h : T.Speaks M k passed part r j F sight)
include h

/-- A turn in which code does not ask for anything. -/
theorem turns {act : Act H.toVocabulary H.Code}
    (hact : (H.resume (M.code part j) r (T.state k).memory).act = act)
    (hask : ∀ rq code, act ≠ .request rq code) :
    (T.state k).edit = .nothing ∧ (T.state k).handed? = none := by
  unfold State.edit State.handed? State.asking
  rw [h.mode, h.frames]
  dsimp only
  rw [hact]
  cases act with
  | request rq code => exact absurd rfl (hask rq code)
  | _ => exact ⟨rfl, rfl⟩

/-- It ends. -/
theorem finishes (hact : (H.resume (M.code part j) r (T.state k).memory).act = .finish r')
    (hsight : M.sight (H.resume (M.code part j) r (T.state k).memory).memory = sight') :
    T.Hears M k (k + 1) passed sight' (.releasing [.handle j] r' :: F) (.reply .done) := by
  obtain ⟨hedit, hhanded⟩ := h.turns hact (by simp)
  obtain ⟨journal, hturn⟩ :=
    ({ T.state k with frames := F } : State H).takeTurn_finish [.handle j] hact
  have hstep := (State.step_of_top h.frames h.mode).trans hturn
  have hat := h.underway.idle hstep (h.under.trans (List.suffix_cons _ F)) hedit
    (Heap.Spares.refl _ _) rfl (.of_reply hstep rfl hhanded)
  refine ⟨hat, Nat.le_succ k, ?_, ?_, ?_, ?_⟩ <;> rw [state_succ, hstep]
  · exact hsight
  · exact .refl _

/-- It pauses. -/
theorem pauses (hact : (H.resume (M.code part j) r (T.state k).memory).act = .pause (M.code part' j))
    (hsight : M.sight (H.resume (M.code part j) r (T.state k).memory).memory = sight') :
    T.Speaks M (k + 1) passed part' .done j F sight' ∧
      (T.state k).heap.Spares (T.state (k + 1)).heap := by
  obtain ⟨hedit, hhanded⟩ := h.turns hact (by simp)
  obtain ⟨journal, hturn⟩ :=
    ({ T.state k with frames := F } : State H).takeTurn_pause [.handle j] hact
  have hstep := (State.step_of_top h.frames h.mode).trans hturn
  have hat := h.underway.idle hstep (h.under.trans (List.suffix_cons _ F)) hedit
    (Heap.Spares.refl _ _) rfl (.of_reply hstep rfl hhanded)
  rw [state_succ, hstep]
  refine ⟨⟨hat, ?_, ?_, ?_, h.under, ?_, h.other⟩, .refl _⟩ <;> rw [state_succ, hstep]
  · exact hsight
  · exact h.event

/-- It calls `next` on its event. -/
theorem asks_next
    (hact : (H.resume (M.code part j) r (T.state k).memory).act = .request (.next j a) (M.code part' j))
    (hsight : M.sight (H.resume (M.code part j) r (T.state k).memory).memory = sight') :
    ∃ (v : State H) (f : Fn), T.GoesOn k v f a
        ⟨(T.trace passed).calls, (T.trace passed).lent, passed ++ [a]⟩ ∧
      v.frames = Waiting M part' j F ∧ M.sight v.memory = sight' ∧
      v.heap.handles = ((T.state k).heap.retain (.handle j)).handles := by
  obtain ⟨f, hf, hevent⟩ := h.event
  obtain ⟨journal, hturn⟩ :=
    ({ T.state k with frames := F } : State H).takeTurn_next [.handle j] hact hevent
  have hstep := (State.step_of_top h.frames h.mode).trans hturn
  have hasks : (T.state k).Asks (.next j a) (.user (M.code part' j) [.handle j] :: F) :=
    ⟨r, _, _, F, _, h.mode, h.frames, hact, rfl⟩
  refine ⟨_, f, ⟨hstep, Heap.scene_retain _ _, ?_, ?_, hasks.edit_eq,
    Heap.Spares.retain _ j T.owner, ?_⟩, rfl, hsight, rfl⟩
  · exact ⟨_, (State.mem_shares_iff _ _).2 (.inl ⟨j, hevent⟩), .inr ⟨f, rfl⟩⟩
  · exact h.under.trans (List.suffix_append [_, _] F)
  · have hlog : T.origin.log k = T.trace passed := h.underway.log
    rw [State.log_advance hstep, ← hlog]
    show (⟨_, _, _ ++ (T.state k).handed?.toList⟩ : Log H) = _
    rw [hasks.handed?_eq]
    have hpassed : T.origin.passed k = passed := congrArg Log.passed hlog
    rw [hpassed]
    rfl

/-- What comes of that is what comes of the listeners that are left. -/
theorem follows_next (hT : T.Mannered M)
    (hplay : ∀ {k passed part r j F sight}, T.Speaks M k passed part r j F sight →
      T.Follows M k fuel (fun r => (.releasing [.handle j] r :: F, .reply .done))
        (M.play fuel part r (T.natives (T.ahead passed)) sight passed))
    (hact : (H.resume (M.code part j) r (T.state k).memory).act = .request (.next j a) (M.code part' j))
    (hsight : M.sight (H.resume (M.code part j) r (T.state k).memory).memory = sight') :
    ∃ l, k < l ∧ (T.state l).heap.handles = ((T.state k).heap.retain (.handle j)).handles ∧
      T.Follows M l fuel (fun r => (Waiting M part' j F, .reply r))
        (M.pass (M.play fuel) a (T.natives (T.ahead passed)) sight' (passed ++ [a])) := by
  obtain ⟨v, f, hv, hvframes, hvsight, hhandles⟩ := h.asks_next hact hsight
  have hcalls : T.origin.heap.along T.listeners (passed ++ [a]) =
      (T.trace passed).calls ++ T.origin.heap.along (T.ahead passed) [a] :=
    Heap.along_append _ _ _
  have hahead : T.ahead (passed ++ [a]) = T.origin.heap.ahead (T.ahead passed) [a] :=
    Heap.ahead_append _ _ _
  have hsub : T.ahead passed <:+ T.listeners := Heap.ahead_suffix _ _
  cases hrest : T.ahead passed with
  | nil =>
    obtain ⟨l, hl, hat, hmatches⟩ := h.underway.goes_past hv hrest
    rw [hrest, Heap.along, List.append_nil] at hcalls
    rw [hrest] at hahead
    have hend : T.At l (T.trace (passed ++ [a])) (T.ahead (passed ++ [a])) := by
      rw [trace, hcalls, hahead]
      exact hat
    exact ⟨l, hl, hmatches.handles.trans hhandles, by rw [hahead]; rfl, l, hend, Nat.le_refl l,
      hmatches.frames.trans hvframes, hmatches.mode, by rw [hmatches.memory]; exact hvsight, .refl _⟩
  | cons m rest =>
    obtain ⟨l, entry, hl, hat, hmatches⟩ := h.underway.goes_on hv hrest
    rw [hrest] at hcalls hahead hsub
    have hframes : (T.state l).frames = .await [.function m] :: Waiting M part' j F := by
      rw [hmatches.frames, hvframes]
    refine ⟨l, hl, hmatches.handles.trans hhandles, ?_⟩
    exact follows_pass hT hplay hat hframes hmatches.mode (h.under.trans (List.suffix_append [_, _] F))
      hsub hcalls.symm hahead.symm (by rw [hmatches.memory]; exact hvsight)

/-- When the `next` has been answered, the handle that it has held is as it was, and the code goes
    on. -/
theorem resumes {l l' : Nat} {passed' : List H.Arg} (hkl : k < l)
    (hhandles : (T.state l).heap.handles = ((T.state k).heap.retain (.handle j)).handles)
    (hl' : T.Hears M l l' passed' sight' (Waiting M part' j F) (.reply r')) :
    ∃ n, k < n ∧ T.Speaks M n passed' part' r' j F sight' ∧
      (T.state k).heap.Spares (T.state n).heap := by
  obtain ⟨f, hf, hevent⟩ := h.event
  have hspares : ((T.state k).heap.retain (.handle j)).Spares (T.state l').heap :=
    (Heap.Spares.of_eq hhandles).trans hl'.spares
  have hcode : T.under <:+ .user (M.code part' j) [.handle j] :: F :=
    h.under.trans (List.suffix_cons _ F)
  have hstep : (T.state l').step = ({ T.state l' with
      frames := .user (M.code part' j) [.handle j] :: F } : State H).release [.handle j] r' :=
    State.step_of_top hl'.frames hl'.mode
  obtain ⟨hedit, hhanded⟩ := State.edit_of_top hl'.frames hl'.mode (by simp) (by simp)
  have hat : T.At (l' + 1) (T.trace passed') (T.ahead passed') :=
    hl'.underway.idle hstep (hcode.trans (List.suffix_cons _ _)) hedit (Heap.Spares.refl _ _) rfl
      (.of_reply hstep rfl hhanded)
  have hthere : (T.state (l' + 1)).heap.handles.get? j = some (.event ⟨T.dispatch, f⟩) := by
    rw [state_succ, hstep]
    exact (hspares j (.event ⟨T.dispatch, f⟩) (by rw [Heap.get?_handles_retain, hevent]) trivial).1
  obtain ⟨n, hn, hat', hmatches⟩ := hat.lets_go_handle (by rw [state_succ, hstep]; rfl)
    (by rw [state_succ, hstep]; rfl) hcode hthere ⟨rfl, hf⟩ h.other
  rw [state_succ, hstep] at hmatches
  have hspared : (T.state k).heap.Spares (T.state n).heap :=
    hspares.release_held.trans (.of_eq hmatches.handles)
  have hlater := hl'.later
  refine ⟨n, by omega, ⟨hat', hmatches.frames, hmatches.mode, ?_, h.under, ⟨f, hf, ?_⟩, h.other⟩,
    hspared⟩
  · rw [hmatches.memory]
    exact hl'.sight
  · exact (hspared j _ hevent trivial).1

end Speaks

/-- The call does what the listeners do by themselves.  The induction is on the fuel: each turn takes
    a unit, and the listeners that a `next` runs have one less. -/
theorem follows (hT : T.Mannered M) (fuel : Nat) {k : Nat} {passed : List H.Arg} {part : M.Part}
    {r : Reply H.toVocabulary} {j : HandleId} {F : List (Frame H)} {sight : M.Sight}
    (h : T.Speaks M k passed part r j F sight) :
    T.Follows M k fuel (fun r => (.releasing [.handle j] r :: F, .reply .done))
      (M.play fuel part r (T.natives (T.ahead passed)) sight passed) := by
  induction fuel generalizing k passed part r j F sight with
  | zero => exact ⟨k, Nat.le_refl k, h.underway⟩
  | succ fuel ih =>
    have hact := M.resume_act part j r (T.state k).memory
    have hsight := M.resume_sight part j r (T.state k).memory
    rw [h.sight] at hact hsight
    rw [Manner.play]
    generalize M.turn part r sight = turned at hact hsight ⊢
    obtain ⟨sight', move⟩ := turned
    cases move with
    | finish r' => exact ⟨rfl, k + 1, h.finishes hact hsight⟩
    | pause part' =>
      obtain ⟨hspeaks, hspares⟩ := h.pauses hact hsight
      exact (ih hspeaks).before (by omega) (Nat.le_succ k) hspares
    | goOn a part' =>
      obtain ⟨l, hl, hhandles, hfollows⟩ := h.follows_next hT ih hact hsight
      refine hfollows.andThen (by omega) fun r' l' passed' sight' hl' => ?_
      obtain ⟨n, hn, hspeaks, hspares⟩ := h.resumes hl hhandles hl'
      exact (ih hspeaks).before (by omega) (Nat.le_of_lt hn) hspares

end Trip

end Relay
