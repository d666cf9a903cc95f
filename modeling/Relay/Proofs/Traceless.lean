/-
  A call that changes nothing leaves NOTHING behind.

  While a call is answered its listeners may go on, start dispatches of their own, and fail, in any
  nesting.  If they edit no list, move only dispatches that have come since and keep no event
  (`State.Passive`), then all chains and dispatches are intact when the answer comes, and by then every
  newcomer has gone, for whoever waits below the call has no event of it.  So the same dispatches stand
  where they stood, the same slots have the same pins, and the chains are what they were.  How the
  call has come to its answer, by returning or by unwinding, does not matter.
-/
import Relay.Proofs.Intact
import Relay.Proofs.Traversal

namespace Relay

variable {H : Host}

/-! ## The same slots in the same order -/

/-- Two lists that are parts of a third without repetitions, and have the same members, are the same. -/
theorem eq_of_sublists {α : Type} {l m t : List α} (ht : t.Nodup) (hl : l.Sublist t)
    (hm : m.Sublist t) (h : ∀ x, x ∈ l ↔ x ∈ m) : l = m := by
  induction t generalizing l m with
  | nil => rw [List.sublist_nil.1 hl, List.sublist_nil.1 hm]
  | cons x t ih =>
    obtain ⟨hx, ht⟩ := List.nodup_cons.1 ht
    cases hl with
    | cons _ hl =>
      cases hm with
      | cons _ hm => exact ih ht hl hm h
      | cons_cons _ hm => exact absurd (hl.subset ((h x).2 List.mem_cons_self)) hx
    | cons_cons _ hl =>
      cases hm with
      | cons _ hm => exact absurd (hm.subset ((h x).1 List.mem_cons_self)) hx
      | cons_cons _ hm =>
        refine congrArg (x :: ·) (ih ht hl hm fun y => ?_)
        have hy := h y
        simp only [List.mem_cons] at hy
        have hne : y ∈ t → y ≠ x := fun hyt he => hx (he ▸ hyt)
        constructor
        · intro hyl
          exact (hy.1 (.inr hyl)).resolve_left (hne (hl.subset hyl))
        · intro hym
          exact (hy.2 (.inr hym)).resolve_left (hne (hm.subset hym))

namespace State

/-- A dispatch that starts on chain `c` in the coming step takes the slots in `order`, one after the
    other, as long as no list is edited; when it is past the end, it has taken them all. -/
def Traverses (s : State H) (c : ChainId) (order : List SlotId) : Prop :=
  ∀ d cursor n, s.heap.dispatches.get? d = none →
    s.step.heap.dispatches.get? d = some ⟨c, cursor⟩ → (∀ k ≤ n, (s.after k).edit = .nothing) →
      s.trail d (n + 1) <+: order ∧
        ((s.after (n + 1)).heap.dispatches.get? d = some ⟨c, none⟩ → s.trail d (n + 1) = order)

end State

namespace Reachable

variable {s : State H} {c : ChainId} {chain : Chain Fn}

/-- As long as no list is edited, a chain that stays keeps its order. -/
theorem order_after (hs : Reachable s) (hc : s.heap.chains.get? c = some chain) {n : Nat}
    (hedits : ∀ k < n, (s.after k).edit = .nothing) {chain' : Chain Fn}
    (hc' : (s.after n).heap.chains.get? c = some chain') : chain'.order = chain.order := by
  induction n generalizing chain' with
  | zero => rw [Option.some.inj (hc'.symm.trans hc)]
  | succ n ih =>
    have hlt : c < s.heap.chains.nextId :=
      s.heap.chains.stored_lt (by rw [Table.contains, Pool.get?_stored, hc]; rfl)
    obtain ⟨old, hold⟩ := Option.ne_none_iff_exists'.1 ((hs.after n).exists_chain_of_step
      (Nat.lt_of_lt_of_le hlt (nextChain_le n s)) (by rw [← State.after_succ, hc']; simp))
    rw [(hs.after n).order_step (hedits n (Nat.lt_succ_self n)) hold hc',
      ih (fun k hk => hedits k (Nat.lt_succ_of_lt hk)) hold]

/-- Wherever a dispatch stands, and whatever it has taken, was linked when it started. -/
theorem trail_subset (hs : Reachable s) {d : DispatchId} {cursor : Option SlotId}
    (hc : s.heap.chains.get? c = some chain) (hnew : s.heap.dispatches.get? d = none)
    (hstart : s.step.heap.dispatches.get? d = some ⟨c, cursor⟩) {n : Nat}
    (hedits : ∀ k < n, (s.after k).edit = .nothing) :
    (∀ c' x, (s.after n).heap.dispatches.get? d = some ⟨c', some x⟩ → x ∈ chain.order) ∧
      ∀ x ∈ s.trail d n, x ∈ chain.order := by
  induction n with
  | zero =>
    refine ⟨fun c' x hd => ?_, fun x hx => absurd hx List.not_mem_nil⟩
    exact absurd (hnew.symm.trans hd) (by simp)
  | succ n ih =>
    obtain ⟨hstands, htrail⟩ := ih fun k hk => hedits k (Nat.lt_succ_of_lt hk)
    have hnow : ∀ c' x, (s.after (n + 1)).heap.dispatches.get? d = some ⟨c', some x⟩ →
        x ∈ chain.order := by
      intro c' x hd
      obtain rfl : c' = c := (hs.underway hnew hstart n).home _ (by rw [Heap.get?_scene_dispatches, hd])
      obtain ⟨deed, hdoes⟩ := (s.after n).step_does
      rw [← Heap.get?_scene_dispatches] at hd
      rcases hdoes.change.stands_cases hd with hold | hentry
      · exact hstands c' x (by rw [← Heap.get?_scene_dispatches, hold])
      · obtain ⟨old, hold, hx⟩ := hdoes.change.entry_linked (hs.after n).coherent hentry
        have hmem := (((hs.after n).coherent c' old hold).visits x).2 hx
        rw [Heap.get?_scene_chains] at hold
        rwa [← hs.order_after hc (fun k hk => hedits k (Nat.lt_succ_of_lt hk)) hold]
    refine ⟨hnow, fun x hx => ?_⟩
    rcases List.mem_append.1 hx with hold | htaken
    · exact htrail x hold
    · rw [Scene.taken] at htaken
      split at htaken
      · obtain ⟨⟨c', cursor'⟩, hd, hcursor⟩ := Option.bind_eq_some_iff.1 (Option.mem_toList.1 htaken)
        rw [Heap.get?_scene_dispatches] at hd
        obtain rfl : cursor' = some x := hcursor
        exact hnow c' x hd
      · exact absurd htaken List.not_mem_nil

/-- As long as a dispatch is there, what it has taken and what is left to it make up the whole chain. -/
theorem exists_rest (hs : Reachable s) {d : DispatchId} {cursor cursor' : Option SlotId} {n : Nat}
    (hc : s.heap.chains.get? c = some chain) (hnew : s.heap.dispatches.get? d = none)
    (hstart : s.step.heap.dispatches.get? d = some ⟨c, cursor⟩)
    (hedits : ∀ k ≤ n, (s.after k).edit = .nothing)
    (hd : (s.after (n + 1)).heap.dispatches.get? d = some ⟨c, cursor'⟩) :
    ∃ rest, s.trail d (n + 1) ++ rest = chain.order ∧ (cursor' = none → rest = []) := by
  have hu := hs.underway hnew hstart n
  have hr := (hs.after (n + 1)).recorded
  have hedits' : ∀ k < n + 1, (s.after k).edit = .nothing := fun k hk =>
    hedits k (Nat.le_of_lt_succ hk)
  have htrail := (hs.trail_subset hc hnew hstart hedits').2
  obtain ⟨now, hnow⟩ := (hs.after (n + 1)).exists_chain hd
  obtain ⟨first, hfirst⟩ := hs.step.exists_chain hstart
  have hnow' : (s.after (n + 1)).heap.scene.chains.get? c = some now := by
    rw [Heap.get?_scene_chains, hnow]
  have horder : now.order = chain.order := hs.order_after hc hedits' hnow
  have hline : chain.order.Sublist ((s.after (n + 1)).timeline c) := horder ▸ hr.order c now hnow'
  -- what is in the chain now was so when the dispatch started
  have hlinked (x : SlotId) (hx : x ∈ chain.order) :
      s.step.heap.scene.Linked c x ∧ (s.after (n + 1)).heap.scene.Linked c x := by
    have hfirst' : s.step.heap.scene.chains.get? c = some first := by
      rw [Heap.get?_scene_chains, hfirst]
    refine ⟨⟨first, hfirst', ((hs.step.coherent c first hfirst').visits x).1 ?_⟩,
      ⟨now, hnow', (((hs.after (n + 1)).coherent c now hnow').visits x).1 (horder ▸ hx)⟩⟩
    rw [hs.order_step (hedits 0 (Nat.zero_le n)) hc hfirst]
    exact hx
  rw [← Heap.get?_scene_dispatches] at hd
  cases cursor' with
  | none =>
    refine ⟨[], ?_, fun _ => rfl⟩
    rw [List.append_nil]
    refine eq_of_sublists (hr.nodup c) hu.taken hline fun x => ⟨htrail x, fun hx => ?_⟩
    exact hu.past hd x (hlinked x hx).1 (hlinked x hx).2
  | some x =>
    have hleft : (s.after (n + 1)).heap.scene.Left d c x (now.rest x) := ⟨hd, now, hnow', rfl⟩
    refine ⟨now.rest x, ?_, fun he => absurd he (by simp)⟩
    refine eq_of_sublists (hr.nodup c) (hu.ordered x _ hleft) hline fun y => ⟨fun hy => ?_, fun hy => ?_⟩
    · rcases List.mem_append.1 hy with htaken | hrest
      · exact htrail y htaken
      · exact horder ▸ (((hs.after (n + 1)).coherent c now hnow').links.rest_spec x).1.subset hrest
    · exact hu.covered x _ hleft y (hlinked y hy).1 (hlinked y hy).2

/-- While no list is edited, a dispatch takes the slots of its chain one after the other. -/
theorem traverses (hs : Reachable s) (hc : s.heap.chains.get? c = some chain) :
    s.Traverses c chain.order := by
  intro d cursor n hnew hstart hedits
  induction n with
  | zero =>
    obtain ⟨rest, hrest, hpast⟩ := hs.exists_rest hc hnew hstart hedits hstart
    refine ⟨⟨rest, hrest⟩, fun hd => ?_⟩
    obtain rfl := (Dispatch.mk.inj (Option.some.inj (hstart.symm.trans hd))).2
    rw [← hrest, hpast rfl, List.append_nil]
  | succ n ih =>
    cases hd : (s.after (n + 1 + 1)).heap.dispatches.get? d with
    | none =>
      -- a dispatch that has gone takes nothing more
      have hcursor : (s.after (n + 1)).step.heap.scene.cursor? d = none := by
        rw [Scene.cursor?, Heap.get?_scene_dispatches, ← State.after_succ, hd]
        rfl
      refine ⟨?_, fun he => absurd he (by simp)⟩
      rw [State.trail, Scene.taken_of_none _ hcursor, List.append_nil]
      exact (ih fun k hk => hedits k (Nat.le_succ_of_le hk)).1
    | some e =>
      obtain ⟨c', cursor'⟩ := e
      obtain rfl : c' = c :=
        (hs.underway hnew hstart (n + 1)).home _ (by rw [Heap.get?_scene_dispatches, hd])
      obtain ⟨rest, hrest, hpast⟩ := hs.exists_rest hc hnew hstart hedits hd
      refine ⟨⟨rest, hrest⟩, fun he => ?_⟩
      obtain rfl := (Dispatch.mk.inj (Option.some.inj he)).2
      rw [← hrest, hpast rfl, List.append_nil]

end Reachable

/-! ## A call that changes nothing -/

/-- The dispatch that a share keeps alive. -/
def Ref.dispatch? : Ref → Option DispatchId
  | .dispatch d => some d
  | .event e => some e.dispatch
  | _ => none

theorem Ref.dispatch?_eq_some_iff (ref : Ref) (d : DispatchId) :
    ref.dispatch? = some d ↔ ref = .dispatch d ∨ ∃ f, ref = .event ⟨d, f⟩ := by
  cases ref with
  | dispatch d' => simp [dispatch?]
  | event e =>
    obtain ⟨d', f⟩ := e
    simp [dispatch?]
  | _ => simp [dispatch?]

namespace State

/-- In the next `n` steps nothing is changed: no list is edited; no dispatch that was there is moved;
    no handle on a chain or an event is let go of, and no function that runs a chain ends, for with
    these a chain might end; and no handle is left, in the end, on an event that has come since. -/
structure Passive (s : State H) (n : Nat) : Prop where
  edits : ∀ k < n, (s.after k).edit = .nothing
  own : ∀ k < n, ∀ d ∈ (s.after k).onward, s.heap.dispatches.nextId ≤ d
  handles : ∀ k < n + 1, ∀ i ref, s.heap.handles.get? i = some ref → ref.function? = none →
    (s.after k).heap.handles.get? i = some ref
  runners : ∀ k < n + 1, ∀ p c, s.heap.runs p = some c → (s.after k).heap.runs p = some c
  unkept : ∀ i ref, (s.after n).heap.handles.get? i = some ref →
    ∀ d ∈ ref.dispatch?, d < s.heap.dispatches.nextId

/-- What is stored can be gone through one by one. -/
theorem forall_stored_iff {α : Type} (p : Pool α) (P : Nat → α → Prop) :
    (∀ i a, p.get? i = some a → P i a) ↔ ∀ e ∈ p.stored.entries, P e.1 e.2 := by
  simp only [← Pool.get?_stored, Table.get?_eq_some_iff, Prod.forall]

/-- So can the functions that run a chain. -/
theorem forall_runs_iff {T : Vocabulary} (h : Heap T) (P : PayloadId → ChainId → Prop) :
    (∀ p c, h.runs p = some c → P p c) ↔
      ∀ e ∈ h.payloads.stored.entries, ∀ c ∈ e.2.body.chain?, P e.1 c := by
  rw [← forall_stored_iff h.payloads fun p load => ∀ c ∈ load.body.chain?, P p c]
  simp only [Heap.runs, Option.bind_eq_some_iff, Option.mem_def]
  constructor
  · intro hall p load hp c hc
    exact hall p c ⟨load, hp, hc⟩
  · intro hall p c hruns
    obtain ⟨load, hp, hc⟩ := hruns
    exact hall p load hp c hc

instance (s : State H) (n : Nat) : Decidable (s.Passive n) :=
  decidable_of_iff
    ((∀ k < n, (s.after k).edit = .nothing) ∧
      (∀ k < n, ∀ d ∈ (s.after k).onward, s.heap.dispatches.nextId ≤ d) ∧
      (∀ k < n + 1, ∀ e ∈ s.heap.handles.stored.entries, e.2.function? = none →
        (s.after k).heap.handles.get? e.1 = some e.2) ∧
      (∀ k < n + 1, ∀ e ∈ s.heap.payloads.stored.entries, ∀ c ∈ e.2.body.chain?,
        (s.after k).heap.runs e.1 = some c) ∧
      ∀ e ∈ (s.after n).heap.handles.stored.entries, ∀ d ∈ e.2.dispatch?,
        d < s.heap.dispatches.nextId)
    ⟨fun ⟨hedits, hown, hhandles, hrunners, hunkept⟩ =>
      ⟨hedits, hown, fun k hk => (forall_stored_iff _ _).2 (hhandles k hk),
        fun k hk => (forall_runs_iff _ _).2 (hrunners k hk), (forall_stored_iff _ _).2 hunkept⟩,
    fun h => ⟨h.edits, h.own, fun k hk => (forall_stored_iff _ _).1 (h.handles k hk),
      fun k hk => (forall_runs_iff _ _).1 (h.runners k hk), (forall_stored_iff _ _).1 h.unkept⟩⟩

variable {s : State H} {rq : Request H.toVocabulary} {below : List (Frame H)} {n : Nat}
  {r : Reply H.toVocabulary}

/-- The code that asks goes on waiting with all that it had. -/
theorem Asks.outlives (h : s.Asks rq below) {w : State H} (hbelow : below <:+ w.frames)
    (hhandles : ∀ i ref, s.heap.handles.get? i = some ref → ref.function? = none →
      w.heap.handles.get? i = some ref)
    (hrunners : ∀ p c, s.heap.runs p = some c → w.heap.runs p = some c) : s.Outlives w := by
  obtain ⟨r, code, owned, rest, code', hmode, hframes, -, rfl⟩ := h
  refine ⟨hhandles, hrunners, by rw [hmode]; rfl, fun f hf => ?_⟩
  rw [hframes] at hf
  rcases List.mem_cons.1 hf with rfl | hrest
  · exact .inr ⟨code, code', owned, rfl, hbelow.subset List.mem_cons_self⟩
  · exact .inl (hbelow.subset (List.mem_cons_of_mem _ hrest))

/-- What was there is untouched all the while. -/
theorem Asks.untouched_after (hs : Reachable s) (h : s.Asks rq below) (hn : s.Answered below n r)
    (hp : s.Passive n) {k : Nat} (hk : k ≤ n) : s.Untouched (s.after k) := by
  induction k with
  | zero => exact .refl s
  | succ k ih =>
    have hbelow : below <:+ (s.after (k + 1)).frames :=
      h.suffix_after (Nat.succ_pos k) fun j hj hjk => hn.first j hj (Nat.lt_of_lt_of_le hjk hk)
    have hlt := Nat.lt_succ_of_le hk
    have hout := h.outlives hbelow (hp.handles (k + 1) hlt) (hp.runners (k + 1) hlt)
    exact (ih (Nat.le_of_succ_le hk)).step hs (hs.after k) hout (hp.edits k hk) (hp.own k hk)

/-- When the answer has come, all newcomers have gone. -/
theorem Asks.dispatches_after (hs : Reachable s) (h : s.Asks rq below) (hn : s.Answered below n r)
    (hp : s.Passive n) (d : DispatchId) :
    (s.after n).heap.dispatches.get? d = s.heap.dispatches.get? d := by
  rcases Nat.lt_or_ge d s.heap.dispatches.nextId with hlt | hnew
  · exact (h.untouched_after hs hn hp (Nat.le_refl n)).intact.dispatches d hlt
  have hnone := s.heap.dispatches.get?_of_le hnew
  rw [hnone]
  by_contra hthere
  obtain ⟨ref, href, hevent⟩ :=
    ((hs.after n).dispatch_iff d).1 (Option.ne_none_iff_exists'.1 hthere)
  rcases (mem_shares_iff _ _).1 href with ⟨i, hi⟩ | hmode | ⟨f, hf, hheld⟩
  · have hd := (ref.dispatch?_eq_some_iff d).2 hevent
    exact absurd (hp.unkept i ref hi d hd) (Nat.not_lt_of_le hnew)
  · rw [hn.mode] at hmode
    exact absurd hmode List.not_mem_nil
  · -- whoever waits for the answer had the event already when the call began
    rw [hn.frames] at hf
    obtain ⟨r', code, owned, rest, code', -, hframes, -, rfl⟩ := h
    obtain ⟨g, hg, hsame⟩ : ∃ g ∈ s.frames, g.held = f.held := by
      rw [hframes]
      rcases List.mem_cons.1 hf with rfl | hrest
      · exact ⟨_, List.mem_cons_self, rfl⟩
      · exact ⟨f, List.mem_cons_of_mem _ hrest, rfl⟩
    have hold : s.HasEvent d :=
      ⟨ref, (mem_shares_iff _ _).2 (.inr (.inr ⟨g, hg, hsame ▸ hheld⟩)), hevent⟩
    obtain ⟨e, he⟩ := (hs.dispatch_iff d).2 hold
    exact absurd (hnone.symm.trans he) (by simp)

/-- The same dispatches stand on the same slots, so the slots have the same pins. -/
theorem Asks.chains_after (hs : Reachable s) (h : s.Asks rq below) (hn : s.Answered below n r)
    (hp : s.Passive n) {c : ChainId} {chain : Chain Fn} (hc : s.heap.chains.get? c = some chain) :
    (s.after n).heap.chains.get? c = some chain := by
  obtain ⟨chain', hc', hbare⟩ :=
    (h.untouched_after hs hn hp (Nat.le_refl n)).intact.chains c chain hc
  have hstanding (x : SlotId) :
      (s.after n).heap.scene.standing c x = s.heap.scene.standing c x := by
    refine Table.total_congr (fun d => ?_) _
    rw [Heap.get?_scene_dispatches, Heap.get?_scene_dispatches, h.dispatches_after hs hn hp]
  have hpinned := hs.accounted.pinned c chain (by rw [Heap.get?_scene_chains, hc])
  have hpinned' := (hs.after n).accounted.pinned c chain' (by rw [Heap.get?_scene_chains, hc'])
  rw [hc', hpinned.eq_of_bare hpinned' hstanding hbare]

/-- All that `s` stores of chains and dispatches is in `t` exactly as it was, and a call that follows
    takes the slots that were linked in `s`. -/
structure LeavesNoTrace (s t : State H) : Prop where
  chains : ∀ c chain, s.heap.chains.get? c = some chain → t.heap.chains.get? c = some chain
  /-- No dispatch is moved, none has gone, and none has come. -/
  dispatches : ∀ d, t.heap.dispatches.get? d = s.heap.dispatches.get? d
  following : ∀ c chain m, s.heap.chains.get? c = some chain →
    (∀ k < m, (t.after k).edit = .nothing) → (t.after m).Traverses c chain.order

end State

/-- In every reachable state, a call whose listeners change nothing leaves everything as it was,
    whether it returns or fails. -/
theorem call_leaves_no_trace {s : State H} (hs : Reachable s) {i : HandleId} {arg : H.Arg}
    {below : List (Frame H)} {n : Nat} {r : Reply H.toVocabulary} (hasks : s.Asks (.call i arg) below)
    (hanswer : s.Answered below n r) (hpassive : s.Passive n) : s.LeavesNoTrace (s.after n) where
  chains := fun _ _ hc => hasks.chains_after hs hanswer hpassive hc
  dispatches := hasks.dispatches_after hs hanswer hpassive
  following := by
    intro c chain m hc hedits d cursor k hnew hstart
    have ht := hs.after n
    have hthere := hasks.chains_after hs hanswer hpassive hc
    obtain ⟨now, hnow⟩ : ∃ now, ((s.after n).after m).heap.chains.get? c = some now := by
      obtain ⟨next, hnext⟩ := (ht.after m).step.exists_chain hstart
      have hlt : c < (s.after n).heap.chains.nextId :=
        (s.after n).heap.chains.stored_lt (by rw [Table.contains, Pool.get?_stored, hthere]; rfl)
      exact Option.ne_none_iff_exists'.1 ((ht.after m).exists_chain_of_step
        (Nat.lt_of_lt_of_le hlt (Reachable.nextChain_le m _)) (by rw [hnext]; simp))
    have htraverses := (ht.after m).traverses hnow
    rw [ht.order_after hthere hedits hnow] at htraverses
    exact htraverses d cursor k hnew hstart

/-- Listener `a` keeps its event and removes itself, which leaves a tombstone; `b` goes on to `c`, and
    `c` fails. -/
def Script.keptEvent : Script.Program Unit :=
  [ .define "a" (.closure ⟨"a", [.stash "kept", .removeCurrent none none], none⟩ false),
    .add "a" none (some .back),
    .define "b" (.closure ⟨"b", [.next {} none false], none⟩ false),
    .add "b" none (some .back),
    .define "c" (.closure ⟨"c", [.panic "c fails"], none⟩ false),
    .add "c" none (some .back),
    .call ⟨.given (), .absent⟩ none false,
    .call ⟨.given (), .absent⟩ none false ]

/-- The second call runs `b` and `c` and is unwound.  The dispatch of the first stands on the
    tombstone as before, with the only pin there is. -/
theorem call_leaves_no_trace_keptEvent :
    ∃ i below, ((Script.start Script.keptEvent).after 43).Asks (.call i ()) below ∧
      ((Script.start Script.keptEvent).after 43).Answered below 33 (.fault (.raised "c fails")) ∧
      ((Script.start Script.keptEvent).after 43).Passive 33 ∧
      ((Script.start Script.keptEvent).after 43).LeavesNoTrace
        (((Script.start Script.keptEvent).after 43).after 33) ∧
      (((Script.start Script.keptEvent).after 43).heap.chains.get? 0).map
        (fun chain => chain.slots.entries.map fun e => (e.1, e.2.linked, e.2.pins)) =
          some [(0, false, 1), (1, true, 0), (2, true, 0)] ∧
      ((Script.start Script.keptEvent).after 43).heap.dispatches.get? 0 = some ⟨0, some 0⟩ := by
  have hs := (Script.reachable_start Script.keptEvent).after 43
  have hfound : (((Script.start Script.keptEvent).after 43).asking.bind fun e =>
      match e.1 with
      | .call i _ => some i
      | _ => none) = some 0 := by decide +kernel
  obtain ⟨⟨rq, below⟩, hasking, hcall⟩ := Option.bind_eq_some_iff.1 hfound
  have hfault : (((Script.start Script.keptEvent).after 43).after 33).mode.fault? =
      some (.raised "c fails") := by decide +kernel
  have hmode := Mode.eq_of_fault? hfault
  have hpassive : ((Script.start Script.keptEvent).after 43).Passive 33 := by decide +kernel
  cases rq with
  | call i arg =>
    have hasks := State.asks_of_asking hasking
    have hanswer := hasks.answered_of_length (n := 33) (by decide) hmode (by decide +kernel)
      (by decide +kernel)
    exact ⟨i, below, hasks, hanswer, hpassive, call_leaves_no_trace hs hasks hanswer hpassive,
      by decide +kernel, by decide +kernel⟩
  | _ => exact absurd hcall (by simp)

end Relay
