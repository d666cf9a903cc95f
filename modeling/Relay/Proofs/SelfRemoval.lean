/-
  A listener that removes ITSELF.

  The event of a listener names the slot it is run through (`Reachable.delivered`), but a removal is
  not told which slot that is: it searches from the tail for a listener that is equal.  A function is
  equal to itself without any code being asked (`judge_self`), so the search never gets past the
  running slot, and whatever stands before that slot does not matter.  What stands behind it does: a
  listener there that is equal goes in its place, one whose comparing fails takes the removal along,
  and the code that compares may take the running slot out itself.  If nothing of this happens, the
  running slot is the one that goes, and it is gone for good.
-/
import Relay.Proofs.Delivery
import Relay.Proofs.Settling
import Relay.Proofs.Verdict

namespace Relay

variable {H : Host} {s : State H}

/-- The place that a listener is being run through, and the event that it receives. -/
def Mode.delivery? : Mode H → Option (Entry × Event)
  | .invoke (some entry) _ (some event) _ => some (entry, event)
  | _ => none

theorem Mode.exists_invoke_of_delivery? {m : Mode H} {entry : Entry} {event : Event}
    (h : m.delivery? = some (entry, event)) :
    ∃ f arg, m = .invoke (some entry) f (some event) arg := by
  unfold delivery? at h
  split at h
  · obtain ⟨rfl, rfl⟩ := Prod.mk.inj (Option.some.inj h)
    exact ⟨_, _, rfl⟩
  · exact absurd h (by simp)

/-! ## Gone for good -/

/-- A listener is being run through `entry`, or a frame waits to run it. -/
def State.Visits (s : State H) (entry : Entry) : Prop :=
  s.mode.entry? = some entry ∨ ∃ f ∈ s.frames, f.entry? = some entry

namespace Reachable

/-- Whatever is visited belongs to a dispatch that has begun. -/
theorem begun_of_visits (hs : Reachable s) {entry : Entry} (h : s.Visits entry) :
    entry.dispatch < s.heap.dispatches.nextId := by
  have hdelivers : ∃ event, s.Delivers entry event := by
    rcases h with hmode | ⟨f, hf, hentry⟩
    · obtain ⟨event, arg, hinvoke⟩ := hs.invoke_of_entry? hmode
      exact ⟨event, .inl ⟨_, arg, hinvoke⟩⟩
    · cases f with
      | entering entry' event arg =>
        obtain rfl := Option.some.inj hentry
        exact ⟨event, .inr ⟨arg, hf⟩⟩
      | _ => exact absurd hentry (by simp [Frame.entry?])
  obtain ⟨event, hdelivers⟩ := hdelivers
  have hnames := hs.delivered hdelivers
  exact hnames.dispatch ▸ hnames.begun

/-- What is visited after a step was visited before it, or the slot is linked. -/
theorem visits_step (hs : Reachable s) {entry : Entry} (h : s.step.Visits entry) :
    s.Visits entry ∨ s.heap.scene.Linked entry.chain entry.slot := by
  obtain ⟨deed, hdoes⟩ := s.step_does
  obtain ⟨pushed, hpushed, hentries⟩ := hdoes.entries
  have hsource (hmem : entry ∈ pushed.filterMap Frame.entry? ++ s.step.mode.entry?.toList) :
      s.Visits entry ∨ s.heap.scene.Linked entry.chain entry.slot := by
    rw [hentries] at hmem
    rcases List.mem_append.1 hmem with hdeed | hresumed
    · exact .inr (hdoes.change.entry_linked hs.coherent (Option.mem_toList.1 hdeed))
    · obtain ⟨f, below, hhears, hf⟩ := State.hears_of_resumed (Option.mem_toList.1 hresumed)
      exact .inl (.inr ⟨f, hhears.1 ▸ List.mem_cons_self, hf⟩)
  rcases h with hmode | ⟨f, hf, hentry⟩
  · exact hsource (List.mem_append_right _ (Option.mem_toList.2 hmode))
  · rw [hpushed] at hf
    rcases List.mem_append.1 hf with hnew | hkept
    · exact hsource (List.mem_append_left _ (List.mem_filterMap.2 ⟨f, hnew, hentry⟩))
    · exact .inl (.inr ⟨f, s.waiting_suffix.subset hkept, hentry⟩)

end Reachable

/-- Slot `x` of `c` is not linked and never will be, and no dispatch that begins from now on has a
    listener run through it. -/
def State.Barred (s : State H) (c : ChainId) (x : SlotId) : Prop :=
  ∀ n, ¬(s.after n).heap.scene.Linked c x ∧
    ∀ entry, (s.after n).mode.entry? = some entry → entry.At c x →
      entry.dispatch < s.heap.dispatches.nextId

/-- What has been there and is not linked any more is barred. -/
theorem Reachable.barred (hs : Reachable s) {c : ChainId} {x : SlotId}
    (hx : s.heap.scene.Spent c x) : s.Barred c x := by
  intro n
  refine ⟨(hs.spent_after hx n).2, fun entry hentry hat => hs.begun_of_visits ?_⟩
  have hvisits : ∀ m, (s.after m).Visits entry → s.Visits entry := by
    intro m
    induction m with
    | zero => exact id
    | succ m ih =>
      intro h
      rcases (hs.after m).visits_step h with hold | hlinked
      · exact ih hold
      · rw [hat.1, hat.2] at hlinked
        exact absurd hlinked (hs.spent_after hx m).2
  exact hvisits n (.inl hentry)

/-! ## Comparing a function with itself -/

/-- What comparing two functions comes to, if no code has to be asked. -/
def Heap.verdict? {T : Vocabulary} (h : Heap T) (left right : Fn) : Option Bool :=
  match judge (h.stored left) (h.stored right), left.bind h.payloads.get? with
  | .settled same, _ => some same
  | .consult, some ⟨_, .identity⟩ => some false
  | .consult, _ => none

/-- It depends on the payloads only. -/
theorem Heap.verdict?_congr {T : Vocabulary} {h g : Heap T}
    (hp : ∀ p, g.payloads.get? p = h.payloads.get? p) (left right : Fn) :
    g.verdict? left right = h.verdict? left right := by
  have hget : g.payloads.get? = h.payloads.get? := funext hp
  unfold verdict? stored
  rw [hget]

theorem Heap.verdict?_self {T : Vocabulary} (h : Heap T) (f : Fn) : h.verdict? f f = some true := by
  unfold verdict?
  rw [judge_self]

namespace State

theorem compare_of_verdict? (s : State H) {left right : Fn} {same : Bool}
    (h : s.heap.verdict? left right = some same) : s.compare left right = s.answer (.flag same) := by
  unfold Heap.verdict? at h
  unfold compare
  cases hj : judge (s.heap.stored left) (s.heap.stored right) with
  | settled b =>
    rw [hj] at h
    obtain rfl := Option.some.inj h
    rfl
  | consult =>
    rw [hj] at h
    dsimp only at h ⊢
    cases hl : left.bind s.heap.payloads.get? with
    | none =>
      rw [hl] at h
      exact absurd h (by simp)
    | some load =>
      obtain ⟨body, rule⟩ := load
      rw [hl] at h
      cases rule with
      | identity =>
        obtain rfl := Option.some.inj h
        cases right.bind s.heap.payloads.get? <;> rfl
      | byValue => exact absurd h (by simp)
      | custom rule => exact absurd h (by simp)

/-- Two functions that are told apart without asking, or found to be one, in one step. -/
theorem step_of_verdict? {s : State H} {left right : Fn} {same : Bool}
    (hmode : s.mode = .compare left right) (h : s.heap.verdict? left right = some same) :
    s.step = s.answer (.flag same) := by
  unfold step
  rw [hmode]
  exact s.compare_of_verdict? h

/-- The listener that is looked for is equal to itself, and nobody is asked. -/
theorem Judged.self {below : List (Frame H)} {f : Fn} {n : Nat} {x : SlotId}
    {r : Reply H.toVocabulary} (h : s.Judged below f n (x, f) r) : r = .flag true := by
  obtain ⟨found, held, i, j, -, hij, -, -, hmode, hframes, hstays, hreply, -⟩ := h
  have hstep : s.after (i + 1) = (s.after i).answer (.flag true) :=
    step_of_verdict? hmode (Heap.verdict?_self _ f)
  have hmode' : (s.after (i + 1)).mode = .reply (.flag true) := congrArg State.mode hstep
  have hframes' : (s.after (i + 1)).frames = .searching found :: (passers held ++ below) :=
    (congrArg State.frames hstep).trans hframes
  rcases Nat.lt_or_eq_of_le hij with hlt | rfl
  · rcases Nat.lt_or_eq_of_le (Nat.succ_le_of_lt hlt) with hlater | rfl
    · -- the search has heard the answer and is over
      let popped : State H := { s.after (i + 1) with frames := passers held ++ below }
      obtain ⟨⟨todo, q, hover⟩, -⟩ := popped.detachFound_over found
      have hdone : (s.after (i + 1 + 1)).frames = .releasing todo q :: (passers held ++ below) :=
        (congrArg State.frames (step_of_top hframes' hmode')).trans hover
      have hstays' := hstays (i + 1 + 1) (by omega) hlater
      rw [hdone] at hstays'
      rcases List.suffix_cons_iff.1 hstays' with heq | hsuffix
      · exact absurd (List.cons.inj heq).1 (by simp)
      · have hlength := hsuffix.length_le
        rw [List.length_cons] at hlength
        omega
    · exact Mode.reply.inj (hreply.symm.trans hmode')
  · exact absurd (hmode.symm.trans hreply) (by simp)

/-! ## Where the search stops -/

/-- An entry `a` of a list that is not behind `b` is `b` or has `b` behind it. -/
theorem exists_split {α : Type} {front back front' back' : List α} {a b : α}
    (h : front ++ a :: back = front' ++ b :: back') (ha : a ∉ back') :
    ∃ mid, a :: back = mid ++ b :: back' := by
  rcases List.append_eq_append_iff.1 h with ⟨mid, -, hmid⟩ | ⟨mid, -, hmid⟩
  · exact ⟨mid, hmid⟩
  · cases mid with
    | nil => exact ⟨[], hmid.symm⟩
    | cons first mid =>
      obtain ⟨-, rfl⟩ := List.cons.inj hmid
      exact absurd (List.mem_append_right mid List.mem_cons_self) ha

variable {c : ChainId} {x : SlotId} {f : Fn} {below : List (Frame H)}
  {front back : List (SlotId × Fn)} {n : Nat} {r : Reply H.toVocabulary}

/-- What stands before a slot whose listener is the one looked for does not matter. -/
theorem Concludes.of_self (h : s.Concludes c f below (front ++ (x, f) :: back) n r) :
    s.Concludes c f below ((x, f) :: back) n r := by
  have hself {es : List (SlotId × Fn)}
      (hes : ∀ e ∈ es, ∃ r, s.Judged below f n e r ∧ r.equal? = some false) : (x, f) ∉ es := by
    intro hmem
    obtain ⟨r, hjudged, hr⟩ := hes (x, f) hmem
    rw [hjudged.self] at hr
    exact absurd hr (by simp [Reply.equal?])
  cases h with
  | taken hsplit hequal hback hm htakes =>
    obtain ⟨mid, hmid⟩ := exists_split hsplit (hself hback)
    exact .taken hmid hequal hback hm htakes
  | spent hsplit hequal hback hm hspent hnone =>
    obtain ⟨mid, hmid⟩ := exists_split hsplit (hself hback)
    exact .spent hmid hequal hback hm hspent hnone
  | unmatched hall hnone =>
    exact absurd (List.mem_append_right front List.mem_cons_self) (hself hall)
  | unwound hsplit hfault hback hnone =>
    obtain ⟨mid, hmid⟩ := exists_split hsplit (hself hback)
    exact .unwound hmid hfault hback hnone

/-- Of the listeners behind, none is found equal, and none unwinds the comparing. -/
def Unrivalled (s : State H) (below : List (Frame H)) (f : Fn) (n : Nat)
    (back : List (SlotId × Fn)) : Prop :=
  ∀ e ∈ back, ∀ r, s.Judged below f n e r → r.equal? = some false

/-- Then the running slot decides. -/
theorem Concludes.of_unrivalled (h : s.Concludes c f below ((x, f) :: back) n r)
    (hback : s.Unrivalled below f n back) :
    (r = .flag true ∧ ∃ m < n, s.TakesOut 0 m c x) ∨
      (r = .flag false ∧ (∃ m < n, ¬(s.after m).heap.scene.Linked c x) ∧
        ∀ k < n, ∀ y, ¬s.TakesOut 0 k c y) := by
  -- who decides is not behind
  have hfirst {mid back' : List (SlotId × Fn)} {e : SlotId × Fn} {q : Reply H.toVocabulary}
      (hsplit : (x, f) :: back = mid ++ e :: back') (hjudged : s.Judged below f n e q)
      (hq : q.equal? ≠ some false) : e = (x, f) := by
    cases mid with
    | nil => exact (List.cons.inj hsplit).1.symm
    | cons first mid =>
      obtain ⟨-, rfl⟩ := List.cons.inj hsplit
      exact absurd (hback e (List.mem_append_right mid List.mem_cons_self) q hjudged) hq
  cases h with
  | taken hsplit hequal _ hm htakes =>
    obtain rfl := hfirst hsplit hequal (by simp [Reply.equal?])
    exact .inl ⟨rfl, _, hm, htakes⟩
  | spent hsplit hequal _ hm hspent hnone =>
    obtain rfl := hfirst hsplit hequal (by simp [Reply.equal?])
    exact .inr ⟨rfl, ⟨_, hm, hspent⟩, hnone⟩
  | unmatched hall =>
    obtain ⟨q, hjudged, hq⟩ := hall (x, f) List.mem_cons_self
    rw [hjudged.self] at hq
    exact absurd hq (by simp [Reply.equal?])
  | unwound hsplit hfault =>
    obtain rfl := hfirst hsplit hfault (by simp [Reply.equal?])
    exact absurd hfault.self (by simp)

/-! ## When nobody behind has to be asked -/

theorem heap_search (s : State H) (c : ChainId) (probe : Fn)
    (snapshot remaining : List (SlotId × Fn)) :
    (s.search c probe snapshot remaining).heap = s.heap := by
  cases remaining <;> rfl

/-- The recipient of the event is what is looked for. -/
theorem Asks.seeks {i j : HandleId} (h : s.Asks (.removeCurrent i j) below) {event : Event}
    (hi : s.heap.chainOf i = some c) (hj : s.heap.eventOf j = some event) :
    s.Seeks c event.recipient below := by
  refine ⟨_, h, ?_⟩
  unfold Request.search?
  dsimp only
  rw [hi, hj]

/-- To begin a removal leaves chains and payloads as they are, and holds the two handles. -/
theorem Asks.removeCurrent_begins (hs : Reachable s) {i j : HandleId}
    (h : s.Asks (.removeCurrent i j) below) {event : Event} (hi : s.heap.chainOf i = some c)
    (hj : s.heap.eventOf j = some event) :
    s.step.heap.scene = s.heap.scene ∧
      (∀ p, s.step.heap.payloads.get? p = s.heap.payloads.get? p) ∧
      s.step.heap.handles = (s.heap.retainAll ([j, i].map .handle)).handles ∧
      Turns c event.recipient (s.heap.listing c).reverse (.await ([j, i].map .handle) :: below) s.step
        (s.heap.listing c).reverse := by
  obtain ⟨t, hheap, rfl, hstep⟩ := h.exists_step
  have hbegun : s.step = (t.hold [j, i]).startRemove c event.recipient := by
    rw [hstep]
    unfold ask
    dsimp only
    rw [hheap, hi, hj]
  have hscene : (t.hold [j, i]).heap.scene = s.heap.scene := by
    rw [← hheap]
    exact t.heap.scene_retainAll _
  rw [startRemove_search (hscene ▸ hs.coherent), Heap.listing_scene hscene] at hbegun
  have hshares : (s.heap.listing c).reverse.map (fun e => Ref.function e.2) =
      ((s.heap.listing c).reverse.map (·.2)).map .function := List.map_map.symm
  rw [hbegun, heap_search]
  refine ⟨(Heap.scene_retainAll _ _).trans hscene, fun p => ?_, ?_, search_turns ({ t.hold [j, i] with
    heap := (t.hold [j, i]).heap.retainAll ((s.heap.listing c).reverse.map fun e => .function e.2) } :
      State H) c event.recipient _ _⟩
  · rw [(Heap.payloads_retainAll _ _).1, ← hheap]
    exact (t.heap.payloads_retainAll _).1 p
  · dsimp only
    rw [hshares, Heap.handles_retainAll_functions, ← hheap]
    rfl

/-- If the listeners behind are told apart without asking, the search comes to the running slot. -/
theorem Turns.reaches {snapshot : List (SlotId × Fn)} {under : List (Frame H)}
    (h : Turns c f snapshot under s (back ++ (x, f) :: front))
    (hback : ∀ e ∈ back, s.heap.verdict? e.2 f = some false) :
    ∃ n found, found.chain = c ∧ found.candidate = x ∧ found.snapshot = snapshot ∧
      (s.after n).mode = .reply (.flag true) ∧ (s.after n).frames = .searching found :: under ∧
      (s.after n).heap = s.heap ∧ ∀ k ≤ n, under.length < (s.after k).frames.length := by
  induction back generalizing s with
  | nil =>
    cases h with
    | next _ _ hframes hmode =>
      have hstep := step_of_verdict? hmode (Heap.verdict?_self _ f)
      have hframes' : s.step.frames = _ := (congrArg State.frames hstep).trans hframes
      have hheap : s.step.heap = s.heap := by
        rw [hstep]
        rfl
      refine ⟨1, _, rfl, rfl, rfl, congrArg State.mode hstep, hframes', hheap, fun k hk => ?_⟩
      obtain rfl | rfl : k = 0 ∨ k = 1 := by omega
      · exact hframes ▸ Nat.lt_succ_self _
      · exact hframes' ▸ Nat.lt_succ_self _
  | cons e rest ih =>
    cases h with
    | next _ _ hframes hmode =>
      have hstep := step_of_verdict? hmode (hback e List.mem_cons_self)
      have hframes' : s.step.frames = _ := (congrArg State.frames hstep).trans hframes
      let popped : State H := { s.step with frames := under }
      have hnext : s.after 2 = popped.search c f snapshot (rest ++ (x, f) :: front) :=
        step_of_top hframes' (congrArg State.mode hstep)
      have hheap : (s.after 2).heap = s.heap := by
        rw [hnext, heap_search]
        show s.step.heap = s.heap
        rw [hstep]
        rfl
      obtain ⟨n, found, hc, hx, hsnapshot, hmode', htop, hsame, hbusy⟩ :=
        ih (s := s.after 2) (hnext ▸ search_turns popped c f snapshot _) fun e' he' => by
          rw [hheap]
          exact hback e' (List.mem_cons_of_mem e he')
      simp only [← after_add] at hmode' htop hsame hbusy
      refine ⟨2 + n, found, hc, hx, hsnapshot, hmode', htop, hsame.trans hheap, fun k hk => ?_⟩
      obtain rfl | rfl | ⟨j, rfl⟩ : k = 0 ∨ k = 1 ∨ ∃ j, k = 2 + j := by
        rcases k with _ | _ | k
        · exact .inl rfl
        · exact .inr (.inl rfl)
        · exact .inr (.inr ⟨k, by omega⟩)
      · exact hframes ▸ Nat.lt_succ_self _
      · exact hframes' ▸ Nat.lt_succ_self _
      · exact hbusy j (by omega)

/-- A slot that was taken out is gone for good. -/
theorem TakesOut.barred (hs : Reachable s) {i k : Nat} (h : s.TakesOut i k c x) (hn : k < n) :
    (s.after n).Barred c x := by
  have hk := hs.after k
  obtain ⟨deed, hdoes⟩ := (s.after k).step_does
  have hseen := hdoes.change.seen hk.coherent (h.2.linked.seen hk.coherent hk.accounted)
  obtain ⟨m, rfl⟩ := Nat.exists_eq_add_of_lt hn
  refine (hs.after _).barred ?_
  rw [Nat.add_right_comm, after_add]
  exact hk.step.spent_after ⟨hseen, h.2.gone⟩ m

/-! ## All of it -/

/-- What comes of asking to remove the listener `f` that runs through slot `x` of `c`, in the coming
    step and for `below`, if the slots of `back` are linked behind `x`. -/
structure RemovesItself (s : State H) (c : ChainId) (x : SlotId) (f : Fn) (below : List (Frame H))
    (back : List (SlotId × Fn)) : Prop where
  /-- The listeners are compared from the tail, and the search never gets past `x`: the first
      comparison that does not say no decides. -/
  stops : ∀ n r, s.Answered below n r →
    ∃ m q, 0 < m ∧ s.Concludes c f below ((x, f) :: back) n q ∧ s.Arrives m n q r
  /-- If none behind is found equal or fails to be compared, slot `x` ITSELF is gone for good.  The
      answer is yes, unless what ran in the comparing has taken it out before, or a destructor has
      unwound. -/
  itself : ∀ n r, s.Answered below n r → s.Unrivalled below f n back →
    (s.after n).Barred c x ∧ ∃ m q, 0 < m ∧ s.Arrives m n q r ∧
      (q = .flag true ∧ (∃ m < n, s.TakesOut 0 m c x) ∨
        q = .flag false ∧ (∃ m < n, ¬(s.after m).heap.scene.Linked c x) ∧
          ∀ m < n, ∀ y, ¬s.TakesOut 0 m c y)
  /-- If those behind are told apart without asking any code, slot `x` is taken out in any case, and
      no other answer but yes is given. -/
  plainly : (∀ e ∈ back, s.heap.verdict? e.2 f = some false) →
    (∃ m, s.TakesOut 0 m c x ∧ ∀ n, m < n → (s.after n).Barred c x) ∧
      ∀ n r, s.Answered below n r → r = .flag true
  /-- And then the answer comes: whatever the removal lets go of is held by others, too, so that no
      destructor runs. -/
  returns : (∀ e ∈ back, s.heap.verdict? e.2 f = some false) → ∃ n, s.Answered below n (.flag true)

/-- What is handed back when a slot is detached is its listener. -/
theorem listener?_of_detached {chain : Chain Fn} (h : (chain.detach x).1 = some f) :
    chain.listener? x = some f := by
  unfold Chain.detach at h
  unfold Chain.listener?
  cases hs : chain.slots.get? x with
  | none =>
    rw [hs] at h
    exact absurd h (by simp)
  | some slot =>
    rw [hs] at h
    dsimp only at h
    split at h
    · exact absurd h (by simp)
    · split at h
      · exact absurd h (by simp)
      · exact h

/-- The listeners that a removal has compared stay in their slots, and the running one is held by its
    event. -/
theorem kept_of_detached (hs : Reachable s) {found : Search} {under : List (Frame H)} {chain : Chain Fn}
    (hframes : s.frames = .searching found :: under) (hmode : s.mode = .reply (.flag true))
    (hc : s.heap.chains.get? found.chain = some chain) (hx : chain.contains found.candidate = true)
    (hsnapshot : found.snapshot = (s.heap.listing found.chain).reverse) {j : HandleId} {d : DispatchId}
    (hl : chain.listener? found.candidate = some f)
    (hj : s.heap.handles.get? j = some (.event ⟨d, f⟩)) {p : PayloadId}
    (hp : some p ∈ (chain.detach found.candidate).1.toList ++ found.snapshot.map Prod.snd) :
    s.step.Kept p := by
  let popped : State H := { s with frames := under }
  have hstep : s.step = popped.detachFound found := step_of_top hframes hmode
  rw [popped.detachFound_eq found hc hx] at hstep
  have hevent (hf : f = some p) : s.step.Kept p := by
    refine .event j d ?_
    rw [hstep, ← hf]
    exact hj
  have hchain : chain.Coherent := hs.coherent _ chain (by rw [Heap.get?_scene_chains, hc])
  have hchain' : s.step.heap.chains.get? found.chain = some (chain.detach found.candidate).2 := by
    rw [hstep]
    show (s.heap.chains.modify found.chain _).get? found.chain = _
    rw [Pool.get?_modify, if_pos rfl, hc]
    rfl
  rw [hsnapshot, Heap.listing_of_get? hc, List.map_reverse] at hp
  rcases List.mem_append.1 hp with hdetached | hcompared
  · refine hevent (Option.some.inj (hl.symm.trans ?_))
    exact listener?_of_detached (Option.mem_toList.1 hdetached)
  · obtain ⟨e, he, hlistener⟩ := List.mem_map.1 (List.mem_reverse.1 hcompared)
    have hbears := (Chain.listener?_of_mem_listing he).2
    rw [hlistener] at hbears
    by_cases hsame : e.1 = found.candidate
    · exact hevent (Option.some.inj (hl.symm.trans (hsame ▸ hbears)))
    · exact .slot _ _ e.1 hchain' ((Chain.listener?_detach_ne hchain _ hsame).trans hbears)

end State

/-! ## Runs -/

/-- The removal of a running listener that is being asked for: the chain, and the event. -/
def Request.selfRemoval? {T : Vocabulary} (h : Heap T) : Request T → Option (ChainId × Event)
  | .removeCurrent i j => (h.chainOf i).bind fun c => (h.eventOf j).map fun event => (c, event)
  | _ => none

theorem State.exists_asks_removeCurrent {c : ChainId} {e : Event}
    (h : (s.asking.bind fun q => q.1.selfRemoval? s.heap) = some (c, e)) :
    ∃ i j below, s.Asks (.removeCurrent i j) below ∧ s.heap.chainOf i = some c ∧
      s.heap.eventOf j = some e := by
  obtain ⟨⟨rq, below⟩, hasking, hrq⟩ := Option.bind_eq_some_iff.1 h
  cases rq with
  | removeCurrent i j =>
    obtain ⟨c', hi, hrq⟩ := Option.bind_eq_some_iff.1 hrq
    obtain ⟨event', hj, he⟩ := Option.map_eq_some_iff.1 hrq
    obtain ⟨rfl, rfl⟩ := Prod.mk.inj he
    exact ⟨i, j, below, State.asks_of_asking hasking, hi, hj⟩
  | _ => exact absurd hrq (by simp [Request.selfRemoval?])

/-- Listeners `b` and `a` are equal by their keys, and `c`, whose comparing runs code, is not.  `b` goes
    on to `a`, and `a` removes itself. -/
def Script.amongRivals : Script.Program Unit :=
  [ .define "a" (.keyed ⟨"a", [.removeCurrent none none], none⟩ ⟨.a, 1, none⟩ (.custom .loud)),
    .add "a" none (some .back),
    .define "b" (.keyed ⟨"b", [.next {} none false], none⟩ ⟨.a, 1, none⟩ (.custom .loud)),
    .add "b" none (some .front),
    .define "c" (.keyed ⟨"c", [], none⟩ ⟨.a, 2, some [.length .count none]⟩ (.custom .loud)),
    .add "c" none (some .back),
    .call ⟨.given (), .absent⟩ none false ]

/-- The listener that runs through slot `x` of `c` asks `n` steps later to be removed, while the slot is
    linked, and after `m` steps more the answer is `r`. -/
def State.SelfRemoves (s : State H) (c : ChainId) (x : SlotId) (n m : Nat)
    (r : Reply H.toVocabulary) : Prop :=
  ∃ d event i j below, s.mode.delivery? = some (⟨c, x, d⟩, event) ∧
    (s.after n).Asks (.removeCurrent i j) below ∧ (s.after n).heap.chainOf i = some c ∧
    (s.after n).heap.eventOf j = some event ∧ (s.after n).heap.scene.Linked c x ∧
    (s.after n).Answered below m r

/-- How high the stack is tells when the removal has been answered. -/
theorem State.selfRemoves_of_length {c : ChainId} {x : SlotId} {d : DispatchId} {e : Event}
    {n m : Nat} {r : Reply H.toVocabulary} (hruns : s.mode.delivery? = some (⟨c, x, d⟩, e))
    (hasks : ((s.after n).asking.bind fun q => q.1.selfRemoval? (s.after n).heap) = some (c, e))
    (hx : (s.after n).heap.scene.Linked c x) (hm : 0 < m)
    (hmode : ((s.after n).after m).mode = .reply r)
    (hlow : ((s.after n).after m).frames.length = (s.after n).frames.length)
    (hhigh : ∀ j < m, 0 < j → (s.after n).frames.length < ((s.after n).after j).frames.length) :
    s.SelfRemoves c x n m r := by
  obtain ⟨i, j, below, hasks, hi, hj⟩ := State.exists_asks_removeCurrent hasks
  exact ⟨d, e, i, j, below, hruns, hasks, hi, hj, hx,
    hasks.answered_of_length hm hmode hlow hhigh⟩

/-- Listener `a` stands before `b` and behind it, and removes itself. -/
def Script.twice : Script.Program Unit :=
  [ .define "a" (.closure ⟨"a", [.removeCurrent none none], none⟩ false),
    .add "a" none (some .back),
    .define "b" (.closure ⟨"b", [], none⟩ false),
    .add "b" none (some .back),
    .add "a" none (some .back),
    .call ⟨.given (), .absent⟩ none false,
    .call ⟨.given (), .absent⟩ none false ]

/-- Listener `a` removes itself, and to compare `b`, which stands behind it, runs a script. -/
def Script.comparedBy (script : Script.Program Unit) : Script.Program Unit :=
  [ .define "a" (.keyed ⟨"a", [.removeCurrent none none], none⟩ ⟨.a, 1, none⟩ (.custom .loud)),
    .add "a" none (some .back),
    .define "b" (.keyed ⟨"b", [], none⟩ ⟨.a, 2, some script⟩ (.custom .loud)),
    .add "b" none (some .back),
    .call ⟨.given (), .absent⟩ none false ]

end Relay
