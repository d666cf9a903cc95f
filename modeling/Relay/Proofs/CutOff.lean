/-
  To be cut off is FINAL.

  Clearing a chain leaves of a slot that somebody stands on only a STUMP: its listener and its pins,
  with no way forward.  No deed ever gives a stump a way forward again, whatever is added, removed or
  cleared afterwards, so a dispatch that stands on one has nothing before it for good.  The same is
  so of a dispatch that has once run past the end.  A `next` of such a dispatch chooses no listener
  and gives nothing (`Nexts.gives_nothing`), and the stumps go with the last dispatch that
  stands on them.
-/
import Relay.Proofs.PlainList
import Relay.Proofs.Settling
import Relay.Proofs.Removal

namespace Relay

/-! ## Stumps -/

/-- What clearing a chain leaves of a slot that is pinned. -/
def Slot.stump {L : Type} (listener : L) (pins : Nat) : Slot L :=
  { listener, before := none, after := none, linked := false, pins }

namespace Chain

variable {L : Type} {c : Chain L} {ids : List SlotId} {x : SlotId} {l : L}

/-- If slot `x` is stored at all, it is a stump. -/
structure Stump (c : Chain L) (x : SlotId) (l : L) : Prop where
  old : x < c.nextId
  cut : ∀ t, c.slots.get? x = some t → t = .stump l t.pins

namespace Stump

theorem contains (h : c.Stump x l) : c.contains x = false := by
  rw [Chain.contains]
  cases hs : c.slots.get? x with
  | none => rfl
  | some t =>
    rw [h.cut t hs]
    rfl

theorem following (h : c.Stump x l) : c.following x = none := by
  rw [Chain.following]
  cases hs : c.slots.get? x with
  | none => rfl
  | some t =>
    rw [h.cut t hs]
    rfl

theorem not_mem (h : c.Stump x l) (hc : c.Links ids) : x ∉ ids := by
  rw [← hc.linked x, h.contains]
  exact Bool.false_ne_true

/-- A change that at most counts the pins anew leaves a stump a stump. -/
theorem congr {c' : Chain L} (h : c.Stump x l) (hn : c.nextId ≤ c'.nextId)
    (hx : ∀ t, c'.slots.get? x = some t → ∃ pins, c.slots.get? x = some { t with pins }) :
    c'.Stump x l where
  old := Nat.lt_of_lt_of_le h.old hn
  cut := by
    intro t ht
    obtain ⟨pins, hs⟩ := hx t ht
    have hcut := h.cut _ hs
    obtain ⟨listener, before, after, linked, pins'⟩ := t
    obtain ⟨rfl, rfl, rfl, rfl, -⟩ := Slot.mk.inj hcut
    rfl

/-- A new listener is put beside linked slots only. -/
theorem add (h : c.Stump x l) (hc : c.Links ids) (listener : L) (placement : Placement) :
    (c.add listener placement).Stump x l := by
  have hout := h.not_mem hc
  have hnew : ¬c.nextId = x := Nat.ne_of_gt h.old
  refine h.congr (by rw [nextId_add]; exact Nat.le_succ _) fun t ht => ⟨t.pins, ?_⟩
  cases placement with
  | front =>
    have hfirst : ¬c.first = some x := fun he => hout (List.mem_of_head? (hc.first ▸ he))
    change (c.prepend listener).slots.get? x = some t at ht
    rw [get?_prepend] at ht
    simpa only [if_neg hnew, if_neg hfirst] using ht
  | back =>
    have hlast : ¬c.last = some x := fun he => hout (List.mem_of_getLast? (hc.last ▸ he))
    change (c.append listener).slots.get? x = some t at ht
    rw [get?_append] at ht
    simpa only [if_neg hnew, if_neg hlast] using ht

/-- What has no way forward is not led past a slot that goes. -/
theorem detach (h : c.Stump x l) (hc : c.Links ids) (id : SlotId) : (c.detach id).2.Stump x l := by
  by_cases hid : id ∈ ids
  · obtain ⟨slot, hs, -⟩ := hc.exists_slot hid
    have hne : x ≠ id := fun he => h.not_mem hc (he ▸ hid)
    refine h.congr (Nat.le_of_eq (Links.nextId_detach c id).symm) fun t ht => ⟨t.pins, ?_⟩
    rw [hc.get?_detach_ne hid hs hne] at ht
    obtain ⟨old, hold, rfl⟩ := Option.map_eq_some_iff.1 ht
    rw [hold, h.cut old hold]
    rfl
  · rw [hc.detach_of_not_mem hid]
    exact h

theorem pin (h : c.Stump x l) (id : SlotId) : (c.pin id).Stump x l := by
  refine h.congr (Nat.le_refl _) fun t ht => ?_
  rw [get?_pin] at ht
  split at ht
  · obtain ⟨old, hold, rfl⟩ := Option.map_eq_some_iff.1 ht
    exact ⟨old.pins, hold⟩
  · exact ⟨t.pins, ht⟩

theorem unpin (h : c.Stump x l) (id : SlotId) : (c.unpin id).2.Stump x l := by
  refine h.congr (Nat.le_of_eq (c.ends_unpin id).2.2.2.symm) fun t ht => ?_
  rw [get?_unpin] at ht
  split at ht
  · obtain ⟨old, hold, hkept⟩ := Option.bind_eq_some_iff.1 ht
    split at hkept
    · exact absurd hkept (by simp)
    · obtain rfl := Option.some.inj hkept
      exact ⟨old.pins, hold⟩
  · exact ⟨t.pins, ht⟩

end Stump

/-- Of every slot, clearing leaves a stump or nothing. -/
theorem stump_clear {shuffle : Shuffle} (hx : x < c.nextId) (hl : ∀ t, c.slots.get? x = some t → t.listener = l) :
    (c.clear shuffle).2.Stump x l where
  old := hx
  cut := by
    intro t ht
    obtain ⟨slot, hs, -, rfl⟩ := get?_clear_eq_some c ht
    rw [Slot.stump, ← hl slot hs]

theorem Stump.lasting (x : SlotId) (l : L) : Lasting fun c => c.Stump x l where
  add := fun _ listener placement hc h => h.add hc.links listener placement
  detach := fun _ id hc h => h.detach hc.links id
  clear := fun _ _ _ h => stump_clear h.old fun t ht => by rw [h.cut t ht]; rfl
  pin := fun _ id h => h.pin id
  unpin := fun _ id h => h.unpin id

/-- The slots that clearing a chain frees at once. -/
def idle (c : Chain L) : List (Slot L) :=
  c.slots.values.filter fun slot => slot.linked && slot.pins == 0

/-- The listeners that are handed back are those of the linked slots that nobody stands on; a
    tombstone is never among them, for somebody stands on it. -/
theorem Pinned.clear_handed {stand : SlotId → Nat} (h : c.Pinned stand) (shuffle : Shuffle) :
    (c.clear shuffle).1.Perm (c.idle.map (·.listener)) := by
  refine (c.clear_fst_perm shuffle).trans (.of_eq ?_)
  rw [idle, Table.values, List.filter_map, List.map_map]
  refine congrArg _ (List.filter_congr fun e he => ?_)
  have hs : c.slots.get? e.1 = some e.2 := (Table.get?_eq_some_iff _ _ _).2 he
  cases hlinked : e.2.linked with
  | true => simp [hlinked]
  | false => simpa [hlinked] using Nat.ne_of_gt (h.buried e.1 e.2 hs hlinked)

end Chain

namespace Scene

/-- If slot `x` of the chain numbered `c` is stored at all, it is a stump, and it has been there. -/
def Stump (v : Scene) (c : ChainId) (x : SlotId) (l : Fn) : Prop :=
  v.Upholds c fun chain => chain.Stump x l

/-- Nothing is left to dispatch `d`, and nothing will be: it is past the end or gone, or it stands on
    a stump. -/
structure Over (v : Scene) (d : DispatchId) : Prop where
  used : d < v.nextDispatch
  cut : ∀ c x, v.dispatches.get? d = some ⟨c, some x⟩ → ∃ l, v.Stump c x l

end Scene

/-! ## Nothing brings a stump back -/

/-- NO deed gives a stump a way forward again. -/
theorem Change.stump {deed : Deed} {v w : Scene} (h : Change deed v w) (hv : v.Coherent)
    {c : ChainId} {x : SlotId} {l : Fn} (hx : v.Stump c x l) : w.Stump c x l :=
  h.upholds hv (Chain.Stump.lasting x l) hx

/-- The `next` of a dispatch to which nothing is left chooses no slot and leads nowhere. -/
theorem Change.over_next {deed : Deed} {v w : Scene} (h : Change deed v w) {d : DispatchId}
    (hd : v.Over d) (hnext : deed.next? = some d) :
    deed.entry? = none ∧ ∀ c x, w.dispatches.get? d = some ⟨c, some x⟩ →
      v.dispatches.get? d = some ⟨c, some x⟩ ∧ v.chains.get? c = none := by
  cases h with
  | @moved _ d' c chain slot next hd' hc hfollow =>
    obtain rfl : d' = d := Option.some.inj hnext
    obtain ⟨l, hstump⟩ := hd.cut c slot hd'
    rw [(hstump.holds chain hc).following] at hfollow
    exact absurd hfollow (by simp)
  | @finished _ d' c chain slot hd' hc =>
    obtain rfl : d' = d := Option.some.inj hnext
    refine ⟨rfl, fun c' x hget => ?_⟩
    rw [Scene.get?_setDispatch_self hd'] at hget
    exact absurd hget (by simp)
  | stayed hnowhere =>
    obtain rfl := Option.some.inj hnext
    exact ⟨rfl, fun c x hget => ⟨hget, hnowhere c x hget⟩⟩
  | _ => exact absurd hnext (by simp [Deed.next?])

/-- What is over stays over. -/
theorem Change.over {deed : Deed} {v w : Scene} (h : Change deed v w) (hv : v.Coherent)
    {d : DispatchId} (hd : v.Over d) : w.Over d := by
  refine ⟨Nat.lt_of_lt_of_le hd.used h.nextDispatch_le, fun c x hget => ?_⟩
  -- wherever it stands now, it stood there before
  have hold : v.dispatches.get? d = some ⟨c, some x⟩ := by
    rcases h.dispatch_cases d with hsame | ⟨hnext, -⟩ | ⟨-, hnone⟩ | ⟨-, -, -, -, hnew, -⟩
    · exact hsame ▸ hget
    · exact ((h.over_next hd hnext).2 c x hget).1
    · exact absurd (hnone.symm.trans hget) (by simp)
    · exact absurd hd.used (hnew ▸ Nat.lt_irrefl _)
  obtain ⟨l, hstump⟩ := hd.cut c x hold
  exact ⟨l, h.stump hv hstump⟩

/-- Clearing a chain leaves nothing to any dispatch on it. -/
theorem Change.over_of_cleared {v w : Scene} {c : ChainId} (h : Change (.cleared c) v w)
    (hv : v.Coherent) (ha : v.Accounted) {d : DispatchId} {e : Dispatch}
    (hd : v.dispatches.get? d = some e) (hc : e.chain = c) : w.Over d := by
  cases h with
  | @cleared _ _ chain _ hchain =>
    refine ⟨ha.dispatch_lt d e hd, fun c' x hget => ?_⟩
    change v.dispatches.get? d = some ⟨c', some x⟩ at hget
    obtain rfl := Option.some.inj (hd.symm.trans hget)
    obtain rfl : c' = c := hc
    obtain ⟨slot, hs, -⟩ := ha.exists_slot hget hchain
    refine ⟨slot.listener, ha.chain_lt c' chain hchain, fun chain' hget' => ?_⟩
    rw [Scene.get?_setChain _ hchain, if_pos rfl] at hget'
    obtain rfl := Option.some.inj hget'
    refine Chain.stump_clear ((hv c' chain hchain).links.lt_nextId hs) fun t ht => ?_
    obtain rfl := Option.some.inj (hs.symm.trans ht)
    rfl

variable {H : Host} {s : State H}

namespace Reachable

theorem stump_after (hs : Reachable s) {c : ChainId} {x : SlotId} {l : Fn}
    (hx : s.heap.scene.Stump c x l) (n : Nat) : (s.after n).heap.scene.Stump c x l :=
  hs.upholds_after (Chain.Stump.lasting x l) hx n

theorem over_after (hs : Reachable s) {d : DispatchId} (hd : s.heap.scene.Over d) (n : Nat) :
    (s.after n).heap.scene.Over d := by
  induction n with
  | zero => exact hd
  | succ n ih =>
    obtain ⟨deed, hdoes⟩ := (s.after n).step_does
    exact hdoes.change.over (hs.after n).coherent ih

end Reachable

namespace State

/-! ## Calling `next` -/

/-- The coming step calls `next` of dispatch `d` for `below`: code of the program asks for it, or a
    simple listener goes on with the chain. -/
inductive Nexts (s : State H) (d : DispatchId) : List (Frame H) → Prop
  | asked {i : HandleId} {arg : H.Arg} {event : Event} {below : List (Frame H)}
      (hasks : s.Asks (.next i arg) below) (hevent : s.heap.eventOf i = some event)
      (hd : event.dispatch = d) : Nexts s d below
  | simple {event : Event} {arg : H.Arg} {r : Reply H.toVocabulary} {rest : List (Frame H)}
      (hmode : s.mode = .reply r) (hframes : s.frames = .afterSimple event arg :: rest)
      (hr : ∀ f, r ≠ .fault f) (hd : event.dispatch = d) :
      Nexts s d (.await [.event event] :: rest)

/-- There is no other way to call `next`. -/
theorem onward_eq_some_iff {d : DispatchId} : s.onward = some d ↔ ∃ below, s.Nexts d below := by
  constructor
  · intro h
    unfold onward at h
    split at h
    · rename_i r code owned rest hmode hframes
      split at h
      · rename_i rq code' hact
        cases rq with
        | next i arg =>
          obtain ⟨event, hevent, hd⟩ := Option.map_eq_some_iff.1 h
          exact ⟨_, .asked ⟨r, code, owned, rest, code', hmode, hframes, hact, rfl⟩ hevent hd⟩
        | _ => exact absurd h (by simp [Request.next?])
      · exact absurd h (by simp)
    · exact absurd h (by simp)
    · rename_i r event arg rest hr hmode hframes
      exact ⟨_, .simple hmode hframes hr
        (Option.some.inj h)⟩
    · exact absurd h (by simp)
  · rintro ⟨below, h⟩
    cases h with
    | asked hasks hevent hd =>
      obtain ⟨r, code, owned, rest, code', hmode, hframes, hact, -⟩ := hasks
      unfold onward
      rw [hmode, hframes]
      dsimp only
      rw [hact]
      exact Option.map_eq_some_iff.2 ⟨_, hevent, hd⟩
    | @simple event arg r rest hmode hframes hr hd =>
      unfold onward
      rw [hmode, hframes, ← hd]
      cases r with
      | fault f => exact absurd rfl (hr f)
      | _ => rfl

/-- Whoever calls it, what happens is that a dispatch moves on. -/
theorem Nexts.exists_advance {d : DispatchId} {below : List (Frame H)} (h : s.Nexts d below) :
    ∃ (t : State H) (event : Event) (arg : H.Arg) (held : List (List Ref)), event.dispatch = d ∧
      t.heap.scene = s.heap.scene ∧ t.frames = passers held ++ below ∧
        s.step = t.advance event arg := by
  cases h with
  | @asked i arg event _ hasks hevent hd =>
    obtain ⟨t, hheap, rfl, hstep⟩ := hasks.exists_step
    refine ⟨t.hold [i], event, arg, [[.handle i]], hd, ?_, rfl, ?_⟩
    · exact (t.heap.scene_retainAll _).trans (congrArg _ hheap)
    · rw [hstep]
      unfold ask
      dsimp only
      rw [hheap, hevent]
  | @simple event arg r rest hmode hframes hr hd =>
    refine ⟨({ s with frames := rest } : State H).push (.await [.event event]), event, arg, [], hd,
      rfl, rfl, ?_⟩
    rw [step_of_top hframes hmode]
    unfold hear
    cases r with
    | fault f => exact absurd rfl (hr f)
    | _ => rfl

/-- The `next` that the coming step calls for `below` gives nothing. -/
structure GivesNothing (s : State H) (below : List (Frame H)) : Prop where
  /-- No listener is started, and none waits to be. -/
  silent : s.step.mode.entry? = none ∧
    ∃ pushed, s.step.frames = pushed ++ s.waiting ∧ pushed.filterMap Frame.entry? = []
  /-- Whatever happens on the way, there is only one answer; the program hears something else only
      where a destructor has unwound, and then it hears its fault. -/
  answer : ∀ n r, s.Answered below n r → s.Arrives 1 n (.result none) r
  /-- And that answer comes, unless the tombstone that is left ends a callable with a destructor,
      or somebody before it does. -/
  returns : (∃ n, s.Answered below n (.result none)) ∨
    ∃ n p, (s.after n).dropping = some p ∧ (s.after n).destructor p ≠ none ∧
      ∀ k, 0 < k → k ≤ n → (s.after k).frames ≠ below

end State

/-- A dispatch to which nothing is left gives nothing. -/
theorem State.Nexts.gives_nothing {d : DispatchId} {below : List (Frame H)} (h : s.Nexts d below)
    (hd : s.heap.scene.Over d) : s.GivesNothing below := by
  obtain ⟨t, event, arg, held, hevent, hscene, hframes, hstep⟩ := h.exists_advance
  have hchain {c : ChainId} {chain : Chain Fn} (hc : t.heap.chains.get? c = some chain) :
      s.heap.scene.chains.get? c = some chain := by rw [← hscene, Heap.get?_scene_chains, hc]
  have hleaving {u : State H} (todo : List Ref)
      (hu : u.frames = .releasing todo (.result none) :: t.frames) (hmode : u.mode = .reply .done) :
      State.Promised (.result none) below u := by
    rw [hframes] at hu
    exact State.promised_of_leaving hu hmode
  -- whichever way the dispatch ends, the answer is on its way
  have hpromised : State.Promised (.result none) below (s.after 1) := by
    show State.Promised (.result none) below s.step
    have houtcome := t.advance_outcome event arg
    rw [← hstep] at houtcome
    generalize s.step = u at houtcome
    cases houtcome with
    | nowhere => exact State.promised_of_passers hframes rfl
    | past => exact hleaving [] rfl rfl
    | ended => exact hleaving _ rfl rfl
    | @moved c chain slot next l hget hc hnext =>
      have hget' : s.heap.scene.dispatches.get? d = some ⟨c, some slot⟩ := by
        rw [← hscene, Heap.get?_scene_dispatches, ← hevent, hget]
      obtain ⟨l', hstump⟩ := hd.cut c slot hget'
      rw [(hstump.holds chain (hchain hc)).following] at hnext
      exact absurd hnext (by simp)
  refine ⟨?_, fun n r hn => hpromised.arrives Nat.one_pos hn.pos hn, hpromised.settles.answered_or⟩
  obtain ⟨deed, hdoes⟩ := s.step_does
  have honward : s.onward = some d := State.onward_eq_some_iff.2 ⟨below, h⟩
  have hentry : deed.entry? = none := (hdoes.change.over_next hd (hdoes.next?.trans honward)).1
  obtain ⟨pushed, hpushed, hentries⟩ := hdoes.entries
  have hresumed : s.resumed = none := by
    cases h with
    | asked hasks =>
      obtain ⟨r, code, owned, rest, code', hmode, hframes, -⟩ := hasks
      unfold State.resumed
      rw [hmode, hframes]
    | simple hmode htop =>
      unfold State.resumed
      rw [hmode, htop]
  rw [hentry, hresumed] at hentries
  obtain ⟨hnone, hmode⟩ := List.append_eq_nil_iff.1 hentries
  exact ⟨by simpa using hmode, pushed, hpushed, hnone⟩

/-! ## Clearing a chain -/

/-- What the step does in which a chain is cleared. -/
theorem Reachable.step_of_asks_clear (hs : Reachable s) {i : HandleId} {below : List (Frame H)}
    (hasks : s.Asks (.clear i) below) {c : ChainId} (hi : s.heap.chainOf i = some c) :
    ∃ chain, s.heap.chains.get? c = some chain ∧
      s.step.heap.scene = s.heap.scene.setChain c (chain.clear (H.shuffle c)).2 ∧
      s.step.frames = .releasing ((chain.clear (H.shuffle c)).1.map .function) .done ::
        .await [.handle i] :: below ∧
      s.step.journal.head? = some (.cleared c (chain.clear (H.shuffle c)).1.length) := by
  obtain ⟨chain, hc⟩ := hs.grounded i c hi
  obtain ⟨t, hheap, rfl, hstep⟩ := hasks.exists_step
  have hheld : (t.hold [i]).heap.scene = s.heap.scene :=
    (t.heap.scene_retainAll _).trans (congrArg _ hheap)
  have hheld' : (t.hold [i]).heap.chains.get? c = some chain := by
    rw [← Heap.get?_scene_chains, hheld, Heap.get?_scene_chains, hc]
  have hcleared : s.step = ({ t.hold [i] with
      heap := { (t.hold [i]).heap with
        chains := (t.hold [i]).heap.chains.modify c fun _ => (chain.clear (H.shuffle c)).2 } }.report
          (.cleared c (chain.clear (H.shuffle c)).1.length)).release
            ((chain.clear (H.shuffle c)).1.map .function) .done := by
    rw [hstep]
    unfold State.ask
    dsimp only
    rw [hheap, hi]
    dsimp only
    rw [hc]
    rfl
  refine ⟨chain, hc, ?_, ?_, ?_⟩
  · rw [hcleared, ← hheld]
    exact (t.hold [i]).heap.scene_modifyChain c (fun _ => (chain.clear (H.shuffle c)).2) hheld'
  · rw [hcleared]
    rfl
  · rw [hcleared]
    rfl

/-- What is left of a slot of a chain that is being cleared: a stump, for as long as a dispatch
    stands on it. -/
theorem Reachable.get?_after_clear (hs : Reachable s) {i : HandleId} {below : List (Frame H)}
    (hasks : s.Asks (.clear i) below) {c : ChainId} (hi : s.heap.chainOf i = some c)
    {chain : Chain Fn} (hc : s.heap.chains.get? c = some chain) {x : SlotId} {slot : Slot Fn}
    (hx : chain.slots.get? x = some slot) {n : Nat} (hn : 0 < n) {chain' : Chain Fn}
    (hc' : (s.after n).heap.chains.get? c = some chain') :
    chain'.slots.get? x =
      if (s.after n).heap.standing c x = 0 then none
      else some (.stump slot.listener ((s.after n).heap.standing c x)) := by
  obtain ⟨old, hold, hscene, -⟩ := hs.step_of_asks_clear hasks hi
  obtain rfl := Option.some.inj (hc.symm.trans hold)
  have hget : s.heap.scene.chains.get? c = some chain := by rw [Heap.get?_scene_chains, hc]
  obtain ⟨n, rfl⟩ := Nat.exists_eq_add_of_lt hn
  rw [Nat.zero_add] at hc' ⊢
  -- right after the step it is a stump, and a stump it stays
  have hstump : s.step.heap.scene.Stump c x slot.listener := by
    rw [hscene]
    refine ⟨hs.accounted.chain_lt c chain hget, fun chain₁ hget₁ => ?_⟩
    rw [Scene.get?_setChain _ hget, if_pos rfl] at hget₁
    obtain rfl := Option.some.inj hget₁
    refine Chain.stump_clear ((hs.coherent c chain hget).links.lt_nextId hx) fun t ht => ?_
    obtain rfl := Option.some.inj (hx.symm.trans ht)
    rfl
  have hlater : (s.after (n + 1)).heap.scene.Stump c x slot.listener := by
    rw [Nat.add_comm, State.after_one_add]
    exact hs.step.stump_after hstump n
  have hscene' : (s.after (n + 1)).heap.scene.chains.get? c = some chain' := by
    rw [Heap.get?_scene_chains, hc']
  have hpinned := ((hs.after (n + 1)).accounted.pinned c chain' hscene').of_eq
    ((s.after (n + 1)).heap.standing_eq_scene c)
  have hcut := (hlater.holds chain' hscene').cut
  cases hslot : chain'.slots.get? x with
  | none =>
    have hzero : (s.after (n + 1)).heap.standing c x = 0 := by
      by_contra hne
      obtain ⟨t, ht⟩ := hpinned.present x (Nat.pos_of_ne_zero hne)
      exact absurd (hslot.symm.trans ht) (by simp)
    rw [if_pos hzero]
  | some t =>
    have hpins := hpinned.counted x t hslot
    have hdead : t.linked = false := by rw [hcut t hslot]; rfl
    have hpos := hpinned.buried x t hslot hdead
    rw [if_neg (by omega), ← hpins, ← hcut t hslot]

/-! ## All of it -/

/-- What it means to be cut off, in a state and in all runs that go on from it. -/
structure State.CutsOff (s : State H) : Prop where
  /-- Once a chain has been cleared, no event that was alive on it then gives anything any more. -/
  cleared : ∀ i below c, s.Asks (.clear i) below → s.heap.chainOf i = some c →
    ∀ d e, s.heap.dispatches.get? d = some e → e.chain = c →
      ∀ n below', 0 < n → (s.after n).Nexts d below' → (s.after n).GivesNothing below'
  /-- Nor does any event of a dispatch that has once run past the end. -/
  past : ∀ d c, s.heap.dispatches.get? d = some ⟨c, none⟩ →
    ∀ n below', (s.after n).Nexts d below' → (s.after n).GivesNothing below'
  /-- Clearing frees the listeners of the linked slots that nobody stands on, in whatever order, reports
      how many they are, and leaves an empty chain. -/
  freed : ∀ i below c, s.Asks (.clear i) below → s.heap.chainOf i = some c →
    ∃ (chain chain' : Chain Fn) (freed : List Fn), s.heap.chains.get? c = some chain ∧
      s.step.heap.chains.get? c = some chain' ∧ freed.Perm (chain.idle.map (·.listener)) ∧
      s.step.frames = .releasing (freed.map .function) .done :: .await [.handle i] :: below ∧
      s.step.journal.head? = some (.cleared c chain.idle.length) ∧
      chain'.size = 0 ∧ chain'.order = []
  /-- Every other slot is a tombstone without a way forward from then on, until nobody stands on it
      any more. -/
  stumps : ∀ i below c, s.Asks (.clear i) below → s.heap.chainOf i = some c →
    ∀ chain x slot, s.heap.chains.get? c = some chain → chain.slots.get? x = some slot →
      ∀ n chain', 0 < n → (s.after n).heap.chains.get? c = some chain' →
        chain'.slots.get? x =
          if (s.after n).heap.standing c x = 0 then none
          else some (.stump slot.listener ((s.after n).heap.standing c x))

/-- While `b` runs, it clears its own chain and adds `c` to it anew; then it goes on. -/
def Script.clearedUnderway : Script.Program Unit :=
  [ .define "a" (.closure ⟨"a", [.next {} none false], none⟩ false),
    .add "a" none (some .back),
    .define "b" (.closure ⟨"b",
      [.clear none, .add "c" none (some .back), .next {} none false], none⟩ false),
    .add "b" none (some .back),
    .define "c" (.closure ⟨"c", [.ret {}], none⟩ false),
    .add "c" none (some .back),
    .call ⟨.given (), .absent⟩ none false ]

end Relay
