/-
  Pins, dispatches and events keep the same books.

  Three things are counted apart from each other: the pins on a slot, the stored dispatches, and the
  events that somebody has in hand.  This file ties them together for every reachable state.  A
  dispatch is stored EXACTLY as long as one of its events is alive, whoever has that event, a frame
  that is still to be unwound or a handle that outlives the dispatch; and a slot has as many pins as
  stored dispatches stand on it.  So no pin is ever lost or given back twice, and a tombstone is
  there only as long as somebody stands on it.
-/
import Relay.Proofs.Remaining

namespace Relay

/-! ## Where the shares are -/

namespace Table

variable {κ α : Type} [DecidableEq κ]

/-- A total is positive because of one of its parts. -/
theorem total_pos_iff (t : Table κ α) (w : α → Nat) :
    0 < t.total w ↔ ∃ k a, t.get? k = some a ∧ 0 < w a := by
  constructor
  · intro hpos
    by_contra hnone
    have hzero : t.total w = 0 := t.total_eq_zero fun k a ha =>
      Nat.eq_zero_of_not_pos fun hw => hnone ⟨k, a, ha, hw⟩
    omega
  · rintro ⟨k, a, ha, hw⟩
    exact Nat.lt_of_lt_of_le hw (t.le_total w ha)

omit [DecidableEq κ] in
/-- Ones added up over the values that equal `a`: how often `a` is stored. -/
theorem total_eq_count [DecidableEq α] (t : Table κ α) (a : α) :
    (t.total fun b => if b = a then 1 else 0) = t.values.count a := by
  unfold total
  induction t.values with
  | nil => rfl
  | cons b rest ih => by_cases hb : b = a <;> simp [hb, ih, Nat.add_comm]

end Table

theorem weights_pos_iff (t : Thing) (refs : List Ref) :
    0 < weights t refs ↔ ∃ ref ∈ refs, 0 < ref.weight t := by
  induction refs with
  | nil => simp
  | cons ref rest ih =>
    rw [weights_cons, Nat.add_pos_iff_pos_or_pos, ih]
    simp

/-- A share in a dispatch is an event of it, or what is left of one that is being let go of. -/
theorem Ref.weight_dispatch_pos_iff (ref : Ref) (d : DispatchId) :
    0 < ref.weight (.dispatch d) ↔ ref = .dispatch d ∨ ∃ f, ref = .event ⟨d, f⟩ := by
  cases ref with
  | function f => cases f <;> simp [Ref.weight]
  | chain c => simp [Ref.weight]
  | dispatch d' => by_cases hd : d = d' <;> simp [Ref.weight, hd, eq_comm]
  | event e =>
    obtain ⟨d', f⟩ := e
    by_cases hd : d = d' <;> cases f <;> simp [Ref.weight, hd, eq_comm]
  | handle i => simp [Ref.weight]

namespace State

variable {H : Host}

/-- All shares that the program has by its handles, and that the calls in progress have. -/
def shares (s : State H) : List Ref :=
  s.heap.handles.stored.values ++ (s.mode.held ++ s.frames.flatMap Frame.held)

/-- An event of dispatch `d` is alive, in whosever hands. -/
def HasEvent (s : State H) (d : DispatchId) : Prop :=
  ∃ ref ∈ s.shares, ref = .dispatch d ∨ ∃ f, ref = .event ⟨d, f⟩

/-- What stored things own, the handles apart, and all other shares make up the count. -/
theorem Balanced.count_eq {s : State H} (h : s.Balanced) (t : Thing) :
    s.heap.count t =
      s.heap.payloads.total (fun load => weights t load.body.keeps) +
      s.heap.chains.total
        (fun chain => chain.load fun listener => Ref.weight t (.function listener)) +
      s.heap.dispatches.total (fun d => Ref.weight t (.chain d.chain)) + weights t s.shares := by
  have hcount : s.heap.count t =
      s.heap.owned t + weights t (s.mode.held ++ s.frames.flatMap Frame.held) := h t
  have hhandles : s.heap.handles.total (Ref.weight t) = weights t s.heap.handles.stored.values :=
    rfl
  rw [hcount, Heap.owned, hhandles, shares, weights_append t s.heap.handles.stored.values]
  omega

/-- Nothing that is stored owns a dispatch, so its owners are its events. -/
theorem Balanced.count_dispatch {s : State H} (h : s.Balanced) (d : DispatchId) :
    s.heap.dispatches.count d = weights (.dispatch d) s.shares := by
  have hkeeps : (s.heap.payloads.total fun load => weights (.dispatch d) load.body.keeps) = 0 := by
    refine s.heap.payloads.stored.total_eq_zero fun p load _ => ?_
    obtain ⟨body, rule⟩ := load
    cases body with
    | native n keeps => exact weights_handles _ _
    | simple inner => cases inner <;> rfl
    | chain c => rfl
  have hchains : (s.heap.chains.total fun chain =>
      chain.load fun listener => Ref.weight (.dispatch d) (.function listener)) = 0 := by
    refine s.heap.chains.stored.total_eq_zero fun c chain _ => ?_
    refine chain.slots.total_eq_zero fun x slot _ => ?_
    cases slot.listener <;> rfl
  have hhomes :
      (s.heap.dispatches.total fun e => Ref.weight (.dispatch d) (.chain e.chain)) = 0 :=
    s.heap.dispatches.stored.total_eq_zero fun _ _ _ => rfl
  have hcount := h.count_eq (.dispatch d)
  rw [hkeeps, hchains, hhomes] at hcount
  exact hcount.trans (by omega)

end State

/-! ## The books -/

namespace Heap

variable {T : Vocabulary}

/-- How many live dispatches stand on slot `x` of the chain numbered `c`. -/
def standing (h : Heap T) (c : ChainId) (x : SlotId) : Nat :=
  h.dispatches.stored.values.count ⟨c, some x⟩

theorem standing_eq_scene (h : Heap T) (c : ChainId) (x : SlotId) :
    h.scene.standing c x = h.standing c x :=
  h.dispatches.stored.total_eq_count ⟨c, some x⟩

end Heap

variable {H : Host}

/-- Pins, dispatches and events agree. -/
structure State.Accounted (s : State H) : Prop where
  /-- A dispatch lives as long as one of its events does. -/
  live : ∀ d, (∃ e, s.heap.dispatches.get? d = some e) ↔ s.HasEvent d
  /-- A live dispatch that is not past the end stands on a slot that is stored. -/
  present : ∀ d c x, s.heap.dispatches.get? d = some ⟨c, some x⟩ →
    ∃ chain, s.heap.chains.get? c = some chain ∧ chain.slots.contains x = true
  /-- The pins of a slot are the live dispatches that stand on it. -/
  counted : ∀ c chain x slot, s.heap.chains.get? c = some chain → chain.slots.get? x = some slot →
    slot.pins = s.heap.standing c x
  /-- A slot that is not linked is stored exactly if it has a pin. -/
  buried : ∀ c chain x, s.heap.chains.get? c = some chain → chain.contains x = false →
    (chain.slots.contains x = true ↔ 0 < s.heap.standing c x)
  /-- Without a live event, a chain stores its linked slots and nothing else. -/
  tidy : ∀ c chain, s.heap.chains.get? c = some chain →
    (∀ d e, s.heap.dispatches.get? d = some e → s.HasEvent d → e.chain ≠ c) →
      ∀ x, chain.slots.contains x = chain.contains x

/-- In every reachable state the books agree, however its events came to be where they are. -/
theorem pins_accounted {s : State H} (hs : Reachable s) : s.Accounted := by
  have hlive (d : DispatchId) :
      (∃ e, s.heap.dispatches.get? d = some e) ↔ s.HasEvent d := by
    rw [← Option.isSome_iff_exists, ← Pool.count_pos_iff, hs.balanced.count_dispatch,
      weights_pos_iff]
    exact exists_congr fun ref => and_congr_right fun _ => ref.weight_dispatch_pos_iff d
  have hpinned {c : ChainId} {chain : Chain Fn} (hc : s.heap.chains.get? c = some chain) :
      chain.Pinned (s.heap.standing c) :=
    (hs.accounted.pinned c chain (by rw [Heap.get?_scene_chains, hc])).of_eq
      (s.heap.standing_eq_scene c)
  have hburied {c : ChainId} {chain : Chain Fn} {x : SlotId}
      (hc : s.heap.chains.get? c = some chain) (hx : chain.contains x = false) :
      chain.slots.contains x = true ↔ 0 < s.heap.standing c x := by
    rw [Table.contains, Option.isSome_iff_exists]
    constructor
    · rintro ⟨slot, hslot⟩
      have hdead : slot.linked = false := by rwa [Chain.contains, hslot] at hx
      exact (hpinned hc).counted x slot hslot ▸ (hpinned hc).buried x slot hslot hdead
    · exact (hpinned hc).present x
  constructor
  case live => exact hlive
  case present =>
    intro d c x hd
    obtain ⟨chain, hc⟩ := hs.exists_chain hd
    have hscene : s.heap.scene.dispatches.get? d = some ⟨c, some x⟩ := by
      rw [Heap.get?_scene_dispatches, hd]
    obtain ⟨slot, hslot, -⟩ := hs.accounted.exists_slot hscene (by rw [Heap.get?_scene_chains, hc])
    exact ⟨chain, hc, by rw [Table.contains, hslot]; rfl⟩
  case counted => exact fun c chain x slot hc hslot => (hpinned hc).counted x slot hslot
  case buried => exact fun c chain x hc hx => hburied hc hx
  case tidy =>
    intro c chain hc hnone x
    cases hx : chain.contains x with
    | true =>
      have hlinks := (hs.coherent c chain (by rw [Heap.get?_scene_chains, hc])).links
      exact hlinks.stored ((hlinks.linked x).1 hx)
    | false =>
      rw [← Bool.not_eq_true, hburied hc hx, Heap.standing, List.count_pos_iff]
      -- whoever stands there would be a dispatch of this chain with a live event
      intro hstands
      obtain ⟨entry, hentry, hvalue⟩ := List.mem_map.1 hstands
      have hd : s.heap.dispatches.get? entry.1 = some ⟨c, some x⟩ := by
        rw [← Pool.get?_stored, Table.get?_eq_some_iff, ← hvalue]
        exact hentry
      exact hnone entry.1 _ hd ((hlive entry.1).1 ⟨_, hd⟩) rfl

/-- A removed slot that is stored for the one dispatch that stands on it. -/
theorem pins_accounted_tombstone :
    ((Script.start Script.lateRemoval).after 35).Accounted ∧
      ((Script.start Script.lateRemoval).after 35).heap.standing 0 1 = 1 ∧
      (((Script.start Script.lateRemoval).after 35).heap.chains.get? 0).map
        (fun chain => (chain.contains 1, chain.slots.contains 1)) = some (false, true) :=
  ⟨pins_accounted ((Script.reachable_start Script.lateRemoval).after 35), by decide +kernel,
    by decide +kernel⟩

end Relay
