/-
  Removal is final, but for ONE gap between choosing a slot and running its listener.

  No deed links an old slot again, and a dispatch that starts or moves on chooses only linked slots.
  But a `next` that leaves a tombstone behind lets go of it between choosing the new slot and
  running its listener.  The callable that ends there may have a destructor, and the destructor may
  remove the slot that was just chosen; the listener runs all the same.  `entered_after_removal_iff`
  says that this is the only way in which a listener is started through a removed slot: its frame
  must have been waiting when the slot was removed.
-/
import Relay.Proofs.Order

namespace Relay

variable {H : Host}

/-! ## Slots that a listener is run through -/

/-- Whether a place is slot `x` of chain `c`. -/
def Entry.At (e : Entry) (c : ChainId) (x : SlotId) : Prop := e.chain = c ∧ e.slot = x

instance (e : Entry) (c : ChainId) (x : SlotId) : Decidable (e.At c x) :=
  inferInstanceAs (Decidable (_ ∧ _))

instance (v : Scene) (c : ChainId) (x : SlotId) : Decidable (v.Linked c x) :=
  decidable_of_iff ((v.chains.get? c).any (·.contains x) = true) <| by
    rw [Scene.Linked, Option.any_eq_true]

namespace State

/-- A call or a `next` is starting a listener through slot `x` of chain `c`. -/
def Enters (s : State H) (c : ChainId) (x : SlotId) : Prop := ∃ e, s.mode.entry? = some e ∧ e.At c x

instance (s : State H) (c : ChainId) (x : SlotId) : Decidable (s.Enters c x) :=
  decidable_of_iff (s.mode.entry?.any (fun e => decide (e.At c x)) = true) <| by
    simp [Enters, Option.any_eq_true]

/-- A frame waits to run a listener through slot `x` of chain `c`. -/
def Awaits (f : Frame H) (c : ChainId) (x : SlotId) : Prop := ∃ e, f.entry? = some e ∧ e.At c x

/-- The frame `f`, with the calls in `below` around it, is on top and hears an answer that is no
    fault. -/
def Hears (s : State H) (f : Frame H) (below : List (Frame H)) : Prop :=
  s.frames = f :: below ∧ ∃ r, s.mode = .reply r ∧ ¬r.Unwound

end State

/-- Only linked slots are chosen. -/
theorem Change.entry_linked {deed : Deed} {v w : Scene} (h : Change deed v w) (hv : v.Coherent)
    {e : Entry} (he : deed.entry? = some e) : v.Linked e.chain e.slot := by
  cases h with
  | @started _ c chain slot hc hfirst =>
    obtain rfl := Option.some.inj he
    have hmem : slot ∈ chain.order := (hv c chain hc).first_mem hfirst
    exact ⟨chain, hc, ((hv c chain hc).visits slot).1 hmem⟩
  | @moved _ d c chain slot next hd hc hnext =>
    obtain rfl := Option.some.inj he
    have hmem : next ∈ chain.order := (hv c chain hc).links.following_mem hnext
    exact ⟨chain, hc, ((hv c chain hc).visits next).1 hmem⟩
  | _ => exact absurd he (by simp [Deed.entry?])

/-- A frame that waits to run a listener does so as soon as it hears an answer that is no fault. -/
theorem State.enters_of_hears {s : State H} {f : Frame H} {below : List (Frame H)} {c : ChainId}
    {x : SlotId} (hf : State.Awaits f c x) (hs : s.Hears f below) : s.step.Enters c x := by
  obtain ⟨heap, memory, journal, frames, mode⟩ := s
  obtain ⟨rfl, r, rfl, hcalm⟩ := hs
  obtain ⟨e, he, hat⟩ := hf
  cases f with
  | entering entry event arg =>
    obtain rfl := Option.some.inj he
    refine ⟨entry, ?_, hat⟩
    show (State.hear _ r (.entering entry event arg)).mode.entry? = _
    rw [State.hear_entering _ hcalm]
    rfl
  | _ => exact absurd he (by simp [Frame.entry?])

/-- What is resumed is the frame on top. -/
theorem State.hears_of_resumed {s : State H} {e : Entry} (he : s.resumed = some e) :
    ∃ f below, s.Hears f below ∧ f.entry? = some e := by
  obtain ⟨heap, memory, journal, frames, mode⟩ := s
  cases mode with
  | reply r =>
    unfold State.resumed at he
    dsimp only at he
    split at he
    · exact absurd he (by simp)
    · rename_i entry event arg below hcalm
      exact ⟨.entering entry event arg, below, ⟨rfl, r, rfl, fun ⟨f, hf⟩ => hcalm f hf⟩, he⟩
    · exact absurd he (by simp)
  | _ => exact absurd he (by simp [State.resumed])

/-! ## After a removal -/

/-- Slot `x` of `c` has been there, and is not linked any more. -/
def Scene.Spent (v : Scene) (c : ChainId) (x : SlotId) : Prop := v.Seen c x ∧ ¬v.Linked c x

theorem Change.spent {deed : Deed} {v w : Scene} (h : Change deed v w) (hv : v.Coherent)
    {c : ChainId} {x : SlotId} (hx : v.Spent c x) : w.Spent c x :=
  ⟨h.seen hv hx.1, fun hlinked => hx.2 (h.linked_of_seen hv hx.1 hlinked)⟩

theorem Reachable.seen_after {s : State H} (hs : Reachable s) {c : ChainId} {x : SlotId}
    (hx : s.heap.scene.Seen c x) (n : Nat) : (s.after n).heap.scene.Seen c x := by
  induction n with
  | zero => exact hx
  | succ n ih =>
    obtain ⟨deed, hdoes⟩ := State.step_does (s.after n)
    exact hdoes.change.seen (hs.after n).coherent ih

/-- Of the frames in `frames`, those above some suffix of `old` do not wait for slot `x` of `c`. -/
def Cleared (old frames : List (Frame H)) (c : ChainId) (x : SlotId) : Prop :=
  ∃ above below, frames = above ++ below ∧ below <:+ old ∧ ∀ f ∈ above, ¬State.Awaits f c x

theorem Cleared.tail {old frames : List (Frame H)} {c : ChainId} {x : SlotId}
    (h : Cleared old frames c x) :
    Cleared old frames.tail c x := by
  obtain ⟨above, below, rfl, hbelow, habove⟩ := h
  cases above with
  | nil =>
    have hshorter : below.tail <:+ old := (List.tail_suffix below).trans hbelow
    exact ⟨[], below.tail, rfl, hshorter, fun f hf => absurd hf (by simp)⟩
  | cons g above =>
    exact ⟨above, below, rfl, hbelow, fun f hf => habove f (List.mem_cons_of_mem g hf)⟩

/-- The calls that go on are all that were in progress, or all but the one on top. -/
theorem Cleared.waiting {old : List (Frame H)} {s : State H} {c : ChainId} {x : SlotId}
    (h : Cleared old s.frames c x) : Cleared old s.waiting c x := by
  unfold State.waiting
  split
  · exact h.tail
  · exact h

/-- One step starts no listener through a spent slot and leaves no new frame waiting for it, unless
    an old frame is resumed. -/
theorem Reachable.step_cleared {s : State H} (hs : Reachable s) {c : ChainId} {x : SlotId}
    (hx : s.heap.scene.Spent c x) {old : List (Frame H)} (hold : Cleared old s.frames c x) :
    (∃ above f below, old = above ++ f :: below ∧ State.Awaits f c x ∧ s.Hears f below) ∨
      (Cleared old s.step.frames c x ∧ ¬s.step.Enters c x) := by
  obtain ⟨deed, hdoes⟩ := s.step_does
  obtain ⟨pushed, hpushed, hentries⟩ := hdoes.entries
  -- whatever waits or is entered after the step was chosen by its deed or resumed by it
  have hsource {e : Entry} (he : e ∈ pushed.filterMap Frame.entry? ++ s.step.mode.entry?.toList)
      (hat : e.At c x) : s.resumed = some e := by
    rw [hentries] at he
    rcases List.mem_append.1 he with hdeed | hresumed
    · have hlinked := hdoes.change.entry_linked hs.coherent (Option.mem_toList.1 hdeed)
      rw [hat.1, hat.2] at hlinked
      exact absurd hlinked hx.2
    · exact Option.mem_toList.1 hresumed
  by_cases hresumed : ∃ e, s.resumed = some e ∧ e.At c x
  · obtain ⟨e, he, hat⟩ := hresumed
    obtain ⟨f, rest, hhears, hentry⟩ := State.hears_of_resumed he
    have hawaits : State.Awaits f c x := ⟨e, hentry, hat⟩
    obtain ⟨above, below, hframes, hbelow, habove⟩ := hold
    have htop : f :: rest = above ++ below := hhears.1.symm.trans hframes
    cases above with
    | cons g above' =>
      obtain rfl : f = g := (List.cons.inj htop).1
      exact absurd hawaits (habove f List.mem_cons_self)
    | nil =>
      obtain ⟨pre, hpre⟩ := hbelow
      exact .inl ⟨pre, f, rest, by rw [← hpre, htop]; rfl, hawaits, hhears⟩
  · right
    have hnone {e : Entry} (he : e ∈ pushed.filterMap Frame.entry? ++ s.step.mode.entry?.toList) :
        ¬e.At c x := fun hat => hresumed ⟨e, hsource he hat, hat⟩
    refine ⟨?_, fun ⟨e, he, hat⟩ => hnone (List.mem_append_right _ (Option.mem_toList.2 he)) hat⟩
    obtain ⟨above, below, hwaiting, hbelow, habove⟩ := hold.waiting
    have hframes : s.step.frames = (pushed ++ above) ++ below := by
      rw [hpushed, hwaiting, List.append_assoc]
    refine ⟨pushed ++ above, below, hframes, hbelow, fun f hf => ?_⟩
    rcases List.mem_append.1 hf with hnew | hkept
    · rintro ⟨e, he, hat⟩
      exact hnone (List.mem_append_left _ (List.mem_filterMap.2 ⟨f, hnew, he⟩)) hat
    · exact habove f hkept

/-- A whole run starts no listener through a spent slot, unless an old frame is resumed. -/
theorem Reachable.after_cleared {s : State H} (hs : Reachable s) {c : ChainId} {x : SlotId}
    (hx : s.heap.scene.Spent c x) (n : Nat) :
    (∃ above f below, s.frames = above ++ f :: below ∧ State.Awaits f c x ∧
        ∃ m, (s.after m).Hears f below) ∨
      ((s.after n).heap.scene.Spent c x ∧ Cleared s.frames (s.after n).frames c x ∧
        (0 < n → ¬(s.after n).Enters c x)) := by
  induction n with
  | zero =>
    exact .inr ⟨hx, ⟨[], s.frames, rfl, List.suffix_rfl, fun f hf => absurd hf (by simp)⟩,
      fun hn => absurd hn (Nat.lt_irrefl 0)⟩
  | succ n ih =>
    rcases ih with hresumed | ⟨hspent, hcleared, -⟩
    · exact .inl hresumed
    · rcases (hs.after n).step_cleared hspent hcleared with
        ⟨above, f, below, hframes, hawaits, hhears⟩ | ⟨hstep, hno⟩
      · exact .inl ⟨above, f, below, hframes, hawaits, n, hhears⟩
      · obtain ⟨deed, hdoes⟩ := State.step_does (s.after n)
        exact .inr ⟨hdoes.change.spent (hs.after n).coherent hspent, hstep, fun _ => hno⟩

/-- Once a slot is unlinked, a listener is started through it afterwards EXACTLY if a frame was
    waiting to do so at that moment and hears an answer later that is no fault. -/
theorem entered_after_removal_iff {s : State H} (hs : Reachable s) {c : ChainId} {x : SlotId}
    (hlinked : s.heap.scene.Linked c x) {n : Nat} (hremoved : ¬(s.after n).heap.scene.Linked c x) :
    (∃ m, n < m ∧ (s.after m).Enters c x) ↔
      ∃ above f below, (s.after n).frames = above ++ f :: below ∧ State.Awaits f c x ∧
        ∃ m, n ≤ m ∧ (s.after m).Hears f below := by
  have hspent : (s.after n).heap.scene.Spent c x :=
    ⟨hs.seen_after (hlinked.seen hs.coherent hs.accounted) n, hremoved⟩
  constructor
  · rintro ⟨m, hm, henters⟩
    obtain ⟨k, rfl⟩ := Nat.exists_eq_add_of_lt hm
    rw [Nat.add_assoc, State.after_add] at henters
    rcases (hs.after n).after_cleared hspent (k + 1) with
      ⟨above, f, below, hframes, hawaits, m, hhears⟩ | ⟨-, -, hno⟩
    · rw [← State.after_add] at hhears
      exact ⟨above, f, below, hframes, hawaits, n + m, Nat.le_add_right n m, hhears⟩
    · exact absurd henters (hno (Nat.succ_pos k))
  · rintro ⟨above, f, below, -, hawaits, m, hm, hhears⟩
    exact ⟨m + 1, Nat.lt_succ_of_le hm, State.enters_of_hears hawaits hhears⟩

/-- Slot 2 is removed while a frame waits to run its listener, and the listener runs. -/
theorem entered_after_removal_lateRemoval :
    ∃ above f below,
      (((Script.start Script.lateRemoval).after 57).after 1).frames = above ++ f :: below ∧
      State.Awaits f 0 2 ∧
        ∃ m, 1 ≤ m ∧ (((Script.start Script.lateRemoval).after 57).after m).Hears f below := by
  have hs := (Script.reachable_start Script.lateRemoval).after 57
  have hlinked : ((Script.start Script.lateRemoval).after 57).heap.scene.Linked 0 2 := by
    decide +kernel
  have hremoved :
      ¬(((Script.start Script.lateRemoval).after 57).after 1).heap.scene.Linked 0 2 := by
    decide +kernel
  have henters : (((Script.start Script.lateRemoval).after 57).after 13).Enters 0 2 := by
    decide +kernel
  exact (entered_after_removal_iff hs hlinked hremoved).1 ⟨13, by decide, henters⟩

/-- So it is not so that removal is always final. -/
theorem removal_not_final :
    ¬∀ (H : Host) (s : State H), Reachable s → ∀ (c : ChainId) (x : SlotId) (n : Nat),
      s.heap.scene.Linked c x → ¬(s.after n).heap.scene.Linked c x →
        ∀ m, n < m → ¬(s.after m).Enters c x := by
  intro hfinal
  refine hfinal (Script.host Unit) ((Script.start Script.lateRemoval).after 57)
    ((Script.reachable_start Script.lateRemoval).after 57) 0 2 1 ?_ ?_ 13 (by decide) ?_
  · decide +kernel
  · decide +kernel
  · decide +kernel

end Relay
