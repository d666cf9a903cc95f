/-
  A dispatch takes the slots of its chain in order, each at most ONCE, and misses none that stays.

  While a dispatch is under way its chain may change in any manner, and any of its events may call
  `next`.  The invariant is `Underway`: the slots that were taken, followed by those that are left,
  are part of the timeline of the chain; and what was linked when the dispatch started and still is,
  has been taken or is left.  Additions extend the timeline, removals shorten what is left, and a
  `next` moves one slot from what is left to what was taken.
-/
import Relay.Proofs.Balance
import Relay.Proofs.Course

namespace Relay

/-! ## What is taken -/

/-- The slot that a dispatch stands on. -/
def Scene.cursor? (v : Scene) (d : DispatchId) : Option SlotId :=
  (v.dispatches.get? d).bind (·.cursor)

/-- The slots that the cursor of `d` is moved to between two scenes, by a `next` or otherwise. -/
def Scene.taken (v w : Scene) (called : Option DispatchId) (d : DispatchId) : List SlotId :=
  if called = some d ∨ w.cursor? d ≠ v.cursor? d then (w.cursor? d).toList else []

namespace State

variable {H : Host}

/-- The slots that the cursor of `d` is moved to by the first `n` steps. -/
def trail (s : State H) (d : DispatchId) : Nat → List SlotId
  | 0 => []
  | n + 1 =>
    s.trail d n ++ (s.after n).heap.scene.taken (s.after n).step.heap.scene (s.after n).onward d

end State

/-! ## Surgery and the timeline -/

/-- What is added, is added to the timeline. -/
theorem timeline_sublist (deed : Deed) (c : ChainId)
    (additions : List (ChainId × SlotId × Placement)) :
    (timeline c additions).Sublist (timeline c (deed.additions ++ additions)) := by
  cases deed with
  | added c' slot placement =>
    show (timeline c additions).Sublist
      (if c = c' then placement.place slot (timeline c additions) else timeline c additions)
    split
    · exact placement.sublist_place
    · exact List.Sublist.refl _
  | _ => exact List.Sublist.refl _

/-- What was taken and what is left stay part of the timeline. -/
theorem Deed.surgery_sublist (deed : Deed) {c : ChainId} {gone : Bool} {trail rest : List SlotId}
    {additions : List (ChainId × SlotId × Placement)}
    (h : (trail ++ rest).Sublist (timeline c additions)) :
    (trail ++ deed.surgery c gone rest).Sublist (timeline c (deed.additions ++ additions)) := by
  cases deed with
  | added c' slot placement =>
    cases placement with
    | front => exact h.trans (timeline_sublist (.added c' slot .front) c additions)
    | back =>
      rw [surgery]
      split
      · rename_i hback
        show (trail ++ (rest ++ [slot])).Sublist
          (if c = c' then Placement.back.place slot (timeline c additions) else timeline c additions)
        rw [if_pos hback.1, ← List.append_assoc]
        exact Placement.back.place_sublist h
      · exact h.trans (timeline_sublist (.added c' slot .back) c additions)
  | detached c' slot =>
    rw [surgery]
    split
    · exact (List.erase_sublist.append_left trail).trans h
    · exact h
  | cleared c' =>
    rw [surgery]
    split
    · exact ((List.nil_sublist rest).append_left trail).trans h
    · exact h
  | _ => exact h

/-- What was left and is still linked is still left. -/
theorem Deed.mem_surgery (deed : Deed) {c : ChainId} {gone : Bool} {rest order : List SlotId}
    {y : SlotId} (hy : y ∈ rest) (hlinked : y ∈ deed.reorder c order) (hn : order.Nodup) :
    y ∈ deed.surgery c gone rest := by
  cases deed with
  | added c' slot placement =>
    cases placement with
    | front => exact hy
    | back =>
      rw [surgery]
      split
      · exact List.mem_append_left _ hy
      · exact hy
  | detached c' slot =>
    rw [surgery]
    rw [reorder] at hlinked
    split
    · rename_i he
      rw [if_pos he] at hlinked
      exact (List.mem_erase_of_ne (hn.mem_erase_iff.1 hlinked).1).2 hy
    · exact hy
  | cleared c' =>
    rw [surgery]
    rw [reorder] at hlinked
    split
    · rename_i he
      rw [if_pos he] at hlinked
      exact absurd hlinked (by simp)
    · exact hy
  | _ => exact hy

/-! ## Under way -/

/-- What a dispatch on `c` has taken and what is left to it; `start` are the slots that were linked
    when it started. -/
structure Underway (v : Scene) (additions : List (ChainId × SlotId × Placement)) (d : DispatchId)
    (c : ChainId) (start : SlotId → Prop) (trail : List SlotId) : Prop where
  used : d < v.nextDispatch
  home : ∀ e, v.dispatches.get? d = some e → e.chain = c
  seen : ∀ y, start y → v.Seen c y
  taken : trail.Sublist (timeline c additions)
  ordered : ∀ x rest, v.Left d c x rest → (trail ++ rest).Sublist (timeline c additions)
  covered : ∀ x rest, v.Left d c x rest → ∀ y, start y → v.Linked c y → y ∈ trail ++ rest
  past : v.dispatches.get? d = some ⟨c, none⟩ → ∀ y, start y → v.Linked c y → y ∈ trail

theorem Scene.Left.unique {v : Scene} {d : DispatchId} {c : ChainId} {x x' : SlotId}
    {rest rest' : List SlotId}
    (h : v.Left d c x rest) (h' : v.Left d c x' rest') : x = x' ∧ rest = rest' := by
  obtain ⟨hd, chain, hc, rfl⟩ := h
  obtain ⟨hd', chain', hc', rfl⟩ := h'
  obtain rfl := Option.some.inj (hc.symm.trans hc')
  rw [hd] at hd'
  obtain rfl : x = x' := Option.some.inj (Dispatch.mk.inj (Option.some.inj hd')).2
  exact ⟨rfl, rfl⟩

theorem Scene.Left.cursor? {v : Scene} {d : DispatchId} {c : ChainId} {x : SlotId}
    {rest : List SlotId} (h : v.Left d c x rest) : v.cursor? d = some x := by
  rw [Scene.cursor?, h.1]
  rfl

/-- A cursor that is not called and does not move takes nothing. -/
theorem Scene.taken_of_same {v w : Scene} {called : Option DispatchId} {d : DispatchId}
    (hcalled : called ≠ some d) (hsame : w.cursor? d = v.cursor? d) : v.taken w called d = [] :=
  if_neg fun h => h.elim hcalled fun hne => hne hsame

/-- A dispatch that stands nowhere afterwards has taken nothing. -/
theorem Scene.taken_of_none {v w : Scene} (called : Option DispatchId) {d : DispatchId}
    (hnone : w.cursor? d = none) : v.taken w called d = [] := by
  rw [Scene.taken, hnone]
  split <;> rfl

namespace Underway

variable {v w : Scene} {additions : List (ChainId × SlotId × Placement)} {d : DispatchId}
  {c : ChainId} {start : SlotId → Prop} {trail : List SlotId} {deed : Deed}

/-- What a deed keeps of the invariant whatever becomes of the dispatch. -/
theorem keep (hu : Underway v additions d c start trail) (h : Change deed v w) (hv : v.Coherent)
    (hhome : ∀ e, w.dispatches.get? d = some e → e.chain = c)
    (taken : trail.Sublist (timeline c (deed.additions ++ additions)))
    (ordered : ∀ x rest, w.Left d c x rest →
      (trail ++ rest).Sublist (timeline c (deed.additions ++ additions)))
    (covered : ∀ x rest, w.Left d c x rest →
      ∀ y, start y → v.Linked c y → w.Linked c y → y ∈ trail ++ rest)
    (past : w.dispatches.get? d = some ⟨c, none⟩ → ∀ y, start y → v.Linked c y → y ∈ trail) :
    Underway w (deed.additions ++ additions) d c start trail where
  used := Nat.lt_of_lt_of_le hu.used h.nextDispatch_le
  home := hhome
  seen := fun y hy => h.seen hv (hu.seen y hy)
  taken := taken
  ordered := ordered
  covered := fun x rest hleft y hy hlinked =>
    covered x rest hleft y hy (h.linked_of_seen hv (hu.seen y hy) hlinked) hlinked
  past := fun hpast y hy hlinked => past hpast y hy (h.linked_of_seen hv (hu.seen y hy) hlinked)

/-- A dispatch that stands nowhere afterwards. -/
theorem halt (hu : Underway v additions d c start trail) (h : Change deed v w) (hv : v.Coherent)
    (hnowhere : w.dispatches.get? d = none ∨ w.dispatches.get? d = some ⟨c, none⟩ ∧
      ∀ y, start y → v.Linked c y → y ∈ trail) :
    Underway w (deed.additions ++ additions) d c start (trail ++ v.taken w deed.next? d) := by
  have hleft (x : SlotId) (rest : List SlotId) : ¬w.Left d c x rest := by
    rintro ⟨hd, -⟩
    rcases hnowhere with hnone | ⟨hpast, -⟩
    · rw [hnone] at hd
      exact absurd hd (by simp)
    · rw [hpast] at hd
      exact absurd hd (by simp)
  have hcursor : w.cursor? d = none := by
    rw [Scene.cursor?]
    rcases hnowhere with hnone | ⟨hpast, -⟩
    · rw [hnone]
      rfl
    · rw [hpast]
      rfl
  rw [Scene.taken_of_none _ hcursor, List.append_nil]
  apply hu.keep h hv
  case hhome =>
    intro e he
    rcases hnowhere with hnone | ⟨hpast, -⟩
    · rw [hnone] at he
      exact absurd he (by simp)
    · rw [hpast] at he
      obtain rfl := Option.some.inj he
      rfl
  case taken => exact hu.taken.trans (timeline_sublist deed c additions)
  case ordered => exact fun x rest hl => absurd hl (hleft x rest)
  case covered => exact fun x rest hl => absurd hl (hleft x rest)
  case past =>
    intro hpast
    rcases hnowhere with hnone | ⟨-, hcovered⟩
    · rw [hnone] at hpast
      exact absurd hpast (by simp)
    · exact hcovered

/-- A dispatch that moves from the slot it stands on to the first one that is left. -/
theorem advance (hu : Underway v additions d c start trail) (h : Change deed v w) (hv : v.Coherent)
    (hown : deed.next? = some d) {x y : SlotId} {rest : List SlotId}
    (hfrom : v.Left d c x (y :: rest)) (hto : w.Left d c y rest) :
    Underway w (deed.additions ++ additions) d c start (trail ++ v.taken w deed.next? d) := by
  have htaken : v.taken w deed.next? d = [y] := by
    rw [Scene.taken, if_pos (.inl hown), hto.cursor?]
    rfl
  have hline := (hu.ordered x (y :: rest) hfrom).trans (timeline_sublist deed c additions)
  have hsplit : trail ++ y :: rest = trail ++ [y] ++ rest := by rw [List.append_assoc]; rfl
  rw [htaken]
  rw [hsplit] at hline
  constructor
  case used => exact Nat.lt_of_lt_of_le hu.used h.nextDispatch_le
  case home =>
    intro e he
    rw [hto.1] at he
    obtain rfl := Option.some.inj he
    rfl
  case seen => exact fun z hz => h.seen hv (hu.seen z hz)
  case taken => exact (List.sublist_append_left _ rest).trans hline
  case ordered =>
    intro x' rest' hleft
    obtain ⟨-, rfl⟩ := hto.unique hleft
    exact hline
  case covered =>
    intro x' rest' hleft z hz hlinked
    obtain ⟨-, rfl⟩ := hto.unique hleft
    rw [← hsplit]
    exact hu.covered x (y :: rest) hfrom z hz (h.linked_of_seen hv (hu.seen z hz) hlinked)
  case past =>
    intro hpast
    rw [hto.1] at hpast
    exact absurd hpast (by simp)

/-- A dispatch that stays where it is while others work on its chain. -/
theorem wait (hu : Underway v additions d c start trail) (h : Change deed v w) (hv : v.Coherent)
    (hother : deed.next? ≠ some d) {x : SlotId} {chain : Chain Fn}
    (hd : v.dispatches.get? d = some ⟨c, some x⟩) (hc : v.chains.get? c = some chain) (gone : Bool)
    (hto : w.Left d c x (deed.surgery c gone (chain.rest x))) :
    Underway w (deed.additions ++ additions) d c start (trail ++ v.taken w deed.next? d) := by
  have hfrom : v.Left d c x (chain.rest x) := ⟨hd, chain, hc, rfl⟩
  rw [Scene.taken_of_same hother (hto.cursor?.trans hfrom.cursor?.symm), List.append_nil]
  apply hu.keep h hv
  case hhome =>
    intro e he
    rw [hto.1] at he
    obtain rfl := Option.some.inj he
    rfl
  case taken => exact hu.taken.trans (timeline_sublist deed c additions)
  case ordered =>
    intro x' rest hleft
    obtain ⟨-, rfl⟩ := hto.unique hleft
    exact deed.surgery_sublist (hu.ordered x _ hfrom)
  case covered =>
    intro x' rest hleft y hy hold hnew
    obtain ⟨-, rfl⟩ := hto.unique hleft
    rcases List.mem_append.1 (hu.covered x _ hfrom y hy hold) with htrail | hrest
    · exact List.mem_append_left _ htrail
    · -- a slot that is linked afterwards has not been cut out of what is left
      obtain ⟨chain', hc', hy'⟩ := hnew
      have hmem := (((h.coherent hv) c chain' hc').visits y).2 hy'
      rcases h.reorder hv hc' with ⟨rfl, -⟩ | ⟨chain₁, hc₁, horder, -⟩
      · exact absurd (hu.seen y hy).1 (Nat.lt_irrefl _)
      · obtain rfl := Option.some.inj (hc.symm.trans hc₁)
        exact List.mem_append_right _ (deed.mem_surgery hrest (horder ▸ hmem) (hv c chain hc).once)
  case past =>
    intro hpast
    rw [hto.1] at hpast
    exact absurd hpast (by simp)

/-- EVERY deed keeps the invariant, as long as the chain of the dispatch is there. -/
theorem step (hu : Underway v additions d c start trail) (h : Change deed v w) (hv : v.Coherent)
    (ha : v.Accounted)
    (hhome : ∀ e, v.dispatches.get? d = some e → ∃ chain, v.chains.get? e.chain = some chain)
    (hhome' : ∀ e, w.dispatches.get? d = some e → ∃ chain, w.chains.get? e.chain = some chain) :
    Underway w (deed.additions ++ additions) d c start (trail ++ v.taken w deed.next? d) := by
  have hcases := h.dispatch_cases d
  -- what becomes of a dispatch depends on whether it is there, and whether it stands on a slot
  cases hd : v.dispatches.get? d with
  | none =>
    -- a number that was used once is not used again
    refine hu.halt h hv (.inl ?_)
    rcases hcases with hsame | ⟨-, c', x, hstands⟩ | ⟨-, hnone⟩ | ⟨c', x, chain, -, hnew, -⟩
    · rw [hsame, hd]
    · rw [hd] at hstands
      exact absurd hstands (by simp)
    · exact hnone
    · exact absurd hu.used (hnew ▸ Nat.lt_irrefl _)
  | some e =>
    obtain ⟨c', cursor⟩ := e
    obtain rfl : c' = c := hu.home _ hd
    cases cursor with
    | none =>
      refine hu.halt h hv ?_
      rcases hcases with hsame | ⟨-, c'', x, hstands⟩ | ⟨-, hnone⟩ | ⟨c'', x, chain, -, hnew, -⟩
      · exact .inr ⟨by rw [hsame, hd], hu.past hd⟩
      · rw [hd] at hstands
        exact absurd hstands (by simp)
      · exact .inl hnone
      · exact absurd hu.used (hnew ▸ Nat.lt_irrefl _)
    | some x =>
      obtain ⟨chain, hc⟩ := hhome _ hd
      have hfrom : v.Left d c' x (chain.rest x) := ⟨hd, chain, hc, rfl⟩
      by_cases hown : deed.next? = some d
      · have hadvance := h.advance hv hd hc hown
        cases hrest : chain.rest x with
        | nil =>
          rw [hrest] at hadvance hfrom
          refine hu.halt h hv (.inr ⟨hadvance, fun y hy hlinked => ?_⟩)
          simpa using hu.covered x [] hfrom y hy hlinked
        | cons y rest =>
          rw [hrest] at hadvance hfrom
          exact hu.advance h hv hown hfrom hadvance
      · by_cases hclosed : deed = .closed d
        · subst hclosed
          exact hu.halt h hv (.inl h.closed_dispatch)
        · by_cases hdropped : deed = .dropped c'
          · -- the chain of a dispatch is not dropped before the dispatch is closed
            subst hdropped
            obtain ⟨hgone, hsame⟩ := h.dropped_chain
            obtain ⟨chain', hc'⟩ := hhome' _ (hsame ▸ hd)
            exact absurd (hgone.symm.trans hc') (by simp)
          · exact hu.wait h hv hown hd hc _ (h.course hv ha hd hc hown hclosed hdropped)

/-- A dispatch that has just started stands on the first slot, and all others are left to it. -/
theorem begin (h : Change deed v w) (hv : v.Coherent) (ha : v.Accounted) (hr : v.Recorded additions)
    {cursor : Option SlotId} (hnew : v.dispatches.get? d = none)
    (hstart : w.dispatches.get? d = some ⟨c, cursor⟩) :
    Underway w (deed.additions ++ additions) d c (w.Linked c) (v.taken w deed.next? d) := by
  have hw := h.coherent hv
  rcases h.dispatch_cases d with hsame | ⟨-, c', x, hstands⟩ | ⟨-, hnone⟩ |
    ⟨c', x, chain, -, hold, hnext, hd, hc, hfirst⟩
  · exact absurd (hstart.symm.trans (hsame.trans hnew)) (by simp)
  · exact absurd (hnew.symm.trans hstands) (by simp)
  · exact absurd (hstart.symm.trans hnone) (by simp)
  obtain ⟨rfl, rfl⟩ := Dispatch.mk.inj (Option.some.inj (hstart.symm.trans hd))
  have hleft : w.Left d c x (chain.rest x) := ⟨hd, chain, hc, rfl⟩
  -- a start is no `next`, but the cursor was nowhere before
  have htaken : v.taken w deed.next? d = [x] := by
    have hmoved : w.cursor? d ≠ v.cursor? d := by
      rw [hleft.cursor?, Scene.cursor?, hnew]
      simp
    rw [Scene.taken, if_pos (.inr hmoved), hleft.cursor?]
    rfl
  have horder : chain.order = x :: chain.rest x := (hw c chain hc).order_of_first hfirst
  have hline : (x :: chain.rest x).Sublist (timeline c (deed.additions ++ additions)) :=
    horder ▸ (h.recorded hv ha hr).order c chain hc
  rw [htaken]
  constructor
  case used => exact hnext ▸ Nat.lt_succ_self d
  case home =>
    intro e he
    rw [hd] at he
    obtain rfl := Option.some.inj he
    rfl
  case seen => exact fun y hy => hy.seen hw (h.accounted hv ha)
  case taken => exact (List.sublist_append_left [x] (chain.rest x)).trans hline
  case ordered =>
    intro x' rest hl
    obtain ⟨-, rfl⟩ := hleft.unique hl
    exact hline
  case covered =>
    intro x' rest hl y _ hlinked
    obtain ⟨-, rfl⟩ := hleft.unique hl
    obtain ⟨chain', hc', hy⟩ := hlinked
    obtain rfl := Option.some.inj (hc.symm.trans hc')
    show y ∈ x :: chain.rest x
    rw [← horder]
    exact ((hw c chain hc).visits y).2 hy
  case past =>
    intro hpast
    rw [hd] at hpast
    exact absurd hpast (by simp)

end Underway

/-! ## Runs -/

variable {H : Host} {s : State H}

/-- After any number of steps, a dispatch that the first step started is under way. -/
theorem Reachable.underway (hs : Reachable s) {d : DispatchId} {c : ChainId}
    {cursor : Option SlotId} (hnew : s.heap.dispatches.get? d = none)
    (hstart : s.step.heap.dispatches.get? d = some ⟨c, cursor⟩) (n : Nat) :
    Underway (s.after (n + 1)).heap.scene (s.after (n + 1)).additions d c
      (s.step.heap.scene.Linked c) (s.trail d (n + 1)) := by
  induction n with
  | zero =>
    obtain ⟨deed, hdoes⟩ := State.step_does s
    have hbegin := Underway.begin (d := d) hdoes.change hs.coherent hs.accounted hs.recorded
      (by rw [Heap.get?_scene_dispatches, hnew]) (by rw [Heap.get?_scene_dispatches, hstart])
    rw [hdoes.next?, ← hdoes.additions] at hbegin
    exact hbegin
  | succ n ih =>
    have ht := hs.after (n + 1)
    obtain ⟨deed, hdoes⟩ := State.step_does (s.after (n + 1))
    have hhome {t : State H} (ht : Reachable t) (e : Dispatch)
        (he : t.heap.scene.dispatches.get? d = some e) :
        ∃ chain, t.heap.scene.chains.get? e.chain = some chain := by
      rw [Heap.get?_scene_chains]
      exact ht.exists_chain (by rwa [Heap.get?_scene_dispatches] at he)
    have hstep := ih.step hdoes.change ht.coherent ht.accounted (hhome ht) (hhome ht.step)
    rw [hdoes.next?, ← hdoes.additions] at hstep
    exact hstep

/-- For every dispatch and every run, what its cursor is moved to comes ONCE and in the order of the
    chain's timeline; and when it is past the end, it has taken all slots that were linked when it
    started and still are. -/
theorem traversal_in_order (hs : Reachable s) {d : DispatchId} {c : ChainId}
    {cursor : Option SlotId} (hnew : s.heap.dispatches.get? d = none)
    (hstart : s.step.heap.dispatches.get? d = some ⟨c, cursor⟩) (n : Nat) :
    (s.trail d (n + 1)).Nodup ∧
    (s.trail d (n + 1)).Sublist ((s.after (n + 1)).timeline c) ∧
    ((s.after (n + 1)).timeline c).Nodup ∧
    (∀ chain, (s.after (n + 1)).heap.chains.get? c = some chain →
      chain.order.Sublist ((s.after (n + 1)).timeline c)) ∧
    ((s.after (n + 1)).heap.dispatches.get? d = some ⟨c, none⟩ → ∀ x, s.step.heap.scene.Linked c x →
      (s.after (n + 1)).heap.scene.Linked c x → (s.trail d (n + 1)).count x = 1) := by
  have hu := hs.underway hnew hstart n
  have hr := (hs.after (n + 1)).recorded
  have hnodup : (s.trail d (n + 1)).Nodup := (hr.nodup c).sublist hu.taken
  refine ⟨hnodup, hu.taken, hr.nodup c, fun chain hc => ?_, fun hpast x hx hlinked => ?_⟩
  · exact hr.order c chain (by rw [Heap.get?_scene_chains, hc])
  · have hmem := hu.past (by rw [Heap.get?_scene_dispatches, hpast]) x hx hlinked
    exact List.count_eq_one_of_mem hnodup hmem

/-- A dispatch that takes three slots, the second of which is removed on the way. -/
theorem traversal_in_order_lateRemoval :
    ((Script.start Script.lateRemoval).after 17).trail 0 53 = [0, 1, 2] ∧
      (((Script.start Script.lateRemoval).after 17).trail 0 53).Sublist
        ((((Script.start Script.lateRemoval).after 17).after 53).timeline 0) := by
  have hs := (Script.reachable_start Script.lateRemoval).after 17
  have hnew : ((Script.start Script.lateRemoval).after 17).heap.dispatches.get? 0 = none := by
    decide +kernel
  have hstart : ((Script.start Script.lateRemoval).after 17).step.heap.dispatches.get? 0 =
      some ⟨0, some 0⟩ := by decide +kernel
  exact ⟨by decide +kernel, (traversal_in_order hs hnew hstart 52).2.1⟩

end Relay
