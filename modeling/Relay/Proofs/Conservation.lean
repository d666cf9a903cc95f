/-
  Listeners are CONSERVED, however deep the calls are nested.

  Any number of removals may have the same slot in their snapshots, and comparisons and destructors
  may add to the chain, remove from it and clear it.  A slot is taken out once all the same, by one
  removal or by clearing the chain, and what is left in a chain is what was added less what was taken
  out (`State.Conserves`).  What is reported on the way adds up to the same: each report carries the
  length of the list right after its own change, so counting along the reports gives the numbers in
  them.
-/
import Relay.Proofs.Verdict

namespace Relay

variable {T : Vocabulary} {H : Host}

/-! ## Counting -/

/-- An edit that adds nothing keeps some entries and drops the others. -/
theorem Edit.exists_filter {e : Edit} {c : ChainId}
    (h : ∀ slot placement listener, e ≠ .added c slot placement listener)
    (list : List (SlotId × Fn)) : ∃ p : SlotId → Bool, e.on c list = list.filter fun x => p x.1 := by
  have hsame : ∃ p : SlotId → Bool, list = list.filter fun x => p x.1 :=
    ⟨fun _ => true, (List.filter_eq_self.2 fun _ _ => rfl).symm⟩
  cases e with
  | nothing => exact hsame
  | added c' slot placement listener =>
    rw [on]
    split
    · rename_i hc
      exact absurd (hc ▸ rfl) (h slot placement listener)
    · exact hsame
  | detached c' slot =>
    rw [on]
    split
    · exact ⟨fun x => decide (x ≠ slot), rfl⟩
    · exact hsame
  | cleared c' =>
    rw [on]
    split
    · exact ⟨fun _ => false, by simp⟩
    · exact hsame

/-- A chain is there, or its number has not been given out yet. -/
def Heap.Current (h : Heap T) (c : ChainId) : Prop :=
  h.chains.get? c ≠ none ∨ h.chains.nextId ≤ c

theorem Heap.Current.of_step {s : State H} (hs : Reachable s) {c : ChainId}
    (h : s.step.heap.Current c) : s.heap.Current c := by
  rcases Nat.lt_or_ge c s.heap.chains.nextId with hlt | hge
  · refine h.elim (fun hget => .inl (hs.exists_chain_of_step hlt hget)) fun hnew => ?_
    obtain ⟨deed, hdoes⟩ := s.step_does
    exact absurd (Nat.lt_of_lt_of_le hlt (Nat.le_trans hdoes.change.nextChain_le hnew))
      (Nat.lt_irrefl c)
  · exact .inr hge

namespace Reachable

variable {s : State H} {c : ChainId}

/-- To a chain that is not there nothing is added. -/
theorem not_adds (hs : Reachable s) (hc : s.heap.chains.get? c = none) : ¬s.Adds c := by
  rintro ⟨rq, below, hasks, hadds⟩
  have hchain : ∃ i, s.heap.chainOf i = some c := by
    cases rq with
    | add chain function placement => exact ⟨chain, hadds.1⟩
    | addSimple chain function placement => exact ⟨chain, hadds.1⟩
    | _ => exact hadds.elim
  obtain ⟨i, hi⟩ := hchain
  obtain ⟨chain, hget⟩ := hs.grounded i c hi
  exact absurd (hc.symm.trans hget) (by simp)

/-- A chain whose number has not been given out is not there, and was not before. -/
theorem absent_of_le (hc : s.step.heap.chains.nextId ≤ c) :
    s.step.heap.chains.get? c = none ∧ s.heap.chains.get? c = none := by
  obtain ⟨deed, hdoes⟩ := s.step_does
  exact ⟨Pool.get?_of_le _ hc, Pool.get?_of_le _ (Nat.le_trans hdoes.change.nextChain_le hc)⟩

/-- The list of a chain is edited as it was to be, from before the chain was opened. -/
theorem listing_step (hs : Reachable s) (hc : s.step.heap.Current c) :
    s.step.heap.listing c = s.edit.on c (s.heap.listing c) := by
  rcases hc with hthere | hnew
  · exact hs.passes.lists c hthere
  · obtain ⟨hnone, hnone'⟩ := absent_of_le hnew
    have hempty : s.step.heap.listing c = [] ∧ s.heap.listing c = [] := by
      rw [Heap.listing, Heap.listing, hnone, hnone']
      exact ⟨rfl, rfl⟩
    obtain ⟨p, hp⟩ := Edit.exists_filter (fun slot placement listener hedit =>
      hs.not_adds hnone' (State.adds_iff.2 ⟨slot, placement, listener, hedit⟩)) []
    rw [hempty.1, hempty.2, hp]
    rfl

/-- What is unlinked was in the list and is in it no more; unless the whole chain has gone. -/
theorem unlinks_iff (hs : Reachable s) (hc : s.step.heap.Current c) {x : SlotId} :
    s.Unlinks c x ↔
      x ∈ (s.heap.listing c).map (·.1) ∧ x ∉ (s.step.heap.listing c).map (·.1) := by
  rw [Heap.mem_listing_iff hs.coherent, Heap.mem_listing_iff hs.step.coherent]
  refine ⟨fun h => ⟨h.linked, h.gone⟩, fun ⟨hlinked, hgone⟩ => ⟨hlinked, ?_, hgone⟩⟩
  refine hc.elim id fun hnew => ?_
  obtain ⟨chain, hget, -⟩ := hlinked
  rw [Heap.get?_scene_chains, (absent_of_le hnew).2] at hget
  exact absurd hget (by simp)

/-- What happens to the number of listeners of a chain in one step: one may be added, and as many go
    as slots are taken out. -/
theorem step_count (hs : Reachable s) (hc : s.step.heap.Current c) :
    ∃ (added : Nat) (gone : List SlotId), (added = 1 ∧ s.Adds c ∨ added = 0 ∧ ¬s.Adds c) ∧
      gone.Nodup ∧ (∀ x, x ∈ gone ↔ s.Unlinks c x) ∧
      (s.step.heap.listing c).length + gone.length = (s.heap.listing c).length + added := by
  have hlists := hs.listing_step hc
  by_cases hadds : s.Adds c
  · obtain ⟨slot, placement, listener, hedit⟩ := State.adds_iff.1 hadds
    refine ⟨1, [], .inl ⟨rfl, hadds⟩, List.nodup_nil, fun x => ?_, ?_⟩
    · refine ⟨fun hx => absurd hx List.not_mem_nil, fun hx => ?_⟩
      rcases hx.edit hs with he | he <;> exact absurd (hedit.symm.trans he) (by simp)
    · rw [hlists, hedit, Edit.on, if_pos rfl, placement.length_place]
      rfl
  · obtain ⟨p, hp⟩ := Edit.exists_filter (fun slot placement listener hedit =>
      hadds (State.adds_iff.2 ⟨slot, placement, listener, hedit⟩)) (s.heap.listing c)
    rw [hp] at hlists
    let gone := (s.heap.listing c).filter fun e => !p e.1
    refine ⟨0, gone.map (·.1), .inr ⟨rfl, hadds⟩, ?_, fun x => ?_, ?_⟩
    · exact (hs.nodup_listing c).sublist (List.filter_sublist.map _)
    · rw [hs.unlinks_iff hc, hlists]
      simp only [gone, List.mem_map, List.mem_filter]
      constructor
      · rintro ⟨e, ⟨he, hdrop⟩, rfl⟩
        refine ⟨⟨e, he, rfl⟩, ?_⟩
        rintro ⟨e', ⟨-, hkeep⟩, hsame⟩
        rw [hsame] at hkeep
        simp [hkeep] at hdrop
      · rintro ⟨⟨e, he, rfl⟩, hgone⟩
        refine ⟨e, ⟨he, ?_⟩, rfl⟩
        by_contra hkeep
        exact hgone ⟨e, ⟨he, by simpa using hkeep⟩, rfl⟩
    · rw [hlists, List.length_map, Nat.add_zero]
      exact (List.length_eq_length_filter_add _).symm

end Reachable

namespace State

/-- After `n` steps chain `c` has `size` listeners: those that were added, less one for every removal
    that has taken something out, less the slots that clearings have taken out. -/
def Reckons (s : State H) (n : Nat) (c : ChainId) (size : Nat) : Prop :=
  ∃ added removals cleared : List Nat, added.Nodup ∧ removals.Nodup ∧ cleared.Nodup ∧
    (∀ k, k ∈ added ↔ k < n ∧ (s.after k).Adds c) ∧
    (∀ i, i ∈ removals ↔ ∃ k < n, ∃ x, s.TakesOut i k c x) ∧
    (∀ x, x ∈ cleared ↔ ∃ k < n, (s.after k).ClearsOut c x) ∧
    size + removals.length + cleared.length = added.length

/-- What holds in one of the first `n + 1` steps, holds in the last, or before. -/
theorem exists_lt_succ_iff {n : Nat} {P : Nat → Prop} :
    (∃ k < n + 1, P k) ↔ P n ∨ ∃ k < n, P k := by
  constructor
  · rintro ⟨k, hk, h⟩
    rcases Nat.lt_or_eq_of_le (Nat.le_of_lt_succ hk) with hlt | rfl
    · exact .inr ⟨k, hlt, h⟩
    · exact .inl h
  · rintro (h | ⟨k, hk, h⟩)
    · exact ⟨n, Nat.lt_succ_self n, h⟩
    · exact ⟨k, Nat.lt_succ_of_lt hk, h⟩

/-- The slots that a step takes out go to one account: that of the clearing, or of ONE removal. -/
theorem gone_cases {s : State H} (hs : Reachable s) {n : Nat} (hsought : s.Sought n) {c : ChainId}
    {gone : List SlotId} (hnodup : gone.Nodup) (hgone : ∀ x, x ∈ gone ↔ (s.after n).Unlinks c x) :
    ((∀ i x, ¬s.TakesOut i n c x) ∧ ∀ x, x ∈ gone ↔ (s.after n).ClearsOut c x) ∨
      (∃ i x, gone = [x] ∧ s.TakesOut i n c x) ∧ ∀ x, ¬(s.after n).ClearsOut c x := by
  by_cases htakes : ∃ i x, s.TakesOut i n c x
  · obtain ⟨i, x, htakes⟩ := htakes
    refine .inr ⟨⟨i, x, ?_, htakes⟩, fun x' => htakes.not_clearsOut⟩
    have hall : ∀ y ∈ gone, y = x := by
      intro y hy
      obtain ⟨⟨_, _, found, held, -, -, -, hframes⟩, hx⟩ := htakes
      obtain ⟨-, -, rfl⟩ := hx.of_searching (hs.after n) hframes
      exact (((hgone y).1 hy).of_searching (hs.after n) hframes).2.2.symm
    have hx : x ∈ gone := (hgone x).2 htakes.2
    cases gone with
    | nil => exact absurd hx List.not_mem_nil
    | cons y rest =>
      obtain rfl := hall y List.mem_cons_self
      cases rest with
      | nil => rfl
      | cons z rest =>
        obtain rfl := hall z (List.mem_cons_of_mem _ List.mem_cons_self)
        exact absurd List.mem_cons_self (List.nodup_cons.1 hnodup).1
  · refine .inl ⟨fun i x h => htakes ⟨i, x, h⟩, fun x => (hgone x).trans ⟨fun h => ?_, And.right⟩⟩
    rcases h.cause hs hsought with hclear | ⟨i, h⟩
    · exact hclear
    · exact absurd ⟨i, x, h⟩ htakes

/-- What lists the steps below `n` with `P` is carried on by one step. -/
theorem exists_steps_succ {P : Nat → Prop} {n more : Nat} {steps : List Nat} (hnodup : steps.Nodup)
    (hsteps : ∀ k, k ∈ steps ↔ k < n ∧ P k) (hmore : more = 1 ∧ P n ∨ more = 0 ∧ ¬P n) :
    ∃ steps' : List Nat, steps'.Nodup ∧ (∀ k, k ∈ steps' ↔ k < n + 1 ∧ P k) ∧
      steps'.length = steps.length + more := by
  have hold (k : Nat) (hk : k ≠ n) : k < n + 1 ↔ k < n := by omega
  rcases hmore with ⟨rfl, hP⟩ | ⟨rfl, hP⟩
  · refine ⟨n :: steps, List.nodup_cons.2 ⟨fun hn => ?_, hnodup⟩, fun k => ?_, rfl⟩
    · exact Nat.lt_irrefl n ((hsteps n).1 hn).1
    · by_cases hk : k = n
      · subst hk
        simp [hP]
      · simp [hk, hsteps, hold k hk]
  · refine ⟨steps, hnodup, fun k => ?_, rfl⟩
    by_cases hk : k = n
    · subst hk
      simp [hP, hsteps]
    · simp [hsteps, hold k hk]

/-- One step more. -/
theorem Reckons.succ {s : State H} (hs : Reachable s) {n : Nat} (hsought : s.Sought n) {c : ChainId}
    (hc : (s.after (n + 1)).heap.Current c)
    (h : s.Reckons n c ((s.after n).heap.listing c).length) :
    s.Reckons (n + 1) c ((s.after (n + 1)).heap.listing c).length := by
  obtain ⟨added, removals, cleared, hadded, hremovals, hcleared, hadds, htakes, hclears, hsum⟩ := h
  obtain ⟨more, gone, hmore, hnodup, hgone, hcount⟩ := (hs.after n).step_count hc
  rw [← after_succ] at hcount
  obtain ⟨added', hadded', hadds', hlength⟩ := exists_steps_succ hadded hadds hmore
  rcases gone_cases hs hsought hnodup hgone with ⟨hnone, hclear⟩ | ⟨⟨i, x, rfl, htake⟩, hnone⟩
  · refine ⟨added', removals, gone ++ cleared, hadded', hremovals, ?_, hadds', fun i => ?_,
      fun x => ?_, ?_⟩
    · refine List.nodup_append.2 ⟨hnodup, hcleared, fun x hx y hy hxy => ?_⟩
      obtain ⟨k, hk, hbefore⟩ := (hclears y).1 hy
      exact absurd (hs.unlinks_once hbefore.2 (hxy ▸ (hgone x).1 hx)) (Nat.ne_of_lt hk)
    · rw [htakes, exists_lt_succ_iff]
      exact ⟨.inr, fun h => h.elim (fun ⟨x, hx⟩ => absurd hx (hnone i x)) id⟩
    · rw [List.mem_append, hclear, hclears, exists_lt_succ_iff]
    · rw [List.length_append]
      omega
  · refine ⟨added', i :: removals, cleared, hadded', ?_, hcleared, hadds', fun i' => ?_,
      fun x' => ?_, ?_⟩
    · refine List.nodup_cons.2 ⟨fun hi => ?_, hremovals⟩
      obtain ⟨k, hk, x', hbefore⟩ := (htakes i).1 hi
      exact absurd (hbefore.unique hs htake).1 (Nat.ne_of_lt hk)
    · rw [List.mem_cons, htakes, exists_lt_succ_iff]
      refine or_congr ⟨fun he => ⟨x, he ▸ htake⟩, fun ⟨x', h⟩ => h.alone htake⟩ Iff.rfl
    · rw [hclears, exists_lt_succ_iff]
      exact ⟨.inr, fun h => h.elim (fun hx => absurd hx (hnone x')) id⟩
    · rw [List.length_cons]
      rw [List.length_singleton] at hcount
      omega

end State

/-! ## Replaying what was reported -/

/-- What one more report about chain `c` makes of a count. -/
def Booking.count (c : ChainId) (before : Int) : Booking → Int
  | .added c' _ _ => if c' = c then before + 1 else before
  | .removed c' _ _ => if c' = c then before - 1 else before
  | .cleared c' => if c' = c then 0 else before

/-- Counts along all that was booked about chain `c`, LATEST first. -/
def replay (c : ChainId) : List Booking → Int
  | [] => 0
  | b :: earlier => b.count c (replay c earlier)

/-- The number of listeners that is reported, and of which chain. -/
def Booking.listeners? : Booking → Option (ChainId × Nat)
  | .added c _ listeners => some (c, listeners)
  | .removed c _ listeners => some (c, listeners)
  | .cleared _ => none

namespace Reachable

variable {s : State H} {c : ChainId}

/-- The count goes with the list. -/
theorem replay_step (hs : Reachable s) (hc : s.step.heap.Current c)
    (h : replay c s.bookings = (s.heap.listing c).length) :
    replay c s.step.bookings = (s.step.heap.listing c).length := by
  rw [hs.step_bookings, hs.listing_step hc]
  cases s.edit with
  | nothing => exact h
  | added c' slot placement listener =>
    show (if c' = c then replay c s.bookings + 1 else replay c s.bookings) = _
    rw [h, Edit.on]
    split
    · rw [placement.length_place]
      rfl
    · rfl
  | detached c' slot =>
    rw [Edit.booking, Edit.on]
    by_cases hslot : slot ∈ (s.heap.listing c').map (·.1)
    · rw [if_pos hslot]
      show (if c' = c then replay c s.bookings - 1 else replay c s.bookings) = _
      rw [h]
      split
      · rename_i hc'
        subst hc'
        obtain ⟨e, he, rfl⟩ := List.mem_map.1 hslot
        obtain ⟨front, back, hsplit⟩ := List.append_of_mem he
        have hnodup := hs.nodup_listing c'
        rw [hsplit] at hnodup ⊢
        rw [State.filter_middle hnodup]
        simp only [List.length_append, List.length_cons]
        omega
      · rfl
    · rw [if_neg hslot]
      split
      · rename_i hc'
        subst hc'
        have hkept : ∀ e ∈ s.heap.listing c', decide (e.1 ≠ slot) = true := by
          refine fun e he => decide_eq_true fun heq => hslot ?_
          exact heq ▸ List.mem_map_of_mem he
        rw [List.filter_eq_self.2 hkept]
        exact h
      · exact h
  | cleared c' =>
    show (if c' = c then 0 else replay c s.bookings) = _
    rw [h, Edit.on]
    split <;> rfl

/-- What a step books gives the number that the count has come to. -/
theorem listeners_of_booking (hs : Reachable s)
    (h : ∀ c, s.heap.Current c → replay c s.bookings = (s.heap.listing c).length) {b : Booking}
    (hb : s.edit.booking s.heap = some b) {listeners : Nat}
    (hl : b.listeners? = some (c, listeners)) : replay c (b :: s.bookings) = listeners := by
  cases hedit : s.edit with
  | nothing =>
    rw [hedit] at hb
    exact absurd hb (by simp [Edit.booking])
  | added c' slot placement listener =>
    rw [hedit] at hb
    obtain rfl := Option.some.inj hb
    obtain ⟨rfl, rfl⟩ := Prod.mk.inj (Option.some.inj hl)
    have hthere : s.heap.chains.get? c' ≠ none := fun hnone =>
      hs.not_adds hnone (State.adds_iff.2 ⟨slot, placement, listener, hedit⟩)
    show (if c' = c' then replay c' s.bookings + 1 else replay c' s.bookings) = _
    rw [if_pos rfl, h c' (.inl hthere)]
    rfl
  | detached c' slot =>
    rw [hedit, Edit.booking] at hb
    split at hb
    · rename_i hslot
      obtain rfl := Option.some.inj hb
      obtain ⟨rfl, rfl⟩ := Prod.mk.inj (Option.some.inj hl)
      have hthere : s.heap.chains.get? c' ≠ none := by
        obtain ⟨chain, hget, -⟩ := (Heap.mem_listing_iff hs.coherent).1 hslot
        rw [Heap.get?_scene_chains] at hget
        rw [hget]
        exact Option.some_ne_none chain
      have hpos : 0 < (s.heap.listing c').length := by
        obtain ⟨e, he, -⟩ := List.mem_map.1 hslot
        exact List.length_pos_of_mem he
      show (if c' = c' then replay c' s.bookings - 1 else replay c' s.bookings) = _
      rw [if_pos rfl, h c' (.inl hthere)]
      omega
    · exact absurd hb (by simp)
  | cleared c' =>
    rw [hedit] at hb
    obtain rfl := Option.some.inj hb
    exact absurd hl (by simp [Booking.listeners?])

/-! Along a run that begins with empty lists. -/

variable {n : Nat}

theorem reckons_after (hs : Reachable s) (hempty : ∀ c, s.heap.listing c = [])
    (hsought : ∀ n, s.Sought n) (hc : (s.after n).heap.Current c) :
    s.Reckons n c ((s.after n).heap.listing c).length := by
  induction n with
  | zero =>
    show s.Reckons 0 c (s.heap.listing c).length
    rw [hempty c]
    exact ⟨[], [], [], List.nodup_nil, List.nodup_nil, List.nodup_nil, by simp, by simp, by simp, rfl⟩
  | succ n ih => exact (ih (hc.of_step (hs.after n))).succ hs (hsought n) hc

theorem replay_after (hs : Reachable s) (hempty : ∀ c, s.heap.listing c = [])
    (hnothing : s.bookings = []) (hc : (s.after n).heap.Current c) :
    replay c (s.after n).bookings = ((s.after n).heap.listing c).length := by
  induction n with
  | zero =>
    show replay c s.bookings = (s.heap.listing c).length
    rw [hempty c, hnothing]
    rfl
  | succ n ih => exact (hs.after n).replay_step hc (ih (hc.of_step (hs.after n)))

/-- Whatever has been booked gives the number that the count came to. -/
theorem replay_of_suffix (hs : Reachable s) (hempty : ∀ c, s.heap.listing c = [])
    (hnothing : s.bookings = []) {b : Booking} {earlier : List Booking}
    (hsuffix : b :: earlier <:+ (s.after n).bookings) {listeners : Nat}
    (hl : b.listeners? = some (c, listeners)) : replay c (b :: earlier) = listeners := by
  induction n with
  | zero =>
    rw [show (s.after 0).bookings = [] from hnothing] at hsuffix
    exact absurd (List.suffix_nil.1 hsuffix) (List.cons_ne_nil _ _)
  | succ n ih =>
    rw [State.after_succ, (hs.after n).step_bookings] at hsuffix
    cases hb : (s.after n).edit.booking (s.after n).heap with
    | none =>
      rw [hb] at hsuffix
      exact ih hsuffix
    | some b' =>
      rw [hb] at hsuffix
      rcases List.suffix_cons_iff.1 hsuffix with heq | hold
      · obtain ⟨rfl, rfl⟩ := List.cons.inj heq
        exact (hs.after n).listeners_of_booking
          (fun c hc => hs.replay_after hempty hnothing hc) hb hl
      · exact ih hold

end Reachable

/-! ## All of it -/

/-- What is conserved along a run. -/
structure State.Conserves (s : State H) : Prop where
  /-- No slot is taken out twice. -/
  once : ∀ j k c x, (s.after j).Unlinks c x → (s.after k).Unlinks c x → j = k
  /-- What takes a slot out is EITHER a clearing of its chain OR one removal. -/
  cause : ∀ k c x, (s.after k).Unlinks c x →
    ((s.after k).ClearsOut c x ∧ ∀ i, ¬s.TakesOut i k c x) ∨
      (¬(s.after k).ClearsOut c x ∧ ∃ i, s.TakesOut i k c x ∧ ∀ i', s.TakesOut i' k c x → i' = i)
  /-- A removal that says yes has taken out one slot by then, and never takes out another. -/
  yes : ∀ i c probe below n, (s.after i).Seeks c probe below →
    (s.after i).Answered below n (.flag true) →
      ∃ k x, k < i + n ∧ s.TakesOut i k c x ∧
        ∀ k' c' x', s.TakesOut i k' c' x' → k' = k ∧ c' = c ∧ x' = x
  /-- A removal that says anything else has taken out none. -/
  no : ∀ i c probe below n r, (s.after i).Seeks c probe below → (s.after i).Answered below n r →
    ¬r.Unwound → r ≠ .flag true → ∀ k c' x, ¬s.TakesOut i k c' x
  /-- Nor has one that is unwound, unless it was to say yes and a destructor has unwound since. -/
  unwound : ∀ i c probe below n r, (s.after i).Seeks c probe below →
    (s.after i).Answered below n r → r.Unwound →
      ∀ k c' x, s.TakesOut i k c' x → c' = c ∧ s.Arrives (k + 1) (i + n) (.flag true) r
  /-- The size of a chain is what was added less what was taken out. -/
  sizes : ∀ n c chain, (s.after n).heap.chains.get? c = some chain → s.Reckons n c chain.size
  /-- Counting along what was reported gives the number that each report of an addition or of a
      removal gives itself. -/
  replays : ∀ n b earlier c listeners, b :: earlier <:+ (s.after n).bookings →
    b.listeners? = some (c, listeners) → replay c (b :: earlier) = listeners

/-- At the beginning every list is empty. -/
theorem State.listing_begin (m : Nat) (code : H.Code) (memory : H.Memory) (c : ChainId) :
    (State.begin m code memory).heap.listing c = [] := by
  cases hc : (State.begin m code memory).heap.chains.get? c with
  | none =>
    rw [Heap.listing, hc]
    rfl
  | some chain =>
    obtain rfl := Heap.eq_empty_of_opened hc
    rw [Heap.listing_of_get? hc]
    rfl

/-- For every program, and whatever its comparisons and destructors do. -/
theorem listeners_conserved (m : Nat) (code : H.Code) (memory : H.Memory) :
    (State.begin m code memory).Conserves := by
  have hs : Reachable (State.begin m code memory) := .begin m code memory
  have hsought := State.sought_begin m code memory
  have hempty := State.listing_begin m code memory
  have hnothing : (State.begin m code memory).bookings = [] := rfl
  generalize State.begin m code memory = s at hs hsought hempty hnothing
  constructor
  case once => exact fun j k c x => hs.unlinks_once
  case cause =>
    intro k c x h
    rcases h.cause hs (hsought k) with hclears | ⟨i, htakes⟩
    · exact .inl ⟨hclears, fun i htakes => htakes.not_clearsOut hclears⟩
    · exact .inr ⟨htakes.not_clearsOut, i, htakes, fun i' h' => h'.alone htakes⟩
  case yes =>
    intro i c probe below n hseeks hanswer
    have hcalm : ¬(Reply.flag true : Reply H.toVocabulary).Unwound := by simp [Reply.Unwound]
    obtain ⟨k, hk, x, htakes⟩ := (hseeks.answered_iff hs hanswer hcalm).1 rfl
    refine ⟨k, x, hk, htakes, fun k' c' x' h' => ?_⟩
    obtain ⟨rfl, rfl, rfl⟩ := h'.unique hs htakes
    exact ⟨rfl, rfl, rfl⟩
  case no =>
    intro i c probe below n r hseeks hanswer hcalm hr k c' x htakes
    obtain ⟨rfl, -⟩ := htakes.lt_answer hseeks hanswer
    exact hr ((htakes.arrives hs hseeks hanswer).eq hcalm)
  case unwound =>
    intro i c probe below n r hseeks hanswer _ k c' x htakes
    obtain ⟨rfl, -⟩ := htakes.lt_answer hseeks hanswer
    exact ⟨rfl, htakes.arrives hs hseeks hanswer⟩
  case sizes =>
    intro n c chain hget
    have hchain : chain.Coherent :=
      (hs.after n).coherent c chain (by rw [Heap.get?_scene_chains, hget])
    rw [← hchain.length_listing, ← Heap.listing_of_get? hget]
    exact hs.reckons_after hempty hsought (.inl (by rw [hget]; exact Option.some_ne_none chain))
  case replays =>
    exact fun n b earlier c listeners hsuffix hl => hs.replay_of_suffix hempty hnothing hsuffix hl

end Relay
