/-
  The removal that a search BELONGS to, and what it says in the end.

  Any number of removals may be comparing at once, one on top of the other.  Every search on the stack
  lies above the code that asked for it, with nothing in between but frames that pass the answer on
  (`State.Sought`); so if a search takes a slot out, it does so for one removal
  (`State.TakesOut.alone`).  Once a removal has taken something out it does nothing but answer, so it
  takes out one slot only (`State.TakesOut.unique`).

  A removal compares from the tail, and the first comparison that does not say no decides what it
  comes to (`State.Seeks.concludes`), whatever the comparing does to the chain in the meantime.  So it
  says yes exactly if it has taken a slot out (`State.Seeks.answered_iff`).
-/
import Relay.Proofs.Ledger
import Relay.Proofs.Unlinking

namespace Relay

variable {H : Host}

namespace State

/-- The coming step asks to remove a listener of chain `c` that is equal to `probe`. -/
def Seeks (s : State H) (c : ChainId) (probe : Fn) (below : List (Frame H)) : Prop :=
  ∃ rq, s.Asks rq below ∧ rq.search? s.heap = some (c, probe)

/-- The removal that is asked for in step `i` takes slot `x` out of chain `c` in step `k`: it has not
    been answered yet, and the search on top is its own. -/
def TakesOut (s : State H) (i k : Nat) (c : ChainId) (x : SlotId) : Prop :=
  (∃ probe below found held, (s.after i).Seeks c probe below ∧ i < k ∧
    (∀ j, i < j → j ≤ k → (s.after j).frames ≠ below) ∧
    (s.after k).frames = .searching found :: (passers held ++ below)) ∧
  (s.after k).Unlinks c x

/-! ## The removal that a search belongs to -/

/-- There is one thing that a step asks for, and one that waits for the answer. -/
theorem Asks.unique {s : State H} {rq rq' : Request H.toVocabulary} {below below' : List (Frame H)}
    (h : s.Asks rq below) (h' : s.Asks rq' below') : rq = rq' ∧ below = below' := by
  obtain ⟨r, code, owned, rest, code₁, hmode, hframes, hact, rfl⟩ := h
  obtain ⟨r', code', owned', rest', code₂, hmode', hframes', hact', rfl⟩ := h'
  obtain rfl := Mode.reply.inj (hmode.symm.trans hmode')
  obtain ⟨htop, rfl⟩ := List.cons.inj (hframes.symm.trans hframes')
  obtain ⟨rfl, rfl⟩ := Frame.user.inj htop
  obtain ⟨rfl, rfl⟩ := Act.request.inj (hact.symm.trans hact')
  exact ⟨rfl, rfl⟩

/-- What waits for an answer is code of the program. -/
theorem Asks.below_eq {s : State H} {rq : Request H.toVocabulary} {below : List (Frame H)}
    (h : s.Asks rq below) : ∃ code owned rest, below = .user code owned :: rest ∧
      s.frames.length = below.length := by
  obtain ⟨r, code, owned, rest, code', -, hframes, -, rfl⟩ := h
  exact ⟨code', owned, rest, rfl, by rw [hframes]; rfl⟩

/-- Above the code that asked there is nothing but frames that pass the answer on, so there is one
    such code. -/
theorem passers_inj {held held' : List (List Ref)} {code code' : H.Code} {owned owned' : List Ref}
    {rest rest' : List (Frame H)}
    (h : passers held ++ .user code owned :: rest = passers held' ++ .user code' owned' :: rest') :
    (.user code owned :: rest : List (Frame H)) = .user code' owned' :: rest' := by
  induction held generalizing held' with
  | nil =>
    cases held' with
    | nil => exact h
    | cons first held' => exact absurd (List.cons.inj h).1 (by simp)
  | cons first held ih =>
    cases held' with
    | nil => exact absurd (List.cons.inj h).1 (by simp)
    | cons first' held' => exact ih (List.cons.inj h).2

/-- Every search on the stack has been asked for, and the code that did so waits right below it. -/
def Sought (s : State H) (n : Nat) : Prop :=
  ∀ found rest, .searching found :: rest <:+ (s.after n).frames →
    ∃ i < n, ∃ below held, (s.after i).Seeks found.chain found.probe below ∧
      rest = passers held ++ below ∧ ∀ j, i < j → j ≤ n → (s.after j).frames ≠ below

/-- A stack with a search above `below` is longer than `below`. -/
theorem ne_of_searching {found : Search} {held : List (List Ref)} {below frames : List (Frame H)}
    (h : .searching found :: (passers held ++ below) <:+ frames) : frames ≠ below := by
  rintro rfl
  have hlength := h.length_le
  rw [List.length_cons, List.length_append] at hlength
  omega

theorem Sought.succ {s : State H} (hs : Reachable s) {n : Nat} (h : s.Sought n) :
    s.Sought (n + 1) := by
  intro found rest hf
  -- a search that has been there goes on waiting for the same answer
  have hold {old : Search} (hc : old.chain = found.chain) (hp : old.probe = found.probe)
      (ho : .searching old :: rest <:+ (s.after n).frames) :
      ∃ i < n + 1, ∃ below held, (s.after i).Seeks found.chain found.probe below ∧
        rest = passers held ++ below ∧ ∀ j, i < j → j ≤ n + 1 → (s.after j).frames ≠ below := by
    obtain ⟨i, hi, below, held, hseeks, rfl, hbusy⟩ := h old rest ho
    refine ⟨i, Nat.lt_succ_of_lt hi, below, held, hc ▸ hp ▸ hseeks, rfl, fun j hj hjn => ?_⟩
    rcases Nat.lt_or_eq_of_le hjn with hlt | rfl
    · exact hbusy j hj (Nat.le_of_lt_succ hlt)
    · exact ne_of_searching hf
  cases (hs.after n).search_origin hf with
  | waiting hw => exact hold rfl rfl (hw.trans (s.after n).waiting_suffix)
  | asked rq below held hasks hrq hrest =>
    refine ⟨n, Nat.lt_succ_self n, below, held, ⟨rq, hasks, hrq⟩, hrest, fun j hj hjn => ?_⟩
    obtain rfl := Nat.le_antisymm hjn hj
    exact ne_of_searching (hrest ▸ hf)
  | continued old hframes hc hp => exact hold hc hp (hframes ▸ List.suffix_rfl)

/-- At the start of a run there is no search. -/
theorem sought_begin (m : Nat) (code : H.Code) (memory : H.Memory) (n : Nat) :
    (State.begin m code memory).Sought n := by
  induction n with
  | zero =>
    intro found rest hf
    have hmem : Frame.searching found ∈ [Frame.user code []] := hf.subset List.mem_cons_self
    exact absurd hmem (by simp)
  | succ n ih => exact ih.succ (.begin m code memory)

/-- Whatever takes a slot out is a clearing, or a removal. -/
theorem Unlinks.cause {s : State H} (hs : Reachable s) {k : Nat} (hsought : s.Sought k)
    {c : ChainId} {x : SlotId} (h : (s.after k).Unlinks c x) :
    (s.after k).ClearsOut c x ∨ ∃ i, s.TakesOut i k c x := by
  rcases h.edit (hs.after k) with hedit | hedit
  · exact .inl ⟨asks_clear_of_edit hedit, h⟩
  · rcases (s.after k).edit_cases with hnone | ⟨rq, below, -, hrq⟩ |
      ⟨found, rest, hmode, hframes, hfound⟩
    · exact absurd (hnone.symm.trans hedit) (by simp)
    · exact absurd (hrq.symm.trans hedit) (edit_ne_detached _ rq c x)
    · obtain ⟨rfl, rfl⟩ := Edit.detached.inj (hfound.symm.trans hedit)
      obtain ⟨i, hi, below, held, hseeks, rfl, hbusy⟩ :=
        hsought found rest (hframes ▸ List.suffix_rfl)
      exact .inr ⟨i, ⟨found.probe, below, found, held, hseeks, hi, hbusy, hframes⟩, h⟩

/-- A step does not do both. -/
theorem TakesOut.not_clearsOut {s : State H} {i k : Nat} {c : ChainId} {x : SlotId}
    (h : s.TakesOut i k c x) {c' : ChainId} {x' : SlotId} : ¬(s.after k).ClearsOut c' x' := by
  rintro ⟨⟨j, below', ⟨_, code, owned, _, _, _, hcode, _⟩, -⟩, -⟩
  obtain ⟨⟨probe, below, found, held, -, -, -, hframes⟩, -⟩ := h
  exact absurd (hframes.symm.trans hcode) (by simp)

/-! ## What a removal does, and what it answers -/

/-- What is not on top passes answers on, so only the frame on top does anything else for `below`. -/
theorem top_unique {f g : Frame H} {held held' : List (List Ref)} {below : List (Frame H)}
    (hf : f.passes = false)
    (h : f :: (passers held ++ below) <:+ g :: (passers held' ++ below)) :
    (f :: (passers held ++ below) : List (Frame H)) = g :: (passers held' ++ below) := by
  rcases List.suffix_cons_iff.1 h with heq | hsuffix
  · exact heq
  · have hbelow := suffix_of_not_mem hsuffix fun hm => by
      rw [passes_of_mem_passers hm] at hf
      exact absurd hf (by simp)
    have hlength := hbelow.length_le
    rw [List.length_cons, List.length_append] at hlength
    omega

/-- Once the answer is decided, nothing is compared for it any more. -/
theorem Pending.not_searching {s : State H} {r : Reply H.toVocabulary} {below : List (Frame H)}
    (h : Pending r below s) {found : Search} {held : List (List Ref)} :
    s.frames ≠ .searching found :: (passers held ++ below) := by
  intro hframes
  cases h with
  | leaving _ todo held' hsuffix =>
    rw [hframes] at hsuffix
    exact absurd (List.cons.inj (top_unique rfl hsuffix)).1 (by simp)
  | heard _ held' hheard =>
    have heq := List.append_cancel_right
      ((show .searching found :: passers held ++ below = s.frames from hframes.symm).trans hheard)
    cases held' with
    | nil => exact absurd heq (List.cons_ne_nil _ _)
    | cons first held' => exact absurd (List.cons.inj heq).1 (by simp)

variable {s : State H}

/-- A search begins with the list as it is, LAST entry first. -/
theorem Seeks.turns (hs : Reachable s) {c : ChainId} {probe : Fn} {below : List (Frame H)}
    (h : s.Seeks c probe below) :
    ∃ held, Turns c probe (s.heap.listing c).reverse (passers held ++ below) s.step
      (s.heap.listing c).reverse := by
  obtain ⟨rq, hasks, hrq⟩ := h
  obtain ⟨t, hheap, rfl, hstep⟩ := hasks.exists_step
  rw [← hheap] at hrq ⊢
  rw [hstep]
  exact ask_turns (hheap ▸ hs.coherent) hrq

theorem Seeks.unique {c c' : ChainId} {probe probe' : Fn} {below below' : List (Frame H)}
    (h : s.Seeks c probe below) (h' : s.Seeks c' probe' below') : c = c' ∧ below = below' := by
  obtain ⟨rq, hasks, hrq⟩ := h
  obtain ⟨rq', hasks', hrq'⟩ := h'
  obtain ⟨rfl, rfl⟩ := hasks.unique hasks'
  exact ⟨(Prod.mk.inj (Option.some.inj (hrq.symm.trans hrq'))).1, rfl⟩

namespace TakesOut

variable {i k : Nat} {c : ChainId} {x : SlotId}

theorem lt (h : s.TakesOut i k c x) : i < k := by
  obtain ⟨⟨_, _, _, _, _, hik, _⟩, _⟩ := h
  exact hik

/-- A slot is taken out when the search has heard that it matches. -/
theorem heard (hs : Reachable s) (h : s.TakesOut i k c x) : (s.after k).mode = .reply (.flag true) := by
  obtain ⟨⟨probe, below, found, held, -, -, -, hframes⟩, hunlinks⟩ := h
  exact (hunlinks.of_searching (hs.after k) hframes).1

/-- From then on the answer is to be yes. -/
theorem promised (hs : Reachable s) (h : s.TakesOut i k c x) {probe : Fn} {below : List (Frame H)}
    (hseeks : (s.after i).Seeks c probe below) : Promised (.flag true) below (s.after (k + 1)) := by
  have hmode := h.heard hs
  obtain ⟨⟨probe', below', found, held, hseeks', -, -, hframes⟩, hunlinks⟩ := h
  obtain ⟨-, rfl⟩ := hseeks.unique hseeks'
  obtain ⟨-, rfl, rfl⟩ := hunlinks.of_searching (hs.after k) hframes
  obtain ⟨chain, hc, hx⟩ := hunlinks.linked
  rw [Heap.get?_scene_chains] at hc
  let popped : State H := { s.after k with frames := passers held ++ below }
  have hstep : s.after (k + 1) = popped.detachFound found := step_of_top hframes hmode
  obtain ⟨todo, hdetached⟩ := popped.detachFound_frames found hc hx
  rw [hstep]
  exact promised_of_leaving hdetached (popped.detachFound_over found).2

/-- A removal takes out ONE slot. -/
theorem unique (hs : Reachable s) (h : s.TakesOut i k c x) {k' : Nat} {c' : ChainId} {x' : SlotId}
    (h' : s.TakesOut i k' c' x') : k = k' ∧ c = c' ∧ x = x' := by
  -- what comes after the first time is not a search
  have hno {k k' : Nat} {c c' : ChainId} {x x' : SlotId} (hlt : k < k') (h : s.TakesOut i k c x)
      (h' : s.TakesOut i k' c' x') : False := by
    have hseeks : ∃ probe below, (s.after i).Seeks c probe below ∧ i < k := by
      obtain ⟨⟨probe, below, found, held, hseeks, hik, -⟩, -⟩ := h
      exact ⟨probe, below, hseeks, hik⟩
    obtain ⟨probe, below, hseeks, hik⟩ := hseeks
    obtain ⟨⟨probe', below', found, held, hseeks', -, hbusy, hframes⟩, -⟩ := h'
    obtain ⟨-, rfl⟩ := hseeks.unique hseeks'
    have hpending := (h.promised hs hseeks).after
      (fun j hj hjk => hbusy j (by omega) (Nat.le_of_lt hjk)) (Nat.succ_le_of_lt hlt)
    exact hpending.not_searching hframes
  obtain rfl : k = k' := by
    rcases Nat.lt_trichotomy k k' with hlt | heq | hgt
    · exact (hno hlt h h').elim
    · exact heq
    · exact (hno hgt h' h).elim
  obtain ⟨⟨_, below, found, held, -, -, -, hframes⟩, hunlinks⟩ := h
  obtain ⟨-, hunlinks'⟩ := h'
  obtain ⟨-, rfl, rfl⟩ := hunlinks.of_searching (hs.after k) hframes
  obtain ⟨-, hc, hx⟩ := hunlinks'.of_searching (hs.after k) hframes
  exact ⟨rfl, hc, hx⟩

/-- A step takes out something for ONE removal. -/
theorem alone (h : s.TakesOut i k c x) {i' : Nat} {c' : ChainId} {x' : SlotId}
    (h' : s.TakesOut i' k c' x') : i = i' := by
  obtain ⟨⟨probe, below, found, held, hseeks, hik, hbusy, hframes⟩, -⟩ := h
  obtain ⟨⟨probe', below', found', held', hseeks', hik', hbusy', hframes'⟩, -⟩ := h'
  -- both searches are the one on top, and so the same code waits for both
  obtain rfl : below = below' := by
    obtain ⟨rq, hasks, -⟩ := hseeks
    obtain ⟨rq', hasks', -⟩ := hseeks'
    obtain ⟨code, owned, rest, rfl, -⟩ := hasks.below_eq
    obtain ⟨code', owned', rest', rfl, -⟩ := hasks'.below_eq
    exact passers_inj (List.cons.inj (hframes.symm.trans hframes')).2
  -- but it cannot ask anew before it has heard an answer
  have hno {i i' : Nat} {c c' : ChainId} {probe probe' : Fn} (hlt : i < i') (hik : i' < k)
      (hseeks : (s.after i).Seeks c probe below) (hseeks' : (s.after i').Seeks c' probe' below)
      (hbusy : ∀ j, i < j → j ≤ k → (s.after j).frames ≠ below) : False := by
    obtain ⟨m, rfl⟩ := Nat.exists_eq_add_of_lt hlt
    have hsuffix : below <:+ (s.after (i + m + 1)).frames := by
      rw [Nat.add_assoc, after_add]
      obtain ⟨rq, hasks, -⟩ := hseeks
      refine hasks.suffix_after (Nat.succ_pos m) fun j hj hjm => ?_
      rw [← after_add]
      exact hbusy _ (by omega) (by omega)
    obtain ⟨rq, hasks, -⟩ := hseeks'
    obtain ⟨-, -, -, -, hlength⟩ := hasks.below_eq
    exact hbusy _ hlt (Nat.le_of_lt hik) (hsuffix.eq_of_length hlength.symm).symm
  rcases Nat.lt_trichotomy i i' with hlt | heq | hgt
  · exact (hno hlt hik' hseeks hseeks' hbusy).elim
  · exact heq
  · exact (hno hgt hik hseeks' hseeks hbusy').elim

end TakesOut

/-! ## What a removal comes to -/

/-- What the removal that is asked for in the coming step has come to before step `n`, if `list` is
    what was linked then.  It compares from the tail, and the first comparison that does not say no
    decides. -/
inductive Concludes (s : State H) (c : ChainId) (probe : Fn) (below : List (Frame H))
    (list : List (SlotId × Fn)) (n : Nat) : Reply H.toVocabulary → Prop
  /-- The listener of `e` is equal, and its slot is taken out. -/
  | taken {front back : List (SlotId × Fn)} {e : SlotId × Fn} {m : Nat}
      (hsplit : list = front ++ e :: back) (hequal : s.Judged below probe n e (.flag true))
      (hback : ∀ e' ∈ back, ∃ r, s.Judged below probe n e' r ∧ r.equal? = some false)
      (hm : m < n) (htakes : s.TakesOut 0 m c e.1) : Concludes s c probe below list n (.flag true)
  /-- It is equal, but its slot has been taken out on the way. -/
  | spent {front back : List (SlotId × Fn)} {e : SlotId × Fn} {m : Nat}
      (hsplit : list = front ++ e :: back) (hequal : s.Judged below probe n e (.flag true))
      (hback : ∀ e' ∈ back, ∃ r, s.Judged below probe n e' r ∧ r.equal? = some false)
      (hm : m < n) (hspent : ¬(s.after m).heap.scene.Linked c e.1)
      (hnone : ∀ k < n, ∀ x, ¬s.TakesOut 0 k c x) : Concludes s c probe below list n (.flag false)
  /-- No listener is equal. -/
  | unmatched (hall : ∀ e ∈ list, ∃ r, s.Judged below probe n e r ∧ r.equal? = some false)
      (hnone : ∀ k < n, ∀ x, ¬s.TakesOut 0 k c x) : Concludes s c probe below list n (.flag false)
  /-- The comparison with the listener of `e` was unwound, and the removal with it. -/
  | unwound {front back : List (SlotId × Fn)} {e : SlotId × Fn} {f : Fault}
      (hsplit : list = front ++ e :: back) (hfault : s.Judged below probe n e (.fault f))
      (hback : ∀ e' ∈ back, ∃ r, s.Judged below probe n e' r ∧ r.equal? = some false)
      (hnone : ∀ k < n, ∀ x, ¬s.TakesOut 0 k c x) : Concludes s c probe below list n (.fault f)

/-- How far a removal has come, `n` steps after it was asked for. -/
inductive Pursues (s : State H) (c : ChainId) (probe : Fn) (below : List (Frame H))
    (list : List (SlotId × Fn)) (n : Nat) : Prop
  /-- It compares the listener of `e`, and has found all behind it unequal. -/
  | comparing (held : List (List Ref)) (front back : List (SlotId × Fn)) (e : SlotId × Fn) (i : Nat)
      (hsplit : list = front ++ e :: back) (hi : 0 < i) (hin : i ≤ n)
      (hmode : (s.after i).mode = .compare e.2 probe)
      (hframes : (s.after i).frames =
        .searching ⟨c, probe, e.1, front.reverse, list.reverse⟩ :: (passers held ++ below))
      (hstays : ∀ k, i ≤ k → k ≤ n →
        .searching ⟨c, probe, e.1, front.reverse, list.reverse⟩ :: (passers held ++ below) <:+
          (s.after k).frames)
      (hback : ∀ e' ∈ back, ∃ r, s.Judged below probe n e' r ∧ r.equal? = some false)
      (hnone : ∀ k < n, ∀ x, ¬s.TakesOut 0 k c x)
  /-- It came to an end by step `m`, and its answer is promised. -/
  | settled (m : Nat) (q : Reply H.toVocabulary) (hm : 0 < m) (hmn : m ≤ n)
      (hconcludes : s.Concludes c probe below list n q) (hpromised : Promised q below (s.after m))

/-- A match that is linked no more is not taken out again, and the answer is no. -/
theorem detachFound_frames_of_spent (s : State H) (found : Search)
    (hx : ¬s.heap.scene.Linked found.chain found.candidate) :
    ∃ todo, (s.detachFound found).frames = .releasing todo (.flag false) :: s.frames := by
  unfold detachFound
  dsimp only
  cases hc : s.heap.chains.get? found.chain with
  | none => exact ⟨_, rfl⟩
  | some chain =>
    have hgone : ¬chain.contains found.candidate = true := fun hcontains =>
      hx ⟨chain, by rw [Heap.get?_scene_chains, hc], hcontains⟩
    dsimp only
    rw [if_neg hgone]
    exact ⟨_, rfl⟩

variable {c : ChainId} {probe : Fn} {below : List (Frame H)} {list : List (SlotId × Fn)} {n : Nat}

/-- A step in which nothing is taken out for the removal. -/
theorem none_succ (hnone : ∀ k < n, ∀ x, ¬s.TakesOut 0 k c x) (hnow : ∀ x, ¬s.TakesOut 0 n c x) :
    ∀ k < n + 1, ∀ x, ¬s.TakesOut 0 k c x := by
  intro k hk x
  rcases Nat.lt_or_eq_of_le (Nat.le_of_lt_succ hk) with hlt | rfl
  · exact hnone k hlt x
  · exact hnow x

/-- What a removal has come to does not change, for it takes nothing out afterwards. -/
theorem Concludes.succ {r : Reply H.toVocabulary} (h : s.Concludes c probe below list n r)
    (hnow : ∀ x, ¬s.TakesOut 0 n c x) : s.Concludes c probe below list (n + 1) r := by
  have hle := Nat.le_succ n
  cases h with
  | taken hsplit hequal hback hm htakes =>
    exact .taken hsplit (hequal.mono hle) (unequal_mono hback hle) (Nat.lt_succ_of_lt hm) htakes
  | spent hsplit hequal hback hm hspent hnone =>
    exact .spent hsplit (hequal.mono hle) (unequal_mono hback hle) (Nat.lt_succ_of_lt hm) hspent
      (none_succ hnone hnow)
  | unmatched hall hnone => exact .unmatched (unequal_mono hall hle) (none_succ hnone hnow)
  | unwound hsplit hfault hback hnone =>
    exact .unwound hsplit (hfault.mono hle) (unequal_mono hback hle) (none_succ hnone hnow)

namespace Pursues

/-- A search that goes on has a next entry to compare, or has found none equal. -/
theorem of_turns {front back : List (SlotId × Fn)} (held : List (List Ref))
    (hsplit : list = front ++ back)
    (hturns : Turns c probe list.reverse (passers held ++ below) (s.after (n + 1)) front.reverse)
    (hback : ∀ e ∈ back, ∃ r, s.Judged below probe (n + 1) e r ∧ r.equal? = some false)
    (hnone : ∀ k < n + 1, ∀ x, ¬s.TakesOut 0 k c x) : s.Pursues c probe below list (n + 1) := by
  rcases List.eq_nil_or_concat front with rfl | ⟨front', e, rfl⟩
  · cases hturns with
    | ended todo hframes hmode =>
      exact .settled (n + 1) (.flag false) (Nat.succ_pos n) (Nat.le_refl _)
        (.unmatched (hsplit ▸ hback) hnone) (promised_of_leaving hframes hmode)
  · rw [List.concat_eq_append, List.reverse_append, List.reverse_singleton,
      List.singleton_append] at hturns
    cases hturns with
    | next _ _ hframes hmode =>
      refine .comparing held front' back e (n + 1) (by simpa using hsplit) (Nat.succ_pos n)
        (Nat.le_refl _) hmode hframes (fun k hk hk' => ?_) hback hnone
      rw [Nat.le_antisymm hk' hk]
      exact hframes ▸ List.suffix_rfl

/-- The search hears what has come of comparing the listener of `e`. -/
theorem of_hear (hs : Reachable s) (hseeks : s.Seeks c probe below) (hn : 0 < n)
    (hbusy : ∀ j, 0 < j → j ≤ n → (s.after j).frames ≠ below)
    {front back : List (SlotId × Fn)} {e : SlotId × Fn} {held : List (List Ref)}
    {r : Reply H.toVocabulary} (hsplit : list = front ++ e :: back)
    (htop : (s.after n).frames =
      .searching ⟨c, probe, e.1, front.reverse, list.reverse⟩ :: (passers held ++ below))
    (hmode : (s.after n).mode = .reply r) (hjudged : s.Judged below probe (n + 1) e r)
    (hback : ∀ e' ∈ back, ∃ r, s.Judged below probe (n + 1) e' r ∧ r.equal? = some false)
    (hnone : ∀ k < n, ∀ x, ¬s.TakesOut 0 k c x) : s.Pursues c probe below list (n + 1) := by
  let popped : State H := { s.after n with frames := passers held ++ below }
  let found : Search := ⟨c, probe, e.1, front.reverse, list.reverse⟩
  have hstep : s.after (n + 1) = popped.hear r (.searching found) := step_of_top htop hmode
  -- nothing is taken out unless a match is heard
  have hquiet (hr : r ≠ .flag true) : ∀ k < n + 1, ∀ x, ¬s.TakesOut 0 k c x :=
    none_succ hnone fun x h => hr (Mode.reply.inj (hmode.symm.trans (h.heard hs)))
  have hunequal (hr : r.equal? = some false) : s.Pursues c probe below list (n + 1) := by
    refine .of_turns held hsplit ?_ (fun e' he' => ?_) (hquiet fun he => ?_)
    · rw [hstep, hear_unequal popped found hr]
      exact search_turns popped c probe list.reverse front.reverse
    · rcases List.mem_cons.1 he' with rfl | hm
      · exact ⟨r, hjudged, hr⟩
      · exact hback e' hm
    · rw [he] at hr
      exact absurd hr (by simp [Reply.equal?])
  cases r with
  | flag same =>
    cases same with
    | false => exact hunequal rfl
    | true =>
      by_cases hlinked : (s.after n).heap.scene.Linked c e.1
      · have hedit : (s.after n).edit = .detached c e.1 := by
          unfold edit
          rw [hmode, htop]
        have htakes : s.TakesOut 0 n c e.1 :=
          ⟨⟨probe, below, found, held, hseeks, hn, hbusy, htop⟩,
            unlinks_of_detached (hs.after n) hedit hlinked⟩
        exact .settled (n + 1) (.flag true) (Nat.succ_pos n) (Nat.le_refl _)
          (.taken hsplit hjudged hback (Nat.lt_succ_self n) htakes) (htakes.promised hs hseeks)
      · obtain ⟨todo, hframes⟩ := popped.detachFound_frames_of_spent found hlinked
        refine .settled (n + 1) (.flag false) (Nat.succ_pos n) (Nat.le_refl _)
          (.spent hsplit hjudged hback (Nat.lt_succ_self n) hlinked
            (none_succ hnone fun x h => hlinked ?_)) ?_
        · obtain ⟨-, -, rfl⟩ := h.2.of_searching (hs.after n) htop
          exact h.2.linked
        · rw [hstep]
          exact promised_of_leaving hframes (popped.detachFound_over found).2
  | fault f =>
    refine .settled (n + 1) (.fault f) (Nat.succ_pos n) (Nat.le_refl _)
      (.unwound hsplit hjudged hback (hquiet (by simp))) ?_
    rw [hstep]
    exact promised_of_leaving rfl rfl
  | _ => exact hunequal rfl

/-- One step of a removal that has not been answered yet. -/
theorem succ (hs : Reachable s) (hseeks : s.Seeks c probe below) (hn : 0 < n)
    (hbusy : ∀ j, 0 < j → j ≤ n → (s.after j).frames ≠ below)
    (h : s.Pursues c probe below list n) : s.Pursues c probe below list (n + 1) := by
  cases h with
  | settled m q hm hmn hconcludes hpromised =>
    have hpending := hpromised.after
      (fun j hj hjn => hbusy j (Nat.lt_of_lt_of_le hm hj) (Nat.le_of_lt hjn)) hmn
    refine .settled m q hm (Nat.le_succ_of_le hmn) (hconcludes.succ fun x h => ?_) hpromised
    obtain ⟨⟨probe', below', found, held, hseeks', -, -, hframes⟩, -⟩ := h
    obtain ⟨-, rfl⟩ := hseeks.unique hseeks'
    exact absurd hframes hpending.not_searching
  | comparing held front back e i hsplit hi hin hmode hframes hstays hback hnone =>
    have hnow := hstays n hin (Nat.le_refl n)
    by_cases hgoes : (s.after n).frames =
        .searching ⟨c, probe, e.1, front.reverse, list.reverse⟩ :: (passers held ++ below) →
          ∀ r, (s.after n).mode ≠ .reply r
    · -- the comparing goes on
      refine .comparing held front back e i hsplit hi (Nat.le_succ_of_le hin) hmode hframes
        (fun k hk hk' => ?_) (unequal_mono hback (Nat.le_succ n)) (none_succ hnone fun x h => ?_)
      · rcases Nat.lt_or_eq_of_le hk' with hlt | rfl
        · exact hstays k hk (Nat.le_of_lt_succ hlt)
        · exact suffix_step hnow hgoes
      · have hmode := h.heard hs
        obtain ⟨⟨probe', below', found', held', hseeks', -, -, hframes'⟩, -⟩ := h
        obtain ⟨-, rfl⟩ := hseeks.unique hseeks'
        exact hgoes (hframes'.trans (top_unique rfl (hframes' ▸ hnow)).symm) _ hmode
    · push Not at hgoes
      obtain ⟨htop, r, hreply⟩ := hgoes
      have hjudged : s.Judged below probe (n + 1) e r :=
        ⟨_, held, i, n, hi, hin, Nat.lt_succ_self n, rfl, hmode, hframes, hstays, hreply, htop⟩
      exact .of_hear hs hseeks hn hbusy hsplit htop hreply hjudged
        (unequal_mono hback (Nat.le_succ n)) hnone

end Pursues

/-- What is answered is what the removal has come to, unless a destructor has unwound since. -/
theorem Seeks.concludes (hs : Reachable s) (hseeks : s.Seeks c probe below)
    {r : Reply H.toVocabulary} (hanswer : s.Answered below n r) :
    ∃ m q, 0 < m ∧ s.Concludes c probe below (s.heap.listing c) n q ∧ s.Arrives m n q r := by
  have hall : ∀ k, 0 < k → k ≤ n → s.Pursues c probe below (s.heap.listing c) k := by
    intro k hk hkn
    induction k with
    | zero => exact absurd hk (Nat.lt_irrefl 0)
    | succ k ih =>
      rcases Nat.eq_zero_or_pos k with rfl | hpos
      · obtain ⟨held, hturns⟩ := hseeks.turns hs
        refine .of_turns held (List.append_nil _).symm hturns (by simp) fun k hk x h => ?_
        obtain ⟨⟨_, _, _, _, _, hpos, _⟩, _⟩ := h
        omega
      · exact (ih hpos (Nat.le_of_succ_le hkn)).succ hs hseeks hpos fun j hj hjk =>
          hanswer.first j hj (Nat.lt_of_le_of_lt hjk hkn)
  cases hall n hanswer.pos (Nat.le_refl n) with
  | comparing held front back e i _ _ hin _ _ hstays =>
    exact absurd hanswer.frames (ne_of_searching (hstays n hin (Nat.le_refl n)))
  | settled m q hm hmn hconcludes hpromised =>
    exact ⟨m, q, hm, hconcludes, hpromised.arrives hm hmn hanswer⟩

/-- Counting may begin with the step that asks. -/
theorem takesOut_after_iff {i k : Nat} {x : SlotId} :
    (s.after i).TakesOut 0 k c x ↔ s.TakesOut i (i + k) c x := by
  have hbusy (below : List (Frame H)) :
      (∀ j, 0 < j → j ≤ k → ((s.after i).after j).frames ≠ below) ↔
        ∀ j, i < j → j ≤ i + k → (s.after j).frames ≠ below := by
    constructor
    · intro h j hj hjk
      obtain ⟨m, rfl⟩ := Nat.exists_eq_add_of_lt hj
      rw [Nat.add_assoc, after_add]
      exact h _ (Nat.succ_pos m) (by omega)
    · intro h j hj hjk
      rw [← after_add]
      exact h _ (by omega) (by omega)
  have hpos : 0 < k ↔ i < i + k := by omega
  simp only [TakesOut, hbusy, hpos, after_add]
  rfl

/-- A removal that is not unwound says yes EXACTLY if it has taken something out. -/
theorem Seeks.answered_iff (hs : Reachable s) {i : Nat} (hseeks : (s.after i).Seeks c probe below)
    {r : Reply H.toVocabulary} (hanswer : (s.after i).Answered below n r) (hcalm : ¬r.Unwound) :
    r = .flag true ↔ ∃ k < i + n, ∃ x, s.TakesOut i k c x := by
  have htakes : (∃ k < i + n, ∃ x, s.TakesOut i k c x) ↔
      ∃ k < n, ∃ x, (s.after i).TakesOut 0 k c x := by
    simp only [takesOut_after_iff]
    constructor
    · rintro ⟨k, hk, x, h⟩
      obtain ⟨m, rfl⟩ := Nat.exists_eq_add_of_le (Nat.le_of_lt h.lt)
      exact ⟨m, by omega, x, h⟩
    · rintro ⟨k, hk, x, h⟩
      exact ⟨i + k, by omega, x, h⟩
  have hno (hr : r ≠ .flag true) (hnone : ∀ k < n, ∀ x, ¬(s.after i).TakesOut 0 k c x) :
      r = .flag true ↔ ∃ k < n, ∃ x, (s.after i).TakesOut 0 k c x :=
    ⟨fun he => absurd he hr, fun ⟨k, hk, x, h⟩ => absurd h (hnone k hk x)⟩
  obtain ⟨m, q, -, hconcludes, harrives⟩ := hseeks.concludes (hs.after i) hanswer
  obtain rfl := harrives.eq hcalm
  rw [htakes]
  cases hconcludes with
  | taken _ _ _ hm h => exact ⟨fun _ => ⟨_, hm, _, h⟩, fun _ => rfl⟩
  | spent _ _ _ _ _ hnone => exact hno (by simp) hnone
  | unmatched _ hnone => exact hno (by simp) hnone
  | unwound _ _ _ hnone => exact hno (by simp) hnone

/-- After its answer a removal takes nothing out. -/
theorem TakesOut.lt_answer {i k n : Nat} {c c' : ChainId} {x : SlotId} (h : s.TakesOut i k c x)
    {probe : Fn} {below : List (Frame H)} (hseeks : (s.after i).Seeks c' probe below)
    {r : Reply H.toVocabulary} (hanswer : (s.after i).Answered below n r) : c = c' ∧ k < i + n := by
  obtain ⟨⟨probe', below', found, held, hseeks', hik, hbusy, -⟩, -⟩ := h
  obtain ⟨rfl, rfl⟩ := hseeks'.unique hseeks
  refine ⟨rfl, Nat.lt_of_not_le fun hle => ?_⟩
  refine hbusy (i + n) (Nat.lt_add_of_pos_right hanswer.pos) hle ?_
  rw [after_add, hanswer.frames]

/-- A removal that has taken something out says yes, unless a destructor unwinds since. -/
theorem TakesOut.arrives (hs : Reachable s) {i k n : Nat} {c : ChainId} {x : SlotId}
    (h : s.TakesOut i k c x) {probe : Fn} {below : List (Frame H)}
    (hseeks : (s.after i).Seeks c probe below) {r : Reply H.toVocabulary}
    (hanswer : (s.after i).Answered below n r) : s.Arrives (k + 1) (i + n) (.flag true) r := by
  obtain ⟨-, hk⟩ := h.lt_answer hseeks hanswer
  have hpromised := h.promised hs hseeks
  obtain ⟨j, rfl⟩ := Nat.exists_eq_add_of_le (Nat.le_of_lt h.lt)
  rw [Nat.add_assoc, after_add] at hpromised
  have harrives := hpromised.arrives (Nat.succ_pos j) (by omega) hanswer
  refine harrives.imp id fun ⟨hcalm, hunwound, l, p, hjl, hln, hp, hcode⟩ => ?_
  rw [← after_add] at hp hcode
  exact ⟨hcalm, hunwound, i + l, p, by omega, by omega, hp, hcode⟩

end State

end Relay
