/-
  The whole COURSE of a removal.

  A removal compares listeners one after the other, and each comparison may run any code, so between
  any two of its own steps everything may have changed.  But its own steps are few, and they are
  always the same.  It looks at the list once, when it is asked for; it goes through what it saw then,
  LAST first, whatever has become of the list; and the first comparison that does not say no is the
  last one.  `State.Inspects` is that course, and every removal takes it.

  What a removal does to the chains is as little.  It takes the listener that was found out if it is
  still there, and does nothing else to any chain, except that letting go of what it held may end
  dispatches and chains that nobody else owns.
-/
import Relay.Proofs.Comparison
import Relay.Proofs.Verdict

namespace Relay

variable {H : Host}

/-! ## Letting go spares the chains -/

/-- Every chain that is there in `w` is what it was in `v`, but for the pin of a dispatch that has
    ended. -/
def Scene.Spares (v w : Scene) : Prop :=
  ∀ c chain', w.chains.get? c = some chain' →
    v.chains.get? c = some chain' ∨
      ∃ d slot chain, v.dispatches.get? d = some ⟨c, some slot⟩ ∧ w.dispatches.get? d = none ∧
        v.chains.get? c = some chain ∧ chain' = (chain.unpin slot).2

theorem Scene.Spares.of_eq {v w : Scene} (h : w = v) : v.Spares w := by
  rintro c chain' hc
  exact .inl (h ▸ hc)

/-- So it is when there is letting go only. -/
theorem Change.spares {deed : Deed} {v w : Scene} (h : Change deed v w) (hlets : deed.LettingGo) :
    v.Spares w := by
  intro c chain' hc
  cases h with
  | nothing => exact .inl hc
  | @closed _ d c' chain slot hd hchain =>
    change (v.chains.modify c' fun _ => (chain.unpin slot).2).get? c = some chain' at hc
    rw [Table.get?_modify] at hc
    split at hc
    · rename_i heq
      subst heq
      rw [hchain] at hc
      refine .inr ⟨d, slot, chain, hd, ?_, hchain, (Option.some.inj hc).symm⟩
      show (v.dispatches.erase d).get? d = none
      rw [Table.get?_erase, if_pos rfl]
    · exact .inl hc
  | closedPast => exact .inl hc
  | @dropped _ c' =>
    change (v.chains.erase c').get? c = some chain' at hc
    rw [Table.get?_erase] at hc
    split at hc
    · exact absurd hc (by simp)
    · exact .inl hc
  | _ => exact hlets.elim

namespace State

variable {s t : State H}

theorem spares_releaseNext (t : State H) (todo : List Ref) (r : Reply H.toVocabulary) :
    t.heap.scene.Spares (t.releaseNext todo r).heap.scene := by
  cases todo with
  | nil => exact .of_eq rfl
  | cons ref rest =>
    obtain ⟨deed, hlets, hchange⟩ := t.heap.release_change ref
    rw [heap_releaseNext]
    exact hchange.spares hlets

/-! ## Steps of one request -/

variable {below : List (Frame H)} {held : List (List Ref)}

/-- An answer is heard by a frame that works for `below`: above the code that asked there is nothing
    else but frames that pass answers on. -/
def Serves (s : State H) (below : List (Frame H)) : Prop :=
  ∃ r f held, s.mode = .reply r ∧ s.frames = f :: (passers held ++ below)

/-- Where the answer has been decided, nothing is done for it but letting go. -/
theorem Pending.spares {q : Reply H.toVocabulary} (h : Pending q below s) (hserves : s.Serves below) :
    s.heap.scene.Spares s.step.heap.scene := by
  obtain ⟨r, f, held, hmode, hframes⟩ := hserves
  let popped : State H := { s with frames := passers held ++ below }
  have hstep : s.step = popped.hear r f := step_of_top hframes hmode
  rw [hstep]
  cases h with
  | @leaving q' _ todo held' hsuffix =>
    rw [hframes] at hsuffix
    obtain ⟨rfl, -⟩ := List.cons.inj (top_unique rfl hsuffix)
    rcases popped.hear_releasing r todo q' with ⟨q'', -, hgoes⟩ | ⟨-, hstands⟩
    · rw [hgoes]
      exact spares_releaseNext popped todo q''
    · rw [hstands]
      exact .of_eq rfl
  | heard _ held' hheard =>
    cases held' with
    | nil =>
      have hlength := congrArg List.length (hframes.symm.trans hheard)
      simp only [List.length_cons, List.length_append, passers, List.map_nil, List.nil_append] at hlength
      omega
    | cons first held' =>
      obtain ⟨rfl, -⟩ := List.cons.inj (hframes.symm.trans hheard)
      exact .of_eq rfl

/-- While another frame waits for its answer right above `below`, nothing else is done for `below`. -/
theorem not_serves {g : Frame H} (hg : g.passes = false)
    (h : g :: (passers held ++ below) <:+ s.frames)
    (hbusy : s.frames = g :: (passers held ++ below) → ∀ r, s.mode ≠ .reply r) :
    ¬s.Serves below := by
  rintro ⟨r, f, held', hmode, hframes⟩
  rw [hframes] at h
  exact hbusy (hframes.trans (top_unique hg h).symm) r hmode

/-! ## Which comparisons are begun -/

/-- The listener that the coming step begins to compare, its slot first, and with what, if this is
    done for code that so many calls are below. -/
def begins? (s : State H) (height : Nat) : Option (SlotId × Fn × Fn) :=
  match s.step.mode, s.step.frames with
  | .compare left right, .searching found :: rest =>
    if s.waiting.length ≤ rest.length ∧ (rest.dropWhile Frame.passes).length = height then
      some (found.candidate, left, right)
    else none
  | _, _ => none

/-- What is begun to be compared in the first `n` steps, in order. -/
def begun (s : State H) (height n : Nat) : List (SlotId × Fn × Fn) :=
  (List.range n).filterMap fun k => (s.after k).begins? height

theorem begun_succ (s : State H) (height n : Nat) :
    s.begun height (n + 1) = s.begun height n ++ ((s.after n).begins? height).toList := by
  unfold begun
  rw [List.range_succ, List.filterMap_append]
  congr 1

/-- In a stretch of steps of which none begins a comparison. -/
theorem begun_quiet {height k n : Nat} (hkn : k ≤ n)
    (h : ∀ j, k ≤ j → j < n → (s.after j).begins? height = none) :
    s.begun height n = s.begun height k := by
  induction n with
  | zero => rw [Nat.le_zero.1 hkn]
  | succ n ih =>
    rcases Nat.lt_or_eq_of_le hkn with hlt | rfl
    · have hk := Nat.le_of_lt_succ hlt
      rw [begun_succ, h n hk (Nat.lt_succ_self n), ih hk fun j hj hjn => h j hj (by omega)]
      exact List.append_nil _
    · rfl

/-- Frames that pass answers on end where code of the program begins. -/
theorem dropWhile_passers (held : List (List Ref)) {code : H.Code} {owned : List Ref}
    {rest : List (Frame H)} (hbelow : below = .user code owned :: rest) :
    (passers held ++ below).dropWhile Frame.passes = below := by
  subst hbelow
  rw [List.dropWhile_append_of_pos fun f hf => passes_of_mem_passers hf]
  rfl

/-- They do not reach below a frame of another kind. -/
theorem length_dropWhile {f : Frame H} {under frames : List (Frame H)} (h : f :: under <:+ frames)
    (hf : f.passes = false) : under.length < (frames.dropWhile Frame.passes).length := by
  obtain ⟨above, rfl⟩ := h
  induction above with
  | nil =>
    rw [List.nil_append, List.dropWhile_cons_of_neg (by simp [hf])]
    exact Nat.lt_succ_self _
  | cons g above ih =>
    rw [List.cons_append, List.dropWhile_cons]
    split
    · exact ih
    · simp only [List.length_cons, List.length_append]
      omega

theorem begins?_eq_none {height : Nat}
    (h : ∀ found rest, s.step.frames = .searching found :: rest → s.waiting.length ≤ rest.length →
      (rest.dropWhile Frame.passes).length ≠ height) : s.begins? height = none := by
  unfold begins?
  split
  · rename_i found rest _ hframes
    exact if_neg fun hcond => h found rest hframes hcond.1 hcond.2
  · rfl

/-- What is compared on top of another comparison is compared for somebody else. -/
theorem begins?_of_waiting {g : Frame H} {under : List (Frame H)} (hg : g.passes = false)
    (h : g :: under <:+ s.waiting) (hle : below.length ≤ under.length) :
    s.begins? below.length = none := by
  refine begins?_eq_none fun found rest hframes hshort heq => ?_
  have hwaiting := s.waiting_suffix_step
  rw [hframes] at hwaiting
  have hrest : s.waiting <:+ rest := by
    rcases List.suffix_cons_iff.1 hwaiting with hall | hrest
    · rw [hall, List.length_cons] at hshort
      omega
    · exact hrest
  have hhigh := length_dropWhile (h.trans hrest) hg
  omega

/-- Once the answer is decided, nothing is compared any more. -/
theorem Pending.begins? {q : Reply H.toVocabulary} (h : Pending q below s.step) {code : H.Code}
    {owned : List Ref} {under : List (Frame H)} (hbelow : below = .user code owned :: under) :
    s.begins? below.length = none := by
  refine begins?_eq_none fun found rest hframes _ heq => ?_
  cases h with
  | leaving _ todo held hsuffix =>
    rw [hframes] at hsuffix
    have hhigh := length_dropWhile (suffix_of_not_mem (p := [_]) hsuffix (by simp)) rfl
    rw [List.length_append] at hhigh
    omega
  | heard _ held hheard =>
    rw [hframes, hbelow] at hheard
    cases held with
    | nil => exact absurd (List.cons.inj hheard).1 (by simp)
    | cons first held => exact absurd (List.cons.inj hheard).1 (by simp)

/-! ## The course of a removal -/

variable {c : ChainId} {probe : Fn} {snapshot es : List (SlotId × Fn)} {e : SlotId × Fn}

/-- The coming step begins to compare the listener of `e` with `probe`, in that order, and touches no
    chain.  The entries `es` are left for later. -/
structure Begins (s : State H) (c : ChainId) (probe : Fn) (snapshot : List (SlotId × Fn))
    (under : List (Frame H)) (e : SlotId × Fn) (es : List (SlotId × Fn)) : Prop where
  mode : s.step.mode = .compare e.2 probe
  frames : s.step.frames = .searching ⟨c, probe, e.1, es, snapshot⟩ :: under
  scene : s.step.heap.scene = s.heap.scene
  /-- The frame is a new one. -/
  new : s.waiting.length ≤ under.length

/-- The coming step hears what the last comparison of a removal has come to, which was with the
    listener of slot `x`. -/
inductive Ends (s : State H) (c : ChainId) (x : SlotId) (below : List (Frame H)) :
    Reply H.toVocabulary → Prop
  /-- It was equal and is still linked: EXACTLY this slot is detached, and the answer is yes. -/
  | taken (hlinked : s.heap.scene.Linked c x)
      (hchange : Change (.detached c x) s.heap.scene s.step.heap.scene)
      (hlist : s.step.heap.listing c = (s.heap.listing c).filter fun e => decide (e.1 ≠ x))
      (hanswer : Promised (.flag true) below s.step) : Ends s c x below (.flag true)
  /-- It was equal and is not linked any more: no chain is touched, and the answer is no. -/
  | spent (hspent : ¬s.heap.scene.Linked c x) (hscene : s.step.heap.scene = s.heap.scene)
      (hanswer : Promised (.flag false) below s.step) : Ends s c x below (.flag true)
  /-- The comparison was unwound, and the removal is: no chain is touched. -/
  | unwound {f : Fault} (hscene : s.step.heap.scene = s.heap.scene)
      (hanswer : Promised (.fault f) below s.step) : Ends s c x below (.fault f)

/-- From step `k` on, in which a removal has these entries still before it: it compares those of
    `looked` and no others. -/
inductive Inspects (s : State H) (c : ChainId) (probe : Fn) (snapshot : List (SlotId × Fn))
    (held : List (List Ref)) (below : List (Frame H)) :
    Nat → List (SlotId × Fn) → List (SlotId × Fn) → Prop
  /-- None is left: no chain is touched, and the answer is no. -/
  | unmatched {k : Nat} (hscene : (s.after (k + 1)).heap.scene = (s.after k).heap.scene)
      (hanswer : Promised (.flag false) below (s.after (k + 1))) :
      Inspects s c probe snapshot held below k [] []
  /-- The next comparison never comes to an end. -/
  | endless {k : Nat} {e : SlotId × Fn} {es : List (SlotId × Fn)}
      (hbegins : (s.after k).Begins c probe snapshot (passers held ++ below) e es)
      (hopen : ∀ n r, ¬(s.after (k + 1)).Compared n r) :
      Inspects s c probe snapshot held below k (e :: es) [e]
  /-- The next comparison is the last one. -/
  | ended {k n : Nat} {e : SlotId × Fn} {es : List (SlotId × Fn)} {r : Reply H.toVocabulary}
      (hbegins : (s.after k).Begins c probe snapshot (passers held ++ below) e es)
      (hcompared : (s.after (k + 1)).Compared n r)
      (hends : (s.after (k + 1 + n)).Ends c e.1 below r) :
      Inspects s c probe snapshot held below k (e :: es) [e]
  /-- The next comparison says no, and the removal goes on with what comes after. -/
  | on {k n : Nat} {e : SlotId × Fn} {es looked : List (SlotId × Fn)} {r : Reply H.toVocabulary}
      (hbegins : (s.after k).Begins c probe snapshot (passers held ++ below) e es)
      (hcompared : (s.after (k + 1)).Compared n r) (hr : r.equal? = some false)
      (h : Inspects s c probe snapshot held below (k + 1 + n) es looked) :
      Inspects s c probe snapshot held below k (e :: es) (e :: looked)

/-! ### Every removal takes it -/

/-- The search hears something else than a no. -/
theorem ends_of_heard (hs : Reachable s) {found : Search} {r : Reply H.toVocabulary}
    (hframes : s.frames = .searching found :: (passers held ++ below)) (hmode : s.mode = .reply r)
    (hr : r.equal? ≠ some false) : s.Ends found.chain found.candidate below r := by
  let popped : State H := { s with frames := passers held ++ below }
  have hstep : s.step = popped.hear r (.searching found) := step_of_top hframes hmode
  cases r with
  | flag same =>
    cases same with
    | false => exact absurd rfl hr
    | true =>
      have hdetach : s.step = popped.detachFound found := hstep
      obtain ⟨-, hdone⟩ := popped.detachFound_over found
      rw [← hdetach] at hdone
      by_cases hlinked : s.heap.scene.Linked found.chain found.candidate
      · obtain ⟨chain, hc, hcontains⟩ := id hlinked
        rw [Heap.get?_scene_chains] at hc
        obtain ⟨todo, htop⟩ := popped.detachFound_frames found hc hcontains
        rw [← hdetach] at htop
        have hedit : s.edit = .detached found.chain found.candidate := by
          unfold edit
          rw [hmode, hframes]
        have hlist := hs.passes.lists found.chain (unlinks_of_detached hs hedit hlinked).stays
        rw [hedit, Edit.on, if_pos rfl] at hlist
        refine .taken hlinked ?_ hlist (promised_of_leaving htop hdone)
        have hscene : s.step.heap.scene =
            s.heap.scene.setChain found.chain (chain.detach found.candidate).2 := by
          rw [hdetach]
          unfold detachFound
          dsimp only
          rw [hc]
          dsimp only
          rw [if_pos hcontains]
          exact s.heap.scene_modifyChain found.chain _ hc
        rw [hscene]
        exact .detached (by rw [Heap.get?_scene_chains, hc]) hcontains
      · obtain ⟨todo, htop⟩ := popped.detachFound_frames_of_spent found hlinked
        rw [← hdetach] at htop
        refine .spent hlinked ?_ (promised_of_leaving htop hdone)
        rw [hdetach]
        unfold detachFound
        dsimp only
        split
        · rfl
        · rename_i chain hc
          have hgone : ¬chain.contains found.candidate = true := fun hcontains =>
            hlinked ⟨chain, (s.heap.get?_scene_chains found.chain).trans hc, hcontains⟩
          rw [if_neg hgone]
          rfl
  | fault f =>
    have hrelease : s.step =
        popped.release (found.snapshot.map fun e => .function e.2) (.fault f) := hstep
    exact .unwound (by rw [hrelease]; rfl)
      (promised_of_leaving (by rw [hrelease]; rfl) (by rw [hrelease]; rfl))
  | _ => exact absurd rfl hr

/-- Where a search goes on with the entries `es`, it takes its course. -/
theorem exists_inspects (hs : Reachable s) {k : Nat} (ht : t.frames = passers held ++ below)
    (hscene : t.heap.scene = (s.after k).heap.scene)
    (hnew : (s.after k).waiting.length ≤ (passers held ++ below).length)
    (hstep : s.after (k + 1) = t.search c probe snapshot es) :
    ∃ looked, s.Inspects c probe snapshot held below k es looked := by
  induction es generalizing k t with
  | nil =>
    have hframes : (s.after (k + 1)).frames = .releasing (snapshot.map fun e => .function e.2)
        (.flag false) :: (passers held ++ below) := by
      rw [hstep, ← ht]
      rfl
    have hmode : (s.after (k + 1)).mode = .reply .done := by
      rw [hstep]
      rfl
    exact ⟨[], .unmatched (by rw [hstep]; exact hscene) (promised_of_leaving hframes hmode)⟩
  | cons e es ih =>
    have hbegins : (s.after k).Begins c probe snapshot (passers held ++ below) e es := by
      refine ⟨?_, ?_, ?_, hnew⟩
      · rw [← after_succ, hstep]
        rfl
      · rw [← after_succ, hstep, ← ht]
        rfl
      · rw [← after_succ, hstep]
        exact hscene
    by_cases hover : ∃ n r, (s.after (k + 1)).Compared n r
    · obtain ⟨n, r, hcompared⟩ := hover
      have hmode : (s.after (k + 1 + n)).mode = .reply r := by rw [after_add, hcompared.mode]
      have hframes : (s.after (k + 1 + n)).frames =
          .searching ⟨c, probe, e.1, es, snapshot⟩ :: (passers held ++ below) := by
        rw [after_add, hcompared.frames]
        exact hbegins.frames
      by_cases hr : r.equal? = some false
      · let popped : State H := { s.after (k + 1 + n) with frames := passers held ++ below }
        have hgoes : s.after (k + 1 + n + 1) = popped.search c probe snapshot es := by
          rw [after_succ, step_of_top hframes hmode]
          exact hear_unequal popped _ hr
        have hwaiting : (s.after (k + 1 + n)).waiting = passers held ++ below := by
          unfold waiting
          rw [hmode, hframes]
          rfl
        obtain ⟨looked, hlooked⟩ := ih (t := popped) rfl rfl (Nat.le_of_eq (by rw [hwaiting])) hgoes
        exact ⟨e :: looked, .on hbegins hcompared hr hlooked⟩
      · exact ⟨[e], .ended hbegins hcompared (ends_of_heard (hs.after _) hframes hmode hr)⟩
    · push Not at hover
      exact ⟨[e], .endless hbegins hover⟩

/-! ### Nothing else is compared, or done -/

/-- What is compared is a beginning of what there was. -/
theorem Inspects.beginning {k : Nat} {looked : List (SlotId × Fn)}
    (h : s.Inspects c probe snapshot held below k es looked) : looked <+: es := by
  induction h with
  | unmatched => exact List.prefix_rfl
  | endless => exact ⟨_, rfl⟩
  | ended => exact ⟨_, rfl⟩
  | on _ _ _ _ ih => exact List.cons_prefix_cons.2 ⟨rfl, ih⟩

theorem Begins.begins? (h : s.Begins c probe snapshot (passers held ++ below) e es) {code : H.Code}
    {owned : List Ref} {under : List (Frame H)} (hbelow : below = .user code owned :: under) :
    s.begins? below.length = some (e.1, e.2, probe) := by
  unfold State.begins?
  rw [h.mode, h.frames]
  dsimp only
  rw [dropWhile_passers held hbelow]
  exact if_pos ⟨h.new, rfl⟩

/-- As long as a comparison is not over, the search waits for it. -/
theorem Begins.searching {k n : Nat} (hs : Reachable s)
    (h : (s.after k).Begins c probe snapshot (passers held ++ below) e es)
    (hopen : ∀ m < n, ∀ r, ¬(s.after (k + 1)).Compared m r) {j : Nat} (hj : k < j)
    (hjn : j < k + 1 + n) :
    .searching ⟨c, probe, e.1, es, snapshot⟩ :: (passers held ++ below) <:+ (s.after j).frames ∧
      ((s.after j).frames = .searching ⟨c, probe, e.1, es, snapshot⟩ :: (passers held ++ below) →
        ∀ r, (s.after j).mode ≠ .reply r) := by
  obtain ⟨i, rfl⟩ := Nat.exists_eq_add_of_le (Nat.succ_le_of_lt hj)
  rw [after_add]
  have hframes : (s.after (k + 1)).frames =
      .searching ⟨c, probe, e.1, es, snapshot⟩ :: (passers held ++ below) := h.frames
  rw [← hframes]
  refine ⟨suffix_of_not_compared (hs.after (k + 1)) h.mode fun m hm => hopen m (by omega), ?_⟩
  intro htop r hmode
  obtain ⟨m, hm, q, hcompared⟩ := exists_compared hmode htop
  exact hopen m (by omega) q hcompared

/-- Then it neither compares anything else nor does it do anything. -/
theorem Begins.quiet {k n : Nat} (hs : Reachable s)
    (h : (s.after k).Begins c probe snapshot (passers held ++ below) e es)
    (hopen : ∀ m < n, ∀ r, ¬(s.after (k + 1)).Compared m r) {j : Nat} (hj : k < j)
    (hjn : j < k + 1 + n) :
    (s.after j).begins? below.length = none ∧ ¬(s.after j).Serves below ∧
      (s.after j).frames ≠ below := by
  obtain ⟨hsuffix, hbusy⟩ := h.searching hs hopen hj hjn
  refine ⟨begins?_of_waiting rfl (suffix_waiting hsuffix hbusy) ?_, not_serves rfl hsuffix hbusy,
    ne_of_searching hsuffix⟩
  rw [List.length_append]
  omega

/-- An answer that is promised for a removal stays so until it is heard. -/
theorem Promised.until {q : Reply H.toVocabulary} {k : Nat} (h : Promised q below (s.after (k + 1)))
    {n : Nat} (hun : ∀ j, 0 < j → j < n → (s.after j).frames ≠ below) (hkn : k < n) :
    Pending q below (s.after n) :=
  h.after (fun j hj hjn => hun j (Nat.lt_of_lt_of_le (Nat.succ_pos k) hj) hjn) (Nat.succ_le_of_lt hkn)

/-- And nothing is compared in the meantime. -/
theorem Promised.begun {q : Reply H.toVocabulary} {k : Nat} (h : Promised q below (s.after (k + 1)))
    {n : Nat} (hun : ∀ j, 0 < j → j < n → (s.after j).frames ≠ below) {code : H.Code}
    {owned : List Ref} {under : List (Frame H)} (hbelow : below = .user code owned :: under)
    (hkn : k ≤ n) : s.begun below.length n = s.begun below.length k := by
  refine begun_quiet hkn fun j hkj hjn => ?_
  refine Pending.begins? (h.until (fun i hi hij => ?_) (Nat.lt_succ_of_le hkj)) hbelow
  exact hun i hi (Nat.lt_of_lt_of_le hij hjn)

/-- The last comparison decides, and one slot goes or none. -/
theorem Ends.decides {x : SlotId} {r : Reply H.toVocabulary} (h : s.Ends c x below r) :
    (∃ q, Promised q below s.step) ∧
      (s.heap.scene.Spares s.step.heap.scene ∨
        Change (.detached c x) s.heap.scene s.step.heap.scene) := by
  cases h with
  | taken _ hchange _ hanswer => exact ⟨⟨_, hanswer⟩, .inr hchange⟩
  | spent _ hscene hanswer => exact ⟨⟨_, hanswer⟩, .inl (.of_eq hscene)⟩
  | unwound hscene hanswer => exact ⟨⟨_, hanswer⟩, .inl (.of_eq hscene)⟩

/-- What is compared for a slot, and in which order. -/
def against (probe : Fn) (e : SlotId × Fn) : SlotId × Fn × Fn := (e.1, e.2, probe)

/-- As long as the removal has not been answered, what it has begun to compare is a beginning of what it
    ever compares; in the end it is all of it. -/
theorem Inspects.begun (hs : Reachable s) {k : Nat} {looked : List (SlotId × Fn)}
    (h : s.Inspects c probe snapshot held below k es looked) {n : Nat} (hkn : k < n)
    (hun : ∀ j, 0 < j → j < n → (s.after j).frames ≠ below) {code : H.Code} {owned : List Ref}
    {under : List (Frame H)} (hbelow : below = .user code owned :: under) :
    ∃ seen, s.begun below.length n = s.begun below.length k ++ seen.map (against probe) ∧
      seen <+: looked ∧ ((s.after n).frames = below → seen = looked) := by
  -- a comparison that is begun, and nothing else until it is over
  have hbegun {k m n : Nat} {e : SlotId × Fn} {es : List (SlotId × Fn)}
      (hbegins : (s.after k).Begins c probe snapshot (passers held ++ below) e es)
      (hopen : ∀ m' < m, ∀ r, ¬(s.after (k + 1)).Compared m' r) (hkn : k < n) (hnm : n ≤ k + 1 + m) :
      s.begun below.length n = s.begun below.length k ++ [against probe e] := by
    rw [begun_quiet (Nat.succ_le_of_lt hkn) fun j hj hjn =>
      (hbegins.quiet hs hopen hj (by omega)).1, begun_succ, hbegins.begins? hbelow]
    rfl
  induction h with
  | unmatched hscene hanswer =>
    refine ⟨[], ?_, List.prefix_rfl, fun _ => rfl⟩
    rw [hanswer.begun hun hbelow (Nat.le_of_lt hkn)]
    exact (List.append_nil _).symm
  | @endless k e es hbegins hopen =>
    exact ⟨[e], hbegun (m := n) hbegins (fun m' _ => hopen m') hkn (by omega), List.prefix_rfl,
      fun _ => rfl⟩
  | @ended k m e es r hbegins hcompared hends =>
    refine ⟨[e], ?_, List.prefix_rfl, fun _ => rfl⟩
    rcases Nat.le_total n (k + 1 + m) with hle | hge
    · exact hbegun hbegins hcompared.not_before hkn hle
    · obtain ⟨⟨q, hanswer⟩, -⟩ := hends.decides
      rw [hanswer.begun hun hbelow hge]
      exact hbegun hbegins hcompared.not_before (by omega) (Nat.le_refl _)
  | @on k m e es looked r hbegins hcompared hr _ ih =>
    rcases Nat.lt_or_ge (k + 1 + m) n with hlt | hle
    · obtain ⟨seen, hseen, hfront, hall⟩ := ih hlt
      refine ⟨e :: seen, ?_, List.cons_prefix_cons.2 ⟨rfl, hfront⟩, fun hn => by rw [hall hn]⟩
      rw [hseen, hbegun hbegins hcompared.not_before (by omega) (Nat.le_refl _), List.append_assoc]
      rfl
    · refine ⟨[e], hbegun hbegins hcompared.not_before hkn hle, ⟨looked, rfl⟩, fun hn => ?_⟩
      -- the search is still waiting for the comparison
      have hsuffix := hcompared.suffix (hs.after (k + 1)) hbegins.mode (j := n - (k + 1)) (by omega)
      rw [← after_add, Nat.add_sub_cancel' (Nat.succ_le_of_lt hkn), hn,
        show (s.after (k + 1)).frames = _ from hbegins.frames] at hsuffix
      exact absurd rfl (ne_of_searching hsuffix)

/-- A step that is done for the removal spares the chains, or it takes out the slot of the listener that
    was compared last. -/
theorem Inspects.spares (hs : Reachable s) {k : Nat} {looked : List (SlotId × Fn)}
    (h : s.Inspects c probe snapshot held below k es looked) {n : Nat} (hkn : k ≤ n)
    (hun : ∀ j, 0 < j → j ≤ n → (s.after j).frames ≠ below)
    (hserves : n = 0 ∨ (s.after n).Serves below) :
    (s.after n).heap.scene.Spares (s.after (n + 1)).heap.scene ∨
      ∃ front e, looked = front ++ [e] ∧
        Change (.detached c e.1) (s.after n).heap.scene (s.after (n + 1)).heap.scene := by
  have hserves' {k : Nat} (hkn : k < n) : (s.after n).Serves below :=
    hserves.resolve_left (by omega)
  induction h with
  | @unmatched k hscene hanswer =>
    rcases Nat.lt_or_eq_of_le hkn with hlt | rfl
    · have hpending := hanswer.until (fun j hj hjn => hun j hj (Nat.le_of_lt hjn)) hlt
      exact .inl (hpending.spares (hserves' hlt))
    · exact .inl (.of_eq hscene)
  | @endless k e es hbegins hopen =>
    rcases Nat.lt_or_eq_of_le hkn with hlt | rfl
    · exact absurd (hserves' hlt) (hbegins.quiet hs (n := n) (fun m _ => hopen m) hlt (by omega)).2.1
    · exact .inl (.of_eq hbegins.scene)
  | @ended k m e es r hbegins hcompared hends =>
    obtain ⟨⟨q, hanswer⟩, hchange⟩ := hends.decides
    rcases Nat.lt_or_eq_of_le hkn with hlt | rfl
    · rcases Nat.lt_trichotomy n (k + 1 + m) with hbefore | rfl | hafter
      · exact absurd (hserves' hlt) (hbegins.quiet hs hcompared.not_before hlt hbefore).2.1
      · exact hchange.imp id fun hdetached => ⟨[], e, rfl, hdetached⟩
      · have hpending := hanswer.until (k := k + 1 + m) (fun j hj hjn => hun j hj (Nat.le_of_lt hjn))
          hafter
        exact .inl (hpending.spares (hserves' hlt))
    · exact .inl (.of_eq hbegins.scene)
  | @on k m e es looked r hbegins hcompared hr _ ih =>
    rcases Nat.lt_or_eq_of_le hkn with hlt | rfl
    · rcases Nat.lt_or_ge n (k + 1 + m) with hbefore | hafter
      · exact absurd (hserves' hlt) (hbegins.quiet hs hcompared.not_before hlt hbefore).2.1
      · refine (ih hafter).imp id ?_
        rintro ⟨front, last, rfl, hdetached⟩
        exact ⟨e :: front, last, rfl, hdetached⟩
    · exact .inl (.of_eq hbegins.scene)

/-! ## What a removal does -/

/-- What comes of asking, in the coming step and for `below`, to remove a listener of chain `c` that is
    equal to `probe`. -/
structure Removal (s : State H) (c : ChainId) (probe : Fn) (below : List (Frame H))
    (held : List (List Ref)) (looked : List (SlotId × Fn)) : Prop where
  /-- It looks at the list once, now, and goes through it LAST entry first. -/
  course : s.Inspects c probe (s.heap.listing c).reverse held below 0 (s.heap.listing c).reverse looked
  /-- So what is compared was linked when the removal was asked for, and none twice. -/
  beginning : looked <+: (s.heap.listing c).reverse
  once : (looked.map (·.1)).Nodup
  /-- Until the removal is answered, nothing is compared for it that is not in the course. -/
  begun_before : ∀ n, (∀ j, 0 < j → j < n → (s.after j).frames ≠ below) →
    s.begun below.length n <+: looked.map (against probe)
  /-- When it is answered, the course is complete. -/
  begun_answered : ∀ n r, s.Answered below n r →
    s.begun below.length n = looked.map (against probe)
  /-- A step that is done for it spares the chains, or it takes out the slot of the listener that was
      compared last. -/
  spares : ∀ n, (∀ j, 0 < j → j ≤ n → (s.after j).frames ≠ below) →
    (n = 0 ∨ (s.after n).Serves below) →
    (s.after n).heap.scene.Spares (s.after (n + 1)).heap.scene ∨
      ∃ front e, looked = front ++ [e] ∧
        Change (.detached c e.1) (s.after n).heap.scene (s.after (n + 1)).heap.scene

end State

/-- Listeners `a` and `b` have different keys, and to compare `b` the chain is cleared and `a` is added
    again. -/
def Script.refilled : Script.Program Unit :=
  [ .define "a" (.keyed ⟨"a", [], none⟩ ⟨.a, 1, none⟩ (.custom .loud)),
    .add "a" none (some .back),
    .define "b" (.keyed ⟨"b", [], none⟩
      ⟨.a, 2, some [.clear none, .add "a" none (some .back)]⟩ (.custom .loud)),
    .add "b" none (some .back),
    .remove "a" none ]

theorem State.exists_seeks {s : State H} (c : ChainId) (probe : Fn)
    (h : (s.asking.bind fun q => q.1.search? s.heap) = some (c, probe)) :
    ∃ below, s.Seeks c probe below := by
  obtain ⟨⟨rq, below⟩, hasking, hrq⟩ := Option.bind_eq_some_iff.1 h
  exact ⟨below, rq, State.asks_of_asking hasking, hrq⟩

end Relay
