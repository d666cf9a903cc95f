/-
  Searching without EFFECTS.

  In general a search runs code of the program between any two of its entries.  Here that code has no
  effect: it asks the library for nothing, and says yes or no (`Tells`).  Then a search is what it looks
  like: it goes through its entries one after the other, up to the first that is equal, and nothing that
  is stored is touched on the way (`State.search_told`).
-/
import Relay.Proofs.Inspection

namespace Relay

variable {H : Host}

/-! ## Code without effects -/

/-- The code, started in this memory, asks the library for nothing and comes back with `b`, and what it
    leaves is a memory of the kind `keeps`. -/
inductive Tells (keeps : H.Memory → Prop) (b : Bool) : H.Code → H.Memory → Prop
  | finishes {code : H.Code} {memory : H.Memory}
      (hact : (H.resume code .done memory).act = .finish (.flag b))
      (hkeeps : keeps (H.resume code .done memory).memory) : Tells keeps b code memory
  | pauses {code code' : H.Code} {memory : H.Memory}
      (hact : (H.resume code .done memory).act = .pause code')
      (h : Tells keeps b code' (H.resume code .done memory).memory) : Tells keeps b code memory

/-- In every memory of this kind, the rule's code tells what `holds` relates and has no other effect. -/
def Host.Candid (H : Host) (keeps : H.Memory → Prop)
    (holds : Rule H.Custom → H.Native → H.Native → Prop) (rule : Rule H.Custom) (m n : H.Native) :
    Prop :=
  ∀ memory, keeps memory →
    ∃ b, (b = true ↔ holds rule m n) ∧ Tells keeps b (H.onCompare rule m n) memory

namespace State

variable {t u : State H} {keeps : H.Memory → Prop} {under : List (Frame H)} {b : Bool} {n : Nat}

/-- A stretch in which nothing happens to what is stored, and another one after it. -/
theorem heap_after_add {k : Nat} (h : ∀ j, j ≤ k → (t.after j).heap = t.heap)
    (h' : ∀ j, j ≤ n → ((t.after k).after j).heap = (t.after k).heap) {j : Nat} (hj : j ≤ k + n) :
    (t.after j).heap = t.heap := by
  rcases Nat.le_total j k with hle | hge
  · exact h j hle
  · obtain ⟨i, rfl⟩ := Nat.exists_eq_add_of_le hge
    rw [after_add, h' i (by omega), h k (Nat.le_refl k)]

/-- After `n` steps `under` hears `b`, and nothing has happened to what is stored. -/
structure ComesBack (t : State H) (keeps : H.Memory → Prop) (under : List (Frame H)) (n : Nat)
    (b : Bool) : Prop where
  mode : (t.after n).mode = .reply (.flag b)
  frames : (t.after n).frames = under
  memory : keeps (t.after n).memory
  heap : ∀ j, j ≤ n → (t.after j).heap = t.heap

theorem ComesBack.of_after {k : Nat} (h : (t.after k).ComesBack keeps under n b)
    (hheap : ∀ j, j ≤ k → (t.after j).heap = t.heap) : t.ComesBack keeps under (k + n) b where
  mode := by rw [after_add, h.mode]
  frames := by rw [after_add, h.frames]
  memory := by rw [after_add]; exact h.memory
  heap := fun _ hj => heap_after_add hheap h.heap hj

/-- Along the turns of the code: only the memory and the stack change. -/
theorem comes_back {code : H.Code} {memory : H.Memory} (h : Tells keeps b code memory)
    (hmode : t.mode = .reply .done) (hframes : t.frames = .user code [] :: under)
    (hmemory : t.memory = memory) : ∃ n, t.ComesBack keeps under n b := by
  induction h generalizing t with
  | @finishes code memory hact hkeeps =>
    subst hmemory
    let popped : State H := { t with frames := under }
    have hstep : t.step = popped.takeTurn code [] .done := step_of_top hframes hmode
    unfold takeTurn at hstep
    rw [show popped.memory = t.memory from rfl] at hstep
    dsimp only at hstep
    rw [hact] at hstep
    -- the code has ended, and it owned nothing that would have to be let go of
    let ended : State H := { t.step with frames := under }
    have htop : t.step.frames = .releasing [] (.flag b) :: under := by rw [hstep]; rfl
    have hdone : t.step.mode = .reply .done := by rw [hstep]; rfl
    have hlast : t.step.step = ended.answer (.flag b) := step_of_top htop hdone
    have hheap : t.step.heap = t.heap := by rw [hstep]; rfl
    refine ⟨2, ?_, ?_, ?_, fun j hj => ?_⟩
    · show t.step.step.mode = _
      rw [hlast]
      rfl
    · show t.step.step.frames = _
      rw [hlast]
      rfl
    · show keeps t.step.step.memory
      rw [hlast]
      show keeps t.step.memory
      rw [hstep]
      exact hkeeps
    · match j, hj with
      | 0, _ => rfl
      | 1, _ => exact hheap
      | 2, _ =>
        show t.step.step.heap = _
        rw [hlast]
        exact hheap
  | @pauses code code' memory hact _ ih =>
    subst hmemory
    let popped : State H := { t with frames := under }
    have hstep : t.step = popped.takeTurn code [] .done := step_of_top hframes hmode
    unfold takeTurn at hstep
    rw [show popped.memory = t.memory from rfl] at hstep
    dsimp only at hstep
    rw [hact] at hstep
    obtain ⟨n, hback⟩ := ih (t := t.step) (by rw [hstep]; rfl) (by rw [hstep]; rfl)
      (by rw [hstep]; rfl)
    refine ⟨1 + n, ComesBack.of_after (k := 1) hback fun j hj => ?_⟩
    match j, hj with
    | 0, _ => rfl
    | 1, _ =>
      show t.step.heap = _
      rw [hstep]
      rfl

variable {holds : Rule H.Custom → H.Native → H.Native → Prop} {f g probe : Fn} {c : ChainId}
  {ps : List (PayloadId × PayloadId)} {d : Decision H.toVocabulary}
  {snapshot es : List (SlotId × Fn)}

/-- A comparison comes back with what it is decided by. -/
theorem compare_told (ht : Reachable t) (hmode : t.mode = .compare f g)
    (hd : t.heap.Decides f g ps d) (hkeeps : keeps t.memory)
    (hcandid : ∀ rule m n, d = .asks rule m n → H.Candid keeps holds rule m n) :
    ∃ n b, (b = true ↔ d.comesTo holds) ∧ t.ComesBack keeps t.frames n b := by
  obtain ⟨m, hcourse, -, hafter⟩ := course ht hd rfl hmode
  have hheap : ∀ j, j ≤ m + 1 → (t.after j).heap = t.heap := by
    intro j hj
    rcases Nat.lt_or_eq_of_le hj with hlt | rfl
    · obtain ⟨a, b, heq⟩ := hcourse j (Nat.le_of_lt_succ hlt)
      rw [heq]
    · rw [hafter]
      cases d <;> rfl
  cases d with
  | settled same =>
    refine ⟨m + 1, same, Iff.rfl, ?_, ?_, ?_, hheap⟩
    · rw [hafter]; rfl
    · rw [hafter]; rfl
    · rw [hafter]; exact hkeeps
  | asks rule l r =>
    obtain ⟨b, hb, htells⟩ := hcandid rule l r rfl t.memory hkeeps
    obtain ⟨n, hback⟩ : ∃ n, (t.after (m + 1)).ComesBack keeps t.frames n b :=
      comes_back htells (by rw [hafter]; rfl) (by rw [hafter]; rfl) (by rw [hafter]; rfl)
    exact ⟨m + 1 + n, b, hb, hback.of_after hheap⟩

/-- How a search above `under` that begins in `u` ends, if `P` holds of the listeners that are equal. -/
inductive SearchEnds (u : State H) (c : ChainId) (probe : Fn) (snapshot : List (SlotId × Fn))
    (under : List (Frame H)) (P : Fn → Prop) (es : List (SlotId × Fn)) : Prop
  /-- After `n` steps it hears a yes, and all before was a no. -/
  | found {skipped rest : List (SlotId × Fn)} {e : SlotId × Fn} (n : Nat)
      (hes : es = skipped ++ e :: rest) (hskipped : ∀ e' ∈ skipped, ¬P e'.2) (he : P e.2)
      (hheap : ∀ j, j ≤ n → (u.after j).heap = u.heap)
      (hmode : (u.after n).mode = .reply (.flag true))
      (hframes : (u.after n).frames = .searching ⟨c, probe, e.1, rest, snapshot⟩ :: under)
  | unmatched (n : Nat) (hnone : ∀ e ∈ es, ¬P e.2)
      (hheap : ∀ j, j ≤ n → (u.after j).heap = u.heap) (hmode : (u.after n).mode = .reply .done)
      (hframes : (u.after n).frames =
        .releasing (snapshot.map fun e => .function e.2) (.flag false) :: under)

/-- The first entry does not match, and the search goes on with the others. -/
theorem SearchEnds.skip {P : Fn → Prop} {e : SlotId × Fn} {k : Nat}
    (h : (u.after k).SearchEnds c probe snapshot under P es) (hno : ¬P e.2)
    (hheap : ∀ j, j ≤ k → (u.after j).heap = u.heap) :
    u.SearchEnds c probe snapshot under P (e :: es) := by
  have hall {skipped : List (SlotId × Fn)} (h : ∀ e' ∈ skipped, ¬P e'.2) :
      ∀ e' ∈ e :: skipped, ¬P e'.2 := by
    intro e' he'
    rcases List.mem_cons.1 he' with rfl | hm
    · exact hno
    · exact h e' hm
  cases h with
  | @found skipped rest e' n hes hskipped he' hquiet hmode hframes =>
    have hsplit : e :: es = (e :: skipped) ++ e' :: rest := by rw [hes]; rfl
    refine .found (k + n) hsplit (hall hskipped) he' (fun _ hj => heap_after_add hheap hquiet hj) ?_ ?_
    · rw [after_add, hmode]
    · rw [after_add, hframes]
  | unmatched n hnone hquiet hmode hframes =>
    refine .unmatched (k + n) (hall hnone) (fun _ hj => heap_after_add hheap hquiet hj) ?_ ?_
    · rw [after_add, hmode]
    · rw [after_add, hframes]

/-- A search goes through its entries one after the other, up to the first that matches. -/
theorem search_told {P : Fn → Prop} (hu : Reachable u) (hsearch : u = t.search c probe snapshot es)
    (hkeeps : keeps u.memory)
    (hdecides : ∀ e ∈ es, ∃ ps d, u.heap.Decides e.2 probe ps d ∧ (d.comesTo holds ↔ P e.2) ∧
      ∀ rule m n, d = .asks rule m n → H.Candid keeps holds rule m n) :
    u.SearchEnds c probe snapshot t.frames P es := by
  induction es generalizing t u with
  | nil =>
    refine .unmatched 0 (by simp) (fun j hj => by rw [Nat.le_zero.1 hj]; rfl) ?_ ?_
    · rw [hsearch]; rfl
    · rw [hsearch]; rfl
  | cons e es ih =>
    obtain ⟨ps, d, hd, hP, hcandid⟩ := hdecides e List.mem_cons_self
    have hcompare : u.mode = .compare e.2 probe := by rw [hsearch]; rfl
    have htop : u.frames = .searching ⟨c, probe, e.1, es, snapshot⟩ :: t.frames := by
      rw [hsearch]; rfl
    obtain ⟨n, b, hb, hback⟩ := compare_told hu hcompare hd hkeeps hcandid
    have hframes := hback.frames.trans htop
    cases b with
    | true =>
      exact .found n (List.nil_append _).symm (by simp) (hP.1 (hb.1 rfl)) hback.heap hback.mode hframes
    | false =>
      have hno : ¬P e.2 := fun he => Bool.false_ne_true (hb.2 (hP.2 he))
      -- it goes on with the next entry
      let popped : State H := { u.after n with frames := t.frames }
      have hnext : u.after (n + 1) = popped.search c probe snapshot es := by
        rw [after_succ, step_of_top hframes hback.mode]
        exact hear_unequal popped _ rfl
      have hsame : (u.after (n + 1)).heap = u.heap := by
        rw [hnext]
        cases es <;> exact hback.heap n (Nat.le_refl n)
      have hrest := ih (t := popped) (hu.after (n + 1)) hnext (by
        rw [hnext]
        cases es <;> exact hback.memory) fun e' he' => by
          rw [hsame]
          exact hdecides e' (List.mem_cons_of_mem _ he')
      refine hrest.skip hno fun j hj => ?_
      rcases Nat.lt_or_eq_of_le hj with hlt | rfl
      · exact hback.heap j (Nat.le_of_lt_succ hlt)
      · exact hsame

end State

/-! ## Scripts -/

/-- The flag with which a turn ends. -/
def Act.flag? {T : Vocabulary} {κ : Type} : Act T κ → Option Bool
  | .finish (.flag b) => some b
  | _ => none

namespace Script

variable {V : Type} [DecidableEq V] [Argument V]

/-- Comparing with this callable on the left runs no script. -/
def Native.quiet : Native V → Bool
  | .keyed _ _ k => k.onCompare.isNone
  | _ => true

/-- A comparison says yes in its first turn, whatever is remembered. -/
def Says (rule : Rule KeyRule) (l r : Native V) : Prop :=
  ∀ memory, (Native.compare memory rule l r).act.flag? = some true

/-- Quiet callables are compared without any effect, for as long as there is fuel. -/
theorem candid_of_quiet (rule : Rule KeyRule) {l : Native V} (hl : l.quiet = true) (r : Native V) :
    (host V).Candid (fun memory : Memory => memory.exhausted = false) Says rule l r := by
  intro memory hmemory
  have hresume : (host V).resume (Code.compare rule l r) .done memory =
      Native.compare memory rule l r := if_neg (by rw [hmemory]; exact Bool.false_ne_true)
  have hsays : ∃ b, ∀ m, (Native.compare m rule l r).act = .finish (.flag b) ∧
      (Native.compare m rule l r).memory = m := by
    unfold Native.compare
    split
    · rename_i lk _ _ _
      rw [Option.isNone_iff_eq_none.1 hl]
      exact ⟨_, fun m => ⟨rfl, rfl⟩⟩
    · exact ⟨_, fun m => ⟨rfl, rfl⟩⟩
  obtain ⟨b, hb⟩ := hsays
  refine ⟨b, ?_, .finishes ?_ ?_⟩
  · constructor
    · intro htrue m
      rw [(hb m).1, htrue]
      rfl
    · intro hsays
      have hflag := hsays memory
      rw [(hb memory).1] at hflag
      exact Option.some.inj hflag
  · exact (congrArg Turn.act hresume).trans (hb memory).1
  · show ((host V).resume (Code.compare rule l r) .done memory).memory.exhausted = false
    rw [hresume, (hb memory).2]
    exact hmemory

end Script

end Relay
