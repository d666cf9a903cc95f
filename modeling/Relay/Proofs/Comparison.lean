/-
  What happens while two functions are COMPARED.

  The course of a comparison (`Heap.Decides`) is what a run does: it puts the pairs of the course before
  their rules, each once, and nothing else happens on the way.  Then it has an answer, or the code of a
  rule is started; the answer is what that code comes back with, and whatever the code does, nothing
  more is put before a rule for this comparison.

  This holds for every comparison that is made, be it that somebody asks whether two functions are the
  same or that a listener is looked for in a chain.
-/
import Relay.Proofs.Decision
import Relay.Proofs.Settling

namespace Relay

variable {H : Host}

/-! ## What is put before the rules in a run -/

/-- Which functions are about to be compared. -/
def Mode.pair? : Mode H → Option (Fn × Fn)
  | .compare f g => some (f, g)
  | _ => none

theorem Mode.eq_of_pair? {m : Mode H} {f g : Fn} (h : m.pair? = some (f, g)) : m = .compare f g := by
  unfold pair? at h
  split at h
  · rw [(Prod.mk.inj (Option.some.inj h)).1, (Prod.mk.inj (Option.some.inj h)).2]
  · exact absurd h (by simp)

namespace State

/-- The two callables that the coming step puts before their rule, for a comparison under which so many
    calls are in progress. -/
def puts? (s : State H) (height : Nat) : Option (PayloadId × PayloadId) :=
  match s.mode with
  | .compare (some p) (some q) =>
    if s.frames.length = height ∧
        judge (s.heap.stored (some p)) (s.heap.stored (some q)) = .consult then some (p, q)
    else none
  | _ => none

/-- What is put before the rules in the first `n` steps, in order. -/
def consulted (s : State H) (height n : Nat) : List (PayloadId × PayloadId) :=
  (List.range n).filterMap fun k => (s.after k).puts? height

variable {s t : State H} {f g : Fn}

theorem consulted_succ (s : State H) (height n : Nat) :
    s.consulted height (n + 1) = s.consulted height n ++ ((s.after n).puts? height).toList := by
  unfold consulted
  rw [List.range_succ, List.filterMap_append]
  congr 1

theorem consulted_one_add (s : State H) (height n : Nat) :
    s.consulted height (1 + n) = (s.puts? height).toList ++ s.step.consulted height n := by
  induction n with
  | zero => exact (s.consulted_succ height 0).trans (List.append_nil _).symm
  | succ n ih =>
    rw [← Nat.add_assoc, consulted_succ, ih, consulted_succ, after_one_add, List.append_assoc]

/-- Callables of one type and one rule are put before the rule. -/
theorem puts?_of_alike {p q : PayloadId} {l r : Payload H.toVocabulary}
    (halike : t.heap.rack.Alike p q l r) (hmode : t.mode = .compare (some p) (some q)) :
    t.puts? t.frames.length = some (p, q) := by
  unfold puts?
  rw [hmode]
  exact if_pos ⟨rfl, (Rack.judge_eq_consult (some p) (some q)).2 ⟨p, q, l, r, rfl, rfl, halike⟩⟩

/-- Nothing else is. -/
theorem puts?_of_unlike (height : Nat) (hmode : t.mode = .compare f g)
    (hunlike : ¬∃ p q l r, f = some p ∧ g = some q ∧ t.heap.rack.Alike p q l r) :
    t.puts? height = none := by
  unfold puts?
  rw [hmode]
  cases f with
  | none => rfl
  | some p =>
    cases g with
    | none => rfl
    | some q =>
      refine if_neg fun hcond => hunlike ?_
      exact (Rack.judge_eq_consult (s := t.heap.rack) (some p) (some q)).1 hcond.2

/-- Nor is anything while more calls are in progress. -/
theorem puts?_of_lt {height : Nat} (h : height < s.frames.length) : s.puts? height = none := by
  unfold puts?
  split
  · exact if_neg fun hcond => Nat.ne_of_gt h hcond.1
  · rfl

/-- Where a comparison gets by its decision. -/
def decided (t : State H) : Decision H.toVocabulary → State H
  | .settled same => t.answer (.flag same)
  | .asks rule l r => (t.push (.user (H.onCompare rule l r) [])).answer .done

/-- Two callables of one type and one rule are put before the rule. -/
theorem compare_alike (t : State H) {p q : PayloadId} {l r : Payload H.toVocabulary}
    (halike : t.heap.rack.Alike p q l r) :
    t.compare (some p) (some q) =
      match l.rule, l.body, r.body with
      | .identity, _, _ => t.answer (.flag false)
      | _, .simple a, .simple b => { t with mode := .compare a b }
      | rule, .native m _, .native n _ => t.decided (.asks rule m n)
      | _, _, _ => t.answer (.flag false) := by
  have hconsult : judge (t.heap.stored (some p)) (t.heap.stored (some q)) = .consult :=
    (Rack.judge_eq_consult (some p) (some q)).2 ⟨p, q, l, r, rfl, rfl, halike⟩
  have hl : t.heap.payloads.get? p = some l := halike.left
  have hr : t.heap.payloads.get? q = some r := halike.right
  unfold compare
  rw [hconsult, Option.bind_some, Option.bind_some, hl, hr]
  rfl

/-- The program's own callables are put before the rule's code. -/
theorem compare_native (t : State H) {p q : PayloadId} {l r : Payload H.toVocabulary}
    (halike : t.heap.rack.Alike p q l r) (hrule : l.rule ≠ .identity) {m n : H.Native}
    {ks ks' : List HandleId} (hl : l.body = .native m ks) (hr : r.body = .native n ks') :
    t.compare (some p) (some q) = t.decided (.asks l.rule m n) := by
  rw [t.compare_alike halike]
  obtain ⟨body, rule⟩ := l
  obtain ⟨body', rule'⟩ := r
  subst hl hr
  cases rule with
  | identity => exact absurd rfl hrule
  | _ => rfl

/-- Of two listeners around functions, these are compared. -/
theorem compare_simple (t : State H) {p q : PayloadId} {l r : Payload H.toVocabulary}
    (halike : t.heap.rack.Alike p q l r) (hrule : l.rule ≠ .identity) {a b : Fn}
    (hl : l.body = .simple a) (hr : r.body = .simple b) :
    t.compare (some p) (some q) = { t with mode := .compare a b } := by
  rw [t.compare_alike halike]
  obtain ⟨body, rule⟩ := l
  obtain ⟨body', rule'⟩ := r
  subst hl hr
  cases rule with
  | identity => exact absurd rfl hrule
  | _ => rfl

/-- Functions that are one are found to be equal by themselves. -/
theorem compare_one (t : State H) {f g : Fn} (hone : t.heap.rack.One f g) :
    t.compare f g = t.decided (.settled true) := by
  have hsettled : judge (t.heap.stored f) (t.heap.stored g) = .settled true := Rack.judge_of_one hone
  unfold compare
  rw [hsettled]
  rfl

/-- Functions that are neither one nor alike are told apart by themselves. -/
theorem compare_other (t : State H) {f g : Fn} (hother : ¬t.heap.rack.One f g)
    (hunlike : ¬∃ p q l r, f = some p ∧ g = some q ∧ t.heap.rack.Alike p q l r) :
    t.compare f g = t.decided (.settled false) := by
  have hsettled : judge (t.heap.stored f) (t.heap.stored g) = .settled false :=
    Rack.judge_of_other hother hunlike
  unfold compare
  rw [hsettled]
  rfl

/-- A comparison takes its course step by step, and nothing else happens on the way. -/
theorem course {t : State H} (ht : Reachable t) {h : Heap H.toVocabulary}
    {ps : List (PayloadId × PayloadId)} {d : Decision H.toVocabulary} (hd : h.Decides f g ps d)
    (hheap : t.heap = h) (hmode : t.mode = .compare f g) :
    ∃ m, (∀ i ≤ m, ∃ a b, t.after i = { t with mode := .compare a b }) ∧
      t.consulted t.frames.length (m + 1) = ps ∧ t.after (m + 1) = t.decided d := by
  have hstart {t : State H} {f g : Fn} (hmode : t.mode = .compare f g) :
      t.step = t.compare f g ∧ ∃ a b, t.after 0 = { t with mode := .compare a b } := by
    constructor
    · unfold step
      rw [hmode]
    · refine ⟨f, g, ?_⟩
      rw [← hmode]
      rfl
  -- a comparison that is over at once
  have hatonce {t : State H} {f g : Fn} (hmode : t.mode = .compare f g)
      {d : Decision H.toVocabulary} (hcompare : t.compare f g = t.decided d)
      {ps : List (PayloadId × PayloadId)} (hputs : (t.puts? t.frames.length).toList = ps) :
      ∃ m, (∀ i ≤ m, ∃ a b, t.after i = { t with mode := .compare a b }) ∧
        t.consulted t.frames.length (m + 1) = ps ∧ t.after (m + 1) = t.decided d := by
    obtain ⟨hstep, hfirst⟩ := hstart hmode
    refine ⟨0, fun i hi => ?_, ?_, hstep.trans hcompare⟩
    · rw [Nat.le_zero.1 hi]
      exact hfirst
    · exact (t.consulted_succ _ 0).trans hputs
  induction hd generalizing t with
  | one hone =>
    subst hheap
    refine hatonce hmode (t.compare_one hone) ?_
    rw [puts?_of_unlike _ hmode]
    · rfl
    · rintro ⟨p, q, l, r, rfl, rfl, halike⟩
      exact halike.not_one hone
  | other hother hunlike =>
    subst hheap
    refine hatonce hmode (t.compare_other hother hunlike) ?_
    rw [puts?_of_unlike _ hmode hunlike]
    rfl
  | never halike hrule =>
    subst hheap
    refine hatonce hmode ?_ ?_
    · rw [t.compare_alike halike, hrule]
      rfl
    · rw [puts?_of_alike halike hmode]
      rfl
  | rule halike hrule hl hr =>
    subst hheap
    refine hatonce hmode (t.compare_native halike hrule hl hr) ?_
    rw [puts?_of_alike halike hmode]
    rfl
  | @inside p q l r a b ps d halike hrule hl hr hinside ih =>
    subst hheap
    obtain ⟨hstep, hfirst⟩ := hstart hmode
    have hnext : t.step = { t with mode := .compare a b } :=
      hstep.trans (t.compare_simple halike hrule hl hr)
    have ht' : Reachable ({ t with mode := .compare a b } : State H) := hnext ▸ ht.step
    obtain ⟨m, hcourse, hconsulted, hafter⟩ := ih ht' rfl rfl
    refine ⟨1 + m, fun i hi => ?_, ?_, ?_⟩
    · cases i with
      | zero => exact hfirst
      | succ i =>
        rw [Nat.add_comm i 1, after_one_add, hnext]
        exact hcourse i (by omega)
    · rw [Nat.add_assoc, consulted_one_add, hnext, puts?_of_alike halike hmode]
      exact congrArg ((p, q) :: ·) hconsulted
    · rw [Nat.add_assoc, after_one_add, hnext, hafter]
      cases d <;> rfl

/-! ## Code that has the last word -/

/-- Code that was started above `under` has not come back: it is there, or what it owned is being let go
    of. -/
inductive Works (under : List (Frame H)) (s : State H) : Prop
  | code (code : H.Code) (owned : List Ref) (h : .user code owned :: under <:+ s.frames)
  | leaving (todo : List Ref) (r : Reply H.toVocabulary)
      (h : .releasing todo r :: under <:+ s.frames)

namespace Works

variable {under : List (Frame H)}

theorem suffix (h : Works under s) : under <:+ s.frames := by
  cases h with
  | code code owned h => exact (List.suffix_cons _ _).trans h
  | leaving todo r h => exact (List.suffix_cons _ _).trans h

theorem length_lt (h : Works under s) : under.length < s.frames.length := by
  cases h with
  | code code owned h => exact h.length_le
  | leaving todo r h => exact h.length_le

/-- In a step it goes on working, or it comes back with an answer. -/
theorem step (h : Works under s) :
    Works under s.step ∨ ∃ r, s.step.frames = under ∧ s.step.mode = .reply r := by
  cases h with
  | code code owned h =>
    by_cases hbusy : s.frames = .user code owned :: under → ∀ r, s.mode ≠ .reply r
    · exact .inl (.code code owned (suffix_step h hbusy))
    · push Not at hbusy
      obtain ⟨hframes, r, hmode⟩ := hbusy
      let popped : State H := { s with frames := under }
      have hstep : s.step = popped.takeTurn code owned r := step_of_top hframes hmode
      rw [hstep]
      unfold takeTurn
      dsimp only
      left
      split
      · exact .leaving owned _ List.suffix_rfl
      · exact .code _ owned List.suffix_rfl
      · rename_i rq code' _
        let asks : State H := State.push ⟨popped.heap, (H.resume code r popped.memory).memory,
          ((H.resume code r popped.memory).said.map Note.said).reverse ++ popped.journal,
          popped.frames, popped.mode⟩ (.user code' owned)
        obtain ⟨deed, -, hdoes⟩ := asks.ask_does rq
        obtain ⟨pushed, hpushed, -⟩ := hdoes.entries
        refine .code code' owned ?_
        rw [show (State.ask _ rq).frames = pushed ++ asks.frames from hpushed]
        exact List.suffix_append _ _
  | leaving todo r h =>
    by_cases hbusy : s.frames = .releasing todo r :: under → ∀ r', s.mode ≠ .reply r'
    · exact .inl (.leaving todo r (suffix_step h hbusy))
    · push Not at hbusy
      obtain ⟨hframes, r', hmode⟩ := hbusy
      let popped : State H := { s with frames := under }
      have hstep : s.step = popped.hear r' (.releasing todo r) := step_of_top hframes hmode
      rw [hstep]
      rcases popped.hear_releasing r' todo r with ⟨q, -, hgoes⟩ | ⟨-, hstands⟩
      · rw [hgoes]
        rcases popped.releaseNext_cases todo q with ⟨todo', htodo⟩ | hanswer
        · exact .inl (.leaving todo' q htodo)
        · rw [hanswer]
          exact .inr ⟨q, rfl, rfl⟩
      · rw [hstands]
        exact .inl (.leaving todo r List.suffix_rfl)

/-- In a run it goes on working, or it has come back at some time. -/
theorem after (h : Works under s) (n : Nat) :
    (∀ k ≤ n, Works under (s.after k)) ∨ ∃ m ≤ n, ∃ r, s.Answered under m r := by
  induction n with
  | zero =>
    left
    intro k hk
    rw [Nat.le_zero.1 hk]
    exact h
  | succ n ih =>
    rcases ih with hworks | ⟨m, hm, r, hanswer⟩
    · rcases (hworks n (Nat.le_refl n)).step with hgoes | ⟨r, hframes, hmode⟩
      · left
        intro k hk
        rcases Nat.lt_or_eq_of_le hk with hlt | rfl
        · exact hworks k (Nat.le_of_lt_succ hlt)
        · exact hgoes
      · right
        refine ⟨n + 1, Nat.le_refl _, r, Nat.succ_pos n, hmode, hframes, fun j _ hj heq => ?_⟩
        have hlength := (hworks j (Nat.le_of_lt_succ hj)).length_lt
        rw [heq] at hlength
        exact absurd hlength (Nat.lt_irrefl _)
    · exact .inr ⟨m, Nat.le_succ_of_le hm, r, hanswer⟩

end Works

/-! ## What a comparison comes to -/

/-- The comparison that begins in `t` is over after `n` steps, and comes to `r`: whoever waits for it
    hears an answer for the first time. -/
structure Compared (t : State H) (n : Nat) (r : Reply H.toVocabulary) : Prop where
  mode : (t.after n).mode = .reply r
  frames : (t.after n).frames = t.frames
  first : ∀ j < n, (t.after j).frames = t.frames → ∀ q, (t.after j).mode ≠ .reply q

/-- The comparison of `f` and `g` that begins in `t` puts these pairs before their rules, and is decided
    so. -/
structure Equates (t : State H) (f g : Fn) (ps : List (PayloadId × PayloadId))
    (d : Decision H.toVocabulary) : Prop where
  decides : t.heap.Decides f g ps d
  /-- No pair is put before its rule twice. -/
  once : ps.Pairwise fun a b => b.1 < a.1 ∧ b.2 < a.2
  /-- Some time before the comparison is over these pairs have been put before their rules, and from
      then on nothing is, however long it takes. -/
  consulted : ∃ m, (∀ k < m, ∀ r, ¬t.Compared k r) ∧
    ∀ n, m ≤ n → (∀ k < n, ∀ r, ¬t.Compared k r) → t.consulted t.frames.length n = ps
  /-- If nobody has to be asked, the comparison is over at once, and nothing else has happened. -/
  settled : ∀ same, d = .settled same → ∃ n, t.Compared n (.flag same) ∧
    t.after n = t.answer (.flag same)
  /-- Else the code of the rule is started, and what it comes back with is what the comparison comes
      to. -/
  asked : ∀ rule l r, d = .asks rule l r → ∃ k,
    t.after k = (t.push (.user (H.onCompare rule l r) [])).answer .done ∧
    ∀ n q, t.Compared n q ↔ ∃ m, n = k + m ∧ (t.after k).Answered t.frames m q

variable {ps : List (PayloadId × PayloadId)} {d : Decision H.toVocabulary}

theorem Compared.unique {m n : Nat} {q r : Reply H.toVocabulary} (h : t.Compared m q)
    (h' : t.Compared n r) : m = n ∧ q = r := by
  obtain rfl : m = n := by
    rcases Nat.lt_trichotomy m n with hlt | heq | hgt
    · exact absurd h.mode (h'.first m hlt h.frames q)
    · exact heq
    · exact absurd h'.mode (h.first n hgt h'.frames r)
  exact ⟨rfl, Mode.reply.inj (h.mode.symm.trans h'.mode)⟩

/-- It is over once. -/
theorem Compared.not_before {n : Nat} {r : Reply H.toVocabulary} (h : t.Compared n r) :
    ∀ m < n, ∀ q, ¬t.Compared m q := fun _ hm _ hq => Nat.ne_of_lt hm (hq.unique h).1

/-- Where whoever waits for it hears an answer, it is over. -/
theorem exists_compared {n : Nat} {r : Reply H.toVocabulary} (hmode : (t.after n).mode = .reply r)
    (hframes : (t.after n).frames = t.frames) : ∃ m ≤ n, ∃ q, t.Compared m q := by
  induction n using Nat.strong_induction_on generalizing r with
  | _ n ih =>
    by_cases hbefore : ∃ j < n, (t.after j).frames = t.frames ∧ ∃ q, (t.after j).mode = .reply q
    · obtain ⟨j, hj, hframes', q, hmode'⟩ := hbefore
      obtain ⟨m, hm, hcompared⟩ := ih j hj hmode' hframes'
      exact ⟨m, by omega, hcompared⟩
    · push Not at hbefore
      exact ⟨n, Nat.le_refl n, r, hmode, hframes, hbefore⟩

/-- While a comparison takes its course it is not over. -/
theorem not_compared {m : Nat} (hcourse : ∀ i ≤ m, ∃ a b, t.after i = { t with mode := .compare a b })
    {k : Nat} (hk : k ≤ m) (r : Reply H.toVocabulary) : ¬t.Compared k r := by
  intro h
  obtain ⟨a, b, hafter⟩ := hcourse k hk
  have hmode := h.mode
  rw [hafter] at hmode
  exact absurd hmode (by simp)

/-- A comparison that nobody is asked for is over at the end of its course. -/
theorem compared_of_settled {m : Nat} {same : Bool}
    (hcourse : ∀ i ≤ m, ∃ a b, t.after i = { t with mode := .compare a b })
    (hsettled : t.after (m + 1) = t.answer (.flag same)) : t.Compared (m + 1) (.flag same) where
  mode := by rw [hsettled]; rfl
  frames := by rw [hsettled]; rfl
  first := by
    intro i hi _ q hreply
    obtain ⟨a, b, hafter⟩ := hcourse i (Nat.le_of_lt_succ hi)
    rw [hafter] at hreply
    exact absurd hreply (by simp)

/-- Once the rule's code has been started, the comparison comes to what that code comes back with. -/
theorem compared_iff {m : Nat} (hcourse : ∀ i ≤ m, ∃ a b, t.after i = { t with mode := .compare a b })
    {code : H.Code} (hasks : t.after (m + 1) = (t.push (.user code [])).answer .done) (n : Nat)
    (q : Reply H.toVocabulary) :
    t.Compared n q ↔ ∃ k, n = m + 1 + k ∧ (t.after (m + 1)).Answered t.frames k q := by
  have hworks : Works t.frames (t.after (m + 1)) := by
    rw [hasks]
    exact .code code [] List.suffix_rfl
  have hback {k : Nat} {q : Reply H.toVocabulary} (h : (t.after (m + 1)).Answered t.frames k q) :
      t.Compared (m + 1 + k) q := by
    refine ⟨?_, ?_, fun j hj hframes q' hmode => ?_⟩
    · rw [after_add, h.mode]
    · rw [after_add, h.frames]
    · rcases Nat.lt_or_ge m j with hlt | hle
      · obtain ⟨i, rfl⟩ := Nat.exists_eq_add_of_le (Nat.succ_le_of_lt hlt)
        rw [after_add] at hframes
        rcases Nat.eq_zero_or_pos i with rfl | hpos
        · exact absurd (hframes ▸ hworks.length_lt) (Nat.lt_irrefl _)
        · exact h.first i hpos (by omega) hframes
      · obtain ⟨a, b, hafter⟩ := hcourse j hle
        rw [hafter] at hmode
        exact absurd hmode (by simp)
  constructor
  · intro h
    have hm : m < n := Nat.lt_of_not_le fun hle => not_compared hcourse hle q h
    obtain ⟨k, rfl⟩ := Nat.exists_eq_add_of_le (Nat.succ_le_of_lt hm)
    refine ⟨k, rfl, ?_⟩
    rcases hworks.after k with hall | ⟨j, hj, r, hanswer⟩
    · have hlength := (hall k (Nat.le_refl k)).length_lt
      rw [← after_add, h.frames] at hlength
      exact absurd hlength (Nat.lt_irrefl _)
    · obtain ⟨hsame, rfl⟩ := (hback hanswer).unique h
      obtain rfl := Nat.add_left_cancel hsame
      exact hanswer
  · rintro ⟨k, rfl, h⟩
    exact hback h

/-- As long as the comparison is not over then, the rule's code is at work. -/
theorem works_of_open {m : Nat}
    (hcourse : ∀ i ≤ m, ∃ a b, t.after i = { t with mode := .compare a b }) {code : H.Code}
    (hasks : t.after (m + 1) = (t.push (.user code [])).answer .done) {n : Nat} (hn : m < n)
    (hopen : ∀ k ≤ n, ∀ r, ¬t.Compared k r) : Works t.frames (t.after n) := by
  obtain ⟨j, rfl⟩ := Nat.exists_eq_add_of_le (Nat.succ_le_of_lt hn)
  have hworks : Works t.frames (t.after (m + 1)) := by
    rw [hasks]
    exact .code code [] List.suffix_rfl
  rw [after_add]
  rcases hworks.after j with hall | ⟨i, hi, q, hanswer⟩
  · exact hall j (Nat.le_refl j)
  · exact absurd ((compared_iff hcourse hasks _ q).2 ⟨i, rfl, hanswer⟩) (hopen _ (by omega) q)

/-- As long as it is not over, the calls that were in progress when it began still are. -/
theorem suffix_of_open {m : Nat}
    (hcourse : ∀ i ≤ m, ∃ a b, t.after i = { t with mode := .compare a b })
    (hdecided : t.after (m + 1) = t.decided d) {n : Nat} (hopen : ∀ k ≤ n, ∀ r, ¬t.Compared k r) :
    t.frames <:+ (t.after n).frames := by
  rcases Nat.lt_or_ge m n with hlt | hle
  · cases d with
    | settled same => exact absurd (compared_of_settled hcourse hdecided) (hopen (m + 1) hlt _)
    | asks rule l r => exact (works_of_open hcourse hdecided hlt hopen).suffix
  · obtain ⟨a, b, hafter⟩ := hcourse n hle
    exact hafter ▸ List.suffix_rfl

/-- In every reachable state a comparison does what is known beforehand. -/
theorem equates (ht : Reachable t) (hd : t.heap.Decides f g ps d) (hmode : t.mode = .compare f g) :
    t.Equates f g ps d := by
  obtain ⟨m, hcourse, hconsulted, hdecided⟩ := course ht hd rfl hmode
  have hbefore : ∀ k < m + 1, ∀ r, ¬t.Compared k r := fun k hk r =>
    not_compared hcourse (Nat.le_of_lt_succ hk) r
  refine ⟨hd, (hd.descends fun _ _ => ht.made).1, ⟨m + 1, hbefore, ?_⟩, ?_, ?_⟩
  · intro n hn hopen
    obtain ⟨j, rfl⟩ := Nat.exists_eq_add_of_le hn
    induction j with
    | zero => exact hconsulted
    | succ j ih =>
      have hopen' : ∀ k ≤ m + 1 + j, ∀ r, ¬t.Compared k r := fun k hk =>
        hopen k (Nat.lt_succ_of_le hk)
      rw [← Nat.add_assoc, consulted_succ, ih (by omega) fun k hk => hopen' k (Nat.le_of_lt hk)]
      -- after its course a comparison is over, or the rule's code is at work
      have hnone : (t.after (m + 1 + j)).puts? t.frames.length = none := by
        cases d with
        | settled same =>
          exact absurd (compared_of_settled hcourse hdecided) (hopen' (m + 1) (by omega) _)
        | asks rule l r =>
          exact puts?_of_lt (works_of_open hcourse hdecided (by omega) hopen').length_lt
      rw [hnone]
      exact List.append_nil ps
  · rintro same rfl
    exact ⟨m + 1, compared_of_settled hcourse hdecided, hdecided⟩
  · rintro rule l r rfl
    exact ⟨m + 1, hdecided, compared_iff hcourse hdecided⟩

/-- How high the stack is tells when a comparison is over. -/
theorem compared_of_length (ht : Reachable t) (hmode : t.mode = .compare f g) {n : Nat}
    {r : Reply H.toVocabulary} (hreply : (t.after n).mode = .reply r)
    (hlow : (t.after n).frames.length = t.frames.length)
    (hbusy : ∀ j < n, t.frames.length < (t.after j).frames.length ∨
      (t.after j).mode.pair?.isSome) : t.Compared n r := by
  obtain ⟨ps, d, hd⟩ := ht.exists_decides f g
  obtain ⟨m, hcourse, -, hdecided⟩ := course ht hd rfl hmode
  have hfirst : ∀ j < n, (t.after j).frames = t.frames → ∀ q, (t.after j).mode ≠ .reply q := by
    intro j hj hframes q hq
    rcases hbusy j hj with hhigh | hpair
    · rw [hframes] at hhigh
      exact absurd hhigh (Nat.lt_irrefl _)
    · rw [hq] at hpair
      exact absurd hpair Bool.false_ne_true
  by_contra hnot
  have hopen : ∀ k ≤ n, ∀ q, ¬t.Compared k q := by
    intro k hk q hcompared
    rcases Nat.lt_or_eq_of_le hk with hlt | rfl
    · exact hfirst k hlt hcompared.frames q hcompared.mode
    · exact hnot ⟨hreply, hcompared.frames, hfirst⟩
  exact hnot ⟨hreply, ((suffix_of_open hcourse hdecided hopen).eq_of_length hlow.symm).symm, hfirst⟩

/-- If the code of a rule has the last word in this comparison, it answers by `holds`. -/
def Obeys (t : State H) (holds : Rule H.Custom → H.Native → H.Native → Prop) : Prop :=
  ∀ k rule l r m q, t.after k = (t.push (.user (H.onCompare rule l r) [])).answer .done →
    (t.after k).Answered t.frames m q → t.Compared (k + m) q → (q = .flag true ↔ holds rule l r)

/-- Then the comparison comes to what `holds` makes of the two functions. -/
theorem Equates.flag_iff (h : t.Equates f g ps d)
    {holds : Rule H.Custom → H.Native → H.Native → Prop} (hobeys : t.Obeys holds) {n : Nat}
    {q : Reply H.toVocabulary} (hn : t.Compared n q) : q = .flag true ↔ t.heap.Equal holds f g := by
  refine Iff.trans ?_ h.decides.equal_iff.symm
  cases d with
  | settled same =>
    obtain ⟨m, hm, -⟩ := h.settled same rfl
    obtain ⟨-, rfl⟩ := hn.unique hm
    show Reply.flag same = .flag true ↔ same = true
    constructor
    · exact Reply.flag.inj
    · exact congrArg _
  | asks rule l r =>
    obtain ⟨k, hk, hcompared⟩ := h.asked rule l r rfl
    obtain ⟨m, rfl, hanswer⟩ := (hcompared n q).1 hn
    exact hobeys k rule l r m q hk hanswer hn

/-- What can be told apart from outside is told apart at once. -/
theorem compared_of_judge (hmode : t.mode = .compare f g)
    (hjudge : judge (t.heap.stored f) (t.heap.stored g) = .settled false) :
    t.Compared 1 (.flag false) ∧ (t.after 1).heap = t.heap := by
  have hstep : t.after 1 = t.answer (.flag false) := by
    show t.step = _
    unfold step
    rw [hmode]
    dsimp only
    unfold compare
    rw [hjudge]
  refine ⟨⟨by rw [hstep]; rfl, by rw [hstep]; rfl, fun j hj _ q hq => ?_⟩, by rw [hstep]; rfl⟩
  obtain rfl := Nat.lt_one_iff.1 hj
  rw [show (t.after 0).mode = .compare f g from hmode] at hq
  exact absurd hq (by simp)

/-- Where a comparison is made it has a course, so this needs no knowledge of it. -/
theorem suffix_of_not_compared (ht : Reachable t) (hmode : t.mode = .compare f g) {n : Nat}
    (hopen : ∀ k ≤ n, ∀ r, ¬t.Compared k r) : t.frames <:+ (t.after n).frames := by
  obtain ⟨ps, d, hd⟩ := ht.exists_decides f g
  obtain ⟨m, hcourse, -, hdecided⟩ := course ht hd rfl hmode
  exact suffix_of_open hcourse hdecided hopen

/-- Until it is over, and then too, the calls that were in progress when it began still are. -/
theorem Compared.suffix (ht : Reachable t) (hmode : t.mode = .compare f g) {n : Nat}
    {r : Reply H.toVocabulary} (h : t.Compared n r) {j : Nat} (hj : j ≤ n) :
    t.frames <:+ (t.after j).frames := by
  rcases Nat.lt_or_eq_of_le hj with hlt | rfl
  · refine suffix_of_not_compared ht hmode fun k hk r' hk' => ?_
    have hsame := (h.unique hk').1
    omega
  · exact h.frames.symm ▸ List.suffix_rfl

/-! ## Asking whether two functions are the same -/

/-- The request whether `f` and `g` are the same is a comparison, above a frame that passes on what it
    comes to. -/
structure AsksSame (s : State H) (f g : Fn) (below : List (Frame H)) : Prop where
  mode : s.step.mode = .compare f g
  waits : ∃ held, s.step.frames = .await held :: below
  /-- What is answered is what the comparison has come to, unless a destructor has unwound since. -/
  answered : ∀ n r, s.Answered below n r →
    ∃ m q, m + 1 < n ∧ s.step.Compared m q ∧ s.Arrives (m + 1) n q r
  /-- What the comparison comes to is answered, unless a callable with a destructor ends before. -/
  settles : ∀ m q, s.step.Compared m q → Settles below q (s.step.after m)

theorem Asks.same {i j : HandleId} {below : List (Frame H)} (hs : Reachable s)
    (h : s.Asks (.same i j) below) (hi : s.heap.functionOf i = some f)
    (hj : s.heap.functionOf j = some g) : s.AsksSame f g below := by
  obtain ⟨t, hheap, rfl, hstep⟩ := h.exists_step
  have hbegun : s.step = { t.hold [j, i] with mode := .compare f g } := by
    rw [hstep]
    unfold ask
    dsimp only
    rw [hheap, hi, hj]
  have hmode : s.step.mode = .compare f g := by rw [hbegun]
  have hframes : s.step.frames = .await [.handle j, .handle i] :: t.frames := by
    rw [hbegun]
    rfl
  -- an answer of the comparison is passed on by the frame below it
  have hpromised {m : Nat} {q : Reply H.toVocabulary} (hm : s.step.Compared m q) :
      Promised q t.frames (s.step.after m) := by
    have hpassed : (s.step.after m).frames = passers [[.handle j, .handle i]] ++ t.frames :=
      hm.frames.trans hframes
    exact promised_of_passers hpassed hm.mode
  refine ⟨hmode, ⟨_, hframes⟩, fun n r hn => ?_, fun m q hm => (hpromised hm).settles⟩
  · obtain ⟨ps, d, hd⟩ := hs.step.exists_decides f g
    obtain ⟨m, hcourse, -, hdecided⟩ := course hs.step hd rfl hmode
    obtain ⟨k, rfl⟩ := Nat.exists_eq_add_of_le hn.pos
    have hlast : (s.step.after k).frames = t.frames := by
      rw [← after_one_add]
      exact hn.frames
    -- the answer comes after the comparison is over, for the frame that waits for it is gone by then
    have hover : ∃ m ≤ k, ∃ q', s.step.Compared m q' := by
      by_contra hopen
      push Not at hopen
      have hlength := (suffix_of_open hcourse hdecided hopen).length_le
      rw [hlast, hframes] at hlength
      exact absurd hlength (Nat.not_succ_le_self _)
    obtain ⟨m, hm, q', hcompared⟩ := hover
    have hne : m ≠ k := by
      rintro rfl
      have hlength := congrArg List.length (hcompared.frames.symm.trans hlast)
      rw [hframes] at hlength
      exact absurd hlength (Nat.succ_ne_self _)
    obtain ⟨l, rfl⟩ := Nat.exists_eq_add_of_lt (Nat.lt_of_le_of_ne hm hne)
    refine ⟨m, q', by omega, hcompared, ?_⟩
    have hdecided : Promised q' t.frames (s.after (m + 1)) := by
      rw [Nat.add_comm, after_one_add]
      exact hpromised hcompared
    exact hdecided.arrives (Nat.succ_pos m) (by omega) hn

end State

/-! ## Functions are compared exactly -/

/-- Wherever two functions are compared, the comparison takes its course, and where rules relate `holds`,
    they are equal if they are empty, share an allocation, or are callables of one type and one rule
    which this rule relates.  That is an EQUIVALENCE as soon as what the rules relate is symmetric and
    transitive.  And a pool without runs is compared in the same way. -/
theorem functions_compare_exactly (H : Host) :
    (∀ (t : State H) (f g : Fn), Reachable t → t.mode = .compare f g →
      (∃ ps d, t.Equates f g ps d) ∧
      ∀ holds, t.Obeys holds → ∀ n q, t.Compared n q → (q = .flag true ↔ t.heap.Equal holds f g)) ∧
    (∀ (s : State H) (i j : HandleId) (below : List (Frame H)) (f g : Fn), Reachable s →
      s.Asks (.same i j) below → s.heap.functionOf i = some f → s.heap.functionOf j = some g →
      s.AsksSame f g below) ∧
    (∀ (h : Heap H.toVocabulary) holds, Regular holds → Equivalence (h.Equal holds)) ∧
    (∀ s : Functions.Store,
      s.rack.Compares Functions.Payload.consult Functions.Function.payload s.equals) ∧
    ∀ s : Shared.Store, s.rack.Compares (fun a b => a.rule.holds a b) some s.equals := by
  refine ⟨?_, ?_, ?_, Functions.Store.compares, Shared.Store.compares⟩
  · intro t f g ht hmode
    obtain ⟨ps, d, hd⟩ := ht.exists_decides f g
    have hequates := State.equates ht hd hmode
    exact ⟨⟨ps, d, hequates⟩, fun holds hobeys n q hn => hequates.flag_iff hobeys hn⟩
  · intro s i j below f g hs hasks hi hj
    exact State.Asks.same hs hasks hi hj
  · intro h holds hregular
    exact Heap.equivalence_equal hregular

/-- Around `f`, whose comparing runs code, stands a listener; it is removed by way of `g`, which has the
    same key. -/
def Script.simpleRivals : Script.Program Unit :=
  [ .defineSimple "f" (.keyed ⟨"f", [], none⟩ ⟨.a, 1, some [.length .count none]⟩ (.custom .loud)),
    .addSimple "f" none (some .back),
    .defineSimple "g" (.keyed ⟨"g", [], none⟩ ⟨.a, 1, none⟩ (.custom .loud)),
    .removeSimple "g" none ]

/-- If the code of a rule is about to begin, the two callables have equal keys. -/
def State.keysAgree (s : State (Script.host Unit)) : Bool :=
  match s.frames with
  | .user (.compare _ l r) _ :: _ => (Script.keysOf l r).any fun k => k.1 = k.2
  | _ => true

/-- The listener is compared with one around `g`, so `f` is compared with `g`: two rules are asked, and
    code decides. -/
theorem functions_compare_exactly_simpleRivals :
    ∃ ps d, ((Script.start Script.simpleRivals).after 7).Equates (some 1) (some 3) ps d ∧
      ((Script.start Script.simpleRivals).after 7).consulted 4 7 = [(1, 3), (0, 2)] ∧
      ((Script.start Script.simpleRivals).after 7).Compared 7 (.flag true) ∧
      ((Script.start Script.simpleRivals).after 7).heap.Equal
        (fun _ l r => (Script.keysOf l r).any (fun k => k.1 = k.2) = true) (some 1) (some 3) := by
  have ht := (Script.reachable_start Script.simpleRivals).after 7
  have hmode : ((Script.start Script.simpleRivals).after 7).mode = .compare (some 1) (some 3) :=
    Mode.eq_of_pair? (by decide +kernel)
  have hcompared : ((Script.start Script.simpleRivals).after 7).Compared 7 (.flag true) :=
    State.compared_of_length ht hmode (Mode.eq_of_flag? (by decide +kernel)) (by decide +kernel)
      (by decide +kernel)
  obtain ⟨hall, -⟩ := functions_compare_exactly (Script.host Unit)
  obtain ⟨⟨ps, d, hequates⟩, hiff⟩ := hall _ _ _ ht hmode
  refine ⟨ps, d, hequates, by decide +kernel, hcompared, (hiff _ ?_ 7 _ hcompared).1 rfl⟩
  intro k rule l r m q hk _ hn
  obtain ⟨hsum, rfl⟩ := hn.unique hcompared
  have hagree : ∀ k ≤ 7, (((Script.start Script.simpleRivals).after 7).after k).keysAgree = true := by
    decide +kernel
  have hkeys := hagree k (by omega)
  rw [hk] at hkeys
  exact iff_of_true rfl hkeys

end Relay
