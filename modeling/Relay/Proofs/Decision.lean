/-
  WHO decides whether two functions are equal.

  Functions that are one are equal, and functions of different kinds are not; of that nobody is asked.
  Two callables of one type and one rule in two allocations are put before the rule.  The rule that
  compares by identity says no.  The rule of a listener around a plain function is the equality of the
  functions inside, so the question is asked again one level down; it goes down only
  (`Reachable.made`), so it comes to an end.  And the rules for the program's own callables are code,
  which may do anything in the meantime and is nevertheless the one who answers.

  So the course of a comparison is known beforehand (`Heap.Decides`), up to the one piece of code that
  has the last word.  If all such code answers by some relation, functions are equal by what this
  relation makes of them (`Heap.Equal`), and that is an equivalence if the relation is symmetric and
  transitive on the callables of each type: it need not be reflexive.
-/
import Relay.Proofs.Likeness
import Relay.Proofs.Nesting

namespace Relay

variable {T : Vocabulary} {H : Host}

/-! ## The course of a comparison -/

/-- The payloads of a heap, as comparing sees them. -/
def Heap.rack (h : Heap T) : Rack (Payload T) (Kind T.Tag) (Rule T.Custom) where
  look := h.payloads.get?
  type load := load.body.kind
  rule load := load.rule

/-- Who has the last word. -/
inductive Decision (T : Vocabulary) where
  | settled (same : Bool)
  /-- The rule's code, about two callables of the program's own. -/
  | asks (rule : Rule T.Custom) (left right : T.Native)

namespace Heap

/-- To compare `f` with `g`, these pairs are put before their rules one after the other, and then it is
    decided so. -/
inductive Decides (h : Heap T) : Fn → Fn → List (PayloadId × PayloadId) → Decision T → Prop
  /-- Both are empty, or they share an allocation. -/
  | one {f g : Fn} (hone : h.rack.One f g) : Decides h f g [] (.settled true)
  /-- They are two functions, not of one type and one rule. -/
  | other {f g : Fn} (hother : ¬h.rack.One f g)
      (hunlike : ¬∃ p q l r, f = some p ∧ g = some q ∧ h.rack.Alike p q l r) :
      Decides h f g [] (.settled false)
  /-- By identity nothing is equal. -/
  | never {p q : PayloadId} {l r : Payload T} (halike : h.rack.Alike p q l r)
      (hrule : l.rule = .identity) : Decides h (some p) (some q) [(p, q)] (.settled false)
  /-- Listeners around functions are equal if these are. -/
  | inside {p q : PayloadId} {l r : Payload T} {a b : Fn} {ps : List (PayloadId × PayloadId)}
      {d : Decision T} (halike : h.rack.Alike p q l r) (hrule : l.rule ≠ .identity)
      (hl : l.body = .simple a) (hr : r.body = .simple b) (hinside : Decides h a b ps d) :
      Decides h (some p) (some q) ((p, q) :: ps) d
  /-- Callables of the program's own are equal if the rule's code says so. -/
  | rule {p q : PayloadId} {l r : Payload T} {m n : T.Native} {ks ks' : List HandleId}
      (halike : h.rack.Alike p q l r) (hrule : l.rule ≠ .identity) (hl : l.body = .native m ks)
      (hr : r.body = .native n ks') :
      Decides h (some p) (some q) [(p, q)] (.asks l.rule m n)

namespace Decides

variable {h : Heap T} {f g : Fn} {ps : List (PayloadId × PayloadId)} {d : Decision T}

/-- From a listener to the function inside the numbers fall, so no pair is put before its rule twice. -/
theorem descends (hd : h.Decides f g ps d)
    (hmade : ∀ p load, h.payloads.get? p = some load → load.Made p) :
    (ps.Pairwise fun a b => b.1 < a.1 ∧ b.2 < a.2) ∧
      ∀ a ∈ ps, ∃ p q, f = some p ∧ g = some q ∧ a.1 ≤ p ∧ a.2 ≤ q := by
  have hself {p q : PayloadId} : ∀ a ∈ [(p, q)],
      ∃ p' q', some p = some p' ∧ some q = some q' ∧ a.1 ≤ p' ∧ a.2 ≤ q' := by
    intro a ha
    obtain rfl := List.mem_singleton.1 ha
    exact ⟨p, q, rfl, rfl, Nat.le_refl _, Nat.le_refl _⟩
  induction hd with
  | one hone => exact ⟨.nil, fun a ha => absurd ha List.not_mem_nil⟩
  | other hother hunlike => exact ⟨.nil, fun a ha => absurd ha List.not_mem_nil⟩
  | never halike hrule => exact ⟨List.pairwise_singleton _ _, hself⟩
  | rule halike hrule hl hr => exact ⟨List.pairwise_singleton _ _, hself⟩
  | @inside p q l r a b ps d halike hrule hl hr _ ih =>
    obtain ⟨hpairs, hbound⟩ := ih
    have hleft := hmade p l halike.left
    have hright := hmade q r halike.right
    unfold Payload.Made at hleft hright
    rw [hl] at hleft
    rw [hr] at hright
    -- whatever is put before a rule further down is below both numbers
    have hlower : ∀ x ∈ ps, x.1 < p ∧ x.2 < q := by
      intro x hx
      obtain ⟨p', q', hp', hq', hxp, hxq⟩ := hbound x hx
      exact ⟨Nat.lt_of_le_of_lt hxp (hleft.2 p' hp'), Nat.lt_of_le_of_lt hxq (hright.2 q' hq')⟩
    refine ⟨List.pairwise_cons.2 ⟨hlower, hpairs⟩, ?_⟩
    intro x hx
    refine ⟨p, q, rfl, rfl, ?_⟩
    rcases List.mem_cons.1 hx with rfl | hm
    · exact ⟨Nat.le_refl _, Nat.le_refl _⟩
    · exact ⟨Nat.le_of_lt (hlower x hm).1, Nat.le_of_lt (hlower x hm).2⟩

end Decides

/-! ## What a relation on callables makes of functions -/

/-- Functions are equal by `holds`, which is what the rules for the program's own callables relate. -/
inductive Equal (h : Heap T) (holds : Rule T.Custom → T.Native → T.Native → Prop) : Fn → Fn → Prop
  /-- Both are empty, or they share an allocation. -/
  | one {f g : Fn} (hone : h.rack.One f g) : Equal h holds f g
  | inside {p q : PayloadId} {l r : Payload T} {a b : Fn} (halike : h.rack.Alike p q l r)
      (hrule : l.rule ≠ .identity) (hl : l.body = .simple a) (hr : r.body = .simple b)
      (hinside : Equal h holds a b) : Equal h holds (some p) (some q)
  | rule {p q : PayloadId} {l r : Payload T} {m n : T.Native} {ks ks' : List HandleId}
      (halike : h.rack.Alike p q l r) (hrule : l.rule ≠ .identity) (hl : l.body = .native m ks)
      (hr : r.body = .native n ks') (hholds : holds l.rule m n) : Equal h holds (some p) (some q)

end Heap

/-- What a decision comes to, if the rules for the program's own callables relate `holds`. -/
def Decision.comesTo (holds : Rule T.Custom → T.Native → T.Native → Prop) : Decision T → Prop
  | .settled same => same = true
  | .asks rule m n => holds rule m n

/-- What the rules relate is symmetric and transitive, on the callables of each type. -/
structure Regular (holds : Rule T.Custom → T.Native → T.Native → Prop) : Prop where
  symm : ∀ rule m n, T.tag m = T.tag n → holds rule m n → holds rule n m
  trans : ∀ rule l m n, T.tag l = T.tag m → T.tag m = T.tag n → holds rule l m → holds rule m n →
    holds rule l n

namespace Heap

variable {h : Heap T} {holds : Rule T.Custom → T.Native → T.Native → Prop} {f g k : Fn}

/-- Callables of one type are of one make. -/
theorem alike_native {p q : PayloadId} {l r : Payload T} (halike : h.rack.Alike p q l r)
    {m n : T.Native} {ks ks' : List HandleId} (hl : l.body = .native m ks)
    (hr : r.body = .native n ks') : T.tag m = T.tag n := by
  have hkind : l.body.kind = r.body.kind := halike.type
  rw [hl, hr] at hkind
  exact Kind.own.inj hkind

/-- The course of a comparison leads to what the relation makes of the two functions. -/
theorem Decides.equal_iff {ps : List (PayloadId × PayloadId)} {d : Decision T}
    (hd : h.Decides f g ps d) : h.Equal holds f g ↔ d.comesTo holds := by
  -- two functions that are equal and not one are alike
  have halike_of {f g : Fn} (he : h.Equal holds f g) (hother : ¬h.rack.One f g) :
      ∃ p q l r, f = some p ∧ g = some q ∧ h.rack.Alike p q l r ∧ l.rule ≠ .identity := by
    cases he with
    | one hone => exact absurd hone hother
    | inside halike hrule => exact ⟨_, _, _, _, rfl, rfl, halike, hrule⟩
    | rule halike hrule => exact ⟨_, _, _, _, rfl, rfl, halike, hrule⟩
  induction hd with
  | one hone => exact iff_of_true (.one hone) rfl
  | other hother hunlike =>
    refine iff_of_false ?_ Bool.false_ne_true
    intro he
    obtain ⟨p, q, l, r, hp, hq, halike, -⟩ := halike_of he hother
    exact hunlike ⟨p, q, l, r, hp, hq, halike⟩
  | @never p q l r halike hrule =>
    refine iff_of_false ?_ Bool.false_ne_true
    intro he
    obtain ⟨p', q', l', r', hp, hq, halike', hrule'⟩ := halike_of he halike.not_one
    obtain rfl := Option.some.inj hp
    obtain rfl := Option.some.inj hq
    obtain ⟨rfl, -⟩ := halike.load halike'
    exact hrule' hrule
  | @inside p q l r a b ps d halike hrule hl hr _ ih =>
    refine Iff.trans ?_ ih
    constructor
    · intro he
      cases he with
      | one hone => exact absurd hone halike.not_one
      | inside halike' _ hl' hr' hinside =>
        obtain ⟨rfl, rfl⟩ := halike.load halike'
        obtain rfl := Body.simple.inj (hl.symm.trans hl')
        obtain rfl := Body.simple.inj (hr.symm.trans hr')
        exact hinside
      | rule halike' _ hl' =>
        obtain ⟨rfl, -⟩ := halike.load halike'
        exact absurd (hl.symm.trans hl') (by simp)
    · exact .inside halike hrule hl hr
  | @rule p q l r m n ks ks' halike hrule hl hr =>
    constructor
    · intro he
      cases he with
      | one hone => exact absurd hone halike.not_one
      | inside halike' _ hl' =>
        obtain ⟨rfl, -⟩ := halike.load halike'
        exact absurd (hl.symm.trans hl') (by simp)
      | rule halike' _ hl' hr' hholds =>
        obtain ⟨rfl, rfl⟩ := halike.load halike'
        obtain ⟨rfl, -⟩ := Body.native.inj (hl.symm.trans hl')
        obtain ⟨rfl, -⟩ := Body.native.inj (hr.symm.trans hr')
        exact hholds
    · exact .rule halike hrule hl hr

namespace Equal

theorem symm (hh : Regular holds) (he : h.Equal holds f g) : h.Equal holds g f := by
  induction he with
  | one hone => exact .one hone.symm
  | inside halike hrule hl hr _ ih =>
    exact .inside halike.symm (fun hnone => hrule (halike.rule.trans hnone)) hr hl ih
  | @rule p q l r m n _ _ halike hrule hl hr hholds =>
    have hsame := hh.symm _ _ _ (alike_native halike hl hr) hholds
    rw [show l.rule = r.rule from halike.rule] at hsame
    exact .rule halike.symm (fun hnone => hrule (halike.rule.trans hnone)) hr hl hsame

/-- What is one with an equal function is equal. -/
theorem of_one (hone : h.rack.One f g) (he : h.Equal holds g k) : h.Equal holds f k := by
  cases he with
  | one hone' => exact .one (hone.trans hone')
  | inside halike hrule hl hr hinside =>
    obtain rfl := hone.eq_some halike.left
    exact .inside halike hrule hl hr hinside
  | rule halike hrule hl hr hholds =>
    obtain rfl := hone.eq_some halike.left
    exact .rule halike hrule hl hr hholds

/-- Two steps: each goes by the same kind of reason, for the callable in the middle is of one make. -/
theorem trans (hh : Regular holds) (he : h.Equal holds f g) (he' : h.Equal holds g k) :
    h.Equal holds f k := by
  induction he generalizing k with
  | one hone => exact of_one hone he'
  | @inside p q l r a b halike hrule hl hr hinside ih =>
    cases he' with
    | one hone =>
      obtain rfl := hone.symm.eq_some halike.right
      exact .inside halike hrule hl hr hinside
    | @inside _ t r₁ r' b₁ b' halike' hrule' hl' hr' hinside' =>
      by_cases hpt : p = t
      · exact hpt ▸ .one (.inl rfl)
      · obtain ⟨rfl, hends⟩ := halike.trans halike' hpt
        obtain rfl := Body.simple.inj (hr.symm.trans hl')
        exact .inside hends hrule hl hr' (ih hinside')
    | rule halike' _ hl' =>
      obtain rfl := Option.some.inj (halike.right.symm.trans halike'.left)
      exact absurd (hr.symm.trans hl') (by simp)
  | @rule p q l r m n ks ks' halike hrule hl hr hholds =>
    cases he' with
    | one hone =>
      obtain rfl := hone.symm.eq_some halike.right
      exact .rule halike hrule hl hr hholds
    | inside halike' _ hl' =>
      obtain rfl := Option.some.inj (halike.right.symm.trans halike'.left)
      exact absurd (hr.symm.trans hl') (by simp)
    | @rule _ t r₁ r' n₁ n' _ _ halike' hrule' hl' hr' hholds' =>
      by_cases hpt : p = t
      · exact hpt ▸ .one (.inl rfl)
      · have htags := alike_native halike hl hr
        have htags' := alike_native halike' hl' hr'
        obtain ⟨rfl, hends⟩ := halike.trans halike' hpt
        obtain ⟨rfl, -⟩ := Body.native.inj (hr.symm.trans hl')
        rw [← show l.rule = r.rule from halike.rule] at hholds'
        exact .rule hends hrule hl hr' (hh.trans _ _ _ _ htags htags' hholds hholds')

end Equal

/-- Rules that are symmetric and transitive make an equivalence of functions; no rule has to relate a
    callable to itself. -/
theorem equivalence_equal (hh : Regular holds) : Equivalence (h.Equal holds) where
  refl _ := .one (.inl rfl)
  symm := .symm hh
  trans := .trans hh

end Heap

/-! ## Every comparison has its course -/

/-- In a reachable state, whatever is compared, it comes to a decision. -/
theorem Reachable.exists_decides {s : State H} (hs : Reachable s) (f g : Fn) :
    ∃ ps d, s.heap.Decides f g ps d := by
  have hall : ∀ n (f g : Fn), (∀ p, f = some p → p < n) → ∃ ps d, s.heap.Decides f g ps d := by
    intro n
    induction n using Nat.strong_induction_on with
    | _ n ih =>
      intro f g hbound
      by_cases hone : s.heap.rack.One f g
      · exact ⟨_, _, .one hone⟩
      by_cases hunlike : ¬∃ p q l r, f = some p ∧ g = some q ∧ s.heap.rack.Alike p q l r
      · exact ⟨_, _, .other hone hunlike⟩
      obtain ⟨p, q, l, r, rfl, rfl, halike⟩ := not_not.1 hunlike
      by_cases hrule : l.rule = .identity
      · exact ⟨_, _, .never halike hrule⟩
      have hkind : l.body.kind = r.body.kind := halike.type
      cases hl : l.body with
      | native m ks =>
        cases hr : r.body with
        | native n ks' => exact ⟨_, _, .rule halike hrule hl hr⟩
        | simple b => rw [hl, hr] at hkind; exact absurd hkind (by simp [Body.kind])
        | chain c => rw [hl, hr] at hkind; exact absurd hkind (by simp [Body.kind])
      | simple a =>
        cases hr : r.body with
        | simple b =>
          have hmade := hs.made halike.left
          unfold Payload.Made at hmade
          rw [hl] at hmade
          obtain ⟨ps, d, hinside⟩ := ih p (hbound p rfl) a b hmade.2
          exact ⟨_, _, .inside halike hrule hl hr hinside⟩
        | native n ks' => rw [hl, hr] at hkind; exact absurd hkind (by simp [Body.kind])
        | chain c => rw [hl, hr] at hkind; exact absurd hkind (by simp [Body.kind])
      | chain c =>
        have hmade := hs.made halike.left
        unfold Payload.Made at hmade
        rw [hl] at hmade
        exact absurd hmade hrule
  cases f with
  | none => exact hall 0 none g fun p hp => absurd hp (by simp)
  | some p => exact hall (p + 1) (some p) g fun q hq => Option.some.inj hq ▸ Nat.lt_succ_self p

end Relay
