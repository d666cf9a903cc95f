/-
  Comparing functions of ONE pool.

  A `Rack` is a pool of callables as a comparison sees it: what is stored under a number, its type and
  its rule.  Two functions on it are one, if both are empty or they share an allocation; or they are
  alike, callables of one type and one rule in two allocations; or neither.  Only of two that are
  alike the rule is asked (`Rack.same_iff`).

  A rule may be any relation.  It need not relate a callable to itself, and the rule that compares by
  identity relates nothing to anything.  Nevertheless functions are equal to THEMSELVES, for the rule
  is not asked about one allocation; so rules that are symmetric and transitive are enough to make an
  equivalence (`Rack.equivalence`).  The load-bearing case is a chain of three of which the first and
  the last share an allocation: there the rules relate a callable to itself, and nobody asks them.
-/
import Relay.Functions.Store
import Relay.Shared.Store

namespace Relay

/-- A pool of callables, as comparing sees it. -/
structure Rack (α τ ρ : Type) where
  look : Nat → Option α
  type : α → τ
  rule : α → ρ

namespace Rack

variable {α τ ρ : Type} (s : Rack α τ ρ)

/-- What can be seen of a function from outside. -/
def stored (f : Option Nat) : Option (Stored Nat τ ρ) :=
  f.bind fun p => (s.look p).map fun a => ⟨p, s.type a, s.rule a⟩

/-- Whether two functions are equal, if `opinion` is what the rules say of two callables, the LEFT one
    first. -/
def same [DecidableEq τ] [DecidableEq ρ] (opinion : α → α → Bool) (f g : Option Nat) : Bool :=
  judgeWith (s.stored f) (s.stored g) <|
    match f.bind s.look, g.bind s.look with
    | some a, some b => opinion a b
    | _, _ => false

/-- Both functions are empty, or they share an allocation. -/
def One (f g : Option Nat) : Prop := f = g ∨ s.stored f = none ∧ s.stored g = none

/-- In two allocations there are callables of one type and one rule. -/
structure Alike (p q : Nat) (a b : α) : Prop where
  left : s.look p = some a
  right : s.look q = some b
  apart : p ≠ q
  type : s.type a = s.type b
  rule : s.rule a = s.rule b

variable {s}

theorem stored_some {p : Nat} {a : α} (h : s.look p = some a) :
    s.stored (some p) = some ⟨p, s.type a, s.rule a⟩ := by
  rw [stored, Option.bind_some, h]
  rfl

namespace One

variable {f g k : Option Nat}

theorem symm (h : s.One f g) : s.One g f := h.imp Eq.symm And.symm

theorem trans (h : s.One f g) (h' : s.One g k) : s.One f k := by
  rcases h with rfl | ⟨hf, hg⟩
  · exact h'
  · rcases h' with rfl | ⟨-, hk⟩
    · exact .inr ⟨hf, hg⟩
    · exact .inr ⟨hf, hk⟩

/-- Of a callable there is one function only. -/
theorem eq_some {p : Nat} {a : α} (h : s.One f (some p)) (ha : s.look p = some a) : f = some p := by
  rcases h with heq | ⟨-, hnone⟩
  · exact heq
  · rw [stored_some ha] at hnone
    exact absurd hnone (by simp)

end One

/-- Two allocations are not one. -/
theorem Alike.not_one {p q : Nat} {a b : α} (h : s.Alike p q a b) : ¬s.One (some p) (some q) :=
  fun hone => h.apart (Option.some.inj (hone.eq_some h.right))

/-- There is one callable in an allocation. -/
theorem Alike.load {p q : Nat} {a b a' b' : α} (h : s.Alike p q a b) (h' : s.Alike p q a' b') :
    a = a' ∧ b = b' :=
  ⟨Option.some.inj (h.left.symm.trans h'.left), Option.some.inj (h.right.symm.trans h'.right)⟩

theorem Alike.symm {p q : Nat} {a b : α} (h : s.Alike p q a b) : s.Alike q p b a :=
  ⟨h.right, h.left, h.apart.symm, h.type.symm, h.rule.symm⟩

/-- Three callables of one type and one rule; the first and the last may share an allocation. -/
theorem Alike.trans {p q r : Nat} {a b b' c : α} (h : s.Alike p q a b) (h' : s.Alike q r b' c)
    (hpr : p ≠ r) : b = b' ∧ s.Alike p r a c := by
  obtain rfl := Option.some.inj (h.right.symm.trans h'.left)
  exact ⟨rfl, h.left, h'.right, hpr, h.type.trans h'.type, h.rule.trans h'.rule⟩

/-! ## The three questions -/

variable [DecidableEq τ] [DecidableEq ρ] {opinion : α → α → Bool}

/-- Of two functions that are there, one question is left exactly if they are alike. -/
theorem judge_eq_consult (f g : Option Nat) :
    judge (s.stored f) (s.stored g) = .consult ↔
      ∃ p q a b, f = some p ∧ g = some q ∧ s.Alike p q a b := by
  rw [judge_eq_consult_iff]
  constructor
  · rintro ⟨x, y, hx, hy, hapart, htype, hrule⟩
    obtain ⟨p, rfl, hp⟩ := Option.bind_eq_some_iff.1 hx
    obtain ⟨q, rfl, hq⟩ := Option.bind_eq_some_iff.1 hy
    obtain ⟨a, ha, rfl⟩ := Option.map_eq_some_iff.1 hp
    obtain ⟨b, hb, rfl⟩ := Option.map_eq_some_iff.1 hq
    exact ⟨p, q, a, b, rfl, rfl, ha, hb, hapart, htype, hrule⟩
  · rintro ⟨p, q, a, b, rfl, rfl, h⟩
    exact ⟨_, _, stored_some h.left, stored_some h.right, h.apart, h.type, h.rule⟩

/-- Functions that are one are equal. -/
theorem judge_of_one {f g : Option Nat} (hone : s.One f g) :
    judge (s.stored f) (s.stored g) = .settled true := by
  rcases hone with rfl | ⟨hf, hg⟩
  · exact judge_self _
  · rw [hf, hg]
    exact judge_self _

/-- Functions that are neither one nor alike are not. -/
theorem judge_of_other {f g : Option Nat} (hother : ¬s.One f g)
    (hunlike : ¬∃ p q a b, f = some p ∧ g = some q ∧ s.Alike p q a b) :
    judge (s.stored f) (s.stored g) = .settled false := by
  cases hf : s.stored f with
  | none =>
    cases hg : s.stored g with
    | none => exact absurd (.inr ⟨hf, hg⟩) hother
    | some y => rfl
  | some x =>
    cases hg : s.stored g with
    | none => rfl
    | some y =>
      obtain ⟨p, rfl, hp⟩ := Option.bind_eq_some_iff.1 hf
      obtain ⟨q, rfl, hq⟩ := Option.bind_eq_some_iff.1 hg
      obtain ⟨a, ha, rfl⟩ := Option.map_eq_some_iff.1 hp
      obtain ⟨b, hb, rfl⟩ := Option.map_eq_some_iff.1 hq
      have hpq : p ≠ q := fun h => hother (.inl (congrArg some h))
      unfold judge
      dsimp only
      rw [if_neg hpq, if_neg fun h => hunlike ⟨p, q, a, b, rfl, rfl, ha, hb, hpq, h.1, h.2⟩]

/-! ## The answer -/

/-- Functions are equal if both are empty, if they share an allocation, or if the rule of two
    callables of one type says so. -/
theorem same_iff {f g : Option Nat} :
    s.same opinion f g = true ↔
      s.One f g ∨ ∃ p q a b, f = some p ∧ g = some q ∧ s.Alike p q a b ∧ opinion a b = true := by
  by_cases hone : s.One f g
  · have hsame : s.same opinion f g = true := by
      unfold same judgeWith
      rw [judge_of_one hone]
    exact iff_of_true hsame (.inl hone)
  by_cases halike : ∃ p q a b, f = some p ∧ g = some q ∧ s.Alike p q a b
  · obtain ⟨p, q, a, b, rfl, rfl, h⟩ := halike
    have hconsult := (judge_eq_consult (s := s) (some p) (some q)).2 ⟨p, q, a, b, rfl, rfl, h⟩
    have hsame : s.same opinion (some p) (some q) = opinion a b := by
      unfold same judgeWith
      rw [hconsult, Option.bind_some, Option.bind_some, h.left, h.right]
    rw [hsame]
    constructor
    · intro hopinion
      exact .inr ⟨p, q, a, b, rfl, rfl, h, hopinion⟩
    · rintro (hpq | ⟨p', q', a', b', hp, hq, h', hopinion⟩)
      · exact absurd hpq hone
      · obtain rfl := Option.some.inj hp
        obtain rfl := Option.some.inj hq
        obtain rfl := Option.some.inj (h.left.symm.trans h'.left)
        obtain rfl := Option.some.inj (h.right.symm.trans h'.right)
        exact hopinion
  · have hsame : s.same opinion f g = false := by
      unfold same judgeWith
      rw [judge_of_other hone halike]
    rw [hsame]
    refine iff_of_false Bool.false_ne_true ?_
    rintro (h | ⟨p, q, a, b, hp, hq, h, -⟩)
    · exact hone h
    · exact halike ⟨p, q, a, b, hp, hq, h⟩

/-- Unless they are alike, what the rules say makes NO difference. -/
theorem same_eq_of_unlike {f g : Option Nat} (opinion opinion' : α → α → Bool)
    (hunlike : ¬∃ p q a b, f = some p ∧ g = some q ∧ s.Alike p q a b) :
    s.same opinion f g = s.same opinion' f g := by
  unfold same judgeWith
  cases hj : judge (s.stored f) (s.stored g) with
  | settled same => rfl
  | consult => exact absurd ((judge_eq_consult f g).1 hj) hunlike

omit [DecidableEq τ] [DecidableEq ρ] in
/-- What the rules say is symmetric and transitive, on the callables of each type and rule. -/
structure Regular (s : Rack α τ ρ) (opinion : α → α → Bool) : Prop where
  symm : ∀ a b, s.type a = s.type b → s.rule a = s.rule b → opinion a b = true → opinion b a = true
  trans : ∀ a b c, s.type a = s.type b → s.rule a = s.rule b → s.type b = s.type c →
    s.rule b = s.rule c → opinion a b = true → opinion b c = true → opinion a c = true

/-- Then functions are equal to themselves, to what is equal to them, and to what is equal to that. -/
theorem equivalence (h : s.Regular opinion) :
    Equivalence fun f g => s.same opinion f g = true where
  refl f := same_iff.2 (.inl (.inl rfl))
  symm := by
    intro f g hfg
    rcases same_iff.1 hfg with hone | ⟨p, q, a, b, rfl, rfl, halike, hopinion⟩
    · exact same_iff.2 (.inl hone.symm)
    · exact same_iff.2
        (.inr ⟨q, p, b, a, rfl, rfl, halike.symm, h.symm a b halike.type halike.rule hopinion⟩)
  trans := by
    intro f g k hfg hgk
    refine same_iff.2 ?_
    rcases same_iff.1 hfg with hone | ⟨p, q, a, b, rfl, rfl, halike, hopinion⟩
    · rcases same_iff.1 hgk with hone' | ⟨q, r, b, c, rfl, rfl, halike', hopinion'⟩
      · exact .inl (hone.trans hone')
      · obtain rfl := hone.eq_some halike'.left
        exact .inr ⟨q, r, b, c, rfl, rfl, halike', hopinion'⟩
    · rcases same_iff.1 hgk with hone' | ⟨q', r, b', c, hq', rfl, halike', hopinion'⟩
      · obtain rfl := hone'.symm.eq_some halike.right
        exact .inr ⟨p, q, a, b, rfl, rfl, halike, hopinion⟩
      · obtain rfl := Option.some.inj hq'
        by_cases hpr : p = r
        · exact .inl (.inl (congrArg some hpr))
        · obtain ⟨rfl, hac⟩ := halike.trans halike' hpr
          exact .inr ⟨p, r, a, c, rfl, rfl, hac, h.trans a b c halike.type halike.rule halike'.type
            halike'.rule hopinion hopinion'⟩

end Rack

/-! ## The two pools without runs -/

variable {α τ ρ β : Type}

/-- Things that hold functions, as `view` shows, are compared exactly: by emptiness, allocation, type and
    rule, and by what the rules say where all of this leaves it open. -/
structure Rack.Compares [DecidableEq τ] [DecidableEq ρ] (s : Rack α τ ρ) (opinion : α → α → Bool)
    (view : β → Option Nat) (equals : β → β → Bool) : Prop where
  iff : ∀ f g, equals f g = true ↔ s.One (view f) (view g) ∨
    ∃ p q a b, view f = some p ∧ view g = some q ∧ s.Alike p q a b ∧ opinion a b = true
  /-- Nobody looks at what the rules say of other functions. -/
  unasked : ∀ f g, (¬∃ p q a b, view f = some p ∧ view g = some q ∧ s.Alike p q a b) →
    ∀ opinion', s.same opinion' (view f) (view g) = equals f g
  equivalence : s.Regular opinion → Equivalence fun f g => equals f g = true

theorem Rack.compares [DecidableEq τ] [DecidableEq ρ] {s : Rack α τ ρ} {opinion : α → α → Bool}
    {view : β → Option Nat} {equals : β → β → Bool}
    (h : ∀ f g, equals f g = s.same opinion (view f) (view g)) :
    s.Compares opinion view equals where
  iff f g := by
    rw [h]
    exact same_iff
  unasked f g hunlike opinion' := by
    rw [h]
    exact same_eq_of_unlike opinion' opinion hunlike
  equivalence hregular := by
    have hsame := equivalence hregular
    constructor
    · intro f
      rw [h]
      exact hsame.refl _
    · intro f g hfg
      rw [h] at hfg ⊢
      exact hsame.symm hfg
    · intro f g k hfg hgk
      rw [h] at hfg hgk ⊢
      exact hsame.trans hfg hgk

/-- What functions hold. -/
def Functions.Store.rack {M : Functions.Methods} (s : Functions.Store M) :
    Rack (Functions.Payload M) Functions.Tag (Rule Functions.KeyRule) where
  look := s.payloads.get?
  type load := load.body.tag
  rule load := load.rule

theorem Functions.Store.compares {M : Functions.Methods} (s : Functions.Store M) :
    s.rack.Compares Functions.Payload.consult Functions.Function.payload s.equals := by
  refine Rack.compares fun f g => ?_
  have hlook : s.rack.look = s.payloads.get? := rfl
  unfold equals Rack.same
  rw [hlook]
  cases f.payload.bind s.payloads.get? <;> cases g.payload.bind s.payloads.get? <;> rfl

/-- What shared callables are. -/
def Shared.Store.rack {C : Shared.Callables} (s : Shared.Store C) : Rack C.Payload C.Kind C.Rule where
  look := s.callables.get?
  type := C.kind
  rule := C.rule

theorem Shared.Store.compares {C : Shared.Callables} (s : Shared.Store C) :
    s.rack.Compares (fun a b => C.holds (C.rule a) a b) some s.equals := by
  refine Rack.compares fun i j => ?_
  have hlook : s.rack.look = s.callables.get? := rfl
  unfold equals Rack.same
  rw [hlook, Option.bind_some, Option.bind_some]
  cases s.callables.get? i <;> cases s.callables.get? j <;> rfl

end Relay
