/-
  When are two functions THE SAME?

  A function holds nothing, or it holds a stored callable.  Three questions settle most comparisons
  without looking into a callable: does either hold nothing, do both hold one and the same
  allocation, and were both stored with one type and one equality rule?  Only a pair that passes the
  third and fails the second is put before the rule itself, and then ONCE.  `judge` answers the three
  questions; everything in this library that compares functions starts from it.
-/
namespace Relay

/-! ## The equality rules -/

/-- How two stored callables of one type are compared: never equal, by their values, or by a rule of
    the program's own. -/
inductive Rule (η : Type) where
  | identity
  | byValue
  | custom (rule : η)
  deriving DecidableEq, Repr

/-- The two built-in rules, at a given equality of values. -/
def Rule.holds {η α : Type} (sameValue : α → α → Bool) (own : η → α → α → Bool) :
    Rule η → α → α → Bool
  | .identity, _, _ => false
  | .byValue, l, r => sameValue l r
  | .custom rule, l, r => own rule l r

/-! ## The three questions -/

/-- What a comparison comes to before a rule is asked. -/
inductive Verdict where
  | settled (same : Bool)
  /-- Both callables have one type and one rule, in two allocations: the rule decides. -/
  | consult
  deriving DecidableEq, Repr

/-- What can be seen of a stored callable from outside: its allocation, its type and its rule. -/
structure Stored (ι τ ρ : Type) where
  allocation : ι
  type : τ
  rule : ρ
  deriving DecidableEq, Repr

variable {ι τ ρ : Type} [DecidableEq ι] [DecidableEq τ] [DecidableEq ρ]

/-- The three questions, in order: emptiness, shared allocation, type and rule. -/
def judge : Option (Stored ι τ ρ) → Option (Stored ι τ ρ) → Verdict
  | none, none => .settled true
  | some l, some r =>
    if l.allocation = r.allocation then .settled true
    else if l.type = r.type ∧ l.rule = r.rule then .consult
    else .settled false
  | _, _ => .settled false

/-- The whole comparison, where the rule can be asked without running anything. -/
def judgeWith (l r : Option (Stored ι τ ρ)) (rule : Bool) : Bool :=
  match judge l r with
  | .settled same => same
  | .consult => rule

/-! ## What the questions settle -/

/-- A rule is consulted EXACTLY across two allocations of one type and one rule. -/
theorem judge_eq_consult_iff (l r : Option (Stored ι τ ρ)) :
    judge l r = .consult ↔ ∃ a b, l = some a ∧ r = some b ∧
      a.allocation ≠ b.allocation ∧ a.type = b.type ∧ a.rule = b.rule := by
  cases l with
  | none => cases r <;> simp [judge]
  | some a =>
    cases r with
    | none => simp [judge]
    | some b =>
      by_cases h : a.allocation = b.allocation <;> simp [judge, h]

/-- A function is the same as itself, whatever its rule says. -/
theorem judge_self (l : Option (Stored ι τ ρ)) : judge l l = .settled true := by
  cases l <;> simp [judge]

end Relay
