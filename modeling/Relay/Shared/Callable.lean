/-
  Callables that handles share: what they have in common, and samples of them.

  A callable has a type and an equality rule, it can be called, which may change it, and it has a label
  by which its end is recorded.  Which types, rules and states there are is a parameter (`Callables`).
  The sessions are about samples, so these are meant where nothing is said: five types, five equality
  rules, and a count of their own calls.  All samples take an integer and return an integer or
  nothing.  What they have in common is a key; what the key means is the type's business, and what the
  RULE makes of two keys is the rule's.
-/
import Relay.Fault
import Relay.Equality

namespace Relay.Shared

/-! ## What callables are -/

/-- The callables that handles can share. -/
structure Callables where
  /-- A stored callable, with its state. -/
  Payload : Type
  /-- The types of callables. -/
  Kind : Type
  [kindEq : DecidableEq Kind]
  Rule : Type
  [ruleEq : DecidableEq Rule]
  kind : Payload → Kind
  /-- The name of a type. -/
  kindName : Kind → String
  rule : Payload → Rule
  /-- What a rule says of two callables, the LEFT one first. -/
  holds : Rule → Payload → Payload → Bool
  /-- Whether a rule says which two it compares. -/
  loud : Rule → Bool
  /-- What is recorded when a callable is let go of for the last time. -/
  label : Payload → String
  /-- What a call returns, and the callable afterwards. -/
  call : Payload → Int64 → Except Fault (Option Int64) × Payload

attribute [instance] Callables.kindEq Callables.ruleEq

/-! ## Samples -/

/-- The five types. -/
inductive Shape where
  /-- Adds its key. -/
  | offset
  /-- Multiplies by its key. -/
  | scale
  /-- Returns how often it was called. -/
  | counter
  /-- Lets through what is not below its key. -/
  | gate
  /-- Faults at its key. -/
  | bomb
  deriving DecidableEq, Repr

/-- The five equality rules. -/
inductive KeyRule where
  | byKey
  | never
  | always
  /-- The left key is at least the right one. -/
  | atLeast
  /-- By key, and says which two are compared. -/
  | loud
  deriving DecidableEq, Repr

/-- A stored callable. -/
structure Callable where
  shape : Shape
  rule : KeyRule
  key : Int64
  label : String
  /-- How often it was called. -/
  calls : Nat := 0
  deriving DecidableEq, Repr

/-- The name of a type. -/
def Shape.name : Shape → String
  | .offset => "callchain_oracle::raw::Offset"
  | .scale => "callchain_oracle::raw::Scale"
  | .counter => "callchain_oracle::raw::Counter"
  | .gate => "callchain_oracle::raw::Gate"
  | .bomb => "callchain_oracle::raw::Bomb"

/-- What a rule says of two callables, the LEFT one first. -/
def KeyRule.holds : KeyRule → Callable → Callable → Bool
  | .byKey, l, r => l.key = r.key
  | .never, _, _ => false
  | .always, _, _ => true
  | .atLeast, l, r => r.key ≤ l.key
  | .loud, l, r => l.key = r.key

namespace Callable

/-- The call is counted before anything else happens. -/
def counted (c : Callable) : Callable := { c with calls := c.calls + 1 }

/-- What a callable that has counted the call returns. -/
def result (c : Callable) (v : Int64) : Except Fault (Option Int64) :=
  match c.shape with
  | .offset => .ok (some (v + c.key))
  | .scale => .ok (some (v * c.key))
  | .counter => .ok (some (Int64.ofNat c.calls))
  | .gate => .ok (if c.key ≤ v then some v else none)
  | .bomb =>
    if v = c.key then
      .error (.raised ("bomb " ++ toString v.toInt ++ " on call " ++ toString c.calls))
    else .ok (some v)

end Callable

/-- The sample callables. -/
def samples : Callables where
  Payload := Callable
  Kind := Shape
  Rule := KeyRule
  kind := Callable.shape
  kindName := Shape.name
  rule := Callable.rule
  holds := KeyRule.holds
  loud rule := rule = .loud
  label := Callable.label
  call c v := (c.counted.result v, c.counted)

end Relay.Shared
