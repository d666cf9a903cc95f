/-
  The two built-in equality rules, asked directly about two values.

  By value, floating-point numbers are compared as NUMBERS: a zero equals its negative, and what is not
  a number equals nothing, itself included.  So the rule is not reflexive, and nothing that builds on
  rules may assume that one is.
-/
import Relay.BadInput
import Relay.Equality

namespace Relay

/-- The types of values that can be compared directly. -/
inductive ValueType where
  | int
  | text
  | float
  deriving DecidableEq, Repr

/-- A value of one of these types. -/
inductive Value where
  | int (n : Int64)
  | text (s : String)
  | float (x : Float)

/-- Equality of values, number by number. -/
def Value.same : Value → Value → Bool
  | .int a, .int b => a = b
  | .text a, .text b => a = b
  | .float a, .float b => a == b
  | _, _ => false

/-- Compares two values by a rule, each given if it could be read. -/
def compareValues (type : Option ValueType) (left right : Option Value) (rule : Option (Rule Empty)) :
    Except BadInput Bool := do
  let _ ← need .type type
  let left ← need .value left
  let right ← need .value right
  let rule ← need .handler rule
  return rule.holds Value.same (fun own => nomatch own) left right

end Relay
