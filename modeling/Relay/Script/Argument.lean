/-
  What scripts compute with.

  A script works on arguments of ONE type: 64-bit integers, texts, or the unit value that carries
  nothing.  Each type has the same three calculations and the same order, so a script reads alike for
  all of them.  Integers wrap around at 64 bits; texts are ordered by code point.
-/
namespace Relay.Script

/-- The calculations on arguments. -/
inductive Calc where
  | add
  | mul
  | neg
  deriving DecidableEq, Repr

/-- A type of arguments. -/
class Argument (V : Type) where
  compute : Calc → V → V → V
  below : V → V → Bool
  /-- How the type is called in type names. -/
  typeName : String

/-- Arithmetic that wraps around; negation leaves its second operand alone. -/
instance : Argument Int64 where
  compute
    | .add, a, b => a + b
    | .mul, a, b => a * b
    | .neg, a, _ => -a
  below a b := decide (a < b)
  typeName := "i64"

/-- Texts are joined one way by `add` and the other way by `mul`, and `neg` turns one around. -/
instance : Argument String where
  compute
    | .add, a, b => a ++ b
    | .mul, a, b => b ++ a
    | .neg, a, _ => String.ofList a.toList.reverse
  below a b := decide (a < b)
  typeName := "alloc::string::String"

/-- There is only one unit value. -/
instance : Argument Unit where
  compute _ _ _ := ()
  below _ _ := false
  typeName := "()"

end Relay.Script
