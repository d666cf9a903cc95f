/-
  What functions hold, and how two functions are compared.

  A function is empty or holds a payload that all its clones share.  A payload's concrete type and its
  equality rule are fixed when it is made; what it counts may change with every call, and a rule that
  looks at such a count sees it AS IT IS when the comparison is made.
-/
import Relay.Equality
import Relay.Functions.Pointer
import Relay.Functions.Method

namespace Relay.Functions

/-! ## Payloads -/

/-- Functions that capture something. -/
inductive Closure where
  /-- Adds a number. -/
  | adds (n : Int64)
  /-- Adds a number, unless the sum needs more than 64 bits. -/
  | addsChecked (n : Int64)
  /-- Puts a text in front. -/
  | prepends (s : String)
  /-- Keeps the sum of all its arguments. -/
  | counts (state : Int64)
  deriving DecidableEq, Repr

/-- Callables with an equality of their own. -/
inductive Custom where
  | offset (n : Int64)
  | scale (n : Int64)
  /-- Turns the sign of its argument unless the weight is positive. -/
  | weight (w : Float)
  /-- Adds the number of its calls. -/
  | named (label : String) (calls : Int64)

/-- Equality rules beside the two built-in ones. -/
inductive KeyRule where
  /-- The left key is at least the right one. -/
  | atLeast
  /-- Both keys are even, or both are odd. -/
  | parity
  deriving DecidableEq, Repr

/-- What a function can hold. -/
inductive Body (M : Methods := accounts) where
  | pointer (p : Pointer)
  | closure (c : Closure) (label : String)
  | method (m : Method M)
  | custom (c : Custom)

/-- What a function holds, and the rule it is compared by. -/
structure Payload (M : Methods := accounts) where
  body : Body M
  rule : Rule KeyRule

variable {M : Methods}

/-! ## Types -/

/-- The concrete type of a payload. -/
inductive Tag where
  | pointer (typeName : String)
  | closure
  | method (typeName : String)
  | offset
  | scale
  | weight
  | named
  deriving DecidableEq, Repr

def Custom.tag : Custom → Tag
  | .offset _ => .offset
  | .scale _ => .scale
  | .weight _ => .weight
  | .named .. => .named

def Body.tag : Body M → Tag
  | .pointer p => .pointer p.typeName
  | .closure .. => .closure
  | .method m => .method (M.typeName m.pointer)
  | .custom c => c.tag

/-- The name of a concrete type. -/
def Tag.name : Tag → String
  | .pointer typeName => "callchain::function::FnCallable<" ++ typeName ++ ">"
  | .closure => "callchain::function::FnCallable<callchain_oracle::func::make_fun::\x7b\x7bclosure\x7d\x7d>"
  | .method typeName => "callchain::method::Method<callchain_oracle::func::Account, " ++ typeName ++ ">"
  | .offset => "callchain_oracle::func::Offset"
  | .scale => "callchain_oracle::func::Scale"
  | .weight => "callchain_oracle::func::Weight"
  | .named => "callchain_oracle::func::Named"

/-! ## Rules -/

/-- What the rules on keys look at: a weight counts by its whole part, a name by its calls. -/
def Custom.key : Custom → Int64
  | .offset n | .scale n => n
  | .weight w => w.toInt64
  | .named _ calls => calls

/-- Whether two payloads have equal values.  Weights are compared as numbers. -/
def Body.sameValue : Body M → Body M → Bool
  | .pointer p, .pointer q => p = q
  | .method l, .method r => l.same r
  | .custom (.offset a), .custom (.offset b) => a = b
  | .custom (.scale a), .custom (.scale b) => a = b
  | .custom (.weight a), .custom (.weight b) => a == b
  | .custom (.named a _), .custom (.named b _) => a = b
  | _, _ => false

/-- What a rule on keys says of two payloads, the LEFT one first. -/
def KeyRule.holds : KeyRule → Body M → Body M → Bool
  | .atLeast, .custom l, .custom r => r.key ≤ l.key
  | .parity, .custom l, .custom r => l.key &&& 1 = r.key &&& 1
  | _, _, _ => false

/-- What the rule says of two payloads of one type and one rule. -/
def Payload.consult (l r : Payload M) : Bool := l.rule.holds Body.sameValue KeyRule.holds l.body r.body

/-! ## Calls -/

/-- Runs a callable that keeps its state to itself: what it returns, and the callable afterwards. -/
def Closure.run (c : Closure) (arg : Arg) : Output × Closure :=
  match c, arg with
  | .adds n, .int v => (.int (v + n), c)
  | .addsChecked n, .int v => (.option (int64? (v.toInt + n.toInt)), c)
  | .prepends s, .text v => (.text (s ++ v), c)
  | .counts state, .int v => (.int (state + v), .counts (state + v))
  | _, _ => (.nothing, c)

/-- Runs a custom callable; the call is counted before it is answered. -/
def Custom.run (c : Custom) (arg : Arg) : Output × Custom :=
  match c, arg with
  | .offset n, .int v => (.int (v + n), c)
  | .scale n, .int v => (.int (v * n), c)
  | .weight w, .int v => (.int (if 0 < w then v else -v), c)
  | .named label calls, .int v => (.int (v + (calls + 1)), .named label (calls + 1))
  | _, _ => (.nothing, c)

end Relay.Functions
