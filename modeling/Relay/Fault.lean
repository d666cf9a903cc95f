/-
  Why a call ends without a result: it is either asked of nothing, or somebody raised it on purpose.
-/
namespace Relay

/-- The cause of an abrupt end.  It unwinds through every running call until somebody catches it. -/
inductive Fault where
  /-- A function that holds nothing was called. -/
  | emptyFunction
  /-- A method without a receiver was called. -/
  | unboundMethod
  /-- A callable gave up, in its own words. -/
  | raised (message : String)
  deriving DecidableEq, Repr

/-- The words in which a fault is reported. -/
def Fault.message : Fault → String
  | .emptyFunction => "called `Function::call` on an empty function"
  | .unboundMethod => "called a `Method` that is not bound to a receiver"
  | .raised message => message

/-- What a caller reads that asked first whether there is anything to call. -/
def emptyFunctionNotice : String := "attempted to call an empty function"

end Relay
