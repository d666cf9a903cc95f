/-
  The callables that scripts make, and the names of their types.

  Two callables can only be equal by a rule if they have one TYPE.  All closures have types of their
  own, but they are compared by identity, so one tag serves for them; a pointer's type is what it
  takes and returns, so the pointers fall into two types; a callable with a key has its key type.
-/
import Relay.Script.Op

namespace Relay.Script

/-- A callable made by a script.  `serial` tells apart those that count their runs. -/
inductive Native (V : Type) where
  | closure (serial : Nat) (scripted : Scripted (Program V)) (valued : Bool)
  | keyed (serial : Nat) (scripted : Scripted (Program V)) (keyed : Keyed (Program V))
  | simpleClosure (serial : Nat) (scripted : Scripted (Program V))
  | pointer (p : Pointer)
  | simplePointer (p : SimplePointer)
  /-- Calls the function of a handle that it keeps. -/
  | delegate (function : HandleId)

/-- The concrete type of a callable. -/
inductive Tag where
  | closure
  | optionPointer
  | resultPointer
  | keyed (type : KeyedType)
  | simpleClosure
  | simplePointer
  deriving DecidableEq, Repr

/-- Pointers that may return no result have one type, those that always return one have another. -/
def Pointer.tag : Pointer → Tag
  | .forward | .nothing | .double => .optionPointer
  | .stop | .refuse => .resultPointer

def Native.tag {V : Type} : Native V → Tag
  | .closure .. | .delegate _ => .closure
  | .keyed _ _ k => .keyed k.type
  | .simpleClosure .. => .simpleClosure
  | .pointer p => p.tag
  | .simplePointer _ => .simplePointer

/-! ## Type names -/

section TypeNames

variable (V : Type) [Argument V]

/-- The name of the type of arguments. -/
def argName : String := Argument.typeName V

/-- The name of the type of results. -/
def resName : String := "core::result::Result<" ++ argName V ++ ", alloc::string::String>"

/-- The name of the type of pointers that take an event and an argument and return `output`. -/
def pointerName (output : String) : String :=
  "fn(callchain::dispatcher::event::Event<" ++ argName V ++ ", " ++ resName V ++ ">, " ++ argName V ++
    ") -> " ++ output

/-- The name of a listener type around a callable of type `inner`. -/
def eventFnName (inner : String) : String := "callchain::dispatcher::EventFn<" ++ inner ++ ">"

/-- The name of a simple function type around a callable of type `inner`. -/
def functionName (inner : String) : String := "callchain::function::FnCallable<" ++ inner ++ ">"

def Tag.name : Tag → String
  | .closure =>
    eventFnName ("callchain_oracle::chain::make_listener<" ++ argName V ++ ">::\x7b\x7bclosure\x7d\x7d")
  | .optionPointer => eventFnName (pointerName V ("core::option::Option<" ++ resName V ++ ">"))
  | .resultPointer => eventFnName (pointerName V (resName V))
  | .keyed .a => "callchain_oracle::chain::KeyedA<" ++ argName V ++ ">"
  | .keyed .b => "callchain_oracle::chain::KeyedB<" ++ argName V ++ ">"
  | .simpleClosure =>
    functionName ("callchain_oracle::chain::make_simple<" ++ argName V ++ ">::\x7b\x7bclosure\x7d\x7d")
  | .simplePointer => functionName ("fn(" ++ argName V ++ ")")

/-- The name of the concrete type of a stored callable. -/
def kindName : Kind Tag → String
  | .own tag => tag.name V
  | .simpleListener => "callchain::dispatcher::SimpleListener<" ++ argName V ++ ">"
  | .chainFunction => "callchain::dispatcher::DispatcherCallable<" ++ argName V ++ ", " ++ resName V ++ ">"

end TypeNames

/-- A text in quotes. -/
def quoted (s : String) : String := "\"" ++ s ++ "\""

/-- How a function is shown: by the name of its callable's type. -/
def showFunction (name : Option String) : String :=
  match name with
  | none => "Function(<empty>)"
  | some name => "Function(" ++ quoted name ++ ")"

end Relay.Script
