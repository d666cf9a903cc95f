/-
  The operations a script is made of.

  A script is a list of operations.  Some work on the script's own frame (`arg`, `ret`, `branch`);
  the others have a result that is reported.  An operation may lack what it needs, and whether it does
  is found out when it is PERFORMED and not before: so a field that is absent and one that cannot be
  read are told apart here, and nothing is rejected yet.
-/
import Relay.Chain.Host
import Relay.Script.Argument

namespace Relay.Script

/-! ## Fields -/

/-- A field of an operation. -/
inductive Field (α : Type) where
  | absent
  /-- There, but no value of the type. -/
  | unreadable
  | given (a : α)
  deriving DecidableEq, Repr

/-- Data that a script carries without looking into it. -/
inductive Datum where
  | null
  | bool (b : Bool)
  | int (n : Int)
  /-- The number mantissa / 10 ^ exponent. -/
  | decimal (mantissa : Int) (exponent : Nat)
  | text (s : String)
  | list (items : List Datum)
  | record (fields : List (String × Datum))

/-- Where an operation takes its argument from: `base`, or the frame's argument, plus `extra`. -/
structure Source (V : Type) where
  base : Field V := .absent
  extra : Field V := .absent

/-- The three shapes of a result. -/
inductive Shape where
  | none
  | ok
  | err
  deriving DecidableEq, Repr

/-- The condition of a branch. -/
inductive Cond (V : Type) where
  /-- This payload runs for the n-th time. -/
  | calls (n : Int)
  | callsUpTo (n : Int)
  | argIs (v : V)
  | argAbove (v : V)
  /-- A chain has fewer listeners. -/
  | shorter (n : Int) (chain : Option String)
  | accIs (shape : Shape)
  | unreadable

/-! ## Callables -/

/-- The ready-made listeners. -/
inductive Pointer where
  /-- Goes on with the same argument. -/
  | forward
  /-- Returns no result. -/
  | nothing
  /-- Goes on with the argument added to itself. -/
  | double
  /-- Returns the argument. -/
  | stop
  /-- Returns an error. -/
  | refuse
  deriving DecidableEq, Repr

/-- The ready-made simple functions. -/
inductive SimplePointer where
  /-- Says its argument. -/
  | note
  | ignore
  deriving DecidableEq, Repr

/-- The two types of callables with a key: `a` may return no result, `b` always returns one. -/
inductive KeyedType where
  | a
  | b
  deriving DecidableEq, Repr

/-- The equality rules of the scripts' own. -/
inductive KeyRule where
  /-- The left key is at least the right one. -/
  | atLeast
  /-- Says which two are compared, runs a script, and then compares the keys. -/
  | loud
  deriving DecidableEq, Repr

/-- A callable that runs a script; `σ` is the type of scripts. -/
structure Scripted (σ : Type) where
  label : String
  body : σ
  /-- Runs when the callable is no longer held. -/
  onDrop : Option σ

/-- What is particular to a callable with a key. -/
structure Keyed (σ : Type) where
  type : KeyedType
  key : Int64
  /-- Runs in a loud comparison with this callable on the left. -/
  onCompare : Option σ

/-- How a listener is made. -/
inductive ListenerSpec (σ : Type) where
  /-- From a script; one that is `valued` always returns a result. -/
  | closure (scripted : Scripted σ) (valued : Bool)
  | pointer (p : Pointer)
  /-- Compared by identity. -/
  | pointerIdentity (p : Pointer)
  | keyed (scripted : Scripted σ) (keyed : Keyed σ) (rule : Rule KeyRule)
  /-- From a script that calls a function of the functions table. -/
  | delegate (function : String)
  | clone (of : String)
  /-- The listener that received an event. -/
  | current (event : Option String)
  | empty
  | unreadable

/-- How a simple function is made. -/
inductive SimpleSpec (σ : Type) where
  | closure (scripted : Scripted σ)
  | pointer (p : SimplePointer)
  | keyed (scripted : Scripted σ) (keyed : Keyed σ) (rule : Rule KeyRule)
  | clone (of : String)
  | empty
  | unreadable

/-! ## Operations -/

/-- The five tables of names. -/
inductive Shelf where
  | chains
  | listeners
  | simples
  | functions
  | events
  deriving DecidableEq, Repr

/-- The views of a chain's length. -/
inductive LengthView where
  | count
  | nonempty
  | empty
  | debug
  deriving DecidableEq, Repr

/-- An operation on arguments of type `V`. -/
inductive Op (V : Type) where
  | arg (f : Option Calc) (operand : Field V)
  | map (f : Option Calc) (operand : Field V)
  | ret (source : Source V)
  | orRet (source : Source V)
  | noResult
  | fail (message : String)
  | branch (cond : Cond V) (yes no : List (Op V))
  | log (tag : Datum)
  | panic (message : String)
  | attempt (body : List (Op V))
  | define (name : String) (spec : ListenerSpec (List (Op V)))
  | defineSimple (name : String) (spec : SimpleSpec (List (Op V)))
  | newChain (name : String)
  | drop (shelf : Shelf) (name : String)
  | dropped
  | add (listener : String) (chain : Option String) (placement : Option Placement)
  | addSimple (simple : String) (chain : Option String) (placement : Option Placement)
  | remove (listener : String) (chain : Option String)
  | removeCurrent (event chain : Option String)
  | removeSimple (simple : String) (chain : Option String)
  | removePointer (p : Option Pointer) (chain : Option String)
  | clear (chain : Option String)
  | length (view : LengthView) (chain : Option String)
  | call (source : Source V) (chain : Option String) (combine : Bool)
  | next (source : Source V) (event : Option String) (combine : Bool)
  | stash (name : String)
  | showEvent (event : Option String)
  | invoke (listener event : String) (source : Source V) (guarded combine : Bool)
  | wrapChain (chain name : String)
  | cloneFunction (of name : String)
  | callFunction (name : String) (source : Source V) (combine : Bool)
  | equal (shelf : Shelf) (left right : String)
  | isEmpty (name : String)
  | typeName (shelf : Shelf) (name : String)
  | showListener (name : String)
  | unknown (op : String)

/-- A script on arguments of type `V`. -/
abbrev Program (V : Type) := List (Op V)

/-- The word an operation is reported under. -/
def Op.word {V : Type} : Op V → String
  | .arg .. => "arg"
  | .map .. => "map"
  | .ret .. => "ret"
  | .orRet .. => "or"
  | .noResult => "none"
  | .fail .. => "fail"
  | .branch .. => "if"
  | .log .. => "log"
  | .panic .. => "panic"
  | .attempt .. => "try"
  | .define .. => "def"
  | .defineSimple .. => "def_simple"
  | .newChain .. => "new_chain"
  | .drop .chains _ => "drop_chain"
  | .drop .listeners _ => "drop_listener"
  | .drop .simples _ => "drop_simple"
  | .drop .functions _ => "drop_function"
  | .drop .events _ => "drop_event"
  | .dropped => "dropped"
  | .add .. => "add"
  | .addSimple .. => "add_simple"
  | .remove .. => "remove"
  | .removeCurrent .. => "remove_current"
  | .removeSimple .. => "remove_simple"
  | .removePointer .. => "remove_fn"
  | .clear .. => "remove_all"
  | .length .count _ => "len"
  | .length .nonempty _ => "has_listeners"
  | .length .empty _ => "is_empty"
  | .length .debug _ => "debug"
  | .call .. => "call"
  | .next .. => "next"
  | .stash .. => "stash"
  | .showEvent .. => "event_debug"
  | .invoke .. => "invoke"
  | .wrapChain .. => "into_function"
  | .cloneFunction .. => "clone_function"
  | .callFunction .. => "call_function"
  | .equal .simples .. => "eq_simple"
  | .equal .functions .. => "eq_function"
  | .equal .. => "eq"
  | .isEmpty .. => "empty_listener"
  | .typeName .. => "type_name"
  | .showListener .. => "debug_listener"
  | .unknown op => op

end Relay.Script
