/-
  Where the library ends and the program that uses it begins.

  Listeners, simple functions, equality rules and destructors are code of the program's own, and they
  may do ANYTHING with the library while the library is in the middle of something.  So that code is
  not a function that returns: it runs in turns.  In a turn it may read and write its own memory, say
  things, and then ask the library for one thing; it gets the answer at the start of its next turn.
  A `Host` is a program of this kind.  Nothing is assumed about it.

  A program refers to what it owns by HANDLES.  A handle is a shared owner of one function, chain or
  event; it can have several holders, and what it owns is let go of with the last of them.
-/
import Relay.Fault
import Relay.Equality
import Relay.Chain.Basic

namespace Relay

/-! ## Names of things -/

abbrev PayloadId := Nat
abbrev ChainId := Nat
abbrev DispatchId := Nat
abbrev HandleId := Nat

/-- Where a listener is added. -/
inductive Placement where
  /-- Before every listener already in the chain. -/
  | front
  /-- After every listener already in the chain. -/
  | back
  deriving DecidableEq, Repr

/-- The concrete type of a stored callable: one of the program's, or one of the library's two. -/
inductive Kind (τ : Type) where
  | own (tag : τ)
  /-- Runs a plain function and then goes on with the chain. -/
  | simpleListener
  /-- Runs a whole chain as one function. -/
  | chainFunction
  deriving DecidableEq, Repr

/-! ## The program's side -/

/-- The types a program brings along, and what it has no say in: the order in which the listeners of a
    chain are let go of, where many go at once.  No ids of a chain go twice, so an order for each chain
    and each list of ids is one for each occasion. -/
structure Vocabulary where
  /-- What a dispatch hands from listener to listener. -/
  Arg : Type
  /-- What a listener may return. -/
  Res : Type
  /-- A callable of the program's own. -/
  Native : Type
  /-- The concrete type of such a callable. -/
  Tag : Type
  /-- Equality rules of the program's own. -/
  Custom : Type
  /-- What the program may say while it runs. -/
  Word : Type
  tag : Native → Tag
  shuffle : ChainId → Shuffle := fun _ => .plain
  [tagEq : DecidableEq Tag]
  [customEq : DecidableEq Custom]

attribute [instance] Vocabulary.tagEq Vocabulary.customEq

/-- What a program may ask of the library.  A request that runs code HOLDS the handles it names until
    it is answered, so that what they own outlives the request; then it lets go of them, in the
    reverse of the order in which the program looked them up. -/
inductive Request (T : Vocabulary) where
  /-- A handle on an empty function. -/
  | makeEmpty
  /-- Stores a callable, which takes over the caller's share in each given handle, and gives a handle
      on the function. -/
  | make (native : T.Native) (rule : Rule T.Custom) (keeps : List HandleId)
  /-- A new handle on the function of another; of an event, on the listener that received it. -/
  | copy (function : HandleId)
  /-- A handle on a new chain without listeners. -/
  | openChain
  /-- One more holder of a handle. -/
  | share (handle : HandleId)
  /-- One holder of a handle less. -/
  | discard (handle : HandleId)
  | add (chain function : HandleId) (placement : Placement)
  | addSimple (chain function : HandleId) (placement : Placement)
  /-- Removes one listener equal to the given function. -/
  | remove (chain function : HandleId)
  /-- Removes one listener equal to the one that received the event. -/
  | removeCurrent (chain event : HandleId)
  | removeSimple (chain function : HandleId)
  /-- Removes one listener equal to the given callable stored by value. -/
  | removeNative (chain : HandleId) (native : T.Native)
  | clear (chain : HandleId)
  | size (chain : HandleId)
  | call (chain : HandleId) (arg : T.Arg)
  | next (event : HandleId) (arg : T.Arg)
  /-- Calls a function without an event. -/
  | apply (function : HandleId) (arg : T.Arg)
  /-- Gives an event AWAY to a listener; `guarded` asks first whether there is anything to call. -/
  | deliver (function event : HandleId) (arg : T.Arg) (guarded : Bool)
  /-- Turns a chain into one function, giving the chain away. -/
  | wrap (chain : HandleId)
  | same (left right : HandleId)
  | kindOf (function : HandleId)
  /-- Whether the dispatch of an event is past the end. -/
  | finished (event : HandleId)

/-- What a program gets to hear, from the library or from its own code. -/
inductive Reply (T : Vocabulary) where
  | done
  | flag (b : Bool)
  | size (n : Nat)
  | made (handle : HandleId)
  | result (r : Option T.Res)
  | kind (k : Option (Kind T.Tag))
  /-- The call was unwound. -/
  | fault (f : Fault)
  /-- A guarded call found nothing to call. -/
  | nothingToCall
  /-- Something to be given away has another holder. -/
  | inUse
  /-- A handle does not own what the request needs. -/
  | refused

/-- How a turn ends; `κ` is what the program goes on with. -/
inductive Act (T : Vocabulary) (κ : Type) where
  | finish (reply : Reply T)
  | pause (code : κ)
  | request (rq : Request T) (code : κ)

/-- One turn of a program: its memory afterwards, what it said, and how it ended. -/
structure Turn (T : Vocabulary) (κ ε : Type) where
  memory : ε
  said : List T.Word := []
  act : Act T κ

/-- A program that uses the library. -/
structure Host extends Vocabulary where
  /-- Code that runs, between two turns. -/
  Code : Type
  /-- Memory that all of the program's code shares. -/
  Memory : Type
  /-- What runs when a callable is called: with the handle of its event, if it gets one. -/
  onCall : Native → Option HandleId → Arg → Code
  /-- What runs when two callables of one type are compared by a rule. -/
  onCompare : Rule Custom → Native → Native → Code
  /-- What runs when a callable is no longer held, if anything does. -/
  onDrop : Native → Option Code
  /-- The next turn of code that hears this reply; the first turn of all hears `done`. -/
  resume : Code → Reply toVocabulary → Memory → Turn toVocabulary Code Memory

end Relay
