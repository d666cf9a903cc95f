/-
  Receivers, methods and functions under names.

  A receiver is shared: by the name it was made under, by every method bound to it, and by every
  payload made from a bound method.  Whoever lets go last records its label.  A function made from a
  method takes a copy of the method AS IT IS, so binding the method anew changes nothing for it.
-/
import Relay.BadInput
import Relay.Pool
import Relay.Functions.Payload

namespace Relay.Functions

/-- A function of a signature; it is empty or shares a payload. -/
structure Function where
  signature : Signature
  payload : Option Nat
  deriving DecidableEq, Repr

/-- All that has a name, and what the names stand for. -/
structure Store (M : Methods := accounts) where
  allocations : Pool M.Receiver := {}
  payloads : Pool (Payload M) := {}
  receivers : Table String ReceiverId := {}
  methods : Table String (Method M) := {}
  functions : Table String Function := {}
  /-- Labels of what was dropped since they were last asked for. -/
  dropped : List String := []

namespace Store

variable {M : Methods}

/-! ## Sharing -/

/-- Lets go of one share in a receiver. -/
def releaseReceiver (s : Store M) (i : ReceiverId) : Store M :=
  match s.allocations.release i with
  | (none, allocations) => { s with allocations }
  | (some receiver, allocations) => { s with allocations, dropped := M.label receiver :: s.dropped }

/-- A method takes a share in its receiver. -/
def retainMethod (s : Store M) (m : Method M) : Store M :=
  match m.receiver with
  | none => s
  | some i => { s with allocations := s.allocations.retain i }

/-- A method lets go of its receiver. -/
def releaseMethod (s : Store M) (m : Method M) : Store M :=
  match m.receiver with
  | none => s
  | some i => s.releaseReceiver i

/-- Lets go of one share in a payload; the last one lets go of what the payload holds. -/
def releasePayload (s : Store M) (p : Nat) : Store M :=
  match s.payloads.release p with
  | (none, payloads) => { s with payloads }
  | (some load, payloads) =>
    let s := { s with payloads }
    match load.body with
    | .pointer _ => s
    | .closure _ label => { s with dropped := label :: s.dropped }
    | .method m => s.releaseMethod m
    | .custom (.named label _) => { s with dropped := label :: s.dropped }
    | .custom _ => s

/-- A function lets go of its payload. -/
def releaseFunction (s : Store M) (f : Function) : Store M :=
  match f.payload with
  | none => s
  | some p => s.releasePayload p

/-- A function takes a share in its payload. -/
def retainFunction (s : Store M) (f : Function) : Store M :=
  match f.payload with
  | none => s
  | some p => { s with payloads := s.payloads.retain p }

/-! ## Names -/

/-- Names a receiver; the one that had the name before is let go of afterwards. -/
def bindReceiver (s : Store M) (name : String) (i : ReceiverId) : Store M :=
  let bound := { s with receivers := s.receivers.insert name i }
  (s.receivers.get? name).elim bound bound.releaseReceiver

/-- Names a method; the one that had the name before is let go of afterwards. -/
def bindMethod (s : Store M) (name : String) (m : Method M) : Store M :=
  let bound := { s with methods := s.methods.insert name m }
  (s.methods.get? name).elim bound bound.releaseMethod

/-- Names a function; the one that had the name before is let go of afterwards. -/
def bindFunction (s : Store M) (name : String) (f : Function) : Store M :=
  let bound := { s with functions := s.functions.insert name f }
  (s.functions.get? name).elim bound bound.releaseFunction

/-! ## Making -/

/-- A function with a payload of its own. -/
def makeFunction (s : Store M) (signature : Signature) (load : Payload M) : Function × Store M :=
  let (p, payloads) := s.payloads.alloc load
  (⟨signature, some p⟩, { s with payloads })

/-- A function made from a method: empty if the method is not bound, and else with a copy of it. -/
def functionOfMethod (s : Store M) (signature : Signature) (m : Method M) : Function × Store M :=
  if m.isBound then (s.retainMethod m).makeFunction signature ⟨.method m, .byValue⟩
  else (⟨signature, none⟩, s)

/-! ## Calling and comparing -/

/-- Calls a method. -/
def callMethod (s : Store M) (m : Method M) (arg : Arg) : Except Fault Output × Store M :=
  match m.receiver with
  | none => (.error .unboundMethod, s)
  | some i =>
    match s.allocations.get? i with
    | none => (.error .unboundMethod, s)
    | some receiver =>
      let (result, receiver) := M.run m.pointer arg receiver
      (result, { s with allocations := s.allocations.modify i fun _ => receiver })

/-- Runs a payload: what it returns, and what it says. -/
def runPayload (s : Store M) (p : Nat) (arg : Arg) : Except Fault Output × Option Int64 × Store M :=
  match s.payloads.get? p with
  | none => (.error .emptyFunction, none, s)
  | some load =>
    match load.body with
    | .pointer pointer =>
      let said := match pointer, arg with
        | .note, .int n => some n
        | _, _ => none
      (pointer.run arg, said, s)
    | .closure c label =>
      let (o, c) := c.run arg
      (.ok o, none, { s with payloads := s.payloads.modify p ({ · with body := .closure c label }) })
    | .custom c =>
      let (o, c) := c.run arg
      (.ok o, none, { s with payloads := s.payloads.modify p ({ · with body := .custom c }) })
    | .method m =>
      let (result, s) := s.callMethod m arg
      (result, none, s)

/-- Calls a function. -/
def call (s : Store M) (f : Function) (arg : Arg) : Except Fault Result × Option Int64 × Store M :=
  match f.payload with
  | none => (.error .emptyFunction, none, s)
  | some p =>
    let (result, said, s) := s.runPayload p arg
    (result.map f.signature.convert, said, s)

/-- What can be seen of a function from outside. -/
def stored (s : Store M) (f : Function) : Option (Stored Nat Tag (Rule KeyRule)) :=
  f.payload.bind fun p => (s.payloads.get? p).map fun load => ⟨p, load.body.tag, load.rule⟩

/-- Whether two functions are equal. -/
def equals (s : Store M) (l r : Function) : Bool :=
  judgeWith (s.stored l) (s.stored r) <|
    match l.payload.bind s.payloads.get?, r.payload.bind s.payloads.get? with
    | some a, some b => a.consult b
    | _, _ => false

end Store

end Relay.Functions
