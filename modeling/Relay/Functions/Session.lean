/-
  Steps on receivers, methods and functions.

  Each step looks up what it needs in a fixed order and reports the first thing it lacks; a step that
  lacks something changes nothing.
-/
import Relay.Functions.Store

namespace Relay.Functions

/-! ## Steps -/

/-- How a function is made. -/
inductive Kind where
  /-- From a ready-made function, compared by the given rule. -/
  | pointer (name : String) (rule : Rule KeyRule)
  | empty
  /-- Adds a number or puts a text in front, as the signature has it. -/
  | closure (n : Int64) (inFront : String)
  | counter (n : Int64)
  | method (name : String)
  | custom (c : Option Custom) (rule : Option (Rule KeyRule))
  | unknown

/-- What is done with a method. -/
inductive MethodAction where
  | clone (as : String)
  | isBound
  | receiver
  | debug
  | call (arg : Given)
  | same (other : String)
  | unknown

/-- What is done with a function. -/
inductive Action where
  /-- `guarded` asks first whether there is anything to call. -/
  | call (arg : Given) (guarded : Bool)
  | clone (as : String)
  | isEmpty
  | typeName
  | debug
  | equals (other : String)
  | differs (other : String)
  | unknown

/-- One step of a session. -/
inductive Step (M : Methods := accounts) where
  | receiver (name : String) (balance : Int64)
  | method (name : String) (pointer : Option M.Pointer) (receiver : Option String)
  | function (name : String) (signature : Option Signature) (kind : Kind) (label : Option String)
  | dropFunction (name : String)
  | dropMethod (name : String)
  | dropReceiver (name : String)
  | dropped
  | refs (name : String)
  | balance (name : String)
  | bind (name : String) (receiver : String)
  | useMethod (name : String) (action : MethodAction)
  | use (name : String) (action : Action)

/-- The result of a step. -/
inductive Outcome where
  | nothing
  | truth (b : Bool)
  | count (n : Nat)
  | int (n : Int64)
  | result (r : Result)
  | text (s : String)
  | labels (l : List String)
  | account (label : String) (balance : Int64)
  | panic (message : String)
  | emptyFunction
  | bad (what : BadInput)

/-- What comes of a step: its result, what was said, and the store afterwards. -/
structure Effect (M : Methods := accounts) where
  outcome : Outcome
  said : Option Int64 := none
  store : Store M

variable {M : Methods}

/-! ## Making functions -/

/-- A function made as asked for. -/
def Kind.make (s : Store M) (signature : Signature) (label : String) : Kind → Option (Function × Store M)
  | .pointer name rule =>
    (signature.pointer? name).map fun p => s.makeFunction signature ⟨.pointer p, rule⟩
  | .empty => some (⟨signature, none⟩, s)
  | .closure n inFront =>
    let closure : Option Closure := match signature with
      | .int => some (.adds n)
      | .opt => some (.addsChecked n)
      | .text => some (.prepends inFront)
      | _ => none
    closure.map fun c => s.makeFunction signature ⟨.closure c label, .identity⟩
  | .counter n =>
    if signature = .int then some (s.makeFunction signature ⟨.closure (.counts n) label, .identity⟩)
    else none
  | .method name => do
    let m ← s.methods.get? name
    if M.fits m.pointer signature then some (s.functionOfMethod signature m) else none
  | .custom c rule => do
    let c ← c
    let rule ← rule
    if signature = .int ∨ signature = .opt then some (s.makeFunction signature ⟨.custom c, rule⟩)
    else none
  | .unknown => none

/-! ## Running steps -/

/-- What a call comes to. -/
def callOutcome {α : Type} (wrap : α → Outcome) : Except Fault α → Outcome
  | .ok a => wrap a
  | .error f => .panic f.message

/-- How a function is shown: by the name of its payload's type. -/
def Store.debugText (s : Store M) (f : Function) : String :=
  match s.stored f with
  | none => "Function(<empty>)"
  | some e => "Function(\"" ++ e.type.name ++ "\")"

/-- Does something with a method. -/
def MethodAction.run (s : Store M) (m : Method M) : MethodAction → Except BadInput (Effect M)
  | .clone as => .ok { outcome := .nothing, store := (s.retainMethod m).bindMethod as m }
  | .isBound => .ok { outcome := .truth m.isBound, store := s }
  | .receiver =>
    let receiver := m.receiver.bind s.allocations.get?
    let outcome := (receiver.map fun r => Outcome.account (M.label r) (M.balance r)).getD .nothing
    .ok { outcome, store := s }
  | .debug => .ok { outcome := .text m.debugText, store := s }
  | .call arg => do
    let arg ← need .arg ((M.signature m.pointer).accept arg)
    let (result, store) := s.callMethod m arg
    return { outcome := callOutcome .result (result.map (M.signature m.pointer).convert), store }
  | .same other => do
    let r ← need .other (s.methods.get? other)
    if M.typeName m.pointer = M.typeName r.pointer then
      return { outcome := .truth (m.same r), store := s }
    else .error .signatures
  | .unknown => .error .op

/-- Compares a function with another one of its signature. -/
def Function.compare (s : Store M) (f : Function) (other : String) : Except BadInput Bool := do
  let g ← need .other (s.functions.get? other)
  if f.signature = g.signature then return s.equals f g else .error .signatures

/-- Does something with a function. -/
def Action.run (s : Store M) (f : Function) : Action → Except BadInput (Effect M)
  | .call arg guarded => do
    let arg ← need .arg (f.signature.accept arg)
    if guarded && f.payload.isNone then return { outcome := .emptyFunction, store := s }
    let (result, said, store) := s.call f arg
    return { outcome := callOutcome .result result, said, store }
  | .clone as => .ok { outcome := .nothing, store := (s.retainFunction f).bindFunction as f }
  | .isEmpty => .ok { outcome := .truth f.payload.isNone, store := s }
  | .typeName =>
    .ok { outcome := ((s.stored f).map fun e => Outcome.text e.type.name).getD .nothing, store := s }
  | .debug => .ok { outcome := .text (s.debugText f), store := s }
  | .equals other => return { outcome := .truth (← f.compare s other), store := s }
  | .differs other => return { outcome := .truth (!(← f.compare s other)), store := s }
  | .unknown => .error .op

/-- One step. -/
def Step.run (s : Store M) : Step M → Except BadInput (Effect M)
  | .receiver name amount =>
    let (i, allocations) := s.allocations.alloc (M.make name amount)
    .ok { outcome := .nothing, store := { s with allocations }.bindReceiver name i }
  | .method name pointer target => do
    let pointer ← need .method pointer
    let bound ← match target with
      | none => pure none
      | some r => (need .method (s.receivers.get? r)).map some
    let m : Method M := ⟨pointer, bound⟩
    return { outcome := .nothing, store := (s.retainMethod m).bindMethod name m }
  | .function name signature kind label => do
    let signature ← need .pointer signature
    let (f, s) ← need .pointer (kind.make s signature (label.getD name))
    return { outcome := .nothing, store := s.bindFunction name f }
  | .dropFunction name =>
    match s.functions.get? name with
    | none => .ok { outcome := .truth false, store := s }
    | some f =>
      let store := { s with functions := s.functions.erase name }.releaseFunction f
      .ok { outcome := .truth true, store }
  | .dropMethod name =>
    match s.methods.get? name with
    | none => .ok { outcome := .truth false, store := s }
    | some m =>
      let store := { s with methods := s.methods.erase name }.releaseMethod m
      .ok { outcome := .truth true, store }
  | .dropReceiver name =>
    match s.receivers.get? name with
    | none => .ok { outcome := .truth false, store := s }
    | some i =>
      let store := { s with receivers := s.receivers.erase name }.releaseReceiver i
      .ok { outcome := .truth true, store }
  | .dropped =>
    let labels := s.dropped.mergeSort fun a b => decide (a ≤ b)
    .ok { outcome := .labels labels, store := { s with dropped := [] } }
  | .refs name => do
    let i ← need .receiver (s.receivers.get? name)
    return { outcome := .count (s.allocations.count i), store := s }
  | .balance name => do
    let i ← need .receiver (s.receivers.get? name)
    let r ← need .receiver (s.allocations.get? i)
    return { outcome := .int (M.balance r), store := s }
  | .bind name target => do
    let i ← need .receiver (s.receivers.get? target)
    let m ← need .method (s.methods.get? name)
    let bound := m.bind i
    return { outcome := .nothing, store := (s.retainMethod bound).bindMethod name bound }
  | .useMethod name action => do
    let m ← need .method (s.methods.get? name)
    action.run s m
  | .use name action => do
    let f ← need .pointer (s.functions.get? name)
    action.run s f

/-- The result of a step and what was said in it. -/
abbrev Answer := Outcome × Option Int64

/-- Steps one after the other; a step that lacks something changes nothing. -/
def session (s : Store M) : List (Step M) → List Answer
  | [] => []
  | step :: rest =>
    match step.run s with
    | .ok e => (e.outcome, e.said) :: session e.store rest
    | .error what => (.bad what, none) :: session s rest

end Relay.Functions
