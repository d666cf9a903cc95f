/-
  What ONE operation does.

  `perform` looks up what an operation needs, in the order in which the needs are checked, and says
  how to go on: with a result, with a request to the library and what to make of its answer, with
  other operations, or with a fault.  It runs nothing itself.
-/
import Relay.Script.Memory

namespace Relay.Script

variable {V : Type} [DecidableEq V] [Argument V]

/-! ## Frames -/

/-- The frame of a running script. -/
structure Scope (V : Type) where
  label : String
  arg : Option V := none
  /-- The result so far. -/
  acc : Option (Except String V) := none
  calls : Nat := 0
  /-- The running event. -/
  event : Option HandleId := none

/-- The argument of an operation. -/
def Source.resolve (source : Source V) (sc : Scope V) : Option V :=
  let base := match source.base with
    | .absent => sc.arg
    | .unreadable => none
    | .given v => some v
  match source.extra with
  | .absent => base
  | .unreadable => none
  | .given w => base.map (Argument.compute .add · w)

/-- The second operand of a calculation, by default the frame's argument. -/
def operand (field : Field V) (sc : Scope V) : Option V :=
  match field with
  | .absent => sc.arg
  | .unreadable => none
  | .given v => some v

/-- The event of an operation: a stashed one, or by default the running one. -/
def eventHandle (m : Memory) (sc : Scope V) : Option String → Option HandleId
  | some name => m.find .events name
  | none => sc.event

/-- The chain of an operation: the one a stashed event came along, a named one, or by default the one
    the running event came along, and the main chain where there is no event. -/
def chainHandle (m : Memory) (sc : Scope V) : Option String → Option HandleId
  | some name =>
    match name.toList with
    | '@' :: event => m.find .events (String.ofList event)
    | _ => m.find .chains name
  | none => sc.event <|> m.find .chains "main"

/-- A result added to the result so far: two values are added up, an error stays, and no result
    counts for nothing. -/
def combineResults : Option (Except String V) → Option (Except String V) → Option (Except String V)
  | some (.ok l), some (.ok r) => some (.ok (Argument.compute .add l r))
  | some (.ok _), some (.error e) => some (.error e)
  | some (.error e), _ => some (.error e)
  | none, r => r
  | l, none => l

/-! ## Ways to go on -/

/-- What is made of the library's answer. -/
inductive After (V : Type) where
  | nothing
  | truth (b : Bool)
  | flag
  | length (view : LengthView)
  /-- The answer is a result; it becomes the result so far, or is added to it. -/
  | result (combine : Bool)
  /-- A handle was made for a name. -/
  | bind (shelf : Shelf) (name : String)
  /-- A handle was made for a listener that calls the function. -/
  | delegate (name : String)
  /-- The running event has one holder more, for a name. -/
  | stash (event : HandleId) (name : String)
  | isEmpty
  | typeName
  | showFunction
  /-- The listener of an event was asked for; next comes the state of its dispatch. -/
  | showEvent (event : HandleId)
  | showFinished (listener : String)
  /-- A branch depends on the length of a chain. -/
  | shorter (n : Int) (yes no : List (Op V))

/-- How to go on after an operation was looked at. -/
inductive Next (V : Type) where
  /-- The operation is done and has no result. -/
  | silent
  | outcome (o : Outcome V)
  | ask (rq : Request (vocabulary V)) (after : After V)
  /-- Operations that take its place. -/
  | branch (body : List (Op V))
  /-- Operations whose faults are caught. -/
  | attempt (body : List (Op V))
  | fault (f : Fault)

/-- The frame and the memory after an operation was looked at, and how to go on. -/
structure Step (V : Type) where
  scope : Scope V
  memory : Memory
  next : Next V

/-! ## Making callables -/

/-- A listener is made as asked for. -/
def makeListener (m : Memory) (sc : Scope V) (name : String) :
    ListenerSpec (Program V) → Option (Request (vocabulary V) × After V × Memory)
  | .closure scripted valued =>
    let (serial, m) := m.fresh
    some (.make (.closure serial scripted valued) .identity [], .bind .listeners name, m)
  | .pointer p => some (.make (.pointer p) .byValue [], .bind .listeners name, m)
  | .pointerIdentity p => some (.make (.pointer p) .identity [], .bind .listeners name, m)
  | .keyed scripted keyed rule =>
    let (serial, m) := m.fresh
    some (.make (.keyed serial scripted keyed) rule [], .bind .listeners name, m)
  | .delegate function => (m.find .functions function).map fun h => (.copy h, .delegate name, m)
  | .clone of => (m.find .listeners of).map fun h => (.copy h, .bind .listeners name, m)
  | .current event => (eventHandle m sc event).map fun h => (.copy h, .bind .listeners name, m)
  | .empty => some (.makeEmpty, .bind .listeners name, m)
  | .unreadable => none

/-- A simple function is made as asked for. -/
def makeSimple (m : Memory) (name : String) :
    SimpleSpec (Program V) → Option (Request (vocabulary V) × After V × Memory)
  | .closure scripted =>
    let (serial, m) := m.fresh
    some (.make (.simpleClosure serial scripted) .identity [], .bind .simples name, m)
  | .pointer p => some (.make (.simplePointer p) .byValue [], .bind .simples name, m)
  | .keyed scripted keyed rule =>
    let (serial, m) := m.fresh
    some (.make (.keyed serial scripted keyed) rule [], .bind .simples name, m)
  | .clone of => (m.find .simples of).map fun h => (.copy h, .bind .simples name, m)
  | .empty => some (.makeEmpty, .bind .simples name, m)
  | .unreadable => none

/-! ## Operations -/

/-- Where a table's handle is lacking, the word is the table's. -/
def Shelf.lacking : Shelf → BadInput
  | .chains => .chain
  | .listeners => .listener
  | .simples => .simple
  | .functions => .function
  | .events => .event

/-- Decides a branch, or asks for what decides it. -/
def decideBranch (m : Memory) (sc : Scope V) (yes no : List (Op V)) :
    Cond V → Except BadInput (Next V)
  | .calls n => .ok (.branch (if (sc.calls : Int) = n then yes else no))
  | .callsUpTo n => .ok (.branch (if (sc.calls : Int) ≤ n then yes else no))
  | .argIs v => (need .cond sc.arg).map fun arg => .branch (if arg = v then yes else no)
  | .argAbove v => (need .cond sc.arg).map fun arg => .branch (if Argument.below v arg then yes else no)
  | .shorter n chain =>
    (need .cond (chainHandle m sc chain)).map fun h => .ask (.size h) (.shorter n yes no)
  | .accIs shape =>
    let acc : Shape := match sc.acc with
      | none => .none
      | some (.ok _) => .ok
      | some (.error _) => .err
    .ok (.branch (if acc = shape then yes else no))
  | .unreadable => .error .cond

/-- What an operation does, or the first need that is not met. -/
def perform (op : Op V) (sc : Scope V) (m : Memory) : Except BadInput (Step V) :=
  let ask (rq : Request (vocabulary V)) (after : After V) : Step V := ⟨sc, m, .ask rq after⟩
  let outcome (o : Outcome V) : Step V := ⟨sc, m, .outcome o⟩
  let setAcc (acc : Option (Except String V)) : Step V := ⟨{ sc with acc }, m, .silent⟩
  match op with
  | .arg f field => do
    let arg ← need .arg sc.arg
    let w ← need .operand (operand field sc)
    let f ← need .calculation f
    return ⟨{ sc with arg := some (Argument.compute f arg w) }, m, .silent⟩
  | .map f field =>
    match sc.acc with
    | some (.ok v) => do
      let w ← need .operand (operand field sc)
      let f ← need .calculation f
      return setAcc (some (.ok (Argument.compute f v w)))
    | _ => return ⟨sc, m, .silent⟩
  | .ret source => do
    let arg ← need .arg (source.resolve sc)
    return setAcc (some (.ok arg))
  | .orRet source =>
    match sc.acc with
    | none => do
      let arg ← need .arg (source.resolve sc)
      return setAcc (some (.ok arg))
    | some _ => return ⟨sc, m, .silent⟩
  | .noResult => return setAcc none
  | .fail message => return setAcc (some (.error message))
  | .branch cond yes no => do
    let next ← decideBranch m sc yes no cond
    return ⟨sc, m, next⟩
  | .log tag => return outcome (.datum tag)
  | .panic message => return ⟨sc, m, .fault (.raised message)⟩
  | .attempt body => return ⟨sc, m, .attempt body⟩
  | .define name spec => do
    let (rq, after, m) ← need .listener (makeListener m sc name spec)
    return ⟨sc, m, .ask rq after⟩
  | .defineSimple name spec => do
    let (rq, after, m) ← need .simple (makeSimple m name spec)
    return ⟨sc, m, .ask rq after⟩
  | .newChain name => return ask .openChain (.bind .chains name)
  | .drop shelf name =>
    match m.find shelf name with
    | none => return outcome (.truth false)
    | some h => return ⟨sc, m.forget shelf name, .ask (.discard h) (.truth true)⟩
  | .dropped => return ⟨sc, { m with dropped := [] }, .outcome (.labels (sortLabels m.dropped))⟩
  | .add listener chain placement => do
    let f ← need .listener (m.find .listeners listener)
    let c ← need .chain (chainHandle m sc chain)
    let placement ← need .placement placement
    return ask (.add c f placement) .nothing
  | .addSimple simple chain placement => do
    let f ← need .simple (m.find .simples simple)
    let c ← need .chain (chainHandle m sc chain)
    let placement ← need .placement placement
    return ask (.addSimple c f placement) .nothing
  | .remove listener chain => do
    let f ← need .listener (m.find .listeners listener)
    let c ← need .chain (chainHandle m sc chain)
    return ask (.remove c f) .flag
  | .removeCurrent event chain => do
    let c ← need .chain (chainHandle m sc chain)
    let e ← need .event (eventHandle m sc event)
    return ask (.removeCurrent c e) .flag
  | .removeSimple simple chain => do
    let f ← need .simple (m.find .simples simple)
    let c ← need .chain (chainHandle m sc chain)
    return ask (.removeSimple c f) .flag
  | .removePointer p chain => do
    let p ← need .pointer p
    let c ← need .chain (chainHandle m sc chain)
    return ask (.removeNative c (.pointer p)) .flag
  | .clear chain => do
    let c ← need .chain (chainHandle m sc chain)
    return ask (.clear c) .nothing
  | .length view chain => do
    let c ← need .chain (chainHandle m sc chain)
    return ask (.size c) (.length view)
  | .call source chain combine => do
    let arg ← need .arg (source.resolve sc)
    let c ← need .chain (chainHandle m sc chain)
    return ask (.call c arg) (.result combine)
  | .next source event combine => do
    let arg ← need .arg (source.resolve sc)
    let e ← need .event (eventHandle m sc event)
    return ask (.next e arg) (.result combine)
  | .stash name => do
    let e ← need .event sc.event
    return ask (.share e) (.stash e name)
  | .showEvent event => do
    let e ← need .event (eventHandle m sc event)
    return ask (.kindOf e) (.showEvent e)
  | .invoke listener event source guarded combine => do
    let f ← need .listener (m.find .listeners listener)
    let arg ← need .arg (source.resolve sc)
    let e ← need .event (m.find .events event)
    return ⟨sc, m.forget .events event, .ask (.deliver f e arg guarded) (.result combine)⟩
  | .wrapChain chain name => do
    let c ← need .chain (m.find .chains chain)
    return ⟨sc, m.forget .chains chain, .ask (.wrap c) (.bind .functions name)⟩
  | .cloneFunction of name => do
    let f ← need .function (m.find .functions of)
    return ask (.copy f) (.bind .functions name)
  | .callFunction name source combine => do
    let arg ← need .arg (source.resolve sc)
    let f ← need .function (m.find .functions name)
    return ask (.apply f arg) (.result combine)
  | .equal shelf left right => do
    let l ← need .left (m.find shelf left)
    let r ← need .right (m.find shelf right)
    return ask (.same l r) .flag
  | .isEmpty name => do
    let f ← need .listener (m.find .listeners name)
    return ask (.kindOf f) .isEmpty
  | .typeName shelf name => do
    let f ← need shelf.lacking (m.find shelf name)
    return ask (.kindOf f) .typeName
  | .showListener name => do
    let f ← need .listener (m.find .listeners name)
    return ask (.kindOf f) .showFunction
  | .unknown _ => .error .op

end Relay.Script
