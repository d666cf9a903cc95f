/-
  Named handles on shared callables.

  A handle is a name for an allocation.  `create` makes an allocation with one handle; `clone` makes
  another handle on the same one; a handle that is dropped, or whose name is taken over, gives its
  share back, and with the last share the callable goes and its label is recorded.  So the owners of
  an allocation are EXACTLY the names that stand for it.
-/
import Relay.BadInput
import Relay.Pool
import Relay.Shared.Callable

namespace Relay.Shared

/-- Callables and the handles on them. -/
structure Store (C : Callables := samples) where
  callables : Pool C.Payload := {}
  names : Table String Nat := {}
  /-- Labels of the callables dropped since they were last asked for. -/
  dropped : List String := []

namespace Store

variable {C : Callables}

/-! ## Handles -/

/-- Gives back one share in an allocation. -/
def release (s : Store C) (i : Nat) : Store C :=
  match s.callables.release i with
  | (none, callables) => { s with callables }
  | (some c, callables) => { s with callables, dropped := C.label c :: s.dropped }

/-- Makes a name stand for a share; the share it stood for before is given back AFTERWARDS. -/
def bind (s : Store C) (name : String) (i : Nat) : Store C :=
  let bound := { s with names := s.names.insert name i }
  match s.names.get? name with
  | none => bound
  | some old => bound.release old

/-- A new allocation with one handle. -/
def create (s : Store C) (name : String) (c : C.Payload) : Store C :=
  let (i, callables) := s.callables.alloc c
  { s with callables }.bind name i

/-- Another handle on an allocation. -/
def clone (s : Store C) (i : Nat) (name : String) : Store C :=
  { s with callables := s.callables.retain i }.bind name i

/-- A handle is dropped. -/
def drop (s : Store C) (name : String) : Store C :=
  match s.names.get? name with
  | none => s
  | some i => { s with names := s.names.erase name }.release i

/-- The number of shares in an allocation. -/
def shares (s : Store C) (i : Nat) : Nat := s.callables.count i

/-! ## Calling and comparing -/

/-- Calls the callable of an allocation. -/
def invoke (s : Store C) (i : Nat) (v : Int64) : Except Fault (Option Int64) × Store C :=
  match s.callables.get? i with
  | none => (.error .emptyFunction, s)
  | some c =>
    let (result, c) := C.call c v
    (result, { s with callables := s.callables.modify i fun _ => c })

/-- What can be seen of an allocation. -/
def stored (s : Store C) (i : Nat) : Option (Stored Nat C.Kind C.Rule) :=
  (s.callables.get? i).map fun c => ⟨i, C.kind c, C.rule c⟩

/-- Whether two allocations hold equal callables. -/
def equals (s : Store C) (l r : Nat) : Bool :=
  judgeWith (s.stored l) (s.stored r) <|
    match s.callables.get? l, s.callables.get? r with
    | some a, some b => C.holds (C.rule a) a b
    | _, _ => false

/-- The labels said while two allocations are compared: a loud rule is asked, or nothing is said. -/
def said (s : Store C) (l r : Nat) : Option (String × String) :=
  match judge (s.stored l) (s.stored r), s.callables.get? l, s.callables.get? r with
  | .consult, some a, some b => if C.loud (C.rule a) then some (C.label a, C.label b) else none
  | _, _, _ => none

end Store

/-! ## Steps -/

/-- Questions about two handles. -/
inductive Question where
  | equals
  | sameAllocation
  | sameType
  | sameRule
  deriving DecidableEq, Repr

/-- What is done with a handle. -/
inductive Action where
  | clone (as : String)
  | drop
  | invoke (arg : Option Int64)
  | shares
  | typeName
  /-- A question about this handle and another one, if it is one. -/
  | ask (question : Option Question) (other : String)

/-- One step of a session. -/
inductive Step (C : Callables := samples) where
  | create (name : String) (callable : Option C.Payload)
  | dropped
  | use (name : String) (action : Action)

/-- The result of a step. -/
inductive Outcome where
  | nothing
  | truth (b : Bool)
  | count (n : Nat)
  | int (n : Int64)
  | text (s : String)
  | labels (l : List String)
  | panic (message : String)
  | bad (what : BadInput)

/-- What comes of a step: its result, what was said, and the store afterwards. -/
structure Effect (C : Callables := samples) where
  outcome : Outcome
  said : Option (String × String) := none
  store : Store C

variable {C : Callables}

/-- Answers a question about two allocations. -/
def Question.answer (s : Store C) (l r : Nat) : Question → Bool
  | .equals => s.equals l r
  | .sameAllocation => l = r
  | .sameType => (s.stored l).map (·.type) = (s.stored r).map (·.type)
  | .sameRule => (s.stored l).map (·.rule) = (s.stored r).map (·.rule)

/-- Does something with the handle `name` on the allocation `i`. -/
def Action.run (s : Store C) (name : String) (i : Nat) : Action → Except BadInput (Effect C)
  | .clone as => .ok { outcome := .nothing, store := s.clone i as }
  | .drop => .ok { outcome := .nothing, store := s.drop name }
  | .invoke arg => do
    let arg ← need .arg arg
    let (result, store) := s.invoke i arg
    let outcome := match result with
      | .ok none => .nothing
      | .ok (some n) => .int n
      | .error f => .panic f.message
    return { outcome, store }
  | .shares => .ok { outcome := .count (s.shares i), store := s }
  | .typeName =>
    let outcome := (s.stored i).map fun c => Outcome.text (C.kindName c.type)
    .ok { outcome := outcome.getD .nothing, store := s }
  | .ask question other => do
    let j ← need .other (s.names.get? other)
    let question ← need .op question
    let said := if question = .equals then s.said i j else none
    return { outcome := .truth (question.answer s i j), said, store := s }

/-- One step. -/
def Step.run (s : Store C) : Step C → Except BadInput (Effect C)
  | .create name callable => do
    let callable ← need .new callable
    return { outcome := .nothing, store := s.create name callable }
  | .dropped =>
    let labels := s.dropped.mergeSort fun a b => decide (a ≤ b)
    .ok { outcome := .labels labels, store := { s with dropped := [] } }
  | .use name action => do
    let i ← need .name (s.names.get? name)
    action.run s name i

/-- The result of a step and what was said in it. -/
abbrev Answer := Outcome × Option (String × String)

/-- Steps one after the other; a step that lacks something changes nothing. -/
def session (s : Store C) : List (Step C) → List Answer
  | [] => []
  | step :: rest =>
    match step.run s with
    | .ok e => (e.outcome, e.said) :: session e.store rest
    | .error what => (.bad what, none) :: session s rest

end Relay.Shared
