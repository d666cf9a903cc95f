/-
  A whole scripted program: a list of steps, run from a fresh state, with one answer for each.

  The steps run in one frame labelled `top`.  What is reported while a step runs is that step's log;
  the library's own reports are part of it on request, written as a level, a message and the fields
  of the report.
-/
import Relay.Chain.Step
import Relay.Script.Interpreter

namespace Relay.Script

/-! ## The library's reports -/

def placementName : Placement → String
  | .front => "Front"
  | .back => "Back"

/-- The text of a report of the library; what a program says has none. -/
def traceText (V : Type) [Argument V] : Note (vocabulary V) → Option String
  | .said _ => none
  | .added _ _ placement listeners =>
    some ("TRACE listener added placement=" ++ placementName placement ++
      " listeners=" ++ toString listeners)
  | .skippedEmpty placement =>
    some ("TRACE ignoring empty listener placement=" ++ placementName placement)
  | .removed _ _ listeners => some ("TRACE listener removed listeners=" ++ toString listeners)
  | .cleared _ freed => some ("TRACE all listeners removed removed=" ++ toString freed)
  | .unmatched probe =>
    some ("DEBUG no matching listener to remove" ++
      match probe with
      | none => ""
      | some kind => " listener=" ++ quoted (kindName V kind))

/-! ## Answers -/

/-- What a log holds. -/
inductive LogEntry (V : Type) where
  | word (w : Word V)
  | trace (text : String)

/-- The answer of a step. -/
structure Answer (V : Type) where
  outcome : Outcome V
  log : List (LogEntry V)

/-- Splits what was reported, EARLIEST first, into the answers of the steps. -/
def answers {V : Type} [Argument V] (traced : Bool) :
    List (LogEntry V) → List (Note (vocabulary V)) → List (Answer V)
  | _, [] => []
  | log, .said (.answer outcome) :: rest => ⟨outcome, log.reverse⟩ :: answers traced [] rest
  | log, .said w :: rest => answers traced (.word w :: log) rest
  | log, note :: rest =>
    match traceText V note with
    | some text => answers traced (if traced then .trace text :: log else log) rest
    | none => answers traced log rest

/-! ## Running -/

variable {V : Type} [DecidableEq V] [Argument V]

/-- The state in which a program starts: one chain without listeners, named `main`. -/
def start (steps : Program V) : State (host V) :=
  let (c, chains) := ({} : Pool (Chain Fn)).alloc {}
  let (h, heap) := ({ chains } : Heap (vocabulary V)).wrapUp (.chain c)
  let top : Running V :=
    { scope := { label := "top" }, todo := steps.map (.perform · .answered), ending := .steps }
  { heap
    memory := ({} : Memory).bind .chains "main" h
    frames := [.user (Code.script top) []] }

/-- More steps than any program with limited fuel can take. -/
def stepLimit : Nat := 1000000000000

/-- Runs a program to its end. -/
def run (steps : Program V) : State (host V) := (start steps).run stepLimit

/-- The answers of a program, unless it ran out of fuel. -/
def session (traced : Bool) (steps : Program V) : Except BadInput (List (Answer V)) :=
  let s := run steps
  let memory : Memory := s.memory
  if memory.exhausted then .error .fuel else .ok (answers traced [] s.journal.reverse)

end Relay.Script
