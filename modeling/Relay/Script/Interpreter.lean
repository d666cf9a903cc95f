/-
  Scripts as a program that uses the library.

  A running script is a frame and a list of TASKS: operations still to be performed, and marks that
  say where the body of an `attempt` or of a step's branch ends.  A fault drops tasks up to the first
  mark that catches it; without one it leaves the script, and the library unwinds the call.  Each turn
  performs one operation or hears one answer, so nothing here recurs.
-/
import Relay.Script.Perform

namespace Relay.Script

variable {V : Type} [DecidableEq V] [Argument V]

/-! ## Running scripts -/

/-- How an operation's result is reported. -/
inductive Report where
  /-- In the log, under the label of the frame. -/
  | logged
  /-- As the answer of a step. -/
  | answered
  deriving DecidableEq, Repr

/-- What a running script still has to do. -/
inductive Task (V : Type) where
  | perform (op : Op V) (report : Report)
  /-- The body of an attempt ends; faults from before are caught here. -/
  | attempted (report : Report)
  /-- The branch of a step ends; faults from before are caught here. -/
  | branched

/-- What becomes of a script's result. -/
inductive Ending (V : Type) where
  | result
  /-- Where there is no result, the argument of the call takes its place. -/
  | resultOr (arg : V)
  /-- The comparison the script ran in comes out as this. -/
  | comparison (same : Bool)
  | destructor
  | steps

/-- A script that is running. -/
structure Running (V : Type) where
  scope : Scope V
  todo : List (Task V)
  ending : Ending V

/-- Code between two turns. -/
inductive Code (V : Type) where
  | begin (n : Native V) (event : Option HandleId) (arg : V)
  | compare (rule : Rule KeyRule) (left right : Native V)
  | destroy (scripted : Scripted (Program V))
  /-- Ends with whatever it hears. -/
  | passOn
  | script (r : Running V)
  /-- An operation waits for the library's answer. -/
  | waiting (r : Running V) (op : Op V) (report : Report) (after : After V)

/-- One turn of a script. -/
abbrev ScriptTurn (V : Type) := Turn (vocabulary V) (Code V) Memory

/-- The tasks of a body, reported in the log. -/
def tasks (body : Program V) : List (Task V) := body.map (.perform · .logged)

/-- A script about to run. -/
def Program.start (body : Program V) (scope : Scope V) (ending : Ending V) : Code V :=
  .script { scope, todo := tasks body, ending }

namespace Running

/-! ## Ends -/

omit [DecidableEq V] [Argument V] in
/-- The script is through. -/
def finish (r : Running V) : Reply (vocabulary V) :=
  match r.ending with
  | .result => .result r.scope.acc
  | .resultOr arg => .result (r.scope.acc.getD (.ok arg))
  | .comparison same => .flag same
  | .destructor | .steps => .done

omit [DecidableEq V] [Argument V] in
/-- What is said of an operation that is done. -/
def words (r : Running V) (word : String) (report : Report) (o : Outcome V) : List (Word V) :=
  match report with
  | .logged => [.did r.scope.label word o]
  | .answered => [.answer o]

omit [DecidableEq V] [Argument V] in
/-- An operation is done and has a result. -/
def conclude (r : Running V) (m : Memory) (word : String) (report : Report) (o : Outcome V) :
    ScriptTurn V :=
  { memory := m, said := r.words word report o, act := .pause (.script r) }

omit [DecidableEq V] [Argument V] in
/-- Tasks from the first mark that catches a fault. -/
def catching : List (Task V) → Option (Report × String × List (Task V))
  | [] => none
  | .perform .. :: rest => catching rest
  | .attempted report :: rest => some (report, "try", rest)
  | .branched :: rest => some (.answered, "if", rest)

omit [DecidableEq V] [Argument V] in
/-- A fault in the operation that was performed.  A step's own operation catches it; else the nearest
    mark does; else it leaves the script, except that a destructor only says so. -/
def unwind (r : Running V) (m : Memory) (report : Report) (f : Fault) : ScriptTurn V :=
  match report, catching r.todo with
  | .answered, _ => r.conclude m "" .answered (.panic f.message)
  | .logged, some (report, word, todo) =>
    { r with todo }.conclude m word report (.panic f.message)
  | .logged, none =>
    match r.ending with
    | .destructor =>
      { memory := m, said := [.faulted r.scope.label f.message], act := .finish .done }
    | _ => { memory := m, act := .finish (.fault f) }

/-! ## Turns -/

/-- Goes on as an operation asked for. -/
def proceed (r : Running V) (op : Op V) (report : Report) (step : Step V) : ScriptTurn V :=
  let r := { r with scope := step.scope }
  let m := step.memory
  match step.next with
  | .silent =>
    let said := match report with
      | .logged => []
      | .answered => [Word.answer .nothing]
    { memory := m, said, act := .pause (.script r) }
  | .outcome o => r.conclude m op.word report o
  | .ask rq after => { memory := m, act := .request rq (.waiting r op report after) }
  | .branch body =>
    let mark := match report with
      | .logged => []
      | .answered => [Task.branched]
    { memory := m, act := .pause (.script { r with todo := tasks body ++ mark ++ r.todo }) }
  | .attempt body =>
    let todo := tasks body ++ .attempted report :: r.todo
    { memory := m, act := .pause (.script { r with todo }) }
  | .fault f => r.unwind m report f

/-- Performs the next task. -/
def turn (r : Running V) (m : Memory) : ScriptTurn V :=
  match r.todo with
  | [] => { memory := m, act := .finish r.finish }
  | .attempted report :: todo => { r with todo }.conclude m "try" report .nothing
  | .branched :: todo => { r with todo }.conclude m "if" .answered .nothing
  | .perform op report :: todo =>
    let r := { r with todo }
    match m.fuel with
    | 0 => { memory := { m with exhausted := true }, act := .finish .done }
    | fuel + 1 =>
      let m := { m with fuel }
      match perform op r.scope m with
      | .error what => r.conclude m op.word report (.bad what)
      | .ok step => r.proceed op report step

omit [DecidableEq V] [Argument V] in
/-- A new handle has its name; the handle that had it before is discarded. -/
def bind (r : Running V) (m : Memory) (op : Op V) (report : Report) (shelf : Shelf) (name : String)
    (h : HandleId) : ScriptTurn V :=
  let bound := m.bind shelf name h
  match m.find shelf name with
  | none => r.conclude bound op.word report .nothing
  | some old => { memory := bound, act := .request (.discard old) (.waiting r op report .nothing) }

/-- An operation hears the library's answer. -/
def hear (r : Running V) (m : Memory) (op : Op V) (report : Report) (after : After V)
    (reply : Reply (vocabulary V)) : ScriptTurn V :=
  let outcome := r.conclude m op.word report
  match reply, after with
  | .fault f, _ => r.unwind m report f
  | .inUse, .bind .. => outcome (.bad .chainInUse)
  | .inUse, _ => outcome (.bad .eventInUse)
  | .nothingToCall, _ => outcome .emptyFunction
  | _, .nothing => outcome .nothing
  | _, .truth b => outcome (.truth b)
  | .flag b, .flag => outcome (.truth b)
  | .size n, .length view =>
    outcome (match view with
      | .count => .count n
      | .nonempty => .truth (n > 0)
      | .empty => .truth (n = 0)
      | .debug => .text ("CallbackDispatcher \x7b listeners: " ++ toString n ++ " \x7d"))
  | .result res, .result combine =>
    let acc := if combine then combineResults r.scope.acc res else res
    { r with scope := { r.scope with acc } }.conclude m op.word report (.reply res)
  | .made h, .bind shelf name => r.bind m op report shelf name h
  | .made h, .delegate name =>
    { memory := m
      act := .request (.make (.delegate h) .identity [h]) (.waiting r op report (.bind .listeners name)) }
  | _, .stash event name => r.bind m op report .events name event
  | .kind k, .isEmpty => outcome (.truth k.isNone)
  | .kind k, .typeName =>
    outcome (match k with
      | none => .nothing
      | some k => .text (kindName V k))
  | .kind k, .showFunction => outcome (.text (showFunction (k.map (kindName V))))
  | .kind k, .showEvent event =>
    { memory := m
      act := .request (.finished event)
        (.waiting r op report (.showFinished (showFunction (k.map (kindName V))))) }
  | .flag b, .showFinished listener =>
    outcome (.text ("Event \x7b listener: " ++ listener ++ ", finished: " ++ toString b ++ " \x7d"))
  | .size k, .shorter n yes no =>
    r.proceed op report ⟨r.scope, m, .branch (if (k : Int) < n then yes else no)⟩
  | _, _ => outcome (.bad .op)

end Running

/-! ## Callables -/

/-- A callable with a script runs: it says so, and starts. -/
def runScript (m : Memory) (serial : Nat) (scripted : Scripted (Program V)) (event : Option HandleId)
    (arg : V) (ending : Ending V) : ScriptTurn V :=
  let (calls, m) := m.countRun serial
  let scope : Scope V := { label := scripted.label, arg := some arg, calls, event }
  { memory := m, said := [.run scripted.label arg], act := .pause (scripted.body.start scope ending) }

/-- The first turn of a callable. -/
def Native.begin (m : Memory) (event : Option HandleId) (arg : V) : Native V → ScriptTurn V
  | .closure serial scripted valued =>
    runScript m serial scripted event arg (if valued then .resultOr arg else .result)
  | .keyed serial scripted k =>
    runScript m serial scripted event arg (match k.type with | .a => .result | .b => .resultOr arg)
  | .simpleClosure serial scripted => runScript m serial scripted event arg .result
  | .delegate function => { memory := m, act := .request (.apply function arg) .passOn }
  | .simplePointer .note => { memory := m, said := [.note arg], act := .finish .done }
  | .simplePointer .ignore => { memory := m, act := .finish .done }
  | .pointer p =>
    let goOn (arg : V) : Act (vocabulary V) (Code V) :=
      match event with
      | some e => .request (.next e arg) .passOn
      | none => .finish (.result none)
    { memory := m
      act := match p with
        | .forward => goOn arg
        | .double => goOn (Argument.compute .add arg arg)
        | .nothing => .finish (.result none)
        | .stop => .finish (.result (some (.ok arg)))
        | .refuse => .finish (.result (some (.error "refused"))) }

/-- The keys of two callables, where both have one. -/
def keysOf : Native V → Native V → Option (Int64 × Int64)
  | .keyed _ _ l, .keyed _ _ r => some (l.key, r.key)
  | _, _ => none

/-- Whether two callables of one type have equal values. -/
def Native.sameValue : Native V → Native V → Bool
  | .pointer p, .pointer q => p = q
  | .simplePointer p, .simplePointer q => p = q
  | l, r => ((keysOf l r).map fun k => decide (k.1 = k.2)).getD false

/-- The first turn of a comparison. -/
def Native.compare (m : Memory) (rule : Rule KeyRule) (l r : Native V) : ScriptTurn V :=
  match rule, l, r with
  | .custom .loud, .keyed _ left lk, .keyed _ right rk =>
    let same := decide (lk.key = rk.key)
    let scope : Scope V := { label := "eq " ++ left.label }
    { memory := m
      said := [.compared left.label right.label]
      act := match lk.onCompare with
        | some body => .pause (Program.start body scope (.comparison same))
        | none => .finish (.flag same) }
  | rule, l, r =>
    let atLeast (_ : KeyRule) (l r : Native V) : Bool :=
      ((keysOf l r).map fun k => decide (k.2 ≤ k.1)).getD false
    { memory := m, act := .finish (.flag (rule.holds Native.sameValue atLeast l r)) }

/-- The first turn of a destructor: the label is recorded before the script runs. -/
def Scripted.destroy (m : Memory) (scripted : Scripted (Program V)) : ScriptTurn V :=
  { memory := m.recordDrop scripted.label
    act := match scripted.onDrop with
      | some body => .pause (body.start { label := "drop " ++ scripted.label } .destructor)
      | none => .finish .done }

/-- Callables with a script have a destructor. -/
def Native.onDrop : Native V → Option (Code V)
  | .closure _ scripted _ => some (.destroy scripted)
  | .keyed _ scripted _ => some (.destroy scripted)
  | .simpleClosure _ scripted => some (.destroy scripted)
  | _ => none

/-! ## The program -/

/-- The next turn of any code.  A program without fuel does nothing more. -/
def Code.resume (code : Code V) (reply : Reply (vocabulary V)) (m : Memory) : ScriptTurn V :=
  if m.exhausted then { memory := m, act := .finish .done } else
  match code with
  | .begin n event arg => n.begin m event arg
  | .compare rule l r => Native.compare m rule l r
  | .destroy scripted => scripted.destroy m
  | .passOn => { memory := m, act := .finish reply }
  | .script r => r.turn m
  | .waiting r op report after => r.hear m op report after reply

variable (V) in
/-- Scripts, as a program that uses the library. -/
def host : Host :=
  { vocabulary V with
    Code := Code V
    Memory := Memory
    onCall := .begin
    onCompare := .compare
    onDrop := Native.onDrop
    resume := Code.resume }

end Relay.Script
