/-
  What a scripted program remembers, and what it says.

  All of a program's scripts share one memory: the five tables of names, how often each callable has
  run, the labels of what was dropped, and the fuel that is left.  A name table holds handles; a
  handle that leaves its table still has to be discarded by whoever took it out.
-/
import Relay.BadInput
import Relay.Table
import Relay.Script.Callable

namespace Relay.Script

/-! ## What is said -/

/-- The result of an operation. -/
inductive Outcome (V : Type) where
  | nothing
  | truth (b : Bool)
  | count (n : Nat)
  | text (s : String)
  | datum (d : Datum)
  | labels (l : List String)
  /-- What a chain or a function returned. -/
  | reply (r : Option (Except String V))
  /-- A fault was caught. -/
  | panic (message : String)
  | bad (what : BadInput)
  /-- A guarded call found nothing to call. -/
  | emptyFunction

/-- What a program says. -/
inductive Word (V : Type) where
  /-- A callable begins to run. -/
  | run (label : String) (arg : V)
  /-- An operation inside a script is done. -/
  | did (label word : String) (outcome : Outcome V)
  /-- A destructor faulted. -/
  | faulted (label message : String)
  /-- Two callables are compared loudly. -/
  | compared (left right : String)
  | note (arg : V)
  /-- A step of the program is done. -/
  | answer (outcome : Outcome V)

/-- The types that scripts on arguments of type `V` bring along. -/
abbrev vocabulary (V : Type) : Vocabulary where
  Arg := V
  Res := Except String V
  Native := Native V
  Tag := Tag
  Custom := KeyRule
  Word := Word V
  tag := Native.tag

/-! ## What is remembered -/

/-- The number of operations that one input may perform. -/
def fuelLimit : Nat := 20000

/-- The memory that all scripts of a program share. -/
structure Memory where
  names : Table (Shelf × String) HandleId := {}
  /-- How often the callables with a serial have run. -/
  runs : Table Nat Nat := {}
  nextSerial : Nat := 0
  /-- Labels of the callables dropped since they were last asked for. -/
  dropped : List String := []
  fuel : Nat := fuelLimit
  /-- An operation was to be performed without fuel. -/
  exhausted : Bool := false

namespace Memory

/-- The handle under a name. -/
def find (m : Memory) (shelf : Shelf) (name : String) : Option HandleId := m.names.get? (shelf, name)

/-- Puts a handle under a name. -/
def bind (m : Memory) (shelf : Shelf) (name : String) (h : HandleId) : Memory :=
  { m with names := m.names.insert (shelf, name) h }

/-- Takes a name out of its table. -/
def forget (m : Memory) (shelf : Shelf) (name : String) : Memory :=
  { m with names := m.names.erase (shelf, name) }

/-- A serial that no callable has. -/
def fresh (m : Memory) : Nat × Memory := (m.nextSerial, { m with nextSerial := m.nextSerial + 1 })

/-- Counts a run of a callable; gives the number of its runs, this one included. -/
def countRun (m : Memory) (serial : Nat) : Nat × Memory :=
  let runs := (m.runs.get? serial).getD 0 + 1
  (runs, { m with runs := m.runs.insert serial runs })

/-- Records that a callable was dropped. -/
def recordDrop (m : Memory) (label : String) : Memory := { m with dropped := label :: m.dropped }

end Memory

/-- Labels in order of code points, with repetitions. -/
def sortLabels (labels : List String) : List String := labels.mergeSort fun a b => decide (a ≤ b)

end Relay.Script
