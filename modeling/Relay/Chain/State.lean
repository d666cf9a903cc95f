/-
  A run of the library, held still.

  Listeners call into the library and the library calls listeners, to any depth.  A `State` keeps that
  nesting as DATA: a stack of frames, one for each call that has begun and not ended, each with what
  it owns and with how it goes on once the call above it has been answered.  Because a frame owns
  what it works on, an unwinding call lets go of exactly what a returning one does.
-/
import Relay.Chain.Heap

namespace Relay

/-- What the library reports while it runs. -/
inductive Note (T : Vocabulary) where
  /-- The program said something. -/
  | said (w : T.Word)
  | added (chain : ChainId) (slot : SlotId) (placement : Placement) (listeners : Nat)
  | skippedEmpty (placement : Placement)
  | removed (chain : ChainId) (slot : SlotId) (listeners : Nat)
  | cleared (chain : ChainId) (freed : Nat)
  | unmatched (probe : Option (Kind T.Tag))

/-- A search for the listener to remove. -/
structure Search where
  chain : ChainId
  probe : Fn
  /-- The slot whose listener is being compared. -/
  candidate : SlotId
  /-- What is still to be compared. -/
  remaining : List (SlotId × Fn)
  /-- All listeners linked when the search began, LAST first; the search owns them. -/
  snapshot : List (SlotId × Fn)
  deriving DecidableEq, Repr

/-- The place in a chain through which a listener is run. -/
structure Entry where
  chain : ChainId
  slot : SlotId
  dispatch : DispatchId
  deriving DecidableEq, Repr

/-- A call that has begun and not ended. -/
inductive Frame (H : Host) where
  /-- Code of the program, and what it owns. -/
  | user (code : H.Code) (owned : List Ref)
  /-- Waits for an answer, lets go of what it holds, and passes the answer on. -/
  | await (held : List Ref)
  /-- Lets go of one share after the other, whatever that brings about, and gives its own answer; or
      the fault of a destructor, if one has unwound. -/
  | releasing (todo : List Ref) (answer : Reply H.toVocabulary)
  /-- A simple listener while its function runs: it goes on with the chain afterwards. -/
  | afterSimple (event : Event) (arg : H.Arg)
  /-- A dispatch that has moved on and has yet to run the listener it moved to. -/
  | entering (entry : Entry) (event : Event) (arg : H.Arg)
  | searching (search : Search)

/-- What a release answers in the end, when it has heard `r` while it meant to give `answer`.  The fault
    of a destructor takes the place of the answer.  If the release is part of an unwinding already
    there are two faults at once, and that is the end of the program. -/
def Reply.joined {T : Vocabulary} (answer r : Reply T) : Option (Reply T) :=
  match r, answer with
  | .fault _, .fault _ => none
  | .fault f, _ => some (.fault f)
  | _, _ => some answer

/-- What happens next. -/
inductive Mode (H : Host) where
  /-- The topmost frame hears an answer. -/
  | reply (r : Reply H.toVocabulary)
  /-- A function is run; `entry` is the place it is run through, if it is run by a dispatch. -/
  | invoke (entry : Option Entry) (f : Fn) (event : Option Event) (arg : H.Arg)
  /-- Two functions are compared. -/
  | compare (left right : Fn)

/-- A run, held still. -/
structure State (H : Host) where
  heap : Heap H.toVocabulary := {}
  memory : H.Memory
  /-- What was reported, LATEST first. -/
  journal : List (Note H.toVocabulary) := []
  /-- The calls in progress, INNERMOST first. -/
  frames : List (Frame H)
  mode : Mode H := .reply .done

namespace State

variable {H : Host}

/-- Begins a call. -/
def push (s : State H) (fr : Frame H) : State H := { s with frames := fr :: s.frames }

/-- Answers the topmost frame. -/
def answer (s : State H) (r : Reply H.toVocabulary) : State H := { s with mode := .reply r }

/-- Reports something. -/
def report (s : State H) (n : Note H.toVocabulary) : State H := { s with journal := n :: s.journal }

/-- Lets go of shares, and answers after that. -/
def release (s : State H) (refs : List Ref) (r : Reply H.toVocabulary) : State H :=
  (s.push (.releasing refs r)).answer .done

/-- Takes a share in each handle until the next answer has come. -/
def hold (s : State H) (handles : List HandleId) : State H :=
  let refs := handles.map Ref.handle
  { s with heap := s.heap.retainAll refs }.push (.await refs)

/-- No call is in progress. -/
def ended (s : State H) : Bool := s.frames.isEmpty

end State

end Relay
