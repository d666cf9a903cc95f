/-
  What the library stores, and WHO OWNS WHAT.

  Four kinds of things are stored and counted: payloads (the callables inside functions), chains,
  dispatches, and the handles of the program.  A `Ref` is one owner's share of one of them.  The only
  way in is `retain`, the only way out is `release`, and a thing goes with its last owner: then its
  own shares are handed back as `Freed`, still to be released, together with the callable whose
  destructor has to run FIRST.
-/
import Relay.Pool
import Relay.Chain.Basic
import Relay.Chain.Host

namespace Relay

/-! ## Stored things -/

/-- A function: nothing, or a stored callable. -/
abbrev Fn := Option PayloadId

/-- What a stored callable is. -/
inductive Body (T : Vocabulary) where
  /-- The program's own code, with the handles it keeps. -/
  | native (n : T.Native) (keeps : List HandleId)
  /-- A listener that runs `inner` and goes on with the chain. -/
  | simple (inner : Fn)
  /-- A function that runs a chain. -/
  | chain (c : ChainId)

/-- A stored callable and the rule it is compared by. -/
structure Payload (T : Vocabulary) where
  body : Body T
  rule : Rule T.Custom

/-- One run along a chain: all its events share the cursor, the PINNED slot it stands on.  Past the
    end there is none. -/
structure Dispatch where
  chain : ChainId
  cursor : Option SlotId
  deriving DecidableEq, Repr

/-- What a listener receives besides the argument: its dispatch, and itself. -/
structure Event where
  dispatch : DispatchId
  recipient : Fn
  deriving DecidableEq, Repr

/-- One owner's share. -/
inductive Ref where
  | function (f : Fn)
  | chain (c : ChainId)
  | dispatch (d : DispatchId)
  | event (e : Event)
  | handle (h : HandleId)
  deriving DecidableEq, Repr

/-- All that is stored. -/
structure Heap (T : Vocabulary) where
  payloads : Pool (Payload T) := {}
  chains : Pool (Chain Fn) := {}
  /-- A dispatch is owned by its events. -/
  dispatches : Pool Dispatch := {}
  /-- A handle owns one thing and is owned by its holders. -/
  handles : Pool Ref := {}

/-- The shares a payload has in other things. -/
def Body.keeps {T : Vocabulary} : Body T → List Ref
  | .native _ keeps => keeps.map .handle
  | .simple inner => [.function inner]
  | .chain c => [.chain c]

/-- The concrete type of a payload. -/
def Body.kind {T : Vocabulary} : Body T → Kind T.Tag
  | .native n _ => .own (T.tag n)
  | .simple _ => .simpleListener
  | .chain _ => .chainFunction

/-- The chain that a payload runs, if it is a function of that kind. -/
def Body.chain? {T : Vocabulary} : Body T → Option ChainId
  | .chain c => some c
  | _ => none

namespace Heap

variable {T : Vocabulary}

/-! ## What a handle owns -/

/-- The function of a handle; of an event, the listener that received it. -/
def functionOf (h : Heap T) (i : HandleId) : Option Fn :=
  match h.handles.get? i with
  | some (.function f) => some f
  | some (.event e) => some e.recipient
  | _ => none

/-- The event of a handle. -/
def eventOf (h : Heap T) (i : HandleId) : Option Event :=
  match h.handles.get? i with
  | some (.event e) => some e
  | _ => none

/-- The chain of a handle; of an event, the chain it came along. -/
def chainOf (h : Heap T) (i : HandleId) : Option ChainId :=
  match h.handles.get? i with
  | some (.chain c) => some c
  | some (.event e) => (h.dispatches.get? e.dispatch).map (·.chain)
  | _ => none

/-- What can be seen of a function from outside. -/
def stored (h : Heap T) (f : Fn) : Option (Stored PayloadId (Kind T.Tag) (Rule T.Custom)) :=
  f.bind fun p => (h.payloads.get? p).map fun load => ⟨p, load.body.kind, load.rule⟩

/-! ## Owning -/

/-- One more owner of what the share is in. -/
def retain (h : Heap T) : Ref → Heap T
  | .function none => h
  | .function (some p) => { h with payloads := h.payloads.retain p }
  | .chain c => { h with chains := h.chains.retain c }
  | .dispatch d => { h with dispatches := h.dispatches.retain d }
  | .event e =>
    let h := { h with dispatches := h.dispatches.retain e.dispatch }
    match e.recipient with
    | none => h
    | some p => { h with payloads := h.payloads.retain p }
  | .handle i => { h with handles := h.handles.retain i }

/-- One more owner of each. -/
def retainAll (h : Heap T) (refs : List Ref) : Heap T := refs.foldl retain h

/-- Stores a callable; the caller owns it. -/
def store (h : Heap T) (load : Payload T) : Fn × Heap T :=
  let (p, payloads) := h.payloads.alloc load
  (some p, { h with payloads })

/-- A handle on what the caller owned until now. -/
def wrapUp (h : Heap T) (ref : Ref) : HandleId × Heap T :=
  let (i, handles) := h.handles.alloc ref
  (i, { h with handles })

/-! ## Letting go -/

/-- What becomes due when a share is let go of. -/
structure Freed (T : Vocabulary) where
  /-- The callable that has gone. -/
  dropped : Option T.Native := none
  /-- Shares that nobody owns now, in the order in which they are let go of. -/
  refs : List Ref := []

/-- The last event of a dispatch has gone: the cursor gives its pin back, and a tombstone that
    nobody stands on any more gives up its listener, before the chain is let go of. -/
def closeDispatch (h : Heap T) (d : Dispatch) : Freed T × Heap T :=
  match d.cursor, h.chains.get? d.chain with
  | some slot, some chain =>
    let (listener, chain) := chain.unpin slot
    ({ refs := listener.toList.map .function ++ [.chain d.chain] },
      { h with chains := h.chains.modify d.chain fun _ => chain })
  | _, _ => ({ refs := [.chain d.chain] }, h)

/-- Lets go of one share. -/
def release (h : Heap T) : Ref → Freed T × Heap T
  | .function none => ({}, h)
  | .function (some p) =>
    match h.payloads.release p with
    | (none, payloads) => ({}, { h with payloads })
    | (some load, payloads) =>
      let dropped := match load.body with
        | .native n _ => some n
        | _ => none
      ({ dropped, refs := load.body.keeps }, { h with payloads })
  | .chain c =>
    match h.chains.release c with
    | (none, chains) => ({}, { h with chains })
    | (some gone, chains) =>
      ({ refs := (gone.dissolve (T.shuffle c)).map .function }, { h with chains })
  | .dispatch d =>
    match h.dispatches.release d with
    | (none, dispatches) => ({}, { h with dispatches })
    | (some gone, dispatches) => closeDispatch { h with dispatches } gone
  | .event e => ({ refs := [.dispatch e.dispatch, .function e.recipient] }, h)
  | .handle i =>
    match h.handles.release i with
    | (none, handles) => ({}, { h with handles })
    | (some ref, handles) => ({ refs := [ref] }, { h with handles })

end Heap

end Relay
