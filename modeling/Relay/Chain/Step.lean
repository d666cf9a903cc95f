/-
  The library at work: ONE step of a run.

  `State.step` is total and deterministic, and everything a dispatcher does is one of its cases.  A
  step never runs code of the program in its middle: where code has to run, the step ends with that
  code on top of the stack, and the frame below it knows how to go on.  So whatever the code does, it
  finds every chain in order, between two operations and not within one.
-/
import Relay.Chain.State

namespace Relay
namespace State

variable {H : Host}

/-! ## Running along a chain -/

/-- Starts a dispatch: pins the first slot and runs its listener.  The call keeps a clone of the
    listener until it returns; the event is let go of before that clone. -/
def startCall (s : State H) (c : ChainId) (arg : H.Arg) : State H :=
  let first := (s.heap.chains.get? c).bind fun chain =>
    chain.first.bind fun slot => (chain.listener? slot).map fun listener => (slot, listener)
  match first with
  | none => s.answer (.result none)
  | some (slot, listener) =>
    let chains := (s.heap.chains.modify c (·.pin slot)).retain c
    let (d, dispatches) := s.heap.dispatches.alloc ⟨c, some slot⟩
    let heap := { s.heap with chains, dispatches }.retainAll [.function listener, .function listener]
    let event : Event := ⟨d, listener⟩
    { { s with heap }.push (.await [.function listener]) with
      mode := .invoke (some ⟨c, slot, d⟩) listener (some event) arg }

/-- The dispatch of `event` moves on.  In one step it takes the slot that follows, gives back the pin
    on the slot it leaves and pins the new one; then the tombstone it may have left is let go of; and
    only then the new listener runs. -/
def advance (s : State H) (event : Event) (arg : H.Arg) : State H :=
  match s.heap.dispatches.get? event.dispatch with
  | none => s.answer (.result none)
  | some d =>
    match s.heap.chains.get? d.chain with
    | none => s.answer (.result none)
    | some chain =>
      let following := d.cursor.bind chain.following
      let (left, chain) := match d.cursor with
        | some slot => chain.unpin slot
        | none => (none, chain)
      let leaving := left.toList.map Ref.function
      let entered := following.bind fun slot => (chain.listener? slot).map fun listener => (slot, listener)
      match entered with
      | none =>
        let chains := s.heap.chains.modify d.chain fun _ => chain
        let dispatches := s.heap.dispatches.modify event.dispatch ({ · with cursor := none })
        { s with heap := { s.heap with chains, dispatches } }.release leaving (.result none)
      | some (slot, listener) =>
        let chains := s.heap.chains.modify d.chain fun _ => chain.pin slot
        let dispatches := (s.heap.dispatches.modify event.dispatch ({ · with cursor := some slot })).retain
          event.dispatch
        let heap := { s.heap with chains, dispatches }.retainAll [.function listener, .function listener]
        let entering := ({ s with heap }.push (.await [.function listener])).push
          (.entering ⟨d.chain, slot, event.dispatch⟩ ⟨event.dispatch, listener⟩ arg)
        entering.release leaving .done

/-! ## Calling and comparing functions -/

/-- Runs a function. -/
def invoke (s : State H) (f : Fn) (event : Option Event) (arg : H.Arg) : State H :=
  match f.bind s.heap.payloads.get? with
  | none => s.release (event.toList.map .event) (.fault .emptyFunction)
  | some load =>
    match load.body, event with
    | .native n _, some event =>
      let (i, heap) := s.heap.wrapUp (.event event)
      ({ s with heap }.push (.user (H.onCall n (some i) arg) [.handle i])).answer .done
    | .native n _, none => (s.push (.user (H.onCall n none arg) [])).answer .done
    | .simple inner, some event =>
      { s.push (.afterSimple event arg) with mode := .invoke none inner none arg }
    | .simple inner, none => { s with mode := .invoke none inner none arg }
    | .chain c, event => (s.push (.await (event.toList.map .event))).startCall c arg

/-- Compares two functions.  What can be settled from outside is; two simple listeners are equal when
    their functions are; and else the rule is asked. -/
def compare (s : State H) (left right : Fn) : State H :=
  match judge (s.heap.stored left) (s.heap.stored right) with
  | .settled same => s.answer (.flag same)
  | .consult =>
    match left.bind s.heap.payloads.get?, right.bind s.heap.payloads.get? with
    | some l, some r =>
      match l.rule, l.body, r.body with
      | .identity, _, _ => s.answer (.flag false)
      | _, .simple a, .simple b => { s with mode := .compare a b }
      | rule, .native m _, .native n _ => (s.push (.user (H.onCompare rule m n) [])).answer .done
      | _, _, _ => s.answer (.flag false)
    | _, _ => s.answer (.flag false)

/-! ## Removing -/

/-- Goes on with a search; at its end nothing matched. -/
def search (s : State H) (c : ChainId) (probe : Fn) (snapshot : List (SlotId × Fn)) :
    List (SlotId × Fn) → State H
  | [] =>
    (s.report (.unmatched ((s.heap.stored probe).map (·.type)))).release
      (snapshot.map fun e => .function e.2) (.flag false)
  | (candidate, listener) :: remaining =>
    { s.push (.searching { chain := c, probe, candidate, remaining, snapshot }) with
      mode := .compare listener probe }

/-- Begins to remove one listener equal to `probe`: a share in every linked listener is taken, and
    they are compared from the tail. -/
def startRemove (s : State H) (c : ChainId) (probe : Fn) : State H :=
  let snapshot := ((s.heap.chains.get? c).map (·.backwards)).getD []
  let heap := s.heap.retainAll (snapshot.map fun e => .function e.2)
  { s with heap }.search c probe snapshot snapshot

/-- Detaches the slot that matched, unless the comparing itself has removed it. -/
def detachFound (s : State H) (found : Search) : State H :=
  let snapshot := found.snapshot.map fun e => Ref.function e.2
  match s.heap.chains.get? found.chain with
  | none => s.release snapshot (.flag false)
  | some chain =>
    if chain.contains found.candidate then
      let (listener, chain) := chain.detach found.candidate
      let heap := { s.heap with chains := s.heap.chains.modify found.chain fun _ => chain }
      ({ s with heap }.report (.removed found.chain found.candidate chain.size)).release
        (listener.toList.map Ref.function ++ snapshot) (.flag true)
    else s.release snapshot (.flag false)

/-! ## Adding -/

/-- Adds a listener that the caller owns a share of. -/
def link (s : State H) (c : ChainId) (listener : Fn) (placement : Placement) : State H :=
  match s.heap.chains.get? c with
  | none => s.answer .refused
  | some chain =>
    let added := match placement with
      | .front => chain.prepend listener
      | .back => chain.append listener
    let heap := { s.heap with chains := s.heap.chains.modify c fun _ => added }
    ({ s with heap }.report (.added c chain.nextId placement added.size)).answer .done

/-! ## Answering requests -/

/-- Answers with a new handle on what the caller owned until now. -/
def handOut (s : State H) (ref : Ref) : State H :=
  let (i, heap) := s.heap.wrapUp ref
  { s with heap }.answer (.made i)

/-- Takes away what a handle owns, if it has a SINGLE holder; else only that holder's share goes. -/
def seize (s : State H) (i : HandleId) : Option Ref × State H :=
  let (ref, handles) := s.heap.handles.release i
  (ref, { s with heap := { s.heap with handles } })

/-- Does what the program asked for, as far as it goes without running code. -/
def ask (s : State H) : Request H.toVocabulary → State H
  | .makeEmpty => s.handOut (.function none)
  | .make native rule keeps =>
    let (f, heap) := s.heap.store ⟨.native native keeps, rule⟩
    { s with heap }.handOut (.function f)
  | .copy i =>
    match s.heap.functionOf i with
    | none => s.answer .refused
    | some f => { s with heap := s.heap.retain (.function f) }.handOut (.function f)
  | .openChain =>
    let (c, chains) := s.heap.chains.alloc {}
    { s with heap := { s.heap with chains } }.handOut (.chain c)
  | .share i => { s with heap := s.heap.retain (.handle i) }.answer .done
  | .discard i => s.release [.handle i] .done
  | .add chain function placement =>
    match s.heap.chainOf chain, s.heap.functionOf function with
    | some _, some none => (s.report (.skippedEmpty placement)).answer .done
    | some c, some f => { s with heap := s.heap.retain (.function f) }.link c f placement
    | _, _ => s.answer .refused
  | .addSimple chain function placement =>
    match s.heap.chainOf chain, s.heap.functionOf function with
    | some _, some none => (s.report (.skippedEmpty placement)).answer .done
    | some c, some inner =>
      let (f, heap) := (s.heap.retain (.function inner)).store ⟨.simple inner, .byValue⟩
      { s with heap }.link c f placement
    | _, _ => s.answer .refused
  | .remove chain function =>
    match s.heap.chainOf chain, s.heap.functionOf function with
    | some c, some probe => (s.hold [chain, function]).startRemove c probe
    | _, _ => s.answer .refused
  | .removeCurrent chain i =>
    match s.heap.chainOf chain, s.heap.eventOf i with
    | some c, some event => (s.hold [i, chain]).startRemove c event.recipient
    | _, _ => s.answer .refused
  | .removeSimple chain function =>
    match s.heap.chainOf chain, s.heap.functionOf function with
    | some c, some inner =>
      let held := s.hold [chain, function]
      let (probe, heap) := (held.heap.retain (.function inner)).store ⟨.simple inner, .byValue⟩
      ({ held with heap }.push (.await [.function probe])).startRemove c probe
    | _, _ => s.answer .refused
  | .removeNative chain native =>
    match s.heap.chainOf chain with
    | some c =>
      let held := s.hold [chain]
      let (probe, heap) := held.heap.store ⟨.native native [], .byValue⟩
      ({ held with heap }.push (.await [.function probe])).startRemove c probe
    | none => s.answer .refused
  | .clear chain =>
    match s.heap.chainOf chain with
    | none => s.answer .refused
    | some c =>
      let (freed, cleared) := ((s.heap.chains.get? c).getD {}).clear (H.shuffle c)
      let held := s.hold [chain]
      let heap := { held.heap with chains := held.heap.chains.modify c fun _ => cleared }
      ({ held with heap }.report (.cleared c freed.length)).release (freed.map .function) .done
  | .size chain =>
    match (s.heap.chainOf chain).bind s.heap.chains.get? with
    | none => s.answer .refused
    | some c => s.answer (.size c.size)
  | .call chain arg =>
    match s.heap.chainOf chain with
    | none => s.answer .refused
    | some c => (s.hold [chain]).startCall c arg
  | .next i arg =>
    match s.heap.eventOf i with
    | none => s.answer .refused
    | some event => (s.hold [i]).advance event arg
  | .apply function arg =>
    match s.heap.functionOf function with
    | none => s.answer .refused
    | some f => { s.hold [function] with mode := .invoke none f none arg }
  | .deliver function i arg guarded =>
    match s.heap.functionOf function, s.heap.eventOf i with
    | some f, some event =>
      match s.seize i with
      | (none, s) => s.answer .inUse
      | (some _, s) =>
        let held := s.hold [function]
        if guarded && f.isNone then held.release [.event event] .nothingToCall
        else { held with mode := .invoke none f (some event) arg }
    | _, _ => s.answer .refused
  | .wrap chain =>
    match s.heap.handles.get? chain with
    | some (.chain c) =>
      match s.seize chain with
      | (none, s) => s.answer .inUse
      | (some _, s) =>
        let (f, heap) := s.heap.store ⟨.chain c, .identity⟩
        { s with heap }.handOut (.function f)
    | _ => s.answer .refused
  | .same left right =>
    match s.heap.functionOf left, s.heap.functionOf right with
    | some l, some r => { s.hold [right, left] with mode := .compare l r }
    | _, _ => s.answer .refused
  | .kindOf function =>
    match s.heap.functionOf function with
    | none => s.answer .refused
    | some f => s.answer (.kind ((s.heap.stored f).map (·.type)))
  | .finished i =>
    match (s.heap.eventOf i).bind fun event => s.heap.dispatches.get? event.dispatch with
    | none => s.answer .refused
    | some d => s.answer (.flag d.cursor.isNone)

/-! ## One step -/

/-- Code of the program takes a turn.  When it has ended, what it owned is let go of. -/
def takeTurn (s : State H) (code : H.Code) (owned : List Ref) (r : Reply H.toVocabulary) : State H :=
  let turn := H.resume code r s.memory
  let s := { s with memory := turn.memory, journal := (turn.said.map Note.said).reverse ++ s.journal }
  match turn.act with
  | .finish r => s.release owned r
  | .pause code => (s.push (.user code owned)).answer .done
  | .request rq code => (s.push (.user code owned)).ask rq

/-- Lets go of the next share.  A destructor runs before anything that its callable owned is let go
    of. -/
def releaseNext (s : State H) (todo : List Ref) (r : Reply H.toVocabulary) : State H :=
  match todo with
  | [] => s.answer r
  | ref :: rest =>
    let (freed, heap) := s.heap.release ref
    let s := { s with heap }.push (.releasing (freed.refs ++ rest) r)
    match freed.dropped.bind H.onDrop with
    | none => s.answer .done
    | some code => (s.push (.user code [])).answer .done

/-- A frame hears an answer.  A call that is unwound lets go of what it owns, as one that returns
    does.  Two faults at once ABORT the program: it hears the second one for ever. -/
def hear (s : State H) (r : Reply H.toVocabulary) : Frame H → State H
  | .user code owned => s.takeTurn code owned r
  | .await held => s.release held r
  | .releasing todo answer =>
    match answer.joined r with
    | none => (s.push (.releasing todo answer)).answer r
    | some answer => s.releaseNext todo answer
  | .afterSimple event arg =>
    match r with
    | .fault f => s.release [.event event] (.fault f)
    | _ => (s.push (.await [.event event])).advance event arg
  | .entering entry event arg =>
    match r with
    | .fault f => s.release [.event event] (.fault f)
    | _ => { s with mode := .invoke (some entry) event.recipient (some event) arg }
  | .searching found =>
    match r with
    | .flag true => s.detachFound found
    | .fault f => s.release (found.snapshot.map fun e => .function e.2) (.fault f)
    | _ => s.search found.chain found.probe found.snapshot found.remaining

/-- One step of a run.  A run that has ended stays as it is. -/
def step (s : State H) : State H :=
  match s.mode with
  | .compare left right => s.compare left right
  | .invoke _ f event arg => s.invoke f event arg
  | .reply r =>
    match s.frames with
    | [] => s
    | fr :: frames => { s with frames }.hear r fr

/-- Up to `n` steps. -/
def run : Nat → State H → State H
  | 0, s => s
  | n + 1, s => if s.ended then s else run n s.step

end State

end Relay
