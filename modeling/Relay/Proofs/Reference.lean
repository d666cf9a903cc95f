/-
  A plain interpreter over lists, to measure dispatching against.

  It knows nothing of slots, pins, cursors and counts.  A dispatch is a list of the listeners that
  are still to come, shared by all code that runs in it: `next` takes the head of that list and runs
  it on the same list, and a call is a `next` on the whole list of a chain.  Code may compare
  functions, and it may make functions and copies of functions for itself, which it has to let go of
  before it ends.  Nothing ever changes a chain here, and neither an event nor a function outlives
  the code that it belongs to; code that asks for such things has STRAYED, and of that the
  interpreter has nothing to say.

  The code itself is as arbitrary as everywhere else, and shares one memory.  It may never come to
  an end, so the interpreter is given fuel, one unit for every function that starts, for every
  comparison and for every turn that code takes.
-/
import Relay.Proofs.Listing

namespace Relay
namespace Plain

variable {H : Host}

/-! ## What code can see -/

/-- What there is to interpret. -/
structure View (H : Host) where
  /-- The listeners of a chain, in dispatch order. -/
  listeners : ChainId → List Fn
  payload : PayloadId → Option (Payload H.toVocabulary)
  chainOf : HandleId → Option ChainId
  functionOf : HandleId → Option Fn
  /-- Whether the dispatch of an event is past the end, if nothing here can move it on. -/
  finished : HandleId → Option Bool

/-- What runs when a function is called. -/
def View.body (v : View H) (f : Fn) : Option (Body H.toVocabulary) :=
  (f.bind v.payload).map (·.body)

/-- What can be seen of a function from outside. -/
def View.stored (v : View H) (f : Fn) :
    Option (Stored PayloadId (Kind H.Tag) (Rule H.Custom)) :=
  f.bind fun q => (v.payload q).map fun load => ⟨q, load.body.kind, load.rule⟩

/-- The name `i` stands for an event that `f` has received from the chain `c`. -/
def View.receive (v : View H) (i : HandleId) (c : ChainId) (f : Fn) : View H :=
  { v with
    chainOf := fun k => if k = i then some c else v.chainOf k
    functionOf := fun k => if k = i then some f else v.functionOf k }

/-- A callable that code stores without handing anything over to it. -/
structure Callable (H : Host) where
  native : H.Native
  rule : Rule H.Custom

/-- The callable as the library stores it. -/
def Callable.payload (c : Callable H) : Payload H.toVocabulary := ⟨.native c.native [], c.rule⟩

/-- What code has of its own while it runs. -/
structure Desk (H : Host) where
  /-- The name of the event that it has received, and the chain of the event. -/
  event : Option (HandleId × ChainId) := none
  /-- The functions that it has made and not let go of, by name. -/
  made : Table HandleId Fn := {}
  /-- The callables that it has stored for them. -/
  callables : Table PayloadId (Callable H) := {}

/-- The stored callables, where these are the ones that are not of the desk. -/
def Desk.payload (d : Desk H) (others : PayloadId → Option (Payload H.toVocabulary))
    (q : PayloadId) : Option (Payload H.toVocabulary) :=
  match d.callables.get? q with
  | some c => some c.payload
  | none => others q

/-- What code can see that has this of its own. -/
def View.over (v : View H) (d : Desk H) : View H :=
  { v with
    payload := d.payload v.payload
    functionOf := fun i =>
      match d.made.get? i with
      | some f => some f
      | none => v.functionOf i }

/-! ## What running comes to -/

/-- What is left of a dispatch: the listeners behind the one where it stands.  Past the end there is
    no such place any more. -/
abbrev Rest := Option (List Fn)

/-- How far the interpreter has come. -/
structure Progress (H : Host) where
  memory : H.Memory
  journal : List (Note H.toVocabulary)
  /-- The listeners that were run, each with what it was run on, in order. -/
  calls : List (Fn × H.Arg)
  /-- The next name for an event or a function. -/
  fresh : HandleId
  /-- The number of the next callable. -/
  stored : PayloadId

/-- What running something comes to. -/
inductive Outcome (H : Host) where
  /-- It was answered; `rest` is what it has left of the dispatch that it runs in. -/
  | done (r : Reply H.toVocabulary) (rest : Rest) (p : Progress H)
  | timeout (p : Progress H)
  | strayed

/-- Goes on with an answer, if there is one. -/
def Outcome.andThen (o : Outcome H)
    (k : Reply H.toVocabulary → Rest → Progress H → Outcome H) : Outcome H :=
  match o with
  | .done r rest p => k r rest p
  | .timeout p => .timeout p
  | .strayed => .strayed

/-- The listeners that were run, once there is an answer. -/
def Outcome.calls? : Outcome H → Option (List (Fn × H.Arg))
  | .done _ _ p => some p.calls
  | _ => none

theorem Outcome.calls?_eq_some {o : Outcome H} {cs : List (Fn × H.Arg)} (h : o.calls? = some cs) :
    ∃ r rest p, o = .done r rest p ∧ p.calls = cs := by
  cases o with
  | done r rest p => exact ⟨r, rest, p, rfl, Option.some.inj h⟩
  | _ => exact absurd h (by simp [calls?])

/-! ## Running -/

/-- What there is to run. -/
inductive Task (H : Host) where
  /-- A function; as a listener of the chain `home`, if it is one. -/
  | apply (f : Fn) (home : Option ChainId) (arg : H.Arg)
  | compare (left right : Fn)
  /-- Code that hears an answer. -/
  | resume (code : H.Code) (desk : Desk H) (r : Reply H.toVocabulary)

/-- How the interpreter runs a task, given what is left of the dispatch that the task runs in. -/
abbrev Runner (H : Host) := Task H → Rest → Progress H → Outcome H

/-- `next`: nothing if the list is empty, else what comes of its head on the rest of the list. -/
def next (run : Runner H) (home : ChainId) (arg : H.Arg) : Rest → Progress H → Outcome H
  | some (m :: rest), p =>
    run (.apply m (some home) arg) (some rest) { p with calls := p.calls ++ [(m, arg)] }
  | _, p => .done (.result none) none p

/-- A call: a `next` on a fresh list.  The list of the caller stays as it is. -/
def call (v : View H) (run : Runner H) (c : ChainId) (arg : H.Arg) (rest : Rest) (p : Progress H) :
    Outcome H :=
  (next run c arg (some (v.listeners c)) p).andThen fun r _ p => .done r rest p

/-- Runs what belongs to no dispatch.  The list of the caller stays as it is. -/
def outside (run : Runner H) (t : Task H) (rest : Rest) (p : Progress H) : Outcome H :=
  (run t none p).andThen fun r _ p => .done r rest p

/-- What code may ask for while it runs, if what it has of its own stays as it is. -/
def answer (v : View H) (run : Runner H) (event : Option (HandleId × ChainId)) (rest : Rest)
    (p : Progress H) : Request H.toVocabulary → Outcome H
  | .next i arg =>
    match event with
    | some (j, c) => if i = j then next run c arg rest p else .strayed
    | none => .strayed
  | .call i arg =>
    match v.chainOf i with
    | some c => call v run c arg rest p
    | none => .strayed
  | .apply i arg =>
    match v.functionOf i with
    | some f => outside run (.apply f none arg) rest p
    | none => .strayed
  | .same i j =>
    match v.functionOf i, v.functionOf j with
    | some f, some g => outside run (.compare f g) rest p
    | _, _ => .strayed
  | .size i =>
    match v.chainOf i with
    | some c => .done (.size (v.listeners c).length) rest p
    | none => .strayed
  | .kindOf i =>
    match v.functionOf i with
    | some f => .done (.kind ((v.stored f).map (·.type))) rest p
    | none => .strayed
  | .finished i =>
    if i ∈ event.map (·.1) then .done (.flag rest.isNone) rest p
    else
      match v.finished i with
      | some b => .done (.flag b) rest p
      | none => .strayed
  | _ => .strayed

/-! ### Functions of its own -/

/-- The interpreter has given a name to an event or a function. -/
def Progress.named (p : Progress H) : Progress H := { p with fresh := p.fresh + 1 }

/-- The interpreter has stored a callable. -/
def Progress.storing (p : Progress H) : Progress H := { p with stored := p.stored + 1 }

/-- Code gets a function of its own. -/
def Desk.name (d : Desk H) (i : HandleId) (f : Fn) : Desk H := { d with made := d.made.insert i f }

/-- A callable is stored for code. -/
def Desk.store (d : Desk H) (q : PayloadId) (c : Callable H) : Desk H :=
  { d with callables := d.callables.insert q c }

/-- What code has after it has asked for a function, and how far the interpreter has come then; the
    name of the function is `p.fresh`. -/
def make? (v : View H) (d : Desk H) (p : Progress H) :
    Request H.toVocabulary → Option (Desk H × Progress H)
  | .makeEmpty => some (d.name p.fresh none, p.named)
  | .make native rule [] =>
    some ((d.store p.stored ⟨native, rule⟩).name p.fresh (some p.stored), p.storing.named)
  | .copy i => (v.functionOf i).map fun f => (d.name p.fresh f, p.named)
  | _ => none

/-- The function of its own that code lets go of. -/
def Desk.discards? (d : Desk H) : Request H.toVocabulary → Option (HandleId × Fn)
  | .discard i => (d.made.get? i).map (i, ·)
  | _ => none

/-- Whether a callable was stored for functions of which none is left. -/
def Desk.idle? (d : Desk H) (f : Fn) : Option (PayloadId × Callable H) :=
  f.bind fun q => if f ∈ d.made.values then none else (d.callables.get? q).map (q, ·)

/-- What code has after it has let go of a function, and the callable that has ended. -/
def Desk.discard (d : Desk H) (i : HandleId) (f : Fn) : Desk H × Option (Callable H) :=
  let d := { d with made := d.made.erase i }
  match d.idle? f with
  | none => (d, none)
  | some (q, c) => ({ d with callables := d.callables.erase q }, some c)

/-- A callable may have a destructor, which runs when it ends, and may fail. -/
def discard (run : Runner H) (ended : Option (Callable H)) (rest : Rest) (p : Progress H) :
    Outcome H :=
  match ended.bind fun c => H.onDrop c.native with
  | none => .done .done rest p
  | some code =>
    (outside run (.resume code {} .done) rest p).andThen fun r rest p =>
      match r with
      | .fault x => .done (.fault x) rest p
      | _ => .done .done rest p

/-! ### The interpreter -/

/-- What a turn of code leaves. -/
def Progress.turn (p : Progress H) (t : Turn H.toVocabulary H.Code H.Memory) : Progress H :=
  { p with memory := t.memory, journal := (t.said.map Note.said).reverse ++ p.journal }

/-- Runs a task, with that much fuel. -/
def interpret : View H → Nat → Runner H
  | _, 0, _, _, p => .timeout p
  | v, fuel + 1, .apply f home arg, rest, p =>
    match v.body f, home with
    | none, _ => .done (.fault .emptyFunction) rest p
    | some (.native n _), none => interpret v fuel (.resume (H.onCall n none arg) {} .done) rest p
    | some (.native n _), some c =>
      interpret (v.receive p.fresh c f) fuel
        (.resume (H.onCall n (some p.fresh) arg) { event := some (p.fresh, c) } .done) rest p.named
    | some (.simple inner), none => interpret v fuel (.apply inner none arg) rest p
    | some (.simple inner), some c =>
      (interpret v fuel (.apply inner none arg) none p).andThen fun r _ p =>
        match r with
        | .fault x => .done (.fault x) rest p
        | _ => next (interpret v fuel) c arg rest p
    | some (.chain c), _ => call v (interpret v fuel) c arg rest p
  | v, fuel + 1, .compare left right, rest, p =>
    match judge (v.stored left) (v.stored right) with
    | .settled same => .done (.flag same) rest p
    | .consult =>
      match left.bind v.payload, right.bind v.payload with
      | some l, some r =>
        match l.rule, l.body, r.body with
        | .identity, _, _ => .done (.flag false) rest p
        | _, .simple a, .simple b => interpret v fuel (.compare a b) rest p
        | rule, .native m _, .native n _ =>
          interpret v fuel (.resume (H.onCompare rule m n) {} .done) rest p
        | _, _, _ => .done (.flag false) rest p
      | _, _ => .done (.flag false) rest p
  | v, fuel + 1, .resume code d r, rest, p =>
    let turn := H.resume code r p.memory
    match turn.act with
    | .finish r => if d.made.entries = [] then .done r rest (p.turn turn) else .strayed
    | .pause code => interpret v fuel (.resume code d .done) rest (p.turn turn)
    | .request rq code =>
      match make? (v.over d) d (p.turn turn) rq, d.discards? rq with
      | some (d, q), _ => interpret v fuel (.resume code d (.made p.fresh)) rest q
      | none, some (i, f) =>
        let (d, ended) := d.discard i f
        (discard (interpret (v.over d) fuel) ended rest (p.turn turn)).andThen fun r rest p =>
          interpret v fuel (.resume code d r) rest p
      | none, none =>
        (answer (v.over d) (interpret (v.over d) fuel) d.event rest (p.turn turn) rq).andThen
          fun r rest p => interpret v fuel (.resume code d r) rest p

/-! ## More fuel -/

/-- What `o` comes to with more fuel: nothing else, once it has come to something. -/
def Outcome.Grows (o o' : Outcome H) : Prop := (∃ p, o = .timeout p) ∨ o' = o

theorem Outcome.Grows.of_le {f : Nat → Outcome H} (h : ∀ n, (f n).Grows (f (n + 1))) {m n : Nat}
    (hle : m ≤ n) : (f m).Grows (f n) := by
  induction n, hle using Nat.le_induction with
  | base => exact .inr rfl
  | succ n _ ih =>
    rcases ih with htimeout | hsame
    · exact .inl htimeout
    · exact hsame ▸ h n

theorem Outcome.Grows.andThen {o o' : Outcome H} (ho : o.Grows o')
    {k k' : Reply H.toVocabulary → Rest → Progress H → Outcome H}
    (hk : ∀ r rest p, (k r rest p).Grows (k' r rest p)) : (o.andThen k).Grows (o'.andThen k') := by
  rcases ho with ⟨p, rfl⟩ | rfl
  · exact .inl ⟨p, rfl⟩
  · cases o' with
    | done r rest p => exact hk r rest p
    | timeout p => exact .inl ⟨p, rfl⟩
    | strayed => exact .inr rfl

section Grows

variable {v : View H} {run run' : Runner H} (h : ∀ t rest p, (run t rest p).Grows (run' t rest p))
include h

theorem next_grows (home : ChainId) (arg : H.Arg) (rest : Rest) (p : Progress H) :
    (next run home arg rest p).Grows (next run' home arg rest p) := by
  cases rest with
  | none => exact .inr rfl
  | some rest =>
    cases rest with
    | nil => exact .inr rfl
    | cons m rest => exact h _ _ _

theorem call_grows (c : ChainId) (arg : H.Arg) (rest : Rest) (p : Progress H) :
    (call v run c arg rest p).Grows (call v run' c arg rest p) :=
  (next_grows h c arg _ p).andThen fun _ _ _ => .inr rfl

theorem outside_grows (t : Task H) (rest : Rest) (p : Progress H) :
    (outside run t rest p).Grows (outside run' t rest p) :=
  (h _ _ _).andThen fun _ _ _ => .inr rfl

theorem discard_grows (ended : Option (Callable H)) (rest : Rest) (p : Progress H) :
    (discard run ended rest p).Grows (discard run' ended rest p) := by
  unfold discard
  cases ended.bind fun c => H.onDrop c.native with
  | none => exact .inr rfl
  | some code => exact (outside_grows h _ rest p).andThen fun _ _ _ => .inr rfl

theorem answer_grows (event : Option (HandleId × ChainId)) (rest : Rest) (p : Progress H)
    (rq : Request H.toVocabulary) :
    (answer v run event rest p rq).Grows (answer v run' event rest p rq) := by
  cases rq with
  | next i arg =>
    cases event with
    | none => exact .inr rfl
    | some e =>
      by_cases he : i = e.1
      · simp only [answer, if_pos he]
        exact next_grows h e.2 arg rest p
      · simp only [answer, if_neg he]
        exact .inr rfl
  | call i arg =>
    simp only [answer]
    cases v.chainOf i with
    | none => exact .inr rfl
    | some c => exact call_grows h c arg rest p
  | apply i arg =>
    simp only [answer]
    cases v.functionOf i with
    | none => exact .inr rfl
    | some f => exact outside_grows h _ rest p
  | same i j =>
    simp only [answer]
    cases v.functionOf i with
    | none => exact .inr rfl
    | some f =>
      cases v.functionOf j with
      | none => exact .inr rfl
      | some g => exact outside_grows h _ rest p
  | _ => exact .inr rfl

end Grows

/-- The interpreter comes to one thing, however much fuel it has beyond what it takes. -/
theorem interpret_grows (v : View H) (fuel : Nat) (t : Task H) (rest : Rest) (p : Progress H) :
    (interpret v fuel t rest p).Grows (interpret v (fuel + 1) t rest p) := by
  induction fuel generalizing v t rest p with
  | zero => exact .inl ⟨p, by rw [interpret]⟩
  | succ fuel ih =>
    rw [interpret.eq_def v (fuel + 1 + 1)]
    cases t with
    | apply f home arg =>
      rw [interpret.eq_def]
      dsimp only
      cases v.body f with
      | none => exact .inr rfl
      | some body =>
        cases body with
        | native n keeps => cases home <;> exact ih _ _ _ _
        | simple inner =>
          cases home with
          | none => exact ih _ _ _ _
          | some c =>
            refine (ih _ _ _ _).andThen fun r _ p => ?_
            cases r with
            | fault x => exact .inr rfl
            | _ => exact next_grows (ih v) c arg rest p
        | chain c => exact call_grows (ih v) c arg rest p
    | compare left right =>
      rw [interpret.eq_def]
      dsimp only
      split
      · exact .inr rfl
      · split
        · split
          · exact .inr rfl
          · exact ih _ _ _ _
          · exact ih _ _ _ _
          · exact .inr rfl
        · exact .inr rfl
    | resume code d r =>
      rw [interpret.eq_def]
      dsimp only
      cases (H.resume code r p.memory).act with
      | finish r => exact .inr rfl
      | pause code => exact ih _ _ _ _
      | request rq code =>
        dsimp only
        split
        · exact ih _ _ _ _
        · exact (discard_grows (ih _) _ rest _).andThen fun _ _ _ => ih _ _ _ _
        · exact (answer_grows (ih _) d.event rest _ rq).andThen fun _ _ _ => ih _ _ _ _

end Plain

/-- The view of a heap. -/
def Heap.view {H : Host} (h : Heap H.toVocabulary) : Plain.View H where
  listeners c := (h.listing c).map (·.2)
  payload := h.payloads.get?
  chainOf := h.chainOf
  functionOf := h.functionOf
  finished i := (h.eventOf i).bind fun e => (h.dispatches.get? e.dispatch).map (·.cursor.isNone)

end Relay
