/-
  What is BOOKED about the chains, and where searches come from.

  The library reports every listener that is added, every one that a removal takes out, and every
  time a chain is cleared.  A step books what it does to the list of a chain, and nothing else
  (`Reachable.step_bookings`): so the bookings come in the order of the changes, and each carries
  the length of the list right after its own change.

  A search begins with a request to remove something and goes on until it is settled.  So whenever
  one is on the stack, the code that waits for it is right below, with nothing but frames in between
  that pass the answer on (`Reachable.search_origin`).
-/
import Relay.Proofs.PlainList

namespace Relay

variable {T : Vocabulary} {H : Host}

/-! ## Bookings -/

/-- What is reported of a change to a list, with its length afterwards. -/
inductive Booking where
  | added (c : ChainId) (slot : SlotId) (listeners : Nat)
  | removed (c : ChainId) (slot : SlotId) (listeners : Nat)
  | cleared (c : ChainId)
  deriving DecidableEq, Repr

/-- The change that a report is about, if it is about one. -/
def Note.booking? : Note T → Option Booking
  | .added c slot _ listeners => some (.added c slot listeners)
  | .removed c slot listeners => some (.removed c slot listeners)
  | .cleared c _ => some (.cleared c)
  | _ => none

/-- What an edit is to be booked as.  Taking out what is not in the list is no change. -/
def Edit.booking (h : Heap T) : Edit → Option Booking
  | .nothing => none
  | .added c slot _ _ => some (.added c slot ((h.listing c).length + 1))
  | .detached c slot =>
    if slot ∈ (h.listing c).map (·.1) then some (.removed c slot ((h.listing c).length - 1)) else none
  | .cleared c => some (.cleared c)

/-- The search that a frame waits for. -/
def Frame.search? : Frame H → Option Search
  | .searching found => some found
  | _ => none

namespace State

/-- All that has been booked, LATEST first. -/
def bookings (s : State H) : List Booking := s.journal.filterMap Note.booking?

theorem bookings_report (s : State H) (n : Note H.toVocabulary) :
    (s.report n).bookings = n.booking?.toList ++ s.bookings := by
  show (n :: s.journal).filterMap Note.booking? = _
  rw [List.filterMap_cons]
  cases n.booking? <;> rfl

/-- What the program says is not booked. -/
theorem filterMap_said (words : List H.Word) :
    ((words.map Note.said).reverse : List (Note H.toVocabulary)).filterMap Note.booking? = [] := by
  refine List.filterMap_eq_nil_iff.2 fun n hn => ?_
  obtain ⟨w, -, rfl⟩ := List.mem_map.1 (List.mem_reverse.1 hn)
  rfl

/-! ## What the functions of a step book -/

/-- `t` comes from `s` by booking `b`, and no search begins. -/
structure Books (b : Option Booking) (s t : State H) : Prop where
  bookings : t.bookings = b.toList ++ s.bookings
  frames : ∃ pushed, t.frames = pushed ++ s.frames ∧ pushed.filterMap Frame.search? = []

namespace Books

variable {b : Option Booking} {s t u : State H}

theorem refl (s : State H) : Books none s s := ⟨rfl, [], rfl, rfl⟩

theorem trans (h : Books none s t) (h' : Books b t u) : Books b s u := by
  obtain ⟨p, hp, hs⟩ := h.frames
  obtain ⟨q, hq, hs'⟩ := h'.frames
  refine ⟨by rw [h'.bookings, h.bookings]; rfl, q ++ p, ?_, ?_⟩
  · rw [hq, hp, List.append_assoc]
  · rw [List.filterMap_append, hs, hs']
    rfl

theorem heap (s : State H) (h : Heap H.toVocabulary) : Books none s { s with heap := h } :=
  ⟨rfl, [], rfl, rfl⟩

theorem push (s : State H) {f : Frame H} (hf : f.search? = none) : Books none s (s.push f) :=
  ⟨rfl, [f], rfl, by rw [List.filterMap_cons, hf]; rfl⟩

theorem hold (s : State H) (handles : List HandleId) : Books none s (s.hold handles) :=
  (heap s _).trans (push _ rfl)

theorem seize (s : State H) (i : HandleId) : Books none s (s.seize i).2 := heap s _

theorem report (h : Books none s t) {n : Note H.toVocabulary} (hn : n.booking? = b) :
    Books b s (t.report n) := by
  refine ⟨?_, h.frames⟩
  rw [bookings_report, hn, h.bookings]
  rfl

/-- Only the mode is left to say. -/
theorem mode (h : Books b s t) (m : Mode H) : Books b s { t with mode := m } :=
  ⟨h.bookings, h.frames⟩

theorem answer (h : Books b s t) (r : Reply H.toVocabulary) : Books b s (t.answer r) := h.mode _

theorem release (h : Books b s t) (refs : List Ref) (r : Reply H.toVocabulary) :
    Books b s (t.release refs r) := by
  obtain ⟨p, hp, hs⟩ := h.frames
  exact ⟨h.bookings, .releasing refs r :: p, congrArg _ hp, hs⟩

theorem handOut (h : Books b s t) (ref : Ref) : Books b s (t.handOut ref) :=
  ⟨h.bookings, h.frames⟩

end Books

variable {s : State H}

theorem CallOutcome.books {t : State H} {c : ChainId} {arg : H.Arg} (h : s.CallOutcome c arg t) :
    Books none s t := by
  cases h with
  | nothing => exact (Books.refl s).answer _
  | started => exact ((Books.heap s _).trans (.push _ rfl)).mode _

theorem startCall_books (s : State H) (c : ChainId) (arg : H.Arg) :
    Books none s (s.startCall c arg) :=
  (s.startCall_outcome c arg).books

theorem NextOutcome.books {t : State H} {event : Event} {arg : H.Arg}
    (h : s.NextOutcome event arg t) : Books none s t := by
  cases h with
  | nowhere => exact (Books.refl s).answer _
  | past => exact (Books.heap s _).release _ _
  | ended => exact (Books.heap s _).release _ _
  | moved => exact (((Books.heap s _).trans (.push _ rfl)).trans (.push _ rfl)).release _ _

theorem advance_books (s : State H) (event : Event) (arg : H.Arg) :
    Books none s (s.advance event arg) :=
  (s.advance_outcome event arg).books

theorem invoke_books (s : State H) (f : Fn) (event : Option Event) (arg : H.Arg) :
    Books none s (s.invoke f event arg) := by
  unfold invoke
  split
  · exact (Books.refl s).release _ _
  · split
    · exact ((Books.heap s _).trans (.push _ rfl)).answer _
    · exact (Books.push s rfl).answer _
    · exact (Books.push s rfl).mode _
    · exact (Books.refl s).mode _
    · exact (Books.push s rfl).trans (startCall_books _ _ _)

theorem compare_books (s : State H) (left right : Fn) : Books none s (s.compare left right) := by
  have h := Books.refl s
  unfold compare
  split
  · exact h.answer _
  · split
    · split
      · exact h.answer _
      · exact h.mode _
      · exact (Books.push s rfl).answer _
      · exact h.answer _
    · exact h.answer _

theorem size_add {L : Type} (c : Chain L) (l : L) (p : Placement) :
    (c.add l p).size = c.size + 1 := by
  cases p with
  | front => exact Chain.size_setBefore _ _ _
  | back => exact Chain.size_setAfter _ _ _

theorem link_books (hv : s.heap.scene.Coherent) {c : ChainId} {chain : Chain Fn}
    (hc : s.heap.chains.get? c = some chain) (listener : Fn) (placement : Placement) :
    Books ((Edit.added c (s.heap.nextSlot c) placement listener).booking s.heap) s
      (s.link c listener placement) := by
  have hsize : (s.heap.listing c).length + 1 = (chain.add listener placement).size := by
    rw [Heap.listing_of_get? hc, (hv c chain (by rw [Heap.get?_scene_chains, hc])).length_listing,
      size_add]
  have hslot : s.heap.nextSlot c = chain.nextId := by rw [Heap.nextSlot, hc]; rfl
  rw [Edit.booking, hsize, hslot]
  unfold link
  rw [hc]
  cases placement with
  | front => exact ((Books.heap s _).report (by rfl)).answer _
  | back => exact ((Books.heap s _).report (by rfl)).answer _

theorem detachFound_books (hv : s.heap.scene.Coherent) (found : Search) :
    Books ((Edit.detached found.chain found.candidate).booking s.heap) s (s.detachFound found) := by
  unfold detachFound
  dsimp only
  split
  · rename_i hc
    rw [Edit.booking, Heap.listing, hc, if_neg (by simp)]
    exact (Books.refl s).release _ _
  · rename_i chain hc
    have hchain : chain.Coherent := hv found.chain chain (by rw [Heap.get?_scene_chains, hc])
    rw [Edit.booking, Heap.listing_of_get? hc, hchain.map_listing, hchain.length_listing]
    by_cases hmem : found.candidate ∈ chain.order
    · rw [if_pos hmem, if_pos ((hchain.visits _).1 hmem), ← hchain.links.size_detach hmem]
      exact ((Books.heap s _).report (by rfl)).release _ _
    · rw [if_neg hmem, if_neg fun hslot => hmem ((hchain.visits _).2 hslot)]
      exact (Books.refl s).release _ _

/-- The search itself is no business of the books. -/
theorem search_bookings (c : ChainId) (probe : Fn) (snapshot remaining : List (SlotId × Fn)) :
    (s.search c probe snapshot remaining).bookings = s.bookings := by
  cases remaining with
  | nil => exact s.bookings_report _
  | cons e rest => rfl

theorem startRemove_bookings (c : ChainId) (probe : Fn) :
    (s.startRemove c probe).bookings = s.bookings :=
  search_bookings (s := { s with heap := _ }) _ _ _ _

/-- A request that begins no search books its edit. -/
theorem ask_books (hv : s.heap.scene.Coherent) (hg : s.Grounded) (rq : Request H.toVocabulary)
    (hrq : rq.search? s.heap = none) :
    Books ((rq.edit s.heap).booking s.heap) s (s.ask rq) := by
  have h := Books.refl s
  cases rq with
  | makeEmpty => exact h.handOut _
  | make native rule keeps => exact (Books.heap s _).handOut _
  | copy i =>
    unfold ask
    dsimp only
    split
    · exact h.answer _
    · exact (Books.heap s _).handOut _
  | openChain => exact (Books.heap s _).handOut _
  | share i => exact (Books.heap s _).answer _
  | discard i => exact h.release _ _
  | add chain function placement =>
    unfold ask Request.edit
    dsimp only
    cases hc : s.heap.chainOf chain with
    | none => exact h.answer _
    | some c =>
      obtain ⟨found, hfound⟩ := hg chain c hc
      cases s.heap.functionOf function with
      | none => exact h.answer _
      | some f =>
        cases f with
        | none => exact (h.report (by rfl)).answer _
        | some p =>
          have hlinked := link_books (s := { s with heap := s.heap.retain (.function (some p)) })
            hv hfound (some p) placement
          exact (Books.heap s _).trans hlinked
  | addSimple chain function placement =>
    unfold ask Request.edit
    dsimp only
    cases hc : s.heap.chainOf chain with
    | none => exact h.answer _
    | some c =>
      obtain ⟨found, hfound⟩ := hg chain c hc
      cases s.heap.functionOf function with
      | none => exact h.answer _
      | some f =>
        cases f with
        | none => exact (h.report (by rfl)).answer _
        | some p =>
          let stored : State H := { s with
            heap := ((s.heap.retain (.function (some p))).store ⟨.simple (some p), .byValue⟩).2 }
          exact (Books.heap s _).trans (link_books (s := stored) hv hfound _ placement)
  | remove chain function =>
    unfold Request.search? at hrq
    unfold ask
    dsimp only at hrq ⊢
    cases hc : s.heap.chainOf chain with
    | none => exact h.answer _
    | some c =>
      cases hf : s.heap.functionOf function with
      | none => exact h.answer _
      | some found => exact absurd hrq (by simp [hc, hf])
  | removeCurrent chain i =>
    unfold Request.search? at hrq
    unfold ask
    dsimp only at hrq ⊢
    cases hc : s.heap.chainOf chain with
    | none => exact h.answer _
    | some c =>
      cases hf : s.heap.eventOf i with
      | none => exact h.answer _
      | some found => exact absurd hrq (by simp [hc, hf])
  | removeSimple chain function =>
    unfold Request.search? at hrq
    unfold ask
    dsimp only at hrq ⊢
    cases hc : s.heap.chainOf chain with
    | none => exact h.answer _
    | some c =>
      cases hf : s.heap.functionOf function with
      | none => exact h.answer _
      | some found => exact absurd hrq (by simp [hc, hf])
  | removeNative chain native =>
    unfold ask
    dsimp only
    rw [Option.map_eq_none_iff.1 hrq]
    exact h.answer _
  | clear chain =>
    unfold ask Request.edit
    dsimp only
    cases s.heap.chainOf chain with
    | none => exact h.answer _
    | some c =>
      exact (((Books.hold s [chain]).trans (.heap _ _)).report (by rfl)).release _ _
  | size chain =>
    unfold ask
    dsimp only
    split <;> exact h.answer _
  | call chain arg =>
    unfold ask
    dsimp only
    split
    · exact h.answer _
    · exact (Books.hold s _).trans (startCall_books _ _ _)
  | next i arg =>
    unfold ask
    dsimp only
    split
    · exact h.answer _
    · exact (Books.hold s _).trans (advance_books _ _ _)
  | apply function arg =>
    unfold ask
    dsimp only
    split
    · exact h.answer _
    · exact (Books.hold s _).mode _
  | deliver function i arg guarded =>
    unfold ask
    dsimp only
    split
    · have hseized := Books.seize s i
      split
      · rename_i t ht
        rw [ht] at hseized
        exact hseized.answer _
      · rename_i t ht
        rw [ht] at hseized
        have hheld := hseized.trans (.hold t [function])
        split
        · exact hheld.release _ _
        · exact hheld.mode _
    · exact h.answer _
  | wrap chain =>
    unfold ask
    dsimp only
    split
    · have hseized := Books.seize s chain
      split
      · rename_i t ht
        rw [ht] at hseized
        exact hseized.answer _
      · rename_i t ht
        rw [ht] at hseized
        exact (hseized.trans (.heap t _)).handOut _
    · exact h.answer _
  | same left right =>
    unfold ask
    dsimp only
    split
    · exact (Books.hold s _).mode _
    · exact h.answer _
  | kindOf function =>
    unfold ask
    dsimp only
    split <;> exact h.answer _
  | finished i =>
    unfold ask
    dsimp only
    split <;> exact h.answer _

/-- A request that begins a search books nothing yet. -/
theorem ask_bookings (rq : Request H.toVocabulary) {c : ChainId} {probe : Fn}
    (hrq : rq.search? s.heap = some (c, probe)) : (s.ask rq).bookings = s.bookings := by
  unfold Request.search? at hrq
  cases rq with
  | remove chain function =>
    unfold ask
    dsimp only
    split
    · exact startRemove_bookings _ _
    · rfl
  | removeCurrent chain i =>
    unfold ask
    dsimp only
    split
    · exact startRemove_bookings _ _
    · rfl
  | removeSimple chain function =>
    unfold ask
    dsimp only
    split
    · exact startRemove_bookings _ _
    · rfl
  | removeNative chain native =>
    unfold ask
    dsimp only
    split
    · exact startRemove_bookings _ _
    · rfl
  | _ => exact absurd hrq (by simp)

/-- Only a request that begins no search edits a list at once. -/
theorem edit_of_search {h : Heap T} {rq : Request T} {e : ChainId × Fn}
    (hrq : rq.search? h = some e) : rq.edit h = .nothing := by
  cases rq with
  | add => exact absurd hrq (by simp [Request.search?])
  | addSimple => exact absurd hrq (by simp [Request.search?])
  | clear => exact absurd hrq (by simp [Request.search?])
  | _ => rfl

theorem takeTurn_bookings (hv : s.heap.scene.Coherent) (hg : s.Grounded) (code : H.Code)
    (owned : List Ref) (r : Reply H.toVocabulary) :
    (s.takeTurn code owned r).bookings =
      ((match (H.resume code r s.memory).act with
        | .request rq _ => rq.edit s.heap
        | _ => .nothing).booking s.heap).toList ++ s.bookings := by
  unfold takeTurn
  dsimp only
  generalize H.resume code r s.memory = turn
  obtain ⟨memory, said, act⟩ := turn
  let turned : State H := { s with memory, journal := (said.map Note.said).reverse ++ s.journal }
  have hturned : turned.bookings = s.bookings := by
    show List.filterMap Note.booking? ((said.map Note.said).reverse ++ s.journal) = _
    rw [List.filterMap_append, filterMap_said]
    rfl
  cases act with
  | finish r => exact hturned
  | pause code => exact hturned
  | request rq code =>
    let asking : State H := turned.push (.user code owned)
    cases hrq : rq.search? s.heap with
    | none =>
      have hbooks := (ask_books (s := asking) hv hg rq hrq).bookings
      exact hbooks.trans (congrArg _ hturned)
    | some e =>
      have hbooks := ask_bookings (s := asking) rq hrq
      dsimp only
      rw [edit_of_search hrq]
      exact hbooks.trans hturned

theorem releaseNext_books (todo : List Ref) (r : Reply H.toVocabulary) :
    Books none s (s.releaseNext todo r) := by
  unfold releaseNext
  split
  · exact (Books.refl s).answer r
  · rename_i ref rest
    have hpushed (f : Frame H) (hf : f.search? = none) :
        Books none s (({ s with heap := (s.heap.release ref).2 } : State H).push f) :=
      (Books.heap s _).trans (.push _ hf)
    dsimp only
    split
    · exact (hpushed _ rfl).answer _
    · exact ((hpushed _ rfl).trans (.push _ rfl)).answer _

theorem hear_releasing_books (r : Reply H.toVocabulary) (todo : List Ref) (answer : Reply H.toVocabulary) :
    Books none s (s.hear r (.releasing todo answer)) := by
  rcases s.hear_releasing r todo answer with ⟨answer', -, hgoes⟩ | ⟨-, hstands⟩
  · rw [hgoes]
    exact releaseNext_books todo answer'
  · rw [hstands]
    exact (Books.push s rfl).answer r

theorem hear_entering_books (r : Reply H.toVocabulary) (entry : Entry) (event : Event) (arg : H.Arg) :
    Books none s (s.hear r (.entering entry event arg)) := by
  cases r with
  | fault f => exact (Books.refl s).release _ _
  | _ => exact (Books.refl s).mode _

end State

/-- A step books what it does to the lists, and nothing else. -/
theorem Reachable.step_bookings {s : State H} (hs : Reachable s) :
    s.step.bookings = (s.edit.booking s.heap).toList ++ s.bookings := by
  have hv := hs.coherent
  have hg := hs.grounded
  obtain ⟨heap, memory, journal, frames, mode⟩ := s
  cases mode with
  | compare left right => exact (State.compare_books _ left right).bookings
  | invoke entry f event arg => exact (State.invoke_books _ f event arg).bookings
  | reply r =>
    cases frames with
    | nil => rfl
    | cons fr frames =>
      let s : State H := ⟨heap, memory, journal, frames, .reply r⟩
      cases fr with
      | user code owned => exact State.takeTurn_bookings (s := s) hv hg code owned r
      | await held => rfl
      | releasing todo answer => exact (State.hear_releasing_books (s := s) r todo answer).bookings
      | afterSimple event arg =>
        cases r with
        | fault f => rfl
        | _ => exact (State.advance_books (s.push (.await [.event event])) event arg).bookings
      | entering entry event arg => exact (State.hear_entering_books (s := s) r entry event arg).bookings
      | searching found =>
        have hsearch := State.search_bookings (s := s) found.chain found.probe found.snapshot
          found.remaining
        cases r with
        | fault f => rfl
        | flag same =>
          cases same with
          | true => exact (State.detachFound_books (s := s) hv found).bookings
          | false => exact hsearch
        | _ => exact hsearch

/-! ## Where searches come from -/

namespace State

/-- What stands on the stack and was not pushed was there before. -/
theorem suffix_of_not_mem {α : Type} {x : α} {rest p old : List α} (h : x :: rest <:+ p ++ old)
    (hx : x ∉ p) : x :: rest <:+ old := by
  induction p with
  | nil => exact h
  | cons y p ih =>
    rcases List.suffix_cons_iff.1 h with heq | hsuffix
    · exact absurd (List.cons.inj heq).1 (fun he => hx (he ▸ List.mem_cons_self))
    · exact ih hsuffix fun hm => hx (List.mem_cons_of_mem y hm)

/-- A search that is under way is on top of the stack, and what else there is was there before. -/
theorem Turns.searching_suffix {c : ChainId} {probe : Fn} {snapshot list : List (SlotId × Fn)}
    {under : List (Frame H)} {t : State H} (h : Turns c probe snapshot under t list) {found : Search}
    {rest : List (Frame H)} (hf : .searching found :: rest <:+ t.frames) :
    (c = found.chain ∧ probe = found.probe ∧ rest = under) ∨ .searching found :: rest <:+ under := by
  cases h with
  | ended todo htop =>
    rw [htop] at hf
    exact .inr (suffix_of_not_mem (p := [_]) hf (by simp))
  | next entry remaining htop =>
    rw [htop] at hf
    rcases List.suffix_cons_iff.1 hf with heq | hsuffix
    · obtain ⟨hfound, rfl⟩ := List.cons.inj heq
      obtain rfl := Frame.searching.inj hfound
      exact .inl ⟨rfl, rfl, rfl⟩
    · exact .inr hsuffix

/-- Where a search that is on the stack after a step comes from. -/
inductive SearchOrigin (s : State H) (found : Search) (rest : List (Frame H)) : Prop
  /-- It has been there before, and not on top. -/
  | waiting (h : .searching found :: rest <:+ s.waiting)
  /-- It begins with a request. -/
  | asked (rq : Request H.toVocabulary) (below : List (Frame H)) (held : List (List Ref))
      (hasks : s.Asks rq below) (hrq : rq.search? s.heap = some (found.chain, found.probe))
      (hrest : rest = passers held ++ below)
  /-- The search on top goes on. -/
  | continued (old : Search) (hframes : s.frames = .searching old :: rest)
      (hc : old.chain = found.chain) (hp : old.probe = found.probe)

theorem Books.searchOrigin {s t u : State H} {b : Option Booking} (h : Books b s t)
    (hframes : s.frames = u.waiting) {found : Search} {rest : List (Frame H)}
    (hf : .searching found :: rest <:+ t.frames) : SearchOrigin u found rest := by
  obtain ⟨pushed, hpushed, hnone⟩ := h.frames
  rw [hpushed, hframes] at hf
  refine .waiting (suffix_of_not_mem hf fun hm => ?_)
  exact absurd (List.filterMap_eq_nil_iff.1 hnone _ hm) (by simp [Frame.search?])

/-- What was asked for, and what waits for the answer. -/
theorem takeTurn_searchOrigin {s : State H} (hv : s.heap.scene.Coherent) (hg : s.Grounded)
    {code : H.Code} {owned : List Ref} {frames : List (Frame H)} {r : Reply H.toVocabulary}
    (hframes : s.frames = .user code owned :: frames) (hmode : s.mode = .reply r) {found : Search}
    {rest : List (Frame H)} (hf : .searching found :: rest <:+ s.step.frames) :
    SearchOrigin s found rest := by
  have hwaiting : s.waiting = frames := by
    unfold waiting
    rw [hmode, hframes]
    rfl
  have hstep : s.step = ({ s with frames } : State H).takeTurn code owned r :=
    step_of_top hframes hmode
  rw [hstep] at hf
  unfold takeTurn at hf
  dsimp only at hf
  cases hact : (H.resume code r s.memory).act with
  | finish r' =>
    rw [hact] at hf
    exact (Books.refl ({ s with frames } : State H)).release owned r' |>.searchOrigin hwaiting.symm hf
  | pause code' =>
    rw [hact] at hf
    exact (Books.push ({ s with frames } : State H) (f := .user code' owned) rfl).searchOrigin
      hwaiting.symm hf
  | request rq code' =>
    rw [hact] at hf
    dsimp only at hf
    let asking : State H := State.push { s with
      frames
      memory := (H.resume code r s.memory).memory
      journal := ((H.resume code r s.memory).said.map Note.said).reverse ++ s.journal }
        (.user code' owned)
    have hasks : s.Asks rq (.user code' owned :: frames) :=
      ⟨r, code, owned, frames, code', hmode, hframes, hact, rfl⟩
    cases hrq : rq.search? s.heap with
    | none =>
      have hbooks := ask_books (s := asking) hv hg rq hrq
      obtain ⟨pushed, hpushed, hnone⟩ := hbooks.frames
      change .searching found :: rest <:+ (asking.ask rq).frames at hf
      rw [hpushed] at hf
      have hold : .searching found :: rest <:+ Frame.user code' owned :: frames :=
        suffix_of_not_mem hf fun hm =>
          absurd (List.filterMap_eq_nil_iff.1 hnone _ hm) (by simp [Frame.search?])
      exact .waiting (hwaiting ▸ suffix_of_not_mem (p := [_]) hold (by simp))
    | some e =>
      obtain ⟨c, probe⟩ := e
      obtain ⟨held, hturns⟩ := ask_turns (s := asking) hv hrq
      change .searching found :: rest <:+ (asking.ask rq).frames at hf
      rcases hturns.searching_suffix hf with ⟨rfl, rfl, rfl⟩ | hold
      · exact .asked rq _ held hasks hrq rfl
      · -- below there is nothing but what passes the answer on, and the code that asked
        have hasker : .searching found :: rest <:+ Frame.user code' owned :: frames :=
          suffix_of_not_mem hold fun hm => by
            obtain ⟨refs, -, he⟩ := List.mem_map.1 hm
            exact absurd he (by simp)
        exact .waiting (hwaiting ▸ suffix_of_not_mem (p := [_]) hasker (by simp))

end State

/-- A search on the stack was there before, or has just been asked for, or goes on. -/
theorem Reachable.search_origin {s : State H} (hs : Reachable s) {found : Search}
    {rest : List (Frame H)} (hf : .searching found :: rest <:+ s.step.frames) :
    State.SearchOrigin s found rest := by
  have hv := hs.coherent
  have hg := hs.grounded
  obtain ⟨heap, memory, journal, frames, mode⟩ := s
  cases mode with
  | compare left right => exact (State.compare_books _ left right).searchOrigin rfl hf
  | invoke entry f event arg => exact (State.invoke_books _ f event arg).searchOrigin rfl hf
  | reply r =>
    cases frames with
    | nil => exact absurd hf (by simp [State.step])
    | cons fr frames =>
      let s : State H := ⟨heap, memory, journal, frames, .reply r⟩
      let whole : State H := ⟨heap, memory, journal, fr :: frames, .reply r⟩
      have hwaiting : s.frames = whole.waiting := rfl
      have hreleased (refs : List Ref) (q : Reply H.toVocabulary) :
          State.Books none s (s.release refs q) := (State.Books.refl s).release refs q
      cases fr with
      | user code owned => exact State.takeTurn_searchOrigin hv hg rfl rfl hf
      | await held => exact (hreleased held r).searchOrigin hwaiting hf
      | releasing todo answer =>
        exact (State.hear_releasing_books r todo answer).searchOrigin hwaiting hf
      | afterSimple event arg =>
        cases r with
        | fault f => exact (hreleased [.event event] (.fault f)).searchOrigin hwaiting hf
        | _ =>
          have hpushed : State.Books none s (s.push (.await [.event event])) := .push s rfl
          exact (hpushed.trans (State.advance_books _ event arg)).searchOrigin hwaiting hf
      | entering entry event arg =>
        exact (State.hear_entering_books r entry event arg).searchOrigin hwaiting hf
      | searching old =>
        have hsearch (h : .searching found :: rest <:+
            (s.search old.chain old.probe old.snapshot old.remaining).frames) :
            State.SearchOrigin whole found rest := by
          rcases (State.search_turns s _ _ _ _).searching_suffix h with ⟨hc, hp, rfl⟩ | hold
          · exact .continued old rfl hc hp
          · exact .waiting hold
        cases r with
        | fault f => exact (hreleased _ (.fault f)).searchOrigin hwaiting hf
        | flag same =>
          cases same with
          | true => exact (State.detachFound_books (s := s) hv old).searchOrigin hwaiting hf
          | false => exact hsearch hf
        | _ => exact hsearch hf

end Relay
