/-
  How the library's own callables are MADE, and who gets hold of them.

  Two kinds of callables are the library's: a listener around a plain function, and a chain that is
  one function.  Nobody else makes them, so their rule is always the same: the first kind is compared
  by the function inside, the second never equal.  And the function inside has been there before, so
  its number is LOWER.  However deep listeners are nested, a comparison that goes from a listener to the
  function inside comes to an end, and a payload is never inside itself.

  A listener around a plain function is the library's to keep, too.  No handle is ever on one, and no
  event that the program sees names one (`Heap.Free`).  So the function inside is never such a
  listener itself, and none is run but through its slot (`Mode.Fits`).

  Only a step that stores something or makes a handle can break this; every other step leaves what
  there is as it is, or lets it go (`Heap.Sheds`).
-/
import Relay.Proofs.Delivery
import Relay.Proofs.Lifetime
import Relay.Proofs.Restore

namespace Relay

variable {T : Vocabulary} {H : Host}

/-- Whether a payload with number `p` is as the library makes it.  Of the program's own nothing is
    asked. -/
def Payload.Made (p : PayloadId) (load : Payload T) : Prop :=
  match load.body with
  | .native _ _ => True
  | .simple inner => load.rule = .byValue ∧ ∀ q, inner = some q → q < p
  | .chain _ => load.rule = .identity

namespace Heap

/-- A function that is no listener around another one.  Its number has been given out, so it will
    never be one. -/
def Unwrapped (h : Heap T) (f : Fn) : Prop :=
  ∀ p, f = some p → p < h.payloads.nextId ∧
    ∀ load inner, h.payloads.get? p = some load → load.body ≠ .simple inner

/-- A share through which the program can reach no listener around a function. -/
def Free (h : Heap T) : Ref → Prop
  | .function f => h.Unwrapped f
  | .event e => h.Unwrapped e.recipient
  | _ => True

/-- The library's callables are made as they should be, and the program has none of those that are
    listeners around a function. -/
structure Secluded (h : Heap T) : Prop where
  made : ∀ p load, h.payloads.get? p = some load → load.Made p
  inners : ∀ p load inner, h.payloads.get? p = some load → load.body = .simple inner →
    h.Unwrapped inner
  handles : ∀ i ref, h.handles.get? i = some ref → h.Free ref

/-- Between `h` and `g` nothing was stored and no handle was made: what there is has been there. -/
structure Sheds (h g : Heap T) : Prop where
  next : g.payloads.nextId = h.payloads.nextId
  loads : ∀ p load, g.payloads.get? p = some load → h.payloads.get? p = some load
  handles : ∀ i ref, g.handles.get? i = some ref → h.handles.get? i = some ref

variable {h g k : Heap T}

namespace Sheds

theorem of_eq (hp : g.payloads = h.payloads) (hi : g.handles = h.handles) : h.Sheds g where
  next := by rw [hp]
  loads := fun _ _ hload => hp ▸ hload
  handles := fun _ _ href => hi ▸ href

theorem trans (hg : h.Sheds g) (hk : g.Sheds k) : h.Sheds k where
  next := hk.next.trans hg.next
  loads := fun p load hload => hg.loads p load (hk.loads p load hload)
  handles := fun i ref href => hg.handles i ref (hk.handles i ref href)

/-- Owners come and go, and what loses its last one may end. -/
theorem retainAll (h : Heap T) (refs : List Ref) : h.Sheds (h.retainAll refs) where
  next := (h.payloads_retainAll refs).2
  loads := fun p _ hload => ((h.payloads_retainAll refs).1 p).symm.trans hload
  handles := fun i _ href => (h.get?_handles_retainAll refs i).symm.trans href

theorem retain (h : Heap T) (ref : Ref) : h.Sheds (h.retain ref) := retainAll h [ref]

theorem releaseHandle (h : Heap T) (i : HandleId) :
    h.Sheds { h with handles := (h.handles.release i).2 } where
  next := rfl
  loads := fun _ _ => id
  handles := by
    intro j ref href
    rw [Pool.get?_release] at href
    split at href
    · exact absurd href (by simp)
    · exact href

theorem release (h : Heap T) (ref : Ref) : h.Sheds (h.release ref).2 where
  next := (h.payloads_release ref).2
  loads := by
    intro p load hload
    rw [(h.payloads_release ref).1 p] at hload
    split at hload
    · exact absurd hload (by simp)
    · exact hload
  handles := by
    intro i r href
    have hkept : (h.release ref).2.handles = h.handles ∨
        ∃ j, (h.release ref).2.handles = (h.handles.release j).2 := by
      unfold Heap.release
      cases ref with
      | function f =>
        cases f with
        | none => exact .inl rfl
        | some p => dsimp only; split <;> exact .inl rfl
      | chain c => dsimp only; split <;> exact .inl rfl
      | dispatch d =>
        dsimp only
        split
        · exact .inl rfl
        · unfold closeDispatch
          split <;> exact .inl rfl
      | event e => exact .inl rfl
      | handle j =>
        refine .inr ⟨j, ?_⟩
        dsimp only
        split <;> (rename_i hr; rw [hr])
    rcases hkept with he | ⟨j, he⟩
    · rwa [he] at href
    · rw [he] at href
      exact (releaseHandle h j).handles i r href

theorem unwrapped (hg : h.Sheds g) {f : Fn} (hf : h.Unwrapped f) : g.Unwrapped f := by
  intro p hp
  obtain ⟨hlt, hload⟩ := hf p hp
  exact ⟨hg.next.symm ▸ hlt, fun load inner hget => hload load inner (hg.loads p load hget)⟩

theorem free (hg : h.Sheds g) {ref : Ref} (hr : h.Free ref) : g.Free ref := by
  cases ref with
  | function f => exact hg.unwrapped hr
  | event e => exact hg.unwrapped hr
  | _ => trivial

end Sheds

theorem started_sheds (h : Heap T) (c : ChainId) (i : SlotId) (l : Fn) :
    h.Sheds (h.started c i l) := by
  refine .trans ?_ (.retainAll _ _)
  exact .of_eq rfl rfl

theorem moved_sheds (h : Heap T) (d : DispatchId) (c : ChainId) (chain : Chain Fn) (i : SlotId)
    (l : Fn) : h.Sheds (h.moved d c chain i l) := by
  refine .trans ?_ (.retainAll _ _)
  exact .of_eq rfl rfl

/-! ## Storing, and handing out -/

theorem unwrapped_none (h : Heap T) : h.Unwrapped none := fun _ hp => absurd hp (by simp)

theorem Unwrapped.store {f : Fn} (hf : h.Unwrapped f) (load : Payload T) :
    (h.store load).2.Unwrapped f := by
  intro p hp
  obtain ⟨hlt, hload⟩ := hf p hp
  refine ⟨Nat.lt_succ_of_lt hlt, fun load' inner hget => hload load' inner ?_⟩
  rwa [show (h.store load).2.payloads.get? p = _ from Pool.get?_alloc _ _ _,
    if_neg (Nat.ne_of_gt hlt)] at hget

/-- What is stored, and is no listener around a function, may be handed out. -/
theorem unwrapped_store (h : Heap T) {load : Payload T} (hload : ∀ inner, load.body ≠ .simple inner) :
    (h.store load).2.Unwrapped (h.store load).1 := by
  intro p hp
  obtain rfl : h.payloads.nextId = p := Option.some.inj hp
  refine ⟨Nat.lt_succ_self _, fun load' inner hget => ?_⟩
  rw [show (h.store load).2.payloads.get? _ = _ from Pool.get?_alloc _ _ _, if_pos rfl] at hget
  obtain rfl := Option.some.inj hget
  exact hload inner

namespace Secluded

/-- What has been there is as it was. -/
theorem sheds (hs : h.Secluded) (hg : h.Sheds g) : g.Secluded where
  made := fun p load hload => hs.made p load (hg.loads p load hload)
  inners := fun p load inner hload hb => hg.unwrapped (hs.inners p load inner (hg.loads p load hload) hb)
  handles := fun i ref href => hg.free (hs.handles i ref (hg.handles i ref href))

/-- A new payload gets the next number. -/
theorem store (hs : h.Secluded) (load : Payload T) (hmade : load.Made h.payloads.nextId)
    (hinner : ∀ inner, load.body = .simple inner → h.Unwrapped inner) :
    (h.store load).2.Secluded where
  made := by
    intro p load' hget
    rw [show (h.store load).2.payloads.get? p = _ from Pool.get?_alloc _ _ _] at hget
    split at hget
    · rename_i hp
      obtain rfl := Option.some.inj hget
      exact hp ▸ hmade
    · exact hs.made p load' hget
  inners := by
    intro p load' inner hget hbody
    rw [show (h.store load).2.payloads.get? p = _ from Pool.get?_alloc _ _ _] at hget
    split at hget
    · obtain rfl := Option.some.inj hget
      exact (hinner inner hbody).store load
    · exact (hs.inners p load' inner hget hbody).store load
  handles := by
    intro i ref href
    have hfree := hs.handles i ref href
    cases ref with
    | function f => exact Unwrapped.store hfree load
    | event e => exact Unwrapped.store hfree load
    | _ => trivial

/-- A listener around a function that may be had. -/
theorem store_simple (hs : h.Secluded) {inner : Fn} (hinner : h.Unwrapped inner) :
    ((h.retain (.function inner)).store ⟨.simple inner, .byValue⟩).2.Secluded := by
  have hretained := Sheds.retain h (.function inner)
  have hunwrapped := hretained.unwrapped hinner
  refine (hs.sheds hretained).store _ ⟨rfl, fun q hq => (hunwrapped q hq).1⟩ fun inner' he => ?_
  obtain rfl := Body.simple.inj he
  exact hunwrapped

theorem wrapUp (hs : h.Secluded) {ref : Ref} (hr : h.Free ref) : (h.wrapUp ref).2.Secluded where
  made := hs.made
  inners := hs.inners
  handles := by
    intro i ref' href
    rw [show (h.wrapUp ref).2.handles.get? i = _ from Pool.get?_alloc _ _ _] at href
    have hfree : h.Free ref' := by
      split at href
      · obtain rfl := Option.some.inj href
        exact hr
      · exact hs.handles i ref' href
    cases ref' <;> exact hfree

theorem functionOf (hs : h.Secluded) {i : HandleId} {f : Fn} (hi : h.functionOf i = some f) :
    h.Unwrapped f := by
  unfold Heap.functionOf at hi
  split at hi
  · rename_i f' hf
    obtain rfl := Option.some.inj hi
    exact hs.handles i _ hf
  · rename_i e he
    obtain rfl := Option.some.inj hi
    exact hs.handles i _ he
  · exact absurd hi (by simp)

theorem eventOf (hs : h.Secluded) {i : HandleId} {e : Event} (hi : h.eventOf i = some e) :
    h.Unwrapped e.recipient := by
  unfold Heap.eventOf at hi
  split at hi
  · rename_i e' he
    obtain rfl := Option.some.inj hi
    exact hs.handles i _ he
  · exact absurd hi (by simp)

end Secluded
end Heap

/-- What is run through no slot is no listener around a function, and receives no event of one. -/
def Mode.Fits (h : Heap H.toVocabulary) : Mode H → Prop
  | .invoke none f event _ => h.Unwrapped f ∧ ∀ e, event = some e → h.Unwrapped e.recipient
  | _ => True

namespace State

/-- The program has no listener around a function, and runs none. -/
structure Secluded (s : State H) : Prop where
  heap : s.heap.Secluded
  mode : s.mode.Fits s.heap

variable {s : State H}

/-! ## The functions of a step -/

theorem startCall_secluded (hs : s.heap.Secluded) (c : ChainId) (arg : H.Arg) :
    (s.startCall c arg).Secluded := by
  have houtcome := s.startCall_outcome c arg
  generalize s.startCall c arg = t at houtcome
  cases houtcome with
  | nothing => exact ⟨hs, trivial⟩
  | @started chain i l => exact ⟨hs.sheds (s.heap.started_sheds c i l), trivial⟩

theorem advance_secluded (hs : s.heap.Secluded) (event : Event) (arg : H.Arg) :
    (s.advance event arg).Secluded := by
  have houtcome := s.advance_outcome event arg
  generalize s.advance event arg = t at houtcome
  cases houtcome with
  | nowhere => exact ⟨hs, trivial⟩
  | past => exact ⟨hs.sheds (.of_eq rfl rfl), trivial⟩
  | ended => exact ⟨hs.sheds (.of_eq rfl rfl), trivial⟩
  | @moved c chain slot i l => exact ⟨hs.sheds (s.heap.moved_sheds _ c _ i l), trivial⟩

/-- Native code gets a handle on its event; what it can reach through that is the code itself, or has
    been reached before. -/
theorem invoke_secluded (hs : s.heap.Secluded) {f : Fn} {event : Option Event}
    (hevent : ∀ e, event = some e → s.heap.Unwrapped e.recipient ∨ e.recipient = f) (arg : H.Arg) :
    (s.invoke f event arg).Secluded := by
  unfold invoke
  split
  · exact ⟨hs, trivial⟩
  · rename_i load hload
    obtain ⟨p, rfl, hload⟩ := Option.bind_eq_some_iff.1 hload
    split
    · rename_i n keeps e hbody
      have hrecipient : s.heap.Unwrapped e.recipient := by
        rcases hevent e rfl with hu | hself
        · exact hu
        · intro p' hp'
          obtain rfl := Option.some.inj (hself.symm.trans hp')
          refine ⟨s.heap.payloads.lt_of_get? hload, fun load' inner hget => ?_⟩
          obtain rfl := Option.some.inj (hload.symm.trans hget)
          rw [hbody]
          simp
      exact ⟨hs.wrapUp hrecipient, trivial⟩
    · exact ⟨hs, trivial⟩
    · rename_i hbody
      exact ⟨hs, hs.inners p load _ hload hbody, fun _ he => absurd he (by simp)⟩
    · rename_i hbody
      exact ⟨hs, hs.inners p load _ hload hbody, fun _ he => absurd he (by simp)⟩
    · exact startCall_secluded (s := s.push _) hs _ _

theorem heap_compare (s : State H) (left right : Fn) : (s.compare left right).heap = s.heap := by
  unfold compare
  split
  · rfl
  · split
    · split <;> rfl
    · rfl

theorem compare_secluded (hs : s.heap.Secluded) (left right : Fn) :
    (s.compare left right).Secluded := by
  refine ⟨by rwa [heap_compare], ?_⟩
  unfold compare
  split
  · trivial
  · split
    · split <;> trivial
    · trivial

theorem search_secluded (hs : s.heap.Secluded) (c : ChainId) (probe : Fn)
    (snapshot remaining : List (SlotId × Fn)) :
    (s.search c probe snapshot remaining).Secluded := by
  cases remaining <;> exact ⟨hs, trivial⟩

theorem startRemove_secluded (hs : s.heap.Secluded) (c : ChainId) (probe : Fn) :
    (s.startRemove c probe).Secluded :=
  search_secluded (s := { s with heap := _ }) (hs.sheds (.retainAll _ _)) c probe _ _

theorem detachFound_secluded (hs : s.heap.Secluded) (found : Search) :
    (s.detachFound found).Secluded := by
  unfold detachFound
  dsimp only
  split
  · exact ⟨hs, trivial⟩
  · split
    · exact ⟨hs.sheds (.of_eq rfl rfl), trivial⟩
    · exact ⟨hs, trivial⟩

theorem link_secluded (hs : s.heap.Secluded) (c : ChainId) (listener : Fn) (placement : Placement) :
    (s.link c listener placement).Secluded := by
  unfold link
  split
  · exact ⟨hs, trivial⟩
  · exact ⟨hs.sheds (.of_eq rfl rfl), trivial⟩

theorem handOut_secluded (hs : s.heap.Secluded) {ref : Ref} (hr : s.heap.Free ref) :
    (s.handOut ref).Secluded :=
  ⟨hs.wrapUp hr, trivial⟩

theorem hold_sheds (s : State H) (handles : List HandleId) :
    s.heap.Sheds (s.hold handles).heap := .retainAll _ _

theorem seize_sheds {i : HandleId} {ref : Option Ref} {t : State H} (h : s.seize i = (ref, t)) :
    s.heap.Sheds t.heap := by
  obtain rfl : (s.seize i).2 = t := congrArg Prod.snd h
  exact .releaseHandle _ _

/-- Whatever the program asks for, it gets no handle on a listener around a function. -/
theorem ask_secluded (hs : s.heap.Secluded) (rq : Request H.toVocabulary) :
    (s.ask rq).Secluded := by
  have hrefused : (s.answer .refused).Secluded := ⟨hs, trivial⟩
  -- what is held is held on to, and nothing else is done
  have hheld (handles : List HandleId) : (s.hold handles).heap.Secluded :=
    hs.sheds (hold_sheds s handles)
  unfold ask
  cases rq <;> dsimp only
  case makeEmpty => exact handOut_secluded hs s.heap.unwrapped_none
  case make native rule keeps =>
    exact handOut_secluded (s := { s with heap := _ })
      (hs.store ⟨.native native keeps, rule⟩ trivial (by simp))
      (s.heap.unwrapped_store (by simp))
  case copy =>
    split
    · exact hrefused
    · rename_i f hf
      have hretained := Heap.Sheds.retain s.heap (.function f)
      exact handOut_secluded (s := { s with heap := _ }) (hs.sheds hretained)
        (hretained.unwrapped (hs.functionOf hf))
  case openChain =>
    have hopened := hs.sheds (g := { s.heap with chains := (s.heap.chains.alloc {}).2 }) (.of_eq rfl rfl)
    exact handOut_secluded (s := { s with heap := _ }) hopened
      (show Heap.Free _ (.chain s.heap.chains.nextId) from trivial)
  case share i => exact ⟨hs.sheds (.retain s.heap (.handle i)), trivial⟩
  case discard => exact ⟨hs, trivial⟩
  case add =>
    split
    · exact ⟨hs, trivial⟩
    · exact link_secluded (s := { s with heap := _ }) (hs.sheds (.retain _ _)) _ _ _
    · exact hrefused
  case addSimple =>
    split
    · exact ⟨hs, trivial⟩
    · rename_i hf
      exact link_secluded (s := { s with heap := _ }) (hs.store_simple (hs.functionOf hf)) _ _ _
    · exact hrefused
  case remove chain function =>
    split
    · exact startRemove_secluded (hheld [chain, function]) _ _
    · exact hrefused
  case removeCurrent chain event =>
    split
    · exact startRemove_secluded (hheld [event, chain]) _ _
    · exact hrefused
  case removeSimple chain function =>
    split
    · rename_i hf
      have hinner := (hold_sheds s [chain, function]).unwrapped (hs.functionOf hf)
      exact startRemove_secluded (s := State.push { s.hold _ with heap := _ } _)
        ((hheld [chain, function]).store_simple hinner) _ _
    · exact hrefused
  case removeNative chain native =>
    split
    · exact startRemove_secluded (s := State.push { s.hold _ with heap := _ } _)
        ((hheld [chain]).store ⟨.native native [], .byValue⟩ trivial (by simp)) _ _
    · exact hrefused
  case clear chain =>
    split
    · exact hrefused
    · exact ⟨(hheld [chain]).sheds (.of_eq rfl rfl), trivial⟩
  case size => split <;> exact ⟨hs, trivial⟩
  case call chain arg =>
    split
    · exact hrefused
    · exact startCall_secluded (hheld [chain]) _ _
  case next i arg =>
    split
    · exact hrefused
    · exact advance_secluded (hheld [i]) _ _
  case apply function arg =>
    split
    · exact hrefused
    · rename_i hf
      exact ⟨hheld [function], (hold_sheds s [function]).unwrapped (hs.functionOf hf),
        fun _ he => absurd he (by simp)⟩
  case deliver function i arg guarded =>
    split
    · rename_i f event hf he
      split
      · rename_i t hseize
        exact ⟨hs.sheds (seize_sheds (t := t) hseize), trivial⟩
      · rename_i t hseize
        have hsheds := (seize_sheds hseize).trans (hold_sheds t [function])
        split
        · exact ⟨hs.sheds hsheds, trivial⟩
        · refine ⟨hs.sheds hsheds, hsheds.unwrapped (hs.functionOf hf), fun e' he' => ?_⟩
          obtain rfl := Option.some.inj he'
          exact hsheds.unwrapped (hs.eventOf he)
    · exact hrefused
  case wrap chain =>
    split
    · rename_i c _
      split
      · rename_i t hseize
        exact ⟨hs.sheds (seize_sheds (t := t) hseize), trivial⟩
      · rename_i t hseize
        exact handOut_secluded (s := { t with heap := _ })
          ((hs.sheds (seize_sheds hseize)).store ⟨.chain c, .identity⟩ rfl (by simp))
          (t.heap.unwrapped_store (by simp))
    · exact hrefused
  case same left right =>
    split
    · exact ⟨hheld [right, left], trivial⟩
    · exact hrefused
  case kindOf => split <;> exact ⟨hs, trivial⟩
  case finished => split <;> exact ⟨hs, trivial⟩

theorem takeTurn_secluded (hs : s.heap.Secluded) (code : H.Code) (owned : List Ref)
    (r : Reply H.toVocabulary) : (s.takeTurn code owned r).Secluded := by
  unfold takeTurn
  dsimp only
  split
  · exact ⟨hs, trivial⟩
  · exact ⟨hs, trivial⟩
  · exact ask_secluded (s := State.push ⟨s.heap, _, _, _, _⟩ _) hs _

theorem releaseNext_secluded (hs : s.heap.Secluded) (todo : List Ref) (r : Reply H.toVocabulary) :
    (s.releaseNext todo r).Secluded := by
  cases todo with
  | nil => exact ⟨hs, trivial⟩
  | cons ref rest =>
    unfold releaseNext
    dsimp only
    split <;> exact ⟨hs.sheds (.release _ _), trivial⟩

theorem hear_secluded (hs : s.heap.Secluded) (f : Frame H) (r : Reply H.toVocabulary) :
    (s.hear r f).Secluded := by
  unfold hear
  cases f <;> dsimp only
  case user => exact takeTurn_secluded hs _ _ _
  case releasing =>
    split
    · exact ⟨hs, trivial⟩
    · exact releaseNext_secluded hs _ _
  case afterSimple =>
    split
    · exact ⟨hs, trivial⟩
    · exact advance_secluded (s := s.push _) hs _ _
  case entering => split <;> exact ⟨hs, trivial⟩
  case searching =>
    split
    · exact detachFound_secluded hs _
    · exact ⟨hs, trivial⟩
    · exact search_secluded hs _ _ _ _
  all_goals exact ⟨hs, trivial⟩

/-- A step hands no listener around a function to the program.  What is run through a slot receives
    its own event. -/
theorem Secluded.step (hs : s.Secluded)
    (hself : ∀ entry f e arg, s.mode = .invoke (some entry) f (some e) arg → e.recipient = f) :
    s.step.Secluded := by
  obtain ⟨heap, memory, journal, frames, mode⟩ := s
  cases mode with
  | compare left right => exact compare_secluded hs.heap left right
  | invoke entry f event arg =>
    refine invoke_secluded hs.heap (fun e he => ?_) arg
    subst he
    cases entry with
    | none => exact .inl (hs.mode.2 e rfl)
    | some entry => exact .inr (hself entry f e arg rfl)
  | reply r =>
    cases frames with
    | nil => exact hs
    | cons f frames =>
      exact hear_secluded (s := ⟨heap, memory, journal, frames, .reply r⟩) hs.heap f r

end State

/-! ## Runs -/

namespace Reachable

variable {s : State H}

/-- In every reachable state the program has no listener around a function, and runs none. -/
theorem secluded (hs : Reachable s) : s.Secluded := by
  induction hs with
  | begin n code memory =>
    refine ⟨?_, trivial⟩
    show (Heap.opened n).Secluded
    induction n with
    | zero =>
      show ({} : Heap H.toVocabulary).Secluded
      exact ⟨by simp [Pool.get?, Table.get?, Table.find], by simp [Pool.get?, Table.get?, Table.find],
        by simp [Pool.get?, Table.get?, Table.find]⟩
    | succ n ih =>
      let h : Heap H.toVocabulary := Heap.opened n
      have hopened := ih.sheds (g := { h with chains := (h.chains.alloc {}).2 }) (.of_eq rfl rfl)
      exact hopened.wrapUp (show Heap.Free _ (.chain h.chains.nextId) from trivial)
  | step hs ih =>
    refine ih.step fun entry f e arg hmode => ?_
    obtain ⟨event, arg', hinvoke⟩ :=
      hs.invoke_of_entry? (show _ = some entry from congrArg Mode.entry? hmode)
    obtain ⟨-, rfl, he, -⟩ := Mode.invoke.inj (hinvoke.symm.trans hmode)
    rw [Option.some.inj he]

/-- In every reachable state the library's own callables are as it makes them. -/
theorem made (hs : Reachable s) {p : PayloadId} {load : Payload H.toVocabulary}
    (hload : s.heap.payloads.get? p = some load) : load.Made p :=
  hs.secluded.heap.made p load hload

end Reachable

end Relay
