/-
  A chain is a plain list, whatever else is going on.

  `Chain.listing` reads a chain as a list, `State.edit` says what the coming step does to it, and no
  pin, cursor or tombstone occurs in either.  Along a run, the list of a chain is what its edits
  make of it, one after the other (`listing_after`).  Three kinds of edits come about at once, when
  the program asks for them.  The fourth, a removal, takes many steps: it compares the listeners one
  by one, LAST first, and each comparison may run code of the program.  `Removes` says what comes of
  it: the last listener that was found equal is gone and all others are where they were; or none was
  found equal, or the comparing was unwound, and the list is what it was.  That decides the answer.
  What the program hears is this answer, unless a destructor unwinds before it comes (`Arrives`): then
  the program hears a fault, but the list is as the answer would have said.

  The search goes on a snapshot of the list, so code that changes the chain while it is asked for
  its opinion can make the search miss things.  So it is assumed that the list stays the same for as
  long as the search is comparing; nothing is assumed about the time before and after.
-/
import Relay.Proofs.Settling

namespace Relay

variable {T : Vocabulary} {H : Host}

/-! ## The list along a run -/

namespace State

/-- What the first `n` steps are to do to the lists, in order. -/
def edits (s : State H) (n : Nat) : List Edit := (List.range n).map fun k => (s.after k).edit

theorem edits_succ (s : State H) (n : Nat) : s.edits (n + 1) = s.edits n ++ [(s.after n).edit] := by
  rw [edits, List.range_succ, List.map_append, edits]
  rfl

/-- What is asked for edits the lists at once. -/
theorem Asks.edit_eq {s : State H} {rq : Request H.toVocabulary} {below : List (Frame H)}
    (h : s.Asks rq below) : s.edit = rq.edit s.heap := by
  obtain ⟨r, code, owned, rest, code', hmode, hframes, hact, -⟩ := h
  unfold edit
  rw [hmode, hframes]
  dsimp only
  rw [hact]

end State

namespace Reachable

variable {s : State H}

/-- A chain whose number has been given out, and that is there, was there one step before. -/
theorem exists_chain_of_step (hs : Reachable s) {c : ChainId} (hc : c < s.heap.chains.nextId)
    (hstep : s.step.heap.chains.get? c ≠ none) : s.heap.chains.get? c ≠ none := by
  obtain ⟨chain', hchain'⟩ := Option.ne_none_iff_exists'.1 hstep
  obtain ⟨deed, hdoes⟩ := s.step_does
  have hscene : s.step.heap.scene.chains.get? c = some chain' := by
    rw [Heap.get?_scene_chains, hchain']
  rcases hdoes.change.reorder hs.coherent hscene with ⟨rfl, -⟩ | ⟨chain, hchain, -⟩
  · exact absurd hc (Nat.lt_irrefl _)
  · rw [Heap.get?_scene_chains] at hchain
    rw [hchain]
    exact Option.some_ne_none chain

theorem nextChain_le (n : Nat) (s : State H) :
    s.heap.chains.nextId ≤ (s.after n).heap.chains.nextId := by
  induction n with
  | zero => exact Nat.le_refl _
  | succ n ih =>
    obtain ⟨deed, hdoes⟩ := (s.after n).step_does
    exact Nat.le_trans ih hdoes.change.nextChain_le

/-- No slot is in a list twice. -/
theorem nodup_listing (hs : Reachable s) (c : ChainId) : ((s.heap.listing c).map (·.1)).Nodup := by
  cases hget : s.heap.chains.get? c with
  | none =>
    rw [Heap.listing, hget]
    exact List.nodup_nil
  | some chain =>
    rw [Heap.listing_of_get? hget]
    exact (hs.coherent c chain (by rw [Heap.get?_scene_chains, hget])).nodup_listing

/-- The list of a chain is what its edits make of it, one after the other. -/
theorem listing_after (hs : Reachable s) {c : ChainId} (hc : s.heap.chains.get? c ≠ none) {n : Nat}
    (hn : (s.after n).heap.chains.get? c ≠ none) :
    (s.after n).heap.listing c = (s.edits n).foldl (Edit.on c) (s.heap.listing c) := by
  have hlt : c < s.heap.chains.nextId := by
    refine s.heap.chains.stored_lt ?_
    rw [Table.contains, Pool.get?_stored]
    exact Option.isSome_iff_ne_none.2 hc
  induction n with
  | zero => rfl
  | succ n ih =>
    have hsn := hs.after n
    have hbefore := hsn.exists_chain_of_step (Nat.lt_of_lt_of_le hlt (nextChain_le n s)) hn
    rw [State.after_succ, hsn.passes.lists c hn, ih hbefore, State.edits_succ, List.foldl_append]
    rfl

end Reachable

/-! ## Removals -/

/-- The chain and the probe of a request to remove something.  What is not a listener itself is
    stored first, as one. -/
def Request.search? (h : Heap T) : Request T → Option (ChainId × Fn)
  | .remove chain function =>
    match h.chainOf chain, h.functionOf function with
    | some c, some probe => some (c, probe)
    | _, _ => none
  | .removeCurrent chain event =>
    match h.chainOf chain, h.eventOf event with
    | some c, some e => some (c, e.recipient)
    | _, _ => none
  | .removeSimple chain function =>
    match h.chainOf chain, h.functionOf function with
    | some c, some _ => some (c, some h.payloads.nextId)
    | _, _ => none
  | .removeNative chain _ => (h.chainOf chain).map fun c => (c, some h.payloads.nextId)
  | _ => none

/-- The listener that a request stores under the next number, to add it or to look for its like. -/
def Request.stores? (h : Heap T) : Request T → Option (Payload T)
  | .addSimple chain function _ =>
    match h.chainOf chain, h.functionOf function with
    | some _, some (some p) => some ⟨.simple (some p), .byValue⟩
    | _, _ => none
  | .removeSimple chain function =>
    match h.chainOf chain, h.functionOf function with
    | some _, some inner => some ⟨.simple inner, .byValue⟩
    | _, _ => none
  | .removeNative chain native => (h.chainOf chain).map fun _ => ⟨.native native [], .byValue⟩
  | _ => none

/-- Whether a comparison has found two functions equal; it has found nothing if it was unwound. -/
def Reply.equal? : Reply T → Option Bool
  | .flag true => some true
  | .fault _ => none
  | _ => some false

namespace State

/-- What was asked for above `below` is still comparing. -/
def Comparing (s : State H) (below : List (Frame H)) : Prop :=
  ∃ found held, .searching found :: (passers held ++ below) <:+ s.frames

/-- Before step `n`, the listener of `e` was compared with `probe`, in that order, and `r` came of
    it. -/
def Judged (s : State H) (below : List (Frame H)) (probe : Fn) (n : Nat) (e : SlotId × Fn)
    (r : Reply H.toVocabulary) : Prop :=
  ∃ found held i j, 0 < i ∧ i ≤ j ∧ j < n ∧ found.candidate = e.1 ∧
    (s.after i).mode = .compare e.2 probe ∧
    (s.after i).frames = .searching found :: (passers held ++ below) ∧
    (∀ k, i ≤ k → k ≤ j → .searching found :: (passers held ++ below) <:+ (s.after k).frames) ∧
    (s.after j).mode = .reply r ∧ (s.after j).frames = .searching found :: (passers held ++ below)

/-- What a removal makes of a list, and what it decides to answer. -/
inductive Removes (s : State H) (below : List (Frame H)) (probe : Fn) (n : Nat)
    (list : List (SlotId × Fn)) : Reply H.toVocabulary → List (SlotId × Fn) → Prop
  /-- The LAST listener that is equal to the probe is gone. -/
  | removed {front back : List (SlotId × Fn)} {e : SlotId × Fn} {r : Reply H.toVocabulary}
      (hlist : list = front ++ e :: back) (he : s.Judged below probe n e r)
      (hr : r.equal? = some true)
      (hback : ∀ e' ∈ back, ∃ r', s.Judged below probe n e' r' ∧ r'.equal? = some false) :
      Removes s below probe n list (.flag true) (front ++ back)
  /-- No listener is equal to the probe. -/
  | unmatched (hall : ∀ e ∈ list, ∃ r, s.Judged below probe n e r ∧ r.equal? = some false) :
      Removes s below probe n list (.flag false) list
  /-- A comparison was unwound, and the removal with it. -/
  | unwound {front back : List (SlotId × Fn)} {e : SlotId × Fn} {f : Fault}
      (hlist : list = front ++ e :: back) (he : s.Judged below probe n e (.fault f))
      (hback : ∀ e' ∈ back, ∃ r', s.Judged below probe n e' r' ∧ r'.equal? = some false) :
      Removes s below probe n list (.fault f) list

/-! ### One turn of a search -/

/-- A search above `under` with these entries still before it: it compares the first, or there is
    none and it ends. -/
inductive Turns (c : ChainId) (probe : Fn) (snapshot : List (SlotId × Fn)) (under : List (Frame H))
    (s : State H) : List (SlotId × Fn) → Prop
  | ended (todo : List Ref) (hframes : s.frames = .releasing todo (.flag false) :: under)
      (hmode : s.mode = .reply .done) : Turns c probe snapshot under s []
  | next (e : SlotId × Fn) (remaining : List (SlotId × Fn))
      (hframes : s.frames = .searching ⟨c, probe, e.1, remaining, snapshot⟩ :: under)
      (hmode : s.mode = .compare e.2 probe) : Turns c probe snapshot under s (e :: remaining)

theorem search_turns (s : State H) (c : ChainId) (probe : Fn)
    (snapshot remaining : List (SlotId × Fn)) :
    Turns c probe snapshot s.frames (s.search c probe snapshot remaining) remaining := by
  cases remaining with
  | nil => exact .ended _ rfl rfl
  | cons e rest => exact .next e rest rfl rfl

/-- Whatever a comparison comes to but a match or a fault, the search goes on. -/
theorem hear_unequal (s : State H) (found : Search) {r : Reply H.toVocabulary}
    (hr : r.equal? = some false) :
    s.hear r (.searching found) =
      s.search found.chain found.probe found.snapshot found.remaining := by
  cases r with
  | flag same =>
    cases same with
    | true => exact absurd hr (by simp [Reply.equal?])
    | false => rfl
  | fault f => exact absurd hr (by simp [Reply.equal?])
  | _ => rfl

/-- A match that is still linked is detached, and the answer is yes. -/
theorem detachFound_eq (s : State H) (found : Search) {chain : Chain Fn}
    (hc : s.heap.chains.get? found.chain = some chain)
    (hx : chain.contains found.candidate = true) :
    s.detachFound found =
      (({ s with heap := { s.heap with
        chains := s.heap.chains.modify found.chain fun _ => (chain.detach found.candidate).2 } }.report
          (.removed found.chain found.candidate (chain.detach found.candidate).2.size)).release
            (((chain.detach found.candidate).1.toList ++ found.snapshot.map Prod.snd).map .function)
              (.flag true)) := by
  unfold detachFound
  dsimp only
  rw [hc]
  dsimp only
  rw [if_pos hx, List.map_append, List.map_map]
  rfl

theorem detachFound_frames (s : State H) (found : Search) {chain : Chain Fn}
    (hc : s.heap.chains.get? found.chain = some chain)
    (hx : chain.contains found.candidate = true) :
    ∃ todo, (s.detachFound found).frames = .releasing todo (.flag true) :: s.frames := by
  rw [s.detachFound_eq found hc hx]
  exact ⟨_, rfl⟩

/-- A match that is heard ends the search. -/
theorem detachFound_over (s : State H) (found : Search) :
    (∃ todo r, (s.detachFound found).frames = .releasing todo r :: s.frames) ∧
      (s.detachFound found).mode = .reply .done := by
  unfold detachFound
  dsimp only
  split
  · exact ⟨⟨_, _, rfl⟩, rfl⟩
  · split <;> exact ⟨⟨_, _, rfl⟩, rfl⟩

/-- A removal begins with a share in every linked listener, and compares the LAST first. -/
theorem startRemove_search {s : State H} (hv : s.heap.scene.Coherent) (c : ChainId) (probe : Fn) :
    s.startRemove c probe =
      ({ s with heap := s.heap.retainAll ((s.heap.listing c).reverse.map fun e => .function e.2) }
        : State H).search c probe (s.heap.listing c).reverse (s.heap.listing c).reverse := by
  have hsnapshot :
      ((s.heap.chains.get? c).map (·.backwards)).getD [] = (s.heap.listing c).reverse := by
    cases hc : s.heap.chains.get? c with
    | none => rw [Heap.listing, hc]; rfl
    | some chain =>
      have hchain : chain.Coherent := hv c chain (by rw [Heap.get?_scene_chains, hc])
      rw [Heap.listing_of_get? hc]
      exact hchain.backwards_eq
  unfold startRemove
  dsimp only
  rw [hsnapshot]

/-- A request to remove something begins a removal, above frames that pass its answer on. -/
theorem ask_startRemove {s : State H} {rq : Request H.toVocabulary} {c : ChainId} {probe : Fn}
    (h : rq.search? s.heap = some (c, probe)) :
    ∃ (held : List (List Ref)) (t : State H), t.heap.scene = s.heap.scene ∧
      t.frames = passers held ++ s.frames ∧ s.ask rq = t.startRemove c probe := by
  have hhold (handles : List HandleId) : (s.hold handles).heap.scene = s.heap.scene :=
    s.heap.scene_retainAll _
  unfold Request.search? at h
  cases rq with
  | remove chain function =>
    dsimp only at h
    split at h
    · rename_i c' probe' hc hf
      obtain ⟨rfl, rfl⟩ := Prod.mk.inj (Option.some.inj h)
      unfold ask
      dsimp only
      rw [hc, hf]
      exact ⟨[_], _, hhold _, rfl, rfl⟩
    · exact absurd h (by simp)
  | removeCurrent chain i =>
    dsimp only at h
    split at h
    · rename_i c' e hc he
      obtain ⟨rfl, rfl⟩ := Prod.mk.inj (Option.some.inj h)
      unfold ask
      dsimp only
      rw [hc, he]
      exact ⟨[_], _, hhold _, rfl, rfl⟩
    · exact absurd h (by simp)
  | removeSimple chain function =>
    dsimp only at h
    split at h
    · rename_i c' inner hc hf
      obtain ⟨rfl, rfl⟩ := Prod.mk.inj (Option.some.inj h)
      unfold ask
      dsimp only
      rw [hc, hf]
      let held : State H := s.hold [chain, function]
      let stored := (held.heap.retain (.function inner)).store ⟨.simple inner, .byValue⟩
      have hprobe : stored.1 = some s.heap.payloads.nextId :=
        congrArg some (held.heap.nextPayload_retain (.function inner))
      have hscene : stored.2.scene = s.heap.scene :=
        (held.heap.scene_retain (.function inner)).trans (hhold [chain, function])
      rw [← hprobe]
      exact ⟨[_, _], State.push { held with heap := stored.2 } (.await [.function stored.1]), hscene,
        rfl, rfl⟩
    · exact absurd h (by simp)
  | removeNative chain native =>
    unfold ask
    dsimp only at h ⊢
    obtain ⟨c', hc, he⟩ := Option.map_eq_some_iff.1 h
    obtain ⟨rfl, rfl⟩ := Prod.mk.inj he
    rw [hc]
    let held : State H := s.hold [chain]
    let stored := held.heap.store ⟨.native native [], .byValue⟩
    exact ⟨[_, _], State.push { held with heap := stored.2 } (.await [.function stored.1]),
      hhold [chain], rfl, rfl⟩
  | _ => exact absurd h (by simp)

/-- So it begins a search of the list as it is, LAST entry first. -/
theorem ask_turns {s : State H} (hv : s.heap.scene.Coherent) {rq : Request H.toVocabulary}
    {c : ChainId} {probe : Fn} (h : rq.search? s.heap = some (c, probe)) :
    ∃ held, Turns c probe (s.heap.listing c).reverse (passers held ++ s.frames) (s.ask rq)
      (s.heap.listing c).reverse := by
  obtain ⟨held, t, hscene, hframes, hask⟩ := ask_startRemove h
  refine ⟨held, ?_⟩
  rw [hask, startRemove_search (hscene ▸ hv), ← hframes, ← Heap.listing_scene hscene c]
  exact search_turns ({ t with
    heap := t.heap.retainAll ((t.heap.listing c).reverse.map fun e => .function e.2) } : State H)
    c probe _ _

/-! ### From the first turn to the last -/

theorem Judged.mono {s : State H} {below : List (Frame H)} {probe : Fn} {n n' : Nat}
    {e : SlotId × Fn} {r : Reply H.toVocabulary} (h : s.Judged below probe n e r) (hn : n ≤ n') :
    s.Judged below probe n' e r := by
  obtain ⟨found, held, i, j, hi, hij, hj, h⟩ := h
  exact ⟨found, held, i, j, hi, hij, Nat.lt_of_lt_of_le hj hn, h⟩

/-- What was found unequal stays so. -/
theorem unequal_mono {s : State H} {below : List (Frame H)} {probe : Fn} {n n' : Nat}
    {es : List (SlotId × Fn)}
    (h : ∀ e ∈ es, ∃ r, s.Judged below probe n e r ∧ r.equal? = some false) (hn : n ≤ n') :
    ∀ e ∈ es, ∃ r, s.Judged below probe n' e r ∧ r.equal? = some false := by
  intro e he
  obtain ⟨r, hjudged, hr⟩ := h e he
  exact ⟨r, hjudged.mono hn, hr⟩

theorem Removes.mono {s : State H} {below : List (Frame H)} {probe : Fn} {n n' : Nat}
    {list list' : List (SlotId × Fn)} {r : Reply H.toVocabulary}
    (h : s.Removes below probe n list r list') (hn : n ≤ n') :
    s.Removes below probe n' list r list' := by
  cases h with
  | removed hlist he hr hback => exact .removed hlist (he.mono hn) hr (unequal_mono hback hn)
  | unmatched hall => exact .unmatched (unequal_mono hall hn)
  | unwound hlist he hback => exact .unwound hlist (he.mono hn) (unequal_mono hback hn)

/-- Taking out the entry of a slot leaves the entries before and after it. -/
theorem filter_middle {front back : List (SlotId × Fn)} {e : SlotId × Fn}
    (h : ((front ++ e :: back).map (·.1)).Nodup) :
    ((front ++ e :: back).filter fun e' => decide (e'.1 ≠ e.1)) = front ++ back := by
  rw [List.map_append, List.map_cons] at h
  obtain ⟨-, hback, hfront⟩ := List.nodup_append.1 h
  have hfront' : ∀ e' ∈ front, decide (e'.1 ≠ e.1) = true := fun e' he' =>
    decide_eq_true (hfront e'.1 (List.mem_map_of_mem he') e.1 List.mem_cons_self)
  have hback' : ∀ e' ∈ back, decide (e'.1 ≠ e.1) = true := fun e' he' => decide_eq_true fun hx =>
    (List.nodup_cons.1 hback).1 (hx ▸ List.mem_map_of_mem he')
  rw [List.filter_append, List.filter_cons_of_neg (by simp), List.filter_eq_self.2 hfront',
    List.filter_eq_self.2 hback']

/-- How far a removal has come, `n` steps after it was asked for. -/
inductive Removing (s : State H) (below : List (Frame H)) (c : ChainId) (probe : Fn)
    (list : List (SlotId × Fn)) (n : Nat) : Prop
  /-- It compares the listener of `e`, and has found all behind it unequal. -/
  | comparing (held : List (List Ref)) (front back : List (SlotId × Fn)) (e : SlotId × Fn) (i : Nat)
      (hsplit : list = front ++ e :: back) (hi : 0 < i) (hin : i ≤ n)
      (hmode : (s.after i).mode = .compare e.2 probe)
      (hframes : (s.after i).frames =
        .searching ⟨c, probe, e.1, front.reverse, list.reverse⟩ :: (passers held ++ below))
      (hstays : ∀ k, i ≤ k → k ≤ n →
        .searching ⟨c, probe, e.1, front.reverse, list.reverse⟩ :: (passers held ++ below) <:+
          (s.after k).frames)
      (hback : ∀ e' ∈ back, ∃ r, s.Judged below probe n e' r ∧ r.equal? = some false)
      (hlist : ∀ k < n, (s.after k).heap.listing c = list)
  /-- It came to an end in step `m`, and its answer is promised. -/
  | settled (m : Nat) (q : Reply H.toVocabulary) (hm : m < n)
      (hlist : ∀ k ≤ m, (s.after k).heap.listing c = list)
      (hremoves : s.Removes below probe n list q ((s.after (m + 1)).heap.listing c))
      (hpromised : Promised q below (s.after (m + 1)))

/-- A search that goes on in step `n` has a next entry to compare, or has found none equal. -/
theorem Removing.of_turns {s : State H} {below : List (Frame H)} {c : ChainId} {probe : Fn}
    {list front back : List (SlotId × Fn)} {n : Nat} (held : List (List Ref))
    (hsplit : list = front ++ back)
    (hturns : Turns c probe list.reverse (passers held ++ below) (s.after (n + 1)) front.reverse)
    (hback : ∀ e ∈ back, ∃ r, s.Judged below probe (n + 1) e r ∧ r.equal? = some false)
    (hlist : ∀ k ≤ n, (s.after k).heap.listing c = list)
    (hsame : (s.after (n + 1)).heap.listing c = (s.after n).heap.listing c) :
    s.Removing below c probe list (n + 1) := by
  rcases List.eq_nil_or_concat front with rfl | ⟨front', e, rfl⟩
  · cases hturns with
    | ended todo hframes hmode =>
      refine .settled n (.flag false) (Nat.lt_succ_self n) hlist ?_ (promised_of_leaving hframes hmode)
      rw [hsame, hlist n (Nat.le_refl n)]
      exact .unmatched (hsplit ▸ hback)
  · rw [List.concat_eq_append, List.reverse_append, List.reverse_singleton,
      List.singleton_append] at hturns
    cases hturns with
    | next _ _ hframes hmode =>
      refine .comparing held front' back e (n + 1) (by simpa using hsplit) (Nat.succ_pos n)
        (Nat.le_refl _) hmode hframes (fun k hk hk' => ?_) hback fun k hk => ?_
      · rw [Nat.le_antisymm hk' hk]
        exact hframes ▸ List.suffix_rfl
      · exact hlist k (Nat.le_of_lt_succ hk)

/-- The search hears what has come of comparing the listener of `e`. -/
theorem Removing.of_hear {s : State H} (hs : Reachable s) {below : List (Frame H)} {c : ChainId}
    {probe : Fn} {list front back : List (SlotId × Fn)} {e : SlotId × Fn} {n : Nat}
    {held : List (List Ref)} {r : Reply H.toVocabulary} (hsplit : list = front ++ e :: back)
    (htop : (s.after n).frames =
      .searching ⟨c, probe, e.1, front.reverse, list.reverse⟩ :: (passers held ++ below))
    (hreply : (s.after n).mode = .reply r) (hjudged : s.Judged below probe (n + 1) e r)
    (hback : ∀ e' ∈ back, ∃ r, s.Judged below probe (n + 1) e' r ∧ r.equal? = some false)
    (hlist : ∀ k ≤ n, (s.after k).heap.listing c = list) :
    s.Removing below c probe list (n + 1) := by
  let popped : State H := { s.after n with frames := passers held ++ below }
  let found : Search := ⟨c, probe, e.1, front.reverse, list.reverse⟩
  have hstep : s.after (n + 1) = popped.hear r (.searching found) := step_of_top htop hreply
  have hlisted : popped.heap.listing c = list := hlist n (Nat.le_refl n)
  have hcoherent : popped.heap.scene.Coherent := (hs.after n).coherent
  -- where nothing matches, the search goes on with what is before `e`
  have hunequal (hr : r.equal? = some false) : s.Removing below c probe list (n + 1) := by
    rw [hear_unequal popped found hr] at hstep
    refine .of_turns held hsplit ?_ ?_ hlist ?_
    · rw [hstep]
      exact search_turns popped c probe list.reverse front.reverse
    · intro e' he'
      rcases List.mem_cons.1 he' with rfl | hm
      · exact ⟨r, hjudged, hr⟩
      · exact hback e' hm
    · rw [hstep]
      exact (search_yields c probe list.reverse front.reverse).lists c
  cases r with
  | flag same =>
    cases same with
    | false => exact hunequal rfl
    | true =>
      have hmem : e ∈ popped.heap.listing c := by
        rw [hlisted, hsplit]
        exact List.mem_append_right front List.mem_cons_self
      obtain ⟨chain, hc⟩ : ∃ chain, popped.heap.chains.get? c = some chain := by
        cases hc : popped.heap.chains.get? c with
        | none => rw [Heap.listing, hc] at hmem; exact absurd hmem (by simp)
        | some chain => exact ⟨chain, rfl⟩
      have hchain : chain.Coherent := hcoherent c chain (by rw [Heap.get?_scene_chains, hc])
      rw [Heap.listing_of_get? hc] at hmem hlisted
      have hlinked : chain.contains e.1 = true :=
        (hchain.visits e.1).1 (Chain.listener?_of_mem_listing hmem).1
      obtain ⟨todo, hframes⟩ := popped.detachFound_frames found hc hlinked
      have hnodup : ((front ++ e :: back).map (·.1)).Nodup := by
        rw [← hsplit, ← hlisted]
        exact hchain.nodup_listing
      have hgone : (s.after (n + 1)).heap.listing c = front ++ back := by
        rw [hstep]
        refine ((detachFound_yields (s := popped) hcoherent found).lists c).trans ?_
        rw [Edit.on, if_pos rfl, Heap.listing_of_get? hc, hlisted, hsplit]
        exact filter_middle hnodup
      refine .settled n (.flag true) (Nat.lt_succ_self n) hlist ?_ ?_
      · rw [hgone]
        exact .removed hsplit hjudged rfl hback
      · rw [hstep]
        exact promised_of_leaving hframes (popped.detachFound_over found).2
  | fault f =>
    refine .settled n (.fault f) (Nat.lt_succ_self n) hlist ?_ ?_
    · have hsame : (s.after (n + 1)).heap.listing c = list := by
        rw [hstep]
        exact hlisted
      rw [hsame]
      exact .unwound hsplit hjudged hback
    · rw [hstep]
      exact promised_of_leaving rfl rfl
  | _ => exact hunequal rfl

/-- One step of a removal that has not been answered yet. -/
theorem Removing.step {s : State H} (hs : Reachable s) {below : List (Frame H)} {c : ChainId}
    {probe : Fn} {list : List (SlotId × Fn)} {n : Nat} (h : s.Removing below c probe list n)
    (hquiet : (s.after n).Comparing below → (s.after n).heap.listing c = list) :
    s.Removing below c probe list (n + 1) := by
  cases h with
  | settled m q hm hlist hremoves hpromised =>
    exact .settled m q (Nat.lt_succ_of_lt hm) hlist (hremoves.mono (Nat.le_succ n)) hpromised
  | comparing held front back e i hsplit hi hin hmode hframes hstays hback hlist =>
    have hnow := hstays n hin (Nat.le_refl n)
    have hlist' : ∀ k ≤ n, (s.after k).heap.listing c = list := fun k hk =>
      (Nat.lt_or_eq_of_le hk).elim (hlist k) fun he => he ▸ hquiet ⟨_, held, hnow⟩
    by_cases hbusy : (s.after n).frames =
        .searching ⟨c, probe, e.1, front.reverse, list.reverse⟩ :: (passers held ++ below) →
          ∀ r, (s.after n).mode ≠ .reply r
    · -- the comparing goes on
      refine .comparing held front back e i hsplit hi (Nat.le_succ_of_le hin) hmode hframes
        (fun k hk hk' => ?_) (unequal_mono hback (Nat.le_succ n)) fun k hk => ?_
      · rcases Nat.lt_or_eq_of_le hk' with hlt | rfl
        · exact hstays k hk (Nat.le_of_lt_succ hlt)
        · exact suffix_step hnow hbusy
      · exact hlist' k (Nat.le_of_lt_succ hk)
    · push Not at hbusy
      obtain ⟨htop, r, hreply⟩ := hbusy
      have hjudged : s.Judged below probe (n + 1) e r :=
        ⟨_, held, i, n, hi, hin, Nat.lt_succ_self n, rfl, hmode, hframes, hstays, hreply, htop⟩
      exact .of_hear hs hsplit htop hreply hjudged (unequal_mono hback (Nat.le_succ n)) hlist'

/-- Asking begins a removal, with the whole list before it. -/
theorem Removing.begin {s : State H} (hs : Reachable s) {rq : Request H.toVocabulary}
    {below : List (Frame H)} (hasks : s.Asks rq below) {c : ChainId} {probe : Fn}
    (hrq : rq.search? s.heap = some (c, probe)) :
    s.Removing below c probe (s.heap.listing c) 1 := by
  obtain ⟨t, hheap, rfl, hstep⟩ := hasks.exists_step
  have hcoherent : t.heap.scene.Coherent := hheap ▸ hs.coherent
  have hgrounded : t.Grounded := fun i c' hc => by
    rw [hheap] at hc ⊢
    exact hs.grounded i c' hc
  rw [← hheap] at hrq
  obtain ⟨held, hturns⟩ := ask_turns hcoherent hrq
  have hedit : rq.edit t.heap = .nothing := by
    cases rq with
    | add => exact absurd hrq (by simp [Request.search?])
    | addSimple => exact absurd hrq (by simp [Request.search?])
    | clear => exact absurd hrq (by simp [Request.search?])
    | _ => rfl
  have hsame : (s.after 1).heap.listing c = s.heap.listing c := by
    show s.step.heap.listing c = _
    rw [hstep, (ask_yields hcoherent hgrounded rq).lists c, hedit, hheap]
    rfl
  refine .of_turns held (List.append_nil _).symm ?_ (fun e he => absurd he List.not_mem_nil)
    (fun k hk => ?_) hsame
  · show Turns c probe _ (passers held ++ t.frames) s.step _
    rw [hstep, ← hheap]
    exact hturns
  · rw [Nat.le_zero.1 hk]
    rfl

/-- A removal whose comparisons leave the list alone does to it what `Removes` says, in one step,
    and answers accordingly, unless a destructor unwinds before. -/
theorem removes_of_answered {s : State H} (hs : Reachable s) {rq : Request H.toVocabulary}
    {below : List (Frame H)} (hasks : s.Asks rq below) {c : ChainId} {probe : Fn}
    (hrq : rq.search? s.heap = some (c, probe)) {n : Nat} {r : Reply H.toVocabulary}
    (hanswer : s.Answered below n r)
    (hquiet : ∀ k, 0 < k → k < n → (s.after k).Comparing below →
      (s.after k).heap.listing c = s.heap.listing c) :
    ∃ m < n, ∃ q, (∀ k ≤ m, (s.after k).heap.listing c = s.heap.listing c) ∧
      s.Removes below probe n (s.heap.listing c) q ((s.after (m + 1)).heap.listing c) ∧
      s.Arrives (m + 1) n q r := by
  have hall : ∀ k, 0 < k → k ≤ n → s.Removing below c probe (s.heap.listing c) k := by
    intro k hk hkn
    induction k with
    | zero => exact absurd hk (Nat.lt_irrefl 0)
    | succ k ih =>
      rcases Nat.eq_zero_or_pos k with rfl | hpos
      · exact .begin hs hasks hrq
      · have hlt : k < n := Nat.lt_of_succ_le hkn
        exact (ih hpos (Nat.le_of_lt hlt)).step hs (hquiet k hpos hlt)
  cases hall n hanswer.pos (Nat.le_refl n) with
  | comparing held front back e i _ _ hin _ _ hstays =>
    -- a search that is still comparing lies above the frame that has heard the answer
    have hlength := (hstays n hin (Nat.le_refl n)).length_le
    rw [hanswer.frames, List.length_cons, List.length_append] at hlength
    omega
  | settled m q hm hlist hremoves hpromised =>
    exact ⟨m, hm, q, hlist, hremoves, hpromised.arrives (Nat.succ_pos m) hm hanswer⟩

/-- A removal decides to say yes exactly if it has taken something out. -/
theorem Removes.flag_iff {s : State H} {below : List (Frame H)} {probe : Fn} {n : Nat}
    {list list' : List (SlotId × Fn)} {q : Reply H.toVocabulary}
    (h : s.Removes below probe n list q list') : q = .flag true ↔ list' ≠ list := by
  cases h with
  | @removed front back e r hlist =>
    refine ⟨fun _ hsame => ?_, fun _ => rfl⟩
    have hlength := congrArg List.length (hsame.trans hlist)
    simp only [List.length_append, List.length_cons] at hlength
    omega
  | unmatched => exact ⟨fun h => absurd h (by simp), fun h => absurd rfl h⟩
  | unwound => exact ⟨fun h => absurd h (by simp), fun h => absurd rfl h⟩

end State

/-! ## What is stored on the way, and sizes -/

namespace State

variable {s : State H}

theorem get?_payloads_startRemove (s : State H) (c : ChainId) (probe : Fn) (p : PayloadId) :
    (s.startRemove c probe).heap.payloads.get? p = s.heap.payloads.get? p := by
  unfold startRemove
  dsimp only
  generalize ((s.heap.chains.get? c).map (·.backwards)).getD [] = snapshot
  cases snapshot with
  | nil => rfl
  | cons e rest => exact (s.heap.payloads_retainAll _).1 p

theorem get?_payloads_link (s : State H) (c : ChainId) (listener : Fn) (placement : Placement)
    (p : PayloadId) :
    (s.link c listener placement).heap.payloads.get? p = s.heap.payloads.get? p := by
  unfold link
  split <;> rfl

/-- A listener that is stored for a request gets the next number. -/
theorem get?_payloads_store (h : Heap T) (load : Payload T) :
    (h.store load).2.payloads.get? h.payloads.nextId = some load :=
  (Pool.get?_alloc _ _ _).trans (if_pos rfl)

theorem ask_stores (s : State H) {rq : Request H.toVocabulary} {load : Payload H.toVocabulary}
    (h : rq.stores? s.heap = some load) :
    (s.ask rq).heap.payloads.get? s.heap.payloads.nextId = some load := by
  unfold Request.stores? at h
  cases rq with
  | addSimple chain function placement =>
    dsimp only at h
    split at h
    · rename_i c p hc hf
      obtain rfl := Option.some.inj h
      unfold ask
      dsimp only
      rw [hc, hf]
      exact (get?_payloads_link _ _ _ _ _).trans
        (get?_payloads_store (s.heap.retain (.function (some p))) _)
    · exact absurd h (by simp)
  | removeSimple chain function =>
    dsimp only at h
    split at h
    · rename_i c inner hc hf
      obtain rfl := Option.some.inj h
      unfold ask
      dsimp only
      rw [hc, hf]
      have hstored := get?_payloads_store ((s.hold [chain, function]).heap.retain (.function inner))
        ⟨.simple inner, .byValue⟩
      rw [Heap.nextPayload_retain] at hstored
      exact (get?_payloads_startRemove _ _ _ _).trans hstored
    · exact absurd h (by simp)
  | removeNative chain native =>
    unfold ask
    dsimp only at h ⊢
    obtain ⟨c, hc, rfl⟩ := Option.map_eq_some_iff.1 h
    rw [hc]
    exact (get?_payloads_startRemove _ _ _ _).trans
      (get?_payloads_store (s.hold [chain]).heap ⟨.native native [], .byValue⟩)
  | _ => exact absurd h (by simp)

/-- The size that is answered is the length of the list. -/
theorem step_of_asks_size (hs : Reachable s) {i : HandleId} {below : List (Frame H)}
    (hasks : s.Asks (.size i) below) {c : ChainId} (hc : s.heap.chainOf i = some c) :
    s.step.frames = below ∧ s.step.mode = .reply (.size (s.heap.listing c).length) := by
  obtain ⟨t, hheap, rfl, hstep⟩ := hasks.exists_step
  obtain ⟨chain, hchain⟩ := hs.grounded i c hc
  have hcoherent : chain.Coherent := hs.coherent c chain (by rw [Heap.get?_scene_chains, hchain])
  have hanswer : t.ask (.size i) = t.answer (.size chain.size) := by
    unfold ask
    dsimp only
    rw [hheap, hc, Option.bind_some, hchain]
  rw [hstep, hanswer, Heap.listing_of_get? hchain, hcoherent.length_listing]
  exact ⟨rfl, rfl⟩

end State

/-! ## All of it -/

/-- What is so of the lists of all chains, in a state and in all runs that go on from it. -/
structure State.ReadsAsLists (s : State H) : Prop where
  /-- The list of a chain is what is linked, in dispatch order. -/
  order : ∀ c chain, s.heap.chains.get? c = some chain →
    (s.heap.listing c).map (·.1) = chain.order ∧
      ∀ e ∈ s.heap.listing c, chain.listener? e.1 = some e.2
  /-- Along a run, the list is what its edits make of it, one after the other. -/
  run : ∀ c n, s.heap.chains.get? c ≠ none → (s.after n).heap.chains.get? c ≠ none →
    (s.after n).heap.listing c = (s.edits n).foldl (Edit.on c) (s.heap.listing c)
  /-- A request edits the lists as it says. -/
  asked : ∀ rq below, s.Asks rq below → s.edit = rq.edit s.heap
  /-- A simple listener, and a probe that is no listener yet, are stored as such. -/
  stored : ∀ rq below load, s.Asks rq below → rq.stores? s.heap = some load →
    s.step.heap.payloads.get? s.heap.payloads.nextId = some load
  /-- A size is the length of the list, and nothing or something according to it. -/
  sizes : ∀ i below c, s.Asks (.size i) below → s.heap.chainOf i = some c →
    ∃ n, s.step.frames = below ∧ s.step.mode = .reply (.size n) ∧ n = (s.heap.listing c).length ∧
      (0 < n ↔ s.heap.listing c ≠ []) ∧ (n = 0 ↔ s.heap.listing c = [])
  /-- A removal that is over took out the last listener that it found equal to its probe, if there was
      one, and says whether it did; unless its comparing changed the chain.  The program hears something
      else only where a destructor has unwound after that. -/
  removal : ∀ rq below c probe n r, s.Asks rq below → rq.search? s.heap = some (c, probe) →
    s.Answered below n r →
    (∀ k, 0 < k → k < n → (s.after k).Comparing below →
      (s.after k).heap.listing c = s.heap.listing c) →
    ∃ m < n, ∃ q, (∀ k ≤ m, (s.after k).heap.listing c = s.heap.listing c) ∧
      s.Removes below probe n (s.heap.listing c) q ((s.after (m + 1)).heap.listing c) ∧
      s.Arrives (m + 1) n q r ∧
      (q = .flag true ↔ (s.after (m + 1)).heap.listing c ≠ s.heap.listing c) ∧
      (¬r.Unwound → (r = .flag true ↔ (s.after (m + 1)).heap.listing c ≠ s.heap.listing c))

end Relay
