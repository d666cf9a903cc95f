/-
  How long a payload lives.

  A payload is there EXACTLY as long as something holds it, and everything that can hold one is
  named in `Holds`: a handle, an event, a slot whether it is linked or a tombstone, a call in
  progress, a search, and another payload.  Nothing has to be said about what the program did to
  bring a state about, since the owners are counted and the counts add up (`Balanced`).  So the step
  that takes the last holder away is the step that ends the payload, it starts its destructor, and
  there is one such step in a run at most.

  The listener of a dispatch is held by the frame under it for as long as it runs (`Backed`), so no
  payload ends while a dispatch is running it.
-/
import Relay.Proofs.Passage
import Relay.Proofs.Accounting

namespace Relay

variable {H : Host}

/-! ## Weights -/

/-- A share in a payload is a function, or an event that it has received. -/
theorem Ref.weight_payload_pos_iff (ref : Ref) (p : PayloadId) :
    0 < ref.weight (.payload p) ↔ ref = .function (some p) ∨ ∃ d, ref = .event ⟨d, some p⟩ := by
  cases ref with
  | function f =>
    cases f with
    | none => simp [Ref.weight]
    | some q => by_cases hq : p = q <;> simp [Ref.weight, hq, eq_comm]
  | chain c => simp [Ref.weight]
  | dispatch d => simp [Ref.weight]
  | event e =>
    obtain ⟨d, f⟩ := e
    cases f with
    | none => simp [Ref.weight]
    | some q => by_cases hq : p = q <;> simp [Ref.weight, hq, eq_comm]
  | handle i => simp [Ref.weight]

/-- A share in a chain is nothing else. -/
theorem Ref.weight_chain_pos_iff (ref : Ref) (c : ChainId) :
    0 < ref.weight (.chain c) ↔ ref = .chain c := by
  cases ref with
  | function f => cases f <;> simp [Ref.weight]
  | chain c' => by_cases hc : c = c' <;> simp [Ref.weight, hc, eq_comm]
  | dispatch d => simp [Ref.weight]
  | event e =>
    obtain ⟨d, f⟩ := e
    cases f <;> simp [Ref.weight]
  | handle i => simp [Ref.weight]

/-- Something of a pool weighs something. -/
theorem Pool.total_pos_iff {α : Type} (p : Pool α) (w : α → Nat) :
    0 < p.total w ↔ ∃ i a, p.get? i = some a ∧ 0 < w a := by
  rw [Pool.total, Table.total_pos_iff]
  simp only [Pool.get?_stored]

namespace State

/-! ## Holders -/

/-- What holds payload `p`. -/
inductive Holds (s : State H) (p : PayloadId) : Prop
  /-- A function handle of the program. -/
  | handle (i : HandleId) (h : s.heap.handles.get? i = some (.function (some p)))
  /-- A live event that it has received, in whosever hands. -/
  | event (d : DispatchId) (h : .event ⟨d, some p⟩ ∈ s.shares)
  /-- A slot of a chain, linked or a tombstone. -/
  | slot (c : ChainId) (chain : Chain Fn) (x : SlotId) (hc : s.heap.chains.get? c = some chain)
      (hx : chain.listener? x = some (some p))
  /-- A call or a `next` that is running it, or a search for something equal to it. -/
  | call (held : List Ref) (hf : .await held ∈ s.frames) (h : .function (some p) ∈ held)
  /-- The snapshot of a search. -/
  | search (found : Search) (x : SlotId) (hf : .searching found ∈ s.frames)
      (h : (x, some p) ∈ found.snapshot)
  /-- A simple listener that runs it. -/
  | payload (q : PayloadId) (load : Payload H.toVocabulary)
      (hq : s.heap.payloads.get? q = some load) (h : load.body = .simple (some p))
  /-- One of these that is on its way out: an operation has it still in hand, and is about to let
      go of it. -/
  | leaving (todo : List Ref) (r : Reply H.toVocabulary) (hf : .releasing todo r ∈ s.frames)
      (h : .function (some p) ∈ todo)

/-- What holds chain `c`, and by it all payloads in its slots. -/
inductive HoldsChain (s : State H) (c : ChainId) : Prop
  | handle (i : HandleId) (h : s.heap.handles.get? i = some (.chain c))
  /-- A function that runs it. -/
  | payload (q : PayloadId) (load : Payload H.toVocabulary)
      (hq : s.heap.payloads.get? q = some load) (h : load.body = .chain c)
  | dispatch (d : DispatchId) (e : Dispatch) (hd : s.heap.dispatches.get? d = some e)
      (h : e.chain = c)
  | frame (f : Frame H) (hf : f ∈ s.frames) (h : .chain c ∈ f.held)

/-- Payload `p` is stored. -/
def Alive (s : State H) (p : PayloadId) : Bool := (s.heap.payloads.get? p).isSome

/-! ## Counting them -/

theorem mem_shares_iff (s : State H) (ref : Ref) :
    ref ∈ s.shares ↔ (∃ i, s.heap.handles.get? i = some ref) ∨ ref ∈ s.mode.held ∨
      ∃ f ∈ s.frames, ref ∈ f.held := by
  have hstored : ref ∈ s.heap.handles.stored.values ↔ ∃ i, s.heap.handles.get? i = some ref := by
    simp only [Table.values, List.mem_map, Prod.exists, exists_eq_right, ← Table.get?_eq_some_iff,
      Pool.get?_stored]
  rw [shares, List.mem_append, List.mem_append, hstored, List.mem_flatMap]

/-- A function in the hands of a frame is a holder of its kind. -/
theorem Holds.of_frame {s : State H} (ho : Orderly s.frames) {f : Frame H} (hf : f ∈ s.frames)
    {p : PayloadId} (h : .function (some p) ∈ f.held) : s.Holds p := by
  cases f with
  | user code owned =>
    -- code owns handles only
    obtain ⟨below, hproper⟩ := ho.proper_of_mem hf
    obtain ⟨i, hi⟩ := hproper _ h
    exact absurd hi (by simp)
  | await held => exact .call held hf h
  | releasing todo r => exact .leaving todo r hf h
  | afterSimple event arg => exact absurd h (by simp [Frame.held])
  | entering entry event arg => exact absurd h (by simp [Frame.held])
  | searching found =>
    obtain ⟨e, he, hfn⟩ := List.mem_map.1 h
    obtain ⟨x, f⟩ := e
    obtain rfl := Ref.function.inj hfn
    exact .search found x hf he

theorem Holds.of_share {s : State H} (ho : Orderly s.frames) {p : PayloadId} {ref : Ref}
    (h : ref ∈ s.shares) (hw : 0 < ref.weight (.payload p)) : s.Holds p := by
  rcases (ref.weight_payload_pos_iff p).1 hw with rfl | ⟨d, rfl⟩
  · rcases (s.mem_shares_iff _).1 h with ⟨i, hi⟩ | hmode | ⟨f, hf, hheld⟩
    · exact .handle i hi
    · -- what is about to run is in hand as an event only
      cases hm : s.mode with
      | invoke entry f event arg => cases event <;> simp [hm, Mode.held] at hmode
      | reply r => simp [hm, Mode.held] at hmode
      | compare left right => simp [hm, Mode.held] at hmode
    · exact .of_frame ho hf hheld
  · exact .event d h

theorem Holds.of_keeps {s : State H} {p q : PayloadId} {load : Payload H.toVocabulary}
    (hq : s.heap.payloads.get? q = some load) (hw : 0 < weights (.payload p) load.body.keeps) :
    s.Holds p := by
  obtain ⟨ref, href, hpos⟩ := (weights_pos_iff _ _).1 hw
  refine .payload q load hq ?_
  obtain ⟨body, rule⟩ := load
  cases body with
  | native n keeps =>
    obtain ⟨i, -, rfl⟩ := List.mem_map.1 href
    exact absurd hpos (by simp [Ref.weight])
  | simple inner =>
    obtain rfl := List.mem_singleton.1 href
    rcases (Ref.weight_payload_pos_iff _ _).1 hpos with hf | ⟨d, hf⟩
    · exact congrArg _ (Ref.function.inj hf)
    · exact absurd hf (by simp)
  | chain c =>
    obtain rfl := List.mem_singleton.1 href
    exact absurd hpos (by simp [Ref.weight])

/-- Each holder has a share that counts. -/
theorem Holds.weighs {s : State H} {p : PayloadId} (h : s.Holds p) :
    0 < s.heap.payloads.total (fun load => weights (.payload p) load.body.keeps) ∨
      0 < s.heap.chains.total (fun chain =>
        chain.load fun listener => Ref.weight (.payload p) (.function listener)) ∨
      0 < weights (.payload p) s.shares := by
  have hfunction : 0 < Ref.weight (.payload p) (.function (some p)) := by simp [Ref.weight]
  have hshare {ref : Ref} (href : ref ∈ s.shares) (hw : 0 < ref.weight (.payload p)) :
      0 < weights (.payload p) s.shares := (weights_pos_iff _ _).2 ⟨ref, href, hw⟩
  have hframe {f : Frame H} (hf : f ∈ s.frames) (hm : .function (some p) ∈ f.held) :
      0 < weights (.payload p) s.shares :=
    hshare ((s.mem_shares_iff _).2 (.inr (.inr ⟨f, hf, hm⟩))) hfunction
  cases h with
  | handle i h => exact .inr (.inr (hshare ((s.mem_shares_iff _).2 (.inl ⟨i, h⟩)) hfunction))
  | event d h => exact .inr (.inr (hshare h (by simp [Ref.weight])))
  | slot c chain x hc hx =>
    obtain ⟨slot, hslot, hl⟩ := Option.map_eq_some_iff.1 hx
    refine .inr (.inl ((Pool.total_pos_iff _ _).2 ⟨c, chain, hc, ?_⟩))
    exact (Table.total_pos_iff _ _).2 ⟨x, slot, hslot, by rw [hl]; exact hfunction⟩
  | call held hf h => exact .inr (.inr (hframe hf h))
  | search found x hf h => exact .inr (.inr (hframe hf (List.mem_map.2 ⟨_, h, rfl⟩)))
  | payload q load hq h =>
    refine .inl ((Pool.total_pos_iff _ _).2 ⟨q, load, hq, ?_⟩)
    rw [h]
    exact (weights_pos_iff _ _).2 ⟨_, List.mem_singleton_self _, hfunction⟩
  | leaving todo r hf h => exact .inr (.inr (hframe hf h))

/-- A payload is stored exactly as long as something holds it. -/
theorem Balanced.alive_iff {s : State H} (hb : s.Balanced) (ho : Orderly s.frames)
    (p : PayloadId) : s.Alive p = true ↔ s.Holds p := by
  -- a dispatch owns its chain and no payload
  have hdispatches :
      (s.heap.dispatches.total fun d => Ref.weight (.payload p) (.chain d.chain)) = 0 :=
    s.heap.dispatches.stored.total_eq_zero fun _ _ _ => rfl
  have hcount : s.heap.payloads.count p =
      s.heap.payloads.total (fun load => weights (.payload p) load.body.keeps) +
      s.heap.chains.total (fun chain =>
        chain.load fun listener => Ref.weight (.payload p) (.function listener)) +
      weights (.payload p) s.shares := by
    have h := hb.count_eq (.payload p)
    rw [hdispatches] at h
    exact h
  rw [Alive, ← Pool.count_pos_iff, hcount]
  constructor
  · intro hpos
    rcases Nat.add_pos_iff_pos_or_pos.1 hpos with hstored | hshares
    · rcases Nat.add_pos_iff_pos_or_pos.1 hstored with hpayloads | hchains
      · obtain ⟨q, load, hq, hw⟩ := (Pool.total_pos_iff _ _).1 hpayloads
        exact .of_keeps hq hw
      · obtain ⟨c, chain, hc, hload⟩ := (Pool.total_pos_iff _ _).1 hchains
        obtain ⟨x, slot, hslot, hw⟩ := (Table.total_pos_iff _ _).1 hload
        rcases (Ref.weight_payload_pos_iff _ _).1 hw with hf | ⟨d, hf⟩
        · refine .slot c chain x hc ?_
          rw [Chain.listener?, hslot, Option.map_some, Ref.function.inj hf]
        · exact absurd hf (by simp)
    · obtain ⟨ref, href, hw⟩ := (weights_pos_iff _ _).1 hshares
      exact .of_share ho href hw
  · intro h
    rcases h.weighs with h | h | h <;> omega

/-- A chain is stored exactly as long as something holds it. -/
theorem Balanced.chain_iff {s : State H} (hb : s.Balanced) (c : ChainId) :
    (∃ chain, s.heap.chains.get? c = some chain) ↔ s.HoldsChain c := by
  have hself : 0 < Ref.weight (.chain c) (.chain c) := by simp [Ref.weight]
  have hslots : (s.heap.chains.total fun chain =>
      chain.load fun listener => Ref.weight (.chain c) (.function listener)) = 0 := by
    refine s.heap.chains.stored.total_eq_zero fun c chain _ => ?_
    refine chain.slots.total_eq_zero fun x slot _ => ?_
    cases slot.listener <;> rfl
  have hcount : s.heap.chains.count c =
      s.heap.payloads.total (fun load => weights (.chain c) load.body.keeps) +
      s.heap.dispatches.total (fun d => Ref.weight (.chain c) (.chain d.chain)) +
      weights (.chain c) s.shares := by
    have h := hb.count_eq (.chain c)
    rw [hslots] at h
    exact h
  rw [← Option.isSome_iff_exists, ← Pool.count_pos_iff, hcount]
  constructor
  · intro hpos
    rcases Nat.add_pos_iff_pos_or_pos.1 hpos with hstored | hshares
    · rcases Nat.add_pos_iff_pos_or_pos.1 hstored with hpayloads | hdispatches
      · obtain ⟨q, load, hq, hw⟩ := (Pool.total_pos_iff _ _).1 hpayloads
        obtain ⟨ref, href, hpos⟩ := (weights_pos_iff _ _).1 hw
        obtain rfl := (ref.weight_chain_pos_iff c).1 hpos
        refine .payload q load hq ?_
        obtain ⟨body, rule⟩ := load
        cases body <;> simp_all [Body.keeps]
      · obtain ⟨d, e, hd, hw⟩ := (Pool.total_pos_iff _ _).1 hdispatches
        exact .dispatch d e hd (Ref.chain.inj ((Ref.weight_chain_pos_iff _ _).1 hw))
    · obtain ⟨ref, href, hw⟩ := (weights_pos_iff _ _).1 hshares
      obtain rfl := (ref.weight_chain_pos_iff c).1 hw
      rcases (s.mem_shares_iff _).1 href with ⟨i, hi⟩ | hmode | ⟨f, hf, hheld⟩
      · exact .handle i hi
      · cases hm : s.mode with
        | invoke entry f event arg => cases event <;> simp [hm, Mode.held] at hmode
        | reply r => simp [hm, Mode.held] at hmode
        | compare left right => simp [hm, Mode.held] at hmode
      · exact .frame f hf hheld
  · have hshare (href : Ref.chain c ∈ s.shares) : 0 < weights (.chain c) s.shares :=
      (weights_pos_iff _ _).2 ⟨_, href, hself⟩
    rintro (⟨i, hi⟩ | ⟨q, load, hq, hbody⟩ | ⟨d, e, hd, rfl⟩ | ⟨f, hf, hheld⟩)
    · have := hshare ((s.mem_shares_iff _).2 (.inl ⟨i, hi⟩))
      omega
    · have : 0 < s.heap.payloads.total fun load => weights (.chain c) load.body.keeps := by
        refine (Pool.total_pos_iff _ _).2 ⟨q, load, hq, ?_⟩
        rw [hbody]
        exact (weights_pos_iff _ _).2 ⟨_, List.mem_singleton_self _, hself⟩
      omega
    · have : 0 < s.heap.dispatches.total fun d => Ref.weight (.chain e.chain) (.chain d.chain) :=
        (Pool.total_pos_iff _ _).2 ⟨d, e, hd, hself⟩
      omega
    · have := hshare ((s.mem_shares_iff _).2 (.inr (.inr ⟨f, hf, hheld⟩)))
      omega

/-! ## Ends -/

/-- The destructor of a payload, if it is a callable that has one. -/
def destructor (s : State H) (p : PayloadId) : Option H.Code :=
  match s.heap.payloads.get? p with
  | some ⟨.native n _, _⟩ => H.onDrop n
  | _ => none

/-- The payloads that end in the first `n` steps, in order. -/
def drops (s : State H) (n : Nat) : List PayloadId :=
  (List.range n).filterMap fun k => (s.after k).dropping

theorem drops_succ (s : State H) (n : Nat) :
    s.drops (n + 1) = s.drops n ++ (s.after n).dropping.toList := by
  rw [drops, List.range_succ, List.filterMap_append, drops]
  cases h : (s.after n).dropping <;> simp [h]

/-- A payload ends when the last share in it is let go of. -/
theorem dropping_cases {s : State H} {p : PayloadId} (h : s.dropping = some p) :
    s.heap.payloads.count p = 1 ∧ ∃ r rest answer answer' below, s.mode = .reply r ∧
      s.frames = .releasing (.function (some p) :: rest) answer :: below ∧
      answer.joined r = some answer' := by
  unfold dropping at h
  split at h
  · rename_i r ref rest answer below hmode hframes
    obtain ⟨answer', hjoined, h⟩ := Option.bind_eq_some_iff.1 h
    unfold Heap.dropped at h
    split at h
    · split at h
      · rename_i hcount
        obtain rfl := Option.some.inj h
        exact ⟨hcount, r, rest, answer, answer', below, hmode, hframes, hjoined⟩
      · exact absurd h (by simp)
    · exact absurd h (by simp)
  · exact absurd h (by simp)

/-- What is to be dropped is there. -/
theorem alive_of_dropping {s : State H} {p : PayloadId} (h : s.dropping = some p) :
    s.Alive p = true := by
  rw [Alive, ← Pool.count_pos_iff, (dropping_cases h).1]
  exact Nat.one_pos

/-- The number of a stored payload has been given out. -/
theorem Alive.lt {s : State H} {p : PayloadId} (h : s.Alive p = true) :
    p < s.heap.payloads.nextId :=
  s.heap.payloads.stored_lt (by
    rw [Table.contains, Pool.get?_stored]
    exact h)

/-- One step: a payload stays what it is, or it ends. -/
theorem Passes.alive_step {s : State H} (h : s.Passes) {p : PayloadId}
    (hp : p < s.heap.payloads.nextId) :
    s.step.Alive p = if s.dropping = some p then false else s.Alive p := by
  rw [Alive, h.payloads p hp]
  split <;> rfl

/-- A step ends a payload exactly if the payload was there before it and is not afterwards. -/
theorem Passes.dropping_iff {s : State H} (h : s.Passes) (p : PayloadId) :
    s.dropping = some p ↔ s.Alive p = true ∧ s.step.Alive p = false := by
  constructor
  · intro hp
    have halive := alive_of_dropping hp
    exact ⟨halive, by rw [h.alive_step (Alive.lt halive), if_pos hp]⟩
  · rintro ⟨halive, hgone⟩
    by_contra hp
    rw [h.alive_step (Alive.lt halive), if_neg hp, halive] at hgone
    exact absurd hgone (by simp)

/-- Letting go of a share starts a destructor, if there is one to start, and puts what has become
    due before everything that was due already. -/
theorem frames_releaseNext (s : State H) (ref : Ref) (rest : List Ref)
    (answer : Reply H.toVocabulary) :
    (s.releaseNext (ref :: rest) answer).frames =
      ((s.heap.release ref).1.dropped.bind H.onDrop).toList.map (Frame.user · []) ++
        .releasing ((s.heap.release ref).1.refs ++ rest) answer :: s.frames := by
  unfold releaseNext
  dsimp only
  split <;> (rename_i hcode; rw [hcode]; rfl)

/-- Whether a destructor starts or not, the share is gone. -/
theorem heap_releaseNext (s : State H) (ref : Ref) (rest : List Ref) (answer : Reply H.toVocabulary) :
    (s.releaseNext (ref :: rest) answer).heap = (s.heap.release ref).2 := by
  unfold releaseNext
  dsimp only
  split <;> rfl

/-- The step that ends a payload touches neither chains nor dispatches. -/
theorem scene_of_dropping {s : State H} {p : PayloadId} (hp : s.dropping = some p) :
    s.step.heap.scene = s.heap.scene := by
  obtain ⟨-, r, rest, answer, answer', below, hmode, hframes, hjoined⟩ := dropping_cases hp
  rw [step_releasing hmode hframes hjoined, heap_releaseNext]
  unfold Heap.release
  dsimp only
  split <;> rfl

/-- When a payload ends, its destructor is the next thing that runs; what the payload owned is let
    go of after that, and only then whatever was to be let go of besides. -/
theorem step_of_dropping {s : State H} {p : PayloadId} (h : s.dropping = some p) :
    ∃ load rest answer answer' below, s.heap.payloads.get? p = some load ∧
      s.frames = .releasing (.function (some p) :: rest) answer :: below ∧ answer.MayEndAs answer' ∧
      s.step.frames = (s.destructor p).toList.map (Frame.user · []) ++
        .releasing (load.body.keeps ++ rest) answer' :: below := by
  obtain ⟨hcount, r, rest, answer, answer', below, hmode, hframes, hjoined⟩ := dropping_cases h
  have hstep := step_releasing hmode hframes hjoined
  obtain ⟨heap, memory, journal, frames, mode⟩ := s
  dsimp only at hcount hmode hframes
  subst hmode hframes
  rcases heap.payloads.release_cases p with ⟨load, hload, -, hgone, -⟩ | ⟨-, -, hspared⟩
  · refine ⟨load, rest, answer, answer', below, hload, rfl, Reply.mayEndAs_of_joined hjoined, ?_⟩
    have hpair : heap.payloads.release p = (some load, (heap.payloads.release p).2) :=
      Prod.ext hgone rfl
    rw [hstep, frames_releaseNext]
    unfold Heap.release destructor
    dsimp only
    rw [hpair, hload]
    obtain ⟨body, rule⟩ := load
    cases body <;> rfl
  · exact absurd hcount hspared

/-- A share whose owner was not the last starts nothing. -/
theorem dropped_eq_none_of_release (h : Heap H.toVocabulary) {ref : Ref} (hd : h.dropped ref = none) :
    (h.release ref).1.dropped = none := by
  cases ref with
  | function f =>
    cases f with
    | none => rfl
    | some p =>
      rcases h.payloads.release_cases p with ⟨load, -, hlast, -⟩ | ⟨hspared, -⟩
      · exact absurd hd (by simp [Heap.dropped, hlast])
      · unfold Heap.release
        dsimp only
        split
        · rfl
        · rename_i hlast
          rw [hlast] at hspared
          exact absurd hspared (by simp)
  | chain c =>
    unfold Heap.release
    dsimp only
    split <;> rfl
  | dispatch d =>
    unfold Heap.release
    dsimp only
    split
    · rfl
    · unfold Heap.closeDispatch
      split <;> rfl
  | event e => rfl
  | handle i =>
    unfold Heap.release
    dsimp only
    split <;> rfl

/-- A step that lets go of a share and ends nothing starts nothing. -/
theorem step_of_spared {s : State H} {r answer : Reply H.toVocabulary} {ref : Ref}
    {rest : List Ref} {below : List (Frame H)} (hmode : s.mode = .reply r)
    (hframes : s.frames = .releasing (ref :: rest) answer :: below) (h : s.dropping = none) :
    ∃ todo answer', answer.MayEndAs answer' ∧ s.step.frames = .releasing todo answer' :: below := by
  cases hjoined : answer.joined r with
  | some answer' =>
    have hdropped : s.heap.dropped ref = none := by
      unfold dropping at h
      rw [hmode, hframes] at h
      dsimp only at h
      rwa [hjoined, Option.bind_some] at h
    refine ⟨(s.heap.release ref).1.refs ++ rest, answer', Reply.mayEndAs_of_joined hjoined, ?_⟩
    rw [step_releasing hmode hframes hjoined, frames_releaseNext,
      dropped_eq_none_of_release _ hdropped]
    rfl
  | none =>
    refine ⟨ref :: rest, answer, .refl answer, ?_⟩
    rw [step_aborted hmode hframes hjoined, hframes]

end State

/-! ## Runs -/

namespace Reachable

variable {s : State H}

theorem alive_iff (hs : Reachable s) (p : PayloadId) : s.Alive p = true ↔ s.Holds p :=
  hs.balanced.alive_iff hs.orderly_backed.1 p

/-- Numbers of payloads are never taken back. -/
theorem nextPayload_le (hs : Reachable s) (n : Nat) :
    s.heap.payloads.nextId ≤ (s.after n).heap.payloads.nextId := by
  induction n with
  | zero => exact Nat.le_refl _
  | succ n ih => exact Nat.le_trans ih (hs.after n).passes.grown

/-- A payload that is there was the same before, if its number had been given out. -/
theorem payload_before (hs : Reachable s) {p : PayloadId} (hp : p < s.heap.payloads.nextId) {n : Nat}
    {load : Payload H.toVocabulary} (hload : (s.after n).heap.payloads.get? p = some load) :
    s.heap.payloads.get? p = some load := by
  induction n with
  | zero => exact hload
  | succ n ih =>
    have hlt : p < (s.after n).heap.payloads.nextId := Nat.lt_of_lt_of_le hp (hs.nextPayload_le n)
    rw [State.after_succ, (hs.after n).passes.payloads p hlt] at hload
    split at hload
    · exact absurd hload (by simp)
    · exact ih hload

/-- Along a run a payload ends once at most, and exactly if it was there and is gone. -/
theorem count_drops (hs : Reachable s) {p : PayloadId} (hp : p < s.heap.payloads.nextId) (n : Nat) :
    (s.drops n).count p + ((s.after n).Alive p).toNat = (s.Alive p).toNat := by
  induction n with
  | zero => exact Nat.zero_add _
  | succ n ih =>
    have hpasses := (hs.after n).passes
    have hlt : p < (s.after n).heap.payloads.nextId :=
      Nat.lt_of_lt_of_le hp (hs.nextPayload_le n)
    rw [State.drops_succ, List.count_append, State.after_succ, hpasses.alive_step hlt]
    by_cases hd : (s.after n).dropping = some p
    · have halive := State.alive_of_dropping hd
      rw [halive] at ih
      simpa [hd] using ih
    · have hnone : (s.after n).dropping.toList.count p = 0 := by
        cases hq : (s.after n).dropping with
        | none => rfl
        | some q =>
          have hne : q ≠ p := fun he => hd (he ▸ hq)
          simp [hne]
      rw [hnone, if_neg hd]
      exact ih

/-- What a dispatch runs is there until the call of it has been answered. -/
theorem alive_while_running (hs : Reachable s) {e : Entry} {p : PayloadId} {event : Option Event}
    {arg : H.Arg} (hrun : s.mode = .invoke (some e) (some p) event arg) {n : Nat}
    (habove : s.frames <:+ (s.after n).frames) : (s.after n).Alive p = true := by
  have hunder := hs.orderly_backed.2 e (some p) event arg hrun
  have hheld : .await [.function (some p)] ∈ s.frames := List.mem_of_mem_head? hunder
  exact ((hs.after n).alive_iff p).2 (.call _ (habove.subset hheld) (List.mem_singleton_self _))

end Reachable

/-- What is so of all payloads in a state, and of all steps and runs that go on from it. -/
structure State.Lifetimes (s : State H) : Prop where
  /-- A payload is there exactly as long as something holds it. -/
  held : ∀ p, s.Alive p = true ↔ s.Holds p
  /-- So is a chain, which holds all payloads in its slots. -/
  chains : ∀ c, (∃ chain, s.heap.chains.get? c = some chain) ↔ s.HoldsChain c
  /-- The step that ends a payload is the one that takes its last holder away. -/
  ends : ∀ p, s.dropping = some p ↔ s.Holds p ∧ ¬s.step.Holds p
  /-- That step starts the destructor, before anything else is let go of. -/
  destroyed : ∀ p, s.dropping = some p → ∃ load rest answer answer' below,
    s.heap.payloads.get? p = some load ∧
      s.frames = .releasing (.function (some p) :: rest) answer :: below ∧ answer.MayEndAs answer' ∧
      s.step.frames = (s.destructor p).toList.map (Frame.user · []) ++
        .releasing (load.body.keeps ++ rest) answer' :: below
  /-- A share that was not the last starts none. -/
  spared : ∀ r ref rest answer below, s.mode = .reply r →
    s.frames = .releasing (ref :: rest) answer :: below → s.dropping = none →
      ∃ todo answer', answer.MayEndAs answer' ∧ s.step.frames = .releasing todo answer' :: below
  /-- A payload ends once: never while it is there, and never again when it has gone. -/
  once : ∀ p n, s.Alive p = true →
    (s.drops n).count p = if (s.after n).Alive p = true then 0 else 1
  /-- What has gone does not come back. -/
  gone : ∀ p n, p < s.heap.payloads.nextId → s.Alive p = false →
    (s.after n).Alive p = false ∧ (s.drops n).count p = 0
  /-- What a call or a `next` has started is there until it has been answered, whatever runs in
      the meantime. -/
  running : ∀ e p event arg n, s.mode = .invoke (some e) (some p) event arg →
    s.frames <:+ (s.after n).frames → (s.after n).Alive p = true

end Relay
