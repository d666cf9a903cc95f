/-
  Removal BY VALUE: the wrong listener never goes.

  Who looks for a simple listener, or for a pointer, has no listener in hand.  The request wraps what it
  names in a new one and searches for something equal to that, so the type of a listener, its rule and
  what is inside must all agree before a slot goes.  `Heap.Matches` says in one what that comes to: a
  listener around an equal function, and only around a function; or a pointer of the same type that was
  stored by value.  And a listener around a function is in a slot ONLY because `addSimple` has put it
  there (`Reachable.brings_in`): through no other request does a program get hold of one.

  Of the code that compares it is assumed that it has no effect (`Host.Candid`).  This is assumed of the
  comparisons that can come about (`Heap.Consults`), and of no other code.
-/
import Relay.Proofs.Candor
import Relay.Proofs.Unfailing

namespace Relay

variable {T : Vocabulary} {H : Host}

/-! ## What is looked for -/

/-- The request is to remove from chain `c` a listener equal to what it names, which is to be wrapped up
    like this first. -/
inductive Request.LooksFor (h : Heap T) : Request T → ChainId → Payload T → Prop
  | simple {chain function : HandleId} {c : ChainId} {inner : Fn} (hc : h.chainOf chain = some c)
      (hf : h.functionOf function = some inner) :
      LooksFor h (.removeSimple chain function) c ⟨.simple inner, .byValue⟩
  | pointer {chain : HandleId} {c : ChainId} {native : T.Native} (hc : h.chainOf chain = some c) :
      LooksFor h (.removeNative chain native) c ⟨.native native [], .byValue⟩

namespace Request.LooksFor

variable {h : Heap T} {rq : Request T} {c : ChainId} {sought : Payload T}

theorem search? (hl : rq.LooksFor h c sought) : rq.search? h = some (c, some h.payloads.nextId) := by
  cases hl with
  | simple hc hf =>
    unfold Request.search?
    dsimp only
    rw [hc, hf]
  | pointer hc =>
    unfold Request.search?
    dsimp only
    rw [hc]
    rfl

theorem stores? (hl : rq.LooksFor h c sought) : rq.stores? h = some sought := by
  cases hl with
  | simple hc hf =>
    unfold Request.stores?
    dsimp only
    rw [hc, hf]
  | pointer hc =>
    unfold Request.stores?
    dsimp only
    rw [hc]
    rfl

theorem byValue (hl : rq.LooksFor h c sought) : sought.rule = .byValue := by
  cases hl <;> rfl

end Request.LooksFor

namespace Heap

/-- The listener is one of the kind that is sought, and equal by `holds`, which is what the rules for
    the program's own callables relate. -/
inductive Matches (h : Heap T) (holds : Rule T.Custom → T.Native → T.Native → Prop) :
    Payload T → Fn → Prop
  /-- A listener around a function that is equal to the one that is named. -/
  | simple {p : PayloadId} {a inner : Fn}
      (hload : h.payloads.get? p = some ⟨.simple a, .byValue⟩) (hequal : h.Equal holds a inner) :
      Matches h holds ⟨.simple inner, .byValue⟩ (some p)
  /-- A pointer of the SAME type, stored by value.  One that was stored by identity does not match. -/
  | pointer {p : PayloadId} {n native : T.Native} {ks ks' : List HandleId}
      (hload : h.payloads.get? p = some ⟨.native n ks, .byValue⟩) (htag : T.tag n = T.tag native)
      (hholds : holds .byValue n native) : Matches h holds ⟨.native native ks', .byValue⟩ (some p)

/-- To compare the listener with what is sought, the rule's code is asked about these two callables. -/
inductive Consults (h : Heap T) : Payload T → Fn → Rule T.Custom → T.Native → T.Native → Prop
  | simple {p : PayloadId} {a inner : Fn} {ps : List (PayloadId × PayloadId)} {rule : Rule T.Custom}
      {m n : T.Native} (hload : h.payloads.get? p = some ⟨.simple a, .byValue⟩)
      (hdecides : h.Decides a inner ps (.asks rule m n)) :
      Consults h ⟨.simple inner, .byValue⟩ (some p) rule m n
  | pointer {p : PayloadId} {n native : T.Native} {ks ks' : List HandleId}
      (hload : h.payloads.get? p = some ⟨.native n ks, .byValue⟩) (htag : T.tag n = T.tag native) :
      Consults h ⟨.native native ks', .byValue⟩ (some p) .byValue n native

/-! ## The course of a comparison with it -/

/-- A comparison goes down only, so what has been stored above is nothing to it. -/
theorem Decides.before {h k : Heap T} {bound : PayloadId} {f g : Fn}
    {ps : List (PayloadId × PayloadId)} {d : Decision T} (hd : k.Decides f g ps d)
    (hsame : ∀ p, p < bound → k.payloads.get? p = h.payloads.get? p)
    (hmade : ∀ p load, k.payloads.get? p = some load → load.Made p)
    (hf : ∀ p, f = some p → p < bound) (hg : ∀ p, g = some p → p < bound) :
    h.Decides f g ps d := by
  have hstored {f : Fn} (hf : ∀ p, f = some p → p < bound) : k.rack.stored f = h.rack.stored f := by
    cases f with
    | none => rfl
    | some p =>
      show (k.payloads.get? p).map _ = (h.payloads.get? p).map _
      rw [hsame p (hf p rfl)]
      rfl
  have halike {p q : PayloadId} {l r : Payload T} (hp : p < bound) (hq : q < bound) :
      k.rack.Alike p q l r ↔ h.rack.Alike p q l r := by
    constructor
    · intro ha
      exact ⟨(hsame p hp).symm.trans ha.left, (hsame q hq).symm.trans ha.right, ha.apart, ha.type,
        ha.rule⟩
    · intro ha
      exact ⟨(hsame p hp).trans ha.left, (hsame q hq).trans ha.right, ha.apart, ha.type, ha.rule⟩
  have hone {f g : Fn} (hf : ∀ p, f = some p → p < bound) (hg : ∀ p, g = some p → p < bound) :
      k.rack.One f g ↔ h.rack.One f g := by
    unfold Rack.One
    rw [hstored hf, hstored hg]
  induction hd with
  | one h' => exact .one ((hone hf hg).1 h')
  | other hother hunlike =>
    refine .other (fun h' => hother ((hone hf hg).2 h')) ?_
    rintro ⟨p, q, l, r, rfl, rfl, ha⟩
    exact hunlike ⟨p, q, l, r, rfl, rfl, (halike (hf p rfl) (hg q rfl)).2 ha⟩
  | never ha hrule => exact .never ((halike (hf _ rfl) (hg _ rfl)).1 ha) hrule
  | rule ha hrule hl hr => exact .rule ((halike (hf _ rfl) (hg _ rfl)).1 ha) hrule hl hr
  | @inside p q l r a b ps d ha hrule hl hr _ ih =>
    have hleft := hmade p l ha.left
    have hright := hmade q r ha.right
    unfold Payload.Made at hleft hright
    rw [hl] at hleft
    rw [hr] at hright
    have hp := hf p rfl
    have hq := hg q rfl
    exact .inside ((halike hp hq).1 ha) hrule hl hr
      (ih (fun x hx => Nat.lt_trans (hleft.2 x hx) hp) fun x hx => Nat.lt_trans (hright.2 x hx) hq)

/-- Whoever is asked about two callables is asked about two that are stored. -/
theorem Decides.stored_of_asks {h : Heap T} {f g : Fn} {ps : List (PayloadId × PayloadId)}
    {rule : Rule T.Custom} {m n : T.Native} (hd : h.Decides f g ps (.asks rule m n)) :
    ∃ p load ks, h.payloads.get? p = some load ∧ load.body = .native m ks := by
  generalize hdecision : Decision.asks rule m n = d at hd
  induction hd with
  | inside _ _ _ _ _ ih => exact ih hdecision
  | rule halike _ hl =>
    obtain ⟨-, rfl, -⟩ := Decision.asks.inj hdecision
    exact ⟨_, _, _, halike.left, hl⟩
  | _ => exact absurd hdecision (by simp)

theorem Consults.stored {h : Heap T} {sought : Payload T} {f : Fn} {rule : Rule T.Custom}
    {m n : T.Native} (hc : h.Consults sought f rule m n) :
    ∃ p load ks, h.payloads.get? p = some load ∧ load.body = .native m ks := by
  cases hc with
  | simple _ hdecides => exact hdecides.stored_of_asks
  | pointer hload => exact ⟨_, _, _, hload, rfl⟩

/-! ### What matches -/

theorem Matches.alike {h : Heap T} {holds : Rule T.Custom → T.Native → T.Native → Prop}
    {sought load : Payload T} {p : PayloadId} (hm : h.Matches holds sought (some p))
    (hload : h.payloads.get? p = some load) :
    load.body.kind = sought.body.kind ∧ load.rule = sought.rule := by
  cases hm with
  | simple hload' =>
    obtain rfl := Option.some.inj (hload.symm.trans hload')
    exact ⟨rfl, rfl⟩
  | pointer hload' htag =>
    obtain rfl := Option.some.inj (hload.symm.trans hload')
    exact ⟨congrArg Kind.own htag, rfl⟩

/-- Of two listeners around functions. -/
theorem matches_simple {h : Heap T} {holds : Rule T.Custom → T.Native → T.Native → Prop}
    {p : PayloadId} {a inner : Fn} (hload : h.payloads.get? p = some ⟨.simple a, .byValue⟩) :
    h.Matches holds ⟨.simple inner, .byValue⟩ (some p) ↔ h.Equal holds a inner := by
  constructor
  · intro hm
    cases hm with
    | simple hload' hequal =>
      obtain rfl := Body.simple.inj (congrArg Payload.body (Option.some.inj (hload.symm.trans hload')))
      exact hequal
  · exact .simple hload

/-- Of two pointers of one type. -/
theorem matches_pointer {h : Heap T} {holds : Rule T.Custom → T.Native → T.Native → Prop}
    {p : PayloadId} {n native : T.Native} {ks ks' : List HandleId}
    (hload : h.payloads.get? p = some ⟨.native n ks, .byValue⟩) (htag : T.tag n = T.tag native) :
    h.Matches holds ⟨.native native ks', .byValue⟩ (some p) ↔ holds .byValue n native := by
  constructor
  · intro hm
    cases hm with
    | pointer hload' _ hholds =>
      obtain ⟨rfl, -⟩ :=
        Body.native.inj (congrArg Payload.body (Option.some.inj (hload.symm.trans hload')))
      exact hholds
  · exact .pointer hload htag

/-- Two pointers of one type are put before the rule's code. -/
theorem asks_pointers {h : Heap T} {holds : Rule T.Custom → T.Native → T.Native → Prop}
    {rq : Request T} {c : ChainId} {sought load : Payload T} (hlooks : rq.LooksFor h c sought)
    {p : PayloadId} (hload : h.payloads.get? p = some load) (hrule : load.rule = .byValue)
    {m n : T.Native} {ks ks' : List HandleId} (hl : load.body = .native m ks)
    (hr : sought.body = .native n ks') (htag : T.tag m = T.tag n) :
    ((Decision.asks load.rule m n).comesTo holds ↔ h.Matches holds sought (some p)) ∧
      ∀ rule m' n', Decision.asks load.rule m n = .asks rule m' n' →
        h.Consults sought (some p) rule m' n' := by
  obtain ⟨body, rule⟩ := load
  dsimp only at hl hrule
  subst hl hrule
  cases hlooks with
  | simple => exact absurd hr (by simp)
  | pointer =>
    obtain ⟨rfl, -⟩ := Body.native.inj hr
    refine ⟨(matches_pointer hload htag).symm, ?_⟩
    intro rule m' n' he
    obtain ⟨rfl, rfl, rfl⟩ := Decision.asks.inj he
    exact .pointer hload htag

end Heap

namespace Reachable

variable {s : State H} {rq : Request H.toVocabulary} {below : List (Frame H)} {c : ChainId}
  {sought : Payload H.toVocabulary} {holds : Rule H.Custom → H.Native → H.Native → Prop}

/-- A step that asks for something ends no payload. -/
theorem payload_step (hs : Reachable s) (hasks : s.Asks rq below) {p : PayloadId}
    (hp : p < s.heap.payloads.nextId) :
    s.step.heap.payloads.get? p = s.heap.payloads.get? p := by
  obtain ⟨r, code, owned, rest, code', hmode, hframes, -, -⟩ := hasks
  have hdropping : s.dropping = none := by
    unfold State.dropping
    rw [hmode, hframes]
  rw [hs.passes.payloads p hp, hdropping]
  rfl

/-- Of two listeners around functions these are compared, and they have been there before the probe. -/
theorem decides_inside (hs : Reachable s) (hasks : s.Asks rq below)
    (hlooks : rq.LooksFor s.heap c sought) {p : PayloadId} {load : Payload H.toVocabulary}
    (hload : s.heap.payloads.get? p = some load) (hrule : load.rule = .byValue) {a b : Fn}
    (hl : load.body = .simple a) (hr : sought.body = .simple b) {ps : List (PayloadId × PayloadId)}
    {d : Decision H.toVocabulary} (hd : s.step.heap.Decides a b ps d) :
    (d.comesTo holds ↔ s.heap.Matches holds sought (some p)) ∧
      ∀ rule m n, d = .asks rule m n → s.heap.Consults sought (some p) rule m n := by
  obtain ⟨body, rule⟩ := load
  dsimp only at hl hrule
  subst hl hrule
  cases hlooks with
  | pointer => exact absurd hr (by simp)
  | @simple _ _ _ inner _ hf =>
    obtain rfl := Body.simple.inj hr
    have hdown : s.heap.Decides a inner ps d := by
      refine hd.before (fun x hx => hs.payload_step hasks hx) (fun x load hx => hs.step.made hx)
        (fun x hx => ?_) fun x hx => ?_
      · subst hx
        obtain ⟨load', hload'⟩ := hs.stored_inner hload rfl
        exact s.heap.payloads.lt_of_get? hload'
      · obtain ⟨load', hload'⟩ := hs.stores_functionOf hf x hx
        exact s.heap.payloads.lt_of_get? hload'
    refine ⟨hdown.equal_iff.symm.trans (Heap.matches_simple hload).symm, ?_⟩
    rintro rule m n rfl
    exact .simple hload hdown

/-- A listener that is linked is compared with what is sought, type and rule first.  Only if these agree
    it depends on what is inside, or on the pointers. -/
theorem decides_sought (hs : Reachable s) (hasks : s.Asks rq below)
    (hlooks : rq.LooksFor s.heap c sought) {l : Fn} (hwhole : s.heap.Whole l) :
    ∃ ps d, s.step.heap.Decides l (some s.heap.payloads.nextId) ps d ∧
      (d.comesTo holds ↔ s.heap.Matches holds sought l) ∧
      ∀ rule m n, d = .asks rule m n → s.heap.Consults sought l rule m n := by
  obtain ⟨p, load, rfl, hload, hbody⟩ := hwhole
  have hp := s.heap.payloads.lt_of_get? hload
  have hkept : s.step.heap.payloads.get? p = some load := (hs.payload_step hasks hp).trans hload
  have hprobe : s.step.heap.payloads.get? s.heap.payloads.nextId = some sought := by
    obtain ⟨t, hheap, -, hstep⟩ := hasks.exists_step
    have hstored := t.ask_stores (hheap ▸ hlooks.stores?)
    rwa [← hstep, hheap] at hstored
  obtain ⟨ps, d, hd⟩ := hs.step.exists_decides (some p) (some s.heap.payloads.nextId)
  refine ⟨ps, d, hd, ?_⟩
  -- where the pair is alike, the listener is by value as the probe is
  have hsides {l r : Payload H.toVocabulary}
      (halike : s.step.heap.rack.Alike p s.heap.payloads.nextId l r) :
      l = load ∧ r = sought ∧ load.rule = .byValue := by
    obtain rfl := Option.some.inj (hkept.symm.trans halike.left)
    obtain rfl := Option.some.inj (hprobe.symm.trans halike.right)
    exact ⟨rfl, rfl, halike.rule.trans hlooks.byValue⟩
  cases hd with
  | one hone =>
    rcases hone with heq | ⟨hnone, -⟩
    · exact absurd (Option.some.inj heq) (Nat.ne_of_lt hp)
    · rw [Rack.stored_some (show s.step.heap.rack.look p = some load from hkept)] at hnone
      exact absurd hnone (by simp)
  | other _ hunlike =>
    refine ⟨iff_of_false Bool.false_ne_true fun hmatch => hunlike ?_, by simp⟩
    obtain ⟨hkind, hrule⟩ := hmatch.alike hload
    exact ⟨p, s.heap.payloads.nextId, load, sought, rfl, rfl, hkept, hprobe, Nat.ne_of_lt hp, hkind,
      hrule⟩
  | never halike hnever =>
    obtain ⟨rfl, -, hrule⟩ := hsides halike
    exact absurd (hrule.symm.trans hnever) (by simp)
  | inside halike _ hl hr hinside =>
    obtain ⟨rfl, rfl, hrule⟩ := hsides halike
    exact hs.decides_inside hasks hlooks hload hrule hl hr hinside
  | rule halike _ hl hr =>
    obtain ⟨rfl, rfl, hrule⟩ := hsides halike
    exact Heap.asks_pointers hlooks hload hrule hl hr (Heap.alike_native halike hl hr)

end Reachable

/-! ## Where the listeners of a chain come from -/

/-- In one of the first `n` steps the program has asked for entry `e` of chain `c`.  It is a listener
    around a function if that was done by `addSimple`, and then around the function that was named; else
    it is none. -/
inductive State.BringsIn (s : State H) (n : Nat) (c : ChainId) (e : SlotId × Fn) : Prop
  | simple {k : Nat} {below : List (Frame H)} {chain function : HandleId} {placement : Placement}
      {inner : Fn} {p : PayloadId} (hk : k < n)
      (hasks : (s.after k).Asks (.addSimple chain function placement) below)
      (hf : (s.after k).heap.functionOf function = some inner)
      (hedit : (s.after k).edit = .added c e.1 placement e.2) (hlistener : e.2 = some p)
      (hload : (s.after n).heap.payloads.get? p = some ⟨.simple inner, .byValue⟩) : BringsIn s n c e
  | plain {k : Nat} {below : List (Frame H)} {chain function : HandleId} {placement : Placement}
      (hk : k < n) (hasks : (s.after k).Asks (.add chain function placement) below)
      (hf : (s.after k).heap.functionOf function = some e.2)
      (hedit : (s.after k).edit = .added c e.1 placement e.2)
      (hload : ∀ p load inner, e.2 = some p → (s.after n).heap.payloads.get? p = some load →
        load.body ≠ .simple inner) : BringsIn s n c e

namespace Reachable

variable {s : State H} {c : ChainId} {e : SlotId × Fn} {n : Nat}

/-- What is linked in a chain is whole. -/
theorem whole_of_mem_listing (hs : Reachable s) (he : e ∈ s.heap.listing c) : s.heap.Whole e.2 := by
  cases hc : s.heap.chains.get? c with
  | none =>
    rw [Heap.listing, hc] at he
    exact absurd he List.not_mem_nil
  | some chain =>
    rw [Heap.listing_of_get? hc] at he
    exact hs.whole_listener hc (Chain.listener?_of_mem_listing he).2

/-- What is in a list has been in it, or an edit has added it. -/
theorem edited_in (hs : Reachable s) (he : e ∈ (s.after n).heap.listing c) :
    e ∈ s.heap.listing c ∨ ∃ k, k < n ∧ ∃ placement, (s.after k).edit = .added c e.1 placement e.2 := by
  induction n with
  | zero => exact .inl he
  | succ n ih =>
    have hc : (s.after (n + 1)).heap.chains.get? c ≠ none := by
      intro hnone
      rw [Heap.listing, hnone] at he
      exact absurd he List.not_mem_nil
    rw [State.after_succ, (hs.after n).passes.lists c hc] at he
    rcases Edit.mem_on he with hold | ⟨placement, hedit⟩
    · rcases ih hold with hfirst | ⟨k, hk, hadded⟩
      · exact .inl hfirst
      · exact .inr ⟨k, Nat.lt_succ_of_lt hk, hadded⟩
    · exact .inr ⟨n, Nat.lt_succ_self n, placement, hedit⟩

/-- A listener that was not in a chain before has been added, as what it is. -/
theorem brings_in (hs : Reachable s) (he : e ∈ (s.after n).heap.listing c) :
    e ∈ s.heap.listing c ∨ s.BringsIn n c e := by
  rcases hs.edited_in he with hold | ⟨k, hk, placement, hedit⟩
  · exact .inl hold
  right
  -- a payload that is there in the end was the same when the listener was added
  have hbefore {i p : Nat} {load : Payload H.toVocabulary} (hi : i ≤ n)
      (hp : p < (s.after i).heap.payloads.nextId)
      (hload : (s.after n).heap.payloads.get? p = some load) :
      (s.after i).heap.payloads.get? p = some load := by
    obtain ⟨j, rfl⟩ := Nat.exists_eq_add_of_le hi
    rw [State.after_add] at hload
    exact (hs.after i).payload_before hp hload
  obtain ⟨rq, below, hasks, hrq⟩ : ∃ rq below, (s.after k).Asks rq below ∧
      (s.after k).edit = rq.edit (s.after k).heap := by
    rcases (s.after k).edit_cases with hnone | hasked | ⟨found, rest, -, -, hfound⟩
    · exact absurd (hnone.symm.trans hedit) (by simp)
    · exact hasked
    · exact absurd (hfound.symm.trans hedit) (by simp)
  obtain ⟨chain, function, p, hf, ⟨rfl, hl⟩ | ⟨rfl, hl, hstores⟩⟩ :=
    Request.edit_added (hrq.symm.trans hedit)
  · refine .plain hk hasks (hl ▸ hf) hedit fun q load inner hq hload => ?_
    obtain rfl := Option.some.inj (hl.symm.trans hq)
    obtain ⟨hp, hunwrapped⟩ := (hs.after k).secluded.heap.functionOf hf p rfl
    exact hunwrapped load inner (hbefore (Nat.le_of_lt hk) hp hload)
  · obtain ⟨t, hheap, -, hstep⟩ := hasks.exists_step
    have hstored := t.ask_stores (hheap ▸ hstores)
    rw [← hstep, hheap] at hstored
    have hp := (s.after (k + 1)).heap.payloads.lt_of_get? hstored
    obtain ⟨q, load, hq, hload, -⟩ := (hs.after n).whole_of_mem_listing he
    obtain rfl := Option.some.inj (hl.symm.trans hq)
    have hsame := hbefore (Nat.succ_le_of_lt hk) hp hload
    obtain rfl := Option.some.inj (hstored.symm.trans hsame)
    exact .simple hk hasks hf hedit hl hload

end Reachable

/-! ## What comes of a removal by value -/

namespace State

/-- In `t` chains and dispatches are what they were in `s`, and no payload of then has gone. -/
structure Keeps (s t : State H) : Prop where
  scene : t.heap.scene = s.heap.scene
  payloads : ∀ p, p < s.heap.payloads.nextId → t.heap.payloads.get? p = s.heap.payloads.get? p

/-- The coming step takes EXACTLY slot `x` out of chain `c`. -/
structure TakesOnly (s : State H) (c : ChainId) (x : SlotId) : Prop where
  change : Change (.detached c x) s.heap.scene s.step.heap.scene
  chains : ∀ c', c' ≠ c → s.step.heap.chains.get? c' = s.heap.chains.get? c'
  /-- To a dispatch, wherever it stands, the same is left in the same order, without the slot. -/
  left : ∀ d y rest, s.heap.scene.Left d c y rest → s.step.heap.scene.Left d c y (rest.erase x)
  /-- Nothing is dropped yet, not even the listener of the slot. -/
  payloads : ∀ p, p < s.heap.payloads.nextId →
    s.step.heap.payloads.get? p = s.heap.payloads.get? p

/-- What comes of a request to remove from chain `c` what matches `sought`. -/
inductive RemovesLast (s : State H) (c : ChainId) (sought : Payload H.toVocabulary)
    (holds : Rule H.Custom → H.Native → H.Native → Prop) (below : List (Frame H)) : Prop
  /-- The LAST listener that matches goes, and the answer is yes. -/
  | taken {front back : List (SlotId × Fn)} {e : SlotId × Fn} (m : Nat)
      (hlist : s.heap.listing c = front ++ e :: back) (he : s.heap.Matches holds sought e.2)
      (hback : ∀ e' ∈ back, ¬s.heap.Matches holds sought e'.2)
      (hkeeps : ∀ j, j ≤ m → s.Keeps (s.after j)) (htakes : (s.after m).TakesOnly c e.1)
      (hrest : (s.after (m + 1)).heap.listing c = front ++ back)
      (hanswer : Promised (.flag true) below (s.after (m + 1))) : RemovesLast s c sought holds below
  /-- No listener matches, nothing is removed, and the answer is no. -/
  | unmatched (m : Nat) (hnone : ∀ e ∈ s.heap.listing c, ¬s.heap.Matches holds sought e.2)
      (hkeeps : ∀ j, j ≤ m → s.Keeps (s.after j))
      (hanswer : Promised (.flag false) below (s.after m)) : RemovesLast s c sought holds below

variable {s : State H} {rq : Request H.toVocabulary} {below : List (Frame H)} {c : ChainId}
  {sought : Payload H.toVocabulary} {holds : Rule H.Custom → H.Native → H.Native → Prop}

/-- What is taken out by a search that has found it. -/
theorem takesOnly_of_change (hs : Reachable s) {x : SlotId} {found : Search} {rest : List (Frame H)}
    (hframes : s.frames = .searching found :: rest)
    (hchange : Change (.detached c x) s.heap.scene s.step.heap.scene) : s.TakesOnly c x where
  change := hchange
  chains := by
    intro c' hc'
    rw [← Heap.get?_scene_chains, ← Heap.get?_scene_chains]
    generalize s.step.heap.scene = w at hchange
    cases hchange with
    | detached hc hx => exact (Scene.get?_setChain _ hc c').trans (if_neg (Ne.symm hc'))
  left := by
    rintro d y rest ⟨hd, chain, hc, rfl⟩
    have hcourse := hchange.course hs.coherent hs.accounted hd hc (by simp [Deed.next?]) (by simp)
      (by simp)
    rwa [Deed.surgery, if_pos rfl] at hcourse
  payloads := by
    intro p hp
    have hdropping : s.dropping = none := by
      unfold dropping
      rw [hframes]
      split
      · rename_i htop
        exact absurd (List.cons.inj htop).1 (by simp)
      · rfl
    rw [hs.passes.payloads p hp, hdropping]
    rfl

/-- A removal begins with a search of the list as it is, and nothing has happened by then. -/
theorem Seeks.exists_search {probe : Fn} (hs : Reachable s) (h : s.Seeks c probe below) :
    ∃ (held : List (List Ref)) (t : State H),
      t.frames = passers held ++ below ∧ t.heap.scene = s.heap.scene ∧
      s.step = t.search c probe (s.heap.listing c).reverse (s.heap.listing c).reverse := by
  obtain ⟨rq, hasks, hrq⟩ := h
  obtain ⟨t, hheap, rfl, hask⟩ := hasks.exists_step
  obtain ⟨held, u, hscene, hframes, hbegin⟩ := ask_startRemove (hheap ▸ hrq)
  rw [hheap] at hscene
  have hfirst := hask.trans (hbegin.trans (startRemove_search (hscene ▸ hs.coherent) c probe))
  rw [Heap.listing_scene hscene c] at hfirst
  let begun : State H := { u with
    heap := u.heap.retainAll ((s.heap.listing c).reverse.map fun e => .function e.2) }
  exact ⟨held, begun, hframes, (u.heap.scene_retainAll _).trans hscene, hfirst⟩

theorem search_heap (t : State H) (c : ChainId) (probe : Fn) (snapshot es : List (SlotId × Fn)) :
    (t.search c probe snapshot es).heap = t.heap := by
  cases es <;> rfl

/-- The search ends as it should, so the removal does. -/
theorem removesLast_of_ends (hs : Reachable s) {probe : Fn} {held : List (List Ref)}
    (hfirst : s.Keeps s.step)
    (hends : s.step.SearchEnds c probe (s.heap.listing c).reverse (passers held ++ below)
      (s.heap.Matches holds sought) (s.heap.listing c).reverse) :
    s.RemovesLast c sought holds below := by
  have hquiet {n : Nat} (h : ∀ j, j ≤ n → (s.step.after j).heap = s.step.heap) :
      ∀ j, j ≤ 1 + n → s.Keeps (s.after j) := by
    intro j hj
    rcases Nat.eq_zero_or_pos j with rfl | hpos
    · exact ⟨rfl, fun _ _ => rfl⟩
    · obtain ⟨i, rfl⟩ := Nat.exists_eq_add_of_le (Nat.succ_le_of_lt hpos)
      rw [after_one_add]
      have hsame := h i (by omega)
      exact ⟨by rw [hsame, hfirst.scene], fun p hp => by rw [hsame, hfirst.payloads p hp]⟩
  cases hends with
  | @found skipped rest e n hes hskipped he hheap hmode hframes =>
    have hlist : s.heap.listing c = rest.reverse ++ e :: skipped.reverse := by
      have hback := congrArg List.reverse hes
      simpa using hback
    rw [← after_one_add] at hmode hframes
    have hkeeps := hquiet hheap
    have hv := hs.after (1 + n)
    have hscene := (hkeeps (1 + n) (Nat.le_refl _)).scene
    have hlinked : (s.after (1 + n)).heap.scene.Linked c e.1 := by
      rw [hscene, ← Heap.mem_listing_iff hs.coherent, hlist]
      simp
    cases ends_of_heard hv hframes hmode (by simp [Reply.equal?]) with
    | spent hspent => exact absurd hlinked hspent
    | taken _ hchange hafter hanswer =>
      refine .taken (1 + n) hlist he ?_ hkeeps (takesOnly_of_change hv hframes hchange) ?_ hanswer
      · intro e' he'
        exact hskipped e' (List.mem_reverse.1 he')
      · have hnodup := hs.nodup_listing c
        rw [hlist] at hnodup
        rw [after_succ, hafter, Heap.listing_scene hscene, hlist]
        exact filter_middle hnodup
  | unmatched n hnone hheap hmode hframes =>
    rw [← after_one_add] at hmode hframes
    refine .unmatched (1 + n) ?_ (hquiet hheap) (promised_of_leaving hframes hmode)
    intro e he
    exact hnone e (List.mem_reverse.2 he)

/-- What is so where the coming step asks to remove by value what matches `sought`. -/
structure RemovesByValue (s : State H) (c : ChainId) (sought : Payload H.toVocabulary)
    (holds : Rule H.Custom → H.Native → H.Native → Prop) (below : List (Frame H)) : Prop where
  outcome : s.RemovesLast c sought holds below
  /-- A listener around NOTHING is equal to none. -/
  empty : sought.body = .simple none →
    ∀ e ∈ s.heap.listing c, ¬s.heap.Matches holds sought e.2
  /-- What listeners around functions there are have been added by `addSimple`, and no others have. -/
  origin : ∀ t n, Reachable t → t.after n = s → ∀ e ∈ s.heap.listing c,
    e ∈ t.heap.listing c ∨ t.BringsIn n c e

end State

/-! ### Scripts -/

namespace Script

variable {V : Type} [DecidableEq V] [Argument V]

/-- What a script may name to have it removed by value, a pointer or a function. -/
def wrapped : Pointer ⊕ Fn → Payload (vocabulary V)
  | .inl p => ⟨.native (.pointer p) [], .byValue⟩
  | .inr f => ⟨.simple f, .byValue⟩

/-- The chain and what is named, if the request is to remove by value. -/
def named? (h : Heap (vocabulary V)) : Request (vocabulary V) → Option (ChainId × (Pointer ⊕ Fn))
  | .removeNative chain (.pointer p) => (h.chainOf chain).map fun c => (c, .inl p)
  | .removeSimple chain function =>
    (h.chainOf chain).bind fun c => (h.functionOf function).map fun f => (c, .inr f)
  | _ => none

omit [DecidableEq V] [Argument V] in
theorem looksFor_of_named? {h : Heap (vocabulary V)} {rq : Request (vocabulary V)} {c : ChainId}
    {what : Pointer ⊕ Fn} (hrq : named? h rq = some (c, what)) : rq.LooksFor h c (wrapped what) := by
  cases rq with
  | removeNative chain native =>
    cases native with
    | pointer p =>
      obtain ⟨c', hc, he⟩ := Option.map_eq_some_iff.1 hrq
      obtain ⟨rfl, rfl⟩ := Prod.mk.inj he
      exact .pointer hc
    | _ => exact absurd hrq (by simp [named?])
  | removeSimple chain function =>
    obtain ⟨c', hc, hmap⟩ := Option.bind_eq_some_iff.1 hrq
    obtain ⟨f, hf, he⟩ := Option.map_eq_some_iff.1 hmap
    obtain ⟨rfl, rfl⟩ := Prod.mk.inj he
    exact .simple hc hf
  | _ => exact absurd hrq (by simp [named?])

/-- Pointer listeners by value and by identity and of both types, a simple listener, a callable with a
    key and a closure; then one of the pointers is removed, and the simple listener. -/
def mixed : Program Unit :=
  [ .define "v" (.pointer .double),
    .add "v" none (some .back),
    .defineSimple "s" (.pointer .note),
    .addSimple "s" none (some .back),
    .define "i" (.pointerIdentity .double),
    .add "i" none (some .back),
    .define "r" (.pointer .stop),
    .add "r" none (some .back),
    .define "k" (.keyed ⟨"k", [], none⟩ ⟨.a, 1, none⟩ (.custom .loud)),
    .add "k" none (some .back),
    .define "c" (.closure ⟨"c", [], none⟩ false),
    .add "c" none (some .back),
    .removePointer (some .double) none,
    .removeSimple "s" none ]

/-- Comparing with what is in this payload runs no script. -/
def quietLoad (load : Payload (vocabulary V)) : Bool :=
  match load.body with
  | .native n _ => Native.quiet n
  | _ => true

/-- Nothing is stored whose comparing would run a script. -/
def Still (s : State (host V)) : Prop :=
  ∀ p < s.heap.payloads.nextId, (s.heap.payloads.get? p).all quietLoad = true

instance (s : State (host V)) : Decidable (Still s) := Nat.decidableBallLT _ _

theorem Still.candid {s : State (host V)} (h : Still s) {sought : Payload (vocabulary V)} {f : Fn}
    {rule : Rule KeyRule} {m n : Native V} (hc : s.heap.Consults sought f rule m n) :
    (host V).Candid (fun memory : Memory => memory.exhausted = false) Says rule m n := by
  obtain ⟨p, load, ks, hload, hbody⟩ := hc.stored
  have hall := h p (s.heap.payloads.lt_of_get? hload)
  rw [hload] at hall
  have hquiet : quietLoad load = true := hall
  unfold quietLoad at hquiet
  rw [show load.body = .native m ks from hbody] at hquiet
  exact candid_of_quiet rule hquiet n

/-- What the coming step asks to remove by value. -/
theorem exists_looksFor {s : State (host V)} {c : ChainId} {w : Pointer ⊕ Fn}
    (h : (s.asking.bind fun q => named? s.heap q.1) = some (c, w)) :
    ∃ rq below, s.Asks rq below ∧ rq.LooksFor s.heap c (wrapped w) := by
  obtain ⟨⟨rq, below⟩, hasking, hrq⟩ := Option.bind_eq_some_iff.1 h
  exact ⟨rq, below, State.asks_of_asking hasking, looksFor_of_named? hrq⟩

end Script

end Relay
