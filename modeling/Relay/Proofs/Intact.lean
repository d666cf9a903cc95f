/-
  While nothing is edited, the chains that were there stay INTACT.

  A call that edits no list still starts dispatches, moves them on and lets go of them, stores
  payloads and opens chains.  `Heap.Intact h g` says that all chains and dispatches of `h` are in `g` as
  they were, but for pins.  As long as those who held something hold it still (`State.Outlives`), and only
  dispatches that have come since are moved on, each step keeps it so (`Untouched.step`).  Functions
  may come and go meanwhile; of them only those matter that run a chain, for they hold it.  One fact
  about the newcomers has to be carried along: on an old chain they stand on linked slots, so none of
  them takes a tombstone away when it leaves.
-/
import Relay.Proofs.Bare
import Relay.Proofs.Conservation
import Relay.Proofs.Lifetime

namespace Relay

variable {H : Host}

/-- All chains and dispatches of `h` are in `g` as they were, pins apart.  Of the dispatches that `h` has
    ever had, those that have gone stay away. -/
structure Heap.Intact {T : Vocabulary} (h g : Heap T) : Prop where
  chains : ∀ c chain, h.chains.get? c = some chain →
    ∃ chain', g.chains.get? c = some chain' ∧ chain'.bare = chain.bare
  dispatches : ∀ d, d < h.dispatches.nextId → g.dispatches.get? d = h.dispatches.get? d

theorem Heap.Intact.refl {T : Vocabulary} (h : Heap T) : h.Intact h :=
  ⟨fun _ chain hc => ⟨chain, hc, rfl⟩, fun _ _ => rfl⟩

/-- The function that a share is in. -/
def Ref.function? : Ref → Option Fn
  | .function f => some f
  | _ => none

/-- The chain that a payload runs, if it is a function of that kind. -/
def Heap.runs {T : Vocabulary} (h : Heap T) (p : PayloadId) : Option ChainId :=
  (h.payloads.get? p).bind fun load => load.body.chain?

theorem Heap.runs_eq_some_iff {T : Vocabulary} {h : Heap T} {p : PayloadId} {c : ChainId} :
    h.runs p = some c ↔ ∃ load, h.payloads.get? p = some load ∧ load.body = .chain c := by
  rw [runs, Option.bind_eq_some_iff]
  refine exists_congr fun load => and_congr_right fun _ => ?_
  cases load.body <;> simp [Body.chain?]

namespace State

/-! ## Who holds what -/

/-- Whoever has a share in a chain or a dispatch in `s` has it in `w` as well.  Code of the program may
    have gone on in the meantime. -/
structure Outlives (s w : State H) : Prop where
  handles : ∀ i ref, s.heap.handles.get? i = some ref → ref.function? = none →
    w.heap.handles.get? i = some ref
  runners : ∀ p c, s.heap.runs p = some c → w.heap.runs p = some c
  mode : s.mode.held = []
  frames : ∀ f ∈ s.frames, f ∈ w.frames ∨
    ∃ code code' owned, f = .user code owned ∧ .user code' owned ∈ w.frames

namespace Outlives

variable {s w : State H}

theorem exists_held (h : s.Outlives w) {f : Frame H} (hf : f ∈ s.frames) :
    ∃ g ∈ w.frames, g.held = f.held := by
  rcases h.frames f hf with hsame | ⟨code, code', owned, rfl, hcode⟩
  · exact ⟨f, hsame, rfl⟩
  · exact ⟨_, hcode, rfl⟩

theorem shares (h : s.Outlives w) {ref : Ref} (href : ref ∈ s.shares) (hne : ref.function? = none) :
    ref ∈ w.shares := by
  rw [mem_shares_iff] at href ⊢
  rcases href with ⟨i, hi⟩ | hmode | ⟨f, hf, hheld⟩
  · exact .inl ⟨i, h.handles i ref hi hne⟩
  · rw [h.mode] at hmode
    exact absurd hmode List.not_mem_nil
  · obtain ⟨g, hg, hsame⟩ := h.exists_held hf
    exact .inr (.inr ⟨g, hg, hsame ▸ hheld⟩)

theorem hasEvent (h : s.Outlives w) {d : DispatchId} (hd : s.HasEvent d) : w.HasEvent d := by
  obtain ⟨ref, href, hevent⟩ := hd
  refine ⟨ref, h.shares href ?_, hevent⟩
  rcases hevent with rfl | ⟨f, rfl⟩ <;> rfl

theorem holdsChain (h : s.Outlives w)
    (hdispatches : ∀ d e, s.heap.dispatches.get? d = some e → w.heap.dispatches.get? d = some e)
    {c : ChainId} (hc : s.HoldsChain c) : w.HoldsChain c := by
  cases hc with
  | handle i hi => exact .handle i (h.handles i _ hi rfl)
  | payload q load hq hbody =>
    obtain ⟨load', hq', hbody'⟩ :=
      Heap.runs_eq_some_iff.1 (h.runners q c (Heap.runs_eq_some_iff.2 ⟨load, hq, hbody⟩))
    exact .payload q load' hq' hbody'
  | dispatch d e hd he => exact .dispatch d e (hdispatches d e hd) he
  | frame f hf hheld =>
    obtain ⟨g, hg, hsame⟩ := h.exists_held hf
    exact .frame g hg (hsame ▸ hheld)

end Outlives

end State

/-- Where a dispatch stands after a deed, it stood before, or the deed has brought it there. -/
theorem Change.stands_cases {deed : Deed} {v w : Scene} (h : Change deed v w) {d : DispatchId}
    {c : ChainId} {x : SlotId} (hd : w.dispatches.get? d = some ⟨c, some x⟩) :
    v.dispatches.get? d = some ⟨c, some x⟩ ∨ deed.entry? = some ⟨c, x, d⟩ := by
  rcases h.dispatch_cases d with hsame | ⟨hnext, -⟩ | ⟨-, hnone⟩ | ⟨c', x', -, rfl, -, -, hd', -⟩
  · exact .inl (hsame ▸ hd)
  · cases h with
    | @moved _ d' c' chain slot next hold =>
      obtain rfl : d' = d := Option.some.inj hnext
      rw [Scene.get?_setDispatch_self hold] at hd
      obtain ⟨rfl, hx⟩ := Dispatch.mk.inj (Option.some.inj hd)
      obtain rfl := Option.some.inj hx
      exact .inr rfl
    | @finished _ d' c' chain slot hold =>
      obtain rfl : d' = d := Option.some.inj hnext
      rw [Scene.get?_setDispatch_self hold] at hd
      exact absurd hd (by simp)
    | stayed => exact .inl hd
    | _ => exact absurd hnext (by simp [Deed.next?])
  · exact absurd (hnone.symm.trans hd) (by simp)
  · obtain ⟨rfl, hx⟩ := Dispatch.mk.inj (Option.some.inj (hd'.symm.trans hd))
    obtain rfl := Option.some.inj hx
    exact .inr rfl

namespace Reachable

/-- A dispatch is there exactly as long as one of its events is alive. -/
theorem dispatch_iff {s : State H} (hs : Reachable s) (d : DispatchId) :
    (∃ e, s.heap.dispatches.get? d = some e) ↔ s.HasEvent d := by
  rw [← Option.isSome_iff_exists, ← Pool.count_pos_iff, hs.balanced.count_dispatch, weights_pos_iff]
  exact exists_congr fun ref => and_congr_right fun _ => ref.weight_dispatch_pos_iff d

/-- A step that edits no list leaves the order of a chain as it was. -/
theorem order_step {s : State H} (hs : Reachable s) (hedit : s.edit = .nothing) {c : ChainId}
    {chain chain' : Chain Fn} (hc : s.heap.chains.get? c = some chain)
    (hc' : s.step.heap.chains.get? c = some chain') : chain'.order = chain.order := by
  have hlists := hs.passes.lists c (by simp [hc'])
  rw [hedit, Heap.listing_of_get? hc, Heap.listing_of_get? hc'] at hlists
  change chain'.listing = chain.listing at hlists
  rw [← (hs.step.coherent c chain' (by rw [Heap.get?_scene_chains, hc'])).map_listing, hlists,
    (hs.coherent c chain (by rw [Heap.get?_scene_chains, hc])).map_listing]

end Reachable

namespace State

/-- What `s` stores is intact in `u`, and whoever has come since stands, on an old chain, on a slot
    that is linked. -/
structure Untouched (s u : State H) : Prop where
  intact : s.heap.Intact u.heap
  linked : ∀ d c x chain, s.heap.dispatches.nextId ≤ d →
    u.heap.dispatches.get? d = some ⟨c, some x⟩ → s.heap.chains.get? c = some chain →
      chain.contains x = true
  later : s.heap.dispatches.nextId ≤ u.heap.dispatches.nextId

theorem Untouched.refl (s : State H) : s.Untouched s where
  intact := .refl s.heap
  linked := fun d c x chain hd hget => by
    rw [s.heap.dispatches.get?_of_le hd] at hget
    exact absurd hget (by simp)
  later := Nat.le_refl _

namespace Untouched

variable {s u : State H} (hs : Reachable s) (hu : Reachable u) (h : s.Untouched u)
  (hout : s.Outlives u.step)
include hs hu h hout

/-! ## One step -/

/-- A dispatch that was there has its events still, so it does not close. -/
theorem dispatches_step (hown : ∀ d, u.onward = some d → s.heap.dispatches.nextId ≤ d)
    {d : DispatchId} (hlt : d < s.heap.dispatches.nextId) :
    u.step.heap.dispatches.get? d = s.heap.dispatches.get? d := by
  obtain ⟨deed, hdoes⟩ := u.step_does
  have hcases := hdoes.change.dispatch_cases d
  simp only [Heap.get?_scene_dispatches, h.intact.dispatches d hlt] at hcases
  rcases hcases with hsame | ⟨hnext, -⟩ | ⟨-, hnone⟩ | ⟨-, -, -, -, hnew, -⟩
  · exact hsame
  · exact absurd (hown d (hdoes.next? ▸ hnext)) (Nat.not_le_of_lt hlt)
  · cases hd : s.heap.dispatches.get? d with
    | none => exact hnone
    | some e =>
      obtain ⟨e', he'⟩ := (hu.step.dispatch_iff d).2 (hout.hasEvent ((hs.dispatch_iff d).1 ⟨e, hd⟩))
      exact absurd (hnone.symm.trans he') (by simp)
  · have hle : s.heap.dispatches.nextId ≤ d := hnew.symm ▸ h.later
    exact absurd hle (Nat.not_le_of_lt hlt)

/-- A chain that was there has a holder still, and nothing of it changes but pins. -/
theorem chains_step (hedit : u.edit = .nothing)
    (hown : ∀ d, u.onward = some d → s.heap.dispatches.nextId ≤ d)
    {c : ChainId} {chain : Chain Fn} (hc : s.heap.chains.get? c = some chain) :
    ∃ chain', u.step.heap.chains.get? c = some chain' ∧ chain'.bare = chain.bare := by
  obtain ⟨old, hold, hbare⟩ := h.intact.chains c chain hc
  have hdispatches : ∀ d e, s.heap.dispatches.get? d = some e →
      u.step.heap.dispatches.get? d = some e := by
    intro d e hd
    rw [h.dispatches_step hs hu hout hown, hd]
    exact s.heap.dispatches.stored_lt (by rw [Table.contains, Pool.get?_stored, hd]; rfl)
  obtain ⟨chain', hc'⟩ := (hu.step.balanced.chain_iff c).2
    (hout.holdsChain hdispatches ((hs.balanced.chain_iff c).1 ⟨chain, hc⟩))
  have hold' : u.heap.scene.chains.get? c = some old := by rw [Heap.get?_scene_chains, hold]
  have hnew' : u.step.heap.scene.chains.get? c = some chain' := by rw [Heap.get?_scene_chains, hc']
  have horder : chain'.order = old.order := hu.order_step hedit hold hc'
  obtain ⟨deed, hdoes⟩ := u.step_does
  refine ⟨chain', hc', ?_⟩
  refine (hdoes.change.bare_eq hu.coherent hu.accounted hold' hnew' horder ?_).trans hbare
  -- who leaves a slot has come since
  intro d x hleft hd
  rw [Heap.get?_scene_dispatches] at hd
  have hnew : s.heap.dispatches.nextId ≤ d := by
    rcases hleft with hnext | rfl
    · exact hown d (hdoes.next? ▸ hnext)
    · by_contra hlt
      have hstays := h.dispatches_step hs hu hout hown (Nat.lt_of_not_le hlt)
      have hgone := hdoes.change.closed_dispatch
      rw [Heap.get?_scene_dispatches, hstays, ← h.intact.dispatches d (Nat.lt_of_not_le hlt), hd]
        at hgone
      exact absurd hgone (by simp)
  rw [← Chain.contains_bare, hbare, Chain.contains_bare]
  exact h.linked d c x chain hnew hd hc

/-- A step that edits no list, and moves newcomers only, touches nothing of what there was. -/
theorem step (hedit : u.edit = .nothing)
    (hown : ∀ d, u.onward = some d → s.heap.dispatches.nextId ≤ d) : s.Untouched u.step where
  intact := {
    chains := fun c chain hc => h.chains_step hs hu hout hedit hown hc
    dispatches := fun d hd => h.dispatches_step hs hu hout hown hd }
  linked := by
    intro d c x chain hnew hd hc
    obtain ⟨deed, hdoes⟩ := u.step_does
    rw [← Heap.get?_scene_dispatches] at hd
    rcases hdoes.change.stands_cases hd with hold | hentry
    · exact h.linked d c x chain hnew (by rw [← Heap.get?_scene_dispatches, hold]) hc
    · obtain ⟨old, hget, hlinked⟩ := hdoes.change.entry_linked hu.coherent hentry
      obtain ⟨old', hold', hbare⟩ := h.intact.chains c chain hc
      rw [Heap.get?_scene_chains] at hget
      obtain rfl := Option.some.inj (hget.symm.trans hold')
      rwa [← Chain.contains_bare, ← hbare, Chain.contains_bare]
  later := by
    obtain ⟨deed, hdoes⟩ := u.step_does
    exact Nat.le_trans h.later hdoes.change.nextDispatch_le

end Untouched

end State

end Relay
