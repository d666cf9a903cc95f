/-
  Which steps take a slot OUT of a chain.

  A slot leaves the list of its chain in two ways: the chain is cleared, or a search has found its
  match (`State.Unlinks.edit`).  What is linked no more is never linked again (`Scene.Spent`), so no
  slot is taken out twice (`Reachable.unlinks_once`).
-/
import Relay.Proofs.PlainList
import Relay.Proofs.Removal

namespace Relay

variable {T : Vocabulary} {H : Host}

/-! ## Taking slots out -/

/-- What is in the list is what is linked. -/
theorem Heap.mem_listing_iff {h : Heap T} (hv : h.scene.Coherent) {c : ChainId} {x : SlotId} :
    x ∈ (h.listing c).map (·.1) ↔ h.scene.Linked c x := by
  cases hc : h.chains.get? c with
  | none =>
    rw [listing, hc]
    refine ⟨fun hx => absurd hx (by simp), ?_⟩
    rintro ⟨chain, hget, -⟩
    rw [get?_scene_chains, hc] at hget
    exact absurd hget (by simp)
  | some chain =>
    have hget : h.scene.chains.get? c = some chain := by rw [get?_scene_chains, hc]
    have hchain : chain.Coherent := hv c chain hget
    rw [listing_of_get? hc, hchain.map_listing, hchain.visits]
    refine ⟨fun hx => ⟨chain, hget, hx⟩, ?_⟩
    rintro ⟨chain', hget', hx⟩
    obtain rfl := Option.some.inj (hget.symm.trans hget')
    exact hx

/-- The request is to add a listener that is not empty to chain `c`. -/
def Request.Adds (h : Heap T) (c : ChainId) : Request T → Prop
  | .add chain function _ | .addSimple chain function _ =>
    h.chainOf chain = some c ∧ ∃ p, h.functionOf function = some (some p)
  | _ => False

/-- Such a request adds it. -/
theorem Request.adds_iff {h : Heap T} {c : ChainId} {rq : Request T} :
    rq.Adds h c ↔ ∃ slot placement listener, rq.edit h = .added c slot placement listener := by
  have hno (hrq : ¬rq.Adds h c) (he : ∀ slot placement listener,
      rq.edit h ≠ .added c slot placement listener) :
      rq.Adds h c ↔ ∃ slot placement listener, rq.edit h = .added c slot placement listener :=
    ⟨fun hadds => absurd hadds hrq, fun ⟨_, _, _, hedit⟩ => absurd hedit (he _ _ _)⟩
  cases rq with
  | add chain function placement =>
    unfold Adds edit
    dsimp only
    cases h.chainOf chain with
    | none => simp
    | some c' =>
      cases h.functionOf function with
      | none => simp
      | some f => cases f <;> simp
  | addSimple chain function placement =>
    unfold Adds edit
    dsimp only
    cases h.chainOf chain with
    | none => simp
    | some c' =>
      cases h.functionOf function with
      | none => simp
      | some f => cases f <;> simp
  | clear chain =>
    refine hno id fun slot placement listener he => ?_
    unfold edit at he
    dsimp only at he
    split at he <;> exact absurd he (by simp)
  | _ => exact hno id fun _ _ _ he => absurd he (by simp [edit])

namespace State

/-- The coming step takes slot `x` out of chain `c`, which is still there afterwards. -/
structure Unlinks (s : State H) (c : ChainId) (x : SlotId) : Prop where
  linked : s.heap.scene.Linked c x
  stays : s.step.heap.chains.get? c ≠ none
  gone : ¬s.step.heap.scene.Linked c x

/-- The coming step asks to add a listener that is not empty to chain `c`. -/
def Adds (s : State H) (c : ChainId) : Prop := ∃ rq below, s.Asks rq below ∧ rq.Adds s.heap c

/-- The coming step clears chain `c`, and slot `x` goes with it. -/
def ClearsOut (s : State H) (c : ChainId) (x : SlotId) : Prop :=
  (∃ i below, s.Asks (.clear i) below ∧ s.heap.chainOf i = some c) ∧ s.Unlinks c x

/-! ## Which steps take slots out -/

/-- Where a list is edited, code has asked for it, or a search has found its match. -/
theorem edit_cases (s : State H) :
    s.edit = .nothing ∨ (∃ rq below, s.Asks rq below ∧ s.edit = rq.edit s.heap) ∨
      ∃ found rest, s.mode = .reply (.flag true) ∧ s.frames = .searching found :: rest ∧
        s.edit = .detached found.chain found.candidate := by
  unfold edit
  split
  · rename_i r code owned rest hmode hframes
    cases hact : (H.resume code r s.memory).act with
    | request rq code' =>
      exact .inr (.inl ⟨rq, _, ⟨r, code, owned, rest, code', hmode, hframes, hact, rfl⟩, rfl⟩)
    | _ => exact .inl rfl
  · rename_i found rest hmode hframes
    exact .inr (.inr ⟨found, rest, hmode, hframes, rfl⟩)
  · exact .inl rfl

/-- What is asked for takes nothing out but by clearing. -/
theorem edit_ne_detached (h : Heap T) (rq : Request T) (c : ChainId) (x : SlotId) :
    rq.edit h ≠ .detached c x := by
  intro he
  cases rq with
  | add chain function placement =>
    unfold Request.edit at he
    dsimp only at he
    split at he <;> exact absurd he (by simp)
  | addSimple chain function placement =>
    unfold Request.edit at he
    dsimp only at he
    split at he <;> exact absurd he (by simp)
  | clear chain =>
    unfold Request.edit at he
    dsimp only at he
    split at he <;> exact absurd he (by simp)
  | _ => exact absurd he (by simp [Request.edit])

theorem asks_clear_of_edit {s : State H} {c : ChainId} (h : s.edit = .cleared c) :
    ∃ i below, s.Asks (.clear i) below ∧ s.heap.chainOf i = some c := by
  rcases s.edit_cases with hnone | ⟨rq, below, hasks, hrq⟩ | ⟨found, rest, -, -, hfound⟩
  · exact absurd (hnone.symm.trans h) (by simp)
  · rw [h] at hrq
    cases rq with
    | add chain function placement =>
      unfold Request.edit at hrq
      dsimp only at hrq
      split at hrq <;> exact absurd hrq (by simp)
    | addSimple chain function placement =>
      unfold Request.edit at hrq
      dsimp only at hrq
      split at hrq <;> exact absurd hrq (by simp)
    | clear i =>
      unfold Request.edit at hrq
      dsimp only at hrq
      split at hrq
      · rename_i c' hc
        obtain rfl := Edit.cleared.inj hrq
        exact ⟨i, below, hasks, hc⟩
      · exact absurd hrq (by simp)
    | _ => exact absurd hrq (by simp [Request.edit])
  · exact absurd (hfound.symm.trans h) (by simp)

/-- What is added to a list has been asked for. -/
theorem adds_iff {s : State H} {c : ChainId} :
    s.Adds c ↔ ∃ slot placement listener, s.edit = .added c slot placement listener := by
  constructor
  · rintro ⟨rq, below, hasks, hadds⟩
    obtain ⟨slot, placement, listener, hrq⟩ := Request.adds_iff.1 hadds
    exact ⟨slot, placement, listener, hasks.edit_eq.trans hrq⟩
  · rintro ⟨slot, placement, listener, hedit⟩
    rcases s.edit_cases with hnone | ⟨rq, below, hasks, hrq⟩ | ⟨found, rest, -, -, hfound⟩
    · exact absurd (hnone.symm.trans hedit) (by simp)
    · exact ⟨rq, below, hasks, Request.adds_iff.2 ⟨slot, placement, listener, hrq.symm.trans hedit⟩⟩
    · exact absurd (hfound.symm.trans hedit) (by simp)

/-- A match that is still linked goes. -/
theorem unlinks_of_detached {s : State H} (hs : Reachable s) {c : ChainId} {x : SlotId}
    (hedit : s.edit = .detached c x) (hx : s.heap.scene.Linked c x) : s.Unlinks c x := by
  rcases s.edit_cases with hnone | ⟨rq, below, -, hrq⟩ | ⟨found, rest, hmode, hframes, hfound⟩
  · exact absurd (hnone.symm.trans hedit) (by simp)
  · exact absurd (hrq.symm.trans hedit) (edit_ne_detached s.heap rq c x)
  · obtain ⟨rfl, rfl⟩ := Edit.detached.inj (hfound.symm.trans hedit)
    have hstays : s.step.heap.chains.get? found.chain ≠ none := by
      obtain ⟨chain, hget, hcontains⟩ := hx
      rw [Heap.get?_scene_chains] at hget
      have hstep : s.step = ({ s with frames := rest } : State H).detachFound found :=
        step_of_top hframes hmode
      rw [hstep]
      unfold detachFound
      dsimp only
      rw [hget]
      dsimp only
      rw [if_pos hcontains]
      show (s.heap.chains.modify found.chain _).get? found.chain ≠ none
      rw [Pool.get?_modify, if_pos rfl, hget]
      exact Option.some_ne_none _
    refine ⟨hx, hstays, ?_⟩
    rw [← Heap.mem_listing_iff hs.step.coherent, hs.passes.lists _ hstays, hedit, Edit.on, if_pos rfl]
    intro hmem
    obtain ⟨e, he, hcandidate⟩ := List.mem_map.1 hmem
    exact of_decide_eq_true (List.mem_filter.1 he).2 hcandidate

/-- Nothing else takes a slot out of a chain that stays. -/
theorem Unlinks.edit {s : State H} (hs : Reachable s) {c : ChainId} {x : SlotId}
    (h : s.Unlinks c x) : s.edit = .cleared c ∨ s.edit = .detached c x := by
  have hlists := hs.passes.lists c h.stays
  have hmem := (Heap.mem_listing_iff hs.coherent).2 h.linked
  have hgone := mt (Heap.mem_listing_iff hs.step.coherent).1 h.gone
  rw [hlists] at hgone
  obtain ⟨e, he, rfl⟩ := List.mem_map.1 hmem
  -- an entry that is still in the list is still linked
  have hno {P : Prop} (hkept : e ∈ s.edit.on c (s.heap.listing c)) : P :=
    absurd (List.mem_map_of_mem hkept) hgone
  cases hedit : s.edit with
  | nothing => exact hno (by rw [hedit]; exact he)
  | added c' slot placement listener =>
    refine hno ?_
    rw [hedit, Edit.on]
    split
    · exact placement.mem_place.2 (.inr he)
    · exact he
  | detached c' slot =>
    by_cases hc : c' = c
    · by_cases hslot : e.1 = slot
      · exact .inr (by rw [hc, hslot])
      · refine hno ?_
        rw [hedit, Edit.on, if_pos hc]
        exact List.mem_filter.2 ⟨he, decide_eq_true hslot⟩
    · exact hno (by rw [hedit, Edit.on, if_neg hc]; exact he)
  | cleared c' =>
    by_cases hc : c' = c
    · exact .inl (by rw [hc])
    · exact hno (by rw [hedit, Edit.on, if_neg hc]; exact he)

/-- Where a search takes a slot out, it is the candidate of the search. -/
theorem Unlinks.of_searching {s : State H} (hs : Reachable s) {c : ChainId} {x : SlotId}
    (h : s.Unlinks c x) {found : Search} {rest : List (Frame H)}
    (hframes : s.frames = .searching found :: rest) :
    s.mode = .reply (.flag true) ∧ found.chain = c ∧ found.candidate = x := by
  have hedit := h.edit hs
  rcases s.edit_cases with hnone | ⟨rq, below, ⟨_, code, owned, _, _, _, hcode, _⟩, -⟩ |
    ⟨found', rest', hmode, hframes', hfound⟩
  · exact absurd hnone (by rcases hedit with he | he <;> simp [he])
  · exact absurd (hframes.symm.trans hcode) (by simp)
  · obtain ⟨htop, rfl⟩ := List.cons.inj (hframes.symm.trans hframes')
    obtain rfl := Frame.searching.inj htop
    rcases hedit with he | he
    · exact absurd (hfound.symm.trans he) (by simp)
    · obtain ⟨hc, hx⟩ := Edit.detached.inj (hfound.symm.trans he)
      exact ⟨hmode, hc, hx⟩

end State

/-! ### Once -/

namespace Reachable

variable {s : State H}

theorem spent_after (hs : Reachable s) {c : ChainId} {x : SlotId} (hx : s.heap.scene.Spent c x)
    (n : Nat) : (s.after n).heap.scene.Spent c x := by
  induction n with
  | zero => exact hx
  | succ n ih =>
    obtain ⟨deed, hdoes⟩ := (s.after n).step_does
    exact hdoes.change.spent (hs.after n).coherent ih

/-- What was taken out once is never taken out again. -/
theorem unlinks_once (hs : Reachable s) {c : ChainId} {x : SlotId} {j k : Nat}
    (hj : (s.after j).Unlinks c x) (hk : (s.after k).Unlinks c x) : j = k := by
  have hno {j k : Nat} (hlt : j < k) (hj : (s.after j).Unlinks c x)
      (hk : (s.after k).Unlinks c x) : False := by
    have hsj := hs.after j
    obtain ⟨deed, hdoes⟩ := (s.after j).step_does
    have hseen := hdoes.change.seen hsj.coherent (hj.linked.seen hsj.coherent hsj.accounted)
    obtain ⟨m, rfl⟩ := Nat.exists_eq_add_of_lt hlt
    rw [Nat.add_right_comm, State.after_add] at hk
    exact (hsj.step.spent_after ⟨hseen, hj.gone⟩ m).2 hk.linked
  rcases Nat.lt_trichotomy j k with hlt | heq | hgt
  · exact (hno hlt hj hk).elim
  · exact heq
  · exact (hno hgt hk hj).elim

end Reachable

end Relay
