/-
  What each deed does to the order of a chain, and the order of ALL slots a chain ever had.

  A deed does to the linked slots of a chain what its name says (`Change.reorder`).  In particular
  no deed links an old slot again: once a slot has been seen and is not linked, it never will be
  (`Change.linked_of_seen`).  The TIMELINE of a chain is read off the additions of the run: one at
  the front goes before, and one at the back after, everything that was ever added earlier.
  Removals do not touch it, and the order of the chain is at all times a part of it.
-/
import Relay.Proofs.Pins

namespace Relay

/-! ## Lists to which something is added -/

/-- The list with an element more at one of its ends. -/
def Placement.place {α : Type} (a : α) (l : List α) : Placement → List α
  | .front => a :: l
  | .back => l ++ [a]

namespace Placement

variable {α : Type} {a b : α} {l m : List α}

@[simp] theorem mem_place (p : Placement) : b ∈ p.place a l ↔ b = a ∨ b ∈ l := by
  cases p <;> simp [place, or_comm]

theorem length_place (p : Placement) : (p.place a l).length = l.length + 1 := by
  cases p with
  | front => rfl
  | back => exact List.length_append

theorem sublist_place (p : Placement) : l.Sublist (p.place a l) := by
  cases p with
  | front => exact List.sublist_cons_self a l
  | back => exact List.sublist_append_left l [a]

theorem place_sublist (p : Placement) (h : l.Sublist m) : (p.place a l).Sublist (p.place a m) := by
  cases p with
  | front => exact h.cons_cons a
  | back => exact h.append_right [a]

theorem nodup_place (p : Placement) (hl : l.Nodup) (ha : a ∉ l) : (p.place a l).Nodup := by
  cases p with
  | front => exact List.nodup_cons.2 ⟨ha, hl⟩
  | back =>
    refine hl.append (List.nodup_singleton a) fun x hx hxa => ?_
    exact ha (List.mem_singleton.1 hxa ▸ hx)

end Placement

/-! ## One chain -/

namespace Chain

variable {L : Type} {c : Chain L}

theorem order_add (h : c.Coherent) (l : L) (p : Placement) :
    (c.add l p).order = p.place c.nextId c.order := by
  cases p with
  | front => exact (h.links.prepend l).order_eq
  | back => exact (h.links.append l).order_eq

theorem nextId_add (c : Chain L) (l : L) (p : Placement) : (c.add l p).nextId = c.nextId + 1 := by
  cases p with
  | front => exact nextId_prepend c l
  | back => exact nextId_append c l

theorem order_detach (h : c.Coherent) (id : SlotId) : (c.detach id).2.order = c.order.erase id := by
  by_cases hid : id ∈ c.order
  · exact (h.links.detach hid).order_eq
  · rw [h.links.detach_of_not_mem hid, List.erase_of_not_mem hid]

theorem order_clear {shuffle : Shuffle} (h : c.Coherent) : (c.clear shuffle).2.order = [] := h.links.clear.order_eq

theorem order_pin (h : c.Coherent) (id : SlotId) :
    (c.pin id).order = c.order := (h.links.pin id).order_eq

theorem order_unpin (h : c.Coherent) (id : SlotId) : (c.unpin id).2.order = c.order :=
  (h.links.unpin id).order_eq

/-- The first slot is followed by what is left to it. -/
theorem Coherent.order_of_first (h : c.Coherent) {x : SlotId} (hx : c.first = some x) :
    c.order = x :: c.rest x := by
  cases ho : c.order with
  | nil =>
    rw [h.begins, ho] at hx
    exact absurd hx (by simp)
  | cons y rest =>
    rw [h.begins, ho, List.head?_cons] at hx
    obtain rfl := Option.some.inj hx
    have hsuffix : y :: rest <:+ c.order := ho ▸ List.suffix_rfl
    have hmem : y ∈ c.order := hsuffix.subset List.mem_cons_self
    rw [suffix_unique h.once (h.links.cons_rest_suffix hmem) hsuffix]

end Chain

/-! ## All deeds -/

/-- What a deed does to the linked slots of `c`. -/
def Deed.reorder (c : ChainId) (order : List SlotId) : Deed → List SlotId
  | .added c' slot placement => if c = c' then placement.place slot order else order
  | .detached c' slot => if c = c' then order.erase slot else order
  | .cleared c' => if c = c' then [] else order
  | _ => order

/-- What a deed does to the next number that `c` hands out. -/
def Deed.renumber (c : ChainId) (next : SlotId) : Deed → SlotId
  | .added c' _ _ => if c = c' then next + 1 else next
  | _ => next

/-- A chain is new, or it was there and its slots are reordered. -/
theorem Change.reorder {deed : Deed} {v w : Scene} (h : Change deed v w) (hv : v.Coherent)
    {c : ChainId} {chain' : Chain Fn} (hc : w.chains.get? c = some chain') :
    (c = v.nextChain ∧ chain' = {}) ∨
      ∃ chain, v.chains.get? c = some chain ∧ chain'.order = deed.reorder c chain.order ∧
        chain'.nextId = deed.renumber c chain.nextId := by
  -- a deed that changes one chain, and what it does to that chain
  have one {c' : ChainId} {old new : Chain Fn} (hold : v.chains.get? c' = some old)
      (hget : (v.setChain c' new).chains.get? c = some chain') (hnew : c = c' →
        new.order = deed.reorder c old.order ∧ new.nextId = deed.renumber c old.nextId)
      (hsame : c ≠ c' → ∀ order next, deed.reorder c order = order ∧ deed.renumber c next = next) :
      ∃ chain, v.chains.get? c = some chain ∧ chain'.order = deed.reorder c chain.order ∧
        chain'.nextId = deed.renumber c chain.nextId := by
    rw [Scene.get?_setChain new hold] at hget
    split at hget
    · rename_i he
      subst he
      obtain rfl := Option.some.inj hget
      exact ⟨old, hold, hnew rfl⟩
    · rename_i he
      obtain ⟨ho, hn⟩ := hsame (Ne.symm he) chain'.order chain'.nextId
      exact ⟨chain', hget, ho.symm, hn.symm⟩
  cases h with
  | nothing => exact .inr ⟨chain', hc, rfl, rfl⟩
  | stayed => exact .inr ⟨chain', hc, rfl, rfl⟩
  | opened =>
    rw [Table.get?_insert] at hc
    split at hc
    · rename_i he
      exact .inl ⟨he.symm, (Option.some.inj hc).symm⟩
    · exact .inr ⟨chain', hc, rfl, rfl⟩
  | @added _ c' old hold listener placement =>
    refine .inr (one hold hc (fun he => ?_) fun hne _ _ => ⟨if_neg hne, if_neg hne⟩)
    rw [Deed.reorder, if_pos he, Deed.renumber, if_pos he]
    exact ⟨Chain.order_add (hv c' old hold) listener placement, old.nextId_add listener placement⟩
  | @detached _ c' old slot hold =>
    refine .inr (one hold hc (fun he => ?_) fun hne _ _ => ⟨if_neg hne, rfl⟩)
    rw [Deed.reorder, if_pos he]
    exact ⟨Chain.order_detach (hv c' old hold) slot, Chain.Links.nextId_detach old slot⟩
  | @cleared _ c' old _ hold =>
    refine .inr (one hold hc (fun he => ?_) fun hne _ _ => ⟨if_neg hne, rfl⟩)
    rw [Deed.reorder, if_pos he]
    exact ⟨Chain.order_clear (hv c' old hold), rfl⟩
  | @started _ c' old slot hold =>
    refine .inr (one hold hc (fun _ => ?_) fun _ _ _ => ⟨rfl, rfl⟩)
    exact ⟨Chain.order_pin (hv c' old hold) slot, rfl⟩
  | @moved _ d c' old slot next _ hold =>
    refine .inr (one hold hc (fun _ => ?_) fun _ _ _ => ⟨rfl, rfl⟩)
    have hunpinned : (old.unpin slot).2.Coherent := (hv c' old hold).operate (.unpin slot)
    exact ⟨(Chain.order_pin hunpinned next).trans (Chain.order_unpin (hv c' old hold) slot),
      (old.ends_unpin slot).2.2.2⟩
  | @finished _ d c' old slot _ hold =>
    exact .inr (one hold hc (fun _ => ⟨Chain.order_unpin (hv c' old hold) slot,
      (old.ends_unpin slot).2.2.2⟩) fun _ _ _ => ⟨rfl, rfl⟩)
  | @closed _ d c' old slot _ hold =>
    exact .inr (one hold hc (fun _ => ⟨Chain.order_unpin (hv c' old hold) slot,
      (old.ends_unpin slot).2.2.2⟩) fun _ _ _ => ⟨rfl, rfl⟩)
  | closedPast => exact .inr ⟨chain', hc, rfl, rfl⟩
  | dropped =>
    rw [Table.get?_erase] at hc
    split at hc
    · exact absurd hc (by simp)
    · exact .inr ⟨chain', hc, rfl, rfl⟩

/-! ## Linked and seen slots -/

namespace Scene

/-- A slot is part of a chain that is there. -/
def Linked (v : Scene) (c : ChainId) (x : SlotId) : Prop :=
  ∃ chain, v.chains.get? c = some chain ∧ chain.contains x = true

/-- A slot number was handed out by its chain, as far as the chain is still there. -/
def Seen (v : Scene) (c : ChainId) (x : SlotId) : Prop :=
  c < v.nextChain ∧ ∀ chain, v.chains.get? c = some chain → x < chain.nextId

theorem Linked.seen {v : Scene} (hv : v.Coherent) (ha : v.Accounted) {c : ChainId} {x : SlotId}
    (h : v.Linked c x) : v.Seen c x := by
  obtain ⟨chain, hc, hx⟩ := h
  refine ⟨ha.chain_lt c chain hc, fun chain' hc' => ?_⟩
  obtain rfl := Option.some.inj (hc.symm.trans hc')
  have hlinks := (hv c chain hc).links
  exact hlinks.fresh x (hlinks.stored ((hlinks.linked x).1 hx))

end Scene

theorem Change.nextChain_le {deed : Deed} {v w : Scene} (h : Change deed v w) :
    v.nextChain ≤ w.nextChain := by
  cases h with
  | opened => exact Nat.le_succ _
  | _ => exact Nat.le_refl _

/-- A number that was handed out stays so. -/
theorem Change.seen {deed : Deed} {v w : Scene} (h : Change deed v w) (hv : v.Coherent)
    {c : ChainId} {x : SlotId} (hx : v.Seen c x) : w.Seen c x := by
  refine ⟨Nat.lt_of_lt_of_le hx.1 h.nextChain_le, fun chain' hc => ?_⟩
  rcases h.reorder hv hc with ⟨rfl, -⟩ | ⟨chain, hchain, -, hnext⟩
  · exact absurd hx.1 (Nat.lt_irrefl _)
  · have hle : chain.nextId ≤ deed.renumber c chain.nextId := by
      unfold Deed.renumber
      split
      · split
        · exact Nat.le_succ _
        · exact Nat.le_refl _
      · exact Nat.le_refl _
    exact hnext ▸ Nat.lt_of_lt_of_le (hx.2 chain hchain) hle

/-- An added slot gets the next number of its chain. -/
theorem Change.added_nextId {v w : Scene} {c : ChainId} {x : SlotId} {placement : Placement}
    (h : Change (.added c x placement) v w) :
    ∃ chain, v.chains.get? c = some chain ∧ x = chain.nextId := by
  cases h with
  | added hc => exact ⟨_, hc, rfl⟩

/-- NO deed links an old slot again. -/
theorem Change.linked_of_seen {deed : Deed} {v w : Scene} (h : Change deed v w) (hv : v.Coherent)
    {c : ChainId} {x : SlotId} (hx : v.Seen c x) (hlinked : w.Linked c x) : v.Linked c x := by
  obtain ⟨chain', hc, hx'⟩ := hlinked
  rcases h.reorder hv hc with ⟨rfl, -⟩ | ⟨chain, hchain, horder, -⟩
  · exact absurd hx.1 (Nat.lt_irrefl _)
  · have hw := (h.coherent hv) c chain' hc
    have hmem : x ∈ deed.reorder c chain.order := horder ▸ (hw.visits x).2 hx'
    refine ⟨chain, hchain, ((hv c chain hchain).visits x).1 ?_⟩
    -- only an addition makes a slot linked, and it takes a number that was not seen
    cases deed with
    | added c' slot placement =>
      rw [Deed.reorder] at hmem
      split at hmem
      · rename_i he
        subst he
        rcases (placement.mem_place).1 hmem with rfl | hold
        · obtain ⟨chain₁, hchain₁, rfl⟩ := h.added_nextId
          exact absurd (hx.2 chain₁ hchain₁) (Nat.lt_irrefl _)
        · exact hold
      · exact hmem
    | detached c' slot =>
      rw [Deed.reorder] at hmem
      split at hmem
      · exact List.mem_of_mem_erase hmem
      · exact hmem
    | cleared c' =>
      rw [Deed.reorder] at hmem
      split at hmem
      · exact absurd hmem (by simp)
      · exact hmem
    | _ => exact hmem

/-! ## What no operation on a chain breaks -/

/-- If it is so of a chain, it is so after every operation. -/
structure Chain.Lasting {L : Type} (P : Chain L → Prop) : Prop where
  add : ∀ c listener placement, c.Coherent → P c → P (c.add listener placement)
  detach : ∀ c id, c.Coherent → P c → P (c.detach id).2
  clear : ∀ c shuffle, c.Coherent → P c → P (c.clear shuffle).2
  pin : ∀ c id, P c → P (c.pin id)
  unpin : ∀ c id, P c → P (c.unpin id).2

/-- The chain numbered `c` was opened, and as long as it is there, `P` is so of it. -/
structure Scene.Upholds (v : Scene) (c : ChainId) (P : Chain Fn → Prop) : Prop where
  old : c < v.nextChain
  holds : ∀ chain, v.chains.get? c = some chain → P chain

/-- Where a chain is written anew, only that one matters. -/
theorem Scene.Upholds.setChain {v : Scene} {c c' : ChainId} {P : Chain Fn → Prop}
    (h : v.Upholds c P) {old new : Chain Fn} (hc : v.chains.get? c' = some old)
    (hnew : P old → P new) (t : Table DispatchId Dispatch) (next : DispatchId) :
    Upholds { v.setChain c' new with dispatches := t, nextDispatch := next } c P := by
  refine ⟨h.old, fun chain hget => ?_⟩
  change (v.setChain c' new).chains.get? c = some chain at hget
  rw [get?_setChain new hc] at hget
  split at hget
  · rename_i he
    obtain rfl := Option.some.inj hget
    exact hnew (h.holds old (he ▸ hc))
  · exact h.holds chain hget

/-- NO deed breaks what no operation breaks. -/
theorem Change.upholds {deed : Deed} {v w : Scene} (h : Change deed v w) (hv : v.Coherent)
    {P : Chain Fn → Prop} (hP : Chain.Lasting P) {c : ChainId} (hc : v.Upholds c P) :
    w.Upholds c P := by
  cases h with
  | nothing => exact hc
  | stayed => exact hc
  | opened =>
    refine ⟨Nat.lt_succ_of_lt hc.old, fun chain hget => ?_⟩
    rw [Table.get?_insert, if_neg (Nat.ne_of_gt hc.old)] at hget
    exact hc.holds chain hget
  | @added _ c' old hold => exact hc.setChain hold (hP.add old _ _ (hv c' old hold)) _ _
  | @detached _ c' old slot hold => exact hc.setChain hold (hP.detach old slot (hv c' old hold)) _ _
  | @cleared _ c' old _ hold => exact hc.setChain hold (hP.clear old _ (hv c' old hold)) _ _
  | started hold => exact hc.setChain hold (hP.pin _ _) _ _
  | moved _ hold => exact hc.setChain hold (fun ho => hP.pin _ _ (hP.unpin _ _ ho)) _ _
  | finished _ hold => exact hc.setChain hold (hP.unpin _ _) _ _
  | closed _ hold => exact hc.setChain hold (hP.unpin _ _) _ _
  | closedPast => exact ⟨hc.old, hc.holds⟩
  | dropped =>
    refine ⟨hc.old, fun chain hget => ?_⟩
    rw [Table.get?_erase] at hget
    split at hget
    · exact absurd hget (by simp)
    · exact hc.holds chain hget

theorem Reachable.upholds_after {H : Host} {s : State H} (hs : Reachable s) {P : Chain Fn → Prop}
    (hP : Chain.Lasting P) {c : ChainId} (hc : s.heap.scene.Upholds c P) (n : Nat) :
    (s.after n).heap.scene.Upholds c P := by
  induction n with
  | zero => exact hc
  | succ n ih =>
    obtain ⟨deed, hdoes⟩ := (s.after n).step_does
    exact hdoes.change.upholds (hs.after n).coherent hP ih

/-! ## The timeline -/

/-- All slots ever added to `c`, given the additions LATEST first, in the order they were given. -/
def timeline (c : ChainId) : List (ChainId × SlotId × Placement) → List SlotId
  | [] => []
  | (c', x, placement) :: earlier =>
    if c = c' then placement.place x (timeline c earlier) else timeline c earlier

/-- The order of each chain is part of its timeline, on which every slot stands once. -/
structure Scene.Recorded (v : Scene) (additions : List (ChainId × SlotId × Placement)) : Prop where
  nodup : ∀ c, (timeline c additions).Nodup
  order : ∀ c chain, v.chains.get? c = some chain → chain.order.Sublist (timeline c additions)
  seen : ∀ c x, x ∈ timeline c additions → v.Seen c x

theorem Scene.Recorded.empty : Scene.Recorded .empty [] where
  nodup := fun _ => List.nodup_nil
  order := fun _ _ hc => absurd hc (by simp [Scene.empty, Table.get?, Table.find])
  seen := fun _ _ hx => absurd hx (by simp [timeline])

/-- What deeds do to a chain, they do to a part of its timeline. -/
theorem Deed.reorder_sublist (deed : Deed) (c : ChainId) {order : List SlotId}
    {additions : List (ChainId × SlotId × Placement)} (h : order.Sublist (timeline c additions)) :
    (deed.reorder c order).Sublist (timeline c (deed.additions ++ additions)) := by
  cases deed with
  | added c' slot placement =>
    show (if c = c' then placement.place slot order else order).Sublist
      (if c = c' then placement.place slot (timeline c additions) else timeline c additions)
    split
    · exact placement.place_sublist h
    · exact h
  | detached c' slot =>
    rw [reorder]
    split
    · exact List.erase_sublist.trans h
    · exact h
  | cleared c' =>
    rw [reorder]
    split
    · exact List.nil_sublist _
    · exact h
  | _ => exact h

theorem Change.recorded {deed : Deed} {v w : Scene} (h : Change deed v w) (hv : v.Coherent)
    (ha : v.Accounted) {additions : List (ChainId × SlotId × Placement)}
    (hr : v.Recorded additions) :
    w.Recorded (deed.additions ++ additions) := by
  have horder (c : ChainId) (chain' : Chain Fn) (hc : w.chains.get? c = some chain') :
      chain'.order.Sublist (timeline c (deed.additions ++ additions)) := by
    rcases h.reorder hv hc with ⟨-, rfl⟩ | ⟨chain, hchain, ho, -⟩
    · exact List.nil_sublist _
    · exact ho ▸ deed.reorder_sublist c (hr.order c chain hchain)
  by_cases hadded : ∃ c' slot placement, deed = .added c' slot placement
  · -- the new slot bears the next number of its chain, which all earlier ones are below
    obtain ⟨c', slot, placement, rfl⟩ := hadded
    obtain ⟨chain, hchain, hslot⟩ := h.added_nextId
    have hline (c : ChainId) :
        timeline c ((Deed.added c' slot placement).additions ++ additions) =
          if c = c' then placement.place slot (timeline c additions) else timeline c additions := rfl
    constructor
    case nodup =>
      intro c
      rw [hline c]
      split
      · rename_i he
        subst he
        refine placement.nodup_place (hr.nodup c) fun hmem => ?_
        exact absurd ((hr.seen c slot hmem).2 chain hchain) (hslot ▸ Nat.lt_irrefl _)
      · exact hr.nodup c
    case order => exact horder
    case seen =>
      intro c x hx
      rw [hline c] at hx
      split at hx
      · rename_i he
        subst he
        rcases placement.mem_place.1 hx with rfl | hold
        · have hlt := Nat.lt_of_lt_of_le (ha.chain_lt c chain hchain) h.nextChain_le
          refine ⟨hlt, fun chain' hc => ?_⟩
          rcases h.reorder hv hc with ⟨rfl, -⟩ | ⟨chain₁, hchain₁, -, hn⟩
          · exact absurd (ha.chain_lt _ chain hchain) (Nat.lt_irrefl _)
          · obtain rfl := Option.some.inj (hchain.symm.trans hchain₁)
            rw [hn, Deed.renumber, if_pos rfl, hslot]
            exact Nat.lt_succ_self _
        · exact h.seen hv (hr.seen c x hold)
      · exact h.seen hv (hr.seen c x hx)
  · have hnone : deed.additions = [] := by
      cases deed with
      | added c' slot placement => exact absurd ⟨c', slot, placement, rfl⟩ hadded
      | _ => rfl
    rw [hnone] at horder ⊢
    exact ⟨hr.nodup, horder, fun c x hx => h.seen hv (hr.seen c x hx)⟩

/-- All slots ever added to a chain, in the order in which they stand to each other. -/
def State.timeline {H : Host} (s : State H) (c : ChainId) : List SlotId :=
  Relay.timeline c s.additions

theorem Reachable.recorded {H : Host} {s : State H} (hs : Reachable s) :
    s.heap.scene.Recorded s.additions := by
  have hall : s.heap.scene.Coherent ∧ s.heap.scene.Accounted ∧ s.heap.scene.Recorded s.additions :=
    hs.story_induction (P := fun v as => v.Coherent ∧ v.Accounted ∧ v.Recorded as)
      ⟨.empty, .empty, .empty⟩ fun hchange ⟨hv, ha, hr⟩ =>
        ⟨hchange.coherent hv, hchange.accounted hv ha, hchange.recorded hv ha hr⟩
  exact hall.2.2

end Relay
