/-
  Chains that differ in their PINS only.

  A dispatch that starts, moves on and ends takes pins and gives them back.  `Chain.bare` is a chain
  without its pins: what else is stored, entry by entry, and in the order in which it is stored.  As
  long as the list of a chain stays the same, and whoever leaves a slot leaves a linked one, the bare
  chain stays the same (`Change.bare_eq`).  Pins are dispatches, so if the same dispatches stand on
  the same slots as before, the whole chain is what it was (`Chain.Pinned.eq_of_bare`).
-/
import Relay.Proofs.Order

namespace Relay

/-! ## Tables that answer alike -/

namespace Table

variable {κ α : Type} [DecidableEq κ]

/-- A total does not depend on the order in which things were stored. -/
theorem total_congr {t u : Table κ α} (h : ∀ k, t.get? k = u.get? k) (w : α → Nat) :
    t.total w = u.total w := by
  have hperm : t.entries.Perm u.entries := by
    refine (List.perm_ext_iff_of_nodup t.distinct.of_map u.distinct.of_map).2 fun e => ?_
    rw [← Prod.mk.eta (p := e), ← get?_eq_some_iff, h, get?_eq_some_iff]
  exact ((hperm.map Prod.snd).map w).sum_nat

/-- Tables with the same keys in the same order, and that answer alike, are the same. -/
theorem ext_get? {t u : Table κ α} (hk : t.entries.map (·.1) = u.entries.map (·.1))
    (hg : ∀ k, t.get? k = u.get? k) : t = u := by
  have hlength : t.entries.length = u.entries.length := by simpa using congrArg List.length hk
  refine ext_entries (List.ext_getElem hlength fun i hi hi' => ?_)
  have hkey : t.entries[i].1 = u.entries[i].1 := by
    have hat := congrArg (fun keys => keys[i]?) hk
    simpa [hi, hi'] using hat
  have ht : t.get? t.entries[i].1 = some t.entries[i].2 :=
    (get?_eq_some_iff _ _ _).2 (List.getElem_mem hi)
  have hu : u.get? u.entries[i].1 = some u.entries[i].2 :=
    (get?_eq_some_iff _ _ _).2 (List.getElem_mem hi')
  rw [hg, hkey, hu] at ht
  exact Prod.ext hkey (Option.some.inj ht).symm

/-- What a function does not see may be changed before it is applied. -/
theorem mapValues_modify {β : Type} (t : Table κ α) (k : κ) {f : α → α} {g : α → β}
    (h : ∀ a, g (f a) = g a) : (t.modify k f).mapValues g = t.mapValues g := by
  refine ext_entries ?_
  simp only [mapValues, modify, map, List.map_map]
  refine List.map_congr_left fun e _ => ?_
  by_cases he : e.1 = k <;> simp [he, h]

end Table

namespace Chain

variable {L : Type}

/-! ## Without pins -/

/-- The chain with all its pins taken off. -/
def bare (c : Chain L) : Chain L :=
  { c with slots := c.slots.mapValues fun slot => { slot with pins := 0 } }

theorem bare_modifyPins (c : Chain L) (id : SlotId) (f : Nat → Nat) :
    ({ c with slots := c.slots.modify id fun slot => { slot with pins := f slot.pins } } :
      Chain L).bare = c.bare := by
  have hslots : (c.slots.modify id fun slot => { slot with pins := f slot.pins }).mapValues
      (fun slot => { slot with pins := 0 }) = c.slots.mapValues fun slot => { slot with pins := 0 } :=
    c.slots.mapValues_modify id fun _ => rfl
  exact congrArg (fun slots => ({ c with slots } : Chain L)) hslots

theorem bare_pin (c : Chain L) (id : SlotId) : (c.pin id).bare = c.bare :=
  c.bare_modifyPins id (· + 1)

/-- A pin that is given back on a linked slot takes nothing away. -/
theorem bare_unpin (c : Chain L) {id : SlotId} (hid : c.contains id = true) :
    (c.unpin id).2.bare = c.bare := by
  unfold unpin
  cases hs : c.slots.get? id with
  | none => rfl
  | some slot =>
    have hlinked : slot.linked = true := by rwa [contains, hs] at hid
    dsimp only
    rw [if_neg (by simp [hlinked])]
    exact c.bare_modifyPins id (· - 1)

theorem contains_bare (c : Chain L) (x : SlotId) : c.bare.contains x = c.contains x := by
  rw [contains, bare, Table.get?_mapValues, Option.map_map, contains]
  rfl

/-- What is stored in a chain without listeners is cut off already, and pinned. -/
theorem clear_eq_self {c : Chain L} {stand : SlotId → Nat} {shuffle : Shuffle} (h : c.Coherent) (hp : c.Pinned stand)
    (ho : c.order = []) : (c.clear shuffle).2 = c := by
  have hcut : ∀ e ∈ c.slots.entries,
      ({ e.2 with linked := false, before := none, after := none } : Slot L) = e.2 ∧
        0 < e.2.pins := by
    intro e he
    have hs : c.slots.get? e.1 = some e.2 := (Table.get?_eq_some_iff _ _ _).2 he
    have hdead : e.2.linked = false := by
      have hout : ¬c.contains e.1 = true := by rw [← h.visits, ho]; exact List.not_mem_nil
      rw [contains, hs] at hout
      exact Bool.not_eq_true _ ▸ hout
    obtain ⟨hbefore, hafter⟩ := h.tombstone e.1 e.2 hs hdead
    have hnone : e.2.after = none := by
      by_contra hsome
      obtain ⟨y, hy⟩ := Option.ne_none_iff_exists'.1 hsome
      have hmem := (h.visits y).2 (hafter y hy)
      rw [ho] at hmem
      exact absurd hmem List.not_mem_nil
    refine ⟨?_, hp.buried e.1 e.2 hs hdead⟩
    obtain ⟨x, listener, before, after, linked, pins⟩ := e
    dsimp only at hdead hbefore hnone
    rw [hdead, hbefore, hnone]
  have hslots : (c.clear shuffle).2.slots = c.slots := by
    refine Table.ext_entries ?_
    show (c.slots.entries.map fun e => (e.1, ({ e.2 with
      linked := false, before := none, after := none } : Slot L))).filter (fun e => e.2.pins != 0) =
        c.slots.entries
    have hmap : (c.slots.entries.map fun e => (e.1, ({ e.2 with
        linked := false, before := none, after := none } : Slot L))) = c.slots.entries := by
      conv_rhs => rw [← List.map_id c.slots.entries]
      exact List.map_congr_left fun e he => by rw [(hcut e he).1]; rfl
    rw [hmap]
    exact List.filter_eq_self.2 fun e he => by simpa using Nat.ne_of_gt (hcut e he).2
  have hfirst : c.first = none := by rw [h.begins, ho]; rfl
  have hlast : c.last = none := by rw [h.ends, ho]; rfl
  have hsize : c.size = 0 := by rw [← h.steps, ho]; rfl
  obtain ⟨slots, first, last, size, nextId⟩ := c
  dsimp only at hfirst hlast hsize
  subst hfirst hlast hsize
  exact congrArg (fun slots' => (⟨slots', none, none, 0, nextId⟩ : Chain L)) hslots

/-- The pins are all that a bare chain lacks. -/
theorem eq_of_bare {c c' : Chain L} (hb : c'.bare = c.bare)
    (hp : ∀ x slot slot', c.slots.get? x = some slot → c'.slots.get? x = some slot' →
      slot'.pins = slot.pins) : c' = c := by
  obtain ⟨slots, first, last, size, nextId⟩ := c
  obtain ⟨slots', first', last', size', nextId'⟩ := c'
  obtain ⟨hslots, rfl, rfl, rfl, rfl⟩ := Chain.mk.inj hb
  have hkeys : slots'.entries.map (·.1) = slots.entries.map (·.1) := by
    have hentries := congrArg (fun t => t.entries.map (·.1)) hslots
    simpa only [Table.mapValues, Table.map, List.map_map, Function.comp_def] using hentries
  refine congrArg (fun slots => (⟨slots, _, _, _, _⟩ : Chain L)) (Table.ext_get? hkeys fun x => ?_)
  have hx := congrArg (fun t => t.get? x) hslots
  simp only [Table.get?_mapValues] at hx
  cases hs : slots.get? x with
  | none => simpa [hs] using hx
  | some slot =>
    rw [hs] at hx
    obtain ⟨slot', hs', hslot⟩ := Option.map_eq_some_iff.1 hx
    have hpins := hp x slot slot' hs hs'
    obtain ⟨listener, before, after, linked, pins⟩ := slot
    obtain ⟨listener', before', after', linked', pins'⟩ := slot'
    obtain ⟨rfl, rfl, rfl, rfl, -⟩ := Slot.mk.inj hslot
    rw [hs', show pins' = pins from hpins]

theorem Pinned.eq_of_bare {c c' : Chain L} {stand stand' : SlotId → Nat} (h : c.Pinned stand)
    (h' : c'.Pinned stand') (hstand : ∀ x, stand' x = stand x) (hb : c'.bare = c.bare) : c' = c :=
  Chain.eq_of_bare hb fun x slot slot' hs hs' => by
    rw [h'.counted x slot' hs', h.counted x slot hs, hstand]

end Chain

/-! ## One deed -/

/-- If a chain keeps its list, and whoever leaves a slot leaves a linked one, then of all that is
    stored in the chain nothing changes but pins. -/
theorem Change.bare_eq {deed : Deed} {v w : Scene} (h : Change deed v w) (hv : v.Coherent)
    (ha : v.Accounted) {c : ChainId} {chain chain' : Chain Fn} (hc : v.chains.get? c = some chain)
    (hc' : w.chains.get? c = some chain') (ho : chain'.order = chain.order)
    (hleft : ∀ d x, deed.next? = some d ∨ deed = .closed d →
      v.dispatches.get? d = some ⟨c, some x⟩ → chain.contains x = true) :
    chain'.bare = chain.bare := by
  have hchain : chain.Coherent := hv c chain hc
  have same (hget : v.chains.get? c = some chain') : chain'.bare = chain.bare := by
    rw [Option.some.inj (hget.symm.trans hc)]
  -- where one chain is written anew, it is this one or it does not matter
  have one {c₁ : ChainId} {old new : Chain Fn} (hold : v.chains.get? c₁ = some old)
      (hget : (v.setChain c₁ new).chains.get? c = some chain')
      (hnew : c₁ = c → old = chain → chain' = new → new.bare = chain.bare) :
      chain'.bare = chain.bare := by
    rw [Scene.get?_setChain new hold] at hget
    split at hget
    · rename_i he
      subst he
      have hnew' := Option.some.inj hget
      rw [← hnew']
      exact hnew rfl (Option.some.inj (hold.symm.trans hc)) hnew'.symm
    · exact same hget
  cases h with
  | nothing => exact same hc'
  | stayed => exact same hc'
  | closedPast => exact same hc'
  | opened =>
    rw [Table.get?_insert, if_neg (Nat.ne_of_gt (ha.chain_lt c chain hc))] at hc'
    exact same hc'
  | dropped =>
    rw [Table.get?_erase] at hc'
    split at hc'
    · exact absurd hc' (by simp)
    · exact same hc'
  | @added _ c₁ old hold listener placement =>
    refine one hold hc' fun _ he hn => ?_
    subst he
    have hlength := congrArg List.length ho
    rw [hn, Chain.order_add hchain, placement.length_place] at hlength
    omega
  | @detached _ c₁ old slot hold hslot =>
    refine one hold hc' fun _ he hn => ?_
    subst he
    have hmem := (hchain.visits slot).2 hslot
    have hlength := congrArg List.length ho
    have hpos := List.length_pos_of_mem hmem
    rw [hn, Chain.order_detach hchain, List.length_erase_of_mem hmem] at hlength
    omega
  | @cleared _ c₁ old _ hold =>
    refine one hold hc' fun _ he hn => ?_
    subst he
    rw [hn, Chain.order_clear hchain] at ho
    rw [Chain.clear_eq_self hchain (ha.pinned c old hc) ho.symm]
  | @started _ c₁ old slot hold =>
    exact one hold hc' fun _ he _ => he ▸ old.bare_pin slot
  | @moved _ d c₁ old slot next hd hold =>
    refine one hold hc' fun hsame he _ => ?_
    subst hsame he
    rw [Chain.bare_pin, old.bare_unpin (hleft d slot (.inl rfl) hd)]
  | @finished _ d c₁ old slot hd hold =>
    refine one hold hc' fun hsame he _ => ?_
    subst hsame he
    exact old.bare_unpin (hleft d slot (.inl rfl) hd)
  | @closed _ d c₁ old slot hd hold =>
    refine one hold hc' fun hsame he _ => ?_
    subst hsame he
    exact old.bare_unpin (hleft d slot (.inr rfl) hd)

end Relay
