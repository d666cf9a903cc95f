/-
  The pins of a slot are the dispatches that stand on it.

  `Pinned` compares a chain with a count of who stands where: each slot has as many pins as
  dispatches stand on it, no dispatch stands on a slot that is gone, and a tombstone is there ONLY
  because somebody stands on it.  `Accounted` says so of all chains of a scene, the count being
  taken over the stored dispatches.  A dispatch moves together with its pin in one deed, so every
  deed keeps it.
-/
import Relay.Proofs.Representation

namespace Relay

/-! ## One chain -/

namespace Chain

variable {L : Type}

/-- The pins of a chain are as many as stand on each slot by `stand`. -/
structure Pinned (c : Chain L) (stand : SlotId → Nat) : Prop where
  counted : ∀ x slot, c.slots.get? x = some slot → slot.pins = stand x
  present : ∀ x, 0 < stand x → ∃ slot, c.slots.get? x = some slot
  buried : ∀ x slot, c.slots.get? x = some slot → slot.linked = false → 0 < slot.pins

namespace Pinned

variable {c c' : Chain L} {stand : SlotId → Nat}

/-- Slots may come unpinned, and go unpinned; those that stay keep their pins. -/
theorem congr (h : c.Pinned stand)
    (keep : ∀ x slot, c.slots.get? x = some slot → 0 < slot.pins → ∃ t, c'.slots.get? x = some t)
    (old : ∀ x t, c'.slots.get? x = some t →
      (∃ slot, c.slots.get? x = some slot ∧ t.pins = slot.pins ∧
        (t.linked = false → 0 < slot.pins)) ∨
      (c.slots.get? x = none ∧ t.pins = 0 ∧ t.linked = true)) : c'.Pinned stand where
  counted := by
    intro x t ht
    rcases old x t ht with ⟨slot, hs, hp, -⟩ | ⟨hnone, hp, -⟩
    · rw [hp, h.counted x slot hs]
    · rw [hp]
      -- nobody can stand on a slot that was not there
      by_contra hne
      obtain ⟨slot, hs⟩ := h.present x (Nat.pos_of_ne_zero (Ne.symm hne))
      exact absurd (hnone.symm.trans hs) (by simp)
  present := by
    intro x hx
    obtain ⟨slot, hs⟩ := h.present x hx
    exact keep x slot hs (h.counted x slot hs ▸ hx)
  buried := by
    intro x t ht hdead
    rcases old x t ht with ⟨slot, hs, hp, hb⟩ | ⟨-, -, hlinked⟩
    · rw [hp]
      exact hb hdead
    · rw [hlinked] at hdead
      exact absurd hdead (by simp)

/-- Only how many stand on each slot matters. -/
theorem of_eq (h : c.Pinned stand) {stand' : SlotId → Nat} (heq : ∀ x, stand x = stand' x) :
    c.Pinned stand' :=
  funext heq ▸ h

/-- A chain without slots that nobody stands on. -/
theorem nil (hzero : ∀ x, stand x = 0) : ({} : Chain L).Pinned stand where
  counted := fun _ _ hs => absurd hs (by simp [Table.get?, Table.find])
  present := fun x hx => absurd (hzero x) (Nat.ne_of_gt hx)
  buried := fun _ _ hs => absurd hs (by simp [Table.get?, Table.find])

theorem append (h : c.Pinned stand) (hc : c.Coherent) (l : L) : (c.append l).Pinned stand := by
  apply h.congr
  case keep =>
    intro x slot hs hpinned
    refine Option.isSome_iff_exists.1 ?_
    rw [get?_append]
    split <;> split <;> simp [hs]
  case old =>
    intro x t ht
    by_cases hx : x = c.nextId
    · subst hx
      right
      rw [get?_append] at ht
      simp only [if_neg hc.links.last_ne_nextId, if_true] at ht
      obtain rfl := Option.some.inj ht
      exact ⟨hc.links.get?_nextId, rfl, rfl⟩
    · left
      obtain ⟨slot, hs, -, hlinked, hpins, -⟩ := Links.get?_append_old c l hx ht
      exact ⟨slot, hs, hpins, fun hdead => h.buried x slot hs (hlinked ▸ hdead)⟩

theorem prepend (h : c.Pinned stand) (hc : c.Coherent) (l : L) : (c.prepend l).Pinned stand := by
  apply h.congr
  case keep =>
    intro x slot hs hpinned
    refine Option.isSome_iff_exists.1 ?_
    rw [get?_prepend]
    split <;> split <;> simp [hs]
  case old =>
    intro x t ht
    by_cases hx : x = c.nextId
    · subst hx
      right
      rw [get?_prepend] at ht
      simp only [if_neg hc.links.first_ne_nextId, if_true] at ht
      obtain rfl := Option.some.inj ht
      exact ⟨hc.links.get?_nextId, rfl, rfl⟩
    · left
      obtain ⟨slot, hs, -, hlinked, hpins, -⟩ := Links.get?_prepend_old c l hx ht
      exact ⟨slot, hs, hpins, fun hdead => h.buried x slot hs (hlinked ▸ hdead)⟩

theorem add (h : c.Pinned stand) (hc : c.Coherent) (l : L) (placement : Placement) :
    (c.add l placement).Pinned stand := by
  cases placement with
  | front => exact h.prepend hc l
  | back => exact h.append hc l

/-- Only a pinned slot stays when it is detached. -/
theorem detach (h : c.Pinned stand) (hc : c.Coherent) (id : SlotId) :
    (c.detach id).2.Pinned stand := by
  have hlinks := hc.links
  by_cases hid : id ∈ c.order
  · obtain ⟨gone, hgone, -⟩ := hlinks.exists_slot hid
    apply h.congr
    case keep =>
      intro x slot hs hp
      by_cases hx : x = id
      · subst hx
        obtain rfl := Option.some.inj (hgone.symm.trans hs)
        rw [hlinks.get?_detach_self hid hgone, if_pos hp]
        exact ⟨_, rfl⟩
      · rw [hlinks.get?_detach_ne hid hgone hx, hs]
        exact ⟨_, rfl⟩
    case old =>
      intro x t ht
      left
      by_cases hx : x = id
      · subst hx
        rw [hlinks.get?_detach_self hid hgone] at ht
        split at ht
        · rename_i hp
          obtain rfl := Option.some.inj ht
          exact ⟨gone, hgone, rfl, fun _ => hp⟩
        · exact absurd ht (by simp)
      · rw [hlinks.get?_detach_ne hid hgone hx] at ht
        obtain ⟨slot, hs, rfl⟩ := Option.map_eq_some_iff.1 ht
        exact ⟨slot, hs, rfl, h.buried x slot hs⟩
  · rw [hlinks.detach_of_not_mem hid]
    exact h

/-- Only pinned slots stay when a chain is cleared. -/
theorem clear {shuffle : Shuffle} (h : c.Pinned stand) : (c.clear shuffle).2.Pinned stand := by
  apply h.congr
  case keep =>
    intro x slot hs hp
    rw [get?_clear, hs]
    exact ⟨_, Option.filter_eq_some_iff.2 ⟨rfl, by simpa using Nat.ne_of_gt hp⟩⟩
  case old =>
    intro x t ht
    left
    obtain ⟨slot, hs, hp, rfl⟩ := get?_clear_eq_some c ht
    exact ⟨slot, hs, rfl, fun _ => hp⟩

theorem pin (h : c.Pinned stand) (id : SlotId) (hid : ∃ slot, c.slots.get? id = some slot) :
    (c.pin id).Pinned fun x => if id = x then stand x + 1 else stand x where
  counted := by
    intro x t ht
    rw [get?_pin] at ht
    split at ht
    · rename_i hx
      obtain ⟨slot, hs, rfl⟩ := Option.map_eq_some_iff.1 ht
      rw [if_pos hx, ← h.counted x slot hs]
    · rename_i hx
      rw [if_neg hx, h.counted x t ht]
  present := by
    intro x hx
    rw [get?_pin]
    by_cases he : id = x
    · obtain ⟨slot, hs⟩ := hid
      rw [if_pos he, ← he, hs]
      exact ⟨_, rfl⟩
    · rw [if_neg he] at hx ⊢
      exact h.present x hx
  buried := by
    intro x t ht hdead
    rw [get?_pin] at ht
    split at ht
    · obtain ⟨slot, hs, rfl⟩ := Option.map_eq_some_iff.1 ht
      exact Nat.succ_pos _
    · exact h.buried x t ht hdead

/-- Giving back the last pin on a tombstone takes it away. -/
theorem unpin (h : c.Pinned stand) (id : SlotId) :
    (c.unpin id).2.Pinned fun x => if id = x then stand x - 1 else stand x where
  counted := by
    intro x t ht
    rw [get?_unpin] at ht
    split at ht
    · rename_i hx
      obtain ⟨slot, hs, hu⟩ := Option.bind_eq_some_iff.1 ht
      split at hu
      · exact absurd hu (by simp)
      · obtain rfl := Option.some.inj hu
        rw [if_pos hx, ← h.counted x slot hs]
    · rename_i hx
      rw [if_neg hx, h.counted x t ht]
  present := by
    intro x hx
    rw [get?_unpin]
    by_cases he : id = x
    · rw [if_pos he] at hx ⊢
      -- somebody else still stands on it, so this was not the last pin
      obtain ⟨slot, hs⟩ := h.present x (by omega)
      have hpins : slot.pins = stand x := h.counted x slot hs
      have hstays : ¬(slot.pins - 1 = 0 ∧ slot.linked = false) := by omega
      rw [hs, Option.bind_some, if_neg hstays]
      exact ⟨_, rfl⟩
    · rw [if_neg he] at hx ⊢
      exact h.present x hx
  buried := by
    intro x t ht hdead
    rw [get?_unpin] at ht
    split at ht
    · obtain ⟨slot, hs, hu⟩ := Option.bind_eq_some_iff.1 ht
      split at hu
      · exact absurd hu (by simp)
      · rename_i hstay
        obtain rfl := Option.some.inj hu
        exact Nat.pos_of_ne_zero fun hzero => hstay ⟨hzero, hdead⟩
    · exact h.buried x t ht hdead

end Pinned

end Chain

/-! ## All chains -/

/-- Whether a dispatch stands on a slot, as a number. -/
def Dispatch.standsOn (e : Dispatch) (c : ChainId) (x : SlotId) : Nat :=
  if e = ⟨c, some x⟩ then 1 else 0

theorem Dispatch.standsOn_self (c : ChainId) (y x : SlotId) :
    (⟨c, some y⟩ : Dispatch).standsOn c x = if y = x then 1 else 0 := by
  simp [standsOn]

theorem Dispatch.standsOn_none (c c' : ChainId) (x : SlotId) :
    (⟨c, none⟩ : Dispatch).standsOn c' x = 0 := by
  simp [standsOn]

theorem Dispatch.standsOn_of_ne {e : Dispatch} {c : ChainId} (h : e.chain ≠ c) (x : SlotId) :
    e.standsOn c x = 0 := by
  rw [standsOn, if_neg]
  rintro rfl
  exact h rfl

namespace Scene

/-- How many dispatches stand on a slot. -/
def standing (v : Scene) (c : ChainId) (x : SlotId) : Nat := v.dispatches.total (·.standsOn c x)

/-- Every pin belongs to a dispatch, and everything bears a number that was handed out. -/
structure Accounted (v : Scene) : Prop where
  pinned : ∀ c chain, v.chains.get? c = some chain → chain.Pinned (v.standing c)
  chain_lt : ∀ c chain, v.chains.get? c = some chain → c < v.nextChain
  home_lt : ∀ d e, v.dispatches.get? d = some e → e.chain < v.nextChain
  dispatch_lt : ∀ d e, v.dispatches.get? d = some e → d < v.nextDispatch

theorem standing_pos {v : Scene} {d : DispatchId} {c : ChainId} {x : SlotId}
    (hd : v.dispatches.get? d = some ⟨c, some x⟩) : 0 < v.standing c x := by
  have hle := v.dispatches.le_total (·.standsOn c x) hd
  rw [Dispatch.standsOn, if_pos rfl] at hle
  exact hle

/-- Two dispatches count twice. -/
theorem standing_two {v : Scene} {d d' : DispatchId} {c : ChainId} {x : SlotId} (hne : d ≠ d')
    (hd : v.dispatches.get? d = some ⟨c, some x⟩) (hd' : v.dispatches.get? d' = some ⟨c, some x⟩) :
    1 < v.standing c x := by
  have herase := v.dispatches.total_erase (·.standsOn c x) hd
  have hle := (v.dispatches.erase d).le_total (·.standsOn c x) (k := d') (a := ⟨c, some x⟩)
    (by rw [Table.get?_erase, if_neg hne, hd'])
  simp only [Dispatch.standsOn, if_true] at herase hle
  show 1 < v.dispatches.total (·.standsOn c x)
  simp only [Dispatch.standsOn]
  omega

/-- A dispatch that is written anew leaves the slot it stood on, and stands where it says then. -/
theorem standing_modify {v : Scene} {d : DispatchId} {c : ChainId} {y : SlotId} (new : Dispatch)
    (hd : v.dispatches.get? d = some ⟨c, some y⟩) (x : SlotId) :
    (v.dispatches.modify d fun _ => new).total (·.standsOn c x) =
      (if y = x then v.standing c x - 1 else v.standing c x) + new.standsOn c x := by
  have htotal := v.dispatches.total_modify (·.standsOn c x) (fun _ => new) hd
  have hpos : y = x → 0 < v.standing c x := fun he => he ▸ standing_pos hd
  rw [Dispatch.standsOn_self] at htotal
  change _ = v.standing c x + new.standsOn c x at htotal
  by_cases hy : y = x
  · rw [if_pos hy] at htotal ⊢
    have := hpos hy
    omega
  · rw [if_neg hy] at htotal ⊢
    omega

theorem standing_erase {v : Scene} {d : DispatchId} {c : ChainId} {y : SlotId}
    (hd : v.dispatches.get? d = some ⟨c, some y⟩) (x : SlotId) :
    (v.dispatches.erase d).total (·.standsOn c x) =
      if y = x then v.standing c x - 1 else v.standing c x := by
  have htotal := v.dispatches.total_erase (·.standsOn c x) hd
  rw [Dispatch.standsOn_self] at htotal
  change _ = v.standing c x at htotal
  by_cases hy : y = x
  · rw [if_pos hy] at htotal ⊢
    omega
  · rw [if_neg hy] at htotal ⊢
    omega

/-- On other chains as many stand as before. -/
theorem standing_modify_of_ne {v : Scene} {d : DispatchId} {c : ChainId} {old new : Dispatch}
    (hd : v.dispatches.get? d = some old) (hold : old.chain ≠ c) (hnew : new.chain ≠ c)
    (x : SlotId) :
    (v.dispatches.modify d fun _ => new).total (·.standsOn c x) = v.standing c x := by
  have htotal := v.dispatches.total_modify (·.standsOn c x) (fun _ => new) hd
  rwa [Dispatch.standsOn_of_ne hold, Dispatch.standsOn_of_ne hnew] at htotal

theorem standing_erase_of_zero {v : Scene} {d : DispatchId} {c : ChainId} {x : SlotId}
    {old : Dispatch} (hd : v.dispatches.get? d = some old) (hold : old.standsOn c x = 0) :
    (v.dispatches.erase d).total (·.standsOn c x) = v.standing c x := by
  have htotal := v.dispatches.total_erase (·.standsOn c x) hd
  rwa [hold] at htotal

namespace Accounted

variable {v : Scene}

theorem empty : Accounted .empty where
  pinned := fun _ _ hc => absurd hc (by simp [Scene.empty, Table.get?, Table.find])
  chain_lt := fun _ _ hc => absurd hc (by simp [Scene.empty, Table.get?, Table.find])
  home_lt := fun _ _ hd => absurd hd (by simp [Scene.empty, Table.get?, Table.find])
  dispatch_lt := fun _ _ hd => absurd hd (by simp [Scene.empty, Table.get?, Table.find])

/-- A dispatch stands on a slot that is there. -/
theorem exists_slot (hv : v.Accounted) {d : DispatchId} {c : ChainId} {x : SlotId}
    {chain : Chain Fn}
    (hd : v.dispatches.get? d = some ⟨c, some x⟩) (hc : v.chains.get? c = some chain) :
    ∃ slot, chain.slots.get? x = some slot ∧ 0 < slot.pins := by
  obtain ⟨slot, hs⟩ := (hv.pinned c chain hc).present x (standing_pos hd)
  exact ⟨slot, hs, (hv.pinned c chain hc).counted x slot hs ▸ standing_pos hd⟩

/-- A slot on which another dispatch stands too has a second pin. -/
theorem exists_second_pin (hv : v.Accounted) {d d' : DispatchId} {c : ChainId} {x : SlotId}
    {chain : Chain Fn} (hne : d ≠ d') (hd : v.dispatches.get? d = some ⟨c, some x⟩)
    (hd' : v.dispatches.get? d' = some ⟨c, some x⟩) (hc : v.chains.get? c = some chain) :
    ∃ slot, chain.slots.get? x = some slot ∧ 1 < slot.pins := by
  obtain ⟨slot, hs⟩ := (hv.pinned c chain hc).present x (standing_pos hd)
  exact ⟨slot, hs, (hv.pinned c chain hc).counted x slot hs ▸ standing_two hne hd hd'⟩

/-- The chains are accounted for one by one: one that changes keeps up with those who stand on it,
    and on the others the same dispatches stand as before. -/
theorem setChain (hv : v.Accounted) {c : ChainId} {old chain : Chain Fn}
    {t : Table DispatchId Dispatch} {next : DispatchId} (hc : v.chains.get? c = some old)
    (hpinned : chain.Pinned fun x => t.total (·.standsOn c x))
    (hother : ∀ c', c' ≠ c → ∀ x, t.total (·.standsOn c' x) = v.standing c' x)
    (hhome : ∀ d e, t.get? d = some e → e.chain < v.nextChain ∧ d < next) :
    Accounted { v.setChain c chain with dispatches := t, nextDispatch := next } where
  pinned := by
    intro c' chain' hget
    change (v.setChain c chain).chains.get? c' = some chain' at hget
    rw [get?_setChain chain hc] at hget
    split at hget
    · rename_i he
      obtain rfl := Option.some.inj hget
      subst he
      exact hpinned
    · rename_i he
      exact (hv.pinned c' chain' hget).of_eq fun x => (hother c' (Ne.symm he) x).symm
  chain_lt := by
    intro c' chain' hget
    change (v.setChain c chain).chains.get? c' = some chain' at hget
    rw [get?_setChain chain hc] at hget
    split at hget
    · rename_i he
      exact he ▸ hv.chain_lt c old hc
    · exact hv.chain_lt c' chain' hget
  home_lt := fun d e hget => (hhome d e hget).1
  dispatch_lt := fun d e hget => (hhome d e hget).2

/-- A dispatch that changes stays where it was. -/
theorem lt_of_modify (hv : v.Accounted) {d : DispatchId} {old : Dispatch} (new : Dispatch)
    (hd : v.dispatches.get? d = some old) (hchain : old.chain = new.chain) {d' : DispatchId}
    {e : Dispatch} (hd' : (v.dispatches.modify d fun _ => new).get? d' = some e) :
    e.chain < v.nextChain ∧ d' < v.nextDispatch := by
  rw [Table.get?_modify] at hd'
  split at hd'
  · rename_i he
    obtain ⟨e', he', rfl⟩ := Option.map_eq_some_iff.1 hd'
    subst he
    exact ⟨hchain ▸ hv.home_lt d old hd, hv.dispatch_lt d old hd⟩
  · exact ⟨hv.home_lt d' e hd', hv.dispatch_lt d' e hd'⟩

theorem lt_of_erase (hv : v.Accounted) {d d' : DispatchId} {e : Dispatch}
    (hd' : (v.dispatches.erase d).get? d' = some e) :
    e.chain < v.nextChain ∧ d' < v.nextDispatch := by
  rw [Table.get?_erase] at hd'
  split at hd'
  · exact absurd hd' (by simp)
  · exact ⟨hv.home_lt d' e hd', hv.dispatch_lt d' e hd'⟩

/-- The same where no dispatch moves. -/
theorem setChain_only (hv : v.Accounted) {c : ChainId} {old chain : Chain Fn}
    (hc : v.chains.get? c = some old) (hpinned : chain.Pinned (v.standing c)) :
    (v.setChain c chain).Accounted :=
  hv.setChain hc hpinned (fun _ _ _ => rfl) fun d e hd => ⟨hv.home_lt d e hd, hv.dispatch_lt d e hd⟩

end Accounted

end Scene

/-! ## All deeds -/

/-- A dispatch and its pin move together. -/
theorem Change.accounted {deed : Deed} {v w : Scene} (h : Change deed v w) (hc : v.Coherent)
    (hv : v.Accounted) : w.Accounted := by
  cases h with
  | nothing => exact hv
  | stayed => exact hv
  | opened =>
    constructor
    case pinned =>
      intro c chain hget
      rw [Table.get?_insert] at hget
      split at hget
      · -- nobody stands on a chain whose number was not handed out
        rename_i he
        obtain rfl := Option.some.inj hget
        refine .nil fun x => v.dispatches.total_eq_zero fun d e hd => ?_
        exact Dispatch.standsOn_of_ne (he ▸ Nat.ne_of_lt (hv.home_lt d e hd)) x
      · exact hv.pinned c chain hget
    case chain_lt =>
      intro c chain hget
      rw [Table.get?_insert] at hget
      split at hget
      · rename_i he
        exact he ▸ Nat.lt_succ_self _
      · exact Nat.lt_succ_of_lt (hv.chain_lt c chain hget)
    case home_lt => exact fun d e hd => Nat.lt_succ_of_lt (hv.home_lt d e hd)
    case dispatch_lt => exact hv.dispatch_lt
  | added hget listener placement =>
    exact hv.setChain_only hget ((hv.pinned _ _ hget).add (hc _ _ hget) listener placement)
  | detached hget => exact hv.setChain_only hget ((hv.pinned _ _ hget).detach (hc _ _ hget) _)
  | cleared hget => exact hv.setChain_only hget (hv.pinned _ _ hget).clear
  | @started _ c chain slot hget hfirst =>
    have hnone : v.dispatches.get? v.nextDispatch = none := by
      by_contra hsome
      obtain ⟨e, he⟩ := Option.ne_none_iff_exists'.1 hsome
      exact absurd (hv.dispatch_lt _ e he) (Nat.lt_irrefl _)
    have htotal (c' : ChainId) (x : SlotId) :
        (v.dispatches.insert v.nextDispatch ⟨c, some slot⟩).total (·.standsOn c' x) =
          v.standing c' x + (⟨c, some slot⟩ : Dispatch).standsOn c' x :=
      v.dispatches.total_insert (·.standsOn c' x) ⟨c, some slot⟩ hnone
    obtain ⟨stored, hs, -⟩ :=
      (hc c chain hget).links.exists_slot ((hc c chain hget).first_mem hfirst)
    apply hv.setChain hget
    case hpinned =>
      refine ((hv.pinned c chain hget).pin slot ⟨stored, hs⟩).of_eq fun x => ?_
      rw [htotal, Dispatch.standsOn_self]
      split <;> rfl
    case hother =>
      intro c' hne x
      rw [htotal, Dispatch.standsOn_of_ne hne.symm]
      rfl
    case hhome =>
      intro d e hd
      rw [Table.get?_insert] at hd
      split at hd
      · rename_i he
        obtain rfl := Option.some.inj hd
        exact ⟨hv.chain_lt c chain hget, he ▸ Nat.lt_succ_self _⟩
      · exact ⟨hv.home_lt d e hd, Nat.lt_succ_of_lt (hv.dispatch_lt d e hd)⟩
  | @moved _ d c chain slot next hd hget hnext =>
    -- the slot that comes next is stored even after the pin on the old one is gone
    have hunpinned := (hc c chain hget).links.unpin slot
    obtain ⟨stored, hs, -⟩ := hunpinned.exists_slot ((hc c chain hget).links.following_mem hnext)
    apply hv.setChain hget
    case hpinned =>
      refine (((hv.pinned c chain hget).unpin slot).pin next ⟨stored, hs⟩).of_eq fun x => ?_
      refine Eq.trans ?_ (Scene.standing_modify ⟨c, some next⟩ hd x).symm
      rw [Dispatch.standsOn_self]
      split <;> rfl
    case hother => exact fun c' hne x => Scene.standing_modify_of_ne hd hne.symm hne.symm x
    case hhome => exact fun d' e hd' => hv.lt_of_modify ⟨c, some next⟩ hd rfl hd'
  | @finished _ d c chain slot hd hget hend =>
    apply hv.setChain hget
    case hpinned =>
      refine ((hv.pinned c chain hget).unpin slot).of_eq fun x => ?_
      refine Eq.trans ?_ (Scene.standing_modify ⟨c, none⟩ hd x).symm
      rw [Dispatch.standsOn_none, Nat.add_zero]
    case hother => exact fun c' hne x => Scene.standing_modify_of_ne hd hne.symm hne.symm x
    case hhome => exact fun d' e hd' => hv.lt_of_modify ⟨c, none⟩ hd rfl hd'
  | @closed _ d c chain slot hd hget =>
    apply hv.setChain hget
    case hpinned =>
      exact ((hv.pinned c chain hget).unpin slot).of_eq fun x => (Scene.standing_erase hd x).symm
    case hother =>
      exact fun c' hne x => Scene.standing_erase_of_zero hd (Dispatch.standsOn_of_ne hne.symm x)
    case hhome => exact fun d' e hd' => hv.lt_of_erase hd'
  | @closedPast _ d c cursor hd hpast =>
    constructor
    case pinned =>
      intro c' chain hget
      refine (hv.pinned c' chain hget).of_eq fun x => ?_
      -- past the end it stands nowhere, and if its chain has gone, on none of these
      have hzero : (⟨c, cursor⟩ : Dispatch).standsOn c' x = 0 := by
        cases cursor with
        | none => exact Dispatch.standsOn_none c c' x
        | some y =>
          refine Dispatch.standsOn_of_ne (fun he => ?_) x
          have hgone := hpast y rfl
          rw [show c = c' from he, hget] at hgone
          exact absurd hgone (by simp)
      exact (Scene.standing_erase_of_zero hd hzero).symm
    case chain_lt => exact hv.chain_lt
    case home_lt => exact fun d' e hd' => (hv.lt_of_erase hd').1
    case dispatch_lt => exact fun d' e hd' => (hv.lt_of_erase hd').2
  | @dropped _ c chain hget =>
    have hstored {c' : ChainId} {chain' : Chain Fn} (h : (v.chains.erase c).get? c' = some chain') :
        v.chains.get? c' = some chain' := by
      rw [Table.get?_erase] at h
      split at h
      · exact absurd h (by simp)
      · exact h
    constructor
    case pinned => exact fun c' chain' h => hv.pinned c' chain' (hstored h)
    case chain_lt => exact fun c' chain' h => hv.chain_lt c' chain' (hstored h)
    case home_lt => exact hv.home_lt
    case dispatch_lt => exact hv.dispatch_lt

/-! ## Runs -/

theorem Reachable.accounted {H : Host} {s : State H} (hs : Reachable s) :
    s.heap.scene.Accounted := by
  have hboth : s.heap.scene.Coherent ∧ s.heap.scene.Accounted :=
    hs.scene_induction (P := fun v => v.Coherent ∧ v.Accounted)
      ⟨.empty, .empty⟩ fun hchange hv => ⟨hchange.coherent hv.1, hchange.accounted hv.1 hv.2⟩
  exact hboth.2

end Relay
