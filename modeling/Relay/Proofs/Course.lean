/-
  What each deed does to what is left to a dispatch.

  A dispatch that stands on a slot has the rest of that slot before it.  Whatever OTHERS do to the
  chain is plain list surgery on that rest (`Deed.surgery`), wherever the dispatch stands, on a
  linked slot or on a tombstone (`Change.course`).  Its own `next` takes the head of the rest, or
  ends (`Change.advance`).  The pins carry both proofs: a slot that somebody stands on is not taken
  away.
-/
import Relay.Proofs.Order

namespace Relay

/-! ## Surgery on what is left -/

/-- What is left to a dispatch on `c` after somebody else's deed; `gone` says that the slot on which
    it stands has been removed. -/
def Deed.surgery (c : ChainId) (gone : Bool) (rest : List SlotId) : Deed → List SlotId
  | .added c' slot .back =>
    -- behind a removed slot without a way forward nothing is ever seen again
    if c = c' ∧ ¬(gone = true ∧ rest = []) then rest ++ [slot] else rest
  | .detached c' slot => if c = c' then rest.erase slot else rest
  | .cleared c' => if c = c' then [] else rest
  | _ => rest

namespace Scene

theorem get?_setDispatch_self {v : Scene} {d : DispatchId} {old new : Dispatch} {c : ChainId}
    {chain : Chain Fn} (hd : v.dispatches.get? d = some old) :
    ((v.setChain c chain).setDispatch d new).dispatches.get? d = some new := by
  show (v.dispatches.modify d fun _ => new).get? d = some new
  rw [Table.get?_modify, if_pos rfl, hd]
  rfl

theorem get?_setDispatch_ne {v : Scene} {d d' : DispatchId} {new : Dispatch} {c : ChainId}
    {chain : Chain Fn} (hne : d ≠ d') :
    ((v.setChain c chain).setDispatch d new).dispatches.get? d' = v.dispatches.get? d' := by
  show (v.dispatches.modify d fun _ => new).get? d' = _
  rw [Table.get?_modify, if_neg hne]

/-- Dispatch `d` stands on slot `x` of the chain numbered `c`, and `rest` is left to it. -/
def Left (v : Scene) (d : DispatchId) (c : ChainId) (x : SlotId) (rest : List SlotId) : Prop :=
  v.dispatches.get? d = some ⟨c, some x⟩ ∧
    ∃ chain, v.chains.get? c = some chain ∧ chain.rest x = rest

/-- Where the chain of a dispatch changes, what is left to it is read off the new one. -/
theorem left_setChain {v : Scene} {d : DispatchId} {c c' : ChainId} {x : SlotId}
    {chain old new : Chain Fn}
    {t : Table DispatchId Dispatch} {next : DispatchId} {rest : List SlotId}
    (hd : t.get? d = some ⟨c, some x⟩) (hc : v.chains.get? c = some chain)
    (hold : v.chains.get? c' = some old) (hnew : c = c' → chain = old → new.rest x = rest)
    (hsame : c ≠ c' → chain.rest x = rest) :
    Left { v.setChain c' new with dispatches := t, nextDispatch := next } d c x rest := by
  refine ⟨hd, ?_⟩
  have hget := get?_setChain new hold c
  by_cases he : c = c'
  · subst he
    have hchain : chain = old := Option.some.inj (hc.symm.trans hold)
    exact ⟨new, hget.trans (if_pos rfl), hnew rfl hchain⟩
  · exact ⟨chain, hget.trans ((if_neg (Ne.symm he)).trans hc), hsame he⟩

end Scene

/-! ## The dispatches -/

theorem Change.nextDispatch_le {deed : Deed} {v w : Scene} (h : Change deed v w) :
    v.nextDispatch ≤ w.nextDispatch := by
  cases h with
  | started => exact Nat.le_succ _
  | _ => exact Nat.le_refl _

/-- A deed leaves a dispatch alone, or is its own `next`, its end or its start. -/
theorem Change.dispatch_cases {deed : Deed} {v w : Scene} (h : Change deed v w) (d : DispatchId) :
    w.dispatches.get? d = v.dispatches.get? d ∨
    (deed.next? = some d ∧ ∃ c x, v.dispatches.get? d = some ⟨c, some x⟩) ∨
    (deed = .closed d ∧ w.dispatches.get? d = none) ∨
    ∃ c x chain, deed = .started ⟨c, x, d⟩ ∧ d = v.nextDispatch ∧ w.nextDispatch = d + 1 ∧
      w.dispatches.get? d = some ⟨c, some x⟩ ∧ w.chains.get? c = some chain ∧
        chain.first = some x := by
  cases h with
  | @started _ c chain slot hc hfirst =>
    by_cases hd : v.nextDispatch = d
    · subst hd
      refine .inr (.inr (.inr ⟨c, slot, chain.pin slot, rfl, rfl, rfl, ?_, ?_, hfirst⟩))
      · rw [Table.get?_insert, if_pos rfl]
      · exact (Scene.get?_setChain _ hc c).trans (if_pos rfl)
    · left
      rw [Table.get?_insert, if_neg hd]
  | @moved _ d' c chain slot next hd' hc hnext =>
    by_cases hd : d' = d
    · subst hd
      exact .inr (.inl ⟨rfl, c, slot, hd'⟩)
    · exact .inl (Scene.get?_setDispatch_ne hd)
  | @finished _ d' c chain slot hd' hc hend =>
    by_cases hd : d' = d
    · subst hd
      exact .inr (.inl ⟨rfl, c, slot, hd'⟩)
    · exact .inl (Scene.get?_setDispatch_ne hd)
  | @closed _ d' c chain slot hd' hc =>
    by_cases hd : d' = d
    · subst hd
      exact .inr (.inr (.inl ⟨rfl, by rw [Table.get?_erase, if_pos rfl]⟩))
    · left
      rw [Table.get?_erase, if_neg hd]
  | @closedPast _ d' c cursor hd' hpast =>
    by_cases hd : d' = d
    · subst hd
      exact .inr (.inr (.inl ⟨rfl, by rw [Table.get?_erase, if_pos rfl]⟩))
    · left
      rw [Table.get?_erase, if_neg hd]
  | _ => exact .inl rfl

theorem Change.closed_dispatch {d : DispatchId} {v w : Scene} (h : Change (.closed d) v w) :
    w.dispatches.get? d = none := by
  cases h <;> exact (Table.get?_erase _ _ _).trans (if_pos rfl)

theorem Change.dropped_chain {c : ChainId} {v w : Scene} (h : Change (.dropped c) v w) :
    w.chains.get? c = none ∧ w.dispatches = v.dispatches := by
  cases h
  exact ⟨(Table.get?_erase _ _ _).trans (if_pos rfl), rfl⟩

/-! ## Deeds of others -/

/-- While a dispatch is neither moved nor closed, and its chain is there, it stays where it is, and
    what is left to it changes by plain surgery. -/
theorem Change.course {deed : Deed} {v w : Scene} (h : Change deed v w) (hv : v.Coherent)
    (ha : v.Accounted) {d : DispatchId} {c : ChainId} {x : SlotId} {chain : Chain Fn}
    (hd : v.dispatches.get? d = some ⟨c, some x⟩) (hc : v.chains.get? c = some chain)
    (hother : deed.next? ≠ some d) (hopen : deed ≠ .closed d) (hstays : deed ≠ .dropped c) :
    w.Left d c x (deed.surgery c (!chain.contains x) (chain.rest x)) := by
  obtain ⟨stand, hstand, hpins⟩ := ha.exists_slot hd hc
  have hlinks := (hv c chain hc).links
  have hold : x ≠ chain.nextId := Nat.ne_of_lt (hlinks.lt_nextId hstand)
  -- a slot that `d` shares with another dispatch outlives the other's pin
  have hshared {d' : DispatchId} {c' : ChainId} {y : SlotId} {chain' : Chain Fn} (hne : d' ≠ d)
      (hd' : v.dispatches.get? d' = some ⟨c', some y⟩) (he : c = c') (ho : chain = chain') :
      (chain'.unpin y).2.rest x = chain.rest x := by
    subst he ho
    refine hlinks.rest_unpin y fun hxy => ?_
    obtain ⟨slot, hs, hp⟩ := ha.exists_second_pin hne.symm hd (hxy ▸ hd') hc
    exact ⟨slot, hs, .inr hp⟩
  cases h with
  | nothing => exact ⟨hd, chain, hc, rfl⟩
  | stayed => exact ⟨hd, chain, hc, rfl⟩
  | opened =>
    refine ⟨hd, chain, ?_, rfl⟩
    rw [Table.get?_insert, if_neg (Nat.ne_of_gt (ha.chain_lt c chain hc)), hc]
  | @added _ c' old hold' listener placement =>
    apply Scene.left_setChain hd hc hold'
    case hnew =>
      rintro rfl rfl
      cases placement with
      | front => exact hlinks.rest_prepend listener hold
      | back =>
        show (chain.append listener).rest x = _
        rw [hlinks.rest_append listener hold, Deed.surgery]
        by_cases hgone : chain.contains x = false ∧ chain.rest x = []
        · rw [if_pos hgone, if_neg (by simp [hgone.1, hgone.2]), hgone.2]
        · rw [if_neg hgone, if_pos ⟨rfl, by simpa using hgone⟩]
    case hsame =>
      intro hne
      cases placement with
      | front => rfl
      | back => exact (if_neg fun h => hne h.1).symm
  | @detached _ c' old id hold' hid =>
    apply Scene.left_setChain hd hc hold'
    case hnew =>
      -- its own slot may be the one that is detached, but `d` keeps it there as a tombstone
      rintro rfl rfl
      rw [Deed.surgery, if_pos rfl]
      exact hlinks.rest_detach id fun _ => ⟨stand, hstand, hpins⟩
    case hsame => exact fun hne => (if_neg hne).symm
  | @cleared _ c' old _ hold' =>
    apply Scene.left_setChain hd hc hold'
    case hnew =>
      rintro rfl rfl
      rw [Deed.surgery, if_pos rfl]
      exact hlinks.rest_clear _ x
    case hsame => exact fun hne => (if_neg hne).symm
  | @started _ c' old first hold' hfirst =>
    have hsame :
        (v.dispatches.insert v.nextDispatch ⟨c', some first⟩).get? d = some ⟨c, some x⟩ := by
      rw [Table.get?_insert, if_neg (Nat.ne_of_gt (ha.dispatch_lt d _ hd)), hd]
    apply Scene.left_setChain hsame hc hold'
    case hnew =>
      rintro rfl rfl
      exact hlinks.rest_pin first x
    case hsame => exact fun _ => rfl
  | @moved _ d' c' old slot next hd' hold' hnext =>
    have hne : d' ≠ d := fun he => hother (congrArg some he)
    apply Scene.left_setChain ((Scene.get?_setDispatch_ne hne).trans hd) hc hold'
    case hnew =>
      intro he ho
      rw [((hv c' old hold').links.unpin slot).rest_pin]
      exact hshared hne hd' he ho
    case hsame => exact fun _ => rfl
  | @finished _ d' c' old slot hd' hold' hend =>
    have hne : d' ≠ d := fun he => hother (congrArg some he)
    exact Scene.left_setChain ((Scene.get?_setDispatch_ne hne).trans hd) hc hold' (hshared hne hd')
      fun _ => rfl
  | @closed _ d' c' old slot hd' hold' =>
    have hne : d' ≠ d := fun he => hopen (congrArg _ he)
    have hsame : (v.dispatches.erase d').get? d = some ⟨c, some x⟩ := by
      rw [Table.get?_erase, if_neg hne, hd]
    exact Scene.left_setChain hsame hc hold' (hshared hne hd') fun _ => rfl
  | @closedPast _ d' c' cursor hd' hpast =>
    have hne : d' ≠ d := fun he => hopen (congrArg _ he)
    exact ⟨by rw [Table.get?_erase, if_neg hne, hd], chain, hc, rfl⟩
  | @dropped _ c' old hold' =>
    have hne : c' ≠ c := fun he => hstays (congrArg _ he)
    exact ⟨hd, chain, by rw [Table.get?_erase, if_neg hne, hc], rfl⟩

/-! ## Its own `next` -/

/-- A dispatch's own `next` takes the first slot that is left, or ends if there is none. -/
theorem Change.advance {deed : Deed} {v w : Scene} (h : Change deed v w) (hv : v.Coherent)
    {d : DispatchId} {c : ChainId} {x : SlotId} {chain : Chain Fn}
    (hd : v.dispatches.get? d = some ⟨c, some x⟩) (hc : v.chains.get? c = some chain)
    (hown : deed.next? = some d) :
    match chain.rest x with
    | [] => w.dispatches.get? d = some ⟨c, none⟩
    | y :: rest => w.Left d c y rest := by
  have hlinks := (hv c chain hc).links
  obtain ⟨hsuffix, hhead⟩ := hlinks.rest_spec x
  cases h with
  | @moved _ d' c' old slot next hd' hold' hnext =>
    obtain rfl : d' = d := Option.some.inj hown
    obtain ⟨rfl, hslot⟩ := Dispatch.mk.inj (Option.some.inj (hd.symm.trans hd'))
    obtain rfl := Option.some.inj hslot
    obtain rfl := Option.some.inj (hc.symm.trans hold')
    rw [hnext] at hhead
    cases hrest : chain.rest x with
    | nil => rw [hrest] at hhead; exact absurd hhead (by simp)
    | cons y rest =>
      rw [hrest] at hhead hsuffix
      obtain rfl : next = y := Option.some.inj hhead
      have hmem : next ∈ chain.order := hsuffix.subset List.mem_cons_self
      -- the new slot is linked, so it stays even if the pin that is given back was on it
      have hstays : next = x → ∃ slot, chain.slots.get? next = some slot ∧
          (slot.linked = true ∨ 1 < slot.pins) := by
        intro _
        obtain ⟨slot, hs, hlinked⟩ := hlinks.exists_slot hmem
        exact ⟨slot, hs, .inl hlinked⟩
      have hleft : ((chain.unpin x).2.pin next).rest next = rest := by
        rw [(hlinks.unpin x).rest_pin, hlinks.rest_unpin x hstays]
        exact suffix_unique hlinks.nodup (hlinks.cons_rest_suffix hmem) hsuffix
      exact Scene.left_setChain (Scene.get?_setDispatch_self hd) hc hc (fun _ _ => hleft)
        fun hne => absurd rfl hne
  | @finished _ d' c' old slot hd' hold' hend =>
    obtain rfl : d' = d := Option.some.inj hown
    obtain ⟨rfl, hslot⟩ := Dispatch.mk.inj (Option.some.inj (hd.symm.trans hd'))
    obtain rfl := Option.some.inj hslot
    obtain rfl := Option.some.inj (hc.symm.trans hold')
    cases hrest : chain.rest x with
    | nil => exact Scene.get?_setDispatch_self hd
    | cons y rest =>
      -- the look-up of the slot that comes next cannot fail, for it is linked
      rw [hrest] at hhead hsuffix
      obtain ⟨slot, hs, -⟩ := (hlinks.unpin x).exists_slot (hsuffix.subset List.mem_cons_self)
      have hnone := hend y hhead
      rw [Chain.listener?, hs] at hnone
      exact absurd hnone (by simp)
  | stayed hnowhere =>
    obtain rfl := Option.some.inj hown
    rw [hnowhere c x hd] at hc
    exact absurd hc (by simp)
  | _ => exact absurd hown (by simp [Deed.next?])

end Relay
