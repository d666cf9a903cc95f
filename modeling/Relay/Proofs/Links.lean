/-
  What holds of the links of a chain, between any two operations.

  `Links c ids` says that `c` is a well-made chain whose linked slots are `ids` in dispatch order:
  the links run through `ids` forwards and, turned round, backwards; the ends and the size agree
  with it; a TOMBSTONE knows nothing before it and has a way forward only to a linked slot; and
  every slot number was handed out.  Every operation keeps this and does to `ids` what its name
  says, and that is all that later proofs need to know about how links are stored.
-/
import Relay.Chain.Basic
import Relay.Proofs.Thread

namespace Relay
namespace Chain

variable {L : Type}

/-- The slot that comes before in dispatch order; before a tombstone there is none. -/
def preceding (c : Chain L) (id : SlotId) : Option SlotId := (c.slots.get? id).bind (·.before)

/-- `c` is a well-made chain whose linked slots are `ids`, in dispatch order. -/
structure Links (c : Chain L) (ids : List SlotId) : Prop where
  nodup : ids.Nodup
  first : c.first = ids.head?
  last : c.last = ids.getLast?
  size : c.size = ids.length
  linked : ∀ id, c.contains id = true ↔ id ∈ ids
  forth : Threaded c.following ids
  back : Threaded c.preceding ids.reverse
  /-- A tombstone has nothing before it, and after it only what is linked. -/
  buried : ∀ id slot, c.slots.get? id = some slot → slot.linked = false →
    slot.before = none ∧ ∀ y, slot.after = some y → y ∈ ids
  fresh : ∀ id, c.slots.contains id = true → id < c.nextId

/-! ## What setting a link leaves alone -/

@[simp] theorem size_setAfter (c : Chain L) (id after : Option SlotId) :
    (c.setAfter id after).size = c.size := by unfold setAfter; split <;> rfl

@[simp] theorem nextId_setAfter (c : Chain L) (id after : Option SlotId) :
    (c.setAfter id after).nextId = c.nextId := by unfold setAfter; split <;> rfl

@[simp] theorem last_setAfter (c : Chain L) (id after : Option SlotId) :
    (c.setAfter id after).last = c.last := by unfold setAfter; split <;> rfl

@[simp] theorem size_setBefore (c : Chain L) (id before : Option SlotId) :
    (c.setBefore id before).size = c.size := by unfold setBefore; split <;> rfl

@[simp] theorem nextId_setBefore (c : Chain L) (id before : Option SlotId) :
    (c.setBefore id before).nextId = c.nextId := by unfold setBefore; split <;> rfl

@[simp] theorem first_setBefore (c : Chain L) (id before : Option SlotId) :
    (c.setBefore id before).first = c.first := by unfold setBefore; split <;> rfl

/-- The end of the chain is set exactly where the slot does not exist. -/
theorem first_setAfter (c : Chain L) (id after : Option SlotId) :
    (c.setAfter id after).first =
      if (id.filter c.slots.contains).isSome then c.first else after := by
  cases hf : id.filter c.slots.contains <;> simp [setAfter, hf]

theorem last_setBefore (c : Chain L) (id before : Option SlotId) :
    (c.setBefore id before).last =
      if (id.filter c.slots.contains).isSome then c.last else before := by
  cases hf : id.filter c.slots.contains <;> simp [setBefore, hf]

@[simp] theorem nextId_append (c : Chain L) (l : L) : (c.append l).nextId = c.nextId + 1 :=
  nextId_setAfter _ _ _

@[simp] theorem nextId_prepend (c : Chain L) (l : L) : (c.prepend l).nextId = c.nextId + 1 :=
  nextId_setBefore _ _ _

/-! ## The table after each operation -/

theorem get?_setAfter (c : Chain L) (id after : Option SlotId) (j : SlotId) :
    (c.setAfter id after).slots.get? j =
      if id = some j then (c.slots.get? j).map fun t => { t with after } else c.slots.get? j := by
  unfold setAfter
  cases id with
  | none => simp
  | some i =>
    by_cases hi : c.slots.contains i = true
    · simp [Option.filter, hi, Table.get?_modify]
    · have habs : c.slots.get? i = none := by simpa [Table.contains] using hi
      by_cases hij : i = j
      · subst hij; simp [Option.filter, hi, habs]
      · simp [Option.filter, hi, hij]

/-- Setting a link takes no slot out and puts none in. -/
@[simp] theorem stored_setAfter (c : Chain L) (id after : Option SlotId) (j : SlotId) :
    (c.setAfter id after).slots.contains j = c.slots.contains j := by
  rw [Table.contains, get?_setAfter, Table.contains]
  split <;> simp

theorem get?_setBefore (c : Chain L) (id before : Option SlotId) (j : SlotId) :
    (c.setBefore id before).slots.get? j =
      if id = some j then (c.slots.get? j).map fun t => { t with before } else c.slots.get? j := by
  unfold setBefore
  cases id with
  | none => simp
  | some i =>
    by_cases hi : c.slots.contains i = true
    · simp [Option.filter, hi, Table.get?_modify]
    · have habs : c.slots.get? i = none := by simpa [Table.contains] using hi
      by_cases hij : i = j
      · subst hij; simp [Option.filter, hi, habs]
      · simp [Option.filter, hi, hij]

theorem get?_append (c : Chain L) (l : L) (j : SlotId) :
    (c.append l).slots.get? j =
      let t := if c.nextId = j then some ⟨l, c.last, none, true, 0⟩ else c.slots.get? j
      if c.last = some j then t.map fun t => { t with after := some c.nextId } else t := by
  simp only [append, get?_setAfter, place, Table.get?_insert]

theorem get?_prepend (c : Chain L) (l : L) (j : SlotId) :
    (c.prepend l).slots.get? j =
      let t := if c.nextId = j then some ⟨l, none, c.first, true, 0⟩ else c.slots.get? j
      if c.first = some j then t.map fun t => { t with before := some c.nextId } else t := by
  simp only [prepend, get?_setBefore, place, Table.get?_insert]

theorem get?_pin (c : Chain L) (id j : SlotId) :
    (c.pin id).slots.get? j =
      if id = j then (c.slots.get? j).map fun t => { t with pins := t.pins + 1 }
      else c.slots.get? j :=
  Table.get?_modify c.slots id j _

/-! ## What the links say of single slots -/

theorem following_stored {c : Chain L} {id : SlotId} {slot : Slot L}
    (hs : c.slots.get? id = some slot) :
    c.following id = slot.after := by
  rw [following, hs]
  rfl

theorem preceding_stored {c : Chain L} {id : SlotId} {slot : Slot L}
    (hs : c.slots.get? id = some slot) :
    c.preceding id = slot.before := by
  rw [preceding, hs]
  rfl

namespace Links

variable {c : Chain L} {ids : List SlotId}

/-- A linked slot is stored, as linked. -/
theorem exists_slot (h : c.Links ids) {id : SlotId} (hid : id ∈ ids) :
    ∃ slot, c.slots.get? id = some slot ∧ slot.linked = true := by
  have hc : c.contains id = true := (h.linked id).2 hid
  unfold contains at hc
  cases hg : c.slots.get? id with
  | none => rw [hg] at hc; exact absurd hc (by simp)
  | some slot => rw [hg] at hc; exact ⟨slot, rfl, by simpa using hc⟩

/-- A stored slot is among the linked ones when it is linked. -/
theorem mem_iff_linked (h : c.Links ids) {id : SlotId} {slot : Slot L}
    (hs : c.slots.get? id = some slot) : id ∈ ids ↔ slot.linked = true := by
  rw [← h.linked id, contains, hs]
  rfl

theorem stored (h : c.Links ids) {id : SlotId} (hid : id ∈ ids) :
    c.slots.contains id = true := by
  obtain ⟨slot, hs, -⟩ := h.exists_slot hid
  rw [Table.contains, hs]
  rfl

/-- The number of a stored slot was handed out. -/
theorem lt_nextId (h : c.Links ids) {id : SlotId} {slot : Slot L}
    (hs : c.slots.get? id = some slot) :
    id < c.nextId := by
  refine h.fresh id ?_
  rw [Table.contains, hs]
  rfl

theorem nextId_not_mem (h : c.Links ids) : c.nextId ∉ ids :=
  fun hm => Nat.lt_irrefl _ (h.fresh _ (h.stored hm))

theorem get?_nextId (h : c.Links ids) : c.slots.get? c.nextId = none := by
  cases hg : c.slots.get? c.nextId with
  | none => rfl
  | some slot => exact absurd (h.lt_nextId hg) (Nat.lt_irrefl _)

theorem last_ne_nextId (h : c.Links ids) : c.last ≠ some c.nextId := by
  intro he
  rw [h.last] at he
  exact h.nextId_not_mem (List.mem_of_getLast? he)

theorem first_ne_nextId (h : c.Links ids) : c.first ≠ some c.nextId := by
  intro he
  rw [h.first] at he
  exact h.nextId_not_mem (List.mem_of_head? he)

/-! ## Adding at the back -/

theorem following_append (h : c.Links ids) (l : L) {j : SlotId} (hj : j ≠ c.nextId) :
    (c.append l).following j =
      if ids.getLast? = some j then some c.nextId else c.following j := by
  simp only [following, get?_append, if_neg hj.symm, h.last]
  split
  · rename_i hl
    obtain ⟨slot, hs, -⟩ := h.exists_slot (List.mem_of_getLast? hl)
    rw [hs]
    rfl
  · rfl

theorem following_append_new (h : c.Links ids) (l : L) :
    (c.append l).following c.nextId = none := by
  simp [following, get?_append, h.last_ne_nextId]

theorem preceding_append (c : Chain L) (l : L) {j : SlotId} (hj : j ≠ c.nextId) :
    (c.append l).preceding j = c.preceding j := by
  simp only [preceding, get?_append, if_neg hj.symm]
  split
  · cases c.slots.get? j <;> rfl
  · rfl

theorem preceding_append_new (h : c.Links ids) (l : L) :
    (c.append l).preceding c.nextId = c.last := by
  simp [preceding, get?_append, h.last_ne_nextId]

theorem contains_append (c : Chain L) (l : L) (j : SlotId) :
    (c.append l).contains j = (decide (c.nextId = j) || c.contains j) := by
  simp only [contains, get?_append]
  by_cases hj : c.nextId = j
  · by_cases hl : c.last = some j <;> simp [hj, hl]
  · by_cases hl : c.last = some j
    · cases c.slots.get? j <;> simp [hj, hl]
    · simp [hj, hl]

/-- A slot that was there before keeps all it knows but what comes after it. -/
theorem get?_append_old (c : Chain L) (l : L) {j : SlotId} (hj : j ≠ c.nextId) {t : Slot L}
    (ht : (c.append l).slots.get? j = some t) :
    ∃ slot, c.slots.get? j = some slot ∧ t.before = slot.before ∧ t.linked = slot.linked ∧
      t.pins = slot.pins ∧ t.listener = slot.listener := by
  rw [get?_append] at ht
  simp only [if_neg hj.symm] at ht
  split at ht
  · obtain ⟨slot, hs, rfl⟩ := Option.map_eq_some_iff.1 ht
    exact ⟨slot, hs, rfl, rfl, rfl, rfl⟩
  · exact ⟨t, ht, rfl, rfl, rfl, rfl⟩

theorem first_append (h : c.Links ids) (l : L) :
    (c.append l).first = (ids ++ [c.nextId]).head? := by
  show ((c.place l c.last none).setAfter c.last (some c.nextId)).first = _
  rw [first_setAfter]
  cases hl : c.last with
  | none =>
    have hnil : ids = [] := by rwa [h.last, List.getLast?_eq_none_iff] at hl
    subst hnil
    rfl
  | some z =>
    have hz : z ∈ ids := List.mem_of_getLast? (h.last ▸ hl)
    have hc : (c.place l (some z) none).slots.contains z = true := by
      rw [place, Table.contains_insert, h.stored hz]
      exact Bool.or_true _
    rw [Option.filter_some, if_pos hc]
    show c.first = _
    rw [h.first, List.head?_append_of_ne_nil _ (List.ne_nil_of_mem hz)]

/-- A listener added at the back is the last one. -/
theorem append (h : c.Links ids) (l : L) : (c.append l).Links (ids ++ [c.nextId]) where
  nodup := List.nodup_append.2
    ⟨h.nodup, List.nodup_singleton _, by
      rintro a ha b hb rfl
      exact h.nextId_not_mem (List.mem_singleton.1 hb ▸ ha)⟩
  first := h.first_append l
  last := by rw [List.getLast?_concat]; rfl
  size := by
    rw [List.length_append, ← h.size]
    exact size_setAfter _ _ _
  linked := by
    intro id
    rw [contains_append, Bool.or_eq_true, decide_eq_true_eq, h.linked, List.mem_append,
      List.mem_singleton, or_comm, eq_comm]
  forth := h.forth.concat h.nodup (h.following_append_new l) fun x hx =>
    h.following_append l fun he => h.nextId_not_mem (he ▸ hx)
  back := by
    rw [List.reverse_append, List.reverse_singleton, List.singleton_append]
    refine h.back.cons ?_ fun x hx => ?_
    · rw [h.preceding_append_new, h.last, List.head?_reverse]
    · exact preceding_append c l fun he => h.nextId_not_mem (he ▸ List.mem_reverse.1 hx)
  buried := by
    intro id t ht hdead
    have hid : id ≠ c.nextId := by
      rintro rfl
      rw [get?_append] at ht
      simp only [if_true, if_neg h.last_ne_nextId, Option.some.injEq] at ht
      exact absurd (ht ▸ hdead) (by simp)
    obtain ⟨slot, hs, hbefore, hlinked, -, -⟩ := get?_append_old c l hid ht
    have hold := h.buried id slot hs (hlinked ▸ hdead)
    refine ⟨hbefore.trans hold.1, fun y hy => ?_⟩
    have hfollow : (c.append l).following id = some y := (following_stored ht).trans hy
    -- the one slot whose way forward has changed is linked, so this is not it
    have hlast : ids.getLast? ≠ some id := by
      intro hl
      have hin := (h.mem_iff_linked hs).1 (List.mem_of_getLast? hl)
      rw [← hlinked, hdead] at hin
      exact absurd hin (by simp)
    rw [h.following_append l hid, if_neg hlast, following, hs] at hfollow
    exact List.mem_append_left _ (hold.2 y hfollow)
  fresh := by
    intro id hid
    rw [nextId_append]
    by_cases he : id = c.nextId
    · exact he ▸ Nat.lt_succ_self _
    · obtain ⟨t, ht⟩ := Option.isSome_iff_exists.1 hid
      obtain ⟨slot, hs, -⟩ := get?_append_old c l he ht
      exact Nat.lt_succ_of_lt (h.lt_nextId hs)

/-! ## Adding at the front -/

theorem following_prepend (c : Chain L) (l : L) {j : SlotId} (hj : j ≠ c.nextId) :
    (c.prepend l).following j = c.following j := by
  simp only [following, get?_prepend, if_neg hj.symm]
  split
  · cases c.slots.get? j <;> rfl
  · rfl

theorem following_prepend_new (h : c.Links ids) (l : L) :
    (c.prepend l).following c.nextId = c.first := by
  simp [following, get?_prepend, h.first_ne_nextId]

theorem preceding_prepend (h : c.Links ids) (l : L) {j : SlotId} (hj : j ≠ c.nextId) :
    (c.prepend l).preceding j = if ids.head? = some j then some c.nextId else c.preceding j := by
  simp only [preceding, get?_prepend, if_neg hj.symm, h.first]
  split
  · rename_i hf
    obtain ⟨slot, hs, -⟩ := h.exists_slot (List.mem_of_head? hf)
    rw [hs]
    rfl
  · rfl

theorem preceding_prepend_new (h : c.Links ids) (l : L) :
    (c.prepend l).preceding c.nextId = none := by
  simp [preceding, get?_prepend, h.first_ne_nextId]

theorem contains_prepend (c : Chain L) (l : L) (j : SlotId) :
    (c.prepend l).contains j = (decide (c.nextId = j) || c.contains j) := by
  simp only [contains, get?_prepend]
  by_cases hj : c.nextId = j
  · by_cases hf : c.first = some j <;> simp [hj, hf]
  · by_cases hf : c.first = some j
    · cases c.slots.get? j <;> simp [hj, hf]
    · simp [hj, hf]

/-- A slot that was there before keeps all it knows but what comes before it. -/
theorem get?_prepend_old (c : Chain L) (l : L) {j : SlotId} (hj : j ≠ c.nextId) {t : Slot L}
    (ht : (c.prepend l).slots.get? j = some t) :
    ∃ slot, c.slots.get? j = some slot ∧ t.after = slot.after ∧ t.linked = slot.linked ∧
      t.pins = slot.pins ∧ t.listener = slot.listener := by
  rw [get?_prepend] at ht
  simp only [if_neg hj.symm] at ht
  split at ht
  · obtain ⟨slot, hs, rfl⟩ := Option.map_eq_some_iff.1 ht
    exact ⟨slot, hs, rfl, rfl, rfl, rfl⟩
  · exact ⟨t, ht, rfl, rfl, rfl, rfl⟩

theorem last_prepend (h : c.Links ids) (l : L) :
    (c.prepend l).last = (c.nextId :: ids).getLast? := by
  show ((c.place l none c.first).setBefore c.first (some c.nextId)).last = _
  rw [last_setBefore]
  cases hf : c.first with
  | none =>
    have hnil : ids = [] := by rwa [h.first, List.head?_eq_none_iff] at hf
    subst hnil
    rfl
  | some z =>
    have hz : z ∈ ids := List.mem_of_head? (h.first ▸ hf)
    have hc : (c.place l none (some z)).slots.contains z = true := by
      rw [place, Table.contains_insert, h.stored hz]
      exact Bool.or_true _
    rw [Option.filter_some, if_pos hc]
    show c.last = _
    rw [h.last, List.getLast?_cons_of_ne_nil (List.ne_nil_of_mem hz)]

/-- A listener added at the front is the first one. -/
theorem prepend (h : c.Links ids) (l : L) : (c.prepend l).Links (c.nextId :: ids) where
  nodup := List.nodup_cons.2 ⟨h.nextId_not_mem, h.nodup⟩
  first := rfl
  last := h.last_prepend l
  size := by
    rw [List.length_cons, ← h.size]
    exact size_setBefore _ _ _
  linked := by
    intro id
    rw [contains_prepend, Bool.or_eq_true, decide_eq_true_eq, h.linked, List.mem_cons, eq_comm]
  forth := by
    refine h.forth.cons ?_ fun x hx => ?_
    · rw [h.following_prepend_new, h.first]
    · exact following_prepend c l fun he => h.nextId_not_mem (he ▸ hx)
  back := by
    rw [List.reverse_cons]
    refine h.back.concat (List.nodup_reverse.2 h.nodup) (h.preceding_prepend_new l) fun x hx => ?_
    rw [List.getLast?_reverse]
    exact h.preceding_prepend l fun he => h.nextId_not_mem (he ▸ List.mem_reverse.1 hx)
  buried := by
    intro id t ht hdead
    have hid : id ≠ c.nextId := by
      rintro rfl
      rw [get?_prepend] at ht
      simp only [if_true, if_neg h.first_ne_nextId, Option.some.injEq] at ht
      exact absurd (ht ▸ hdead) (by simp)
    obtain ⟨slot, hs, hafter, hlinked, -, -⟩ := get?_prepend_old c l hid ht
    have hold := h.buried id slot hs (hlinked ▸ hdead)
    have hfirst : ids.head? ≠ some id := by
      intro hf
      have hin := (h.mem_iff_linked hs).1 (List.mem_of_head? hf)
      rw [← hlinked, hdead] at hin
      exact absurd hin (by simp)
    refine ⟨?_, fun y hy => List.mem_cons_of_mem _ (hold.2 y (hafter ▸ hy))⟩
    have hprec : (c.prepend l).preceding id = t.before := preceding_stored ht
    rw [← hprec, h.preceding_prepend l hid, if_neg hfirst, preceding, hs]
    exact hold.1
  fresh := by
    intro id hid
    rw [nextId_prepend]
    by_cases he : id = c.nextId
    · exact he ▸ Nat.lt_succ_self _
    · obtain ⟨t, ht⟩ := Option.isSome_iff_exists.1 hid
      obtain ⟨slot, hs, -⟩ := get?_prepend_old c l he ht
      exact Nat.lt_succ_of_lt (h.lt_nextId hs)

/-! ## Taking out

  Under `Links` a detached slot is bypassed in BOTH directions by one rule: every link to it becomes
  the link it had itself.  For linked slots `setAfter` and `setBefore` do this, for tombstones
  `retarget` does. -/

/-- The slot before a linked slot is the one whose link leads to it. -/
theorem before_eq_some_iff (h : c.Links ids) {id j : SlotId} {slot t : Slot L} (hid : id ∈ ids)
    (hs : c.slots.get? id = some slot) (ht : c.slots.get? j = some t) :
    slot.before = some j ↔ t.linked = true ∧ t.after = some id := by
  have hprec : c.preceding id = slot.before := preceding_stored hs
  have hfollow : c.following j = t.after := following_stored ht
  rw [← hprec, ← hfollow, ← h.mem_iff_linked ht]
  constructor
  · intro he
    have hj : j ∈ ids := List.mem_reverse.1 (h.back.mem_of_eq_some (List.mem_reverse.2 hid) he).1
    exact ⟨hj, (h.forth.eq_some_iff_back h.back hj hid).2 he⟩
  · rintro ⟨hj, he⟩
    exact (h.forth.eq_some_iff_back h.back hj hid).1 he

/-- The slot after a linked slot is the one whose link back leads to it. -/
theorem after_eq_some_iff (h : c.Links ids) {id j : SlotId} {slot t : Slot L} (hid : id ∈ ids)
    (hs : c.slots.get? id = some slot) (ht : c.slots.get? j = some t) :
    slot.after = some j ↔ t.before = some id := by
  have hfollow : c.following id = slot.after := following_stored hs
  have hprec : c.preceding j = t.before := preceding_stored ht
  rw [← hfollow, ← hprec]
  constructor
  · intro he
    have hj : j ∈ ids := (h.forth.mem_of_eq_some hid he).1
    exact (h.forth.eq_some_iff_back h.back hid hj).1 he
  · intro he
    -- a tombstone knows nothing before it
    have hj : j ∈ ids := by
      rw [h.mem_iff_linked ht]
      by_contra hdead
      have := (h.buried j t ht (by simpa using hdead)).1
      rw [hprec, this] at he
      exact absurd he (by simp)
    exact (h.forth.eq_some_iff_back h.back hid hj).2 he

/-- What is detached, the chain it leaves behind opened up. -/
theorem detach_eq (c : Chain L) {id : SlotId} {slot : Slot L} (hs : c.slots.get? id = some slot)
    (hl : slot.linked = true) :
    c.detach id =
      let buried :=
        { c with slots := c.slots.modify id fun t => { t with linked := false, before := none } }
      let joined := (buried.setAfter slot.before slot.after).setBefore slot.after slot.before
      let removed := { joined with size := joined.size - 1 }.retarget id slot.after
      if slot.pins > 0 then (none, removed)
      else (some slot.listener, { removed with slots := removed.slots.erase id }) := by
  unfold detach
  rw [hs]
  simp [hl]

/-- Every other slot has its links to the detached one led past it. -/
theorem get?_detach_ne (h : c.Links ids) {id j : SlotId} {slot : Slot L} (hid : id ∈ ids)
    (hs : c.slots.get? id = some slot) (hj : j ≠ id) :
    (c.detach id).2.slots.get? j = (c.slots.get? j).map fun t =>
      { t with
        after := if t.after = some id then slot.after else t.after
        before := if t.before = some id then slot.before else t.before } := by
  have hl : slot.linked = true := (h.mem_iff_linked hs).1 hid
  rw [detach_eq c hs hl]
  -- whether the slot itself is taken out makes no difference to another one
  have erased (p : Prop) [Decidable p] (x y : Chain L) (a b : Option L)
      (hxy : y.slots.get? j = x.slots.get? j) :
      (if p then (a, x) else (b, y)).2.slots.get? j = x.slots.get? j := by
    split <;> simp [hxy]
  rw [erased _ _ _ _ _ (by simp [Table.get?_erase, hj.symm])]
  simp only [retarget, Table.get?_mapValues, get?_setBefore, get?_setAfter, Table.get?_modify,
    if_neg hj.symm]
  cases ht : c.slots.get? j with
  | none => simp
  | some t =>
    have hb := h.before_eq_some_iff hid hs ht
    have ha := h.after_eq_some_iff hid hs ht
    have hdead : t.linked = false → t.before = none := fun hf => (h.buried j t ht hf).1
    -- its link back leads to the slot exactly if the slot's leads to it, and a tombstone has none
    clear ht erased
    obtain ⟨listener, before, after, linked, pins⟩ := t
    cases linked <;> by_cases h₁ : after = some id <;> by_cases h₂ : before = some id <;> simp_all

/-- The detached slot itself stays only while somebody stands on it, and knows what comes after. -/
theorem get?_detach_self (h : c.Links ids) {id : SlotId} {slot : Slot L} (hid : id ∈ ids)
    (hs : c.slots.get? id = some slot) :
    (c.detach id).2.slots.get? id =
      if slot.pins > 0 then some { slot with linked := false, before := none } else none := by
  have hl : slot.linked = true := (h.mem_iff_linked hs).1 hid
  have ha : slot.after ≠ some id := by
    have := h.forth.ne_self h.nodup hid
    rwa [following, hs] at this
  have hb : slot.before ≠ some id := by
    have := h.back.ne_self (List.nodup_reverse.2 h.nodup) (List.mem_reverse.2 hid)
    rwa [preceding, hs] at this
  rw [detach_eq c hs hl]
  split
  · simp [retarget, Table.get?_mapValues, get?_setBefore, get?_setAfter, Table.get?_modify, hs, ha,
      hb]
  · simp [Table.get?_erase]

/-- Nothing happens to a slot that is not linked. -/
theorem detach_of_not_mem (h : c.Links ids) {id : SlotId} (hid : id ∉ ids) :
    c.detach id = (none, c) := by
  unfold detach
  cases hs : c.slots.get? id with
  | none => rfl
  | some slot =>
    have hl : slot.linked = false := by
      rw [h.mem_iff_linked hs] at hid
      simpa using hid
    exact if_pos hl

theorem following_detach (h : c.Links ids) {id j : SlotId} (hid : id ∈ ids) (hj : j ≠ id) :
    (c.detach id).2.following j =
      if c.following j = some id then c.following id else c.following j := by
  obtain ⟨slot, hs, -⟩ := h.exists_slot hid
  simp only [following, h.get?_detach_ne hid hs hj, hs]
  cases c.slots.get? j with
  | none => simp
  | some t => simp

theorem preceding_detach (h : c.Links ids) {id j : SlotId} (hid : id ∈ ids) (hj : j ≠ id) :
    (c.detach id).2.preceding j =
      if c.preceding j = some id then c.preceding id else c.preceding j := by
  obtain ⟨slot, hs, -⟩ := h.exists_slot hid
  simp only [preceding, h.get?_detach_ne hid hs hj, hs]
  cases c.slots.get? j with
  | none => simp
  | some t => simp

theorem contains_detach (h : c.Links ids) {id : SlotId} (hid : id ∈ ids) (j : SlotId) :
    (c.detach id).2.contains j = (c.contains j && decide (j ≠ id)) := by
  obtain ⟨slot, hs, -⟩ := h.exists_slot hid
  by_cases hj : j = id
  · subst hj
    rw [contains, h.get?_detach_self hid hs]
    split <;> simp
  · rw [contains, h.get?_detach_ne hid hs hj, contains]
    cases c.slots.get? j <;> simp [hj]

theorem first_detach (h : c.Links ids) {id : SlotId} (hid : id ∈ ids) :
    (c.detach id).2.first = (ids.erase id).head? := by
  obtain ⟨slot, hs, hl⟩ := h.exists_slot hid
  have hprec : c.preceding id = slot.before := preceding_stored hs
  have hfollow : c.following id = slot.after := following_stored hs
  -- nothing comes before the slot exactly if it is the first; then what follows it is the first
  have hnone : slot.before = none ↔ ids.head? = some id := by
    rw [← hprec, h.back.eq_none_iff (List.nodup_reverse.2 h.nodup) (List.mem_reverse.2 hid),
      List.getLast?_reverse]
  have hfirst : (c.detach id).2.first = if slot.before.isSome then c.first else slot.after := by
    rw [detach_eq c hs hl]
    have hfind : ∀ z, slot.before = some z → c.slots.contains z = true := by
      intro z hz
      have hmem := (h.back.mem_of_eq_some (List.mem_reverse.2 hid) (hprec.trans hz)).1
      exact h.stored (List.mem_reverse.1 hmem)
    split <;> simp only [retarget, first_setBefore, first_setAfter] <;>
      cases hb : slot.before <;> simp [Table.contains_modify, hfind, hb]
  rw [hfirst]
  cases hb : slot.before with
  | none =>
    obtain ⟨l, rfl⟩ := List.head?_eq_some_iff.1 (hnone.1 hb)
    rw [List.erase_cons_head, ← hfollow]
    exact h.forth id l List.suffix_rfl
  | some z =>
    have hne : ids.head? ≠ some id := fun he => by rw [hnone.2 he] at hb; exact absurd hb (by simp)
    rw [head?_erase_of_ne hne, ← h.first]
    rfl

theorem last_detach (h : c.Links ids) {id : SlotId} (hid : id ∈ ids) :
    (c.detach id).2.last = (ids.erase id).getLast? := by
  obtain ⟨slot, hs, hl⟩ := h.exists_slot hid
  have hprec : c.preceding id = slot.before := preceding_stored hs
  have hfollow : c.following id = slot.after := following_stored hs
  have hnone : slot.after = none ↔ ids.getLast? = some id := by
    rw [← hfollow, h.forth.eq_none_iff h.nodup hid]
  have hlast : (c.detach id).2.last = if slot.after.isSome then c.last else slot.before := by
    rw [detach_eq c hs hl]
    have hfind : ∀ z, slot.after = some z → c.slots.contains z = true := fun z hz =>
      h.stored (h.forth.mem_of_eq_some hid (hfollow.trans hz)).1
    split <;> simp only [retarget, last_setBefore, last_setAfter] <;>
      cases ha : slot.after <;> simp [Table.contains_modify, hfind, ha]
  rw [hlast, ← List.head?_reverse, reverse_erase h.nodup]
  have hrev : ids.reverse.head? = ids.getLast? := List.head?_reverse
  cases ha : slot.after with
  | none =>
    obtain ⟨l, hl⟩ := List.head?_eq_some_iff.1 (hrev.trans (hnone.1 ha))
    rw [hl, List.erase_cons_head, ← hprec]
    exact h.back id l (hl ▸ List.suffix_rfl)
  | some z =>
    have hne : ids.reverse.head? ≠ some id := by
      intro he
      rw [hnone.2 (hrev ▸ he)] at ha
      exact absurd ha (by simp)
    rw [head?_erase_of_ne hne, hrev, ← h.last]
    rfl

theorem size_detach (h : c.Links ids) {id : SlotId} (hid : id ∈ ids) :
    (c.detach id).2.size = c.size - 1 := by
  obtain ⟨slot, hs, hl⟩ := h.exists_slot hid
  rw [detach_eq c hs hl]
  split <;> simp [retarget]

theorem nextId_detach (c : Chain L) (id : SlotId) : (c.detach id).2.nextId = c.nextId := by
  unfold detach
  split
  · rfl
  · split
    · rfl
    · split <;> simp [retarget]

/-- A slot that is there afterwards was there before. -/
theorem stored_of_stored_detach (h : c.Links ids) {id j : SlotId}
    (hj : (c.detach id).2.slots.contains j = true) : c.slots.contains j = true := by
  by_cases hid : id ∈ ids
  · obtain ⟨slot, hs, -⟩ := h.exists_slot hid
    by_cases he : j = id
    · rw [he, Table.contains, hs]
      rfl
    · rw [Table.contains, h.get?_detach_ne hid hs he] at hj
      rwa [Option.isSome_map] at hj
  · rwa [h.detach_of_not_mem hid] at hj

/-- A detached slot is gone from the chain, and nothing else is. -/
theorem detach (h : c.Links ids) {id : SlotId} (hid : id ∈ ids) :
    (c.detach id).2.Links (ids.erase id) where
  nodup := h.nodup.erase id
  first := h.first_detach hid
  last := h.last_detach hid
  size := by rw [h.size_detach hid, h.size, List.length_erase_of_mem hid]
  linked := by
    intro j
    rw [h.contains_detach hid, Bool.and_eq_true, decide_eq_true_eq, h.linked,
      h.nodup.mem_erase_iff, and_comm]
  forth := h.forth.erase h.nodup fun _ _ hne => h.following_detach hid hne
  back := by
    rw [reverse_erase h.nodup]
    exact h.back.erase (List.nodup_reverse.2 h.nodup) fun _ _ hne => h.preceding_detach hid hne
  buried := by
    intro j t ht hdead
    obtain ⟨slot, hs, hl⟩ := h.exists_slot hid
    -- what comes after the detached slot is linked, and not that slot
    have hafter : ∀ y, slot.after = some y → y ∈ ids.erase id := by
      intro y hy
      have hf : c.following id = some y := (following_stored hs).trans hy
      have hne : y ≠ id := fun he => h.forth.ne_self h.nodup hid (he ▸ hf)
      exact h.nodup.mem_erase_iff.2 ⟨hne, (h.forth.mem_of_eq_some hid hf).1⟩
    by_cases hj : j = id
    · subst hj
      rw [h.get?_detach_self hid hs] at ht
      split at ht
      · obtain rfl := Option.some.inj ht
        exact ⟨rfl, hafter⟩
      · exact absurd ht (by simp)
    · rw [h.get?_detach_ne hid hs hj] at ht
      obtain ⟨u, hu, rfl⟩ := Option.map_eq_some_iff.1 ht
      obtain ⟨hbefore, hold⟩ := h.buried j u hu hdead
      refine ⟨by simp [hbefore], fun y hy => ?_⟩
      by_cases hua : u.after = some id
      · exact hafter y (by simpa [hua] using hy)
      · have hy' : u.after = some y := by simpa [hua] using hy
        exact h.nodup.mem_erase_iff.2 ⟨fun he => hua (he ▸ hy'), hold y hy'⟩
  fresh := by
    intro j hj
    rw [nextId_detach]
    exact h.fresh j (h.stored_of_stored_detach hj)

/-! ## Pinning

  A pin changes no link.  Only the last pin on a tombstone takes a slot out, and no link leads to a
  tombstone. -/

/-- A chain that stores the same links for every slot it stores, and stores all linked slots, is
    made the same way. -/
theorem congr {c' : Chain L} (h : c.Links ids) (hf : c'.first = c.first) (hl : c'.last = c.last)
    (hz : c'.size = c.size) (hn : c'.nextId = c.nextId)
    (keep : ∀ id ∈ ids, c'.slots.contains id = true)
    (old : ∀ id t, c'.slots.get? id = some t → ∃ slot, c.slots.get? id = some slot ∧
      t.before = slot.before ∧ t.after = slot.after ∧ t.linked = slot.linked) :
    c'.Links ids := by
  have stored : ∀ id ∈ ids, ∃ t slot, c'.slots.get? id = some t ∧ c.slots.get? id = some slot ∧
      t.before = slot.before ∧ t.after = slot.after ∧ t.linked = slot.linked := by
    intro id hid
    obtain ⟨t, ht⟩ := Option.isSome_iff_exists.1 (keep id hid)
    obtain ⟨slot, hs, he⟩ := old id t ht
    exact ⟨t, slot, ht, hs, he⟩
  constructor
  case nodup => exact h.nodup
  case first => exact hf.trans h.first
  case last => exact hl.trans h.last
  case size => exact hz.trans h.size
  case linked =>
    intro id
    constructor
    · intro hc
      rw [contains] at hc
      cases ht : c'.slots.get? id with
      | none => rw [ht] at hc; exact absurd hc (by simp)
      | some t =>
        obtain ⟨slot, hs, -, -, he⟩ := old id t ht
        rw [ht] at hc
        exact (h.mem_iff_linked hs).2 (he ▸ by simpa using hc)
    · intro hid
      obtain ⟨t, slot, ht, hs, -, -, he⟩ := stored id hid
      rw [contains, ht]
      exact he.trans ((h.mem_iff_linked hs).1 hid)
  case forth =>
    refine h.forth.congr fun id hid => ?_
    obtain ⟨t, slot, ht, hs, -, he, -⟩ := stored id hid
    rw [following_stored ht, following_stored hs, he]
  case back =>
    refine h.back.congr fun id hid => ?_
    obtain ⟨t, slot, ht, hs, he, -, -⟩ := stored id (List.mem_reverse.1 hid)
    rw [preceding_stored ht, preceding_stored hs, he]
  case buried =>
    intro id t ht hdead
    obtain ⟨slot, hs, hb, ha, hk⟩ := old id t ht
    rw [hb, ha]
    exact h.buried id slot hs (hk ▸ hdead)
  case fresh =>
    intro id hid
    obtain ⟨t, ht⟩ := Option.isSome_iff_exists.1 hid
    obtain ⟨slot, hs, -⟩ := old id t ht
    rw [hn]
    exact h.lt_nextId hs

theorem pin (h : c.Links ids) (id : SlotId) : (c.pin id).Links ids := by
  have keep : ∀ j ∈ ids, (c.pin id).slots.contains j = true := by
    intro j hj
    exact (Table.contains_modify c.slots id j _).trans (h.stored hj)
  have old : ∀ j t, (c.pin id).slots.get? j = some t → ∃ slot, c.slots.get? j = some slot ∧
      t.before = slot.before ∧ t.after = slot.after ∧ t.linked = slot.linked := by
    intro j t ht
    rw [get?_pin] at ht
    split at ht
    · obtain ⟨slot, hs, rfl⟩ := Option.map_eq_some_iff.1 ht
      exact ⟨slot, hs, rfl, rfl, rfl⟩
    · exact ⟨t, ht, rfl, rfl, rfl⟩
  exact h.congr rfl rfl rfl rfl keep old

end Links

theorem get?_unpin (c : Chain L) (id j : SlotId) :
    (c.unpin id).2.slots.get? j =
      if id = j then (c.slots.get? j).bind fun t =>
        if t.pins - 1 = 0 ∧ t.linked = false then none else some { t with pins := t.pins - 1 }
      else c.slots.get? j := by
  unfold unpin
  cases hs : c.slots.get? id with
  | none =>
    by_cases hj : id = j
    · subst hj; simp [hs]
    · simp [hj]
  | some slot =>
    by_cases hj : id = j
    · subst hj
      by_cases hgone : slot.pins - 1 = 0 ∧ slot.linked = false
      · simp [hgone, hs, Table.get?_erase]
      · simp [hgone, hs, Table.get?_modify]
    · by_cases hgone : slot.pins - 1 = 0 ∧ slot.linked = false
      · simp [hgone, hj, Table.get?_erase, Table.get?_modify]
      · simp [hgone, hj, Table.get?_modify]

/-- A pin given back leaves the ends, the size and the next number alone. -/
theorem ends_unpin (c : Chain L) (id : SlotId) :
    (c.unpin id).2.first = c.first ∧ (c.unpin id).2.last = c.last ∧
      (c.unpin id).2.size = c.size ∧ (c.unpin id).2.nextId = c.nextId := by
  unfold unpin
  cases c.slots.get? id with
  | none => exact ⟨rfl, rfl, rfl, rfl⟩
  | some slot => by_cases hgone : slot.pins - 1 = 0 ∧ slot.linked = false <;> simp [hgone]

namespace Links

variable {c : Chain L} {ids : List SlotId}

theorem unpin (h : c.Links ids) (id : SlotId) : (c.unpin id).2.Links ids := by
  obtain ⟨hf, hl, hz, hn⟩ := ends_unpin c id
  apply h.congr hf hl hz hn
  case keep =>
    intro j hj
    obtain ⟨slot, hs, hlinked⟩ := h.exists_slot hj
    rw [Table.contains, get?_unpin, hs]
    split <;> simp [hlinked]
  case old =>
    intro j t ht
    rw [get?_unpin] at ht
    split at ht
    · obtain ⟨slot, hs, hu⟩ := Option.bind_eq_some_iff.1 ht
      split at hu
      · exact absurd hu (by simp)
      · obtain rfl := Option.some.inj hu
        exact ⟨slot, hs, rfl, rfl, rfl⟩
    · exact ⟨t, ht, rfl, rfl, rfl⟩

end Links

/-! ## Nothing left -/

theorem listeners_of_entries (c : Chain L) {es : List (SlotId × Slot L)}
    (h : ∀ e ∈ es, e ∈ c.slots.entries) :
    c.listeners (es.map (·.1)) = es.map fun e => e.2.listener := by
  show (es.map (·.1)).filterMap (fun id => (c.slots.get? id).map (·.listener)) = _
  rw [← List.map_filterMap, c.slots.filterMap_get? h, List.map_map]
  rfl

/-- In whatever order slots are met, their listeners are the same. -/
theorem listeners_perm (c : Chain L) (shuffle : Shuffle) {es : List (SlotId × Slot L)}
    (h : ∀ e ∈ es, e ∈ c.slots.entries) :
    (c.listeners (shuffle.apply (es.map (·.1)))).Perm (es.map fun e => e.2.listener) :=
  ((shuffle.perm _).filterMap c.listener?).trans (.of_eq (c.listeners_of_entries h))

/-- A chain that goes leaves behind what is in its slots, linked or not. -/
theorem dissolve_perm (c : Chain L) (shuffle : Shuffle) :
    (c.dissolve shuffle).Perm (c.slots.values.map (·.listener)) := by
  rw [Table.values, List.map_map]
  exact c.listeners_perm shuffle fun _ he => he

/-- Cutting the links of slots pins and unpins none of them. -/
theorem keys_cut (c : Chain L) :
    ((c.slots.mapValues fun slot =>
      { slot with linked := false, before := none, after := none }).filterValues (·.pins == 0)).keys =
        (c.slots.entries.filter fun e => e.2.pins == 0).map (·.1) := by
  simp only [Table.keys, Table.filterValues, Table.filter, Table.mapValues, Table.map,
    List.filter_map, List.map_map]
  rfl

/-- A chain that is cleared hands back what is in the slots that nobody stands on. -/
theorem clear_fst_perm (c : Chain L) (shuffle : Shuffle) :
    (c.clear shuffle).1.Perm
      ((c.slots.entries.filter fun e => e.2.pins == 0).map fun e => e.2.listener) := by
  show (c.listeners (shuffle.apply (Table.keys _))).Perm _
  rw [keys_cut]
  exact c.listeners_perm shuffle fun _ he => List.mem_of_mem_filter he

theorem get?_clear (c : Chain L) (shuffle : Shuffle) (j : SlotId) :
    (c.clear shuffle).2.slots.get? j = ((c.slots.get? j).map fun t =>
      { t with linked := false, before := none, after := none }).filter (·.pins != 0) := by
  simp only [clear, Table.get?_filterValues, Table.get?_mapValues]

/-- What a cleared chain still stores are cut off tombstones. -/
theorem get?_clear_eq_some (c : Chain L) {shuffle : Shuffle} {j : SlotId} {t : Slot L}
    (ht : (c.clear shuffle).2.slots.get? j = some t) :
    ∃ slot, c.slots.get? j = some slot ∧ 0 < slot.pins ∧
      t = { slot with linked := false, before := none, after := none } := by
  rw [get?_clear, Option.filter_eq_some_iff] at ht
  obtain ⟨slot, hs, rfl⟩ := Option.map_eq_some_iff.1 ht.1
  exact ⟨slot, hs, Nat.pos_of_ne_zero (by simpa using ht.2), rfl⟩

namespace Links

variable {c : Chain L} {ids : List SlotId}

/-- A chain without slots. -/
theorem nil : ({} : Chain L).Links [] where
  nodup := List.nodup_nil
  first := rfl
  last := rfl
  size := rfl
  linked := fun _ => by simp [contains, Table.get?, Table.find]
  forth := fun _ _ hx => absurd (List.suffix_nil.1 hx) (List.cons_ne_nil _ _)
  back := fun _ _ hx => absurd (List.suffix_nil.1 hx) (List.cons_ne_nil _ _)
  buried := fun _ _ hs => absurd hs (by simp [Table.get?, Table.find])
  fresh := fun _ hc => absurd hc (by simp [Table.contains, Table.get?, Table.find])

theorem clear {shuffle : Shuffle} (h : c.Links ids) : (c.clear shuffle).2.Links [] where
  nodup := List.nodup_nil
  first := rfl
  last := rfl
  size := rfl
  linked := by
    intro id
    rw [contains]
    cases ht : (c.clear shuffle).2.slots.get? id with
    | none => simp
    | some t =>
      obtain ⟨slot, -, -, rfl⟩ := get?_clear_eq_some c ht
      simp
  forth := fun _ _ hx => absurd (List.suffix_nil.1 hx) (List.cons_ne_nil _ _)
  back := fun _ _ hx => absurd (List.suffix_nil.1 hx) (List.cons_ne_nil _ _)
  buried := by
    intro id t ht _
    obtain ⟨slot, -, -, rfl⟩ := get?_clear_eq_some c ht
    exact ⟨rfl, fun y hy => absurd hy (by simp)⟩
  fresh := by
    intro id hid
    obtain ⟨t, ht⟩ := Option.isSome_iff_exists.1 hid
    obtain ⟨slot, hs, -⟩ := get?_clear_eq_some c ht
    exact h.lt_nextId hs

end Links

end Chain
end Relay
