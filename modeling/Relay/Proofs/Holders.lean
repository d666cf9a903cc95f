/-
  Who holds a receiver, and who holds a payload.

  A receiver is held by the names it goes by, by every method bound to it, and by every payload that
  was made from a bound method; a payload is held by the functions that share it.  Nothing else holds
  either, and nobody holds without being counted: after EVERY step the count of a receiver is the
  number of its holders, and so is the count of a payload (`Store.balanced_after`).

  Within a step the books are open.  A share that was taken for something without a name, or taken
  away from something that lost its name, belongs to nobody in the store; `Balanced held loads` lists
  these shares, and each operation moves them from the lists into the store or back.
-/
import Relay.Functions.Session
import Relay.Proofs.Tally

namespace Relay.Functions

variable {M : Methods}

/-! ## The books -/

/-- The receivers that a payload holds. -/
def Payload.shares (load : Payload M) : List ReceiverId :=
  match load.body with
  | .method m => m.receiver.toList
  | _ => []

namespace Store

/-- How many hold a receiver: names, methods and payloads. -/
def holders (s : Store M) (i : ReceiverId) : Nat :=
  (s.receivers.total fun j => [j].count i) + (s.methods.total fun m => m.receiver.toList.count i) +
    s.payloads.total fun load => load.shares.count i

/-- How many functions share a payload. -/
def users (s : Store M) (p : Nat) : Nat := s.functions.total fun f => f.payload.toList.count p

/-- Every share is counted: those in the store, and those on the way, which the two lists name. -/
structure Balanced (s : Store M) (held : List ReceiverId) (loads : List Nat) : Prop where
  receivers : ∀ i, s.allocations.count i = s.holders i + held.count i
  payloads : ∀ p, s.payloads.count p = s.users p + loads.count p

theorem balanced_nil : ({} : Store M).Balanced [] [] := ⟨fun _ => rfl, fun _ => rfl⟩

variable {s : Store M} {held : List ReceiverId} {loads : List Nat}

/-- A named receiver is there. -/
theorem Balanced.count_receiver (h : s.Balanced held loads) {name : String} {i : ReceiverId}
    (hi : s.receivers.get? name = some i) : 0 < s.allocations.count i := by
  have hpos : 0 < s.receivers.total fun j => [j].count i :=
    Table.total_count_pos (fun j => [j]) hi (List.mem_singleton_self i)
  have hcount := h.receivers i
  unfold holders at hcount
  omega

/-- A named method's receiver is there. -/
theorem Balanced.count_method (h : s.Balanced held loads) {name : String} {m : Method M}
    {i : ReceiverId} (hm : s.methods.get? name = some m) (hi : m.receiver = some i) :
    0 < s.allocations.count i := by
  have hpos := Table.total_count_pos (fun m => m.receiver.toList) hm (Option.mem_toList.2 hi)
  have hcount := h.receivers i
  unfold holders at hcount
  omega

/-- A stored payload's receiver is there. -/
theorem Balanced.count_load (h : s.Balanced held loads) {p : Nat} {load : Payload M}
    {i : ReceiverId} (hload : s.payloads.get? p = some load) (hi : i ∈ load.shares) :
    0 < s.allocations.count i := by
  have hpos := Table.total_count_pos Payload.shares ((s.payloads.get?_stored p).trans hload) hi
  have hcount := h.receivers i
  unfold holders Pool.total at hcount
  omega

/-- A named function's payload is there. -/
theorem Balanced.count_payload (h : s.Balanced held loads) {name : String} {f : Function} {p : Nat}
    (hf : s.functions.get? name = some f) (hp : f.payload = some p) : 0 < s.payloads.count p := by
  have hpos := Table.total_count_pos (fun f => f.payload.toList) hf (Option.mem_toList.2 hp)
  have hcount := h.payloads p
  unfold users at hcount
  omega

/-! ## Taking a share -/

/-- A method that takes a share in its receiver holds it from then on. -/
theorem Balanced.retainMethod (h : s.Balanced held loads) {m : Method M}
    (hm : ∀ i, m.receiver = some i → 0 < s.allocations.count i) :
    (s.retainMethod m).Balanced (m.receiver.toList ++ held) loads := by
  unfold Store.retainMethod
  cases hi : m.receiver with
  | none => exact h
  | some i =>
    refine ⟨fun j => ?_, h.payloads⟩
    show (s.allocations.retain i).count j = s.holders j + ([i] ++ held).count j
    rw [Pool.count_retain_cons (hm i hi), h.receivers j, List.count_append]
    omega

/-- A function that takes a share in its payload holds it from then on. -/
theorem Balanced.retainFunction (h : s.Balanced held loads) {f : Function}
    (hf : ∀ p, f.payload = some p → 0 < s.payloads.count p) :
    (s.retainFunction f).Balanced held (f.payload.toList ++ loads) := by
  unfold Store.retainFunction
  cases hp : f.payload with
  | none => exact h
  | some p =>
    constructor
    · intro i
      have hload : ({ s with payloads := s.payloads.retain p }).holders i = s.holders i := by
        unfold holders
        rw [Pool.total_retain]
      rw [hload]
      exact h.receivers i
    · intro q
      show (s.payloads.retain p).count q = s.users q + ([p] ++ loads).count q
      rw [Pool.count_retain_cons (hf p hp), h.payloads q, List.count_append]
      omega

/-! ## Giving a share back -/

/-- Letting go of a receiver touches the counts, and what is said of the last. -/
theorem releaseReceiver_eq (s : Store M) (i : ReceiverId) :
    ∃ dropped, s.releaseReceiver i =
      { s with allocations := (s.allocations.release i).2, dropped } := by
  unfold releaseReceiver
  split
  · next allocations hr => exact ⟨s.dropped, by rw [hr]⟩
  · next receiver allocations hr => exact ⟨M.label receiver :: s.dropped, by rw [hr]⟩

theorem Balanced.releaseReceiver {i : ReceiverId} (h : s.Balanced (i :: held) loads) :
    (s.releaseReceiver i).Balanced held loads := by
  obtain ⟨dropped, heq⟩ := s.releaseReceiver_eq i
  rw [heq]
  exact ⟨fun j => Pool.count_release_cons held j (h.receivers j), h.payloads⟩

theorem releaseMethod_eq (s : Store M) (m : Method M) :
    ∃ allocations dropped, s.releaseMethod m = { s with allocations, dropped } := by
  unfold releaseMethod
  cases m.receiver with
  | none => exact ⟨s.allocations, s.dropped, rfl⟩
  | some i =>
    obtain ⟨dropped, heq⟩ := s.releaseReceiver_eq i
    exact ⟨_, dropped, heq⟩

theorem Balanced.releaseMethod {m : Method M} (h : s.Balanced (m.receiver.toList ++ held) loads) :
    (s.releaseMethod m).Balanced held loads := by
  unfold Store.releaseMethod
  cases hi : m.receiver with
  | none =>
    rw [hi] at h
    exact h
  | some i =>
    rw [hi] at h
    exact h.releaseReceiver

/-- Letting go of a payload touches no name. -/
theorem releasePayload_eq (s : Store M) (p : Nat) :
    ∃ allocations dropped, s.releasePayload p =
      { s with payloads := (s.payloads.release p).2, allocations, dropped } := by
  unfold releasePayload
  split
  · next payloads hr => exact ⟨s.allocations, s.dropped, by rw [hr]⟩
  · next load payloads hr =>
    rw [hr]
    dsimp only
    split
    · exact ⟨s.allocations, s.dropped, rfl⟩
    · next label _ => exact ⟨s.allocations, label :: s.dropped, rfl⟩
    · next m _ =>
      obtain ⟨allocations, dropped, heq⟩ := releaseMethod_eq { s with payloads } m
      exact ⟨allocations, dropped, heq⟩
    · next label _ _ => exact ⟨s.allocations, label :: s.dropped, rfl⟩
    · exact ⟨s.allocations, s.dropped, rfl⟩

/-- The last share in a payload leaves what the payload held to whoever let go. -/
theorem Balanced.releasePayload {p : Nat} (h : s.Balanced held (p :: loads)) :
    (s.releasePayload p).Balanced held loads := by
  -- for a moment the receivers of a payload that goes are in nobody's hands
  have hopen : ({ s with payloads := (s.payloads.release p).2 } : Store M).Balanced
      ((s.payloads.release p).1.toList.flatMap Payload.shares ++ held) loads := by
    refine ⟨fun i => ?_, fun q => Pool.count_release_cons loads q (h.payloads q)⟩
    have hold := h.receivers i
    have hgone := s.payloads.total_release (fun load => load.shares.count i) p
    rw [List.count_append, List.count_flatMap]
    simp only [holders, Function.comp_def] at hold hgone ⊢
    omega
  unfold Store.releasePayload
  split
  · next payloads hr =>
    rw [hr] at hopen
    exact hopen
  · next load payloads hr =>
    rw [hr, Option.toList_some, List.flatMap_singleton] at hopen
    obtain ⟨body, rule⟩ := load
    cases body with
    | pointer _ => exact hopen
    | closure _ _ => exact ⟨hopen.receivers, hopen.payloads⟩
    | method m => exact hopen.releaseMethod
    | custom c =>
      cases c with
      | named _ _ => exact ⟨hopen.receivers, hopen.payloads⟩
      | _ => exact hopen

theorem releaseFunction_eq (s : Store M) (f : Function) :
    ∃ payloads allocations dropped, s.releaseFunction f = { s with payloads, allocations, dropped } := by
  unfold releaseFunction
  cases f.payload with
  | none => exact ⟨s.payloads, s.allocations, s.dropped, rfl⟩
  | some p =>
    obtain ⟨allocations, dropped, heq⟩ := s.releasePayload_eq p
    exact ⟨_, allocations, dropped, heq⟩

theorem Balanced.releaseFunction {f : Function} (h : s.Balanced held (f.payload.toList ++ loads)) :
    (s.releaseFunction f).Balanced held loads := by
  unfold Store.releaseFunction
  cases hp : f.payload with
  | none =>
    rw [hp] at h
    exact h
  | some p =>
    rw [hp] at h
    exact h.releasePayload

/-! ## Names that come and go -/

/-- A name takes a share over; what had the name before lets go of its own. -/
theorem Balanced.bindReceiver {name : String} {i : ReceiverId}
    (h : s.Balanced (i :: held) loads) : (s.bindReceiver name i).Balanced held loads := by
  have hbound : ({ s with receivers := s.receivers.insert name i } : Store M).Balanced
      ((s.receivers.get? name).toList.flatMap (fun j => [j]) ++ held) loads := by
    refine ⟨fun j => ?_, h.payloads⟩
    have hold : s.allocations.count j = s.holders j + ([i] ++ held).count j := h.receivers j
    have hover := s.receivers.count_insert_over (fun i => [i]) name i j
    rw [List.count_append] at hold ⊢
    simp only [holders] at hold ⊢
    omega
  unfold Store.bindReceiver
  cases hget : s.receivers.get? name with
  | none =>
    rw [hget] at hbound
    exact hbound
  | some old =>
    rw [hget] at hbound
    exact hbound.releaseReceiver

theorem Balanced.bindMethod {name : String} {m : Method M}
    (h : s.Balanced (m.receiver.toList ++ held) loads) :
    (s.bindMethod name m).Balanced held loads := by
  have hbound : ({ s with methods := s.methods.insert name m } : Store M).Balanced
      ((s.methods.get? name).toList.flatMap (fun m => m.receiver.toList) ++ held) loads := by
    refine ⟨fun j => ?_, h.payloads⟩
    have hold := h.receivers j
    have hover := s.methods.count_insert_over (fun m => m.receiver.toList) name m j
    rw [List.count_append] at hold ⊢
    simp only [holders] at hold ⊢
    omega
  unfold Store.bindMethod
  cases hget : s.methods.get? name with
  | none =>
    rw [hget] at hbound
    exact hbound
  | some old =>
    rw [hget, Option.toList_some, List.flatMap_singleton] at hbound
    exact hbound.releaseMethod

theorem Balanced.bindFunction {name : String} {f : Function}
    (h : s.Balanced held (f.payload.toList ++ loads)) :
    (s.bindFunction name f).Balanced held loads := by
  have hbound : ({ s with functions := s.functions.insert name f } : Store M).Balanced held
      ((s.functions.get? name).toList.flatMap (fun f => f.payload.toList) ++ loads) := by
    refine ⟨h.receivers, fun p => ?_⟩
    have hold := h.payloads p
    have hover := s.functions.count_insert_over (fun f => f.payload.toList) name f p
    rw [List.count_append] at hold ⊢
    simp only [users] at hold ⊢
    omega
  unfold Store.bindFunction
  cases hget : s.functions.get? name with
  | none =>
    rw [hget] at hbound
    exact hbound
  | some old =>
    rw [hget, Option.toList_some, List.flatMap_singleton] at hbound
    exact hbound.releaseFunction

/-- A name that goes leaves its share to whoever took it away. -/
theorem Balanced.eraseReceiver (h : s.Balanced held loads) {name : String} {i : ReceiverId}
    (hi : s.receivers.get? name = some i) :
    ({ s with receivers := s.receivers.erase name } : Store M).Balanced (i :: held) loads := by
  refine ⟨fun j => ?_, h.payloads⟩
  have hold := h.receivers j
  have herase := s.receivers.total_erase (fun i => [i].count j) hi
  show s.allocations.count j = _ + ([i] ++ held).count j
  rw [List.count_append]
  simp only [holders] at hold ⊢
  omega

theorem Balanced.eraseMethod (h : s.Balanced held loads) {name : String} {m : Method M}
    (hm : s.methods.get? name = some m) :
    ({ s with methods := s.methods.erase name } : Store M).Balanced (m.receiver.toList ++ held)
      loads := by
  refine ⟨fun j => ?_, h.payloads⟩
  have hold := h.receivers j
  have herase := s.methods.total_erase (fun m => m.receiver.toList.count j) hm
  rw [List.count_append]
  simp only [holders] at hold ⊢
  omega

theorem Balanced.eraseFunction (h : s.Balanced held loads) {name : String} {f : Function}
    (hf : s.functions.get? name = some f) :
    ({ s with functions := s.functions.erase name } : Store M).Balanced held
      (f.payload.toList ++ loads) := by
  refine ⟨h.receivers, fun p => ?_⟩
  have hold := h.payloads p
  have herase := s.functions.total_erase (fun f => f.payload.toList.count p) hf
  rw [List.count_append]
  simp only [users] at hold ⊢
  omega

/-! ## What is made, and what is called -/

/-- A new receiver is in nobody's hands yet. -/
theorem Balanced.alloc (h : s.Balanced held loads) (r : M.Receiver) :
    ({ s with allocations := (s.allocations.alloc r).2 } : Store M).Balanced
      ((s.allocations.alloc r).1 :: held) loads := by
  refine ⟨fun j => ?_, h.payloads⟩
  have hold := h.receivers j
  show (s.allocations.alloc r).2.count j = s.holders j + ([s.allocations.nextId] ++ held).count j
  rw [Pool.count_alloc_cons, List.count_append]
  omega

/-- A new payload takes over what it holds, and nobody shares it yet. -/
theorem Balanced.makeFunction {load : Payload M} (h : s.Balanced (load.shares ++ held) loads)
    (signature : Signature) :
    (s.makeFunction signature load).2.Balanced held
      ((s.makeFunction signature load).1.payload.toList ++ loads) := by
  constructor
  · intro i
    have hold := h.receivers i
    have hnew := s.payloads.total_alloc (fun load => load.shares.count i) load
    rw [List.count_append] at hold
    simp only [holders, Store.makeFunction] at hold ⊢
    omega
  · intro p
    have hold := h.payloads p
    show (s.payloads.alloc load).2.count p = s.users p + ([s.payloads.nextId] ++ loads).count p
    rw [Pool.count_alloc_cons, List.count_append]
    omega

theorem Balanced.functionOfMethod (h : s.Balanced held loads) (signature : Signature) {m : Method M}
    (hm : ∀ i, m.receiver = some i → 0 < s.allocations.count i) :
    (s.functionOfMethod signature m).2.Balanced held
      ((s.functionOfMethod signature m).1.payload.toList ++ loads) := by
  unfold Store.functionOfMethod
  split
  · have hshares : (s.retainMethod m).Balanced (Payload.shares ⟨.method m, .byValue⟩ ++ held) loads :=
      h.retainMethod hm
    exact hshares.makeFunction signature
  · exact h

/-- A call that changes a receiver takes no share in it. -/
theorem Balanced.modifyReceiver (h : s.Balanced held loads) (i : ReceiverId)
    (f : M.Receiver → M.Receiver) :
    ({ s with allocations := s.allocations.modify i f } : Store M).Balanced held loads :=
  ⟨fun j => (s.allocations.count_modify i j f).trans (h.receivers j), h.payloads⟩

/-- A call that changes a payload that holds nothing leaves it holding nothing. -/
theorem Balanced.modifyPayload (h : s.Balanced held loads) {p : Nat} {load : Payload M}
    {f : Payload M → Payload M} (hload : s.payloads.get? p = some load) (hold : load.shares = [])
    (hnew : (f load).shares = []) :
    ({ s with payloads := s.payloads.modify p f } : Store M).Balanced held loads := by
  refine ⟨fun i => ?_, fun q => (s.payloads.count_modify p q f).trans (h.payloads q)⟩
  have hsame := s.payloads.total_modify (fun load => load.shares.count i) f hload
  rw [hold, hnew] at hsame
  have hreceivers := h.receivers i
  simp only [holders] at hreceivers ⊢
  omega

/-! ## What a step can do -/

/-- What a step can do that leaves the names of functions alone. -/
inductive Aside (s : Store M) : Store M → Prop
  | nothing : Aside s s
  | told : Aside s { s with dropped := [] }
  | receiver (name : String) (r : M.Receiver) :
    Aside s ({ s with allocations := (s.allocations.alloc r).2 }.bindReceiver name
      (s.allocations.alloc r).1)
  /-- A method is made, copied or bound; its receiver has a name, or another method is bound to it. -/
  | method (name : String) (m : Method M)
    (there : ∀ i, m.receiver = some i →
      (∃ r, s.receivers.get? r = some i) ∨ ∃ n l, s.methods.get? n = some l ∧ l.receiver = some i) :
    Aside s ((s.retainMethod m).bindMethod name m)
  | dropMethod (name : String) (m : Method M) (there : s.methods.get? name = some m) :
    Aside s ({ s with methods := s.methods.erase name }.releaseMethod m)
  | dropReceiver (name : String) (i : ReceiverId) (there : s.receivers.get? name = some i) :
    Aside s ({ s with receivers := s.receivers.erase name }.releaseReceiver i)
  | callMethod (i : ReceiverId) (r : M.Receiver) :
    Aside s { s with allocations := s.allocations.modify i fun _ => r }
  /-- A callable other than a method keeps its own state. -/
  | callPayload (p : Nat) (load : Payload M) (body : Body M) (there : s.payloads.get? p = some load)
    (before : ∀ m, load.body ≠ .method m) (after : ∀ m, body ≠ .method m) :
    Aside s { s with payloads := s.payloads.modify p ({ · with body }) }

theorem aside_callMethod (s : Store M) (m : Method M) (arg : Arg) : s.Aside (s.callMethod m arg).2 := by
  unfold callMethod
  cases m.receiver with
  | none => exact .nothing
  | some i =>
    dsimp only
    cases s.allocations.get? i with
    | none => exact .nothing
    | some r => exact .callMethod i (M.run m.pointer arg r).2

theorem aside_call (s : Store M) (f : Function) (arg : Arg) : s.Aside (s.call f arg).2.2 := by
  unfold call
  cases f.payload with
  | none => exact .nothing
  | some p =>
    show s.Aside (s.runPayload p arg).2.2
    unfold runPayload
    cases hload : s.payloads.get? p with
    | none => exact .nothing
    | some load =>
      dsimp only
      cases hbody : load.body with
      | pointer _ => exact .nothing
      | closure c label =>
        refine .callPayload p load (.closure (c.run arg).2 label) hload ?_ ?_
        · intro m hm
          exact nomatch hbody.symm.trans hm
        · intro m hm
          exact nomatch hm
      | custom c =>
        refine .callPayload p load (.custom (c.run arg).2) hload ?_ ?_
        · intro m hm
          exact nomatch hbody.symm.trans hm
        · intro m hm
          exact nomatch hm
      | method m => exact s.aside_callMethod m arg

end Store

/-- The name of the method that a function is to be made from. -/
def Kind.source? : Kind → Option String
  | .method name => some name
  | _ => none

/-- How a function is made: from nothing, with a payload that holds no receiver, or from a method. -/
inductive Kind.Makes (s : Store M) (signature : Signature) : Kind → Function × Store M → Prop
  | empty {kind : Kind} (other : kind.source? = none) : Makes s signature kind (⟨signature, none⟩, s)
  | payload {kind : Kind} (other : kind.source? = none) (load : Payload M) (holds : load.shares = []) :
    Makes s signature kind (s.makeFunction signature load)
  | method (name : String) (m : Method M) (there : s.methods.get? name = some m) :
    Makes s signature (.method name) (s.functionOfMethod signature m)

theorem Kind.makes {s : Store M} {signature : Signature} {label : String} {kind : Kind}
    {made : Function × Store M} (h : kind.make s signature label = some made) :
    kind.Makes s signature made := by
  cases kind with
  | pointer name rule =>
    obtain ⟨p, -, rfl⟩ := Option.map_eq_some_iff.1 h
    exact .payload rfl _ rfl
  | empty =>
    obtain rfl := Option.some.inj h
    exact .empty rfl
  | closure n inFront =>
    obtain ⟨c, -, rfl⟩ := Option.map_eq_some_iff.1 h
    exact .payload rfl _ rfl
  | counter n =>
    rw [Kind.make] at h
    split at h
    · obtain rfl := Option.some.inj h
      exact .payload rfl _ rfl
    · exact nomatch h
  | method name =>
    obtain ⟨m, hm, hmade⟩ := Option.bind_eq_some_iff.1 h
    split at hmade
    · obtain rfl := Option.some.inj hmade
      exact .method name m hm
    · exact nomatch hmade
  | custom c rule =>
    obtain ⟨c, -, hrule⟩ := Option.bind_eq_some_iff.1 h
    obtain ⟨rule, -, hmade⟩ := Option.bind_eq_some_iff.1 hrule
    split at hmade
    · obtain rfl := Option.some.inj hmade
      exact .payload rfl _ rfl
    · exact nomatch hmade
  | unknown => exact nomatch h

/-- The function name that a step gives or takes away. -/
def Step.names? : Step M → Option String
  | .function name .. => some name
  | .dropFunction name => some name
  | .use _ (.clone as) => some as
  | _ => none

/-- What a step does to the store, by what it does to the names of functions. -/
inductive Step.Does (s : Store M) : Step M → Store M → Prop
  | aside {step : Step M} {t : Store M} (other : step.names? = none) (h : s.Aside t) : Does s step t
  | make (name : String) {signature : Signature} {kind : Kind} {label : Option String}
    {made : Function × Store M} (h : kind.Makes s signature made) :
    Does s (.function name (some signature) kind label) (made.2.bindFunction name made.1)
  | clone (name as : String) (f : Function) (there : s.functions.get? name = some f) :
    Does s (.use name (.clone as)) ((s.retainFunction f).bindFunction as f)
  | drop (name : String) (f : Function) (there : s.functions.get? name = some f) :
    Does s (.dropFunction name) ({ s with functions := s.functions.erase name }.releaseFunction f)
  | absent (name : String) (there : s.functions.get? name = none) : Does s (.dropFunction name) s

theorem MethodAction.aside {s : Store M} {name : String} {m : Method M} {action : MethodAction}
    {e : Effect M} (hm : s.methods.get? name = some m) (h : action.run s m = .ok e) :
    s.Aside e.store := by
  cases action with
  | clone as =>
    obtain rfl := Except.ok.inj h
    exact .method as m fun i hi => .inr ⟨name, m, hm, hi⟩
  | isBound | receiver | debug =>
    obtain rfl := Except.ok.inj h
    exact .nothing
  | call given =>
    obtain ⟨arg, -, hcall⟩ := need_bind_ok h
    obtain rfl := Except.ok.inj hcall
    exact s.aside_callMethod m arg
  | same other =>
    obtain ⟨r, -, hsame⟩ := need_bind_ok h
    split at hsame
    · obtain rfl := Except.ok.inj hsame
      exact .nothing
    · exact nomatch hsame
  | unknown => exact nomatch h

theorem Action.does {s : Store M} {name : String} {f : Function} {action : Action} {e : Effect M}
    (hf : s.functions.get? name = some f) (h : action.run s f = .ok e) :
    Step.Does s (.use name action) e.store := by
  cases action with
  | call given guarded =>
    obtain ⟨arg, -, hcall⟩ := need_bind_ok h
    split at hcall
    · obtain rfl := Except.ok.inj hcall
      exact .aside rfl .nothing
    · obtain rfl := Except.ok.inj hcall
      exact .aside rfl (s.aside_call f arg)
  | clone as =>
    obtain rfl := Except.ok.inj h
    exact .clone name as f hf
  | isEmpty | typeName | debug =>
    obtain rfl := Except.ok.inj h
    exact .aside rfl .nothing
  | equals other | differs other =>
    obtain ⟨b, -, hdone⟩ := bind_ok h
    obtain rfl := Except.ok.inj hdone
    exact .aside rfl .nothing
  | unknown => exact nomatch h

/-- A step that is carried out does one of these things. -/
theorem Step.does {s : Store M} {step : Step M} {e : Effect M} (h : step.run s = .ok e) :
    step.Does s e.store := by
  cases step with
  | receiver name amount =>
    obtain rfl := Except.ok.inj h
    exact .aside rfl (.receiver name _)
  | method name pointer target =>
    obtain ⟨p, -, hbound⟩ := need_bind_ok h
    cases target with
    | none =>
      obtain rfl := Except.ok.inj hbound
      exact .aside rfl (.method name ⟨p, none⟩ nofun)
    | some r =>
      obtain ⟨bound, hmap, hdone⟩ := bind_ok hbound
      obtain rfl := Except.ok.inj hdone
      cases hr : s.receivers.get? r with
      | none =>
        rw [hr] at hmap
        exact nomatch hmap
      | some i =>
        rw [hr] at hmap
        obtain rfl : some i = bound := Except.ok.inj hmap
        exact .aside rfl (.method name ⟨p, some i⟩ fun j hj => .inl ⟨r, hr.trans hj⟩)
  | function name signature kind label =>
    obtain ⟨signature, rfl, hmake⟩ := need_bind_ok h
    obtain ⟨made, hmade, hdone⟩ := need_bind_ok hmake
    obtain rfl := Except.ok.inj hdone
    exact .make name (Kind.makes hmade)
  | dropFunction name =>
    rw [Step.run] at h
    cases hf : s.functions.get? name with
    | none =>
      rw [hf] at h
      obtain rfl := Except.ok.inj h
      exact .absent name hf
    | some f =>
      rw [hf] at h
      obtain rfl := Except.ok.inj h
      exact .drop name f hf
  | dropMethod name =>
    rw [Step.run] at h
    cases hm : s.methods.get? name with
    | none =>
      rw [hm] at h
      obtain rfl := Except.ok.inj h
      exact .aside rfl .nothing
    | some m =>
      rw [hm] at h
      obtain rfl := Except.ok.inj h
      exact .aside rfl (.dropMethod name m hm)
  | dropReceiver name =>
    rw [Step.run] at h
    cases hi : s.receivers.get? name with
    | none =>
      rw [hi] at h
      obtain rfl := Except.ok.inj h
      exact .aside rfl .nothing
    | some i =>
      rw [hi] at h
      obtain rfl := Except.ok.inj h
      exact .aside rfl (.dropReceiver name i hi)
  | dropped =>
    obtain rfl := Except.ok.inj h
    exact .aside rfl .told
  | refs name =>
    obtain ⟨i, -, hrefs⟩ := need_bind_ok h
    obtain rfl := Except.ok.inj hrefs
    exact .aside rfl .nothing
  | balance name =>
    obtain ⟨i, -, hbalance⟩ := need_bind_ok h
    obtain ⟨r, -, hdone⟩ := need_bind_ok hbalance
    obtain rfl := Except.ok.inj hdone
    exact .aside rfl .nothing
  | bind name target =>
    obtain ⟨i, hi, hbind⟩ := need_bind_ok h
    obtain ⟨m, hm, hdone⟩ := need_bind_ok hbind
    obtain rfl := Except.ok.inj hdone
    exact .aside rfl (.method name (m.bind i) fun j hj => .inl ⟨target, hi.trans hj⟩)
  | useMethod name action =>
    obtain ⟨m, hm, haction⟩ := need_bind_ok h
    exact .aside rfl (MethodAction.aside hm haction)
  | use name action =>
    obtain ⟨f, hf, haction⟩ := need_bind_ok h
    exact Action.does hf haction

/-! ## The books are kept -/

namespace Store

variable {s t : Store M}

theorem Aside.balanced (h : s.Aside t) (hs : s.Balanced [] []) : t.Balanced [] [] := by
  cases h with
  | nothing => exact hs
  | told => exact ⟨hs.receivers, hs.payloads⟩
  | receiver name r => exact (hs.alloc r).bindReceiver
  | method name m there =>
    refine (hs.retainMethod fun i hi => ?_).bindMethod
    rcases there i hi with ⟨r, hr⟩ | ⟨n, l, hl, hli⟩
    · exact hs.count_receiver hr
    · exact hs.count_method hl hli
  | dropMethod name m there => exact (hs.eraseMethod there).releaseMethod
  | dropReceiver name i there => exact (hs.eraseReceiver there).releaseReceiver
  | callMethod i r => exact hs.modifyReceiver i _
  | callPayload p load body there before after =>
    refine hs.modifyPayload there ?_ ?_
    · unfold Payload.shares
      split
      · next m hm => exact absurd hm (before m)
      · rfl
    · unfold Payload.shares
      split
      · next m hm => exact absurd hm (after m)
      · rfl

end Store

theorem Kind.Makes.balanced {s : Store M} {signature : Signature} {kind : Kind}
    {made : Function × Store M} (h : kind.Makes s signature made) (hs : s.Balanced [] []) :
    made.2.Balanced [] made.1.payload.toList := by
  rw [← List.append_nil made.1.payload.toList]
  cases h with
  | empty => exact hs
  | payload other load holds =>
    refine Store.Balanced.makeFunction ?_ signature
    rw [holds]
    exact hs
  | method name m there => exact hs.functionOfMethod signature fun i hi => hs.count_method there hi

theorem Step.Does.balanced {s t : Store M} {step : Step M} (h : step.Does s t)
    (hs : s.Balanced [] []) : t.Balanced [] [] := by
  cases h with
  | aside other h => exact h.balanced hs
  | make name h =>
    have hmade := h.balanced hs
    rw [← List.append_nil (Function.payload _).toList] at hmade
    exact hmade.bindFunction
  | clone name as f there =>
    exact (hs.retainFunction fun p hp => hs.count_payload there hp).bindFunction
  | drop name f there => exact (hs.eraseFunction there).releaseFunction
  | absent name there => exact hs

/-! ## Runs -/

/-- The store after a step; a step that lacks something changes nothing. -/
def Step.next (s : Store M) (step : Step M) : Store M :=
  match step.run s with
  | .ok e => e.store
  | .error _ => s

/-- The store after steps. -/
def after (s : Store M) : List (Step M) → Store M
  | [] => s
  | step :: rest => after (step.next s) rest

/-- A session goes on from the store that its first steps left. -/
theorem session_append (s : Store M) (steps more : List (Step M)) :
    session s (steps ++ more) = session s steps ++ session (after s steps) more := by
  induction steps generalizing s with
  | nil => rfl
  | cons step rest ih =>
    rw [List.cons_append, session, session, after, Step.next]
    cases step.run s with
    | ok e => exact congrArg _ (ih e.store)
    | error what => exact congrArg _ (ih s)

theorem Step.next_cases (s : Store M) (step : Step M) :
    (∃ e, step.run s = .ok e ∧ step.next s = e.store ∧ step.Does s e.store) ∨
      ∃ what, step.run s = .error what ∧ step.next s = s := by
  unfold Step.next
  cases h : step.run s with
  | ok e => exact .inl ⟨e, rfl, rfl, Step.does h⟩
  | error what => exact .inr ⟨what, rfl, rfl⟩

theorem Store.Balanced.after {s : Store M} (hs : s.Balanced [] []) (steps : List (Step M)) :
    (after s steps).Balanced [] [] := by
  induction steps generalizing s with
  | nil => exact hs
  | cons step rest ih =>
    refine ih ?_
    rcases step.next_cases s with ⟨e, -, heq, hdoes⟩ | ⟨what, -, heq⟩
    · rw [heq]
      exact hdoes.balanced hs
    · rw [heq]
      exact hs

/-- After any steps receivers are counted by their holders, and payloads by the functions that share
    them. -/
theorem Store.balanced_after (steps : List (Step M)) :
    (Functions.after ({} : Store M) steps).Balanced [] [] :=
  balanced_nil.after steps

end Relay.Functions
