/-
  A method is captured AS IT IS.

  Methods change: binding one anew gives it another receiver.  A function that is made from a method
  takes a copy, and nothing that happens to the method, or to copies of it, reaches that copy.  So a
  function goes back to a method of the past.  `captures` writes that method down, beside the store,
  under the name of the function and of every clone of it, and `Store.Honours` says what the function
  does with it, now and at all later times.

  The load-bearing part is that the copy cannot be confused with anything made later.  A payload's
  number is never given out again, a method in a payload never changes (`Store.Precedes`), and as long
  as a function has a name its payload is there, and so is the payload's receiver (`Store.Balanced`).
-/
import Relay.Proofs.Holders
import Relay.Proofs.Likeness

namespace Relay.Functions

variable {M : Methods}

/-! ## Old payloads -/

namespace Store

/-- What `u` stores under a number that `s` had given out was stored in `s`; a method is the same as it
    was there. -/
structure Precedes (s u : Store M) : Prop where
  nextId : s.payloads.nextId ≤ u.payloads.nextId
  loads : ∀ p load', p < s.payloads.nextId → u.payloads.get? p = some load' →
    ∃ load, s.payloads.get? p = some load ∧ ∀ m, load.body = .method m → load' = load

variable {s t u : Store M}

/-- Nothing happened to the payloads. -/
theorem Precedes.of_eq (h : u.payloads = s.payloads) : s.Precedes u :=
  ⟨Nat.le_of_eq (congrArg Pool.nextId h.symm), fun p load' _ hload =>
    ⟨load', by rwa [h] at hload, fun _ _ => rfl⟩⟩

theorem Precedes.trans (h : s.Precedes t) (h' : t.Precedes u) : s.Precedes u := by
  refine ⟨Nat.le_trans h.nextId h'.nextId, fun p load' hp hload => ?_⟩
  obtain ⟨middle, hmiddle, hsame'⟩ := h'.loads p load' (Nat.lt_of_lt_of_le hp h.nextId) hload
  obtain ⟨load, hfirst, hsame⟩ := h.loads p middle hp hmiddle
  refine ⟨load, hfirst, fun m hm => ?_⟩
  obtain rfl := hsame m hm
  exact hsame' m hm

theorem precedes_retainFunction (s : Store M) (f : Function) : s.Precedes (s.retainFunction f) := by
  unfold retainFunction
  cases f.payload with
  | none => exact .of_eq rfl
  | some p =>
    refine ⟨Nat.le_refl _, fun q load' _ hload => ⟨load', ?_, fun _ _ => rfl⟩⟩
    exact (s.payloads.get?_retain p q).symm.trans hload

theorem precedes_releaseFunction (s : Store M) (f : Function) : s.Precedes (s.releaseFunction f) := by
  unfold releaseFunction
  cases f.payload with
  | none => exact .of_eq rfl
  | some p =>
    obtain ⟨allocations, dropped, heq⟩ := s.releasePayload_eq p
    show s.Precedes (s.releasePayload p)
    rw [heq]
    refine ⟨Nat.le_of_eq (s.payloads.nextId_release p).symm, fun q load' _ hload => ?_⟩
    refine ⟨load', ?_, fun _ _ => rfl⟩
    have hkept : (s.payloads.release p).2.get? q = some load' := hload
    rw [Pool.get?_release] at hkept
    split at hkept
    · exact nomatch hkept
    · exact hkept

/-- A new payload has a new number. -/
theorem precedes_makeFunction (s : Store M) (signature : Signature) (load : Payload M) :
    s.Precedes (s.makeFunction signature load).2 := by
  refine ⟨Nat.le_succ _, fun p load' hp hload => ⟨load', ?_, fun _ _ => rfl⟩⟩
  have hnew : (s.payloads.alloc load).2.get? p = some load' := hload
  rwa [Pool.get?_alloc, if_neg (Nat.ne_of_gt hp)] at hnew

theorem precedes_bindFunction (s : Store M) (name : String) (f : Function) :
    s.Precedes (s.bindFunction name f) := by
  unfold bindFunction
  cases s.functions.get? name with
  | none => exact .of_eq rfl
  | some old =>
    have hbound : s.Precedes { s with functions := s.functions.insert name f } := .of_eq rfl
    exact hbound.trans (precedes_releaseFunction _ old)

/-! ## Names of functions -/

theorem functions_releaseFunction (s : Store M) (f : Function) :
    (s.releaseFunction f).functions = s.functions := by
  obtain ⟨payloads, allocations, dropped, heq⟩ := s.releaseFunction_eq f
  rw [heq]

theorem functions_bindFunction (s : Store M) (name : String) (f : Function) :
    (s.bindFunction name f).functions = s.functions.insert name f := by
  unfold bindFunction
  cases s.functions.get? name with
  | none => rfl
  | some old => exact functions_releaseFunction _ old

theorem functions_retainFunction (s : Store M) (f : Function) :
    (s.retainFunction f).functions = s.functions := by
  unfold retainFunction
  cases f.payload <;> rfl

/-- A receiver takes a name; no payload and no function notices. -/
theorem bindReceiver_eq (s : Store M) (name : String) (i : ReceiverId) :
    ∃ receivers allocations dropped, s.bindReceiver name i =
      { s with receivers, allocations, dropped } := by
  unfold bindReceiver
  cases s.receivers.get? name with
  | none => exact ⟨_, s.allocations, s.dropped, rfl⟩
  | some old =>
    obtain ⟨dropped, heq⟩ := releaseReceiver_eq { s with receivers := s.receivers.insert name i } old
    exact ⟨_, _, dropped, heq⟩

/-- A method takes a name; no payload and no function notices. -/
theorem bindMethod_eq (s : Store M) (name : String) (m : Method M) :
    ∃ methods allocations dropped, s.bindMethod name m =
      { s with methods, allocations, dropped } := by
  unfold bindMethod
  cases s.methods.get? name with
  | none => exact ⟨_, s.allocations, s.dropped, rfl⟩
  | some old =>
    obtain ⟨allocations, dropped, heq⟩ :=
      releaseMethod_eq { s with methods := s.methods.insert name m } old
    exact ⟨_, allocations, dropped, heq⟩

theorem retainMethod_eq (s : Store M) (m : Method M) :
    ∃ allocations, s.retainMethod m = { s with allocations } := by
  unfold retainMethod
  cases m.receiver with
  | none => exact ⟨s.allocations, rfl⟩
  | some i => exact ⟨_, rfl⟩

/-- Steps aside from functions leave their names alone, and their payloads, unless a callable that is not
    a method keeps its own state. -/
theorem Aside.frame (h : s.Aside t) : t.functions = s.functions ∧
    (t.payloads = s.payloads ∨ ∃ p load body, s.payloads.get? p = some load ∧
      (∀ m, load.body ≠ .method m) ∧ t.payloads = s.payloads.modify p ({ · with body })) := by
  cases h with
  | nothing | told | callMethod => exact ⟨rfl, .inl rfl⟩
  | receiver name r =>
    obtain ⟨receivers, allocations, dropped, heq⟩ := bindReceiver_eq _ name _
    rw [heq]
    exact ⟨rfl, .inl rfl⟩
  | method name m there =>
    obtain ⟨methods, allocations, dropped, heq⟩ := bindMethod_eq (s.retainMethod m) name m
    obtain ⟨allocations', heq'⟩ := s.retainMethod_eq m
    rw [heq, heq']
    exact ⟨rfl, .inl rfl⟩
  | dropMethod name m there =>
    obtain ⟨allocations, dropped, heq⟩ := releaseMethod_eq { s with methods := s.methods.erase name } m
    rw [heq]
    exact ⟨rfl, .inl rfl⟩
  | dropReceiver name i there =>
    obtain ⟨dropped, heq⟩ := releaseReceiver_eq { s with receivers := s.receivers.erase name } i
    rw [heq]
    exact ⟨rfl, .inl rfl⟩
  | callPayload p load body there before after => exact ⟨rfl, .inr ⟨p, load, body, there, before, rfl⟩⟩

theorem Aside.precedes (h : s.Aside t) : s.Precedes t := by
  obtain ⟨-, heq | ⟨p, load, body, there, before, heq⟩⟩ := h.frame
  · exact .of_eq heq
  · refine ⟨by rw [heq]; exact Nat.le_refl _, fun q load' _ hload => ?_⟩
    rw [heq, Pool.get?_modify] at hload
    split at hload
    · next hpq =>
      -- what is changed is not a method
      rw [← hpq, there] at hload
      exact ⟨load, hpq ▸ there, fun m hm => absurd hm (before m)⟩
    · exact ⟨load', hload, fun _ _ => rfl⟩

/-! ## A captured method -/

/-- `f` was made from `m`: it is empty, or its payload is a copy of `m`, compared by value. -/
structure Keeps (s : Store M) (m : Method M) (f : Function) : Prop where
  empty : m.receiver = none → f.payload = none
  copy : ∀ i, m.receiver = some i →
    ∃ p, f.payload = some p ∧ s.payloads.get? p = some ⟨.method m, .byValue⟩

/-- Right after the function was made. -/
theorem keeps_functionOfMethod (s : Store M) (signature : Signature) (m : Method M) :
    (s.functionOfMethod signature m).2.Keeps m (s.functionOfMethod signature m).1 := by
  unfold functionOfMethod Method.isBound
  cases hi : m.receiver with
  | none => exact ⟨fun _ => rfl, fun i hi' => nomatch hi.symm.trans hi'⟩
  | some i =>
    refine ⟨fun hnone => (nomatch hi.symm.trans hnone), fun _ _ => ⟨_, rfl, ?_⟩⟩
    show ((s.retainMethod m).payloads.alloc ⟨.method m, .byValue⟩).2.get? _ = _
    rw [Pool.get?_alloc, if_pos rfl]

/-- And as long as the function, or a clone of it, has a name. -/
theorem Keeps.later {m : Method M} {f : Function} {name : String} (h : s.Keeps m f)
    (hst : s.Precedes t) (ht : t.Balanced [] []) (hf : t.functions.get? name = some f) :
    t.Keeps m f := by
  refine ⟨h.empty, fun i hi => ?_⟩
  obtain ⟨p, hp, hcopy⟩ := h.copy i hi
  obtain ⟨load', hload'⟩ := Option.isSome_iff_exists.1
    ((t.payloads.count_pos_iff p).1 (ht.count_payload hf hp))
  have hold : p < s.payloads.nextId := by
    by_contra hnew
    rw [s.payloads.get?_of_le (Nat.le_of_not_lt hnew)] at hcopy
    exact nomatch hcopy
  obtain ⟨load, hload, hsame⟩ := hst.loads p load' hold hload'
  obtain rfl := Option.some.inj (hload.symm.trans hcopy)
  exact ⟨p, hp, hsame m rfl ▸ hload'⟩

/-- What a function does that was made from the method `m` AS IT WAS THEN. -/
structure Honours (s : Store M) (m : Method M) (f : Function) : Prop where
  empty : f.payload = none ↔ m.isBound = false
  /-- A call runs the method's pointer on the receiver that the method was bound to. -/
  calls : ∀ i, m.receiver = some i → ∃ r, s.allocations.get? i = some r ∧ ∀ arg,
    s.call f arg = ((M.run m.pointer arg r).1.map f.signature.convert, none,
      { s with allocations := s.allocations.modify i fun _ => (M.run m.pointer arg r).2 })
  /-- That a method is not bound, no call says but the pointer's own code. -/
  bound : ∀ arg, (s.call f arg).1 = .error .unboundMethod → ∃ i r, m.receiver = some i ∧
    s.allocations.get? i = some r ∧ (M.run m.pointer arg r).1 = .error .unboundMethod

theorem Keeps.honours {m : Method M} {f : Function} (h : s.Keeps m f) (hs : s.Balanced [] []) :
    s.Honours m f := by
  cases hi : m.receiver with
  | none =>
    have hempty := h.empty hi
    have hcall : ∀ arg, s.call f arg = (.error .emptyFunction, none, s) := fun arg => by
      rw [call, hempty]
    refine ⟨iff_of_true hempty (by rw [Method.isBound, hi]; rfl), fun i hi' => ?_, fun arg harg => ?_⟩
    · exact nomatch hi.symm.trans hi'
    · rw [hcall] at harg
      exact nomatch harg
  | some i =>
    obtain ⟨p, hp, hcopy⟩ := h.copy i hi
    have hshares : i ∈ Payload.shares (⟨.method m, .byValue⟩ : Payload M) := Option.mem_toList.2 hi
    obtain ⟨r, hr⟩ := Option.isSome_iff_exists.1
      ((s.allocations.count_pos_iff i).1 (hs.count_load hcopy hshares))
    have hcall : ∀ arg, s.call f arg = ((M.run m.pointer arg r).1.map f.signature.convert, none,
        { s with allocations := s.allocations.modify i fun _ => (M.run m.pointer arg r).2 }) := by
      intro arg
      simp only [call, hp, runPayload, hcopy, callMethod, hi, hr]
    refine ⟨iff_of_false (by rw [hp]; simp) (by rw [Method.isBound, hi]; simp), ?_, ?_⟩
    · intro j hj
      obtain rfl : i = j := Option.some.inj (hi.symm.trans hj)
      exact ⟨r, hr, hcall⟩
    · intro arg harg
      rw [hcall] at harg
      refine ⟨i, r, hi, hr, ?_⟩
      cases hrun : (M.run m.pointer arg r).1 with
      | ok o =>
        rw [hrun] at harg
        exact nomatch harg
      | error fault =>
        rw [hrun] at harg
        exact congrArg _ (Except.error.inj harg)

/-- Two functions that hold copies are equal if they hold the same. -/
theorem Keeps.equals_iff_eq {m m' : Method M} {f f' : Function} {i i' : ReceiverId}
    (h : s.Keeps m f) (h' : s.Keeps m' f') (hi : m.receiver = some i) (hi' : m'.receiver = some i') :
    s.equals f f' = true ↔ m = m' := by
  obtain ⟨p, hp, hcopy⟩ := h.copy i hi
  obtain ⟨p', hp', hcopy'⟩ := h'.copy i' hi'
  rw [s.compares.iff f f', hp, hp']
  constructor
  · rintro (hone | ⟨q, q', a, b, hq, hq', halike, hsame⟩)
    · -- one payload, so one copy
      obtain rfl := Option.some.inj (hone.eq_some hcopy')
      obtain ⟨⟩ := Option.some.inj (hcopy.symm.trans hcopy')
      rfl
    · obtain rfl := Option.some.inj hq
      obtain rfl := Option.some.inj hq'
      obtain rfl := Option.some.inj (halike.left.symm.trans hcopy)
      obtain rfl := Option.some.inj (halike.right.symm.trans hcopy')
      exact of_decide_eq_true hsame
  · rintro rfl
    by_cases hpp : p = p'
    · exact .inl (.inl (congrArg some hpp))
    · exact .inr ⟨p, p', _, _, rfl, rfl, ⟨hcopy, hcopy', hpp, rfl, rfl⟩, decide_eq_true rfl⟩

/-- An empty function is not equal to one that holds a copy. -/
theorem Keeps.not_one {m : Method M} {f : Function} {i : ReceiverId} (h : s.Keeps m f)
    (hi : m.receiver = some i) : ¬s.rack.One none f.payload := by
  obtain ⟨p, hp, hcopy⟩ := h.copy i hi
  intro hone
  rw [hp] at hone
  exact nomatch hone.eq_some hcopy

/-- Two functions made from methods are equal if the methods had one receiver and one pointer; those
    made from methods without a receiver are empty, and equal. -/
theorem Keeps.equals_iff {m m' : Method M} {f f' : Function} (h : s.Keeps m f) (h' : s.Keeps m' f') :
    s.equals f f' = true ↔
      m.receiver = m'.receiver ∧ (m.isBound = true → m.pointer = m'.pointer) := by
  cases hi : m.receiver with
  | none =>
    rw [s.compares.iff f f', h.empty hi]
    cases hi' : m'.receiver with
    | none =>
      rw [h'.empty hi']
      exact iff_of_true (.inl (.inl rfl)) ⟨rfl, by rw [Method.isBound, hi]; exact nofun⟩
    | some i' =>
      refine iff_of_false ?_ fun hand => nomatch hand.1
      rintro (hone | ⟨p, q, a, b, hp, -⟩)
      · exact h'.not_one hi' hone
      · exact nomatch hp
  | some i =>
    cases hi' : m'.receiver with
    | none =>
      rw [s.compares.iff f f', h'.empty hi']
      refine iff_of_false ?_ fun hand => nomatch hand.1
      rintro (hone | ⟨p, q, a, b, -, hq, -⟩)
      · exact h.not_one hi hone.symm
      · exact nomatch hq
    | some i' =>
      rw [h.equals_iff_eq h' hi hi']
      constructor
      · rintro rfl
        exact ⟨hi.symm.trans hi', fun _ => rfl⟩
      · rintro ⟨hreceiver, hpointer⟩
        have hsame : m.receiver = m'.receiver := hi.trans (hreceiver.trans hi'.symm)
        cases m
        cases m'
        obtain rfl := hpointer (by rw [Method.isBound, hi]; rfl)
        obtain rfl := hsame
        rfl

end Store

/-! ## What functions were made from -/

/-- The methods that functions were made from, under the names of these functions and of their clones,
    after a step that is carried out on `s`. -/
def Step.capture (s : Store M) (c : Table String (Method M)) : Step M → Table String (Method M)
  | .function name _ (.method source) _ => (s.methods.get? source).elim c (c.insert name)
  | .function name .. => c.erase name
  | .use name (.clone as) => (c.get? name).elim (c.erase as) (c.insert as)
  | .dropFunction name => c.erase name
  | _ => c

/-- The methods that functions were made from, as they were then, after steps. -/
def captures (s : Store M) (c : Table String (Method M)) : List (Step M) → Table String (Method M)
  | [] => c
  | step :: rest =>
    captures (step.next s)
      (match step.run s with
      | .ok _ => step.capture s c
      | .error _ => c) rest

/-- Every function in the list has its name, and holds what it was made from. -/
def Store.Tallies (s : Store M) (c : Table String (Method M)) : Prop :=
  ∀ name m, c.get? name = some m → ∃ f, s.functions.get? name = some f ∧ s.Keeps m f

theorem Store.tallies_nil : ({} : Store M).Tallies {} := by
  intro name m hm
  exact nomatch (show none = some m from hm)

/-- Functions that keep their names hold what they held. -/
theorem Store.Tallies.later {s t : Store M} {c : Table String (Method M)} (hc : s.Tallies c)
    (hst : s.Precedes t) (ht : t.Balanced [] []) {name : String} {m : Method M}
    (hm : c.get? name = some m) (hsame : t.functions.get? name = s.functions.get? name) :
    ∃ f, t.functions.get? name = some f ∧ t.Keeps m f := by
  obtain ⟨f, hf, hkeeps⟩ := hc name m hm
  have hnamed : t.functions.get? name = some f := hsame.trans hf
  exact ⟨f, hnamed, hkeeps.later hst ht hnamed⟩

theorem Step.capture_of_names {step : Step M} (h : step.names? = none) (s : Store M)
    (c : Table String (Method M)) : step.capture s c = c := by
  cases step with
  | function name signature kind label => exact nomatch h
  | dropFunction name => exact nomatch h
  | use name action =>
    cases action with
    | clone as => exact nomatch h
    | _ => rfl
  | _ => rfl

/-- A step changes the list under one name only. -/
theorem Step.capture_of_ne {step : Step M} {name name' : String} (h : step.names? = some name)
    (hname : name ≠ name') (s : Store M) (c : Table String (Method M)) :
    (step.capture s c).get? name' = c.get? name' := by
  have herase : (c.erase name).get? name' = c.get? name' := by rw [Table.get?_erase, if_neg hname]
  have hinsert : ∀ m, (c.insert name m).get? name' = c.get? name' := fun m => by
    rw [Table.get?_insert, if_neg hname]
  cases step with
  | function _ signature kind label =>
    obtain rfl := Option.some.inj h
    cases kind with
    | method source =>
      rw [Step.capture]
      cases s.methods.get? source with
      | none => rfl
      | some m => exact hinsert m
    | _ => exact herase
  | dropFunction _ =>
    obtain rfl := Option.some.inj h
    exact herase
  | use from_ action =>
    cases action with
    | clone as =>
      obtain rfl := Option.some.inj h
      rw [Step.capture]
      cases c.get? from_ with
      | none => exact herase
      | some m => exact hinsert m
    | _ => exact nomatch h
  | _ => exact nomatch h

/-- If the list has a method for a function that was just made, it was made from this method. -/
theorem Kind.Makes.keeps {s : Store M} {signature : Signature} {kind : Kind}
    {made : Function × Store M} (h : kind.Makes s signature made) {c : Table String (Method M)}
    {name : String} {label : Option String} {m : Method M}
    (hm : (Step.capture s c (.function name (some signature) kind label)).get? name = some m) :
    made.2.Keeps m made.1 := by
  cases h with
  | empty other | payload other =>
    have hgone : (c.erase name).get? name = some m := by
      cases kind with
      | method source => exact nomatch other
      | _ => exact hm
    rw [Table.get?_erase, if_pos rfl] at hgone
    exact nomatch hgone
  | method source n there =>
    rw [Step.capture, there, Option.elim_some, Table.get?_insert, if_pos rfl] at hm
    obtain rfl := Option.some.inj hm
    exact s.keeps_functionOfMethod signature n

/-- What is made has no name yet, and no old payload changes. -/
theorem Kind.Makes.frame {s : Store M} {signature : Signature} {kind : Kind}
    {made : Function × Store M} (h : kind.Makes s signature made) :
    made.2.functions = s.functions ∧ s.Precedes made.2 := by
  cases h with
  | empty => exact ⟨rfl, .of_eq rfl⟩
  | payload other load holds => exact ⟨rfl, s.precedes_makeFunction signature load⟩
  | method source m there =>
    unfold Store.functionOfMethod
    split
    · obtain ⟨allocations, heq⟩ := s.retainMethod_eq m
      rw [heq]
      have hretained : s.Precedes { s with allocations } := .of_eq rfl
      exact ⟨rfl, hretained.trans (Store.precedes_makeFunction _ signature _)⟩
    · exact ⟨rfl, .of_eq rfl⟩

/-- A function takes a name, and the list changes there: the others are as before. -/
theorem Store.Tallies.named {s t : Store M} {c c' : Table String (Method M)} (hc : s.Tallies c)
    (hst : s.Precedes t) (ht : t.Balanced [] []) {name : String} {f : Function}
    (hnames : t.functions = s.functions.insert name f)
    (hsame : ∀ name', name ≠ name' → c'.get? name' = c.get? name')
    (hnew : ∀ m, c'.get? name = some m → t.functions.get? name = some f → t.Keeps m f) :
    t.Tallies c' := by
  intro name' m hm
  by_cases hname : name = name'
  · subst hname
    have hf : t.functions.get? name = some f := by rw [hnames, Table.get?_insert, if_pos rfl]
    exact ⟨f, hf, hnew m hm hf⟩
  · rw [hsame name' hname] at hm
    refine hc.later hst ht hm ?_
    rw [hnames, Table.get?_insert, if_neg hname]

/-- One step: the list goes with the store. -/
theorem Step.Does.tallies {s t : Store M} {step : Step M} {c : Table String (Method M)}
    (h : step.Does s t) (hs : s.Balanced [] []) (hc : s.Tallies c) : t.Tallies (step.capture s c) := by
  have ht := h.balanced hs
  cases h with
  | aside other h =>
    rw [Step.capture_of_names other]
    intro name m hm
    exact hc.later h.precedes ht hm (congrArg (·.get? name) h.frame.1)
  | @make name signature kind label made h =>
    have hbind := made.2.precedes_bindFunction name made.1
    have hnames : (made.2.bindFunction name made.1).functions = s.functions.insert name made.1 := by
      rw [Store.functions_bindFunction, h.frame.1]
    exact hc.named (h.frame.2.trans hbind) ht hnames
      (fun name' hname => Step.capture_of_ne rfl hname s c)
      fun m hm hf => (h.keeps hm).later hbind ht hf
  | clone name as f there =>
    have hprecedes := (s.precedes_retainFunction f).trans (Store.precedes_bindFunction _ as f)
    have hnames : ((s.retainFunction f).bindFunction as f).functions = s.functions.insert as f := by
      rw [Store.functions_bindFunction, s.functions_retainFunction]
    refine hc.named hprecedes ht hnames (fun name' hname => Step.capture_of_ne rfl hname s c) ?_
    intro m hm hf
    -- the list has for the clone what it has for the function that was cloned
    rw [Step.capture] at hm
    cases hn : c.get? name with
    | none =>
      rw [hn, Option.elim_none, Table.get?_erase, if_pos rfl] at hm
      exact nomatch hm
    | some n =>
      rw [hn, Option.elim_some, Table.get?_insert, if_pos rfl] at hm
      obtain rfl := Option.some.inj hm
      obtain ⟨g, hg, hkeeps⟩ := hc name n hn
      obtain rfl := Option.some.inj (there.symm.trans hg)
      exact hkeeps.later hprecedes ht hf
  | drop name f there =>
    intro name' m hm
    by_cases hname : name = name'
    · rw [Step.capture, Table.get?_erase, if_pos hname] at hm
      exact nomatch hm
    · rw [Step.capture_of_ne rfl hname] at hm
      have herased : s.Precedes { s with functions := s.functions.erase name } := .of_eq rfl
      refine hc.later (herased.trans (Store.precedes_releaseFunction _ f)) ht hm ?_
      rw [Store.functions_releaseFunction]
      show (s.functions.erase name).get? name' = s.functions.get? name'
      rw [Table.get?_erase, if_neg hname]
  | absent name there =>
    intro name' m hm
    rw [Step.capture, Table.get?_erase] at hm
    split at hm
    · exact nomatch hm
    · exact hc name' m hm

/-- Any steps. -/
theorem Store.Tallies.captures {s : Store M} {c : Table String (Method M)} (hc : s.Tallies c)
    (hs : s.Balanced [] []) (steps : List (Step M)) :
    (after s steps).Tallies (captures s c steps) := by
  induction steps generalizing s c with
  | nil => exact hc
  | cons step rest ih =>
    rw [after, Functions.captures]
    rcases step.next_cases s with ⟨e, hrun, heq, hdoes⟩ | ⟨what, hrun, heq⟩
    · rw [hrun, heq]
      exact ih (hdoes.tallies hs hc) (hdoes.balanced hs)
    · rw [hrun, heq]
      exact ih hc hs

/-! ## Methods are captured by value -/

/-- After any steps, a function that was made from a method, and every clone of it, is what the method
    was THEN, whatever has become of the method: it is empty if the method was not bound; else it runs
    the method's pointer on the receiver that the method was bound to, which is still there; and two
    such functions are equal if they captured one receiver and one pointer. -/
theorem methods_captured_by_value (M : Methods) (steps : List (Step M)) (name : String) (m : Method M)
    (h : (captures {} {} steps).get? name = some m) :
    ∃ f, (after {} steps).functions.get? name = some f ∧ (after {} steps).Honours m f ∧
      ∀ name' m', (captures {} {} steps).get? name' = some m' →
        ∃ f', (after {} steps).functions.get? name' = some f' ∧
          ((after {} steps).equals f f' = true ↔
            m.receiver = m'.receiver ∧ (m.isBound = true → m.pointer = m'.pointer)) := by
  have hall : (after ({} : Store M) steps).Tallies (captures {} {} steps) :=
    Store.tallies_nil.captures Store.balanced_nil steps
  obtain ⟨f, hf, hkeeps⟩ := hall name m h
  refine ⟨f, hf, hkeeps.honours (Store.balanced_after steps), fun name' m' h' => ?_⟩
  obtain ⟨f', hf', hkeeps'⟩ := hall name' m' h'
  exact ⟨f', hf', hkeeps.equals_iff hkeeps'⟩

/-- A method is bound to `first`, made into a function and copied; it is bound to `second` and made into
    a function again.  Then it goes, and so do the name of `first` and the function itself. -/
def rebinding : List (Step accounts) :=
  [ .receiver "first" 1, .receiver "second" 100,
    .method "read" (some Accessor.balance) (some "first"),
    .function "before" (some .unit) (.method "read") none,
    .use "before" (.clone "copy"),
    .bind "read" "second",
    .function "later" (some .unit) (.method "read") none,
    .dropMethod "read", .dropReceiver "first", .dropFunction "before" ]

/-- The copy still reads `first`, and is not equal to what was made later. -/
theorem methods_captured_by_value_rebinding :
    (captures {} {} rebinding).get? "copy" = some ⟨Accessor.balance, some 0⟩ ∧
      ∃ f f', (after {} rebinding).functions.get? "copy" = some f ∧
        (∀ arg, ((after {} rebinding).call f arg).1 = .ok (.int 1)) ∧
        (after {} rebinding).functions.get? "later" = some f' ∧
        (after {} rebinding).equals f f' = false := by
  have hcopy : (captures {} {} rebinding).get? "copy" = some ⟨Accessor.balance, some 0⟩ := by
    decide +kernel
  have hlater : (captures {} {} rebinding).get? "later" = some ⟨Accessor.balance, some 1⟩ := by
    decide +kernel
  obtain ⟨f, hf, hhonours, hall⟩ := methods_captured_by_value accounts rebinding "copy" _ hcopy
  obtain ⟨f', hf', hequals⟩ := hall "later" _ hlater
  obtain ⟨r, hr, hcalls⟩ := hhonours.calls 0 rfl
  have hfirst : (after {} rebinding).allocations.get? 0 = some (⟨"first", 1⟩ : Account) := rfl
  obtain rfl := Option.some.inj (hr.symm.trans hfirst)
  have hsignature : f.signature = .unit := by
    have hread : ((after {} rebinding).functions.get? "copy").map Function.signature =
        some Signature.unit := by decide +kernel
    rw [hf] at hread
    exact Option.some.inj hread
  refine ⟨hcopy, f, f', hf, fun arg => ?_, hf', ?_⟩
  · rw [hcalls arg, hsignature]
    cases arg <;> rfl
  · rw [Bool.eq_false_iff, Ne, hequals]
    rintro ⟨hreceiver, -⟩
    exact nomatch hreceiver

end Relay.Functions
