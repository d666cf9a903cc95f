/-
  What an input can lack.

  Every operation checks its needs in a fixed order, and the FIRST one that is not met is reported.
-/
namespace Relay

/-- The need that was not met. -/
inductive BadInput where
  | json
  | op
  | type
  | value
  | handler
  | arg
  | operand
  | calculation
  | cond
  | listener
  | simple
  | function
  | event
  | eventInUse
  | chain
  | chainInUse
  | placement
  | pointer
  | left
  | right
  | method
  | receiver
  | other
  | signatures
  | name
  | new
  | fuel
  deriving DecidableEq, Repr

/-- The word for it in a report. -/
def BadInput.what : BadInput → String
  | .json => "json"
  | .op => "op"
  | .type => "type"
  | .value => "value"
  | .handler => "handler"
  | .arg => "arg"
  | .operand => "by"
  | .calculation => "f"
  | .cond => "cond"
  | .listener => "listener"
  | .simple => "simple"
  | .function => "function"
  | .event => "event"
  | .eventInUse => "event in use"
  | .chain => "chain"
  | .chainInUse => "chain in use"
  | .placement => "at"
  | .pointer => "fn"
  | .left => "left"
  | .right => "right"
  | .method => "method"
  | .receiver => "receiver"
  | .other => "other"
  | .signatures => "signatures differ"
  | .name => "name"
  | .new => "new"
  | .fuel => "fuel"

/-- The value that is needed, or what is lacking without it. -/
def need {α : Type} (what : BadInput) : Option α → Except BadInput α
  | some a => .ok a
  | none => .error what

/-- What is carried out was carried out up to there. -/
theorem bind_ok {α β : Type} {x : Except BadInput α} {f : α → Except BadInput β} {b : β}
    (h : (x >>= f) = .ok b) : ∃ a, x = .ok a ∧ f a = .ok b := by
  cases x with
  | error what => exact nomatch h
  | ok a => exact ⟨a, rfl, h⟩

/-- A step that needs a value and is carried out had it. -/
theorem need_bind_ok {α β : Type} {what : BadInput} {o : Option α} {f : α → Except BadInput β} {b : β}
    (h : (need what o >>= f) = .ok b) : ∃ a, o = some a ∧ f a = .ok b := by
  cases o with
  | none => exact nomatch h
  | some a => exact ⟨a, rfl, h⟩

end Relay
