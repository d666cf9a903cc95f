/-
  Methods: a pointer to a function on receivers, together with the receiver it is bound to.

  A method that is not bound can be made, copied and compared, but not called.  Binding replaces the
  receiver; a copy keeps the one it was made with.  Methods are equal when they are bound to the SAME
  receiver, not to equal ones, and have the same pointer.

  What receivers are and what the pointers do is a parameter (`Methods`): nothing in this library looks
  into either.  The sessions are about accounts, so this is what is meant where nothing is said.
-/
import Relay.Fault
import Relay.Functions.Signature

namespace Relay.Functions

/-! ## Receivers and pointers -/

/-- Names of receivers. -/
abbrev ReceiverId := Nat

/-- What methods are bound to, and the functions that they run. -/
structure Methods where
  Receiver : Type
  /-- A pointer to a function on receivers; it is the same as another or it is not. -/
  Pointer : Type
  [pointerEq : DecidableEq Pointer]
  /-- The receiver that is made under a name, with an amount. -/
  make : String → Int64 → Receiver
  /-- What is recorded when a receiver is let go of for the last time. -/
  label : Receiver → String
  balance : Receiver → Int64
  /-- The name of the pointer's type. -/
  typeName : Pointer → String
  /-- The signature under which the pointer takes its argument. -/
  signature : Pointer → Signature
  /-- Whether a function of a signature can be made from a method with this pointer. -/
  fits : Pointer → Signature → Bool
  /-- What the pointer returns, and the receiver afterwards. -/
  run : Pointer → Arg → Receiver → Except Fault Output × Receiver

attribute [instance] Methods.pointerEq

/-! ## Accounts -/

/-- What the methods of a session work on. -/
structure Account where
  label : String
  balance : Int64
  deriving DecidableEq, Repr

/-- The functions on accounts. -/
inductive Accessor where
  /-- Adds the argument and returns the balance. -/
  | deposit
  /-- Takes the argument away, unless it is negative, and returns the balance. -/
  | withdraw
  | balance
  /-- Sets the balance to zero and returns the old one. -/
  | reset
  deriving DecidableEq, Repr

namespace Accessor

/-- The function with this name. -/
def ofName? : String → Option Accessor
  | "deposit" => some .deposit
  | "withdraw" => some .withdraw
  | "balance" => some .balance
  | "reset" => some .reset
  | _ => none

/-- Whether the function takes an argument; if not, it is called with nothing. -/
def takesInt : Accessor → Bool
  | .deposit | .withdraw => true
  | .balance | .reset => false

/-- The name of the function's type. -/
def typeName (a : Accessor) : String :=
  if a.takesInt then "fn(&'_ callchain_oracle::func::Account, i64) -> i64"
  else "fn(&'_ callchain_oracle::func::Account) -> i64"

/-- The signature under which the function takes its argument. -/
def signature (a : Accessor) : Signature := if a.takesInt then .int else .unit

/-- What the function returns, and the account afterwards. -/
def run (a : Accessor) (arg : Arg) (account : Account) : Except Fault Output × Account :=
  match a, arg with
  | .deposit, .int n =>
    let balance := account.balance + n
    (.ok (.int balance), { account with balance })
  | .withdraw, .int n =>
    if n < 0 then (.error (.raised ("negative amount " ++ toString n.toInt)), account)
    else
      let balance := account.balance - n
      (.ok (.int balance), { account with balance })
  | .reset, _ => (.ok (.int account.balance), { account with balance := 0 })
  | _, _ => (.ok (.int account.balance), account)

/-- Whether a function of this signature can call it. -/
def fits (a : Accessor) : Signature → Bool
  | .int | .opt => a.takesInt
  | .unit | .unitOpt => !a.takesInt
  | _ => false

end Accessor

/-- Accounts, and the functions on them. -/
def accounts : Methods where
  Receiver := Account
  Pointer := Accessor
  make := .mk
  label := Account.label
  balance := Account.balance
  typeName := Accessor.typeName
  signature := Accessor.signature
  fits := Accessor.fits
  run := Accessor.run

/-! ## Methods -/

/-- A method. -/
structure Method (M : Methods := accounts) where
  pointer : M.Pointer
  receiver : Option ReceiverId
  deriving DecidableEq

namespace Method

variable {M : Methods}

def isBound (m : Method M) : Bool := m.receiver.isSome

/-- The method with another receiver. -/
def bind (m : Method M) (receiver : ReceiverId) : Method M := { m with receiver := some receiver }

/-- Equality: the same receiver and the same pointer. -/
def same (l r : Method M) : Bool := l = r

/-- How a method is shown: with its type, and with the place of its receiver left out. -/
def debugText (m : Method M) : String :=
  let receiver := if m.isBound then "Some(<address>)" else "None"
  "Method \x7b receiver: " ++ receiver ++ ", method: \"" ++ M.typeName m.pointer ++ "\" \x7d"

end Method

end Relay.Functions
