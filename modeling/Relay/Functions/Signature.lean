/-
  What functions take and return.

  A function has one of ten signatures.  A callable may return something NARROWER than its function
  does: what it returns is then converted, and no conversion loses anything.  Arguments are checked
  against the signature before anything is called.
-/
namespace Relay.Functions

/-- The ten signatures. -/
inductive Signature where
  | int
  | opt
  | wide
  | float
  | text
  | unit
  | unitOpt
  | pair
  | void
  | char
  deriving DecidableEq, Repr

/-- An argument as it was given, before it is held against a signature. -/
inductive Given where
  | nothing
  | int (n : Int)
  | text (s : String)
  | pair (a b : Int)
  | other
  deriving DecidableEq, Repr

/-- An argument of some signature. -/
inductive Arg where
  | int (n : Int64)
  | small (n : Int32)
  | text (s : String)
  | unit
  | pair (a b : Int64)
  | byte (n : UInt8)

/-- An integer, if 64 bits hold it. -/
def int64? (n : Int) : Option Int64 :=
  if -9223372036854775808 ≤ n ∧ n < 9223372036854775808 then some (Int64.ofInt n) else none

/-- An integer, if 32 bits hold it. -/
def int32? (n : Int) : Option Int32 :=
  if -2147483648 ≤ n ∧ n < 2147483648 then some (Int32.ofInt n) else none

/-- A number that is not negative, if a byte holds it. -/
def byte? (n : Int) : Option UInt8 := if 0 ≤ n ∧ n < 256 then some (UInt8.ofNat n.toNat) else none

/-- The argument, if the signature takes it. -/
def Signature.accept : Signature → Given → Option Arg
  | .int, .int n | .opt, .int n | .void, .int n => (int64? n).map .int
  | .wide, .int n | .float, .int n => (int32? n).map .small
  | .text, .text s => some (.text s)
  | .unit, .nothing | .unitOpt, .nothing => some .unit
  | .pair, .pair a b => do some (.pair (← int64? a) (← int64? b))
  | .char, .int n => (byte? n).map .byte
  | _, _ => none

/-- What a callable returns. -/
inductive Output where
  | int (n : Int64)
  | option (n : Option Int64)
  | int32 (n : Int32)
  | bool (b : Bool)
  | byte (n : UInt8)
  | int8 (n : Int8)
  | float32 (x : Float32)
  | float (x : Float)
  | text (s : String)
  | char (c : Char)
  | nothing

/-- What a function returns. -/
inductive Result where
  | int (n : Int64)
  | option (n : Option Int64)
  | float (x : Float)
  | text (s : String)
  | char (c : Char)
  | done

/-- The result of a function of this signature whose callable returned `o`. -/
def Signature.convert : Signature → Output → Result
  | .opt, .int n | .unitOpt, .int n => .option (some n)
  | .float, .int32 n => .float n.toFloat
  | .text, .char c => .text (String.ofList [c])
  | .char, .byte n => .char (Char.ofNat n.toNat)
  | _, .int n => .int n
  | _, .option n => .option n
  | _, .int32 n => .int n.toInt64
  | _, .bool b => .int (if b then 1 else 0)
  | _, .byte n => .int (Int64.ofNat n.toNat)
  | _, .int8 n => .int n.toInt64
  | _, .float32 x => .float x.toFloat
  | _, .float x => .float x
  | _, .text s => .text s
  | _, .char c => .char c
  | _, .nothing => .done

end Relay.Functions
