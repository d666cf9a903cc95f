/-
  Ready-made functions, known by NAME.

  Two pointers are equal when they are the same function, and they can only be compared when they
  have one type: what they take and what they return.  A name belongs to a signature; some functions
  serve two of them.
-/
import Relay.Fault
import Relay.Functions.Signature

namespace Relay.Functions

/-- The ready-made functions. -/
inductive Pointer where
  | plusOne
  | plusTwo
  /-- Faults below zero. -/
  | checked
  /-- Half of an even number. -/
  | half
  | never
  | plusOne32
  | square64
  | isEven
  | lowByte
  | lowSigned
  | same32
  /-- A tenth, computed in single precision. -/
  | tenth
  /-- A third, computed in double precision. -/
  | third
  | kind
  | reverse
  | first
  | boxed
  | seven
  | no
  | sum
  | diff
  /-- Says its argument. -/
  | note
  | ignore
  | latin
  | digit
  deriving DecidableEq, Repr

/-- The functions of a signature, by name. -/
def Signature.pointers : Signature → List (String × Pointer)
  | .int => [("plus_one", .plusOne), ("plus_two", .plusTwo), ("checked", .checked)]
  | .opt => [("plus_one", .plusOne), ("checked", .checked), ("half", .half), ("never", .never)]
  | .wide => [("plus_one32", .plusOne32), ("square64", .square64), ("is_even", .isEven),
      ("low_byte", .lowByte), ("low_signed", .lowSigned)]
  | .float => [("same32", .same32), ("tenth", .tenth), ("third", .third)]
  | .text => [("kind", .kind), ("reverse", .reverse), ("first", .first), ("boxed", .boxed)]
  | .unit => [("seven", .seven), ("no", .no)]
  | .unitOpt => [("seven", .seven)]
  | .pair => [("sum", .sum), ("diff", .diff)]
  | .void => [("note", .note), ("ignore", .ignore)]
  | .char => [("latin", .latin), ("digit", .digit)]

/-- The function of a signature with this name. -/
def Signature.pointer? (sig : Signature) (name : String) : Option Pointer := sig.pointers.lookup name

/-- What a function takes. -/
def Pointer.input : Pointer → String
  | .plusOne | .plusTwo | .checked | .half | .never | .note | .ignore => "i64"
  | .plusOne32 | .square64 | .isEven | .lowByte | .lowSigned | .same32 | .tenth | .third => "i32"
  | .kind | .reverse | .first | .boxed => "alloc::string::String"
  | .seven | .no => "()"
  | .sum | .diff => "(i64, i64)"
  | .latin | .digit => "u8"

/-- What a function returns, if it returns anything. -/
def Pointer.output : Pointer → Option String
  | .plusOne | .plusTwo | .checked | .square64 | .seven | .sum | .diff => some "i64"
  | .half | .never => some "core::option::Option<i64>"
  | .plusOne32 | .same32 => some "i32"
  | .isEven | .no => some "bool"
  | .lowByte | .latin => some "u8"
  | .lowSigned => some "i8"
  | .tenth => some "f32"
  | .third => some "f64"
  | .kind => some "&str"
  | .reverse => some "alloc::string::String"
  | .first | .digit => some "char"
  | .boxed => some "alloc::boxed::Box<str>"
  | .note | .ignore => none

/-- The name of a function's type: it says what the function takes and returns, and nothing else. -/
def Pointer.typeName (p : Pointer) : String :=
  "fn(" ++ p.input ++ ")" ++
    match p.output with
    | some output => " -> " ++ output
    | none => ""

/-- What a function returns for an argument.  One that the function does not take yields nothing. -/
def Pointer.run (p : Pointer) (arg : Arg) : Except Fault Output :=
  match p, arg with
  | .plusOne, .int n => .ok (.int (n + 1))
  | .plusTwo, .int n => .ok (.int (n + 2))
  | .checked, .int n =>
    if n < 0 then .error (.raised ("negative input: " ++ toString n.toInt)) else .ok (.int n)
  | .half, .int n => .ok (.option (if n % 2 = 0 then some (n / 2) else none))
  | .never, .int _ => .ok (.option none)
  | .plusOne32, .small n => .ok (.int32 (n + 1))
  | .square64, .small n => .ok (.int (n.toInt64 * n.toInt64))
  | .isEven, .small n => .ok (.bool (n % 2 = 0))
  | .lowByte, .small n => .ok (.byte n.toUInt32.toUInt8)
  | .lowSigned, .small n => .ok (.int8 n.toInt8)
  | .same32, .small n => .ok (.int32 n)
  | .tenth, .small n => .ok (.float32 (n.toFloat32 / 10))
  | .third, .small n => .ok (.float (n.toFloat / 3))
  | .kind, .text s => .ok (.text (if s.isEmpty then "empty" else "some ✓"))
  | .reverse, .text s => .ok (.text (String.ofList s.toList.reverse))
  | .first, .text s => .ok (.char (s.toList.head?.getD '?'))
  | .boxed, .text s => .ok (.text ("[" ++ s ++ "]"))
  | .seven, .unit => .ok (.int 7)
  | .no, .unit => .ok (.bool false)
  | .sum, .pair a b => .ok (.int (a + b))
  | .diff, .pair a b => .ok (.int (a - b))
  | .latin, .byte n => .ok (.byte n)
  | .digit, .byte n => .ok (.char (Char.ofNat (48 + n.toNat % 10)))
  | _, _ => .ok .nothing

end Relay.Functions
