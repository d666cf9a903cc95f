/-
  Numbers in base sixteen, with all their digits.
-/
namespace Relay.Text

/-- The digit for a value below sixteen. -/
def hexDigit (n : Nat) : Char := "0123456789abcdef".toList.getD n '0'

/-- The last `k` digits of a number, the most significant one first. -/
def hexDigits : Nat → Nat → List Char
  | 0, _ => []
  | k + 1, n => hexDigits k (n / 16) ++ [hexDigit (n % 16)]

/-- The bits of a double-precision number, as sixteen digits. -/
def floatBits (x : Float) : String := String.ofList (hexDigits 16 x.toBits.toNat)

example : hexDigits 4 43981 = ['a', 'b', 'c', 'd'] := by decide

end Relay.Text
