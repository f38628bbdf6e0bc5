/-! # Hexadecimal numbers

Reading and writing natural numbers in base sixteen, with a fixed number of digits.
-/

namespace Installer.Text.Hex

/-- The value of a hexadecimal digit of either case. -/
def value? (c : Char) : Option Nat :=
  if c.isDigit then some (c.toNat - '0'.toNat)
  else if 'a' ≤ c ∧ c ≤ 'f' then some (c.toNat - 'a'.toNat + 10)
  else if 'A' ≤ c ∧ c ≤ 'F' then some (c.toNat - 'A'.toNat + 10)
  else none

/-- The number that the digits write, `none` when one of them is no hexadecimal digit. -/
def toNat? (digits : List Char) : Option Nat :=
  digits.foldlM (fun n c => (value? c).map fun d => 16 * n + d) 0

/-- The last `width` digits of a number, in lower case. -/
def ofNat (width n : Nat) : List Char :=
  (List.range width).reverse.map fun place => Nat.digitChar (n >>> (4 * place) % 16)

end Installer.Text.Hex
