/-! # Doubles

A number with a fraction or an exponent is kept with the precision of a double of 64 bits, and
written with the fewest digits that lead back to the same double. All arithmetic is exact, on
natural numbers.
-/

namespace Installer.Json

structure Double where
  mantissa : Nat
  exponent : Int
deriving DecidableEq, Repr

namespace Double

/-! ## Rounding -/

/-- The quotient rounded to the nearest natural number, a half to the even one. -/
def roundDiv (num den : Nat) : Nat :=
  let quotient := num / den
  let double := 2 * (num % den)
  if double < den then quotient
  else if den < double then quotient + 1
  else quotient + quotient % 2

/-- The bound of a mantissa: it has fifty-three bits. -/
def mantissaBound : Nat :=
  1 <<< 53

def minExponent : Int :=
  -1074

/-- The double nearest to `num / den`, a tie going to the even mantissa. -/
def nearest (num den : Nat) : Double :=
  if num = 0 then ⟨0, 0⟩
  else
    let guess : Int := (num.log2 : Int) - (den.log2 : Int) - 52
    let scaled (q : Int) : Nat :=
      if 0 ≤ q then roundDiv num (den <<< q.toNat) else roundDiv (num <<< (-q).toNat) den
    let below := max (guess - 1) minExponent
    let q := if scaled below < mantissaBound then below else max guess minExponent
    let m := scaled q
    if m < mantissaBound then ⟨m, q⟩ else ⟨m / 2, q + 1⟩

def overflows (x : Double) : Bool :=
  decide (1 <<< 1024 ≤ x.mantissa <<< x.exponent.toNat)

def toQuotient (x : Double) : Nat × Nat :=
  if 0 ≤ x.exponent then (x.mantissa <<< x.exponent.toNat, 1)
  else (x.mantissa, 1 <<< (-x.exponent).toNat)

/-- The double nearest to `n * 10 ^ k`. -/
def ofDecimal (n : Nat) (k : Int) : Double :=
  if 0 ≤ k then nearest (n * Nat.pow 10 k.toNat) 1 else nearest n (Nat.pow 10 (-k).toNat)

def digitCount (n : Nat) : Nat :=
  (Nat.toDigits 10 n).length

/-- The double nearest to `n * 10 ^ k`, `none` where that is too large to be one. -/
def ofDecimal? (n : Nat) (k : Int) : Option Double :=
  let magnitude : Int := digitCount n + k
  if n = 0 ∨ magnitude < -330 then some ⟨0, 0⟩
  else if 310 < magnitude then none
  else
    let x := ofDecimal n k
    if x.overflows then none else some x

/-- Stands for a number beyond every double, and for none at all. -/
def infinite : Double :=
  ⟨1, 1024⟩

/-! ## Rounding in steps -/

def mul (x y : Double) : Double :=
  let (a, b) := x.toQuotient
  let (p, q) := y.toQuotient
  nearest (a * p) (b * q)

def div (x y : Double) : Double :=
  let (a, b) := x.toQuotient
  let (p, q) := y.toQuotient
  nearest (a * q) (b * p)

/-- The largest power of ten that is a double. -/
def maxPower : Nat :=
  308

/-- The double divided by `10 ^ k`, by the largest power first while `k` is beyond it. Whatever is
left after some of these divisions is zero. -/
def scaledDown (x : Double) : Nat → Nat → Double
  | 0, _ => ⟨0, 0⟩
  | steps + 1, k =>
    if k ≤ maxPower then x.div (ofDecimal 1 k)
    else (x.div (ofDecimal 1 maxPower)).scaledDown steps (k - maxPower)

/-- The number `n * 10 ^ k` by rounded steps: `n` and the power of ten are rounded, and what they
give again. It may differ from the nearest double in the last place; `none` where it is too large.
-/
def inSteps? (n : Nat) (k : Int) : Option Double :=
  if n = 0 then some ⟨0, 0⟩
  else if k < 0 then some ((nearest n 1).scaledDown 3 (-k).toNat)
  else if maxPower < k then none
  else
    let x := (nearest n 1).mul (ofDecimal 1 k)
    if x.overflows then none else some x

/-! ## The fewest digits -/

/-- The decimals between which a double lies on the grid of multiples of `10 ^ k`, the nearer first;
of two that are equally near, the even one. -/
def neighbours (num den : Nat) (k : Int) : List Nat :=
  let (num, den) :=
    if 0 ≤ k then (num, den * Nat.pow 10 k.toNat) else (num * Nat.pow 10 (-k).toNat, den)
  let low := num / den
  if roundDiv num den = low then [low, low + 1] else [low + 1, low]

/-- The digits and the power of ten of the shortest decimal that leads back to the double, on grids
that grow finer from `10 ^ k` on. -/
def shortestFrom (x : Double) : Nat → Int → Nat × Int
  | 0, _ => (x.toQuotient.1, 0)
  | tries + 1, k =>
    let (num, den) := x.toQuotient
    match (neighbours num den k).find? fun n => n != 0 && ofDecimal n k == x with
    | some n => (n, k)
    | none => shortestFrom x tries (k - 1)

/-- The digits and the power of ten of the shortest decimal that leads back to the double. -/
def shortest (x : Double) : Nat × Int :=
  let (num, den) := x.toQuotient
  let start : Int := (digitCount num : Int) - (digitCount den : Int) + 1
  x.shortestFrom 20 start

/-- The number in its written form: positional while the point falls between five places before the
digits and sixteen behind their start, with a signed exponent otherwise. What is no double is
written as null. -/
def text (negative : Bool) (x : Double) : String :=
  let sign := if negative then "-" else ""
  if x.overflows then "null"
  else if x.mantissa = 0 then sign ++ "0.0"
  else
    let (n, k) := x.shortest
    let digits := Nat.toDigits 10 n
    let point : Int := (digits.length : Int) + k
    let body :=
      if 0 ≤ k ∧ point ≤ 16 then digits ++ List.replicate k.toNat '0' ++ ['.', '0']
      else if 0 < point ∧ point ≤ 16 then
        digits.take point.toNat ++ '.' :: digits.drop point.toNat
      else if -5 < point ∧ point ≤ 0 then
        '0' :: '.' :: (List.replicate (-point).toNat '0' ++ digits)
      else
        let mantissa := match digits with
          | [] => []
          | [c] => [c]
          | c :: rest => c :: '.' :: rest
        let plus := if 0 < point then ['+'] else []
        mantissa ++ 'e' :: (plus ++ (toString (point - 1)).toList)
    sign ++ String.ofList body

end Double

end Installer.Json
