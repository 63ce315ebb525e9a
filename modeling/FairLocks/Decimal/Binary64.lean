/-!
# Binary floating point by exact arithmetic

A `Binary64` is a finite number `mantissa * 2 ^ exponent` of 53 bits, without a sign. Results are
rounded to the nearest such number, ties to the even mantissa; what would be infinite is `none`.
Signs, infinities and NaN are left out, since no number that is read needs them.
-/
namespace FairLocks.Decimal

structure Binary64 where
  mantissa : Nat
  exponent : Int
  deriving DecidableEq

/-- The quotient rounded to the nearest integer, a tie to the even one. -/
def roundHalfEven (num den : Nat) : Nat :=
  let q := num / den
  let r := num % den
  if den < 2 * r ∨ (2 * r = den ∧ q % 2 = 1) then q + 1 else q

/-- The fraction `m * b ^ e` as a numerator and a denominator. -/
def power (m b : Nat) (e : Int) : Nat × Nat :=
  if 0 ≤ e then (m * Nat.pow b e.toNat, 1) else (m, Nat.pow b (-e).toNat)

namespace Binary64

def zero : Binary64 := ⟨0, 0⟩

/-- The fraction of mantissa and power of two that the number is. -/
def fraction (x : Binary64) : Nat × Nat := power x.mantissa 2 x.exponent

/-- The exponent of the last of the 53 bits of `num / den`, or of the last bit that is kept. -/
def lastBit (num den : Nat) : Int :=
  let e : Int := (num.log2 : Int) - den.log2 - 53
  let (n, d) := power num 2 (-e)
  max (-1074) (if Nat.pow 2 53 ≤ n / (d * den) then e + 1 else e)

/-- The number nearest to `num / den`. -/
def nearest? (num den : Nat) : Option Binary64 :=
  if num = 0 then some zero
  else
    let e := lastBit num den
    let (n, d) := power num 2 (-e)
    let m := roundHalfEven n (d * den)
    let x : Binary64 := if m = Nat.pow 2 53 then ⟨Nat.pow 2 52, e + 1⟩ else ⟨m, e⟩
    if m = 0 then some zero
    else if 971 < x.exponent then none
    else some x

def mul? (x y : Binary64) : Option Binary64 :=
  let (a, b) := x.fraction
  let (c, d) := y.fraction
  nearest? (a * c) (b * d)

def div? (x y : Binary64) : Option Binary64 :=
  let (a, b) := x.fraction
  let (c, d) := y.fraction
  nearest? (a * d) (b * c)

/-- The greatest power of ten that is used as a factor at once. -/
def greatestTen : Nat := 308

def tenTo? (n : Nat) : Option Binary64 := nearest? (Nat.pow 10 n) 1

/-- The product with `10 ^ n`. -/
def timesTen? (x : Binary64) (n : Nat) : Option Binary64 :=
  if n ≤ greatestTen then (tenTo? n).bind x.mul?
  else if x.mantissa = 0 then some x
  else none

/-- The quotient by the greatest power of ten, taken `n` times or until it is zero. -/
def shrink? : Nat → Binary64 → Option Binary64
  | 0, x => some x
  | n + 1, x =>
    if x.mantissa = 0 then some x else ((tenTo? greatestTen).bind x.div?).bind (shrink? n)

/-- The quotient by `10 ^ n`, taken in several divisions if the power is too great for one. -/
def overTen? (x : Binary64) (n : Nat) : Option Binary64 :=
  let steps := (n - 1) / greatestTen
  (shrink? steps x).bind fun x => (tenTo? (n - steps * greatestTen)).bind x.div?

/-- The number read from a significand and a power of ten. The significand and the power are each
rounded first, so the result need not be the nearest number to the decimal. -/
def ofDecimal? (significand : Nat) (exponent : Int) : Option Binary64 :=
  (nearest? significand 1).bind fun x =>
    if 0 ≤ exponent then x.timesTen? exponent.toNat else x.overTen? (-exponent).toNat

end Binary64

end FairLocks.Decimal
