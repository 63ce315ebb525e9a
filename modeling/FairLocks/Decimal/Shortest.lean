import FairLocks.Decimal.Binary64

/-!
# The fewest digits that read back

Of the decimals that round to a given binary number, the text has the fewest digits, and of those
with that many digits it is the nearest. Decimals are compared with the ends of the rounding
interval by cross multiplication, so nothing is rounded on the way. The layout of the digits is a
table of its own.
-/
namespace FairLocks.Decimal

/-- The decimal `coefficient * 10 ^ exponent`. -/
structure Scientific where
  coefficient : Nat
  exponent : Int
  deriving DecidableEq

/-- A quarter of the distance between the number and its neighbour above, as a fraction. -/
def quarter (x : Binary64) : Nat × Nat := power 1 2 (x.exponent - 2)

/-- The lower end of the rounding interval, in quarters. -/
def lowerEnd (x : Binary64) : Nat :=
  if x.mantissa = Nat.pow 2 52 ∧ -1074 < x.exponent then 4 * x.mantissa - 1 else 4 * x.mantissa - 2

/-- The upper end of the rounding interval, in quarters. -/
def upperEnd (x : Binary64) : Nat := 4 * x.mantissa + 2

/-- The decimal lies in the rounding interval of `x`. The ends belong to it if the mantissa is
even. -/
def ReadsBack (x : Binary64) (d : Scientific) : Prop :=
  let (un, ud) := quarter x
  let (gn, gd) := power 1 10 d.exponent
  let value := d.coefficient * gn * ud
  let low := lowerEnd x * un * gd
  let high := upperEnd x * un * gd
  if x.mantissa % 2 = 0 then low ≤ value ∧ value ≤ high else low < value ∧ value < high

instance (x : Binary64) (d : Scientific) : Decidable (ReadsBack x d) := by
  unfold ReadsBack
  infer_instance

/-- The decimal with exponent `p` that reads back and is nearest to `x`. Only the two neighbours of
`x` on that grid can be it. -/
def onGrid? (x : Binary64) (p : Int) : Option Scientific :=
  let (un, ud) := quarter x
  let (gn, gd) := power 1 10 p
  let num := 4 * x.mantissa * un * gd
  let den := gn * ud
  let below : Scientific := ⟨num / den, p⟩
  let above : Scientific := ⟨num / den + 1, p⟩
  if ReadsBack x below then
    if ReadsBack x above then
      some (if roundHalfEven num den = below.coefficient then below else above)
    else some below
  else if ReadsBack x above then some above
  else none

/-- The least `k` with `x < 10 ^ k`. -/
def magnitude (x : Binary64) : Int :=
  let (n, d) := x.fraction
  if d ≤ n then (Nat.toDigits 10 (n / d)).length
  else -(((List.range 400).find? fun j => d ≤ n * Nat.pow 10 (j + 1)).getD 0 : Nat)

/-- Seventeen digits always suffice. -/
def shortest (x : Binary64) : Scientific :=
  let k := magnitude x
  ((List.range 17).findSome? fun n : Nat => onGrid? x (k - (n + 1))).getD ⟨x.mantissa, 0⟩

/-- Where digits stand without an exponent: from `least` to `greatest` for the power of ten of the
first digit. -/
structure Layout where
  least : Int
  greatest : Int

/-- The first digit, the others behind a point, and the exponent with its sign. -/
def withExponent (digits : List Char) (first : Int) : List Char :=
  let behind := match digits.drop 1 with
    | [] => []
    | ds => '.' :: ds
  let sign := if 0 ≤ first then '+' else '-'
  digits.take 1 ++ behind ++ 'e' :: sign :: Nat.toDigits 10 first.natAbs

/-- The digits around a point, with zeros up to it and at least one digit behind it. -/
def positional (digits : List Char) (first : Int) : List Char :=
  if 0 ≤ first then
    let whole := first.toNat + 1
    let behind := match digits.drop whole with
      | [] => ['0']
      | ds => ds
    digits.take whole ++ List.replicate (whole - digits.length) '0' ++ '.' :: behind
  else
    ['0', '.'] ++ List.replicate (first.natAbs - 1) '0' ++ digits

def Binary64.text (layout : Layout) (x : Binary64) : String :=
  if x.mantissa = 0 then "0.0"
  else
    let d := shortest x
    let all := Nat.toDigits 10 d.coefficient
    let digits := (all.reverse.dropWhile (· = '0')).reverse
    let first := d.exponent + all.length - 1
    String.ofList <|
      if layout.least ≤ first ∧ first ≤ layout.greatest then positional digits first
      else withExponent digits first

end FairLocks.Decimal
