import CallGraph.Weight.Basic

namespace CallGraph

/-- The integer nearest to `num / den`, a half going to even. -/
def roundDiv (num den : Nat) : Nat :=
  let low := num / den
  let rest := num % den
  if 2 * rest < den then low
  else if den < 2 * rest then low + 1
  else low + low % 2

/-- The quotient `num / den` of two numbers. -/
structure Ratio where
  num : Nat
  den : Nat

namespace Ratio

/-- The ratio `r / base ^ e`: how many units of that power make up `r`. -/
def inUnits (r : Ratio) (base : Nat) (e : Int) : Ratio :=
  ⟨r.num * base.pow (-e).toNat, r.den * base.pow e.toNat⟩

/-- The ratio `n * base ^ e`. -/
def scaled (n base : Nat) (e : Int) : Ratio := ⟨n * base.pow e.toNat, base.pow (-e).toNat⟩

/-- The exponent of the last place of a binary64 number near `r`: 53 binary digits are kept, fewer
if the number is too small for that. -/
def lastPlace (r : Ratio) : Int :=
  let e : Int := r.num.log2 - r.den.log2
  let unit := r.inUnits 2 e
  max (-1074) (if unit.num < unit.den then e - 53 else e - 52)

/-- The body of the binary64 number nearest to `r`, a half going to even; `none` if that is beyond
the largest one. -/
def nearestBody? (r : Ratio) : Option Nat :=
  if r.num = 0 then some 0
  else
    let q := r.lastPlace
    let scaled := r.inUnits 2 q
    let body := (q + 1074).toNat * Weight.leadingBit + roundDiv scaled.num scaled.den
    if body < Weight.infiniteBody then some body else none

end Ratio

/-- The number `coefficient * 10 ^ exponent`. -/
@[ext] structure Decimal where
  coefficient : Nat
  exponent : Int
  deriving DecidableEq

namespace Decimal

def ratio (d : Decimal) : Ratio := .scaled d.coefficient 10 d.exponent

/-- Moves zeros at the end of the coefficient into the exponent. -/
def trim (d : Decimal) : Decimal :=
  if d.coefficient ≠ 0 ∧ d.coefficient % 10 = 0 then trim ⟨d.coefficient / 10, d.exponent + 1⟩
  else d
termination_by d.coefficient
decreasing_by omega

/-- The body of the binary64 number nearest to a decimal without zeros at its end. Exponents far
outside the range of binary64 are settled at sight. -/
def nearestTrimmed? (d : Decimal) : Option Nat :=
  if d.coefficient = 0 then some 0
  else if 400 < d.exponent then none
  else if d.exponent + d.coefficient.log2 < -400 then some 0
  else d.ratio.nearestBody?

/-- The body of the binary64 number nearest to `d`; `none` if that is beyond the largest one. -/
def nearestBody? (d : Decimal) : Option Nat := d.trim.nearestTrimmed?

/-- The weight nearest to `d` or to `-d`. -/
def nearest? (negative : Bool) (d : Decimal) : Option Weight :=
  d.nearestBody?.map (Weight.ofBody negative)

end Decimal
end CallGraph
