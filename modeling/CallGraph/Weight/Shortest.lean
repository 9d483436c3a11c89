import CallGraph.Weight.Decimal

namespace CallGraph

/-- The power of ten of the first digit of a positive ratio. -/
def Ratio.leadingPower (r : Ratio) : Int :=
  if r.den ≤ r.num then (Nat.toDigits 10 (r.num / r.den)).length - 1
  else -(Nat.toDigits 10 ((r.den - 1) / r.num)).length

namespace Decimal

/-- Whether the number with this body is the one nearest to `d`. -/
def readsAs (body : Nat) (d : Decimal) : Bool := d.nearestBody? == some body

/-- The multiple of `10 ^ e` nearest to `r` that reads as `body`, if one of the two beside `r`
does. -/
def onGrid? (body : Nat) (r : Ratio) (e : Int) : Option Decimal :=
  let scaled := r.inUnits 10 e
  let low := scaled.num / scaled.den
  let lower := trim ⟨low, e⟩
  let upper := trim ⟨low + 1, e⟩
  match readsAs body lower, readsAs body upper with
  | true, true => some (if roundDiv scaled.num scaled.den = low then lower else upper)
  | true, false => some lower
  | false, true => some upper
  | false, false => none

/-- Every digit of `significand * 2 ^ exponent`. -/
def exact (significand : Nat) (exponent : Int) : Decimal :=
  if 0 ≤ exponent then ⟨significand * Nat.pow 2 exponent.toNat, 0⟩
  else ⟨significand * Nat.pow 5 (-exponent).toNat, exponent⟩

/-- The decimal with the fewest digits that reads as `body`, of those the nearest, of two equally
near ones that with an even last digit. -/
def shortest (body significand : Nat) (exponent : Int) : Decimal :=
  if significand = 0 then ⟨0, 0⟩
  else
    let r := Ratio.scaled significand 2 exponent
    let first := r.leadingPower
    ((List.range 17).findSome? fun (i : Nat) => onGrid? body r (first - i)).getD
      (exact significand exponent).trim

end Decimal
end CallGraph
