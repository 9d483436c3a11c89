import CallGraph.Weight.Shortest

namespace CallGraph

def digitChars (n : Nat) : List Char := Nat.toDigits 10 n

namespace Decimal

/-- Plain notation, with at least one digit on each side of the point. -/
def positional (d : Decimal) : List Char :=
  let digits := digitChars d.coefficient
  if 0 ≤ d.exponent then digits ++ List.replicate d.exponent.toNat '0' ++ ['.', '0']
  else
    let places := (-d.exponent).toNat
    if places < digits.length then
      digits.take (digits.length - places) ++ '.' :: digits.drop (digits.length - places)
    else '0' :: '.' :: List.replicate (places - digits.length) '0' ++ digits

/-- The power of ten of the first digit. -/
def leadingPower (d : Decimal) : Int := d.exponent + (digitChars d.coefficient).length - 1

/-- One digit before the point, and the power of ten with its sign. -/
def scientific (d : Decimal) : List Char :=
  let power := d.leadingPower
  let mark := ['e', if power < 0 then '-' else '+'] ++ digitChars power.natAbs
  match digitChars d.coefficient with
  | first :: second :: rest => first :: '.' :: second :: rest ++ mark
  | digits => digits ++ mark

/-- Plain notation from `0.00001` up to sixteen digits before the point. -/
def chars (d : Decimal) : List Char :=
  if -5 ≤ d.leadingPower ∧ d.leadingPower ≤ 15 then d.positional else d.scientific

end Decimal

namespace Weight

def sign (w : Weight) : List Char := if w.isNegative then ['-'] else []

/-- A finite weight with the fewest digits. -/
def chars (w : Weight) (significand : Nat) (exponent : Int) : List Char :=
  w.sign ++ (Decimal.shortest w.body significand exponent).chars

/-- A number of hundredths with its point. -/
def hundredths (n : Nat) : List Char :=
  digitChars (n / 100) ++ ['.', Nat.digitChar (n / 10 % 10), Nat.digitChar (n % 10)]

/-- Two decimal places of the exact value, a half going to even. -/
def fixed (w : Weight) : List Char :=
  match w.magnitude with
  | .finite m q =>
    let r := Ratio.scaled (100 * m) 2 q
    w.sign ++ hundredths (roundDiv r.num r.den)
  | .infinite => w.sign ++ ['i', 'n', 'f']
  | .nan => ['N', 'a', 'N']

end Weight
end CallGraph
