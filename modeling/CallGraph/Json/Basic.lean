import CallGraph.Weight.Decimal

namespace CallGraph

/-- A JSON number: an integer of 64 bits, or anything else as a binary64 number. -/
inductive Json.Number
  | int (n : Int)
  | real (w : Weight)
  deriving DecidableEq

/-- A JSON value. The fields of an object keep the order in which they are written. -/
inductive Json
  | null
  | bool (b : Bool)
  | num (n : Json.Number)
  | str (s : String)
  | arr (items : List Json)
  | obj (fields : List (String × Json))

namespace Json

instance : Inhabited Json := ⟨null⟩

def nat (n : Nat) : Json := num (.int n)

/-- The last field with the key. -/
def field? (key : String) : Json → Option Json
  | obj fields => (fields.reverse.find? (·.1 = key)).map (·.2)
  | _ => none

namespace Number

/-- The digits at the front, and the rest. -/
def spanDigits (cs : List Char) : List Char × List Char := cs.span Char.isDigit

def ofDigits (cs : List Char) : Nat := Nat.ofDigitChars 10 cs 0

/-- The power of ten after the mark, and whether there is a mark. -/
def exponent? : List Char → Option (Option Int)
  | [] => some none
  | c :: cs =>
    if c = 'e' ∨ c = 'E' then
      let (negative, digits) := match cs with
        | '-' :: r => (true, r)
        | '+' :: r => (false, r)
        | r => (false, r)
      if digits ≠ [] ∧ digits.all Char.isDigit then
        some (some (if negative then -(ofDigits digits : Int) else ofDigits digits))
      else none
    else none

/-- The decimal places after the point, and the rest. -/
def places? : List Char → Option (List Char × List Char)
  | '.' :: cs => match spanDigits cs with
    | ([], _) => none
    | (digits, rest) => some (digits, rest)
  | cs => some ([], cs)

/-- A number without point and mark, if it is an integer of 64 bits. Minus zero is none. -/
def int? (negative : Bool) (n : Nat) : Option Number :=
  if negative then if n ≠ 0 ∧ n ≤ Nat.pow 2 63 then some (.int (-n)) else none
  else if n < Nat.pow 2 64 then some (.int n) else none

/-- Reads a number without its sign. -/
def unsigned? (negative : Bool) (cs : List Char) : Option Number := do
  let (whole, rest) := spanDigits cs
  if whole = [] ∨ (1 < whole.length ∧ whole.head? = some '0') then none
  let (places, rest) ← places? rest
  let power ← exponent? rest
  let exact := if places = [] ∧ power = none then int? negative (ofDigits whole) else none
  exact.or ((Decimal.nearest? negative
    ⟨ofDigits (whole ++ places), power.getD 0 - places.length⟩).map .real)

/-- Reads a number; `none` if the text is no number or its value is beyond binary64. -/
def ofChars? : List Char → Option Number
  | '-' :: cs => unsigned? true cs
  | cs => unsigned? false cs

end Number
end Json
end CallGraph
