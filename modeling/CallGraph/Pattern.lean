namespace CallGraph

/-- What a text to be searched is made of: characters, or the bytes of a file. -/
class Symbol (α : Type) where
  code : α → Nat

instance : Symbol Char := ⟨Char.toNat⟩
instance : Symbol UInt8 := ⟨UInt8.toNat⟩

/-- A set of ASCII symbols. -/
inductive SymbolClass
  | word
  | nameStart
  | space
  | dot
  | openParen
  deriving DecidableEq, Repr

namespace SymbolClass

def isLetter (n : Nat) : Bool := (65 ≤ n && n ≤ 90) || (97 ≤ n && n ≤ 122)

def isDigit (n : Nat) : Bool := 48 ≤ n && n ≤ 57

def hasCode : SymbolClass → Nat → Bool
  | word, n => isLetter n || isDigit n || n == 95
  | nameStart, n => isLetter n || n == 95
  | space, n => (9 ≤ n && n ≤ 13) || n == 32
  | dot, n => n == 46
  | openParen, n => n == 40

def has {α : Type} [Symbol α] (c : SymbolClass) (x : α) : Bool := c.hasCode (Symbol.code x)

end SymbolClass

/-- One piece of a pattern. -/
inductive Piece
  /-- A place with a word symbol on exactly one side. -/
  | boundary
  /-- One symbol of the class. -/
  | one (c : SymbolClass)
  /-- Any number of symbols of the class, as many as the pieces that follow allow. -/
  | many (c : SymbolClass)
  deriving DecidableEq, Repr

/-- Pieces that are matched one after the other. -/
abbrev Pattern := List Piece

namespace Pattern

variable {α : Type} [Symbol α]

def isWord (x : Option α) : Bool := x.any SymbolClass.word.has

/-- The number of symbols that the pieces take at the front of a text. `before` is the symbol just
before the text. A `many` tries the longest run first and gives symbols back one by one. -/
def matchLength : Pattern → Option α → List α → Option Nat
  | [], _, _ => some 0
  | .boundary :: ps, before, xs =>
    if isWord before != isWord xs.head? then matchLength ps before xs else none
  | .one _ :: _, _, [] => none
  | .one c :: ps, _, x :: xs =>
    if c.has x then (matchLength ps (some x) xs).map (· + 1) else none
  | .many _ :: ps, before, [] => matchLength ps before []
  | .many c :: ps, before, x :: xs =>
    if c.has x then
      ((matchLength (.many c :: ps) (some x) xs).map (· + 1)).or (matchLength ps before (x :: xs))
    else matchLength ps before (x :: xs)
termination_by ps _ xs => ps.length + xs.length

/-- The matches in a text from the left, none overlapping: the pattern is tried at each place, and
after a match the search goes on behind it. -/
def matchesFrom (p : Pattern) (before : Option α) : List α → List (List α)
  | [] => []
  | x :: xs =>
    match matchLength p before (x :: xs) with
    | some (n + 1) =>
      (x :: xs.take n) :: matchesFrom p (x :: xs.take n).getLast? (xs.drop n)
    | _ => matchesFrom p (some x) xs
termination_by xs => xs.length

def findAll (p : Pattern) (xs : List α) : List (List α) := p.matchesFrom none xs

end Pattern
end CallGraph
