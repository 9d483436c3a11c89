import CallGraph.Json.Basic

namespace CallGraph.Json

/-- What a JSON text is made of. -/
inductive Token
  | openArr
  | closeArr
  | openObj
  | closeObj
  | colon
  | comma
  | null
  | bool (b : Bool)
  | num (n : Number)
  | str (s : String)
  deriving DecidableEq

namespace Token

def ofWord? (cs : List Char) : Option Token :=
  if cs = ['n', 'u', 'l', 'l'] then some .null
  else if cs = ['t', 'r', 'u', 'e'] then some (.bool true)
  else if cs = ['f', 'a', 'l', 's', 'e'] then some (.bool false)
  else (Number.ofChars? cs).map .num

/-- The tokens that are one character. -/
def ofChar? : Char → Option Token
  | '[' => some .openArr
  | ']' => some .closeArr
  | '\x7b' => some .openObj
  | '\x7d' => some .closeObj
  | ':' => some .colon
  | ',' => some .comma
  | _ => none

end Token

/-- Where in a token the reader stands. The characters read of it are kept last first; `high` is the
first half of a surrogate pair whose second half must come. -/
inductive Mode
  | between
  | word (read : List Char)
  | text (read : List Char) (high : Option Nat)
  | escape (read : List Char) (high : Option Nat)
  | code (read : List Char) (high : Option Nat) (value digits : Nat)

/-- The tokens read so far, last first, and the one that is under way. -/
structure Lexer where
  done : List Token
  mode : Mode

def hexValue? (c : Char) : Option Nat :=
  if c.isDigit then some (c.toNat - 48)
  else if 'a' ≤ c ∧ c ≤ 'f' then some (c.toNat - 87)
  else if 'A' ≤ c ∧ c ≤ 'F' then some (c.toNat - 55)
  else none

def simpleEscape? : Char → Option Char
  | '"' => some '"'
  | '\\' => some '\\'
  | '/' => some '/'
  | 'b' => some (Char.ofNat 0x08)
  | 'f' => some (Char.ofNat 0x0C)
  | 'n' => some '\n'
  | 'r' => some '\r'
  | 't' => some '\t'
  | _ => none

/-- Characters of numbers and of the three constants. -/
def isWordChar (c : Char) : Bool := c.isAlphanum || c == '-' || c == '+' || c == '.'

namespace Lexer

/-- Adds a code unit to a text. -/
def addUnit (done : List Token) (read : List Char) (high : Option Nat) (unit : Nat) :
    Option Lexer :=
  let isHigh := decide (0xD800 ≤ unit ∧ unit < 0xDC00)
  let isLow := decide (0xDC00 ≤ unit ∧ unit < 0xE000)
  match high with
  | none =>
    if isHigh then some ⟨done, .text read (some unit)⟩
    else if isLow then none
    else some ⟨done, .text (Char.ofNat unit :: read) none⟩
  | some h =>
    if isLow then
      some ⟨done, .text (Char.ofNat (0x10000 + (h - 0xD800) * 0x400 + (unit - 0xDC00)) :: read) none⟩
    else none

/-- Reads a character that stands between tokens. -/
def start (done : List Token) (c : Char) : Option Lexer :=
  if c = ' ' ∨ c = '\t' ∨ c = '\n' ∨ c = '\r' then some ⟨done, .between⟩
  else if c = '"' then some ⟨done, .text [] none⟩
  else if isWordChar c then some ⟨done, .word [c]⟩
  else (Token.ofChar? c).map fun t => ⟨t :: done, .between⟩

def step (s : Lexer) (c : Char) : Option Lexer :=
  match s.mode with
  | .between => start s.done c
  | .word read =>
    if isWordChar c then some ⟨s.done, .word (c :: read)⟩
    else (Token.ofWord? read.reverse).bind fun t => start (t :: s.done) c
  | .text read high =>
    if c = '\\' then some ⟨s.done, .escape read high⟩
    else if high.isSome ∨ c.toNat < 0x20 then none
    else if c = '"' then some ⟨.str (.ofList read.reverse) :: s.done, .between⟩
    else some ⟨s.done, .text (c :: read) none⟩
  | .escape read high =>
    if c = 'u' then some ⟨s.done, .code read high 0 0⟩
    else if high.isSome then none
    else (simpleEscape? c).map fun c => ⟨s.done, .text (c :: read) none⟩
  | .code read high value digits =>
    (hexValue? c).bind fun d =>
      if digits = 3 then addUnit s.done read high (value * 16 + d)
      else some ⟨s.done, .code read high (value * 16 + d) (digits + 1)⟩

def finish? (s : Lexer) : Option (List Token) :=
  match s.mode with
  | .between => some s.done.reverse
  | .word read => (Token.ofWord? read.reverse).map fun t => (t :: s.done).reverse
  | _ => none

end Lexer

/-- The tokens of a text. -/
def tokens? (cs : List Char) : Option (List Token) :=
  (cs.foldlM Lexer.step ⟨[], .between⟩).bind Lexer.finish?

end CallGraph.Json
