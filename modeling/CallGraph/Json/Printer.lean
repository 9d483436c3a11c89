import CallGraph.Json.Basic
import CallGraph.Weight.Format

namespace CallGraph.Json

/-- Hexadecimal digits for the codes below 16. -/
def hexDigit (n : Nat) : Char := Nat.digitChar n

/-- A character inside a quoted text: quote, backslash and control characters are escaped. -/
def escape (c : Char) : List Char :=
  if c = '"' then ['\\', '"']
  else if c = '\\' then ['\\', '\\']
  else if 0x20 ≤ c.toNat then [c]
  else match c.toNat with
    | 0x08 => ['\\', 'b']
    | 0x09 => ['\\', 't']
    | 0x0A => ['\\', 'n']
    | 0x0C => ['\\', 'f']
    | 0x0D => ['\\', 'r']
    | n => ['\\', 'u', '0', '0', hexDigit (n / 16), hexDigit (n % 16)]

def quote (s : String) : List Char := '"' :: s.toList.flatMap escape ++ ['"']

/-- Numbers without a finite value are written as null. -/
def Number.chars : Number → List Char
  | .int n => if n < 0 then '-' :: digitChars n.natAbs else digitChars n.natAbs
  | .real w => match w.magnitude with
    | .finite m q => w.chars m q
    | _ => ['n', 'u', 'l', 'l']

/-- What stands between the tokens of a container. -/
structure Layout where
  /-- Before an item, or before the closing bracket, at the depth of nesting. -/
  newline : Nat → List Char
  colon : List Char

def Layout.compact : Layout := ⟨fun _ => [], [':']⟩

/-- One item a line, indented by two blanks for each level. -/
def Layout.indented : Layout := ⟨fun depth => '\n' :: List.replicate (2 * depth) ' ', [':', ' ']⟩

mutual

def chars (l : Layout) (depth : Nat) : Json → List Char
  | null => ['n', 'u', 'l', 'l']
  | bool b => if b then ['t', 'r', 'u', 'e'] else ['f', 'a', 'l', 's', 'e']
  | num n => n.chars
  | str s => quote s
  | arr [] => ['[', ']']
  | arr (v :: vs) =>
    '[' :: l.newline (depth + 1) ++ chars l (depth + 1) v ++ itemChars l (depth + 1) vs ++
      l.newline depth ++ [']']
  | obj [] => ['\x7b', '\x7d']
  | obj ((k, v) :: fs) =>
    '\x7b' :: l.newline (depth + 1) ++ quote k ++ l.colon ++ chars l (depth + 1) v ++
      fieldChars l (depth + 1) fs ++ l.newline depth ++ ['\x7d']

/-- The items after the first. -/
def itemChars (l : Layout) (depth : Nat) : List Json → List Char
  | [] => []
  | v :: vs => ',' :: l.newline depth ++ chars l depth v ++ itemChars l depth vs

/-- The fields after the first. -/
def fieldChars (l : Layout) (depth : Nat) : List (String × Json) → List Char
  | [] => []
  | (k, v) :: fs =>
    ',' :: l.newline depth ++ quote k ++ l.colon ++ chars l depth v ++ fieldChars l depth fs

end

def compact (v : Json) : String := .ofList (v.chars .compact 0)

def pretty (v : Json) : String := .ofList (v.chars .indented 0)

end CallGraph.Json
