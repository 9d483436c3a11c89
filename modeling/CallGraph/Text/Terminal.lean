namespace CallGraph.Terminal

/-- What a terminal takes the next character for. -/
inductive Mode
  /-- A character to show. -/
  | text
  /-- The character after an escape. -/
  | escape
  /-- A later character of an escape. -/
  | escapeMiddle
  /-- Part of a control sequence, which a letter ends. -/
  | sequence
  /-- Part of a command to the system, which a bell ends. -/
  | command
  /-- The first character of a device control string. -/
  | device
  | deviceParameter
  | deviceMiddle
  /-- Part of a string that is not shown. -/
  | string
  deriving DecidableEq

/-- The white space among the controls. -/
def isSpacing (c : Char) : Bool := c == '\t' || c == '\n' || c == '\x0c' || c == '\r'

def isControl (c : Char) : Bool := c.toNat < 0x20 || c.toNat == 0x7F

/-- The byte that ends a string counts inside a character as well. -/
def endsString (c : Char) : Bool := (String.utf8EncodeChar c).contains 0x9C

namespace Mode

/-- The mode after a character that neither starts nor cancels an escape and is not shown. -/
def next (m : Mode) (c : Char) : Mode :=
  let n := c.toNat
  match m with
  | text => text
  | escape =>
    if isControl c || 0x7F < n then escape
    else if n < 0x30 then escapeMiddle
    else match c with
      | '[' => sequence
      | ']' => command
      | 'P' => device
      | 'X' | '^' | '_' => string
      | _ => text
  | escapeMiddle => if n < 0x30 || 0x7F ≤ n then escapeMiddle else text
  | sequence => if n < 0x40 || 0x7F ≤ n then sequence else text
  | command => if c = '\x07' then text else command
  | device =>
    if isControl c || 0x7F < n then device
    else if n < 0x30 then deviceMiddle
    else if n < 0x40 then deviceParameter
    else string
  | deviceParameter =>
    if isControl c || 0x7F < n then deviceParameter
    else if n < 0x30 then deviceMiddle
    else if n < 0x3C then deviceParameter
    else string
  | deviceMiddle => if n < 0x30 || 0x7F ≤ n then deviceMiddle else string
  | string => if endsString c then text else string

/-- White space is shown inside an escape too, and breaks it off. -/
def shows (m : Mode) (c : Char) : Bool :=
  match m with
  | text => isSpacing c || !isControl c
  | escape | escapeMiddle | sequence => isSpacing c
  | _ => false

/-- The mode after a character, and whether the character is shown. -/
def step (m : Mode) (c : Char) : Mode × Bool :=
  if c = '\x1b' then (escape, false)
  else if c = '\x18' || c = '\x1a' then (text, false)
  else if m.shows c then (text, true)
  else (m.next c, false)

end Mode

/-- What is seen of a text: escapes and controls are left out. -/
def plain (s : String) : String :=
  let (_, seen) := s.toList.foldl (fun ((m, seen) : Mode × List Char) c =>
    let (m, shown) := m.step c
    (m, if shown then c :: seen else seen)) (.text, [])
  .ofList seen.reverse

/-- A text that a terminal sets off from the text around it. -/
def marked (s : String) : String := "\x1b[1m" ++ s ++ "\x1b[0m"

/-- In the log, a character on which a terminal acts is spelled out. -/
def spelled (c : Char) : List Char :=
  let digits := Nat.toDigits 16 c.toNat
  if c = '\x07' || c = '\x08' || c = '\x0c' then ['\\', 'x', '0'] ++ digits
  else if c = '\x1b' || c = '\x7f' then ['\\', 'x'] ++ digits
  else if 0x80 ≤ c.toNat && c.toNat ≤ 0x9F then ['\\', 'u', '\x7b'] ++ digits ++ ['\x7d']
  else [c]

def logged (s : String) : String := .ofList (s.toList.flatMap spelled)

end CallGraph.Terminal
