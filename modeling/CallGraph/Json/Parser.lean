import CallGraph.Json.Token

namespace CallGraph.Json

/-- A container around the value that is being read, with what it holds so far, last first. -/
inductive Frame
  | arr (items : List Json)
  | obj (fields : List (String × Json)) (key : String)

/-- What may come next. -/
inductive Expect
  | value
  /-- A value, or the end of an array that is still empty. -/
  | item
  /-- A key; the end of the object too, if it is still empty. -/
  | key (fields : List (String × Json))
  | colon (fields : List (String × Json)) (key : String)
  /-- The value has been read: a comma or the end of the container. -/
  | after (v : Json)

/-- The containers that are open, innermost first, and what may come next in the innermost. -/
structure Parser where
  stack : List Frame
  expect : Expect

namespace Parser

/-- Reads the first token of a value. -/
def value? (stack : List Frame) : Token → Option Parser
  | .null => some ⟨stack, .after .null⟩
  | .bool b => some ⟨stack, .after (.bool b)⟩
  | .num n => some ⟨stack, .after (.num n)⟩
  | .str s => some ⟨stack, .after (.str s)⟩
  | .openArr => some ⟨.arr [] :: stack, .item⟩
  | .openObj => some ⟨stack, .key []⟩
  | _ => none

/-- Reads the token after a value. -/
def after? (v : Json) : List Frame → Token → Option Parser
  | .arr items :: stack, .comma => some ⟨.arr (v :: items) :: stack, .value⟩
  | .arr items :: stack, .closeArr => some ⟨stack, .after (.arr (v :: items).reverse)⟩
  | .obj fields key :: stack, .comma => some ⟨stack, .key ((key, v) :: fields)⟩
  | .obj fields key :: stack, .closeObj => some ⟨stack, .after (.obj ((key, v) :: fields).reverse)⟩
  | _, _ => none

def step (s : Parser) (t : Token) : Option Parser :=
  match s.expect, t with
  | .value, t => value? s.stack t
  | .item, .closeArr => match s.stack with
    | .arr _ :: stack => some ⟨stack, .after (.arr [])⟩
    | _ => none
  | .item, t => value? s.stack t
  | .key fields, .str key => some ⟨s.stack, .colon fields key⟩
  | .key [], .closeObj => some ⟨s.stack, .after (.obj [])⟩
  | .colon fields key, .colon => some ⟨.obj fields key :: s.stack, .value⟩
  | .after v, t => after? v s.stack t
  | _, _ => none

def finish? (s : Parser) : Option Json :=
  match s.stack, s.expect with
  | [], .after v => some v
  | _, _ => none

end Parser

def ofTokens? (ts : List Token) : Option Json :=
  (ts.foldlM Parser.step ⟨[], .value⟩).bind Parser.finish?

/-- Reads one JSON value. -/
def parse? (s : String) : Option Json := (tokens? s.toList).bind ofTokens?

end CallGraph.Json
