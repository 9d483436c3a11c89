import CallGraph.Record.Schema

namespace CallGraph.Schema

variable {α : Type}

/-- The entries in order of their keys; the first value that does not fit is reported. -/
def decodeTable (s : Schema α) : Json → Except DecodeError (KeyMap α)
  | .obj fields =>
    (KeyMap.ofList fields).entries.foldlM
      (fun m e => return m.insert e.1 (← s.decode e.2)) .empty
  | v => .error (.wrongType v .map)

/-- A record of which some fields have been read. -/
structure Partial (α : Type) where
  package : Option String
  lines : Option Nat
  directory : Option String
  table : Option (KeyMap α)

/-- Reads a field of an object; fields with other names are passed over. -/
def readField (s : Schema α) (r : Partial α) (e : String × Json) :
    Except DecodeError (Partial α) :=
  if e.1 = s.package then return { r with package := some (← decodeText e.2) }
  else if e.1 = s.lines then return { r with lines := some (← decodeCount e.2) }
  else if e.1 = s.directory then return { r with directory := some (← decodeText e.2) }
  else if e.1 = s.table then return { r with table := some (← s.decodeTable e.2) }
  else return r

def required {β : Type} (field : String) : Option β → Except DecodeError β
  | some v => .ok v
  | none => .error (.missing field)

/-- Reads the fields in order of their names, then asks for those that are missing. -/
def decodeObject (s : Schema α) (fields : List (String × Json)) :
    Except DecodeError (Record α) := do
  let r ← (KeyMap.ofList fields).entries.foldlM s.readField ⟨none, none, none, none⟩
  return ⟨← required s.package r.package, ← required s.lines r.lines,
    ← required s.directory r.directory, ← required s.table r.table⟩

def itemAt (s : Schema α) (items : List Json) (i : Nat) : Except DecodeError Json :=
  match items[i]? with
  | some v => .ok v
  | none => .error (.tooFew items.length s.title)

/-- Reads the four fields in their order. -/
def decodeItems (s : Schema α) (items : List Json) : Except DecodeError (Record α) := do
  let package ← decodeText (← s.itemAt items 0)
  let lines ← decodeCount (← s.itemAt items 1)
  let directory ← decodeText (← s.itemAt items 2)
  let table ← s.decodeTable (← s.itemAt items 3)
  if 4 < items.length then throw (.tooMany items.length)
  return ⟨package, lines, directory, table⟩

def decodeRecord (s : Schema α) : Json → Except DecodeError (Record α)
  | .obj fields => s.decodeObject fields
  | .arr items => s.decodeItems items
  | v => .error (.wrongType v (.record s.title))

def decodeList (s : Schema α) : Json → Except DecodeError (List (Record α))
  | .arr items => items.mapM s.decodeRecord
  | v => .error (.wrongType v .sequence)

end CallGraph.Schema
