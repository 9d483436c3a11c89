import CallGraph.Json.Basic
import CallGraph.Json.Printer
import CallGraph.Record.Basic
import CallGraph.Text.Quoted

namespace CallGraph

/-- What a place in a snapshot calls for. -/
inductive Want
  | sequence
  | record (title : String)
  | text
  | count
  | map
  | real

def Want.name : Want → String
  | sequence => "a sequence"
  | record title => "struct " ++ title
  | text => "a string"
  | count => "usize"
  | map => "a map"
  | real => "f64"

/-- Why a JSON value is no list of records. -/
inductive DecodeError
  | wrongType (got : Json) (want : Want)
  | negative (n : Int)
  | tooFew (size : Nat) (title : String)
  | tooMany (size : Nat)
  | missing (field : String)

namespace DecodeError

/-- What a value is, for a message. -/
def describe : Json → String
  | .null => "null"
  | .bool b => "boolean `" ++ (if b then "true" else "false") ++ "`"
  | .num (.int n) => "integer `" ++ .ofList (Json.Number.chars (.int n)) ++ "`"
  | .num (.real w) => "floating point `" ++ .ofList (Json.Number.chars (.real w)) ++ "`"
  | .str s => "string " ++ Text.quoted s
  | .arr _ => "sequence"
  | .obj _ => "map"

def message : DecodeError → String
  | wrongType got want => "invalid type: " ++ describe got ++ ", expected " ++ want.name
  | negative n =>
    "invalid value: " ++ describe (.num (.int n)) ++ ", expected " ++ Want.count.name
  | tooFew size title =>
    "invalid length " ++ .ofList (digitChars size) ++ ", expected struct " ++ title ++
      " with 4 elements"
  | tooMany size =>
    "invalid length " ++ .ofList (digitChars size) ++ ", expected fewer elements in array"
  | missing field => "missing field `" ++ field ++ "`"

end DecodeError

/-- How records of one kind are written: the names of the fields, and the values in the table. -/
structure Schema (α : Type) where
  title : String
  package : String
  lines : String
  directory : String
  table : String
  encode : α → Json
  decode : Json → Except DecodeError α

namespace Schema

def decodeText : Json → Except DecodeError String
  | .str s => .ok s
  | v => .error (.wrongType v .text)

def decodeCount : Json → Except DecodeError Nat
  | .num (.int n) => if n < 0 then .error (.negative n) else .ok n.toNat
  | v => .error (.wrongType v .count)

/-- An integer stands for the nearest binary64 number. -/
def decodeWeight : Json → Except DecodeError Weight
  | .num (.real w) => .ok w
  | .num (.int n) =>
    match Decimal.nearest? (n < 0) ⟨n.natAbs, 0⟩ with
    | some w => .ok w
    | none => .error (.wrongType (.num (.int n)) .real)
  | v => .error (.wrongType v .real)

def files : Schema Nat :=
  ⟨"FileRecord", "PackageName", "NumberOfLines", "DirectoryName", "References", .nat, decodeCount⟩

def graph : Schema Weight :=
  ⟨"PackageRecord", "Package", "NumberOfLines", "DirectoryName", "CalledBy",
    fun w => .num (.real w), decodeWeight⟩

variable {α : Type}

/-- A record as an object with its fields in order. -/
def toJson (s : Schema α) (r : Record α) : Json :=
  .obj [(s.package, .str r.package), (s.lines, .nat r.lines), (s.directory, .str r.directory),
    (s.table, .obj (r.table.entries.map fun e => (e.1, s.encode e.2)))]

def listToJson (s : Schema α) (rs : List (Record α)) : Json := .arr (rs.map s.toJson)

end Schema

/-- The records of one run. -/
inductive Snapshot
  | files (records : List FileRecord)
  | graph (records : List PackageRecord)

namespace Snapshot

def size : Snapshot → Nat
  | files rs => rs.length
  | graph rs => rs.length

def isEmpty (s : Snapshot) : Bool := s.size == 0

def toJson : Snapshot → Json
  | files rs => Schema.files.listToJson rs
  | graph rs => Schema.graph.listToJson rs

/-- The text that is written to a file. -/
def text (s : Snapshot) : String := s.toJson.pretty

end Snapshot
end CallGraph
