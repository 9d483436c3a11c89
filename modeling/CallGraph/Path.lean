import CallGraph.Language
import CallGraph.Text.Basic
import CallGraph.Text.Utf8

namespace CallGraph

/-- A path as it was given: any bytes. -/
@[ext] structure Path where
  bytes : Bytes
  deriving DecidableEq, Inhabited

/-- A part of a path. -/
inductive Component
  | root
  | here
  | parent
  | name (n : Bytes)
  deriving DecidableEq

def slash : UInt8 := 0x2F

def dot : UInt8 := 0x2E

namespace Component

def bytes : Component → Bytes
  | root => [slash]
  | here => [dot]
  | parent => [dot, dot]
  | name n => n

/-- The component that a piece between slashes stands for. Empty pieces and single dots stand for
none. -/
def ofPiece? (piece : Bytes) : Option Component :=
  if piece = [] ∨ piece = [dot] then none
  else if piece = [dot, dot] then some parent
  else some (name piece)

end Component

namespace Path

def ofString (s : String) : Path := ⟨.ofString s⟩

/-- The path as text, with replacement characters for bytes that are none. -/
def text (p : Path) : String := Utf8.text p.bytes

/-- The pieces between slashes. -/
def pieces (p : Path) : List Bytes := p.bytes.splitOn slash

def isAbsolute (p : Path) : Bool := p.bytes.head? == some slash

/-- The components. A dot counts only at the start of a relative path. -/
def components (p : Path) : List Component :=
  let names := p.pieces.filterMap Component.ofPiece?
  if p.isAbsolute then .root :: names
  else if p.pieces.head? = some [dot] then .here :: names
  else names

/-- The last component, if it is a name. -/
def fileName? (p : Path) : Option Bytes :=
  match p.components.getLast? with
  | some (.name n) => some n
  | _ => none

/-- What follows the last dot of the file name, unless that dot comes first. -/
def extension? (p : Path) : Option Bytes :=
  p.fileName?.bind fun name =>
    match name.reverse.span (· != dot) with
    | (after, _ :: _ :: _) => some after.reverse
    | _ => none

/-- The components without the last; a path that is empty or the root alone has no parent. -/
def parent? (p : Path) : Option (List Component) :=
  match p.components.getLast? with
  | none | some .root => none
  | some _ => some p.components.dropLast

/-- The name by which other files refer to this one: the file name up to its first dot. -/
def symbolicName (p : Path) : String :=
  match p.fileName? with
  | none => ""
  | some name => .ofList (Text.before '.' (Utf8.decode name))

/-- The name of the directory that holds the file. -/
def directoryName (p : Path) : String :=
  match p.parent?.bind List.getLast? with
  | none => "."
  | some c => Utf8.text c.bytes

/-- The path of an entry of the directory `p`. -/
def join (p : Path) (name : Bytes) : Path :=
  match p.bytes.getLast? with
  | none => ⟨name⟩
  | some last => if last = slash then ⟨p.bytes ++ name⟩ else ⟨p.bytes ++ slash :: name⟩

end Path

/-- Whether a path has the extension of the language. -/
def Language.hasSource (l : Language) (p : Path) : Bool :=
  p.extension? == some (Bytes.ofString l.extension)

end CallGraph
