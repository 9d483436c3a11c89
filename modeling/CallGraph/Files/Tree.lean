import CallGraph.Path

namespace CallGraph

/-- A file, a directory with its named entries, or a symbolic link. A directory may refuse to list
its entries and still lead to them. -/
inductive Tree
  | file (content : Bytes)
  | dir (listable : Bool) (entries : List (Bytes × Tree))
  | link (target : Path)

/-- The names on the way from the top of a tree. -/
abbrev Location := List Bytes

namespace Tree

def emptyDir : Tree := dir true []

instance : Inhabited Tree := ⟨emptyDir⟩

def isDir : Tree → Bool
  | dir _ _ => true
  | _ => false

def child? (t : Tree) (name : Bytes) : Option Tree :=
  match t with
  | dir _ entries => (entries.find? (·.1 = name)).map (·.2)
  | _ => none

/-- What stands at a location. -/
def at? (t : Tree) : Location → Option Tree
  | [] => some t
  | name :: rest => (t.child? name).bind (at? · rest)

/-- Replaces the entry of that name, or adds one. -/
def setEntry (name : Bytes) (new : Tree) : List (Bytes × Tree) → List (Bytes × Tree)
  | [] => [(name, new)]
  | e :: es => if e.1 = name then (name, new) :: es else e :: setEntry name new es

/-- Puts a tree at a location whose directory is there. -/
def set (t : Tree) (loc : Location) (new : Tree) : Tree :=
  match loc, t with
  | [], _ => new
  | name :: rest, dir listable entries =>
    let old := (entries.find? (·.1 = name)).map (·.2)
    dir listable (setEntry name (set (old.getD emptyDir) rest new) entries)
  | _ :: _, t => t

/-- Takes away what stands at a location. -/
def erase (t : Tree) (loc : Location) : Tree :=
  match loc, t with
  | [name], dir listable entries => dir listable (entries.filter (·.1 != name))
  | name :: rest, dir listable entries =>
    match entries.find? (·.1 = name) with
    | some e => dir listable (setEntry name (erase e.2 rest) entries)
    | none => dir listable entries
  | _, t => t

end Tree
end CallGraph
