import CallGraph.Graph

namespace CallGraph

/-- What is told of a package: its name, its number of lines, its directory, and a table by name. -/
@[ext] structure Record (α : Type) where
  package : String
  lines : Nat
  directory : String
  table : KeyMap α
  deriving DecidableEq

/-- The record of one file; the table counts the references in it. -/
abbrev FileRecord := Record Nat

/-- The record of one node of a graph; the table holds the weights of its edges. -/
abbrev PackageRecord := Record Weight

def FileRecord.ofScanned (f : ScannedFile) : FileRecord :=
  ⟨f.file.name, f.file.lines, f.file.directory, Reference.tally f.references⟩

/-- What is known of the files of one name. -/
structure Metadata where
  lines : Nat
  directory : String

namespace Metadata

/-- What is known of a name that is no file's. -/
def absent : Metadata := ⟨0, ""⟩

/-- The lines of files that share a name are added up; the directory is that of the first. -/
def add (f : SourceFile) : Option Metadata → Metadata
  | none => ⟨f.lines, f.directory⟩
  | some m => { m with lines := m.lines + f.lines }

/-- What is known of the files of each name. -/
def byName (files : List SourceFile) : Std.HashMap String Metadata :=
  files.foldl (fun m f => m.alter f.name fun old => some (add f old)) ∅

end Metadata

def PackageRecord.ofNode (known : Std.HashMap String Metadata) (n : Graph.Node) : PackageRecord :=
  let own := known[n.name]?.getD .absent
  ⟨n.name, own.lines, own.directory, .ofList (n.edges.map fun e => (e.target, e.weight))⟩

/-- One record for each node, in order. -/
def Graph.records (g : Graph) (files : List SourceFile) : List PackageRecord :=
  g.nodes.toList.map (PackageRecord.ofNode (Metadata.byName files))

def Key.compare (a b : String) : Ordering :=
  if Key.lt a b then .lt else if a = b then .eq else .gt

namespace FileRecord

/-- Tables as lists of entries: by key, then by count. -/
def compareEntries : List (String × Nat) → List (String × Nat) → Ordering
  | [], [] => .eq
  | [], _ :: _ => .lt
  | _ :: _, [] => .gt
  | (k, n) :: es, (k', n') :: es' =>
    (Key.compare k k').then ((Ord.compare n n').then (compareEntries es es'))

/-- By directory, then by package, lines and table. -/
def compare (a b : FileRecord) : Ordering :=
  (Key.compare a.directory b.directory).then
    ((Key.compare a.package b.package).then
      ((Ord.compare a.lines b.lines).then (compareEntries a.table.entries b.table.entries)))

/-- The records in an order that does not depend on how they were gathered. -/
def sort (rs : List FileRecord) : List FileRecord :=
  rs.mergeSort fun a b => compare a b != .gt

end FileRecord
end CallGraph
