import CallGraph.Files.Tree
import Mathlib.Tactic.SplitIfs

namespace CallGraph.Tree

/-- What a node of a tree is, without what lies below it. -/
inductive Label
  | file (content : Bytes)
  | dir (listable : Bool)
  | link (target : Path)
  deriving DecidableEq

def label : Tree → Label
  | file content => .file content
  | dir listable _ => .dir listable
  | link target => .link target

def label? (t : Tree) (loc : Location) : Option Label := (t.at? loc).map label

theorem at?_cons (t : Tree) (name : Bytes) (rest : Location) :
    t.at? (name :: rest) = (t.child? name).bind (at? · rest) := rfl

theorem isDir_iff_label (t : Tree) : t.isDir = true ↔ ∃ listable, t.label = .dir listable := by
  cases t <;> simp [isDir, label]

theorem isDir_iff_label? (t : Tree) (loc : Location) :
    (t.at? loc).any isDir = true ↔ ∃ listable, t.label? loc = some (.dir listable) := by
  rw [label?]
  cases t.at? loc with
  | none => simp
  | some node => simp [isDir_iff_label]

theorem label?_eq_file (t : Tree) (loc : Location) (content : Bytes) :
    t.label? loc = some (.file content) ↔ t.at? loc = some (.file content) := by
  rw [label?]
  cases t.at? loc with
  | none => simp
  | some node => cases node <;> simp [label]

theorem label?_eq_link (t : Tree) (loc : Location) (target : Path) :
    t.label? loc = some (.link target) ↔ t.at? loc = some (.link target) := by
  rw [label?]
  cases t.at? loc with
  | none => simp
  | some node => cases node <;> simp [label]

end CallGraph.Tree
