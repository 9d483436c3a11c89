import CallGraph.Files.Resolve

namespace CallGraph.Tree

/-- Puts named parts in byte order of the names. -/
def inOrder {α : Type} (parts : List (Bytes × α)) : List (Bytes × α) :=
  parts.mergeSort fun a b => decide (a.1 ≤ b.1)

mutual

/-- The source files at and below a path. A directory's files come in byte order of the names of its
entries, those of a subdirectory in its place. Links are passed over. The error is the first
directory that cannot be listed, with the cause. -/
def walk (language : Language) (path : Path) : Tree → Except (Path × IoError) (List Path)
  | file _ => .ok (if language.hasSource path then [path] else [])
  | link _ => .ok []
  | dir listable entries =>
    if maxPath < path.bytes.length then .error (path, .nameTooLong)
    else if listable then
      List.flatten <$> (inOrder (walkEntries language path entries)).mapM (·.2)
    else .error (path, .permissionDenied)

def walkEntries (language : Language) (path : Path) :
    List (Bytes × Tree) → List (Bytes × Except (Path × IoError) (List Path))
  | [] => []
  | (name, t) :: es => (name, walk language (path.join name) t) :: walkEntries language path es

end

/-- The walk from a root. A root that is a link to a directory is walked, one to a file has
nothing. -/
def collect (t : Tree) (language : Language) (root : Path) : Except WalkError (List Path) :=
  let start : Except IoError Tree := do
    match ← t.get false root with
    | .link target => match ← t.get true root with
      | .dir listable entries => return .dir listable entries
      | _ => return .link target
    | node => return node
  match start with
  | .error cause => .error ⟨root, root, cause⟩
  | .ok node => match walk language root node with
    | .error (place, cause) => .error ⟨root, place, cause⟩
    | .ok paths => .ok paths

end CallGraph.Tree
