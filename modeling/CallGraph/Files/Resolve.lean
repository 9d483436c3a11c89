import CallGraph.Failure
import CallGraph.Files.Tree

namespace CallGraph

/-- The way that a path describes. Unlike among the components of a path, a dot counts everywhere:
it stands only where there is a directory. -/
structure Route where
  steps : List Component
  /-- Whether the path ends in a slash. -/
  slash : Bool

namespace Path

def stepOfPiece? (piece : Bytes) : Option Component :=
  if piece = [] then none
  else if piece = [dot] then some .here
  else Component.ofPiece? piece

def route (p : Path) : Route :=
  let steps := p.pieces.filterMap stepOfPiece?
  ⟨if p.isAbsolute then .root :: steps else steps, p.bytes.getLast? == some slash⟩

end Path

/-- A slash at the end asks for a directory, as a dot after it would. -/
def Route.all (r : Route) : List Component := if r.slash then r.steps ++ [.here] else r.steps

namespace Tree

/-- The number of links that are followed on one way. -/
def maxLinks : Nat := 40

/-- The most bytes in the name of an entry. -/
def maxName : Nat := 255

/-- The most bytes in a path. -/
def maxPath : Nat := 4095

/-- Goes from a location step by step. A link is followed, except one at the end if `follow` is
false. The top of the tree is its own parent. The result is the location and the number of links
that may still be followed. -/
def resolve (t : Tree) (follow : Bool) (links : Nat) (loc : Location) (steps : List Component) :
    Except IoError (Location × Nat) :=
  match steps with
  | [] => .ok (loc, links)
  | step :: rest =>
    if (t.at? loc).any isDir then
      match step with
      | .root => resolve t follow links [] rest
      | .here => resolve t follow links loc rest
      | .parent => resolve t follow links loc.dropLast rest
      | .name n =>
        if maxName < n.length then .error .nameTooLong
        else match t.at? (loc ++ [n]) with
        | none => .error .notFound
        | some (.link target) =>
          if rest = [] ∧ follow = false then .ok (loc ++ [n], links)
          else match links with
            | 0 => .error .linkLoop
            | links + 1 => resolve t follow links loc (target.route.all ++ rest)
        | some _ => resolve t follow links (loc ++ [n]) rest
    else .error .notDirectory
termination_by (links, steps.length)

theorem links_le_of_resolve {t : Tree} {follow : Bool} {links : Nat} {loc : Location}
    {steps : List Component} {r : Location × Nat} (h : t.resolve follow links loc steps = .ok r) :
    r.2 ≤ links := by
  fun_induction resolve t follow links loc steps <;> grind

/-- An empty path names nothing. -/
def checkPath (p : Path) : Except IoError Unit :=
  if p.bytes.contains 0 then .error .nulByte
  else if p.bytes = [] then .error .notFound
  else if maxPath < p.bytes.length then .error .nameTooLong
  else .ok ()

/-- The location at the end of steps from the top. -/
def locate (t : Tree) (follow : Bool) (steps : List Component) : Except IoError Location :=
  (·.1) <$> t.resolve follow maxLinks [] steps

/-- The location that a path leads to. -/
def lookup (t : Tree) (follow : Bool) (p : Path) : Except IoError Location := do
  checkPath p
  t.locate follow p.route.all

/-- What a path leads to. -/
def get (t : Tree) (follow : Bool) (p : Path) : Except IoError Tree := do
  match t.at? (← t.lookup follow p) with
  | some node => return node
  | none => throw .notFound

def fileExists (t : Tree) (p : Path) : Bool := (t.get true p).isOk

/-- The content of a file. -/
def read (t : Tree) (p : Path) : Except IoError Bytes := do
  match ← t.get true p with
  | .file content => return content
  | .dir _ _ => throw .isDirectory
  | .link _ => throw .notFound

/-- The location of the file to write along a route: that of a file that is there, or a free place
in a directory. A link at the end is followed to the place it names. -/
def target (t : Tree) (links : Nat) (loc : Location) (r : Route) : Except IoError Location :=
  match h : t.resolve true links loc r.steps.dropLast with
  | .error e => .error e
  | .ok (parent, left) =>
    if (t.at? parent).any isDir then
      match r.steps.getLast? with
      | some (.name n) =>
        if r.slash then .error .isDirectory
        else if maxName < n.length then .error .nameTooLong
        else match t.at? (parent ++ [n]) with
          | none | some (.file _) => .ok (parent ++ [n])
          | some (.dir _ _) => .error .isDirectory
          | some (.link p) =>
            match left, links_le_of_resolve h with
            | 0, _ => .error .linkLoop
            | left + 1, _ => t.target left parent p.route
      | _ => .error .isDirectory
    else .error .notDirectory
termination_by links

/-- Opens a file for writing: it is there afterwards, and empty. -/
def create (t : Tree) (p : Path) : Except IoError (Tree × Location) := do
  checkPath p
  let loc ← t.target maxLinks [] p.route
  return (t.set loc (.file []), loc)

/-- Makes the directories along a way that are not there. -/
def makeDirs (t : Tree) (steps : List Component) : Except IoError Tree :=
  (List.range steps.length).foldlM (fun t i =>
    match t.locate true (steps.take (i + 1)) with
    | .ok loc => if (t.at? loc).any isDir then .ok t else .error .notDirectory
    | .error .notFound => do
      match steps[i]? with
      | some (.name n) => return t.set ((← t.locate true (steps.take i)) ++ [n]) emptyDir
      | _ => throw .notFound
    | .error e => .error e) t

/-- Puts a file, directory or link at a path, with the directories it needs. A directory that is
there stays. -/
def place (t : Tree) (p : Path) (node : Tree) : Except IoError Tree := do
  checkPath p
  let r := p.route
  match node with
  | .dir _ _ => t.makeDirs r.steps
  | .file content =>
    let t ← t.makeDirs r.steps.dropLast
    let (t, loc) ← t.create p
    return t.set loc (.file content)
  | .link target =>
    let t ← t.makeDirs r.steps.dropLast
    let parent ← t.locate true r.steps.dropLast
    match r.steps.getLast? with
    | some (.name n) => return t.set (parent ++ [n]) (.link target)
    | _ => throw .isDirectory

/-- Takes away what a path names; of a link, the link itself. -/
def remove (t : Tree) (p : Path) : Except IoError Tree := do
  return t.erase (← t.lookup false p)

end Tree
end CallGraph
