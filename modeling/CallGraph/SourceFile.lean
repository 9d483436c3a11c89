import CallGraph.Failure
import CallGraph.Language
import CallGraph.Text.Bytes

namespace CallGraph

/-- A source file: the path as given, the names read off it, and the number of lines. -/
structure SourceFile where
  path : Path
  name : String
  directory : String
  lines : Nat
  deriving DecidableEq

def SourceFile.ofPath (path : Path) (lines : Nat) : SourceFile :=
  ⟨path, path.symbolicName, path.directoryName, lines⟩

/-- A source file with the references found in it. -/
structure ScannedFile where
  file : SourceFile
  references : List String
  deriving DecidableEq

/-- Scans the content of a file. -/
def ScannedFile.ofContent (language : Language) (path : Path) (content : Bytes) : ScannedFile :=
  ⟨.ofPath path (Lines.count content), Reference.extract language (Utf8.text content)⟩

/-- Scans the file at a path. -/
abbrev Source := Path → Except ReadError ScannedFile

namespace Source

/-- A source that fails on some paths before it looks at them. -/
def denying (denied : Path → Bool) (cause : IoError) (source : Source) : Source := fun path =>
  if denied path then .error ⟨path, cause⟩ else source path

/-- A source of prepared files. Paths that are not among them cannot be read. -/
def ofList (files : List ScannedFile) (cause : IoError) : Source := fun path =>
  match files.find? (·.file.path = path) with
  | some f => .ok f
  | none => .error ⟨path, cause⟩

end Source
end CallGraph
