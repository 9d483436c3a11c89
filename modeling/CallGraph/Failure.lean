import CallGraph.Path

namespace CallGraph

/-- Why an operation on files failed. -/
inductive IoError
  | notFound
  | permissionDenied
  | notDirectory
  | isDirectory
  | nameTooLong
  | linkLoop
  | nulByte
  | other (text : String)
  deriving DecidableEq

def IoError.message : IoError → String
  | notFound => "No such file or directory (os error 2)"
  | permissionDenied => "Permission denied (os error 13)"
  | notDirectory => "Not a directory (os error 20)"
  | isDirectory => "Is a directory (os error 21)"
  | nameTooLong => "File name too long (os error 36)"
  | linkLoop => "Too many levels of symbolic links (os error 40)"
  | nulByte => "file name contained an unexpected NUL byte"
  | other text => text

/-- A file that could not be read. -/
structure ReadError where
  path : Path
  cause : IoError
  deriving DecidableEq

/-- A file that could not be written. -/
structure WriteError where
  path : Path
  cause : IoError
  deriving DecidableEq

/-- A walk from `root` that failed at `place`. -/
structure WalkError where
  root : Path
  place : Path
  cause : IoError
  deriving DecidableEq

def ReadError.message (e : ReadError) : String :=
  "error reading file " ++ e.path.text ++ ": " ++ e.cause.message

def WriteError.message (e : WriteError) : String :=
  "error writing " ++ e.path.text ++ ": " ++ e.cause.message

def WalkError.operation (e : WalkError) : String :=
  "IO error for operation on " ++ e.place.text ++ ": " ++ e.cause.message

def WalkError.message (e : WalkError) : String :=
  "error walking through directory " ++ e.root.text ++ ": " ++ e.operation

/-- Why a run failed. -/
inductive RunError
  | collect (language : Language) (e : WalkError)
  | build (e : ReadError)
  | write (e : WriteError)
  deriving DecidableEq

/-- The message with the messages of all its causes. -/
def RunError.chain : RunError → List String
  | collect language e =>
    ["Failed to collect " ++ language.title ++ " files", e.message, e.operation, e.cause.message]
  | build e => ["Failed to build dependency graph", e.message, e.cause.message]
  | write e => ["Failed to write snapshot " ++ e.path.text, e.message, e.cause.message]

def RunError.message (e : RunError) : String := ": ".intercalate e.chain

end CallGraph
