import CallGraph.KeyMap
import CallGraph.Pattern
import CallGraph.Text.Basic

namespace CallGraph

/-- A language whose sources can be scanned. -/
inductive Language
  | python
  | plsql
  deriving DecidableEq, Repr

namespace Language

def all : List Language := [python, plsql]

/-- The name on the command line. -/
def name : Language → String
  | python => "python"
  | plsql => "plsql"

/-- The name in messages. -/
def title : Language → String
  | python => "Python"
  | plsql => "PL/SQL"

/-- The extension of its source files. -/
def extension : Language → String
  | python => "py"
  | plsql => "pkb"

/-- A call through a dotted name: in Python blanks may stand around the dot and a name may start
with a digit, in PL/SQL neither. -/
def call : Language → Pattern
  | python => [.boundary, .one .word, .many .word, .many .space, .one .dot, .many .space,
      .one .word, .many .word, .many .space, .one .openParen]
  | plsql => [.boundary, .one .nameStart, .many .word, .one .dot, .one .nameStart, .many .word,
      .many .space, .one .openParen]

/-- The call pattern as a regular expression. -/
def callSource : Language → String
  | python => "(?-u)\\b\\w+\\s*\\.\\s*\\w+\\s*\\("
  | plsql => "(?-u)\\b([a-zA-Z_][a-zA-Z0-9_]*)\\.([a-zA-Z_][a-zA-Z0-9_]*)\\s*\\("

def ofName? (s : String) : Option Language := all.find? (·.name == s)

/-- The message for a name that is no language's. -/
def unsupported (s : String) : String :=
  "unsupported language '" ++ s ++ "' (expected 'python' or 'plsql')"

end Language

namespace Reference

/-- The qualifier of a call: what stands before its dot, without the white space at the end. -/
def qualifier (call : List Char) : List Char := Text.trimEnd (Text.before '.' call)

/-- The qualifiers of the calls in a text, in order. -/
def extract (language : Language) (text : String) : List String :=
  (language.call.findAll text.toList).map fun call => .ofList (qualifier call)

/-- How often each name occurs. -/
def tally (names : List String) : KeyMap Nat :=
  names.foldl (fun m name => m.alter name fun n => n.getD 0 + 1) .empty

end Reference
end CallGraph
