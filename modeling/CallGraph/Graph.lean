import Std.Data.HashMap
import CallGraph.SourceFile
import CallGraph.Weight.Format

namespace CallGraph

/-- What an edge update does to the edges it passes on the way to its own. -/
inductive Policy
  /-- They keep their weights. -/
  | preserve
  /-- Their weights start again from zero. -/
  | resetOnScan
  deriving DecidableEq, Repr, Inhabited

namespace Graph

/-- An edge, held at the node it leaves. -/
structure Edge where
  target : String
  weight : Weight
  deriving DecidableEq

/-- A node with its edges in the order in which they came. -/
structure Node where
  name : String
  edges : List Edge
  deriving DecidableEq

end Graph

/-- A weighted graph. Nodes stand in the order in which they were first named; `index` finds a node
by its name. -/
structure Graph where
  policy : Policy
  nodes : Array Graph.Node
  index : Std.HashMap String Nat

namespace Graph

def empty (policy : Policy) : Graph := ⟨policy, #[], ∅⟩

def passed : Policy → Weight → Weight
  | .preserve, w => w
  | .resetOnScan, _ => .zero

/-- Adds a weight to the edge with the target, and makes that edge if there is none. The edges
before it are passed as the policy says. -/
def addWeight (policy : Policy) (target : String) (w : Weight) : List Edge → List Edge
  | [] => [⟨target, w⟩]
  | e :: es =>
    if e.target = target then { e with weight := e.weight + w } :: es
    else { e with weight := passed policy e.weight } :: addWeight policy target w es

/-- The graph with a node of that name, and the node's place. -/
def addNode (g : Graph) (name : String) : Graph × Nat :=
  match g.index[name]? with
  | some i => (g, i)
  | none =>
    ({ g with nodes := g.nodes.push ⟨name, []⟩, index := g.index.insert name g.nodes.size },
      g.nodes.size)

/-- Adds to the weight of an edge; both its ends become nodes. -/
def addEdge (g : Graph) (source target : String) (w : Weight) : Graph :=
  let (g, i) := g.addNode source
  let (g, _) := g.addNode target
  { g with nodes := g.nodes.modify i fun n =>
      { n with edges := addWeight g.policy target w n.edges } }

/-- Each reference in a file is an edge of weight one from the name referred to; the file is a node
in any case. -/
def mergeFile (g : Graph) (f : ScannedFile) : Graph :=
  (f.references.foldl (fun g r => g.addEdge r f.file.name .one) g).addNode f.file.name |>.1

def contains (g : Graph) (name : String) : Bool := g.index.contains name

def edges? (g : Graph) (name : String) : Option (List Edge) :=
  g.index[name]?.bind fun i => g.nodes[i]?.map (·.edges)

def weight? (g : Graph) (source target : String) : Option Weight :=
  (g.edges? source).bind fun es => (es.find? (·.target = target)).map (·.weight)

def nodeCount (g : Graph) : Nat := g.nodes.size

def edgeCount (g : Graph) : Nat := (g.nodes.toList.map (·.edges.length)).foldr (· + ·) 0

def isEmpty (g : Graph) : Bool := g.nodes.isEmpty

/-- A change to a graph. -/
inductive Update
  | node (name : String)
  | edge (source target : String) (w : Weight)
  | file (f : ScannedFile)

def apply (g : Graph) : Update → Graph
  | .node name => (g.addNode name).1
  | .edge source target w => g.addEdge source target w
  | .file f => g.mergeFile f

def Edge.line (source : String) (e : Edge) : String :=
  source ++ " is referenced by " ++ e.target ++ ", weight " ++ .ofList e.weight.fixed

/-- One line for each edge, nodes and edges in order. -/
def report (g : Graph) : List String :=
  g.nodes.toList.flatMap fun n => n.edges.map (Edge.line n.name)

/-- The report as one text, each line ended by a line feed. -/
def reportText (g : Graph) : String := .join (g.report.map (· ++ "\n"))

end Graph
end CallGraph
