import PackedSchema.Schema.Basic

/-!
# Containment

A containment graph tells which names are laid out inline inside which. Names and edges keep the order
in which they were added. A cycle is found by a depth-first search that follows names and edges in that
order.
-/

namespace PackedSchema

structure Containment where
  edges : List (String × List String) := []
  deriving Repr, DecidableEq

namespace Containment

/-! ## Building -/

def hasNode (g : Containment) (name : String) : Bool := g.edges.any fun e => e.1 == name

def addNode (g : Containment) (name : String) : Containment :=
  if g.hasNode name then g else { edges := g.edges ++ [(name, [])] }

/-- The names that a name contains, in the order they were added. -/
def targets (g : Containment) (name : String) : List String := (g.edges.lookup name).getD []

/-- Adds an edge once; its source becomes a node, its target need not be one. -/
def addEdge (g : Containment) (source target : String) : Containment :=
  { edges := (g.addNode source).edges.map fun e =>
      if e.1 == source && !e.2.contains target then (e.1, e.2 ++ [target]) else e }

/-- The graph of named contents, without the edges to names that have no entry. -/
def ofContents (contents : List (String × List String)) : Containment :=
  contents.foldl
    (fun g entry =>
      (entry.2.filter fun n => contents.any fun e => e.1 == n).foldl
        (fun g n => g.addEdge entry.1 n) (g.addNode entry.1))
    {}

def ofDecls (decls : List Decl) : Containment :=
  ofContents (decls.map fun d => (d.name, d.inlineNames))

/-! ## Cycles -/

/-- All names that occur in the graph. -/
def names (g : Containment) : List String := g.edges.flatMap fun e => e.1 :: e.2

/-- What a search has seen: the names it has reached, and those of them that it has not left yet. -/
structure Marks where
  visited : List String := []
  stack : List String := []
  deriving Repr, DecidableEq

/-- Why a search ends before it has followed every edge. -/
inductive Halt
  /-- Every name contains the next, and the last the first. -/
  | cycle (names : List String)
  /-- The stack and the path of the search do not hold the same names. -/
  | lost (name : String)
  /-- The search goes deeper than it may. -/
  | tooDeep
  deriving Repr, DecidableEq

namespace Marks

def enter (m : Marks) (name : String) : Marks :=
  { visited := m.visited.insert name, stack := m.stack.insert name }

def leave (m : Marks) (name : String) : Except Halt Marks :=
  if m.stack.contains name then .ok { m with stack := m.stack.erase name } else .error (.lost name)

end Marks

/-- How a search halts that meets a name on its stack again: the path from there on is a cycle. -/
def meet (path : List String) (name : String) : Halt :=
  match path.idxOf? name with
  | some i => .cycle (path.drop i)
  | none => .lost name

/-- Follows an edge from the end of a path; `below` searches from a name that is new. -/
def follow (below : Marks → String → Except Halt Marks) (path : List String) (marks : Marks)
    (next : String) : Except Halt Marks :=
  if !marks.visited.contains next then below marks next
  else if marks.stack.contains next then .error (meet path next)
  else .ok marks

/-- Searches from a name that was reached along `path`. Every step down reaches a new name, so the
search is not too deep while `depth` is at least the number of names left. -/
def search (g : Containment) :
    (depth : Nat) → (path : List String) → Marks → String → Except Halt Marks
  | 0, _, _, _ => .error .tooDeep
  | depth + 1, path, marks, name => do
    let marks ← (g.targets name).foldlM
      (follow (g.search depth (path ++ [name])) (path ++ [name])) (marks.enter name)
    marks.leave name

/-- Searches from every node that no search before has reached. -/
def searchAll (g : Containment) : Except Halt Marks :=
  g.edges.foldlM
    (fun marks e =>
      if marks.visited.contains e.1 then .ok marks else g.search g.names.length [] marks e.1)
    {}

/-- The names of a cycle in order, or nothing if the graph has none. -/
def findCycle (g : Containment) : List String :=
  match g.searchAll with
  | .error (.cycle names) => names
  | _ => []

/-- A one-line summary of the graph. -/
def summary (g : Containment) : String :=
  "DependencyGraph(" ++ Nat.repr g.edges.length ++ " types, "
    ++ Nat.repr (g.edges.flatMap Prod.snd).length ++ " edges)"

end Containment

end PackedSchema
