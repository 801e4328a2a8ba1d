import Clausal.Module.Uses

/-!
# The order of compilation

A definition is compiled after the definitions that it uses, so that their
bodies are at hand; definitions that use each other are compiled together.
A depth-first traversal gathers definitions into components, whose members
depend on each other, and finishes a component after those it uses.  A
component is put one level above the highest of those it uses.
-/

namespace Clausal

/-- For every node the nodes that it uses. -/
structure DependencyGraph where
  edges : List (List Nat)
  /-- Only nodes of the graph are used. -/
  bounded : ∀ used ∈ edges, ∀ j ∈ used, j < edges.length

/-- What a traversal has found so far. -/
structure Traversal where
  /-- The nodes met, in the order in which they were met. -/
  met : List Nat := []
  /-- The nodes met whose component is not finished, the latest first. -/
  stack : List Nat := []
  /-- The finished components, in the order in which they were finished. -/
  components : List (List Nat) := []
  /-- The places of the components of finished nodes. -/
  componentOf : Nat → Nat := fun _ => 0

namespace Traversal

/-- The number of a node is how many nodes were met before it. -/
def number? (s : Traversal) (i : Nat) : Option Nat := s.met.idxOf? i

/-- Meet a node. -/
def enter (s : Traversal) (i : Nat) : Traversal :=
  { s with met := s.met ++ [i], stack := i :: s.stack }

/-- Finish the component of a node: the node and all nodes above it on the stack. -/
def finish (s : Traversal) (i : Nat) : Traversal :=
  let component := s.stack.takeWhile (· != i) ++ [i]
  { s with
    stack := (s.stack.dropWhile (· != i)).drop 1
    components := s.components ++ [component]
    componentOf := fun j => if component.contains j then s.components.length else s.componentOf j }

/-- Follow one use.  `low` is the least number known so far of an unfinished
node that the user reaches; a node that was not met is visited. -/
def follow (visit : Nat → Traversal → Nat × Traversal) (found : Nat × Traversal) (j : Nat) :
    Nat × Traversal :=
  let (low, s) := found
  match s.number? j with
  | none =>
      let (reached, s) := visit j s
      (min low reached, s)
  | some number => if s.stack.contains j then (min low number, s) else (low, s)

end Traversal

namespace DependencyGraph

def size (g : DependencyGraph) : Nat := g.edges.length

def uses (g : DependencyGraph) (i : Nat) : List Nat := g.edges.getD i []

/-- Visit a node that was not met, to a given depth, and what it uses.  A node
that reaches no unfinished node with a lower number than its own is the first
of its component. -/
def visit (g : DependencyGraph) : (depth : Nat) → Nat → Traversal → Nat × Traversal
  | 0, _, s => (s.met.length, s)
  | depth + 1, i, s =>
      let number := s.met.length
      let (low, s) := (g.uses i).foldl (Traversal.follow (g.visit depth)) (number, s.enter i)
      if low = number then (low, s.finish i) else (low, s)

/-- Visit a node unless it was met.  No path of visits is longer than the graph
has nodes. -/
def explore (g : DependencyGraph) (s : Traversal) (i : Nat) : Traversal :=
  match s.number? i with
  | none => (g.visit g.size i s).2
  | some _ => s

/-- The traversal of all nodes. -/
def traversal (g : DependencyGraph) : Traversal := (List.range g.size).foldl g.explore {}

/-- The components, each after those that it uses. -/
def components (g : DependencyGraph) : List (List Nat) := g.traversal.components

/-- The level of the component that comes after those of the given levels: one
more than the highest level of another component that it uses. -/
def nextLevel (g : DependencyGraph) (componentOf : Nat → Nat) (levels : List Nat)
    (component : List Nat) : Nat :=
  let places := (component.flatMap g.uses).map componentOf
  ((places.filter (· != levels.length)).map fun place => levels.getD place 0 + 1).foldl max 0

/-- Add nodes to a level, and the levels up to it if they are missing. -/
def addToLevel (levels : List (List Nat)) (level : Nat) (nodes : List Nat) : List (List Nat) :=
  (levels ++ List.replicate (level + 1 - levels.length) []).modify level (· ++ nodes)

/-- Put a component on its level, after the levels of components and the nodes
of levels that are known so far. -/
def place (g : DependencyGraph) (componentOf : Nat → Nat) (found : List Nat × List (List Nat))
    (component : List Nat) : List Nat × List (List Nat) :=
  let level := g.nextLevel componentOf found.1 component
  (found.1 ++ [level], addToLevel found.2 level component)

/-- The levels of the components, and the nodes of each level. -/
def placed (g : DependencyGraph) : List Nat × List (List Nat) :=
  let s := g.traversal
  s.components.foldl (g.place s.componentOf) ([], [])

/-- Put a node before the first that is not less. -/
def insertNode (i : Nat) : List Nat → List Nat
  | [] => [i]
  | j :: nodes => if i ≤ j then i :: j :: nodes else j :: insertNode i nodes

/-- The nodes level by level, those of a level in ascending order.  A node is on
the level of its component. -/
def levels (g : DependencyGraph) : List (List Nat) :=
  g.placed.2.map (·.foldr insertNode [])

end DependencyGraph

namespace Surface

/-- The definitions among `names` that a definition uses, in ascending order. -/
def Definition.dependencies (names : List Name) (d : Definition) : List Nat :=
  let used := d.uses []
  (List.range names.length).filter fun i => used.contains (names.getD i "")

/-- What definitions use of each other. -/
def dependencyGraph (definitions : List Definition) : DependencyGraph where
  edges := definitions.map (·.dependencies (definitions.map (·.name.name)))
  bounded := by
    intro used hused j hj
    obtain ⟨d, -, rfl⟩ := List.mem_map.mp hused
    simpa [Definition.dependencies] using (List.mem_filter.mp hj).1

end Surface
end Clausal
