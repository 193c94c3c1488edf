/-!
# Pathwise.Digraph

Directed graphs on the nodes `0, …, size - 1`, given by their edges in the order
they were added. Where an answer depends on an order, it is this one: a search
follows the edges of a node in the order they were added.

* `reversePostOrder`: the nodes a depth-first search meets, last finished first;
* `dominatorChain`: the nodes that every path to a given node passes through;
* `orderedComponents`: the strongly connected components, each after those that
  have an edge into it.
-/

namespace Pathwise

/-- A directed graph. -/
structure Digraph where
  size : Nat
  edges : List (Nat × Nat)

namespace Digraph

/-- Targets of the edges of a node. -/
def successors (g : Digraph) (n : Nat) : List Nat :=
  g.edges.filterMap fun (a, b) => if a = n then some b else none

/-- The graph with every edge turned round. -/
def flip (g : Digraph) : Digraph := { g with edges := g.edges.map fun (a, b) => (b, a) }

/-! ## Depth-first search -/

/-- Nodes met by a search and nodes it is done with, both newest first. -/
structure Search where
  seen : List Nat := []
  finished : List Nat := []

/-- Search on from a node. Every nested call meets a new node, so a search that starts with more
`fuel` than there are nodes is complete. -/
def visit (g : Digraph) : (fuel : Nat) → Search → Nat → Search
  | 0, s, _ => s
  | fuel + 1, s, n =>
    if n ∈ s.seen then s
    else
      let inner := (g.successors n).foldl (visit g fuel) { s with seen := n :: s.seen }
      { inner with finished := n :: inner.finished }

/-- Search from each of the given nodes in turn. -/
def search (g : Digraph) (starts : List Nat) : Search :=
  starts.foldl (g.visit (g.size + 1)) {}

/-- The nodes reachable from the starts, each before the nodes finished earlier. -/
def reversePostOrder (g : Digraph) (starts : List Nat) : List Nat := (g.search starts).finished

/-- The nodes that can be reached from a node. -/
def reachable (g : Digraph) (start : Nat) : List Nat := (g.search [start]).seen

/-! ## Dominators -/

/-- The graph without the edges of a node. -/
def without (g : Digraph) (n : Nat) : Digraph :=
  { g with edges := g.edges.filter fun (a, b) => a ≠ n ∧ b ≠ n }

/-- For each node reachable from `start`, in reverse post-order, the nodes that stay reachable
when it is taken away. -/
def cuts (g : Digraph) (start : Nat) : List (Nat × List Nat) :=
  (g.reversePostOrder [start]).map fun d => (d, (g.without d).reachable start)

/-- The nodes other than `n` whose removal cuts `n` off, nearest first: in reverse post-order a
dominator stands before what it dominates. -/
def chainOf (cuts : List (Nat × List Nat)) (n : Nat) : List Nat :=
  (cuts.filterMap fun (d, rest) => if d ≠ n ∧ n ∉ rest then some d else none).reverse

/-- Strict dominators of `n` as seen from `start`, nearest first. -/
def dominatorChain (g : Digraph) (start n : Nat) : List Nat := chainOf (g.cuts start) n

/-- The immediate dominator of a node: the nearest of the strict ones. -/
def immediateDominator? (cuts : List (Nat × List Nat)) (n : Nat) : Option Nat :=
  (chainOf cuts n).head?

/-- Go from a node to its immediate dominator again and again. Every step leads to another node,
so that `fuel` for all nodes is enough. -/
def climb (cuts : List (Nat × List Nat)) : (fuel n : Nat) → List Nat
  | 0, _ => []
  | fuel + 1, n =>
    match immediateDominator? cuts n with
    | none => []
    | some d => d :: climb cuts fuel d

/-! ## Strongly connected components -/

/-- Collect, for each node of `order` that no earlier component holds, everything it reaches
outside them. The nodes of a component are listed in ascending order. -/
def collect (g : Digraph) : (order : List Nat) → Search → List (List Nat)
  | [], _ => []
  | n :: order, s =>
    if n ∈ s.seen then collect g order s
    else
      let s' := g.visit (g.size + 1) s n
      let component := (List.range g.size).filter fun m => m ∈ s'.seen ∧ m ∉ s.seen
      component :: collect g order s'

/-- The strongly connected components: search the flipped graph first, then collect in the order
in which that search finished, last first. -/
def components (g : Digraph) : List (List Nat) :=
  g.collect (g.flip.reversePostOrder (List.range g.size)) {}

/-- Position of the component that holds a node. -/
def componentOf (components : List (List Nat)) (n : Nat) : Nat :=
  components.findIdx (n ∈ ·)

/-- The graph of the components: the edges between different ones, each once. -/
def condensed (g : Digraph) (components : List (List Nat)) : Digraph :=
  { size := components.length
    edges :=
      ((g.edges.map fun (a, b) => (componentOf components a, componentOf components b)).filter
      fun (a, b) => a ≠ b).eraseDups }

/-- The components in an order in which edges point forward. -/
def orderedComponents (g : Digraph) : List (List Nat) :=
  let cs := g.components
  ((g.condensed cs).reversePostOrder (List.range cs.length)).filterMap (cs[·]?)

end Digraph

end Pathwise
