import Flowscript.Graph.Basic

/-! # Paths through a graph

Which statements can run, following flow links from the entries, and which expressions feed their own
inputs.
-/
namespace Flowscript.Graph

def flowTargets (g : Graph) (id : NodeId) : List NodeId :=
  ((g.nodePins id).filter fun p => p.isFlow && p.isOutput).flatMap fun p =>
    (g.liveLinks.filter (·.output == p.id)).filterMap fun l => (g.pin? l.input).map (·.node)

def discover (seen pending : List NodeId) : List NodeId → List NodeId × List NodeId
  | [] => (seen, pending)
  | n :: rest =>
    if seen.contains n then discover seen pending rest
    else discover (n :: seen) (pending ++ [n]) rest

def follow (g : Graph) : Nat → List NodeId → List NodeId → List NodeId
  | 0, seen, _ => seen
  | _ + 1, seen, [] => seen
  | fuel + 1, seen, n :: pending =>
    let (seen, pending) := discover seen pending (g.flowTargets n)
    g.follow fuel seen pending

/-- The nodes that flow links reach from some nodes. Every node found belongs to some pin, so the
number of pins bounds the search. -/
def reachable (g : Graph) (start : List NodeId) : List NodeId :=
  g.follow (start.length + g.pins.size + 1) start start

/-- Which expression reads which: consumer and producer of every data link between expressions. -/
def dependencies (g : Graph) : List (NodeId × NodeId) :=
  g.liveLinks.filterMap fun l =>
    match g.pin? l.output, g.pin? l.input with
    | some output, some input =>
      if output.isFlow || !g.isPure output.node || !g.isPure input.node then none
      else some (input.node, output.node)
    | _, _ => none

/-- A search for cycles: the nodes it is inside of, those it has left, and those found to feed their
own inputs, the latest first. -/
structure CycleSearch where
  entered : List NodeId := []
  left : List NodeId := []
  cycles : List NodeId := []

/-- Visits a node and what it reads, as deep as `fuel` allows. -/
def visit (edges : List (NodeId × NodeId)) : Nat → CycleSearch → NodeId → CycleSearch
  | 0, s, _ => s
  | fuel + 1, s, n =>
    let producers := (edges.filter (·.1 == n)).map (·.2)
    let s := producers.foldl (fun s p =>
      if s.left.contains p then s
      else if s.entered.contains p then
        if s.cycles.contains p then s else { s with cycles := p :: s.cycles }
      else visit edges fuel s p) { s with entered := n :: s.entered }
    { s with entered := s.entered.erase n, left := n :: s.left }

/-- The expressions that depend on their own output, each once, in the order found. A path without
repetition is no longer than the number of nodes and links. -/
def dataCycles (g : Graph) : List NodeId :=
  let edges := g.dependencies
  let s := g.liveNodes.foldl (fun s n =>
    if s.left.contains n.id then s else visit edges (g.nodes.size + edges.length + 1) s n.id) {}
  s.cycles.reverse

end Flowscript.Graph
