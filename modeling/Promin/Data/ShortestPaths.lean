import Mathlib.Data.Rat.Lemmas
import Mathlib.Algebra.Order.Ring.Rat
import Promin.ForStd.BinaryHeap
import Promin.Data.ConnectedComponents

/-!
# Shortest paths

`shortestPaths`: Dijkstra's algorithm from one source, with a heap in which
entries go stale. An entry whose priority is above the distance the vertex has
by then is passed over.
-/

namespace Promin.Data

/-- What `Number(...)` makes of a weight. -/
inductive JsNumber where
  | finite (q : Rat)
  | infinite (negative : Bool)
  | nan
  deriving DecidableEq

/-- `shortestPaths` throws on the first weight it does not support. -/
inductive ShortestPathsError where
  | unsupportedWeight (w : JsNumber)

section ShortestPaths

variable {V E : Type} [Vertex V] [Edge E]

structure ShortestPathsParams (E : Type) where
  source : VertexId
  weightColumn : Option (E → JsNumber) := none

/-- The weight of an edge, `1` without a weight column. -/
def ShortestPathsParams.weight (params : ShortestPathsParams E) (e : E) : JsNumber :=
  match params.weightColumn with
  | none => .finite 1
  | some column => column e

/-- The edges out of each vertex, with their weights. -/
abbrev Adjacency := JsMap VertexId (List (VertexId × Rat))

/-- Enter one edge. -/
def addNeighbor (params : ShortestPathsParams E) (adj : Adjacency) (e : E) :
    Except ShortestPathsError Adjacency :=
  match params.weight e with
  | .finite w =>
    if w < 0 then .error (.unsupportedWeight (.finite w))
    else .ok (adj.push (Edge.src e) (Edge.dst e, w))
  | w => .error (.unsupportedWeight w)

structure Search where
  distance : JsMap VertexId Rat
  predecessor : JsMap VertexId VertexId
  heap : Array (VertexId × Rat)

namespace Search

def start (source : VertexId) : Search where
  distance := JsMap.empty.set source 0
  predecessor := JsMap.empty
  heap := BinaryHeap.push Prod.snd #[] (source, 0)

def relax (u : VertexId) (d : Rat) (s : Search) (neighbor : VertexId × Rat) : Search :=
  let candidate := d + neighbor.2
  if (s.distance.get neighbor.1).all (candidate < ·) then {
    distance := s.distance.set neighbor.1 candidate
    predecessor := s.predecessor.set neighbor.1 u
    heap := BinaryHeap.push Prod.snd s.heap (neighbor.1, candidate) }
  else s

/-- `while (heap.size > 0)`. -/
def loop (adj : Adjacency) : (fuel : Nat) → Search → Option Search
  | 0, _ => none
  | fuel + 1, s =>
    match BinaryHeap.pop Prod.snd s.heap with
    | none => some s
    | some ((u, d), heap) =>
      if (s.distance.get u).any (· < d) then loop adj fuel { s with heap }
      else loop adj fuel (((adj.get u).getD []).foldl (relax u d) { s with heap })

end Search

structure ShortestPathsRow where
  id : VertexId
  distance : Option Rat
  predecessor : Option VertexId

/-- Dijkstra's search from the source. -/
def shortestPaths (fuel : Nat) (g : GraphFrame V E) (params : ShortestPathsParams E) :
    Except ShortestPathsError (Option (List ShortestPathsRow)) := do
  let adj ← g.edges.foldlM (addNeighbor params) JsMap.empty
  return (Search.loop adj fuel (Search.start params.source)).map fun s =>
    g.vertices.map fun v => {
      id := Vertex.id v
      distance := s.distance.get (Vertex.id v)
      predecessor := s.predecessor.get (Vertex.id v) }

end ShortestPaths

end Promin.Data
