import Mathlib.Combinatorics.SimpleGraph.Connectivity.Connected
import Promin.ForStd.JsMap

/-!
# Connected components

`connectedComponents`: union-find over the edge list, with ranks and path compression.  The
`while` loops run on `fuel`; without any left there is no result.
-/

/-!
## Graph frames

A `GraphFrame` is a list of vertices, each with an id, and a list of edges between ids.  An
edge may repeat, loop, or name an id that no vertex has.
-/

namespace Promin.Data

/-- `VertexId`. Numbers are integers. -/
inductive VertexId where
  | str (s : String)
  | num (n : Int)
  deriving DecidableEq

class Vertex (V : Type) where
  id : V → VertexId

class Edge (E : Type) where
  src : E → VertexId
  dst : E → VertexId

instance : Vertex VertexId := ⟨id⟩

instance : Edge (VertexId × VertexId) := ⟨Prod.fst, Prod.snd⟩

/-- A graph as two tables. -/
structure GraphFrame (V E : Type) where
  vertices : List V
  edges : List E

namespace GraphFrame

variable {V E : Type} [Vertex V] [Edge E] (g : GraphFrame V E)

def ids : List VertexId := g.vertices.map Vertex.id

/-- An edge leads from `a` to `b`, and both are vertices. -/
def Links (a b : VertexId) : Prop :=
  a ∈ g.ids ∧ b ∈ g.ids ∧ ∃ e ∈ g.edges, Edge.src e = a ∧ Edge.dst e = b

def undirected : SimpleGraph VertexId := SimpleGraph.fromRel g.Links

end GraphFrame

end Promin.Data

namespace Promin.Data

/-- The maps of `connectedComponents`. -/
structure UnionFind where
  parent : JsMap VertexId VertexId
  rank : JsMap VertexId Nat

namespace UnionFind

def climb (parent : JsMap VertexId VertexId) : (fuel : Nat) → VertexId → Option VertexId
  | 0, _ => none
  | fuel + 1, root =>
    match parent.get root with
    | none => none
    | some next => if next = root then some root else climb parent fuel next

/-- Point everything on the walk from `cur` at `root`. -/
def compress (root : VertexId) :
    (fuel : Nat) → JsMap VertexId VertexId → VertexId → Option (JsMap VertexId VertexId)
  | 0, _, _ => none
  | fuel + 1, parent, cur =>
    match parent.get cur with
    | none => none
    | some next => if next = root then some parent
      else compress root fuel (parent.set cur root) next

def find (fuel : Nat) (s : UnionFind) (x : VertexId) : Option (VertexId × UnionFind) := do
  let root ← climb s.parent fuel x
  let parent ← compress root fuel s.parent x
  return (root, { s with parent })

def union (fuel : Nat) (s : UnionFind) (a b : VertexId) : Option UnionFind := do
  let (ra, s) ← s.find fuel a
  let (rb, s) ← s.find fuel b
  if ra = rb then return s
  let rankA := (s.rank.get ra).getD 0
  let rankB := (s.rank.get rb).getD 0
  if rankA < rankB then return { s with parent := s.parent.set ra rb }
  else if rankA > rankB then return { s with parent := s.parent.set rb ra }
  else return { parent := s.parent.set rb ra, rank := s.rank.set ra (rankA + 1) }

end UnionFind

section Components

variable {V E : Type} [Vertex V] [Edge E]

def singletons (vertices : List V) : UnionFind where
  parent := vertices.foldl (fun parent v => parent.set (Vertex.id v) (Vertex.id v)) JsMap.empty
  rank := vertices.foldl (fun rank v => rank.set (Vertex.id v) 0) JsMap.empty

def unionEdge (fuel : Nat) (s : UnionFind) (e : E) : Option UnionFind :=
  if s.parent.has (Edge.src e) && s.parent.has (Edge.dst e) then
    s.union fuel (Edge.src e) (Edge.dst e)
  else some s

/-- The labelling of the vertices so far. -/
structure Labelling (V : Type) where
  sets : UnionFind
  componentId : JsMap VertexId Nat := JsMap.empty
  nextId : Nat := 0
  rows : List (V × Nat) := []

def labelVertex (fuel : Nat) (l : Labelling V) (v : V) : Option (Labelling V) := do
  let (root, sets) ← l.sets.find fuel (Vertex.id v)
  match l.componentId.get root with
  | some id => return { l with sets, rows := l.rows ++ [(v, id)] }
  | none => return {
      sets
      componentId := l.componentId.set root l.nextId
      nextId := l.nextId + 1
      rows := l.rows ++ [(v, l.nextId)] }

/-- Joins the ends of every edge, then numbers the sets. -/
def connectedComponents (fuel : Nat) (g : GraphFrame V E) : Option (List (V × Nat)) := do
  let sets ← g.edges.foldlM (unionEdge fuel) (singletons g.vertices)
  let labels ← g.vertices.foldlM (labelVertex fuel) { sets }
  return labels.rows

end Components

end Promin.Data
