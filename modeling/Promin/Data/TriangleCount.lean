import Promin.Data.ConnectedComponents

/-!
# Triangle count

`triangleCount` looks for each triangle at its least corner, in the order of
`cmp`. How `localeCompare` orders strings is a parameter.
-/

namespace Promin.Data

def VertexId.text : VertexId → String
  | .str s => s
  | .num n => toString n

def cmp (localeCompare : String → String → Int) : VertexId → VertexId → Int
  | .num a, .num b => a - b
  | a, b => localeCompare a.text b.text

/-- The neighbors of a vertex that is not there have no `has`. -/
inductive TriangleError where
  | readOfUndefined (property : String)
  deriving DecidableEq

section TriangleCount

variable {V E : Type} [Vertex V] [Edge E]

def addToSet (x : VertexId) (set : List VertexId) : List VertexId :=
  if set.contains x then set else set ++ [x]

def addTo (key x : VertexId) (adj : JsMap VertexId (List VertexId)) :
    JsMap VertexId (List VertexId) :=
  match adj.get key with
  | some set => adj.set key (addToSet x set)
  | none => adj

def addEdge (adj : JsMap VertexId (List VertexId)) (e : E) : JsMap VertexId (List VertexId) :=
  if Edge.src e = Edge.dst e then adj
  else addTo (Edge.dst e) (Edge.src e) (addTo (Edge.src e) (Edge.dst e) adj)

def neighborSets (g : GraphFrame V E) : JsMap VertexId (List VertexId) :=
  g.edges.foldl addEdge (g.vertices.foldl (fun adj v => adj.set (Vertex.id v) []) JsMap.empty)

def bump (triangles : JsMap VertexId Nat) (x : VertexId) : JsMap VertexId Nat :=
  triangles.set x ((triangles.get x).getD 0 + 1)

/-- The pairs of greater neighbors of `v` from one position on. -/
def countPairs (adj : JsMap VertexId (List VertexId)) (v : VertexId) :
    List VertexId → JsMap VertexId Nat → Except TriangleError (JsMap VertexId Nat)
  | [], triangles => .ok triangles
  | u :: rest, triangles =>
    match adj.get u, rest with
    | some uAdj, rest => countPairs adj v rest (rest.foldl (fun triangles w =>
        if uAdj.contains w then bump (bump (bump triangles v) u) w else triangles) triangles)
    | none, [] => .ok triangles
    | none, _ :: _ => .error (.readOfUndefined "has")

def greaterNeighbors (localeCompare : String → String → Int)
    (adj : JsMap VertexId (List VertexId)) (v : VertexId) : List VertexId :=
  ((adj.get v).getD []).filter fun n => decide (cmp localeCompare n v > 0)

def triangleCount (localeCompare : String → String → Int) (g : GraphFrame V E) :
    Except TriangleError (List (V × Nat)) := do
  let adj := neighborSets g
  let triangles ← g.vertices.foldlM (fun triangles v =>
    countPairs adj (Vertex.id v) (greaterNeighbors localeCompare adj (Vertex.id v)) triangles)
    (g.vertices.foldl (fun triangles v => triangles.set (Vertex.id v) 0) JsMap.empty)
  return g.vertices.map fun v => (v, (triangles.get (Vertex.id v)).getD 0)

end TriangleCount

end Promin.Data

/-!
## Neighbors

`GraphFrame.neighbors` reaches out from one id, a hop at a time.  A hop is one pass over all
edges: it starts from what the last hop has added, and adds what was not reached before.
-/

namespace Promin.Data

inductive Direction where
  | out
  | incoming
  | both
  deriving DecidableEq

structure Hop where
  next : List VertexId
  reached : List VertexId

/-- Go from one end of an edge to the other. -/
def Hop.follow (hop : Hop) (allowed : Bool) (frontier : List VertexId) (src dst : VertexId) :
    Hop :=
  if allowed && frontier.contains src && !hop.reached.contains dst then
    { next := addToSet dst hop.next, reached := addToSet dst hop.reached }
  else hop

namespace GraphFrame

variable {V E : Type} [Vertex V] [Edge E]

def hopAlong (direction : Direction) (frontier : List VertexId) (hop : Hop) (e : E) : Hop :=
  let hop := hop.follow (direction = .out || direction = .both) frontier (Edge.src e) (Edge.dst e)
  hop.follow (direction = .incoming || direction = .both) frontier (Edge.dst e) (Edge.src e)

/-- What is reached within a number of hops. -/
def hops (g : GraphFrame V E) (direction : Direction) :
    (left : Nat) → (frontier reached : List VertexId) → List VertexId
  | 0, _, reached => reached
  | left + 1, frontier, reached =>
    let hop := g.edges.foldl (hopAlong direction frontier) { next := [], reached }
    if hop.next.length = 0 then hop.reached else hops g direction left hop.next hop.reached

/-- The vertices up to `depth` hops away from an id. -/
def neighbors (g : GraphFrame V E) (id : VertexId) (depth : Nat := 1)
    (direction : Direction := .both) : List V :=
  let reached := (hops g direction depth [id] [id]).filter (· != id)
  g.vertices.filter fun v => reached.contains (Vertex.id v)

end GraphFrame

end Promin.Data
