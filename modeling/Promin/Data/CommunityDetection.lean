import Promin.ForStd.Amounts
import Promin.Data.ShortestPaths
import Promin.Data.TriangleCount

/-!
# Community detection

`communityDetection` is the Louvain method: vertices move to communities of
their neighbors, and then each community becomes one vertex of a smaller graph.
Weights are exact rationals.
-/

namespace Promin.Data

open JsMap

section CommunityDetection

variable {V E : Type} [Vertex V] [Edge E]

structure CommunityDetectionOptions (E : Type) where
  weightColumn : Option (E → JsNumber) := none
  resolution : Rat := 1
  tolerance : Rat := 1 / 10000000
  maxLocalPasses : Nat := 50
  maxLevels : Nat := 20

/-- `adj[v]` maps the neighbors of `v` to summed weights; a self-loop is in `adj[v][v]`. -/
abbrev WeightRows := JsMap VertexId (JsMap VertexId Rat)

def rowOf (adj : WeightRows) (v : VertexId) : JsMap VertexId Rat := (adj.get v).getD empty

def addWeight (adj : WeightRows) (a b : VertexId) (w : Rat) : WeightRows :=
  adj.set a ((rowOf adj a).add b w)

structure WeightedGraph where
  /-- Unique ids. -/
  nodes : List VertexId
  adj : WeightRows
  /-- The weights of the edges of a vertex together, self-loops counted twice. -/
  degree : JsMap VertexId Rat
  /-- All weights together, self-loops counted once. -/
  m : Rat

namespace WeightedGraph

def ofNodes (nodes : List VertexId) : WeightedGraph where
  nodes := nodes
  adj := nodes.foldl (fun adj n => adj.set n empty) empty
  degree := nodes.foldl (fun degree n => degree.set n 0) empty
  m := 0

def addLoop (g : WeightedGraph) (a : VertexId) (w : Rat) : WeightedGraph :=
  { g with
    adj := addWeight g.adj a a w
    degree := g.degree.add a (2 * w)
    m := g.m + w }

def addBetween (g : WeightedGraph) (a b : VertexId) (w : Rat) : WeightedGraph :=
  { g with
    adj := addWeight (addWeight g.adj a b w) b a w
    degree := (g.degree.add a w).add b w
    m := g.m + w }

end WeightedGraph

/-! ## Reading the graph -/

def edgeWeight (weightColumn : Option (E → JsNumber)) (e : E) : JsNumber :=
  match weightColumn with
  | none => .finite 1
  | some column => column e

def enterEdge (weightColumn : Option (E → JsNumber)) (g : WeightedGraph) (e : E) :
    WeightedGraph :=
  if !g.nodes.contains (Edge.src e) || !g.nodes.contains (Edge.dst e) then g
  else match edgeWeight weightColumn e with
    | .finite w =>
      if w ≤ 0 then g
      else if Edge.src e = Edge.dst e then g.addLoop (Edge.src e) w
      else g.addBetween (Edge.src e) (Edge.dst e) w
    | _ => g

def buildWeighted (nodes : List VertexId) (edges : List E)
    (weightColumn : Option (E → JsNumber)) : WeightedGraph :=
  edges.foldl (enterEdge weightColumn) (WeightedGraph.ofNodes nodes)

/-! ## Local moves -/

def communityAt (communityOf : JsMap VertexId VertexId) (v : VertexId) : VertexId :=
  (communityOf.get v).getD v

/-- The communities, with the degrees of their members together. -/
structure Communities where
  community : JsMap VertexId VertexId
  totalDegree : JsMap VertexId Rat

def Communities.start (g : WeightedGraph) : Communities where
  community := g.nodes.foldl (fun community v => community.set v v) empty
  totalDegree := g.nodes.foldl (fun total v => total.set v (g.degree.amount v)) empty

def weightsToCommunities (g : WeightedGraph) (community : JsMap VertexId VertexId)
    (v : VertexId) : JsMap VertexId Rat :=
  (rowOf g.adj v).entries.foldl (fun toComm nbr =>
    if nbr.1 = v then toComm else toComm.add (communityAt community nbr.1) nbr.2) empty

/-- The community with the largest gain, if one gains more than `tolerance`. -/
def bestCommunity (toComm totalDegree : JsMap VertexId Rat) (scale tolerance : Rat)
    (currentComm : VertexId) : VertexId :=
  (toComm.entries.foldl (fun best c =>
    let gain := c.2 - scale * totalDegree.amount c.1
    if gain > best.2 + tolerance then (c.1, gain) else best) (currentComm, (0 : Rat))).1

def moveNode (g : WeightedGraph) (resolution tolerance : Rat) (s : Communities) (v : VertexId) :
    Communities :=
  let ki := g.degree.amount v
  let currentComm := communityAt s.community v
  let toComm := weightsToCommunities g s.community v
  -- `v` leaves its community while the candidates are weighed
  let totalDegree := s.totalDegree.add currentComm (-ki)
  let scale := resolution * ki / (2 * g.m)
  let bestComm := bestCommunity toComm totalDegree scale tolerance currentComm
  { community := s.community.set v bestComm
    totalDegree := totalDegree.add bestComm ki }

def movePass (g : WeightedGraph) (resolution tolerance : Rat) (s : Communities) :
    Communities × Bool :=
  g.nodes.foldl (fun (s, moved) v =>
    let next := moveNode g resolution tolerance s v
    (next, moved || communityAt next.community v != communityAt s.community v)) (s, false)

/-- The remaining passes, `left` at most, until one moves nothing. -/
def movePasses (g : WeightedGraph) (resolution tolerance : Rat) :
    (left : Nat) → Communities → Bool → Communities × Bool
  | 0, s, moved => (s, moved)
  | left + 1, s, moved =>
    match movePass g resolution tolerance s with
    | (next, true) => movePasses g resolution tolerance left next true
    | (next, false) => (next, moved)

def localMoves (g : WeightedGraph) (resolution tolerance : Rat) (maxPasses : Nat) :
    Communities × Bool :=
  if 2 * g.m = 0 then (Communities.start g, false)
  else movePasses g resolution tolerance maxPasses (Communities.start g) false

/-! ## Aggregation -/

def communityNodes (g : WeightedGraph) (communityOf : JsMap VertexId VertexId) : List VertexId :=
  g.nodes.foldl (fun newNodes v => addToSet (communityAt communityOf v) newNodes) []

def pairWeights (g : WeightedGraph) (communityOf : JsMap VertexId VertexId) : WeightRows :=
  g.nodes.foldl (fun pairWeight v => (rowOf g.adj v).entries.foldl (fun pairWeight nbr =>
    addWeight pairWeight (communityAt communityOf v) (communityAt communityOf nbr.1) nbr.2)
    pairWeight) empty

def cmpId (localeCompare : String → String → Int) : VertexId → VertexId → Int
  | .num a, .num b => a - b
  | a, b => localeCompare a.text b.text

/-- Enter the weight between `a` and another community, in one of the two directions. -/
def collapse (localeCompare : String → String → Int) (a : VertexId) (g : WeightedGraph)
    (entry : VertexId × Rat) : WeightedGraph :=
  if a = entry.1 then
    let w := entry.2 / 2
    if w ≤ 0 then g else g.addLoop a w
  else if cmpId localeCompare a entry.1 > 0 then g
  else if entry.2 ≤ 0 then g
  else g.addBetween a entry.1 entry.2

def WeightedGraph.aggregate (localeCompare : String → String → Int) (g : WeightedGraph)
    (communityOf : JsMap VertexId VertexId) : WeightedGraph :=
  (pairWeights g communityOf).entries.foldl
    (fun g row => row.2.entries.foldl (collapse localeCompare row.1) g)
    (WeightedGraph.ofNodes (communityNodes g communityOf))

/-! ## The levels -/

def levels (localeCompare : String → String → Int) (options : CommunityDetectionOptions E) :
    (left : Nat) → (first : Bool) → WeightedGraph → JsMap VertexId VertexId →
      JsMap VertexId VertexId
  | 0, _, _, currentCommunity => currentCommunity
  | left + 1, first, level, currentCommunity =>
    match localMoves level options.resolution options.tolerance options.maxLocalPasses with
    | (s, moved) =>
      if !moved && !first then currentCommunity
      else
        let next := currentCommunity.map (communityAt s.community)
        if !moved then next
        else levels localeCompare options left false (level.aggregate localeCompare s.community)
          next

def numberCommunities (currentCommunity : JsMap VertexId VertexId) (vertices : List V) :
    List (V × Nat) :=
  (vertices.foldl (fun (rows, commId) v =>
    let raw := communityAt currentCommunity (Vertex.id v)
    match get commId raw with
    | some id => (rows ++ [(v, id)], commId)
    | none => (rows ++ [(v, commId.size)], commId.set raw commId.size))
    (([] : List (V × Nat)), (empty : JsMap VertexId Nat))).1

/-- Louvain's method: levels of moves, then numbers for the communities. -/
def communityDetection (localeCompare : String → String → Int) (g : GraphFrame V E)
    (options : CommunityDetectionOptions E) : List (V × Nat) :=
  if g.vertices.length = 0 then []
  else
    let currentCommunity := g.ids.foldl (fun current id => current.set id id) empty
    numberCommunities (levels localeCompare options options.maxLevels true
      (buildWeighted g.ids g.edges options.weightColumn) currentCommunity) g.vertices

end CommunityDetection

end Promin.Data
