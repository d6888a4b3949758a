import Promin.ForStd.Amounts
import Promin.Data.ConnectedComponents

/-!
# PageRank

`pageRank` moves rank along the edges, a fixed number of times or until it
hardly moves any more. Ranks are exact rationals.
-/

namespace Promin.Data

open JsMap

section PageRank

variable {V E : Type} [Vertex V] [Edge E]

inductive Seed where
  | one (id : VertexId)
  | many (ids : List VertexId)

def Seed.list : Seed → List VertexId
  | .one id => [id]
  | .many ids => ids

structure PageRankOptions where
  maxIter : Nat := 20
  dampingFactor : Rat := 85 / 100
  tolerance : Rat := 1 / 1000000
  personalizedFrom : Option Seed := none

abbrev Ranks := JsMap VertexId Rat

variable (g : GraphFrame V E)

/-- The same share for every vertex. -/
def uniformDistribution : Ranks :=
  g.ids.foldl (fun dist id => dist.set id (1 / g.vertices.length)) empty

/-- Where a walker that does not follow an edge goes. Seeds that are no vertices are dropped. -/
def buildTeleportDistribution : Option Seed → Ranks
  | none => uniformDistribution g
  | some seed =>
    let valid := seed.list.filter g.ids.contains
    if valid.length = 0 then uniformDistribution g
    else valid.foldl (fun dist id => dist.add id (1 / valid.length))
      (g.ids.foldl (fun dist id => dist.set id 0) empty)

def outEdges : JsMap VertexId (List VertexId) :=
  g.edges.foldl (fun out e => out.push (Edge.src e) (Edge.dst e)) empty

def outDegree : JsMap VertexId Nat :=
  g.edges.foldl (fun degree e => degree.add (Edge.src e) 1) empty

def distribute (damping : Rat) (rank next : Ranks) (out : VertexId × List VertexId) :
    Option Ranks := do
  let share := damping * (← rank.get out.1) / out.2.length
  return out.2.foldl (fun next dst => next.add dst share) next

/-- Share the rank of the vertices without edges. -/
def redistribute (damping : Rat) (teleportDist : Ranks) (danglingSum : Rat) (next : Ranks) :
    Option Ranks :=
  if danglingSum > 0 then
    g.ids.foldlM (fun next id => do
      return next.set id
        ((← next.get id) + damping * danglingSum * (← teleportDist.get id))) next
  else some next

def iterate (damping : Rat) (teleportDist rank : Ranks) : Option Ranks := do
  let next ← g.ids.foldlM (fun next id => do
    return next.set id ((1 - damping) * (← teleportDist.get id))) empty
  let danglingSum ← g.ids.foldlM (fun sum id => do
    if (outDegree g).amount id = 0 then return sum + (← rank.get id) else return sum) 0
  let next ← redistribute g damping teleportDist danglingSum next
  (outEdges g).entries.foldlM (distribute damping rank) next

def movement (rank next : Ranks) : Option Rat :=
  g.ids.foldlM (fun delta id => do
    return delta + |(← next.get id) - (← rank.get id)|) 0

def iterations (g : GraphFrame V E) (options : PageRankOptions) (teleportDist : Ranks) :
    (left : Nat) → Ranks → Option Ranks
  | 0, rank => some rank
  | left + 1, rank => do
    let next ← iterate g options.dampingFactor teleportDist rank
    let delta ← movement g rank next
    if delta < options.tolerance then return next
    else iterations g options teleportDist left next

def initialRanks (teleportDist : Ranks) : Ranks :=
  g.ids.foldl (fun rank id => rank.set id (teleportDist.amount id)) empty

/-- The ranks once the iterations end. -/
def pageRank (options : PageRankOptions) : Option (List (V × Rat)) :=
  if g.vertices.length = 0 then return []
  else do
    let teleportDist := buildTeleportDistribution g options.personalizedFrom
    let rank ← iterations g options teleportDist options.maxIter (initialRanks g teleportDist)
    g.vertices.mapM fun v => do return (v, ← rank.get (Vertex.id v))

end PageRank

end Promin.Data
