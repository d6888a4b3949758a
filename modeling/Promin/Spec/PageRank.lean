import Mathlib.Algebra.BigOperators.Field
import Promin.ForStd.Grouping
import Promin.Data.PageRank

/-!
# PageRank conserves mass

Ranks are a distribution over the vertices, and an iteration makes another one of it: what the
vertices with edges pass on, what the dangling vertices hold, and the teleport term add up.
-/

namespace Promin.Data

open JsMap Finset Grouping

section PageRank

variable {V E : Type} [Vertex V] [Edge E]

/-- Every vertex has a rank, and no rank is negative. -/
structure ValidRanks (g : GraphFrame V E) (rank : Ranks) : Prop where
  listed : ∀ id ∈ g.ids, (rank.get id).isSome
  nonneg : ∀ id, 0 ≤ rank.amount id

structure Distribution (g : GraphFrame V E) (rank : Ranks) : Prop extends ValidRanks g rank where
  total : rank.total g.ids.toFinset = 1

/-- Both ends of every edge are vertices. -/
def GraphFrame.EdgesListed (g : GraphFrame V E) : Prop :=
  ∀ e ∈ g.edges, Edge.src e ∈ g.ids ∧ Edge.dst e ∈ g.ids

variable {g : GraphFrame V E}

/-! ## The teleport distribution -/

omit [Edge E] in
theorem distribution_uniform (hids : g.ids.Nodup) (hne : g.vertices ≠ []) :
    Distribution g (uniformDistribution g) where
  listed := fun id hid => by
    rw [uniformDistribution, isSome_get_setAll, decide_eq_true hid, Bool.true_or]
  nonneg := fun id => by
    rw [uniformDistribution, amount_setAll]
    split
    · positivity
    · exact le_refl 0
  total := by
    have hlen : (g.vertices.length : Rat) ≠ 0 :=
      Nat.cast_ne_zero.mpr fun h => hne (List.length_eq_zero_iff.mp h)
    have hcard : g.ids.toFinset.card = g.vertices.length := by
      rw [List.toFinset_card_of_nodup hids, GraphFrame.ids, List.length_map]
    have hshare : ∀ id ∈ g.ids.toFinset,
        (uniformDistribution g).amount id = 1 / (g.vertices.length : Rat) := fun id hid => by
      rw [uniformDistribution, amount_setAll, if_pos (List.mem_toFinset.mp hid)]
    rw [JsMap.total, sum_congr rfl hshare, sum_const, hcard, nsmul_eq_mul]
    exact mul_one_div_cancel hlen

omit [Edge E] in
theorem distribution_teleport (hids : g.ids.Nodup) (hne : g.vertices ≠ []) :
    ∀ seed, Distribution g (buildTeleportDistribution g seed)
  | none => distribution_uniform hids hne
  | some seed => by
    show Distribution g (if (seed.list.filter g.ids.contains).length = 0 then _ else _)
    by_cases hvalid : (seed.list.filter g.ids.contains).length = 0
    · rw [if_pos hvalid]
      exact distribution_uniform hids hne
    · rw [if_neg hvalid]
      have hpos : ((seed.list.filter g.ids.contains).length : Rat) ≠ 0 :=
        Nat.cast_ne_zero.mpr hvalid
      have hzero : ∀ id, (g.ids.foldl (fun dist id => JsMap.set dist id (0 : Rat))
          JsMap.empty).amount id = 0 := fun id => by
        rw [amount_setAll (fun _ => (0 : Rat)), amount_empty, ite_self]
      refine ⟨⟨fun id hid => ?_, fun id => ?_⟩, ?_⟩
      · apply isSome_get_addAll
        rw [isSome_get_setAll (fun _ => (0 : Rat)), decide_eq_true hid, Bool.true_or]
      · show 0 ≤ (JsMap.addAll _ _ _ _).amount id
        rw [amount_addAll, hzero, zero_add]
        apply List.sum_nonneg
        intro share hshare
        obtain ⟨id', -, rfl⟩ := List.mem_map.mp hshare
        split
        · positivity
        · exact le_refl 0
      · show (JsMap.addAll (fun id => id) (fun _ => _) _ _).total _ = 1
        rw [total_addAll]
        · rw [JsMap.total, sum_eq_zero fun id _ => hzero id, zero_add, List.map_const',
            List.sum_replicate, nsmul_eq_mul]
          exact mul_one_div_cancel hpos
        · intro id hid
          exact List.mem_toFinset.mpr (List.contains_iff_mem.mp (List.mem_filter.mp hid).2)

/-! ## Edges out of a vertex -/

omit [Vertex V] in
theorem get_outEdges (g : GraphFrame V E) (id : VertexId) : (outEdges g).get id =
    if withKey Edge.src id g.edges = [] then none
    else some ((withKey Edge.src id g.edges).map Edge.dst) := by
  rw [outEdges, get_foldl_push]
  rfl

omit [Vertex V] in
theorem mem_keys_outEdges {id : VertexId} :
    id ∈ (outEdges g).keys ↔ (outDegree g).amount id ≠ 0 := by
  have hdegree : (outDegree g).amount id = (withKey Edge.src id g.edges).length := by
    show (JsMap.addAll Edge.src (fun _ => 1) g.edges JsMap.empty).amount id = _
    rw [amount_addAll, amount_empty, zero_add, withKey,
      ← List.countP_eq_length_filter]
    induction g.edges with
    | nil => rfl
    | cons e edges ih =>
      rw [List.map_cons, List.sum_cons, ih, List.countP_cons, Nat.add_comm]
      simp only [decide_eq_true_eq]
  rw [mem_keys_iff, get_outEdges, hdegree, ne_eq, List.length_eq_zero_iff]
  by_cases hout : withKey Edge.src id g.edges = [] <;> simp [hout]

omit [Vertex V] in
theorem mem_entries_outEdges {out : VertexId × List VertexId} (h : out ∈ (outEdges g).entries) :
    out.2 ≠ [] ∧ (∃ e ∈ g.edges, Edge.src e = out.1) ∧ ∀ dst ∈ out.2, ∃ e ∈ g.edges,
      Edge.dst e = dst := by
  have hget := ((outEdges g).mem_entries_iff out.1 out.2).mp h
  rw [get_outEdges] at hget
  by_cases hout : withKey Edge.src out.1 g.edges = []
  · rw [if_pos hout] at hget
    exact nomatch hget
  · rw [if_neg hout] at hget
    obtain ⟨e, he⟩ := List.exists_mem_of_ne_nil _ hout
    have hdsts := Option.some.inj hget
    refine ⟨fun hnil => hout ?_, ⟨e, List.mem_of_mem_filter he, ?_⟩, fun dst hdst => ?_⟩
    · rw [hnil] at hdsts
      exact List.map_eq_nil_iff.mp hdsts
    · exact of_decide_eq_true (List.mem_filter.mp he).2
    · rw [← hdsts] at hdst
      obtain ⟨e', he', rfl⟩ := List.mem_map.mp hdst
      exact ⟨e', List.mem_of_mem_filter he', rfl⟩

/-! ## One iteration -/

variable {damping : Rat} {teleportDist rank : Ranks}

omit [Edge E] in
theorem teleportLoop (hteleport : Distribution g teleportDist) :
    g.ids.foldlM (fun next id => do
      return JsMap.set next id ((1 - damping) * (← teleportDist.get id))) JsMap.empty =
    some (g.ids.foldl (fun next id => next.set id ((1 - damping) * teleportDist.amount id))
      JsMap.empty) := by
  refine (List.foldlM_some (P := fun _ => True) (fun next id hid _ => ⟨?_, trivial⟩) trivial).1
  rw [get_eq_amount (hteleport.listed id hid)]
  rfl

def danglingMass (g : GraphFrame V E) (rank : Ranks) : Rat :=
  ∑ id ∈ g.ids.toFinset with (outDegree g).amount id = 0, rank.amount id

theorem danglingLoop (hids : g.ids.Nodup) (hrank : Distribution g rank) :
    g.ids.foldlM (fun sum id => do
      if (outDegree g).amount id = 0 then return sum + (← rank.get id) else return sum) 0 =
    some (danglingMass g rank) := by
  have hloop := List.foldlM_some (P := fun _ => True) (b := (0 : Rat)) (l := g.ids)
    (f := fun sum id => do
      if (outDegree g).amount id = 0 then return sum + (← rank.get id) else return sum)
    (g := fun sum id => sum + if (outDegree g).amount id = 0 then rank.amount id else 0)
    (fun sum id hid _ => by
      refine ⟨?_, trivial⟩
      rw [get_eq_amount (hrank.listed id hid)]
      by_cases hzero : (outDegree g).amount id = 0
      · rw [if_pos hzero, if_pos hzero]
        rfl
      · rw [if_neg hzero, if_neg hzero, add_zero]
        rfl) trivial
  rw [hloop.1, danglingMass, sum_filter, List.sum_toFinset _ hids]
  congr 1
  rw [← List.foldl_map (f := fun id => if (outDegree g).amount id = 0 then rank.amount id else 0)
    (g := fun sum x => sum + x), List.sum_eq_foldl]

omit [Edge E] in
theorem ValidRanks.addAll {α : Type} {next : Ranks} (hnext : ValidRanks g next) (key : α → VertexId)
    {weight : α → Rat} {items : List α} (hweight : ∀ a ∈ items, 0 ≤ weight a) :
    ValidRanks g (JsMap.addAll key weight items next) where
  listed := fun id hid => isSome_get_addAll key weight (hnext.listed id hid)
  nonneg := fun id => by
    rw [amount_addAll]
    refine add_nonneg (hnext.nonneg id) (List.sum_nonneg fun share hshare => ?_)
    obtain ⟨a, ha, rfl⟩ := List.mem_map.mp hshare
    split
    · exact hweight a ha
    · exact le_refl 0

omit [Edge E] in
theorem redistributeLoop (hteleport : Distribution g teleportDist) (mass : Rat) {next : Ranks}
    (hnext : ValidRanks g next) :
    g.ids.foldlM (fun next id => do
      return JsMap.set next id
        ((← next.get id) + damping * mass * (← teleportDist.get id))) next =
    some (JsMap.addAll (fun id => id) (fun id => damping * mass * teleportDist.amount id)
      g.ids next) := by
  refine (List.foldlM_some (P := fun next => ∀ id ∈ g.ids, (JsMap.get next id).isSome)
    (fun next id hid hnext => ⟨?_, fun id' hid' => ?_⟩) hnext.listed).1
  · rw [get_eq_amount (hnext id hid), get_eq_amount (hteleport.listed id hid)]
    rfl
  · rw [JsMap.add, isSome_get_set, hnext id' hid', Bool.or_true]

def shareOf (damping : Rat) (rank : Ranks) (out : VertexId × List VertexId) : Rat :=
  damping * rank.amount out.1 / out.2.length

omit [Edge E] in
theorem distributeLoop (hdamping : 0 ≤ damping) (hrank : ValidRanks g rank) :
    ∀ (outs : List (VertexId × List VertexId)) {next : Ranks},
    (∀ out ∈ outs, out.1 ∈ g.ids ∧ out.2 ≠ [] ∧ ∀ dst ∈ out.2, dst ∈ g.ids) →
    ValidRanks g next → ∃ next', outs.foldlM (distribute damping rank) next = some next' ∧
      ValidRanks g next' ∧ next'.total g.ids.toFinset =
        next.total g.ids.toFinset + (outs.map fun out => damping * rank.amount out.1).sum
  | [], next, _, hnext => ⟨next, rfl, hnext, (add_zero _).symm⟩
  | out :: outs, next, houts, hnext => by
    obtain ⟨⟨hsrc, hne, hdsts⟩, hrest⟩ := List.forall_mem_cons.mp houts
    have hshare : 0 ≤ shareOf damping rank out :=
      div_nonneg (mul_nonneg hdamping (hrank.nonneg _)) (Nat.cast_nonneg _)
    have hone : distribute damping rank next out = some (JsMap.addAll (fun dst => dst)
        (fun _ => shareOf damping rank out) out.2 next) := by
      rw [distribute, get_eq_amount (hrank.listed _ hsrc)]
      rfl
    obtain ⟨next', hloop, hnext', htotal⟩ := distributeLoop hdamping hrank outs hrest
      (hnext.addAll (fun dst => dst) fun _ _ => hshare)
    refine ⟨next', ?_, hnext', ?_⟩
    · rw [List.foldlM_cons, hone]
      exact hloop
    · have hlen : (out.2.length : Rat) ≠ 0 :=
        Nat.cast_ne_zero.mpr fun h => hne (List.length_eq_zero_iff.mp h)
      have hpassed : (out.2.map fun _ => shareOf damping rank out).sum =
          damping * rank.amount out.1 := by
        rw [List.map_const', List.sum_replicate, nsmul_eq_mul]
        exact mul_div_cancel₀ _ hlen
      rw [htotal, total_addAll _ _ fun dst hdst => List.mem_toFinset.mpr (hdsts dst hdst),
        hpassed, List.map_cons, List.sum_cons, add_assoc]

theorem sum_outEdges (hedges : g.EdgesListed) (hrank : Distribution g rank) :
    ((outEdges g).entries.map fun out => damping * rank.amount out.1).sum =
      damping * (1 - danglingMass g rank) := by
  have hkeys : (outEdges g).keys.toFinset =
      g.ids.toFinset.filter fun id => ¬ (outDegree g).amount id = 0 := by
    ext id
    rw [List.mem_toFinset, mem_filter, List.mem_toFinset, mem_keys_outEdges]
    refine ⟨fun hout => ⟨?_, hout⟩, And.right⟩
    obtain ⟨out, hentry, rfl⟩ := List.mem_map.mp (mem_keys_outEdges.mpr hout)
    obtain ⟨-, ⟨e, he, hsrc⟩, -⟩ := mem_entries_outEdges hentry
    exact hsrc ▸ (hedges e he).1
  have hsplit := sum_filter_add_sum_filter_not g.ids.toFinset
    (fun id => (outDegree g).amount id = 0) rank.amount
  have hrest : ∑ id ∈ (outEdges g).keys.toFinset, rank.amount id = 1 - danglingMass g rank := by
    rw [hkeys, ← hrank.total, JsMap.total, ← hsplit, danglingMass, add_sub_cancel_left]
  have hnodup : (outEdges g).keys.Nodup := (outEdges g).nodup
  rw [← hrest, mul_sum, List.sum_toFinset _ hnodup, JsMap.keys, List.map_map]
  rfl

theorem Distribution.iterate (hids : g.ids.Nodup) (hedges : g.EdgesListed)
    (hpos : 0 < damping) (hlt : damping < 1) (hteleport : Distribution g teleportDist)
    (hrank : Distribution g rank) :
    ∃ next, iterate g damping teleportDist rank = some next ∧ Distribution g next := by
  -- the teleport term
  have hfirst : ValidRanks g (g.ids.foldl
      (fun next id => JsMap.set next id ((1 - damping) * teleportDist.amount id)) JsMap.empty) := by
    refine ⟨fun id hid => ?_, fun id => ?_⟩
    · rw [isSome_get_setAll (fun id => (1 - damping) * teleportDist.amount id),
        decide_eq_true hid, Bool.true_or]
    · rw [amount_setAll (fun id => (1 - damping) * teleportDist.amount id)]
      split
      · exact mul_nonneg (sub_nonneg.mpr hlt.le) (hteleport.nonneg id)
      · exact le_refl 0
  have hfirstTotal : JsMap.total (g.ids.foldl
      (fun next id => JsMap.set next id ((1 - damping) * teleportDist.amount id)) JsMap.empty)
      g.ids.toFinset = 1 - damping := by
    rw [JsMap.total, sum_congr rfl fun id hid => by
      rw [amount_setAll (fun id => (1 - damping) * teleportDist.amount id),
        if_pos (List.mem_toFinset.mp hid)], ← mul_sum]
    have htotal := hteleport.total
    rw [JsMap.total] at htotal
    rw [htotal, mul_one]
  generalize hstart : g.ids.foldl (fun next id =>
    JsMap.set next id ((1 - damping) * teleportDist.amount id)) JsMap.empty = first
    at hfirst hfirstTotal
  -- the dangling mass, also where there is none and the loop is left out
  have hmass : 0 ≤ danglingMass g rank := sum_nonneg fun id _ => hrank.nonneg id
  obtain ⟨second, hsecond, hsecondRanked, hsecondTotal⟩ : ∃ second,
      redistribute g damping teleportDist (danglingMass g rank) first = some second ∧
      ValidRanks g second ∧
        second.total g.ids.toFinset = 1 - damping + damping * danglingMass g rank := by
    by_cases hdangling : danglingMass g rank > 0
    · refine ⟨_, (if_pos hdangling).trans (redistributeLoop hteleport _ hfirst),
        hfirst.addAll _ fun id _ => ?_, ?_⟩
      · exact mul_nonneg (mul_nonneg hpos.le hmass) (hteleport.nonneg id)
      · have htotal := hteleport.total
        rw [JsMap.total, List.sum_toFinset _ hids] at htotal
        rw [total_addAll _ _ fun id hid => List.mem_toFinset.mpr hid, hfirstTotal,
          List.sum_map_mul_left, htotal, mul_one]
    · have hzero : danglingMass g rank = 0 := le_antisymm (not_lt.mp hdangling) hmass
      exact ⟨first, if_neg hdangling, hfirst, by rw [hfirstTotal, hzero, mul_zero, add_zero]⟩
  -- what is passed on along the edges
  obtain ⟨next, hloop, hnext, htotal⟩ := distributeLoop hpos.le hrank.toValidRanks
    (outEdges g).entries (fun out hout => by
      obtain ⟨hne, ⟨e, he, hsrc⟩, hdsts⟩ := mem_entries_outEdges hout
      refine ⟨hsrc ▸ (hedges e he).1, hne, fun dst hdst => ?_⟩
      obtain ⟨e', he', rfl⟩ := hdsts dst hdst
      exact (hedges e' he').2) hsecondRanked
  refine ⟨next, ?_, hnext, ?_⟩
  · unfold Data.iterate
    rw [teleportLoop hteleport, danglingLoop hids hrank, hstart]
    show (redistribute g damping teleportDist (danglingMass g rank) first >>= _) = _
    rw [hsecond]
    exact hloop
  · rw [htotal, hsecondTotal, sum_outEdges hedges hrank]
    ring

omit [Edge E] in
theorem movement_isSome {next : Ranks} (hrank : ValidRanks g rank) (hnext : ValidRanks g next) :
    ∃ delta, movement g rank next = some delta := by
  refine ⟨_, (List.foldlM_some (P := fun _ => True)
    (g := fun delta id => delta + |next.amount id - rank.amount id|)
    (fun delta id hid _ => ⟨?_, trivial⟩) trivial).1⟩
  rw [get_eq_amount (hnext.listed id hid), get_eq_amount (hrank.listed id hid)]
  rfl

omit [Edge E] in
theorem distribution_initial (hteleport : Distribution g teleportDist) :
    Distribution g (initialRanks g teleportDist) where
  listed := fun id hid => by
    rw [initialRanks, isSome_get_setAll, decide_eq_true hid, Bool.true_or]
  nonneg := fun id => by
    rw [initialRanks, amount_setAll]
    split
    · exact hteleport.nonneg id
    · exact le_refl 0
  total := by
    rw [← hteleport.total]
    refine sum_congr rfl fun id hid => ?_
    rw [initialRanks, amount_setAll, if_pos (List.mem_toFinset.mp hid)]

/-- The ranks after `k` iterations. -/
def ranksAfter (g : GraphFrame V E) (options : PageRankOptions) : Nat → Option Ranks
  | 0 => some (initialRanks g (buildTeleportDistribution g options.personalizedFrom))
  | k + 1 => ranksAfter g options k >>=
      iterate g options.dampingFactor (buildTeleportDistribution g options.personalizedFrom)

section Run

variable (options : PageRankOptions)

theorem distribution_ranksAfter (hids : g.ids.Nodup) (hne : g.vertices ≠ [])
    (hedges : g.EdgesListed) (hpos : 0 < options.dampingFactor)
    (hlt : options.dampingFactor < 1) :
    ∀ k, ∃ rank, ranksAfter g options k = some rank ∧ Distribution g rank
  | 0 => ⟨_, rfl, distribution_initial (distribution_teleport hids hne _)⟩
  | k + 1 => by
    obtain ⟨rank, hafter, hrank⟩ := distribution_ranksAfter hids hne hedges hpos hlt k
    obtain ⟨next, hiterate, hnext⟩ := Distribution.iterate hids hedges hpos hlt
      (distribution_teleport hids hne options.personalizedFrom) hrank
    refine ⟨next, ?_, hnext⟩
    rw [ranksAfter, hafter]
    exact hiterate

theorem iterations_eq (hids : g.ids.Nodup) (hne : g.vertices ≠ []) (hedges : g.EdgesListed)
    (hpos : 0 < options.dampingFactor) (hlt : options.dampingFactor < 1) :
    ∀ (left : Nat) {k : Nat} {rank : Ranks}, ranksAfter g options k = some rank →
      ∃ j ≤ k + left, iterations g options
        (buildTeleportDistribution g options.personalizedFrom) left rank = ranksAfter g options j
  | 0, k, _, hafter => ⟨k, le_refl k, hafter.symm⟩
  | left + 1, k, rank, hafter => by
    obtain ⟨rank', hafter', hrank⟩ := distribution_ranksAfter options hids hne hedges hpos hlt k
    obtain rfl := Option.some.inj (hafter.symm.trans hafter')
    obtain ⟨next, hafterNext, hnext⟩ :=
      distribution_ranksAfter options hids hne hedges hpos hlt (k + 1)
    have hiterate := hafterNext
    rw [ranksAfter, hafter] at hiterate
    obtain ⟨delta, hdelta⟩ := movement_isSome hrank.toValidRanks hnext.toValidRanks
    have hiteration : iterations g options
        (buildTeleportDistribution g options.personalizedFrom) (left + 1) rank =
        if delta < options.tolerance then some next else iterations g options
          (buildTeleportDistribution g options.personalizedFrom) left next := by
      rw [iterations]
      show (iterate g options.dampingFactor _ rank >>= _) = _
      rw [show iterate g options.dampingFactor _ rank = some next from hiterate]
      show (movement g rank next >>= _) = _
      rw [hdelta]
      rfl
    rw [hiteration]
    by_cases hdone : delta < options.tolerance
    · exact ⟨k + 1, by omega, (if_pos hdone).trans hafterNext.symm⟩
    · obtain ⟨j, hj, hloop⟩ := iterations_eq hids hne hedges hpos hlt left hafterNext
      exact ⟨j, by omega, (if_neg hdone).trans hloop⟩

omit [Edge E] in
theorem mapM_rank : ∀ {vertices : List V}, (∀ v ∈ vertices, (rank.get (Vertex.id v)).isSome) →
    (vertices.mapM fun v => do return (v, ← rank.get (Vertex.id v))) =
      some (vertices.map fun v => (v, rank.amount (Vertex.id v)))
  | [], _ => rfl
  | v :: vertices, hlisted => by
    obtain ⟨hv, hrest⟩ := List.forall_mem_cons.mp hlisted
    rw [List.mapM_cons, mapM_rank hrest, get_eq_amount hv]
    rfl

end Run

/-- After every number of iterations no rank is negative and the ranks sum to one; the result
    are the ranks after at most `maxIter` iterations. -/
theorem pageRank_total (g : GraphFrame V E) (options : PageRankOptions) (hids : g.ids.Nodup)
    (hedges : g.EdgesListed) (hpos : 0 < options.dampingFactor)
    (hlt : options.dampingFactor < 1) :
    (g.vertices ≠ [] → ∀ k, ∃ rank, ranksAfter g options k = some rank ∧
      (∀ v ∈ g.vertices, ∃ q, rank.get (Vertex.id v) = some q ∧ 0 ≤ q) ∧
      (g.vertices.map fun v => rank.amount (Vertex.id v)).sum = 1) ∧
    ∃ rows, pageRank g options = some rows ∧ rows.map Prod.fst = g.vertices ∧
      (∀ row ∈ rows, 0 ≤ row.2) ∧ (g.vertices ≠ [] → (rows.map Prod.snd).sum = 1 ∧
        ∃ k ≤ options.maxIter, ∃ rank, ranksAfter g options k = some rank ∧
          rows = g.vertices.map fun v => (v, rank.amount (Vertex.id v))) := by
  have hsum : ∀ {rank : Ranks}, Distribution g rank →
      (g.vertices.map fun v => rank.amount (Vertex.id v)).sum = 1 := fun {rank} hrank => by
    rw [← hrank.total, JsMap.total, List.sum_toFinset _ hids, GraphFrame.ids, List.map_map]
    rfl
  refine ⟨fun hne k => ?_, ?_⟩
  · obtain ⟨rank, hafter, hrank⟩ := distribution_ranksAfter options hids hne hedges hpos hlt k
    exact ⟨rank, hafter, fun v hv => ⟨_, get_eq_amount
      (hrank.listed _ (List.mem_map_of_mem hv)), hrank.nonneg _⟩, hsum hrank⟩
  · by_cases hempty : g.vertices.length = 0
    · have hnil := List.length_eq_zero_iff.mp hempty
      refine ⟨[], by rw [pageRank, if_pos hempty]; rfl, by rw [hnil]; rfl, by simp, ?_⟩
      exact fun hne => absurd hnil hne
    · have hne : g.vertices ≠ [] := fun h => hempty (List.length_eq_zero_iff.mpr h)
      obtain ⟨k, hk, hloop⟩ := iterations_eq options hids hne hedges hpos hlt
        options.maxIter (k := 0) rfl
      obtain ⟨rank, hafter, hrank⟩ :=
        distribution_ranksAfter options hids hne hedges hpos hlt k
      refine ⟨_, ?_, ?_, ?_, fun _ => ⟨?_, k, by omega, rank, hafter, rfl⟩⟩
      · rw [pageRank, if_neg hempty]
        show (iterations g options _ options.maxIter _ >>= _) = _
        rw [hloop, hafter]
        exact mapM_rank fun v hv => hrank.listed _ (List.mem_map_of_mem hv)
      · rw [List.map_map]
        exact List.map_id _
      · intro row hrow
        obtain ⟨v, -, rfl⟩ := List.mem_map.mp hrow
        exact hrank.nonneg _
      · rw [List.map_map]
        exact hsum hrank

end PageRank

/-- Parallel edges, a dangling vertex, and a seed. -/
theorem pageRank_total_seed : ∃ rows, pageRank (V := VertexId) (E := VertexId × VertexId)
    { vertices := [.num 1, .num 2, .num 3]
      edges := [(.num 1, .num 2), (.num 1, .num 2), (.num 2, .num 3)] }
    { personalizedFrom := some (.one (.num 3)) } = some rows ∧ (rows.map Prod.snd).sum = 1 := by
  obtain ⟨-, rows, hrows, -, -, hsum⟩ := pageRank_total (V := VertexId)
    (E := VertexId × VertexId)
    { vertices := [.num 1, .num 2, .num 3]
      edges := [(.num 1, .num 2), (.num 1, .num 2), (.num 2, .num 3)] }
    { personalizedFrom := some (.one (.num 3)) } (by decide)
    (by unfold GraphFrame.EdgesListed; decide) (by norm_num) (by norm_num)
  exact ⟨rows, hrows, (hsum (by decide)).1⟩

end Promin.Data
