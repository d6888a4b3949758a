import Promin.ForStd.StableSort
import Promin.Durable.Compensation

/-!
# The order of a rollback

Over a DAG, `compensationOrder` lists every completed step with a `compensate`
function once, and after every completed step that depends on it.
-/

namespace Promin.Durable.Compensation

open Kahn

open Relation hiding map_map

open List JsMap Function StableSort

def Completed (state : WorkflowState) (stepName : String) : Prop :=
  ∃ row, state.steps.get stepName = some row ∧ row.status = .completed

/-- Both steps are to be compensated and have completed. -/
def CompletedEdge (steps : List CompensatableStep) (dagNodes : List DagNode)
    (state : WorkflowState) (a b : String) : Prop :=
  DependsOn dagNodes a b ∧ (a ∈ steps.map (·.name) ∧ Completed state a) ∧
    (b ∈ steps.map (·.name) ∧ Completed state b)

/-! ## Entries -/

section Entries

variable {steps : List CompensatableStep} {state : WorkflowState}

private def entryOf (state : WorkflowState) (p : CompensatableStep × Nat) :
    Option (String × Entry) :=
  match state.steps.get p.1.name with
  | none => none
  | some row =>
    if row.status ≠ .completed then none
    else some (p.1.name, ⟨p.1, p.2, row.completedAt⟩)

private theorem entryOf_eq_some {p : CompensatableStep × Nat} {name : String} {e : Entry}
    (h : entryOf state p = some (name, e)) :
    name = p.1.name ∧ e.step = p.1 ∧ Completed state name := by
  simp only [entryOf] at h
  split at h
  · cases h
  · rename_i row hrow
    split at h
    · cases h
    · rename_i hstatus
      simp only [Option.some.injEq, Prod.mk.injEq] at h
      obtain ⟨hname, he⟩ := h
      exact ⟨hname.symm, by rw [← he], row, hname ▸ hrow, by simpa using hstatus⟩

section

variable (hnames : (steps.map (·.name)).Nodup)
include hnames

private theorem entryOf_nodup :
    ((steps.zipIdx.filterMap (entryOf state)).map Prod.fst).Nodup := by
  have hsub : ((steps.zipIdx.filterMap (entryOf state)).map Prod.fst).Sublist
      (steps.zipIdx.map fun p => p.1.name) := by
    induction steps.zipIdx with
    | nil => simp
    | cons p ps ih =>
      cases hp : entryOf state p with
      | none => simpa [hp] using ih.cons _
      | some e =>
        have hname : e.1 = p.1.name := (entryOf_eq_some hp).1
        simpa [hp, hname] using ih
  have hzip : (steps.zipIdx.map fun p => p.1.name) = steps.map (·.name) := by
    have hcomp : (fun p : CompensatableStep × Nat => p.1.name) = (·.name) ∘ Prod.fst := rfl
    rw [hcomp, ← map_map, zipIdx_map_fst]
  exact hsub.nodup (hzip ▸ hnames)

theorem of_get_completedEntries {name : String} {e : Entry}
    (h : (completedEntries steps state).get name = some e) :
    e.step.name = name ∧ e.step ∈ steps ∧ Completed state name := by
  have hmem := (get_collect (f := entryOf state) (entryOf_nodup hnames) name e).mp h
  obtain ⟨p, hp, he⟩ := mem_filterMap.mp hmem
  obtain ⟨hname, hstep, hcompleted⟩ := entryOf_eq_some he
  have hmem := mem_map_of_mem (f := Prod.fst) hp
  rw [zipIdx_map_fst] at hmem
  exact ⟨by rw [hstep, hname], hstep ▸ hmem, hcompleted⟩

theorem get_completedEntries {step : CompensatableStep}
    (hstep : step ∈ steps) (hcompleted : Completed state step.name) :
    ∃ e, (completedEntries steps state).get step.name = some e ∧ e.step = step := by
  obtain ⟨row, hrow, hstatus⟩ := hcompleted
  rw [← zipIdx_map_fst 0 steps] at hstep
  obtain ⟨p, hp, hfst⟩ := mem_map.mp hstep
  have he : entryOf state p = some (step.name, ⟨step, p.2, row.completedAt⟩) := by
    simp [entryOf, hfst, hrow, hstatus]
  have hget := (get_collect (f := entryOf state) (entryOf_nodup hnames) step.name
    ⟨step, p.2, row.completedAt⟩).mpr (mem_filterMap.mpr ⟨p, hp, he⟩)
  exact ⟨_, hget, rfl⟩

theorem has_completedEntries (name : String) :
    (completedEntries steps state).has name = true ↔
      name ∈ steps.map (·.name) ∧ Completed state name := by
  constructor
  · intro h
    obtain ⟨e, he⟩ := Option.isSome_iff_exists.mp h
    obtain ⟨hname, hmem, hcompleted⟩ := of_get_completedEntries hnames he
    exact ⟨hname ▸ mem_map_of_mem hmem, hcompleted⟩
  · intro h
    obtain ⟨step, hstep, rfl⟩ := mem_map.mp h.1
    obtain ⟨e, he, -⟩ := get_completedEntries hnames hstep h.2
    simp [JsMap.has, he]

end

end Entries

/-! ## Dependencies -/

section Dependencies

variable (entries : JsMap String Entry) {dagNodes : List DagNode}

/-- The completed dependencies of a completed step. -/
def deps (entries : JsMap String Entry) (dagNodes : List DagNode) (name : String) :
    List String :=
  ((dependsOn entries dagNodes).get name).getD []

private theorem completedNodes (dagNodes : List DagNode) :
    dagNodes.filterMap (fun node => if !entries.has node.name then none
      else some (node.name, completedDeps entries node)) =
    (dagNodes.filter fun node => entries.has node.name).map
      fun node => (node.name, completedDeps entries node) := by
  induction dagNodes with
  | nil => rfl
  | cons node nodes ih =>
    rw [filterMap_cons, ih]
    cases h : entries.has node.name <;> simp [h]

section

variable (hnames : (dagNodes.map (·.name)).Nodup)
include hnames

theorem get_dependsOn (name : String) (ds : List String) :
    (dependsOn entries dagNodes).get name = some ds ↔
      ∃ node ∈ dagNodes, node.name = name ∧ entries.has name = true ∧
        completedDeps entries node = ds := by
  have hkeys : ((dagNodes.filter fun node => entries.has node.name).map (·.name)).Nodup :=
    (filter_sublist.map _).nodup hnames
  rw [dependsOn, get_collect]
  · rw [completedNodes, mem_map]
    constructor
    · intro h
      obtain ⟨node, hnode, heq⟩ := h
      obtain ⟨hmem, hhas⟩ := mem_filter.mp hnode
      cases heq
      exact ⟨node, hmem, rfl, hhas, rfl⟩
    · intro h
      obtain ⟨node, hmem, rfl, hhas, rfl⟩ := h
      exact ⟨node, mem_filter.mpr ⟨hmem, hhas⟩, rfl⟩
  · rw [completedNodes, map_map]
    exact hkeys

theorem mem_deps (a b : String) :
    b ∈ deps entries dagNodes a ↔
      ∃ node ∈ dagNodes, node.name = a ∧ entries.has a = true ∧
        b ∈ completedDeps entries node := by
  simp only [deps]
  constructor
  · intro h
    cases hget : (dependsOn entries dagNodes).get a with
    | none => simp [hget] at h
    | some ds =>
      obtain ⟨node, hmem, hname, hhas, rfl⟩ := (get_dependsOn entries hnames a ds).mp hget
      exact ⟨node, hmem, hname, hhas, by simpa [hget] using h⟩
  · intro h
    obtain ⟨node, hmem, hname, hhas, hb⟩ := h
    have hget := (get_dependsOn entries hnames a _).mpr ⟨node, hmem, hname, hhas, rfl⟩
    simpa [hget] using hb

theorem deps_of_node {node : DagNode}
    (hmem : node ∈ dagNodes) (hhas : entries.has node.name = true) :
    deps entries dagNodes node.name = completedDeps entries node := by
  have hget := (get_dependsOn entries hnames node.name _).mpr ⟨node, hmem, rfl, hhas, rfl⟩
  simp [deps, hget]

end

private theorem count_foldl (nodes : List DagNode) (count : String → Int) (n : String) :
    nodes.foldl (fun count node =>
      if !entries.has node.name then count
      else (completedDeps entries node).foldl
        (fun count dep => update count dep (count dep + 1)) count) count n =
      count n + (((nodes.filter fun node => entries.has node.name).flatMap
        (completedDeps entries)).count n : Int) := by
  have hinner : ∀ (ds : List String) (count : String → Int),
      ds.foldl (fun count dep => update count dep (count dep + 1)) count n =
        count n + (ds.count n : Int) := by
    intro ds
    induction ds with
    | nil => simp
    | cons d ds ih =>
      intro count
      rw [foldl_cons, ih]
      by_cases h : n = d
      · subst h
        simp only [update_self, count_cons_self]
        omega
      · rw [update_of_ne h, count_cons_of_ne (Ne.symm h)]
  induction nodes generalizing count with
  | nil => simp
  | cons node nodes ih =>
    rw [foldl_cons, ih]
    cases hhas : entries.has node.name with
    | false => simp [hhas]
    | true =>
      simp only [Bool.not_true, Bool.false_eq_true, ↓reduceIte, hhas, filter_cons_of_pos,
        flatMap_cons, count_append]
      rw [hinner]
      omega

theorem dependents_eq_count (hnames : (dagNodes.map (·.name)).Nodup) (n : String) :
    dependents entries dagNodes n =
      ((entries.keys.flatMap (deps entries dagNodes)).count n : Int) := by
  let nodes := dagNodes.filter fun node => entries.has node.name
  let isNode := fun name => decide (name ∈ nodes.map (·.name))
  have hnd : (nodes.map (·.name)).Nodup := (filter_sublist.map _).nodup hnames
  -- the keys are the names of the nodes, and keys without a node, which depend on nothing
  have hsame : (entries.keys.filter isNode).Perm (nodes.map (·.name)) := by
    have hkeys : (entries.keys.filter isNode).Nodup := entries.nodup.filter _
    rw [perm_ext_iff_of_nodup hkeys hnd]
    intro name
    rw [mem_filter, mem_keys_iff]
    constructor
    · exact fun h => by simpa [isNode] using h.2
    · intro h
      obtain ⟨node, hnode, rfl⟩ := mem_map.mp h
      exact ⟨(mem_filter.mp hnode).2, by simpa [isNode] using ⟨node, hnode, rfl⟩⟩
  have hrest :
      (entries.keys.filter fun name => !isNode name).flatMap (deps entries dagNodes) = [] := by
    rw [flatMap_eq_nil_iff]
    intro name hname
    obtain ⟨-, hnot⟩ := mem_filter.mp hname
    apply eq_nil_iff_forall_not_mem.mpr
    intro b hb
    obtain ⟨node, hmem, hnode, hhas, -⟩ := (mem_deps entries hnames name b).mp hb
    have hin : name ∈ nodes.map (·.name) :=
      mem_map.mpr ⟨node, mem_filter.mpr ⟨hmem, hnode ▸ hhas⟩, hnode⟩
    exact absurd hin (by simpa only [isNode, Bool.not_eq_true', decide_eq_false_iff_not] using hnot)
  have hperm : (entries.keys.flatMap (deps entries dagNodes)).Perm
      (nodes.flatMap (completedDeps entries)) := by
    have hsplit := (filter_append_perm isNode entries.keys).symm.flatMap_right
      (deps entries dagNodes)
    rw [flatMap_append, hrest, append_nil] at hsplit
    have hnodes : (nodes.map (·.name)).flatMap (deps entries dagNodes) =
        nodes.flatMap (completedDeps entries) := by
      rw [flatMap_map]
      apply flatMap_congr
      intro node hnode
      obtain ⟨hmem, hhas⟩ := mem_filter.mp hnode
      exact deps_of_node entries hnames hmem hhas
    exact hsplit.trans (hnodes ▸ hsame.flatMap_right _)
  rw [dependents, count_foldl, hperm.count_eq]
  simp [nodes]

end Dependencies

/-! ## The order -/

section Order

variable {steps : List CompensatableStep} {state : WorkflowState} {dagNodes : List DagNode}

theorem mem_completedDeps {entries : JsMap String Entry} {node : DagNode} {b : String} :
    b ∈ completedDeps entries node ↔
      b ∈ node.dependsOn ∧ b ≠ node.name ∧ entries.has b = true := by
  simp [completedDeps]

theorem edge_iff (hnames : (steps.map (·.name)).Nodup) (hdag : DagOk dagNodes) (a b : String) :
    Edge (deps (completedEntries steps state) dagNodes) a b ↔
      CompletedEdge steps dagNodes state a b := by
  rw [Edge, mem_deps _ hdag.names]
  constructor
  · intro h
    obtain ⟨node, hmem, rfl, hhas, hb⟩ := h
    obtain ⟨hdep, -, hhasb⟩ := mem_completedDeps.mp hb
    exact ⟨⟨node, hmem, rfl, hdep⟩, (has_completedEntries hnames _).mp hhas,
      (has_completedEntries hnames _).mp hhasb⟩
  · intro h
    obtain ⟨⟨node, hmem, rfl, hdep⟩, ha, hb⟩ := h
    have hne : b ≠ node.name := by
      intro heq
      subst heq
      exact hdag.acyclic _ (.single ⟨node, hmem, rfl, hdep⟩)
    exact ⟨node, hmem, rfl, (has_completedEntries hnames _).mpr ha,
      mem_completedDeps.mpr ⟨hdep, hne, (has_completedEntries hnames _).mpr hb⟩⟩

theorem acyclic_deps (hnames : (steps.map (·.name)).Nodup) (hdag : DagOk dagNodes) :
    Acyclic (deps (completedEntries steps state) dagNodes) := by
  intro n hn
  exact hdag.acyclic n (hn.lift id fun a b h => ((edge_iff hnames hdag a b).mp h).1)

theorem deps_closed (hdag : DagOk dagNodes) (entries : JsMap String Entry) :
    ∀ m ∈ entries.keys, ∀ d ∈ deps entries dagNodes m, d ∈ entries.keys := by
  intro m _ d hd
  obtain ⟨node, -, -, -, hdep⟩ := (mem_deps entries hdag.names m d).mp hd
  exact (mem_keys_iff entries d).mpr (mem_completedDeps.mp hdep).2.2

theorem unwound_spec (state : WorkflowState) (hnames : (steps.map (·.name)).Nodup)
    (hdag : DagOk dagNodes) :
    (unwound (completedEntries steps state) dagNodes).Perm (completedEntries steps state).keys ∧
      (unwound (completedEntries steps state) dagNodes).Pairwise fun a b =>
        a ∉ deps (completedEntries steps state) dagNodes b := by
  have hinv := Inv.start (completedEntries steps state).nodup
    (deps_closed hdag (completedEntries steps state))
    (dependents_eq_count (completedEntries steps state) hdag.names)
  have hlen : (completedEntries steps state).keys.length ≤ (completedEntries steps state).size := by
    simp [JsMap.keys, JsMap.size]
  exact drain_spec (acyclic_deps hnames hdag) (chooseBest_choice _) _ _ _ hinv hlen

section

variable (hnames : (steps.map (·.name)).Nodup)
include hnames

theorem names_compensationOrder :
    ((compensationOrder steps state dagNodes).map (·.name)).Sublist
      (unwound (completedEntries steps state) dagNodes) := by
  simp only [compensationOrder]
  have hall : ∀ names : List String,
      (((names.filterMap (completedEntries steps state).get).map (·.step)).map (·.name)).Sublist
        names := by
    intro names
    induction names with
    | nil => simp
    | cons name names ih =>
      cases hget : (completedEntries steps state).get name with
      | none => simpa [hget] using ih.cons _
      | some e =>
        have hname := (of_get_completedEntries hnames hget).1
        simpa [hget, hname] using ih
  exact (filter_sublist.map _).trans (hall _)

theorem nodup_compensationOrder (hdag : DagOk dagNodes) :
    ((compensationOrder steps state dagNodes).map (·.name)).Nodup := by
  obtain ⟨hperm, -⟩ := unwound_spec state hnames hdag
  exact (names_compensationOrder hnames).nodup
    (hperm.nodup_iff.mpr (completedEntries steps state).nodup)

theorem mem_compensationOrder (hdag : DagOk dagNodes) (step : CompensatableStep) :
    step ∈ compensationOrder steps state dagNodes ↔
      step ∈ steps ∧ step.compensates = true ∧ Completed state step.name := by
  obtain ⟨hperm, -⟩ := unwound_spec state hnames hdag
  simp only [compensationOrder, mem_filter, mem_map, mem_filterMap]
  constructor
  · intro h
    obtain ⟨⟨e, ⟨name, -, hget⟩, rfl⟩, hcomp⟩ := h
    obtain ⟨hname, hmem, hcompleted⟩ := of_get_completedEntries hnames hget
    exact ⟨hmem, hcomp, hname ▸ hcompleted⟩
  · intro h
    obtain ⟨hmem, hcomp, hcompleted⟩ := h
    obtain ⟨e, hget, he⟩ := get_completedEntries hnames hmem hcompleted
    have hin : step.name ∈ unwound (completedEntries steps state) dagNodes := by
      rw [hperm.mem_iff, mem_keys_iff, hget]
      rfl
    exact ⟨⟨e, ⟨step.name, hin, hget⟩, he⟩, hcomp⟩

theorem compensationOrder_dependents_first (hdag : DagOk dagNodes) :
    (compensationOrder steps state dagNodes).Pairwise fun a b =>
      ¬ TransGen (CompletedEdge steps dagNodes state) b.name a.name := by
  obtain ⟨hperm, hpw⟩ := unwound_spec state hnames hdag
  have hreach := pairwise_not_reach (acyclic_deps hnames hdag)
    (hperm.nodup_iff.mpr (completedEntries steps state).nodup)
    (fun m hm d hd => hperm.mem_iff.mpr
      (deps_closed hdag _ m (hperm.mem_iff.mp hm) d hd)) hpw
  have hnamed := hreach.sublist (names_compensationOrder hnames)
  rw [pairwise_map] at hnamed
  apply hnamed.imp
  intro a b hnot htrans
  exact hnot (htrans.lift id fun a b h => (edge_iff hnames hdag a b).mpr h)

end

theorem compensationOrder_congr {state' : WorkflowState}
    (h : ∀ name, (state'.steps.get name).map (fun row => (row.status, row.completedAt)) =
      (state.steps.get name).map fun row => (row.status, row.completedAt)) :
    compensationOrder steps state' dagNodes = compensationOrder steps state dagNodes := by
  have hentries : completedEntries steps state' = completedEntries steps state := by
    simp only [completedEntries]
    congr 1
    funext p
    obtain ⟨step, index⟩ := p
    have hname := h step.name
    cases hrow : state.steps.get step.name with
    | none =>
      rw [hrow, Option.map_none, Option.map_eq_none_iff] at hname
      simp [hname]
    | some row =>
      rw [hrow] at hname
      obtain ⟨row', hrow', heq⟩ := Option.map_eq_some_iff.mp hname
      simp only [Prod.mk.injEq] at heq
      simp [hrow', heq.1, heq.2]
  simp only [compensationOrder, hentries]

end Order

/-! ## The sort -/

section ByCompletion

variable {steps : List CompensatableStep} {state : WorkflowState} {dagNodes : List DagNode}

def isCompleted (state : WorkflowState) (step : CompensatableStep) : Bool :=
  (state.steps.get step.name).any fun row => row.status == .completed

/-- Completion time of a step; `none` is negative infinity. -/
def completionTime (state : WorkflowState) (step : CompensatableStep) : Option Int :=
  (state.steps.get step.name).bind (·.completedAt)

def comesFirst (state : WorkflowState) (a b : CompensatableStep × Nat) : Bool :=
  if completionTime state a.1 ≠ completionTime state b.1 then
    later (completionTime state a.1) (completionTime state b.1)
  else decide (a.2 > b.2)

/-- The completed steps, with or without a `compensate` function, and their positions. -/
def completedSteps (steps : List CompensatableStep) (state : WorkflowState) :
    List (CompensatableStep × Nat) :=
  steps.zipIdx.filter fun p => isCompleted state p.1

/-- The completed steps, the last to complete first. -/
def byCompletion (steps : List CompensatableStep) (state : WorkflowState) :
    List CompensatableStep :=
  (sort (fun a b => comesFirst state b a) (completedSteps steps state)).map Prod.fst

theorem isCompleted_iff {step : CompensatableStep} :
    isCompleted state step = true ↔ Completed state step.name := by
  simp [isCompleted, Completed, Option.any_eq_true]

theorem comesFirst_consistent (state : WorkflowState) :
    StableSort.Consistent (fun a b => comesFirst state b a) fun _ => True where
  asymm := by
    intro a b _ _ h
    simp only [comesFirst] at h ⊢
    generalize completionTime state a.1 = s at h ⊢
    generalize completionTime state b.1 = t at h ⊢
    cases s <;> cases t <;> simp_all [later] <;> grind
  between := by
    intro a b c _ _ _ h
    simp only [comesFirst] at h ⊢
    generalize completionTime state a.1 = s at h ⊢
    generalize completionTime state b.1 = t at h ⊢
    generalize completionTime state c.1 = u at h ⊢
    cases s <;> cases t <;> cases u <;> simp_all [later] <;> grind

theorem comesFirst_total {a b : CompensatableStep × Nat} (hne : a.2 ≠ b.2)
    (h : comesFirst state b a = false) : comesFirst state a b = true := by
  simp only [comesFirst] at h ⊢
  generalize completionTime state a.1 = s at h ⊢
  generalize completionTime state b.1 = t at h ⊢
  cases s <;> cases t <;> simp_all [later] <;> grind

theorem pairwise_comesFirst (steps : List CompensatableStep) (state : WorkflowState) :
    (sort (fun a b => comesFirst state b a) (completedSteps steps state)).Pairwise
      fun a b => comesFirst state a b = true ∧ comesFirst state b a = false := by
  have hsorted : StableSort.Sorted (fun a b => comesFirst state b a)
      (sort (fun a b => comesFirst state b a) (completedSteps steps state)) :=
    sorted_sort (comesFirst_consistent state) fun _ _ => trivial
  have hpositions : ((completedSteps steps state).map Prod.snd).Nodup := by
    have hall : (steps.zipIdx.map Prod.snd).Nodup := by
      rw [zipIdx_map_snd]
      exact nodup_range'
    exact (filter_sublist.map Prod.snd).nodup hall
  have hdistinct : (sort (fun a b => comesFirst state b a)
      (completedSteps steps state)).Pairwise fun a b => a.2 ≠ b.2 := by
    have hperm : (sort (fun a b => comesFirst state b a)
        (completedSteps steps state)).Perm (completedSteps steps state) :=
      sort_perm _
    exact pairwise_map.mp ((hperm.map Prod.snd).nodup_iff.mpr hpositions)
  apply (hsorted.and hdistinct).imp
  intro a b h
  exact ⟨comesFirst_total h.2 h.1, h.1⟩

theorem comesFirst_self (a : CompensatableStep × Nat) : comesFirst state a a = false := by
  simp [comesFirst]

section

variable (hnames : (steps.map (·.name)).Nodup)
include hnames

theorem get_completedEntries_of_mem
    {p : CompensatableStep × Nat} (hp : p ∈ completedSteps steps state) :
    (completedEntries steps state).get p.1.name =
      some ⟨p.1, p.2, completionTime state p.1⟩ := by
  obtain ⟨hmem, hcompleted⟩ := mem_filter.mp hp
  obtain ⟨row, hrow, hstatus⟩ := isCompleted_iff.mp hcompleted
  have he : entryOf state p = some (p.1.name, ⟨p.1, p.2, completionTime state p.1⟩) := by
    simp [entryOf, completionTime, hrow, hstatus]
  exact (get_collect (f := entryOf state) (entryOf_nodup hnames) p.1.name _).mpr
    (mem_filterMap.mpr ⟨p, hmem, he⟩)

theorem before_eq {p q : CompensatableStep × Nat}
    (hp : p ∈ completedSteps steps state) (hq : q ∈ completedSteps steps state) :
    before (completedEntries steps state) p.1.name q.1.name = comesFirst state p q := by
  simp only [before, get_completedEntries_of_mem hnames hp, get_completedEntries_of_mem hnames hq,
    comesFirst]

theorem names_completedSteps :
    ((completedSteps steps state).map fun p => p.1.name).Perm
      (completedEntries steps state).keys := by
  have hnd : ((completedSteps steps state).map fun p => p.1.name).Nodup := by
    have hall : (steps.zipIdx.map fun p => p.1.name).Nodup := by
      have hcomp : (fun p : CompensatableStep × Nat => p.1.name) = (·.name) ∘ Prod.fst := rfl
      rw [hcomp, ← map_map, zipIdx_map_fst]
      exact hnames
    exact (filter_sublist.map _).nodup hall
  have hkeys : (completedEntries steps state).keys.Nodup := (completedEntries steps state).nodup
  rw [perm_ext_iff_of_nodup hnd hkeys]
  intro name
  rw [mem_keys_iff]
  constructor
  · intro h
    obtain ⟨p, hp, rfl⟩ := mem_map.mp h
    rw [get_completedEntries_of_mem hnames hp]
    rfl
  · intro h
    obtain ⟨e, he⟩ := Option.isSome_iff_exists.mp h
    obtain ⟨hname, hstep, hcompleted⟩ := of_get_completedEntries hnames he
    rw [← zipIdx_map_fst 0 steps] at hstep
    obtain ⟨p, hp, hfst⟩ := mem_map.mp hstep
    have hmem : p ∈ completedSteps steps state :=
      mem_filter.mpr ⟨hp, isCompleted_iff.mpr (by rw [hfst, hname]; exact hcompleted)⟩
    exact mem_map.mpr ⟨p, hmem, by rw [hfst, hname]⟩

theorem unwound_eq (hdag : DagOk dagNodes)
    (hrespects : (byCompletion steps state).Pairwise fun a b =>
      ¬ DependsOn dagNodes b.name a.name) :
    unwound (completedEntries steps state) dagNodes =
      (byCompletion steps state).map (·.name) := by
  have hperm : (sort (fun a b => comesFirst state b a)
      (completedSteps steps state)).Perm (completedSteps steps state) := sort_perm _
  have hpairs := pairwise_comesFirst steps state
  rw [byCompletion, pairwise_map] at hrespects
  rw [byCompletion, map_map]
  generalize sort (fun a b => comesFirst state b a) (completedSteps steps state) =
    order at hperm hpairs hrespects
  have hkeys : (order.map fun p => p.1.name).Perm (completedEntries steps state).keys :=
    (hperm.map _).trans (names_completedSteps hnames)
  have hstart := Inv.start (completedEntries steps state).nodup
    (deps_closed hdag (completedEntries steps state))
    (dependents_eq_count (completedEntries steps state) hdag.names)
  have hedge : ∀ a b, a ∈ deps (completedEntries steps state) dagNodes b →
      DependsOn dagNodes b a := fun a b h => ((edge_iff hnames hdag b a).mp h).1
  apply drain_eq _ _ _ (hstart.perm hkeys.symm)
  · rw [pairwise_map]
    apply hpairs.imp_of_mem
    intro p q hp hq h
    have hp' := hperm.mem_iff.mp hp
    have hq' := hperm.mem_iff.mp hq
    rw [before_eq hnames hp' hq', before_eq hnames hq' hp']
    exact h
  · intro name hname
    obtain ⟨p, hp, rfl⟩ := mem_map.mp hname
    have hp' := hperm.mem_iff.mp hp
    show before _ p.1.name p.1.name = false
    rw [before_eq hnames hp' hp', comesFirst_self]
  · rw [pairwise_map]
    exact hrespects.imp fun h hmem => h (hedge _ _ hmem)
  · intro name _ hmem
    exact hdag.acyclic name (.single (hedge _ _ hmem))
  · rw [hkeys.length_eq]
    simp [JsMap.keys, JsMap.size]

theorem compensationOrder_eq_byCompletion
    (hdag : DagOk dagNodes) (hrespects : (byCompletion steps state).Pairwise fun a b =>
      ¬ DependsOn dagNodes b.name a.name) :
    compensationOrder steps state dagNodes =
      (byCompletion steps state).filter (·.compensates) := by
  have hsteps : (((byCompletion steps state).map (·.name)).filterMap
      (completedEntries steps state).get).map (·.step) = byCompletion steps state := by
    have hmem : ∀ step ∈ byCompletion steps state,
        ((completedEntries steps state).get step.name).map (·.step) = some step := by
      intro step hstep
      obtain ⟨p, hp, rfl⟩ := mem_map.mp hstep
      rw [get_completedEntries_of_mem hnames (mem_sort.mp hp)]
      rfl
    rw [filterMap_map, map_filterMap]
    conv_rhs => rw [← filterMap_some (l := byCompletion steps state)]
    exact filterMap_congr hmem
  simp only [compensationOrder, unwound_eq hnames hdag hrespects, hsteps]

theorem compensationOrder_perm (hdag : DagOk dagNodes) :
    (compensationOrder steps state dagNodes).Perm
      (steps.filter fun step => step.compensates && isCompleted state step) := by
  have hleft : (compensationOrder steps state dagNodes).Nodup :=
    (nodup_compensationOrder hnames hdag).of_map _
  rw [perm_ext_iff_of_nodup hleft ((hnames.of_map _).filter _)]
  intro step
  rw [mem_compensationOrder hnames hdag, mem_filter, Bool.and_eq_true, isCompleted_iff]

end

/-- **The order of a rollback.** Over every DAG and for arbitrary completion times, the order
    lists each completed step with a `compensate` function once, no step before one that
    depends on it directly or through other completed steps, and it is the sort by completion
    time where the sort of all completed steps takes dependents first. -/
theorem compensationOrder_repairs_sort (hnames : (steps.map (·.name)).Nodup)
    (hdag : DagOk dagNodes) :
    (compensationOrder steps state dagNodes).Perm
      (steps.filter fun step => step.compensates && isCompleted state step) ∧
    ((compensationOrder steps state dagNodes).Pairwise fun a b =>
      ¬ TransGen (CompletedEdge steps dagNodes state) b.name a.name) ∧
    (((byCompletion steps state).Pairwise fun a b => ¬ DependsOn dagNodes b.name a.name) →
      compensationOrder steps state dagNodes =
        (byCompletion steps state).filter (·.compensates)) :=
  ⟨compensationOrder_perm hnames hdag, compensationOrder_dependents_first hnames hdag,
    compensationOrder_eq_byCompletion hnames hdag⟩

end ByCompletion

/-! ## Times that contradict the DAG -/

def completedRun (times : List (String × Int)) : WorkflowState where
  workflowId := "w"
  workflowName := "n"
  workflowType := none
  parentWorkflowId := none
  ns := none
  status := .compensating
  version := none
  run := 1
  input := .null
  runSource := none
  runSourceId := none
  metadata := none
  steps := JsMap.collect (fun (name, at_) => some (name, {
    stepName := name, run := 1, status := .completed, dependsOn := [], stepType := .single
    completedAt := some at_, attempt := 1 })) times
  createdAt := 0
  updatedAt := 0

/-- `"b"` depends on `"a"` and has no `compensate` function; `"c"` stands alone. -/
def forkSteps : List CompensatableStep :=
  [{ name := "a" }, { name := "b", compensates := false }, { name := "c" }]

def forkNodes : List DagNode := [⟨"a", []⟩, ⟨"b", ["a"]⟩, ⟨"c", []⟩]

theorem forkNodes_dagOk : DagOk forkNodes := by
  constructor
  · decide
  · apply acyclic_of_rank fun name => if name = "b" then 1 else 0
    intro a b h
    obtain ⟨node, hnode, rfl, hb⟩ := h
    simp only [forkNodes, mem_cons, not_mem_nil, or_false] at hnode
    rcases hnode with rfl | rfl | rfl
    · simp at hb
    · simp only [mem_singleton] at hb
      subst hb
      decide
    · simp at hb

theorem compensationOrder_repairs_sort_fork :
    let state := completedRun [("a", 1), ("b", 2), ("c", 2)]
    (compensationOrder forkSteps state forkNodes).Perm
      (forkSteps.filter fun step => step.compensates && isCompleted state step) ∧
    ((compensationOrder forkSteps state forkNodes).Pairwise fun a b =>
      ¬ TransGen (CompletedEdge forkSteps forkNodes state) b.name a.name) ∧
    (((byCompletion forkSteps state).Pairwise fun a b => ¬ DependsOn forkNodes b.name a.name) →
      compensationOrder forkSteps state forkNodes =
        (byCompletion forkSteps state).filter (·.compensates)) :=
  compensationOrder_repairs_sort (by decide) forkNodes_dagOk

/-- `"c"` depends on `"a"` through `"b"`. -/
def chainNodes : List DagNode := [⟨"a", []⟩, ⟨"b", ["a"]⟩, ⟨"c", ["b"]⟩]

/-- Two runs with skewed times.  In the first `"a"` comes before `"c"`, which depends on it
    through a step that is not completed.  In the second no step with a `compensate` function
    depends on another, and yet the order is not their sort: `"a"` waits for `"b"`. -/
theorem skewed_times_counterexample :
    ((compensationOrder [{ name := "a" }, { name := "b" }, { name := "c" }]
        (completedRun [("a", 5), ("c", 1)]) chainNodes).map (·.name) = ["a", "c"] ∧
      TransGen (DependsOn chainNodes) "c" "a") ∧
    (compensationOrder forkSteps (completedRun [("a", 5), ("b", 1), ("c", 3)])
        forkNodes).map (·.name) = ["c", "a"] ∧
      ((byCompletion forkSteps (completedRun [("a", 5), ("b", 1), ("c", 3)])).filter
        (·.compensates)).map (·.name) = ["a", "c"] ∧
      ¬ TransGen (DependsOn forkNodes) "c" "a" := by
  refine ⟨⟨rfl, ?_⟩, rfl, rfl, ?_⟩
  · have hcb : DependsOn chainNodes "c" "b" := ⟨⟨"c", ["b"]⟩, by simp [chainNodes], rfl, by simp⟩
    have hba : DependsOn chainNodes "b" "a" := ⟨⟨"b", ["a"]⟩, by simp [chainNodes], rfl, by simp⟩
    exact .tail (.single hcb) hba
  · intro hreach
    obtain ⟨b, ⟨node, hnode, hname, hb⟩, -⟩ := TransGen.head'_iff.mp hreach
    simp only [forkNodes, mem_cons, not_mem_nil, or_false] at hnode
    rcases hnode with rfl | rfl | rfl
    · simp at hb
    · simp at hname
    · simp at hb

end Promin.Durable.Compensation
