import Mathlib.Algebra.GroupWithZero.Nat
import Mathlib.Algebra.BigOperators.Group.Finset.Basic
import Promin.Durable.WorkflowDag

/-!
# Sorting a definition

`topologicalSort` counts for each node the dependencies that are not sorted yet, which is
Kahn's algorithm along the edges from a dependency to its dependents (`inv_start`).
-/

namespace Promin.Durable

open List JsMap Relation Kahn

namespace TopologicalSort

variable {nodes : List DagNode}

def Known (nodes : List DagNode) : Prop := ∀ a b, DependsOn nodes a b → b ∈ nodes.map (·.name)

theorem unknownDependency_eq_none :
    unknownDependency nodes = none ↔ Known nodes := by
  simp only [unknownDependency, findSome?_eq_none_iff, Option.map_eq_none_iff,
    find?_eq_none, Known, DependsOn]
  constructor
  · intro h a b hdep
    obtain ⟨node, hnode, -, hb⟩ := hdep
    have hany := h node hnode b hb
    simpa using hany
  · intro h node hnode dep hdep
    have hmem := h node.name dep ⟨node, hnode, rfl, hdep⟩
    simpa using hmem

/-! ## Edges -/

theorem mem_dependentsOf {a b : String} : a ∈ dependentsOf nodes b ↔ DependsOn nodes a b := by
  simp only [dependentsOf, DependsOn, mem_flatMap, mem_map, mem_filter,
    decide_eq_true_eq]
  constructor
  · rintro ⟨node, hnode, dep, ⟨hdep, rfl⟩, rfl⟩
    exact ⟨node, hnode, rfl, hdep⟩
  · rintro ⟨node, hnode, rfl, hb⟩
    exact ⟨node, hnode, b, ⟨hb, rfl⟩, rfl⟩

theorem dependentsOf_closed (nodes : List DagNode) :
    ∀ m ∈ nodes.map (·.name), ∀ d ∈ dependentsOf nodes m, d ∈ nodes.map (·.name) := by
  intro m _ d hd
  obtain ⟨node, hnode, hname, -⟩ := mem_dependentsOf.mp hd
  exact mem_map.mpr ⟨node, hnode, hname⟩

theorem reaches_iff (a b : String) :
    TransGen (Edge (dependentsOf nodes)) a b ↔
      TransGen (DependsOn nodes) b a := by
  have hedge : Edge (dependentsOf nodes) = Function.swap (DependsOn nodes) := by
    funext a b
    exact propext mem_dependentsOf
  rw [hedge, transGen_swap]

/-! ## Counts -/

def inDegree (nodes : List DagNode) (name : String) : Int :=
  ((collect (fun node => some (node.name, (node.dependsOn.length : Int))) nodes).get
    name).getD 0

section

variable (hnames : (nodes.map (·.name)).Nodup)
include hnames

theorem get_inDegree (name : String) (n : Int) :
    (collect (fun node => some (node.name, (node.dependsOn.length : Int))) nodes).get name =
      some n ↔ ∃ node ∈ nodes, node.name = name ∧ (node.dependsOn.length : Int) = n := by
  rw [get_collect]
  · simp [filterMap_eq_map']
  · simpa [filterMap_eq_map', Function.comp_def] using hnames

theorem mem_keys_inDegree (name : String) :
    name ∈ (collect (fun node => some (node.name, (node.dependsOn.length : Int)))
      nodes).keys ↔ name ∈ nodes.map (·.name) := by
  rw [mem_keys_iff, Option.isSome_iff_exists]
  simp only [get_inDegree hnames, mem_map]
  constructor
  · rintro ⟨n, node, hnode, hname, -⟩
    exact ⟨node, hnode, hname⟩
  · rintro ⟨node, hnode, hname⟩
    exact ⟨_, node, hnode, hname, rfl⟩

theorem count_dependentsOf {node : DagNode} (hnode : node ∈ nodes) (name : String) :
    (dependentsOf nodes name).count node.name = node.dependsOn.count name := by
  have hown : ∀ other : DagNode,
      ((other.dependsOn.filter (· = name)).map fun _ => other.name).count node.name =
        if other.name = node.name then other.dependsOn.count name else 0 := by
    intro other
    rw [map_const', count_replicate, count_eq_length_filter]
    simp only [beq_iff_eq]
    congr 2
  have hcons : ∀ (other : DagNode) (rest : List DagNode), dependentsOf (other :: rest) name =
      ((other.dependsOn.filter (· = name)).map fun _ => other.name) ++ dependentsOf rest name :=
    fun _ _ => rfl
  induction nodes with
  | nil => cases hnode
  | cons other rest ih =>
    obtain ⟨hfresh, hrest⟩ := nodup_cons.mp hnames
    rw [hcons, count_append, hown]
    rcases mem_cons.mp hnode with rfl | hnode
    · have hnone : (dependentsOf rest name).count node.name = 0 := by
        rw [count_eq_zero]
        intro hmem
        obtain ⟨other, hother, hname, -⟩ := mem_dependentsOf.mp hmem
        exact hfresh (mem_map.mpr ⟨other, hother, hname⟩)
      rw [if_pos rfl, hnone, Nat.add_zero]
    · have hne : other.name ≠ node.name := fun heq =>
        hfresh (mem_map.mpr ⟨node, hnode, heq.symm⟩)
      rw [if_neg hne, ih hrest hnode, Nat.zero_add]

end

theorem sum_count_of_subset {names l : List String} (hnames : names.Nodup)
    (hl : ∀ x ∈ l, x ∈ names) : (names.map fun name => l.count name).sum = l.length := by
  have hcard := Multiset.sum_count_eq_card (s := names.toFinset) (m := (l : Multiset String))
    (by simpa using hl)
  rw [sum_toFinset _ hnames] at hcard
  simpa using hcard

theorem inDegree_eq_count (hnames : (nodes.map (·.name)).Nodup) (hknown : Known nodes)
    (name : String) :
    inDegree nodes name =
      (((nodes.map (·.name)).flatMap (dependentsOf nodes)).count name : Int) := by
  by_cases hname : name ∈ nodes.map (·.name)
  · obtain ⟨node, hnode, rfl⟩ := mem_map.mp hname
    have hdegree : inDegree nodes node.name = node.dependsOn.length := by
      rw [inDegree, (get_inDegree hnames node.name _).mpr ⟨node, hnode, rfl, rfl⟩]
      rfl
    have hdeps : ∀ dep ∈ node.dependsOn, dep ∈ nodes.map (·.name) := fun dep hdep =>
      hknown node.name dep ⟨node, hnode, rfl, hdep⟩
    have hcounts : (List.count node.name ∘ dependentsOf nodes) =
        fun name => node.dependsOn.count name := by
      funext name
      exact count_dependentsOf hnames hnode name
    rw [hdegree, count_flatMap, hcounts, sum_count_of_subset hnames hdeps]
  · have hdegree : inDegree nodes name = 0 := by
      rw [inDegree]
      cases hget : (collect
          (fun node => some (node.name, (node.dependsOn.length : Int))) nodes).get name with
      | none => rfl
      | some n =>
        obtain ⟨node, hnode, rfl, -⟩ := (get_inDegree hnames name n).mp hget
        exact absurd (mem_map_of_mem hnode) hname
    have hzero : ((nodes.map (·.name)).flatMap (dependentsOf nodes)).count name = 0 := by
      rw [count_eq_zero, mem_flatMap]
      rintro ⟨m, hm, hmem⟩
      exact hname (dependentsOf_closed nodes m hm name hmem)
    rw [hdegree, hzero]
    rfl

/-- The queue and the counters the walk begins with. -/
def start (nodes : List DagNode) : State String :=
  ⟨inDegree nodes, (collect (fun node => some (node.name, (node.dependsOn.length : Int)))
    nodes).keys.filter fun name => inDegree nodes name = 0⟩

theorem inv_start (hnames : (nodes.map (·.name)).Nodup) (hknown : Known nodes) :
    Inv (dependentsOf nodes) (nodes.map (·.name)) (start nodes) where
  nodup := hnames
  closed := dependentsOf_closed nodes
  count := inDegree_eq_count hnames hknown
  available_nodup := (nodup _).filter _
  available := fun name => by
    rw [start, mem_filter, mem_keys_inDegree hnames, decide_eq_true_eq]

theorem next?_choice : Choice (List.next? : List String → Option (String × List String)) where
  some := by
    intro l x rest h
    cases l with
    | nil => exact nomatch h
    | cons y ys =>
      cases h
      exact List.Perm.refl _
  none := by
    intro l h
    cases l with
    | nil => rfl
    | cons y ys => exact nomatch h

/-- The names in the order they are taken from the queue. -/
def sorted (nodes : List DagNode) : List String :=
  drain (dependentsOf nodes) List.next? nodes.length (start nodes)

theorem topologicalSort_eq_ok {names : List String} :
    topologicalSort nodes = .ok names ↔
      Known nodes ∧ (sorted nodes).length = nodes.length ∧ names = sorted nodes := by
  rw [← unknownDependency_eq_none, topologicalSort]
  cases unknownDependency nodes with
  | some e => simp
  | none =>
    show (if (sorted nodes).length ≠ nodes.length then _ else Except.ok (sorted nodes)) = _ ↔ _
    by_cases hlen : (sorted nodes).length = nodes.length
    · simp [hlen, eq_comm]
    · simp [hlen]

variable (hnames : (nodes.map (·.name)).Nodup)

include hnames

theorem sorted_spec (hknown : Known nodes) (hlen : (sorted nodes).length = nodes.length) :
    (sorted nodes).Perm (nodes.map (·.name)) ∧
      (∀ a b, DependsOn nodes a b → (sorted nodes).idxOf b < (sorted nodes).idxOf a) ∧
      ∀ n, ¬ TransGen (DependsOn nodes) n n := by
  obtain ⟨left, hperm, hpw, hself⟩ :=
    drain_sound next?_choice nodes.length _ _ (inv_start hnames hknown)
  change (sorted nodes ++ left).Perm _ at hperm
  have hnil : left = [] := by
    have hlength := hperm.length_eq
    rw [length_append, hlen, length_map] at hlength
    exact length_eq_zero_iff.mp (by omega)
  rw [hnil, append_nil] at hperm
  have hmem : ∀ a b, DependsOn nodes a b → a ∈ sorted nodes ∧ b ∈ sorted nodes := by
    intro a b hdep
    obtain ⟨node, hnode, rfl, -⟩ := id hdep
    exact ⟨hperm.mem_iff.mpr (mem_map_of_mem hnode), hperm.mem_iff.mpr (hknown _ _ hdep)⟩
  refine ⟨hperm, ?_, ?_⟩
  · intro a b hdep
    obtain ⟨ha, hb⟩ := hmem a b hdep
    exact edge_idxOf_lt hpw hb ha (hself b hb) (mem_dependentsOf.mpr hdep)
  · intro n hcycle
    obtain ⟨m, hdep, -⟩ := TransGen.head'_iff.mp hcycle
    have hclosed : ∀ m ∈ sorted nodes, ∀ d ∈ dependentsOf nodes m, d ∈ sorted nodes :=
      fun m _ d hd => (hmem d m (mem_dependentsOf.mp hd)).1
    have hup := reach_idxOf_lt hclosed hpw hself ((reaches_iff n n).mpr hcycle)
      (hmem n m hdep).1
    exact Nat.lt_irrefl _ hup.2

theorem length_sorted (hknown : Known nodes)
    (hacyclic : ∀ n, ¬ TransGen (DependsOn nodes) n n) :
    (sorted nodes).length = nodes.length := by
  have hkahn : Acyclic (dependentsOf nodes) := fun n hn =>
    hacyclic n ((reaches_iff n n).mp hn)
  obtain ⟨hperm, -⟩ := drain_spec hkahn next?_choice nodes.length _ _
    (inv_start hnames hknown) (by simp)
  simpa [sorted] using hperm.length_eq

theorem topologicalSort_throws_iff :
    (∃ message, topologicalSort nodes = .error message) ↔
      (∃ a b, DependsOn nodes a b ∧ b ∉ nodes.map (·.name)) ∨
        ∃ n, TransGen (DependsOn nodes) n n := by
  have hok : (∃ names, topologicalSort nodes = .ok names) ↔
      Known nodes ∧ ∀ n, ¬ TransGen (DependsOn nodes) n n := by
    simp only [topologicalSort_eq_ok]
    constructor
    · rintro ⟨_, hknown, hlen, -⟩
      exact ⟨hknown, (sorted_spec hnames hknown hlen).2.2⟩
    · rintro ⟨hknown, hacyclic⟩
      exact ⟨_, hknown, length_sorted hnames hknown hacyclic, rfl⟩
  have hor : (∃ message, topologicalSort nodes = .error message) ↔
      ¬ ∃ names, topologicalSort nodes = .ok names := by
    cases topologicalSort nodes <;> simp
  rw [hor, hok, not_and_or, not_forall]
  simp only [Known, not_forall, not_not, exists_prop]

end TopologicalSort

/-- **A definition is sorted, or has no order.** With unique names, `topologicalSort` throws
    exactly when a dependency names no node or the dependencies form a cycle, and what it
    returns otherwise lists every node once, after all its dependencies. -/
theorem topologicalSort_sorts {nodes : List DagNode} (hnames : (nodes.map (·.name)).Nodup) :
    ((∃ message, topologicalSort nodes = .error message) ↔
      (∃ a b, DependsOn nodes a b ∧ b ∉ nodes.map (·.name)) ∨
        ∃ n, TransGen (DependsOn nodes) n n) ∧
    ∀ names, topologicalSort nodes = .ok names →
      names.Perm (nodes.map (·.name)) ∧
        ∀ a b, DependsOn nodes a b → names.idxOf b < names.idxOf a := by
  refine ⟨TopologicalSort.topologicalSort_throws_iff hnames, ?_⟩
  intro names hsorted
  obtain ⟨hknown, hlen, rfl⟩ := TopologicalSort.topologicalSort_eq_ok.mp hsorted
  obtain ⟨hperm, horder, -⟩ := TopologicalSort.sorted_spec hnames hknown hlen
  exact ⟨hperm, horder⟩

/-- A definition with a step that names its dependency twice, and another component. -/
theorem topologicalSort_sorts_twoParts :
    let nodes : List DagNode := [⟨"b", ["a", "a"]⟩, ⟨"a", []⟩, ⟨"alone", []⟩]
    ((∃ message, topologicalSort nodes = .error message) ↔
      (∃ a b, DependsOn nodes a b ∧ b ∉ nodes.map (·.name)) ∨
        ∃ n, TransGen (DependsOn nodes) n n) ∧
    ∀ names, topologicalSort nodes = .ok names →
      names.Perm (nodes.map (·.name)) ∧
        ∀ a b, DependsOn nodes a b → names.idxOf b < names.idxOf a :=
  topologicalSort_sorts (by decide)

end Promin.Durable
