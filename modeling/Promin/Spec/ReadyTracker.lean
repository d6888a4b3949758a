import Promin.Durable.WorkflowDag

/-!
# The ready tracker computes the ready set

`Follows` is the invariant of the tracker: the counts, the done marks and the ready
positions are those of a set of completed names.  `ready_eq_computeReadySet` reads the
answer off it.
-/

namespace Promin.Durable

open List

namespace ReadyTracker

variable {nodes : List DagNode}

/-! ## Positions -/

theorem indexOf_start (hnames : (nodes.map (·.name)).Nodup) (name : String) (i : Nat) :
    (start nodes).indexOf.get name = some i ↔ ∃ node, nodes[i]? = some node ∧ node.name = name := by
  have hkeys : ((nodes.zipIdx.filterMap fun p => some (p.1.name, p.2)).map Prod.fst).Nodup := by
    have hsame : (nodes.zipIdx.filterMap fun p => some (p.1.name, p.2)).map Prod.fst =
        nodes.map (·.name) := by
      rw [filterMap_eq_map', map_map]
      have hcomp : (Prod.fst ∘ fun p : DagNode × Nat => (p.1.name, p.2)) =
        (·.name) ∘ Prod.fst := rfl
      rw [hcomp, ← map_map, zipIdx_map_fst]
    rw [hsame]
    exact hnames
  show (JsMap.collect (fun p => some (p.1.name, p.2)) nodes.zipIdx).get name = some i ↔ _
  rw [JsMap.get_collect hkeys]
  simp only [filterMap_eq_map', mem_map, Prod.mk.injEq, Prod.exists]
  constructor
  · rintro ⟨node, j, hmem, hname, rfl⟩
    exact ⟨node, mem_zipIdx_iff_getElem?.mp hmem, hname⟩
  · rintro ⟨node, hget, hname⟩
    exact ⟨node, i, mem_zipIdx_iff_getElem?.mpr hget, hname, rfl⟩

private theorem count_flatMap_zipIdx {α β : Type} (f : α → List β) (l : List α) (k i : Nat) :
    ((l.zipIdx k).flatMap fun (node, j) => (f node).map fun _ => j).count (k + i) =
      (l[i]?.map fun node => (f node).length).getD 0 := by
  induction l generalizing k i with
  | nil => simp
  | cons a l ih =>
    rw [zipIdx_cons, flatMap_cons, count_append]
    simp only [map_const', count_replicate]
    cases i with
    | zero =>
      have hlater :
          ((l.zipIdx (k + 1)).flatMap fun (node, j) => (f node).map fun _ => j).count k = 0 := by
        rw [count_eq_zero, mem_flatMap]
        rintro ⟨⟨node, j⟩, hmem, hj⟩
        have hle := le_snd_of_mem_zipIdx hmem
        simp only [mem_map] at hj
        obtain ⟨_, -, rfl⟩ := hj
        simp only at hle
        omega
      simp only [map_const'] at hlater
      simp [hlater]
    | succ i =>
      have h := ih (k + 1) i
      have hadd : k + 1 + i = k + (i + 1) := by omega
      rw [hadd] at h
      simp only [map_const'] at h
      simp [h]

theorem count_dependents (hnames : (nodes.map (·.name)).Nodup) {d : Nat} {target : DagNode}
    (hd : nodes[d]? = some target) (i : Nat) :
    ((start nodes).dependents.getD d []).count i =
      (nodes[i]?.map fun node => node.dependsOn.count target.name).getD 0 := by
  have hlt : d < nodes.length := (List.getElem?_eq_some_iff.mp hd).1
  have hget : (start nodes).dependents.getD d [] =
      dependentsAt nodes (start nodes).indexOf d := by
    show ((List.range nodes.length).map (dependentsAt nodes (start nodes).indexOf)).getD d [] = _
    rw [getD_eq_getElem?_getD, List.getElem?_map, List.getElem?_range hlt]
    rfl
  have hfilter : ∀ node : DagNode,
      (node.dependsOn.filter fun dep => (start nodes).indexOf.get dep = some d).length =
        node.dependsOn.count target.name := by
    intro node
    rw [List.count, countP_eq_length_filter]
    congr 1
    apply filter_congr
    intro dep _
    have hiff := indexOf_start hnames dep d
    simp only [hd, Option.some.injEq, exists_eq_left'] at hiff
    by_cases heq : dep = target.name
    · have hsome := hiff.mpr heq.symm
      rw [heq] at hsome
      simp [heq, hsome]
    · have hne : ¬ (start nodes).indexOf.get dep = some d := fun h => heq (hiff.mp h).symm
      simp [heq, hne]
  rw [hget, dependentsAt]
  have hcount := count_flatMap_zipIdx
    (fun node : DagNode => node.dependsOn.filter fun dep => (start nodes).indexOf.get dep = some d)
    nodes 0 i
  rw [Nat.zero_add] at hcount
  rw [hcount]
  cases nodes[i]? with
  | none => rfl
  | some node => simp [hfilter]

/-! ## Releasing -/

/-- The ready positions are those of the nodes with a count of zero that are not done. -/
structure ReadyIff (t : ReadyTracker) : Prop where
  nodup : t.readyNow.Nodup
  mem : ∀ i, i ∈ t.readyNow ↔
    i < t.pendingDeps.length ∧ t.done.getD i false = false ∧ t.pendingDeps.getD i 0 = 0

variable {t : ReadyTracker}

theorem ReadyIff.release (h : ReadyIff t) {d : Nat}
    (hd : d < t.pendingDeps.length) (hpos : 0 < t.pendingDeps.getD d 0) :
    ReadyIff (t.release d) := by
  have hnot : d ∉ t.readyNow := by
    intro hmem
    have hzero := ((h.mem d).mp hmem).2.2
    omega
  have hpending : ∀ i, (t.release d).pendingDeps.getD i 0 =
      if i = d then t.pendingDeps.getD d 0 - 1 else t.pendingDeps.getD i 0 := by
    intro i
    show (t.pendingDeps.set d _).getD i 0 = _
    by_cases hi : i = d
    · subst hi
      simp [getD_eq_getElem?_getD, hd]
    · simp [getD_eq_getElem?_getD, List.getElem?_set_ne (Ne.symm hi), hi]
  have hlen : (t.release d).pendingDeps.length = t.pendingDeps.length := length_set
  constructor
  · show (if _ then _ else _ : List Nat).Nodup
    split
    · exact h.nodup.insert
    · exact h.nodup
  · intro i
    rw [hlen, hpending]
    show i ∈ (if _ then _ else _ : List Nat) ↔ _ ∧ t.done.getD i false = false ∧ _
    split
    · rename_i hlast
      rw [mem_insert_iff, h.mem]
      by_cases hi : i = d
      · rw [if_pos hi]
        subst hi
        exact iff_of_true (.inl rfl) ⟨hd, hlast.2, hlast.1⟩
      · simp [hi]
    · rename_i hlast
      rw [h.mem]
      by_cases hi : i = d
      · subst hi
        simp only [↓reduceIte, hd, true_and]
        constructor
        · exact fun hz => by omega
        · exact fun hz => absurd ⟨hz.2, hz.1⟩ hlast
      · simp [hi]

theorem ReadyIff.foldl_release (ds : List Nat) (h : ReadyIff t)
    (hbound : ∀ i ∈ ds, i < t.pendingDeps.length)
    (hle : ∀ i, (ds.count i : Int) ≤ t.pendingDeps.getD i 0) :
    ReadyIff (ds.foldl ReadyTracker.release t) ∧
      (ds.foldl ReadyTracker.release t).pendingDeps.length = t.pendingDeps.length ∧
      ∀ i, (ds.foldl ReadyTracker.release t).pendingDeps.getD i 0 =
        t.pendingDeps.getD i 0 - ds.count i := by
  induction ds generalizing t with
  | nil => exact ⟨h, rfl, fun i => by simp⟩
  | cons d ds ih =>
    have hd := hbound d mem_cons_self
    have hlen : (t.release d).pendingDeps.length = t.pendingDeps.length := length_set
    have hstep : ∀ i, (t.release d).pendingDeps.getD i 0 =
        t.pendingDeps.getD i 0 - if i = d then 1 else 0 := by
      intro i
      show (t.pendingDeps.set d _).getD i 0 = _
      by_cases hi : i = d
      · subst hi
        simp [getD_eq_getElem?_getD, hd]
      · simp [getD_eq_getElem?_getD, List.getElem?_set_ne (Ne.symm hi), hi]
    have hcons : ∀ i, (((d :: ds).count i : Nat) : Int) =
        ds.count i + if i = d then 1 else 0 := by
      intro i
      by_cases hi : i = d
      · simp [hi]
      · simp [hi, count_cons_of_ne (Ne.symm hi)]
    have hpos : 0 < t.pendingDeps.getD d 0 := by
      have := hle d
      rw [hcons, if_pos rfl] at this
      omega
    have hle' : ∀ i, (ds.count i : Int) ≤ (t.release d).pendingDeps.getD i 0 := by
      intro i
      have := hle i
      rw [hcons] at this
      rw [hstep]
      omega
    have hbound' : ∀ i ∈ ds, i < (t.release d).pendingDeps.length := by
      intro i hi
      rw [hlen]
      exact hbound i (mem_cons_of_mem _ hi)
    obtain ⟨hready, hlen', hcount⟩ := ih (h.release hd hpos) hbound' hle'
    refine ⟨hready, hlen'.trans hlen, fun i => ?_⟩
    rw [foldl_cons, hcount, hstep, hcons]
    omega

theorem foldl_release_static (ds : List Nat) (t : ReadyTracker) :
    (ds.foldl ReadyTracker.release t).nodes = t.nodes ∧
      (ds.foldl ReadyTracker.release t).indexOf = t.indexOf ∧
      (ds.foldl ReadyTracker.release t).dependents = t.dependents ∧
      (ds.foldl ReadyTracker.release t).done = t.done ∧
      (ds.foldl ReadyTracker.release t).completedCount = t.completedCount := by
  induction ds generalizing t with
  | nil => exact ⟨rfl, rfl, rfl, rfl, rfl⟩
  | cons d ds ih => exact ih (t.release d)

structure Follows (nodes : List DagNode) (completed : String → Bool) (t : ReadyTracker) : Prop where
  same : t.nodes = nodes
  indexOf : t.indexOf = (start nodes).indexOf
  dependents : t.dependents = (start nodes).dependents
  size : t.pendingDeps.length = nodes.length
  done : ∀ i, t.done.getD i false = (nodes[i]?.map fun node => completed node.name).getD false
  doneSize : t.done.length = nodes.length
  pending : ∀ i, t.pendingDeps.getD i 0 =
    (nodes[i]?.map fun node => (node.dependsOn.countP fun dep => !completed dep : Int)).getD 0
  ready : ReadyIff t
  count : t.completedCount = nodes.countP fun node => completed node.name

theorem follows_start (nodes : List DagNode) : Follows nodes (fun _ => false) (start nodes) where
  same := rfl
  indexOf := rfl
  dependents := rfl
  size := by simp [start]
  done := fun i => by
    show (nodes.map fun _ => false).getD i false = _
    rw [getD_eq_getElem?_getD, List.getElem?_map]
  doneSize := by simp [start]
  pending := fun i => by
    show (nodes.map fun node => (node.dependsOn.length : Int)).getD i 0 = _
    rw [getD_eq_getElem?_getD, List.getElem?_map]
    cases nodes[i]? with
    | none => rfl
    | some node => simp
  ready := by
    constructor
    · exact nodup_range.filter _
    · intro i
      have hdone : (start nodes).done.getD i false = false := by
        show (nodes.map fun _ => false).getD i false = false
        rw [getD_eq_getElem?_getD, List.getElem?_map]
        cases nodes[i]? <;> rfl
      have hlen : (start nodes).pendingDeps.length = nodes.length := by simp [start]
      have hmem : i ∈ (start nodes).readyNow ↔
          i < nodes.length ∧ (start nodes).pendingDeps.getD i 0 = 0 := by
        show i ∈ (List.range nodes.length).filter _ ↔ _
        rw [mem_filter, mem_range, decide_eq_true_eq]
        rfl
      rw [hmem, hlen, hdone]
      simp
  count := by simp [start]

section

variable (hnames : (nodes.map (·.name)).Nodup)
include hnames

theorem Follows.markCompleted {completed : String → Bool}
    (h : Follows nodes completed t) {name : String} (hname : name ∈ nodes.map (·.name)) :
    Follows nodes (fun n => completed n || n = name) (t.markCompleted name) := by
  obtain ⟨node, hmem, rfl⟩ := mem_map.mp hname
  obtain ⟨d, hd⟩ := mem_iff_getElem?.mp hmem
  have hindex : t.indexOf.get node.name = some d := by
    rw [h.indexOf]
    exact (indexOf_start hnames node.name d).mpr ⟨node, hd, rfl⟩
  have hdone : t.done.getD d false = completed node.name := by
    rw [h.done, hd]
    rfl
  have hlt : d < nodes.length := (List.getElem?_eq_some_iff.mp hd).1
  unfold ReadyTracker.markCompleted
  simp only [hindex, hdone]
  cases hcomp : completed node.name with
  | true =>
    have hsame : (fun n => completed n || decide (n = node.name)) = completed := by
      funext n
      by_cases hn : n = node.name
      · simp [hn, hcomp]
      · simp [hn]
    simpa [hsame] using h
  | false =>
    -- the position of another node has another name
    have hother : ∀ i other, nodes[i]? = some other → (other.name = node.name ↔ i = d) := by
      intro i other hi
      constructor
      · intro heq
        have hi' := (indexOf_start hnames node.name i).mpr ⟨other, hi, heq⟩
        have hd' := (indexOf_start hnames node.name d).mpr ⟨node, hd, rfl⟩
        rw [hi'] at hd'
        simpa using hd'
      · rintro rfl
        rw [hd] at hi
        rw [Option.some.inj hi]
    let t₀ : ReadyTracker := { t with
      done := t.done.set d true
      completedCount := t.completedCount + 1
      readyNow := t.readyNow.erase d }
    have hdone₀ : ∀ i, t₀.done.getD i false = if i = d then true else t.done.getD i false := by
      intro i
      have hdlt : d < t.done.length := by rw [h.doneSize]; exact hlt
      show (t.done.set d true).getD i false = _
      by_cases hi : i = d
      · subst hi
        simp [getD_eq_getElem?_getD, hdlt]
      · simp [getD_eq_getElem?_getD, List.getElem?_set_ne (Ne.symm hi), hi]
    have hready₀ : ReadyIff t₀ := by
      constructor
      · exact h.ready.nodup.erase d
      · intro i
        show i ∈ t.readyNow.erase d ↔ i < t.pendingDeps.length ∧ _ ∧ t.pendingDeps.getD i 0 = 0
        rw [h.ready.nodup.mem_erase_iff, h.ready.mem, hdone₀]
        by_cases hi : i = d <;> simp [hi]
    have hcount : ∀ i, (t.dependents.getD d []).count i =
        (nodes[i]?.map fun other => other.dependsOn.count node.name).getD 0 := by
      intro i
      rw [h.dependents]
      exact count_dependents hnames hd i
    have hbound : ∀ i ∈ t.dependents.getD d [], i < t₀.pendingDeps.length := by
      intro i hi
      have hpos := count_pos_iff.mpr hi
      rw [hcount] at hpos
      show i < t.pendingDeps.length
      rw [h.size]
      by_contra hge
      rw [List.getElem?_eq_none (by omega)] at hpos
      simp at hpos
    -- the dependencies on this name are among the unfinished ones
    have hsplit : ∀ deps : List String, deps.countP (fun dep => !completed dep) =
        deps.countP (fun dep => !(completed dep || dep = node.name)) + deps.count node.name := by
      intro deps
      induction deps with
      | nil => rfl
      | cons dep deps ih =>
        simp only [countP_cons, count_cons, ih]
        by_cases hdep : dep = node.name
        · subst hdep
          simp [hcomp]
          omega
        · simp only [hdep, decide_false, Bool.or_false, beq_iff_eq, ↓reduceIte]
          omega
    have hle : ∀ i, ((t.dependents.getD d []).count i : Int) ≤ t₀.pendingDeps.getD i 0 := by
      intro i
      show _ ≤ t.pendingDeps.getD i 0
      rw [hcount, h.pending]
      cases nodes[i]? with
      | none => simp
      | some other =>
        simp only [Option.map_some, Option.getD_some]
        have := hsplit other.dependsOn
        omega
    obtain ⟨hready, hsize, hpending⟩ := hready₀.foldl_release _ hbound hle
    obtain ⟨hnodes, hidx, hdeps, hdn, hct⟩ := foldl_release_static (t.dependents.getD d []) t₀
    simp only [Bool.false_eq_true, ↓reduceIte]
    constructor
    · exact hnodes.trans h.same
    · exact hidx.trans h.indexOf
    · exact hdeps.trans h.dependents
    · exact hsize.trans h.size
    · intro i
      rw [hdn, hdone₀, h.done]
      cases hi : nodes[i]? with
      | none =>
        have hne : i ≠ d := by
          rintro rfl
          rw [hd] at hi
          cases hi
        simp [hne]
      | some other =>
        have := hother i other hi
        by_cases hid : i = d
        · simp [hid, this.mpr hid]
        · have hne : other.name ≠ node.name := fun heq => hid (this.mp heq)
          simp [hid, hne]
    · rw [hdn]
      exact length_set.trans h.doneSize
    · intro i
      rw [hpending]
      show t.pendingDeps.getD i 0 - _ = _
      rw [hcount, h.pending]
      cases nodes[i]? with
      | none => simp
      | some other =>
        simp only [Option.map_some, Option.getD_some]
        have := hsplit other.dependsOn
        omega
    · exact hready
    · rw [hct]
      show t.completedCount + 1 = _
      rw [h.count]
      have hnode : ∀ l : List DagNode, (l.map (·.name)).Nodup → node ∈ l →
          l.countP (fun n => completed n.name || n.name = node.name) =
            l.countP (fun n => completed n.name) + 1 := by
        intro l
        induction l with
        | nil => simp
        | cons a l ih =>
          intro hnd hin
          rw [map_cons, nodup_cons] at hnd
          rw [countP_cons, countP_cons]
          by_cases ha : a = node
          · subst ha
            have hrest : l.countP (fun n => completed n.name || n.name = a.name) =
                l.countP (fun n => completed n.name) := by
              apply countP_congr
              intro b hb
              have hne : b.name ≠ a.name := by
                intro heq
                exact hnd.1 (heq ▸ mem_map_of_mem hb)
              simp [hne]
            simp [hrest, hcomp]
          · have hin' : node ∈ l := by
              rcases mem_cons.mp hin with heq | hl
              · exact absurd heq.symm ha
              · exact hl
            have hne : a.name ≠ node.name := by
              intro heq
              exact hnd.1 (heq ▸ mem_map_of_mem hin')
            rw [ih hnd.2 hin']
            simp only [hne, decide_false, Bool.or_false]
            omega
      exact (hnode nodes hnames hmem).symm

theorem Follows.foldl_markCompleted (names : List String) {before : String → Bool}
    (hmem : ∀ name ∈ names, name ∈ nodes.map (·.name)) (h : Follows nodes before t) :
    Follows nodes (fun n => before n || names.contains n)
      (names.foldl ReadyTracker.markCompleted t) := by
  induction names generalizing before t with
  | nil => simpa using h
  | cons name names ih =>
    have hnext := h.markCompleted hnames (hmem name mem_cons_self)
    have hrest := ih (fun n hn => hmem n (mem_cons_of_mem _ hn)) hnext
    have hsame : (fun n => before n || (name :: names).contains n) =
        fun n => (before n || decide (n = name)) || names.contains n := by
      funext n
      simp only [contains_cons, Bool.or_assoc]
      rfl
    rw [hsame]
    exact hrest

theorem follows_create {completed : List String}
    (hcompleted : ∀ name ∈ completed, name ∈ nodes.map (·.name)) :
    Follows nodes (fun n => completed.contains n) (createReadyTracker nodes completed) := by
  have h := (follows_start nodes).foldl_markCompleted hnames completed hcompleted
  simp only [Bool.false_or] at h
  exact h

end

/-! ## The answer -/

private theorem filterMap_range_getElem? {α : Type} (l : List α) :
    (List.range l.length).filterMap (fun i => l[i]?) = l := by
  have h : ∀ (l : List α) (f : Nat → Option α), (∀ i, i < l.length → f i = l[i]?) →
      (List.range l.length).filterMap f = l := by
    intro l
    induction l with
    | nil => simp
    | cons a l ih =>
      intro f hf
      rw [length_cons, range_succ_eq_map, filterMap_cons, hf 0 (by simp)]
      simp only [List.getElem?_cons_zero, filterMap_map]
      congr 1
      apply ih
      intro i hi
      have := hf (i + 1) (by simpa using hi)
      simpa using this
  exact h l _ fun _ _ => rfl

/-- **The tracker answers what scanning the definition answers.** -/
theorem Follows.ready_eq {completed : String → Bool} (h : Follows nodes completed t) :
    t.ready = computeReadySet nodes completed fun _ => false := by
  let isReady := fun node : DagNode =>
    !(completed node.name || false) && node.dependsOn.all completed
  let at_ := fun i : Nat => (nodes[i]?.map isReady).getD false
  have hmem : ∀ i, i ∈ t.readyNow ↔ i ∈ (List.range nodes.length).filter at_ := by
    intro i
    rw [h.ready.mem, h.size, h.done, h.pending, mem_filter, mem_range]
    show _ ↔ _ ∧ (nodes[i]?.map isReady).getD false = true
    cases hnode : nodes[i]? with
    | none =>
      have hge := List.getElem?_eq_none_iff.mp hnode
      simp [hge]
    | some node =>
      simp only [Option.map_some, Option.getD_some, isReady, Bool.or_false, Bool.and_eq_true,
        Bool.not_eq_true', all_eq_true]
      constructor
      · rintro ⟨hi, hdone, hzero⟩
        refine ⟨hi, hdone, fun dep hdep => ?_⟩
        have hnone := countP_eq_zero.mp (by exact_mod_cast hzero) dep hdep
        simpa using hnone
      · rintro ⟨hi, hdone, hall⟩
        refine ⟨hi, hdone, ?_⟩
        have hzero : node.dependsOn.countP (fun dep => !completed dep) = 0 := by
          rw [countP_eq_zero]
          intro dep hdep
          simp [hall dep hdep]
        exact_mod_cast hzero
  have hperm : (t.readyNow.insertionSort (· ≤ ·)).Perm ((List.range nodes.length).filter at_) := by
    refine (perm_insertionSort _ _).trans ?_
    rw [perm_ext_iff_of_nodup h.ready.nodup (nodup_range.filter _)]
    exact hmem
  have hsorted : t.readyNow.insertionSort (· ≤ ·) = (List.range nodes.length).filter at_ := by
    have hleft : (t.readyNow.insertionSort (· ≤ ·)).Pairwise (· ≤ ·) :=
      pairwise_insertionSort _ _
    have hright : ((List.range nodes.length).filter at_).Pairwise (· ≤ ·) :=
      pairwise_le_range.filter _
    exact hperm.eq_of_pairwise' hleft hright
  show (t.readyNow.insertionSort (· ≤ ·)).filterMap _ = _
  rw [hsorted, h.same]
  have hnodes : ((List.range nodes.length).filter at_).filterMap (fun i => nodes[i]?) =
      nodes.filter isReady := by
    conv_rhs => rw [← filterMap_range_getElem? nodes]
    rw [filterMap_filter, filter_filterMap]
    apply filterMap_congr
    intro i _
    show (if (nodes[i]?.map isReady).getD false then _ else _) = _
    cases nodes[i]? with
    | none => rfl
    | some node => simp [Option.filter]
  show _ = (nodes.filter isReady).map (·.name)
  rw [← hnodes, map_filterMap]

theorem computeReadySet_started (nodes : List DagNode) (completed started : String → Bool) :
    computeReadySet nodes completed started =
      (computeReadySet nodes completed fun _ => false).filter fun n => !started n := by
  simp only [computeReadySet, filter_map, filter_filter]
  congr 1
  apply filter_congr
  intro node _
  simp only [Function.comp_apply, Bool.or_false, Bool.not_or]
  cases completed node.name <;> cases started node.name <;> simp

/-- **The tracker replaces the scan.** After any completions of names of the definition,
    before the tracker was created and since, it reports what a scan finds with nothing
    started, and without the started names what a scan finds with these started. -/
theorem readyTracker_reports_readySet (hnames : (nodes.map (·.name)).Nodup)
    (preloaded calls : List String)
    (hcalls : ∀ name ∈ preloaded ++ calls, name ∈ nodes.map (·.name)) :
    let tracker := calls.foldl ReadyTracker.markCompleted (createReadyTracker nodes preloaded)
    let completed := fun n => (preloaded ++ calls).contains n
    tracker.ready = computeReadySet nodes completed (fun _ => false) ∧
      ∀ started : String → Bool,
        tracker.ready.filter (fun n => !started n) = computeReadySet nodes completed started := by
  intro tracker completed
  have hcreated : Follows nodes (fun n => preloaded.contains n)
      (createReadyTracker nodes preloaded) :=
    follows_create hnames fun name hname => hcalls name (mem_append_left _ hname)
  have hfollows : Follows nodes completed tracker := by
    have h := hcreated.foldl_markCompleted hnames calls fun name hname =>
      hcalls name (mem_append_right _ hname)
    simpa only [completed, contains_append] using h
  have hready := hfollows.ready_eq
  refine ⟨hready, fun started => ?_⟩
  rw [hready, ← computeReadySet_started]

/-- A diamond with a dependency named twice, its steps completed out of order. -/
theorem readyTracker_reports_readySet_diamond :
    let nodes : List DagNode :=
      [⟨"join", ["left", "right", "left"]⟩, ⟨"root", []⟩, ⟨"left", ["root"]⟩, ⟨"right", ["root"]⟩]
    let tracker := ["right", "right"].foldl ReadyTracker.markCompleted
      (createReadyTracker nodes ["root"])
    let completed := fun n => (["root"] ++ ["right", "right"]).contains n
    tracker.ready = computeReadySet nodes completed (fun _ => false) ∧
      ∀ started : String → Bool,
        tracker.ready.filter (fun n => !started n) = computeReadySet nodes completed started :=
  readyTracker_reports_readySet (by decide) ["root"] ["right", "right"] (by decide)

/-- A step that has started stays ready until it is completed. -/
theorem started_step_counterexample :
    (createReadyTracker [⟨"a", []⟩] []).ready ≠
      computeReadySet [⟨"a", []⟩] (fun _ => false) fun n => n == "a" := by
  decide

end ReadyTracker

end Promin.Durable
