import Promin.ForStd.Cascade
import Promin.Durable.SqliteStorage
import Promin.Spec.JournalEntries
import Promin.Spec.StorageFrame

/-!
# What a cascade cancel reaches

The in-memory cascade is a depth-first search that stops at runs that cannot be
cancelled: at an ended or compensating run it leaves everything below it
running.
-/

/-!
## The parent index

A run names its parent when it is created and never changes it.
-/

namespace Promin.Durable

open InMemoryWorkflowStorage JsMap Option

def InMemoryWorkflowStorage.childIds (s : InMemoryWorkflowStorage) (workflowId : String) :
    List String :=
  (s.children.get workflowId).getD []

def ParentOf (rows : JsMap String MutableWorkflow) (p x : String) : Prop :=
  ∃ wf, rows.get x = some wf ∧ wf.parentWorkflowId = some p

/-- The index lists the stored runs of each parent, and rows are stored under their ids. -/
structure ChildIndexOk (s : InMemoryWorkflowStorage) : Prop where
  ids : ∀ x wf, s.workflows.get x = some wf → wf.workflowId = x
  listed : ∀ p x, x ∈ s.childIds p ↔ ParentOf s.workflows p x

/-! ## Calls that leave the tree alone -/

/-- A run's id and its parent. -/
def lineage (wf : MutableWorkflow) : String × Option String := (wf.workflowId, wf.parentWorkflowId)

/-- The two states have the same index, and the same runs with the same parents. -/
def SameFamily (s s' : InMemoryWorkflowStorage) : Prop :=
  s'.children = s.children ∧
    ∀ x, (s'.workflows.get x).map lineage = (s.workflows.get x).map lineage

namespace SameFamily

theorem of_sameIndexes {s s' : InMemoryWorkflowStorage} (h : SameIndexes s s') :
    SameFamily s s' := by
  obtain ⟨hchildren, -, -, -, hruns⟩ := h
  refine ⟨hchildren, fun x => ?_⟩
  have hrow := congrArg (Option.map fun i : RunIdentity => (i.workflowId, i.parentWorkflowId))
    (hruns x)
  rw [Option.map_map, Option.map_map] at hrow
  exact hrow

theorem childIndexOk {s s' : InMemoryWorkflowStorage} (h : SameFamily s s')
    (hs : ChildIndexOk s) : ChildIndexOk s' := by
  obtain ⟨hchildren, hrows⟩ := h
  have hrow : ∀ x wf', s'.workflows.get x = some wf' →
      ∃ wf, s.workflows.get x = some wf ∧ lineage wf' = lineage wf := by
    intro x wf' hget
    have heq := hrows x
    rw [hget, map_some, eq_comm, map_eq_some_iff] at heq
    obtain ⟨wf, hwf, hsame⟩ := heq
    exact ⟨wf, hwf, hsame.symm⟩
  constructor
  · intro x wf' hget
    obtain ⟨wf, hwf, hsame⟩ := hrow x wf' hget
    exact (congrArg Prod.fst hsame).trans (hs.ids x wf hwf)
  · intro p x
    have hids : s'.childIds p = s.childIds p := by simp [childIds, hchildren]
    rw [hids, hs.listed]
    constructor
    · intro hparent
      obtain ⟨wf, hwf, hp⟩ := hparent
      have heq := hrows x
      rw [hwf, map_some, map_eq_some_iff] at heq
      obtain ⟨wf', hwf', hsame⟩ := heq
      exact ⟨wf', hwf', (congrArg Prod.snd hsame).trans hp⟩
    · intro hparent
      obtain ⟨wf', hwf', hp⟩ := hparent
      obtain ⟨wf, hwf, hsame⟩ := hrow x wf' hwf'
      exact ⟨wf, hwf, (congrArg Prod.snd hsame).symm.trans hp⟩

end SameFamily

theorem step_family (s : InMemoryWorkflowStorage) {o : StorageOp} (h : ¬ TreeCall o) :
    SameFamily s (storage.next s o) :=
  .of_sameIndexes (step_sameIndexes s h)

/-! ## Creating and deleting runs -/

variable {s : InMemoryWorkflowStorage}

theorem mem_childIds_createRun (s : InMemoryWorkflowStorage) (p : CreateWorkflowParams)
    (parent x : String) : x ∈ ((match p.parentWorkflowId with
        | some parent =>
          s.children.set parent
            (InMemoryJournal.addKey ((s.children.get parent).getD []) p.workflowId)
        | none => s.children).get parent).getD [] ↔
      x ∈ s.childIds parent ∨ (p.parentWorkflowId = some parent ∧ x = p.workflowId) := by
  simp only [childIds]
  cases hp : p.parentWorkflowId with
  | none => simp
  | some parent' =>
    simp only [get_set]
    split
    · rename_i heq
      rw [getD_some, mem_addKey, heq]
      simp
    · rename_i hne
      simp [hne]

theorem createRun_childIndex (h : ChildIndexOk s)
    (p : CreateWorkflowParams) : ChildIndexOk (s.createRun p).1 := by
  simp only [createRun]
  split
  · exact h
  · rename_i hfree
    have hnone : s.workflows.get p.workflowId = none := by
      cases hget : s.workflows.get p.workflowId with
      | none => rfl
      | some wf => simp [hget] at hfree
    constructor
    · intro x wf hget
      rw [get_set] at hget
      split at hget
      · rename_i hx
        cases hget
        exact hx
      · exact h.ids x wf hget
    · intro parent x
      have hrow : ParentOf (s.workflows.set p.workflowId (s.newRun p)) parent x ↔
          ParentOf s.workflows parent x ∨
            (p.parentWorkflowId = some parent ∧ x = p.workflowId) := by
        simp only [ParentOf, get_set]
        split
        · rename_i hx
          rw [← hx, hnone]
          simp [newRun]
        · rename_i hx
          simp [Ne.symm hx]
      show _ ↔ ParentOf (s.workflows.set p.workflowId (s.newRun p)) parent x
      rw [hrow, ← h.listed, ← mem_childIds_createRun]
      rfl

/-- A deleted run leaves the list of its parent. -/
theorem deleteRun_childIndex (h : ChildIndexOk s) {id : String}
    {wf : MutableWorkflow} (hget : s.workflows.get id = some wf) :
    ChildIndexOk (s.deleteRun id wf) := by
  have hid := h.ids id wf hget
  constructor
  · intro x wf' hget'
    have hdel : (s.workflows.delete id).get x = some wf' := hget'
    rw [get_delete] at hdel
    split at hdel
    · cases hdel
    · exact h.ids x wf' hdel
  · intro parent x
    -- the list loses `id`, and goes once it is empty
    have hlisted : x ∈ (s.deleteRun id wf).childIds parent ↔
        x ∈ s.childIds parent ∧ ¬(wf.parentWorkflowId = some parent ∧ x = id) := by
      simp only [deleteRun, forgetIndexes, childIds, hid]
      cases hp : wf.parentWorkflowId with
      | none => simp
      | some parent' =>
        simp only
        cases hsiblings : s.children.get parent' with
        | none =>
          simp only [Option.some.injEq]
          constructor
          · intro hx
            refine ⟨hx, ?_⟩
            rintro ⟨heq, -⟩
            simp [← heq, hsiblings] at hx
          · exact fun hx => hx.1
        | some siblings =>
          simp only [Option.some.injEq]
          by_cases heq : parent' = parent
          · rw [← heq, hsiblings]
            split
            · rename_i hempty
              rw [List.isEmpty_iff, List.filter_eq_nil_iff] at hempty
              simp only [get_delete_self, getD_none, List.not_mem_nil,
                getD_some, true_and, false_iff, not_and, not_not]
              intro hx
              simpa using hempty x hx
            · simp
          · split
            · simp [get_delete_ne _ heq, heq]
            · simp [get_set_ne _ _ heq, heq]
    have hrow : ParentOf (s.workflows.delete id) parent x ↔
        ParentOf s.workflows parent x ∧ x ≠ id := by
      simp only [ParentOf, get_delete]
      split
      · rename_i hx
        simp [hx]
      · rename_i hx
        simp [Ne.symm hx]
    rw [hlisted, h.listed]
    show _ ↔ ParentOf (s.workflows.delete id) parent x
    rw [hrow]
    constructor
    · intro hx
      refine ⟨hx.1, fun heq => hx.2 ⟨?_, heq⟩⟩
      obtain ⟨wf', hwf', hp⟩ := hx.1
      rw [heq, hget] at hwf'
      cases hwf'
      exact hp
    · exact fun hx => ⟨hx.1, fun hboth => hx.2 hboth.2⟩

/-! ## Every call -/

theorem step_childIndex (o : StorageOp) (h : ChildIndexOk s) :
    ChildIndexOk (storage.next s o) := by
  by_cases htree : TreeCall o
  · cases o with
    | createWorkflow p g =>
      show ChildIndexOk (s.createWorkflow p g).1
      unfold createWorkflow
      simp only
      split
      · split
        · exact h
        · exact fenced_state h (createRun_childIndex h p)
      · exact createRun_childIndex h p
    | purgeCompleted window limit =>
      exact purge_state window limit (fun _ _ _ hs hget _ => deleteRun_childIndex hs hget) h
    | _ => exact htree.elim
  · exact (step_family s htree).childIndexOk h

theorem run_childIndex (config : StorageConfig) (ops : List StorageOp) :
    ChildIndexOk (storage.run (.new config) ops) := by
  apply Machine.run_induction fun s o => step_childIndex o
  constructor
  · intro x wf hget
    simp [InMemoryWorkflowStorage.new] at hget
  · intro p x
    simp [childIds, ParentOf, InMemoryWorkflowStorage.new]

end Promin.Durable

namespace Promin.Durable

open InMemoryWorkflowStorage

/-! ## The claim -/

/-- The run is stored and can be cancelled. -/
def Live (rows : JsMap String MutableWorkflow) (x : String) : Prop :=
  ∃ wf, rows.get x = some wf ∧ cancellable wf.status = true

def IsCancelled (rows : JsMap String MutableWorkflow) (x : String) : Prop :=
  ∃ wf, rows.get x = some wf ∧ wf.status = .failed ∧ wf.errorTag = some cancelledErrorTag

/-- `x` is linked to `w` by a chain of parent references. -/
def Linked (rows : JsMap String MutableWorkflow) : String → String → Prop :=
  Relation.TransGen (ParentOf rows)

/-- The cascade from `w` left `rows'` in the place of `rows`: every run linked to `w` that
    could be cancelled is, and the SQLite cascade on the same rows ends and cancels the
    same runs. -/
structure ReachesSubtree (now : Int) (w : String) (rows rows' : JsMap String MutableWorkflow) :
    Prop where
  linked : ∀ x, Linked rows w x → Live rows x → IsCancelled rows' x
  sqlite : ∃ fuel sqliteRows,
    SqliteWorkflowStorage.cancelWorkflow now true fuel rows w = some sqliteRows ∧
      ∀ x, Live rows x → (IsCancelled rows' x ↔ IsCancelled sqliteRows x)

/-- No run that can be cancelled has one that cannot between itself and `w`, and no run
    linked to `w` is its own ancestor. -/
def UnbrokenSubtree (rows : JsMap String MutableWorkflow) (w : String) : Prop :=
  ∀ y, y = w ∨ Linked rows w y →
    (∀ x, Linked rows y x → Live rows x → Live rows y) ∧ ¬ Linked rows y y

/-! ## The in-memory cascade -/

def isLive (rows : JsMap String MutableWorkflow) (x : String) : Bool :=
  match rows.get x with
  | some wf => cancellable wf.status
  | none => false

variable {rows : JsMap String MutableWorkflow}

theorem isLive_iff {x : String} :
    isLive rows x = true ↔ Live rows x := by
  simp only [isLive, Live]
  cases rows.get x with
  | none => simp
  | some wf => simp

structure CancelledAt (s : InMemoryWorkflowStorage) (marked : List String)
    (t : InMemoryWorkflowStorage) : Prop where
  children : t.children = s.children
  now : t.now = s.now
  row : ∀ x, t.workflows.get x = (s.workflows.get x).map fun wf =>
    if x ∈ marked ∧ cancellable wf.status = true then s.cancelled wf else wf

theorem cancelRun_mark (s : InMemoryWorkflowStorage) (fuel : Nat) :
    ∀ (marked : List String) (t : InMemoryWorkflowStorage) (w : String),
      CancelledAt s marked t →
        CancelledAt s (Cascade.mark s.childIds (isLive s.workflows) fuel marked w)
          (cancelRun true fuel t w) := by
  induction fuel with
  | zero => exact fun marked t w h => h
  | succ fuel ih =>
    have hlist : ∀ (ids marked : List String) (t : InMemoryWorkflowStorage),
        CancelledAt s marked t →
          CancelledAt s
            (ids.foldl (fun marked c =>
              Cascade.mark s.childIds (isLive s.workflows) fuel marked c) marked)
            (ids.foldl (fun t c => cancelRun true fuel t c) t) := by
      intro ids
      induction ids with
      | nil => exact fun marked t h => h
      | cons id ids ihIds => exact fun marked t h => ihIds _ _ (ih marked t id h)
    intro marked t w h
    have hrow := h.row w
    cases hget : s.workflows.get w with
    | none =>
      have hstop : isLive s.workflows w = false := by simp [isLive, hget]
      rw [hget, Option.map_none] at hrow
      simp only [cancelRun, hrow, Cascade.mark, hstop, Bool.false_and, Bool.false_eq_true,
        ↓reduceIte]
      exact h
    | some wf =>
      rw [hget, Option.map_some] at hrow
      by_cases hgo : cancellable wf.status = true ∧ w ∉ marked
      · obtain ⟨hlive, hnew⟩ := hgo
        have hisLive : isLive s.workflows w = true := by simp [isLive, hget, hlive]
        simp only [hnew, false_and, ↓reduceIte] at hrow
        have hself : CancelledAt s (w :: marked)
            ((t.putRun w (t.cancelled wf)).emit w (.workflowFailed cancelledError t.now) true) := by
          constructor
          · exact h.children
          · exact h.now
          · intro x
            show (t.workflows.set w (t.cancelled wf)).get x = _
            rw [JsMap.get_set]
            split
            · rename_i hx
              rw [← hx, hget]
              simp [hlive, InMemoryWorkflowStorage.cancelled, h.now]
            · rename_i hx
              rw [h.row x]
              simp [Ne.symm hx]
        have hkids : ((t.putRun w (t.cancelled wf)).emit w
            (.workflowFailed cancelledError t.now) true).childIds w = s.childIds w := by
          simp [childIds, hself.children]
        simp only [cancelRun, hrow, hlive, Bool.not_true, Bool.false_eq_true, ↓reduceIte,
          Cascade.mark, hisLive, List.contains_eq_mem, hnew, decide_false, Bool.not_false,
          Bool.and_self]
        rw [← hkids]
        exact hlist _ _ _ hself
      · -- the run cannot be cancelled, or was cancelled before
        have hmark : Cascade.mark s.childIds (isLive s.workflows) (fuel + 1) marked w = marked := by
          have hstop : (isLive s.workflows w && !marked.contains w) = false := by
            simp only [isLive, hget, List.contains_eq_mem]
            grind
          simp only [Cascade.mark, hstop, Bool.false_eq_true, ↓reduceIte]
        have hended : ∃ wf', t.workflows.get w = some wf' ∧ cancellable wf'.status = false := by
          rw [hrow]
          by_cases hlive : cancellable wf.status = true
          · have hmem : w ∈ marked := by
              by_contra hnew
              exact hgo ⟨hlive, hnew⟩
            simp only [hmem, hlive, and_self, ↓reduceIte]
            exact ⟨_, rfl, rfl⟩
          · simp only [hlive, and_false, Bool.false_eq_true, ↓reduceIte]
            exact ⟨wf, rfl, by simpa using hlive⟩
        obtain ⟨wf', hget', hended⟩ := hended
        rw [hmark]
        simp only [cancelRun, hget', hended, Bool.not_false, ↓reduceIte]
        exact h

variable {s : InMemoryWorkflowStorage}

theorem cancelRun_cancels_iff (w : String) {fuel : Nat}
    (hfuel : s.workflows.size < fuel) (x : String) :
    IsCancelled (cancelRun true fuel s w).workflows x ↔
      IsCancelled s.workflows x ∨
        Cascade.LiveReach s.childIds (isLive s.workflows) w x := by
  have hstart : CancelledAt s [] s := ⟨rfl, rfl, fun x => by simp⟩
  have hend := (cancelRun_mark s fuel [] s w hstart).row x
  have hnodes : ∀ y, isLive s.workflows y = true → y ∈ s.workflows.keys := by
    intro y hy
    obtain ⟨wf, hwf, -⟩ := isLive_iff.mp hy
    rw [JsMap.mem_keys_iff, hwf]
    rfl
  have hlength : s.workflows.keys.length < fuel := by
    simp only [JsMap.keys, List.length_map]
    exact hfuel
  have hmark := Cascade.mem_mark_iff s.childIds hnodes hlength w x
  simp only [IsCancelled, hend]
  cases hget : s.workflows.get x with
  | none =>
    have hnot : ¬ Cascade.LiveReach s.childIds (isLive s.workflows) w x := by
      intro hreach
      have hxlive := hreach.last
      simp [isLive, hget] at hxlive
    simp [hnot]
  | some wf =>
    rw [← hmark]
    by_cases hmem : x ∈ Cascade.mark s.childIds (isLive s.workflows) fuel [] w
    · have hxlive := (hmark.mp hmem).last
      have hlive : cancellable wf.status = true := by simpa [isLive, hget] using hxlive
      simp [hmem, hlive, InMemoryWorkflowStorage.cancelled]
    · simp [hmem]

/-! ## The SQLite cascade -/

section Sqlite

open SqliteWorkflowStorage

theorem selectChildren_updateRow (now : Int) (rows : JsMap String MutableWorkflow) (id : String) :
    selectChildren (updateRow now rows id) = selectChildren rows := by
  funext p
  simp only [selectChildren, updateRow, JsMap.mapValues, List.filter_map, List.map_map]
  congr 1
  apply List.filter_congr
  intro e _
  simp only [Function.comp]
  split <;> rfl

theorem mem_selectChildren (rows : JsMap String MutableWorkflow) (p x : String) :
    x ∈ selectChildren rows p ↔ ParentOf rows p x := by
  simp only [selectChildren, List.mem_map, List.mem_filter, ParentOf, beq_iff_eq]
  constructor
  · rintro ⟨⟨id, wf⟩, ⟨hmem, hp⟩, rfl⟩
    exact ⟨wf, (JsMap.mem_entries_iff _ _ _).mp hmem, hp⟩
  · rintro ⟨wf, hget, hp⟩
    exact ⟨(x, wf), ⟨(JsMap.mem_entries_iff _ _ _).mpr hget, hp⟩, rfl⟩

theorem sqlite_cancel_visit (now : Int) (fuel : Nat) :
    ∀ (rows : JsMap String MutableWorkflow) (w : String),
      cancelWorkflow now true fuel rows w =
        (Cascade.visit (selectChildren rows) fuel w).map fun l => l.foldl (updateRow now) rows := by
  induction fuel with
  | zero => exact fun rows w => rfl
  | succ fuel ih =>
    have hlist : ∀ (rows : JsMap String MutableWorkflow) (ids visited : List String),
        selectChildren (visited.foldl (updateRow now) rows) = selectChildren rows →
        ids.foldlM (fun rows id => cancelWorkflow now true fuel rows id)
            (visited.foldl (updateRow now) rows) =
          (ids.foldlM (fun l c => (Cascade.visit (selectChildren rows) fuel c).map (l ++ ·))
            visited).map fun l => l.foldl (updateRow now) rows := by
      intro rows ids
      induction ids with
      | nil => exact fun visited _ => rfl
      | cons id ids ihIds =>
        intro visited hsame
        rw [List.foldlM_cons, List.foldlM_cons, ih, hsame]
        cases hvisit : Cascade.visit (selectChildren rows) fuel id with
        | none => rfl
        | some l =>
          have hsame' : selectChildren ((visited ++ l).foldl (updateRow now) rows) =
              selectChildren rows := by
            rw [← hsame, List.foldl_append]
            generalize visited.foldl (updateRow now) rows = middle
            clear hvisit
            induction l generalizing middle with
            | nil => rfl
            | cons y l ihl => exact (ihl _).trans (selectChildren_updateRow now middle y)
          have hrest := ihIds (visited ++ l) hsame'
          rw [List.foldl_append] at hrest
          exact hrest
    intro rows w
    have hself := hlist rows (selectChildren rows w) [w] (selectChildren_updateRow now rows w)
    simp only [SqliteWorkflowStorage.cancelWorkflow, ↓reduceIte, Cascade.visit,
      selectChildren_updateRow]
    exact hself

theorem foldl_updateRow_get (now : Int) (l : List String) (rows : JsMap String MutableWorkflow)
    (x : String) :
    (l.foldl (updateRow now) rows).get x = (rows.get x).map fun wf =>
      if x ∈ l ∧ cancellable wf.status = true then cancelledRow now wf else wf := by
  induction l generalizing rows with
  | nil => simp
  | cons id l ih =>
    rw [List.foldl_cons, ih]
    have hget : (updateRow now rows id).get x = (rows.get x).map fun wf =>
        if x == id && cancellable wf.status then cancelledRow now wf else wf :=
      JsMap.get_mapValues _ _ _
    rw [hget, Option.map_map]
    congr 1
    funext wf
    have hended : cancellable (cancelledRow now wf).status = false := rfl
    simp only [Function.comp, List.mem_cons]
    by_cases hx : x = id
    · by_cases hlive : cancellable wf.status = true
      · simp [hx, hlive, hended]
      · simp [hx, hlive]
    · simp [hx]

theorem sqlite_cancel_row {now : Int} {fuel : Nat} {rows rows' : JsMap String MutableWorkflow}
    {w : String} (h : cancelWorkflow now true fuel rows w = some rows') (x : String) :
    IsCancelled rows' x ↔ IsCancelled rows x ∨
      (Live rows x ∧ Relation.ReflTransGen (ParentOf rows) w x) := by
  rw [sqlite_cancel_visit, Option.map_eq_some_iff] at h
  obtain ⟨l, hl, rfl⟩ := h
  have hchild : Cascade.Child (selectChildren rows) = ParentOf rows := by
    funext p y
    exact propext (mem_selectChildren rows p y)
  have hmem := Cascade.mem_visit_iff hl x
  rw [hchild] at hmem
  rw [← hmem]
  simp only [IsCancelled, Live, foldl_updateRow_get]
  cases rows.get x with
  | none => simp
  | some wf =>
    by_cases hvisited : x ∈ l
    · by_cases hlive : cancellable wf.status = true
      · simp [hvisited, hlive, cancelledRow]
      · simp [hvisited, hlive]
    · simp [hvisited]

theorem sqlite_cancel_ends_iff (now : Int) (rows : JsMap String MutableWorkflow) (w : String) :
    (∃ fuel rows', cancelWorkflow now true fuel rows w = some rows') ↔
      ∀ y, Relation.ReflTransGen (ParentOf rows) w y → ¬ Linked rows y y := by
  have hchild : Cascade.Child (selectChildren rows) = ParentOf rows := by
    funext p y
    exact propext (mem_selectChildren rows p y)
  have hnodes : ∀ p, ∀ x ∈ selectChildren rows p, x ∈ rows.keys := by
    intro p x hx
    obtain ⟨wf, hget, -⟩ := (mem_selectChildren rows p x).mp hx
    rw [JsMap.mem_keys_iff, hget]
    rfl
  have hends := Cascade.visit_ends_iff hnodes w
  rw [hchild] at hends
  rw [show (∀ y, Relation.ReflTransGen (ParentOf rows) w y → ¬ Linked rows y y) ↔ _ from hends.symm]
  constructor
  · rintro ⟨fuel, rows', h⟩
    rw [sqlite_cancel_visit, Option.map_eq_some_iff] at h
    obtain ⟨l, hl, -⟩ := h
    exact ⟨fuel, l, hl⟩
  · rintro ⟨fuel, l, hl⟩
    exact ⟨fuel, _, by rw [sqlite_cancel_visit, hl]; rfl⟩

end Sqlite

/-! ## When the cascade reaches the subtree -/

theorem not_isCancelled_of_live {x : String} (h : Live rows x) : ¬ IsCancelled rows x := by
  obtain ⟨wf, hget, hlive⟩ := h
  rintro ⟨wf', hget', hfailed, -⟩
  rw [hget] at hget'
  cases hget'
  simp [hfailed, cancellable] at hlive

theorem ParentOf.unique {p p' x : String}
    (h : ParentOf rows p x) (h' : ParentOf rows p' x) : p = p' := by
  obtain ⟨wf, hget, hp⟩ := h
  obtain ⟨wf', hget', hp'⟩ := h'
  rw [hget] at hget'
  cases hget'
  exact Option.some.inj (hp.symm.trans hp')

theorem UnbrokenSubtree.liveReach (hs : ChildIndexOk s)
    {w x : String} (h : UnbrokenSubtree s.workflows w) (hlinked : Linked s.workflows w x)
    (hlive : Live s.workflows x) : Cascade.LiveReach s.childIds (isLive s.workflows) w x := by
  refine ⟨isLive_iff.mpr ((h w (.inl rfl)).1 x hlinked hlive), ?_⟩
  induction hlinked with
  | single hp => exact .single ⟨(hs.listed _ _).mpr hp, isLive_iff.mpr hlive⟩
  | tail hy hp ih =>
    have hylive := (h _ (.inr hy)).1 _ (.single hp) hlive
    exact .tail (ih hylive) ⟨(hs.listed _ _).mpr hp, isLive_iff.mpr hlive⟩

theorem live_of_between (hs : ChildIndexOk s) {w x y : String}
    (hreach : Cascade.LiveReach s.childIds (isLive s.workflows) w x)
    (hacyclic : ¬ Linked s.workflows w w)
    (hwy : Relation.ReflTransGen (ParentOf s.workflows) w y) (hyx : Linked s.workflows y x) :
    Live s.workflows y := by
  obtain ⟨hwlive, hsteps⟩ := hreach
  induction hsteps with
  | refl => exact absurd (hyx.trans_right hwy) hacyclic
  | tail hz hstep ih =>
    have hparent := (hs.listed _ _).mp hstep.1
    cases hyx with
    | single hp =>
      rw [hp.unique hparent]
      exact isLive_iff.mp (Cascade.LiveReach.last ⟨hwlive, hz⟩)
    | tail hyb hp =>
      rw [hp.unique hparent] at hyb
      exact ih hyb

/-- In every reachable state, a cascade cancel that returns reaches the whole subtree, as
    the SQLite storage's does, exactly when nothing in the subtree breaks it. -/
theorem cascade_cancel_iff (config : StorageConfig) (ops : List StorageOp) (w : String)
    (guard_ : FenceGuard) {s' : InMemoryWorkflowStorage}
    (h : (storage.run (.new config) ops).cancelWorkflow w true guard_ = (s', .ok ())) :
    ReachesSubtree s'.now w (storage.run (.new config) ops).workflows s'.workflows ↔
      UnbrokenSubtree (storage.run (.new config) ops).workflows w := by
  have hindex := run_childIndex config ops
  generalize storage.run (.new config) ops = s at h hindex ⊢
  have hs' : s' = cancelRun true (s.workflows.size + 1) s w := by
    simp only [InMemoryWorkflowStorage.cancelWorkflow, fencedWrite] at h
    obtain ⟨e, -, hrej⟩ | ⟨-, hacc⟩ := fenced_cases s w guard_
      (cancelRun true (s.workflows.size + 1) s w, Except.ok ())
    · rw [hrej] at h
      cases h
    · rw [hacc] at h
      exact (congrArg Prod.fst h).symm
  have hrow : ∀ x, IsCancelled s'.workflows x ↔ IsCancelled s.workflows x ∨
      Cascade.LiveReach s.childIds (isLive s.workflows) w x := by
    intro x
    rw [hs']
    exact cancelRun_cancels_iff w (Nat.lt_succ_self _) x
  have hchild : ∀ p x, Cascade.Child s.childIds p x ↔ ParentOf s.workflows p x :=
    fun p x => hindex.listed p x
  have hlinked : ∀ y, Relation.ReflTransGen (ParentOf s.workflows) w y ↔
      y = w ∨ Linked s.workflows w y := fun y => Relation.reflTransGen_iff_eq_or_transGen
  constructor
  · intro hreaches
    have hends : ∃ fuel rows', SqliteWorkflowStorage.cancelWorkflow s'.now true fuel s.workflows w =
        some rows' := by
      obtain ⟨fuel, rows', hrows', -⟩ := hreaches.sqlite
      exact ⟨fuel, rows', hrows'⟩
    have hacyclic := (sqlite_cancel_ends_iff _ _ _).mp hends
    intro y hy
    have hwy := (hlinked y).mpr hy
    refine ⟨fun x hyx hlive => ?_, hacyclic y hwy⟩
    have hcancelled := hreaches.linked x (.trans_right hwy hyx) hlive
    have hreach := ((hrow x).mp hcancelled).resolve_left (not_isCancelled_of_live hlive)
    exact live_of_between hindex hreach (hacyclic w .refl) hwy hyx
  · intro hunbroken
    constructor
    · intro x hx hlive
      exact (hrow x).mpr (.inr (hunbroken.liveReach hindex hx hlive))
    · obtain ⟨fuel, rows', hrows'⟩ := (sqlite_cancel_ends_iff s'.now s.workflows w).mpr
        fun y hy => (hunbroken y ((hlinked y).mp hy)).2
      refine ⟨fuel, rows', hrows', fun x hlive => ?_⟩
      have hnot := not_isCancelled_of_live hlive
      rw [hrow, sqlite_cancel_row hrows']
      constructor
      · intro hcancelled
        obtain ⟨-, hsteps⟩ := hcancelled.resolve_left hnot
        have hwx : Relation.ReflTransGen (ParentOf s.workflows) w x :=
          hsteps.lift id fun p x hstep => (hchild p x).mp hstep.1
        exact .inr ⟨hlive, hwx⟩
      · intro hcancelled
        obtain ⟨-, hwx⟩ := hcancelled.resolve_left hnot
        right
        cases (hlinked x).mp hwx with
        | inl heq =>
          rw [heq] at hlive ⊢
          exact ⟨isLive_iff.mpr hlive, .refl⟩
        | inr hx => exact hunbroken.liveReach hindex hx hlive

/-- A run with a child and a grandchild. -/
private def threeGenerations : List StorageOp :=
  [.createWorkflow ⟨"order", "order", .null, none, none, none, none, none, none, none, none, none⟩
      none,
    .createWorkflow
      ⟨"pay", "pay", .null, none, some "order", none, none, none, none, none, none, none⟩ none,
    .createWorkflow
      ⟨"notify", "notify", .null, none, some "pay", none, none, none, none, none, none, none⟩ none]

private def childEnded : InMemoryWorkflowStorage :=
  storage.run (.new { instanceId := "a" })
    (threeGenerations ++ [.completeWorkflow "pay" .null none])

/-- The child has completed when the cascade comes to it, so the grandchild goes on. -/
theorem ended_child_counterexample :
    ∃ s', childEnded.cancelWorkflow "order" true none = (s', .ok ()) ∧
      ¬ ReachesSubtree s'.now "order" childEnded.workflows s'.workflows := by
  refine ⟨(childEnded.cancelWorkflow "order" true none).1, rfl, fun h => ?_⟩
  have hlinked : Linked childEnded.workflows "order" "notify" :=
    .tail (.single ⟨_, rfl, rfl⟩) ⟨_, rfl, rfl⟩
  obtain ⟨wf, hget, hfailed, -⟩ := h.linked "notify" hlinked ⟨_, rfl, rfl⟩
  have hpending : ((childEnded.cancelWorkflow "order" true none).1.workflows.get "notify").map
      (·.status) = some .pending := by decide
  rw [hget] at hpending
  simp [hfailed] at hpending

theorem cascade_cancel_iff_pending :
    ReachesSubtree
        ((storage.run (.new { instanceId := "a" }) threeGenerations).cancelWorkflow
          "order" true none).1.now "order"
        (storage.run (.new { instanceId := "a" }) threeGenerations).workflows
        ((storage.run (.new { instanceId := "a" }) threeGenerations).cancelWorkflow
          "order" true none).1.workflows ↔
      UnbrokenSubtree (storage.run (.new { instanceId := "a" }) threeGenerations).workflows
        "order" :=
  cascade_cancel_iff { instanceId := "a" } threeGenerations "order" none rfl

end Promin.Durable
