import Promin.Spec.ParallelSlots

/-!
# Default ids of child workflows

The slot of a default id is read off its end: the numerals and the signs between
them say how many branches there are, as long as the step name holds no "~" of
its own.
-/

namespace Promin.Durable

open List

private def tildes (path : String) : String :=
  String.ofList (path.toList.map fun c => if c = '/' then '~' else c)

private theorem map_numeral (n : Nat) :
    (toString n).toList.map (fun c => if c = '/' then '~' else c) = (toString n).toList := by
  have hkeep : ∀ c ∈ (toString n).toList, (if c = '/' then '~' else c) = id c := by
    intro c hc
    have hne : c ≠ '/' := fun heq => numeral_notMem (show Char.isDigit '/' = false from rfl) n
      (heq ▸ hc)
    rw [if_neg hne, id]
  rw [map_congr_left hkeep, map_id]

private theorem tildes_snoc (path : List (Nat × Nat)) (branch seq : Nat) :
    tildes (pathText (path ++ [(branch, seq)])) =
      tildes (pathText path) ++ String.singleton '~' ++ toString branch ++ String.singleton '.' ++
        toString seq := by
  rw [pathText_snoc]
  unfold tildes pathInBranch branchPrefix
  apply String.toList_injective
  simp only [String.toList_ofList, String.toList_append, map_append, map_numeral,
    String.toList_singleton]
  rfl

private theorem separators_eq {α : Type} {x y : α} {l l' r r' : List α} (hx : x ∉ l')
    (hy : y ∉ l) (h : l ++ x :: r = l' ++ y :: r') : x = y := by
  induction l generalizing l' with
  | nil =>
    cases l' with
    | nil => exact (List.cons.inj h).1
    | cons b l' => exact absurd (by rw [(List.cons.inj h).1]; exact mem_cons_self) hx
  | cons a l ih =>
    cases l' with
    | nil => exact absurd (by rw [(List.cons.inj h).1]; exact mem_cons_self) hy
    | cons b l' =>
      exact ih (fun hmem => hx (mem_cons_of_mem _ hmem))
        (fun hmem => hy (mem_cons_of_mem _ hmem)) (List.cons.inj h).2

private theorem base_ne_branch {workflowId stepName before : String} {branch : Nat}
    (hname : '~' ∉ stepName.toList) :
    workflowId ++ "." ++ stepName ≠ before ++ String.singleton '~' ++ toString branch := by
  intro heq
  have hlist := congrArg (fun s => s.toList.reverse) heq
  simp only [String.toList_append, String.toList_singleton, reverse_append,
    reverse_cons, append_assoc, singleton_append] at hlist
  have hdot : ".".toList.reverse = ['.'] := rfl
  rw [hdot, singleton_append] at hlist
  have hsigns := separators_eq (x := '.') (y := '~')
    (fun hmem => numeral_notMem (show Char.isDigit '.' = false from rfl) branch
      (mem_reverse.mp hmem))
    (fun hmem => hname (mem_reverse.mp hmem)) hlist
  exact absurd hsigns (by decide)

private theorem base_slot_inj {base base' : String} {item item' : Nat}
    {path path' : List (Nat × Nat)}
    (hbase : ∀ before (branch : Nat), base ≠ before ++ String.singleton '~' ++ toString branch)
    (hbase' : ∀ before (branch : Nat), base' ≠ before ++ String.singleton '~' ++ toString branch)
    (h : base ++ String.singleton '.' ++ toString item ++ tildes (pathText path) =
      base' ++ String.singleton '.' ++ toString item' ++ tildes (pathText path')) :
    base = base' ∧ item = item' ∧ path = path' := by
  have hdot : Char.isDigit '.' = false := rfl
  have hempty : tildes (pathText []) = "" := rfl
  induction path using List.reverseRecOn generalizing path' with
  | nil =>
    cases path' using List.reverseRecOn with
    | nil =>
      rw [hempty, String.append_empty, String.append_empty] at h
      obtain ⟨hb, hi⟩ := append_numeral_inj hdot h
      exact ⟨hb, hi, rfl⟩
    | append_singleton path' segment =>
      rw [hempty, String.append_empty, tildes_snoc] at h
      simp only [← String.append_assoc] at h
      exact absurd (append_numeral_inj hdot h).1 (hbase _ _)
  | append_singleton path segment ih =>
    cases path' using List.reverseRecOn with
    | nil =>
      rw [hempty, String.append_empty, tildes_snoc] at h
      simp only [← String.append_assoc] at h
      exact absurd (append_numeral_inj hdot h).1.symm (hbase' _ _)
    | append_singleton path' segment' =>
      rw [tildes_snoc, tildes_snoc] at h
      simp only [← String.append_assoc] at h
      obtain ⟨hrest, hseq⟩ := append_numeral_inj hdot h
      obtain ⟨hbefore, hbranch⟩ := append_numeral_inj (show Char.isDigit '~' = false from rfl) hrest
      obtain ⟨hb, hi, hpath⟩ := ih hbefore
      exact ⟨hb, hi, by rw [hpath, Prod.ext hbranch hseq]⟩

private theorem defaultChildId_slotOf (workflowId stepName : String) (position : YieldPosition) :
    defaultChildId workflowId stepName (slotOf position) =
      workflowId ++ "." ++ stepName ++ String.singleton '.' ++ toString position.item ++
        tildes (pathText position.path) := rfl

private theorem base_inj {workflowId workflowId' stepName stepName' : String}
    (hname : '.' ∉ stepName.toList) (hname' : '.' ∉ stepName'.toList)
    (h : workflowId ++ "." ++ stepName = workflowId' ++ "." ++ stepName') :
    workflowId = workflowId' ∧ stepName = stepName' := by
  have hlist := congrArg (fun s => s.toList.reverse) h
  have hdot : ".".toList.reverse = ['.'] := rfl
  simp only [String.toList_append, reverse_append, hdot, singleton_append] at hlist
  have hnot : ∀ {name : String}, '.' ∉ name.toList → '.' ∉ name.toList.reverse :=
    fun h hmem => h (mem_reverse.mp hmem)
  obtain ⟨hstep, hworkflow⟩ := append_cons_inj_of_first (hnot hname) (hnot hname') hlist
  exact ⟨String.toList_injective (reverse_injective hworkflow),
    String.toList_injective (reverse_injective hstep)⟩

/-- When two default ids are the same.  Step names without "~" leave the slot legible, so the
    ids agree only where the slots do and `${workflowId}.${stepName}` is the same text, which
    for names without "." too is the same workflow and step.  For one workflow and step of any
    name, different slots have different ids. -/
theorem defaultChildId_inj (workflowId workflowId' stepName stepName' : String)
    (position position' : YieldPosition) :
    ('~' ∉ stepName.toList → '~' ∉ stepName'.toList →
      (defaultChildId workflowId stepName (slotOf position) =
          defaultChildId workflowId' stepName' (slotOf position') ↔
        slotOf position = slotOf position' ∧
          workflowId ++ "." ++ stepName = workflowId' ++ "." ++ stepName')) ∧
    ('~' ∉ stepName.toList → '~' ∉ stepName'.toList → '.' ∉ stepName.toList →
      '.' ∉ stepName'.toList →
      defaultChildId workflowId stepName (slotOf position) =
        defaultChildId workflowId' stepName' (slotOf position') →
      workflowId = workflowId' ∧ stepName = stepName' ∧ slotOf position = slotOf position') ∧
    (defaultChildId workflowId stepName (slotOf position) =
        defaultChildId workflowId stepName (slotOf position') →
      slotOf position = slotOf position') := by
  have hslots : '~' ∉ stepName.toList → '~' ∉ stepName'.toList →
      defaultChildId workflowId stepName (slotOf position) =
        defaultChildId workflowId' stepName' (slotOf position') →
      slotOf position = slotOf position' ∧
        workflowId ++ "." ++ stepName = workflowId' ++ "." ++ stepName' := by
    intro hname hname' h
    rw [defaultChildId_slotOf, defaultChildId_slotOf] at h
    obtain ⟨hbase, hitem, hpath⟩ := base_slot_inj (fun _ _ => base_ne_branch hname)
      (fun _ _ => base_ne_branch hname') h
    exact ⟨by rw [slotOf, slotOf, hitem, hpath], hbase⟩
  refine ⟨fun hname hname' => ⟨hslots hname hname', ?_⟩, ?_, ?_⟩
  · rintro ⟨hslot, hbase⟩
    rw [defaultChildId, defaultChildId, hslot, hbase]
  · intro hname hname' hdot hdot' h
    obtain ⟨hslot, hbase⟩ := hslots hname hname' h
    obtain ⟨hworkflow, hstep⟩ := base_inj hdot hdot' hbase
    exact ⟨hworkflow, hstep, hslot⟩
  · intro h
    rw [defaultChildId_slotOf, defaultChildId_slotOf] at h
    -- Before the slots stands the same text.
    simp only [String.append_assoc] at h
    have hrest : "" ++ String.singleton '.' ++ toString position.item ++
        tildes (pathText position.path) =
          "" ++ String.singleton '.' ++ toString position'.item ++
            tildes (pathText position'.path) := by
      simpa [String.append_assoc] using h
    have hempty : ∀ before (branch : Nat),
        "" ≠ before ++ String.singleton '~' ++ toString branch := by
      intro before branch heq
      have hlist := congrArg String.toList heq
      simp at hlist
    obtain ⟨-, hitem, hpath⟩ := base_slot_inj hempty hempty hrest
    rw [slotOf, slotOf, hitem, hpath]

theorem defaultChildId_inj_ship_pack :
    defaultChildId "order" "ship" (slotOf ⟨2, [(0, 1)]⟩) ≠
      defaultChildId "order" "pack" (slotOf ⟨2, [(0, 1)]⟩) :=
  fun h => absurd ((defaultChildId_inj "order" "order" "ship" "pack" _ _).2.1 (by decide)
    (by decide) (by decide) (by decide) h).2.1 (by decide)

/-- The dot between workflow and step, and the "~" of a branch, may also stand in a step
    name. -/
theorem defaultChildId_counterexample :
    ¬ ∀ (workflowId workflowId' stepName stepName' : String) (position position' : YieldPosition),
      defaultChildId workflowId stepName (slotOf position) =
        defaultChildId workflowId' stepName' (slotOf position') →
      workflowId = workflowId' ∧ stepName = stepName' ∧ slotOf position = slotOf position' := by
  intro h
  have hsame := h "order" "order.ship" "ship.pack" "pack" ⟨0, []⟩ ⟨0, []⟩ (by decide)
  exact absurd hsame.1 (by decide)

end Promin.Durable
