import Promin.Durable.JournaledBody
import Promin.ForStd.Text

/-!
# Slots of nested parallels

The slot of a yield is a function of its position alone (`slotOf`): the index of
the item of the body it belongs to, and one `/branch.seq` segment for each
enclosing parallel.
-/

namespace Promin.Durable

open List BodyRun YieldPosition JournalCursor

/-! ## Paths as texts -/

theorem numeral_notMem {c : Char} (h : c.isDigit = false) (n : Nat) :
    c ∉ (toString n).toList := by
  intro hmem
  rw [show toString n = n.repr from rfl, Nat.toList_repr] at hmem
  exact absurd (Nat.isDigit_of_mem_toDigits (by decide) (by decide) hmem) (by simp [h])

theorem append_numeral_inj {separator : Char} (h : separator.isDigit = false)
    {before before' : String} {n n' : Nat}
    (heq : before ++ String.singleton separator ++ toString n =
      before' ++ String.singleton separator ++ toString n') : before = before' ∧ n = n' := by
  -- Read from the end, the numeral reaches to the first separator.
  have hlist := congrArg (fun s => s.toList.reverse) heq
  simp only [String.toList_append, String.toList_singleton, reverse_append,
    reverse_singleton, singleton_append] at hlist
  have hnot : ∀ n : Nat, separator ∉ (toString n).toList.reverse := by
    intro n hmem
    exact numeral_notMem h n (mem_reverse.mp hmem)
  obtain ⟨hnumeral, hbefore⟩ := append_cons_inj_of_first (hnot n) (hnot n') hlist
  exact ⟨String.toList_injective (reverse_injective hbefore),
    Nat.toString_inj (String.toList_injective (reverse_injective hnumeral))⟩

theorem branchPrefix_inj {path path' : String} {branch branch' : Nat}
    (h : branchPrefix path branch = branchPrefix path' branch') :
    path = path' ∧ branch = branch' :=
  append_numeral_inj (show Char.isDigit '/' = false from rfl) h

theorem pathInBranch_inj {before before' : String} {seq seq' : Nat}
    (h : pathInBranch before seq = pathInBranch before' seq') : before = before' ∧ seq = seq' :=
  append_numeral_inj (show Char.isDigit '.' = false from rfl) h

/-- The branch path of a yield with these enclosing branches. -/
def pathText (path : List (Nat × Nat)) : String :=
  path.foldl (fun text segment => pathInBranch (branchPrefix text segment.1) segment.2) ""

theorem pathText_snoc (path : List (Nat × Nat)) (branch seq : Nat) :
    pathText (path ++ [(branch, seq)]) =
      pathInBranch (branchPrefix (pathText path) branch) seq := by
  simp [pathText]

theorem pathText_inj {path path' : List (Nat × Nat)} (h : pathText path = pathText path') :
    path = path' := by
  have hne : ∀ (path : List (Nat × Nat)) (branch seq : Nat),
      pathText (path ++ [(branch, seq)]) ≠ "" := by
    intro path branch seq hempty
    have hlist := congrArg String.toList hempty
    rw [pathText_snoc, pathInBranch] at hlist
    simp at hlist
  induction path using List.reverseRecOn generalizing path' with
  | nil =>
    cases path' using List.reverseRecOn with
    | nil => rfl
    | append_singleton path' segment => exact absurd h.symm (hne path' segment.1 segment.2)
  | append_singleton path segment ih =>
    cases path' using List.reverseRecOn with
    | nil => exact absurd h (hne path segment.1 segment.2)
    | append_singleton path' segment' =>
      rw [pathText_snoc, pathText_snoc] at h
      obtain ⟨hbranches, hseq⟩ := pathInBranch_inj h
      obtain ⟨hpath, hbranch⟩ := branchPrefix_inj hbranches
      rw [ih hpath, Prod.ext hbranch hseq]

/-! ## Positions of a tree -/

/-- The journal slot of a position. -/
def slotOf (position : YieldPosition) : JournalSlot := ⟨position.item, pathText position.path⟩

theorem slotOf_inj : Function.Injective slotOf := by
  rintro ⟨item, path⟩ ⟨item', path'⟩ h
  simp only [slotOf, JournalSlot.mk.injEq] at h
  rw [h.1, pathText_inj h.2]

def JournaledYield.branch : JournaledYield → Nat → Option (List JournaledYield)
  | .leaf _ _, _ => none
  | .parallel branches, i => branches[i]?

def yieldAt : List (Nat × Nat) → JournaledYield → Option JournaledYield
  | [], y => some y
  | (branch, seq) :: path, y => ((y.branch branch).bind (·[seq]?)).bind (yieldAt path)

/-- What the body yields at a position. -/
def itemAt (body : List BodyItem) (position : YieldPosition) : Option BodyItem :=
  match body[position.item]? with
  | some (.yielded y) => (yieldAt position.path y).map .yielded
  | some (.compensation activityName) =>
    if position.path = [] then some (.compensation activityName) else none
  | none => none

def branchAt (body : List BodyItem) (position : YieldPosition) (branch : Nat) :
    Option (List JournaledYield) :=
  match itemAt body position with
  | some (.yielded y) => y.branch branch
  | _ => none

variable {body : List BodyItem}

theorem yieldAt_snoc (path : List (Nat × Nat)) (branch seq : Nat) (y : JournaledYield) :
    yieldAt (path ++ [(branch, seq)]) y =
      (yieldAt path y).bind fun z => (z.branch branch).bind (·[seq]?) := by
  induction path generalizing y with
  | nil => simp [yieldAt]
  | cons segment path ih =>
    obtain ⟨b, s⟩ := segment
    simp only [cons_append, yieldAt]
    cases (y.branch b).bind (·[s]?) with
    | none => rfl
    | some z => exact ih z

theorem itemAt_inBranch (body : List BodyItem) (position : YieldPosition) (branch seq : Nat) :
    itemAt body (position.inBranch branch seq) =
      ((branchAt body position branch).bind (·[seq]?)).map .yielded := by
  unfold branchAt itemAt inBranch
  simp only
  cases hitem : body[position.item]? with
  | none => rfl
  | some item =>
    cases item with
    | compensation activityName =>
      simp only [append_eq_nil_iff, cons_ne_nil, and_false, ↓reduceIte]
      by_cases hpath : position.path = [] <;> simp [hpath]
    | yielded y =>
      simp only [yieldAt_snoc]
      cases yieldAt position.path y <;> rfl

theorem itemAt_top (body : List BodyItem) (i : Nat) : itemAt body ⟨i, []⟩ = body[i]? := by
  unfold itemAt
  simp only
  cases body[i]? with
  | none => rfl
  | some item => cases item <;> rfl

theorem inBranch_inj {position position' : YieldPosition} {branch branch' seq seq' : Nat}
    (h : position.inBranch branch seq = position'.inBranch branch' seq') :
    position = position' ∧ branch = branch' ∧ seq = seq' := by
  simp only [inBranch, YieldPosition.mk.injEq] at h
  obtain ⟨hitem, hpath⟩ := h
  obtain ⟨hbefore, hlast⟩ := append_inj' hpath rfl
  simp only [List.cons.injEq, Prod.mk.injEq, and_true] at hlast
  cases position
  cases position'
  simp_all

/-! ## The invariant of a run -/

def BodyRun.positions (run : BodyRun) : List YieldPosition := run.drawn.map (·.position)

/-- A branch is where its counter says, on the way through its yields. -/
structure BranchOk (body : List BodyItem) (run : BodyRun) (b : BranchRun) : Prop where
  started : b.parallel ∈ run.positions
  yields : ∃ yields, branchAt body b.parallel b.branch = some yields ∧ b.rest = yields.drop b.made
  scope : b.scope = ⟨b.parallel.item, branchPrefix (pathText b.parallel.path) b.branch, b.made⟩

def Passed (run : BodyRun) (position : YieldPosition) : Prop :=
  (position.path = [] ∧ position.item < run.made) ∨
    ∃ b ∈ run.branches, ∃ seq < b.made, position = b.parallel.inBranch b.branch seq

structure SlotsByPosition (body : List BodyItem) (run : BodyRun) : Prop where
  counter : run.cursor.nextIndex = run.made
  rest : run.rest = body.drop run.made
  branches : ∀ b ∈ run.branches, BranchOk body run b
  ids : (run.branches.map fun b => (b.parallel, b.branch)).Nodup
  drawn : ∀ d ∈ run.drawn, itemAt body d.position = some d.item ∧ d.slot = slotOf d.position
  passed : ∀ position, position ∈ run.positions ↔ Passed run position
  forked : ∀ d ∈ run.drawn, ∀ branches, d.item = .yielded (.parallel branches) →
    ∀ i < branches.length, ∃ b ∈ run.branches, b.parallel = d.position ∧ b.branch = i
  once : run.positions.Nodup

theorem slotsByPosition_start (cursor : JournalCursor) (body : List BodyItem) :
    SlotsByPosition body (.start cursor body) where
  counter := rfl
  rest := rfl
  branches := fun b hb => nomatch hb
  ids := nodup_nil
  drawn := fun d hd => nomatch hd
  passed := by
    intro position
    simp [start, positions, Passed]
  forked := fun d hd => nomatch hd
  once := nodup_nil

/-! ## Starting branches -/

variable {run : BodyRun} {position : YieldPosition} {b : BranchRun}
  {item : BodyItem} {y : JournaledYield}

theorem mem_makeParallel {slot : JournalSlot} (h : b ∈ makeParallel position slot y) :
    b.parallel = position ∧ b.made = 0 ∧ y.branch b.branch = some b.rest ∧
      b.scope = ⟨slot.activityIndex, branchPrefix slot.branchPath b.branch, 0⟩ := by
  cases y with
  | leaf kind name => exact nomatch h
  | parallel branches =>
    obtain ⟨i, hi, rfl⟩ := mem_mapIdx.mp h
    exact ⟨rfl, rfl, by simp [JournaledYield.branch, hi], rfl⟩

theorem makeParallel_ids (position : YieldPosition) (slot : JournalSlot) (y : JournaledYield) :
    ((makeParallel position slot y).map fun b => (b.parallel, b.branch)).Nodup := by
  cases y with
  | leaf kind name => exact nodup_nil
  | parallel branches =>
    have hids : (makeParallel position slot (.parallel branches)).map
        (fun b => (b.parallel, b.branch)) =
        (List.range branches.length).map fun i => (position, i) := by
      apply ext_getElem
      · simp [makeParallel]
      · intro i hi hi'
        simp [makeParallel]
    rw [hids]
    apply nodup_range.map
    intro i j hij
    exact (Prod.mk.inj hij).2

theorem exists_makeParallel {slot : JournalSlot}
    {branches : List (List JournaledYield)} {i : Nat} (hi : i < branches.length) :
    ∃ b ∈ makeParallel position slot (.parallel branches),
      b.parallel = position ∧ b.branch = i := by
  refine ⟨_, mem_mapIdx.mpr ⟨i, hi, rfl⟩, rfl, rfl⟩

theorem branchOk_makeParallel
    (hitem : itemAt body position = some (.yielded y)) (hdrawn : position ∈ run.positions)
    (h : b ∈ makeParallel position (slotOf position) y) : BranchOk body run b := by
  obtain ⟨hparallel, hmade, hrest, hscope⟩ := mem_makeParallel h
  constructor
  · rw [hparallel]
    exact hdrawn
  · refine ⟨b.rest, ?_, by rw [hmade, drop_zero]⟩
    rw [hparallel, branchAt, hitem]
    exact hrest
  · rw [hscope, hparallel, hmade]
    rfl

theorem BranchOk.mono {run' : BodyRun} (h : BranchOk body run b)
    (hle : ∀ position ∈ run.positions, position ∈ run'.positions) : BranchOk body run' b :=
  ⟨hle _ h.started, h.yields, h.scope⟩

def startedBy (position : YieldPosition) : BodyItem → List BranchRun
  | .yielded y => makeParallel position (slotOf position) y
  | .compensation _ => []

theorem made_startedBy (h : b ∈ startedBy position item) : b.parallel = position ∧ b.made = 0 := by
  cases item with
  | yielded y => exact ⟨(mem_makeParallel h).1, (mem_makeParallel h).2.1⟩
  | compensation activityName => exact nomatch h

theorem startedBy_ids (position : YieldPosition) (item : BodyItem) :
    ((startedBy position item).map fun b => (b.parallel, b.branch)).Nodup := by
  cases item with
  | yielded y => exact makeParallel_ids position (slotOf position) y
  | compensation activityName => exact nodup_nil

theorem SlotsByPosition.draw {run' : BodyRun} (h : SlotsByPosition body run) {kept : List BranchRun}
    (hitem : itemAt body position = some item) (hfresh : position ∉ run.positions)
    (hdrawn : run'.drawn = run.drawn ++ [⟨position, item, slotOf position⟩])
    (hbranches : run'.branches = kept ++ startedBy position item)
    (hkept : ∀ b ∈ kept, BranchOk body run b) (hids : (kept.map fun b => (b.parallel, b.branch)) =
      run.branches.map fun b => (b.parallel, b.branch))
    (hcounter : run'.cursor.nextIndex = run'.made) (hrest : run'.rest = body.drop run'.made)
    (hpassed : ∀ p, Passed run' p ↔ Passed run p ∨ p = position) :
    SlotsByPosition body run' := by
  have hpositions : run'.positions = run.positions ++ [position] := by
    simp [positions, hdrawn]
  have hgrows : ∀ p ∈ run.positions, p ∈ run'.positions := by
    intro p hp
    rw [hpositions]
    exact mem_append_left _ hp
  have hnew : position ∈ run'.positions := by simp [hpositions]
  constructor
  · exact hcounter
  · exact hrest
  · intro b hb
    rw [hbranches, mem_append] at hb
    rcases hb with hb | hb
    · exact (hkept b hb).mono hgrows
    · cases item with
      | yielded y => exact branchOk_makeParallel hitem hnew hb
      | compensation activityName => exact nomatch hb
  · rw [hbranches, map_append, nodup_append, hids]
    refine ⟨h.ids, startedBy_ids position item, ?_⟩
    -- The parallel of an older branch has drawn its slot, this one has not.
    rintro ⟨p, i⟩ hold ⟨p', i'⟩ hstarted heq
    obtain ⟨b, hb, hpair⟩ := mem_map.mp hold
    obtain ⟨b', hb', hpair'⟩ := mem_map.mp hstarted
    have hparallel : b.parallel = position := by
      rw [← (made_startedBy hb').1]
      exact (Prod.mk.inj (hpair.trans (heq.trans hpair'.symm))).1
    exact hfresh (hparallel ▸ (h.branches b hb).started)
  · intro d hd
    rw [hdrawn, mem_append, mem_singleton] at hd
    rcases hd with hd | rfl
    · exact h.drawn d hd
    · exact ⟨hitem, rfl⟩
  · intro p
    rw [hpositions, mem_append, mem_singleton, h.passed, hpassed]
  · intro d hd branches hbranch i hi
    rw [hdrawn, mem_append, mem_singleton] at hd
    rw [hbranches]
    rcases hd with hd | rfl
    · obtain ⟨b, hb, hparallel, hindex⟩ := h.forked d hd branches hbranch i hi
      have hid : (d.position, i) ∈ kept.map fun b => (b.parallel, b.branch) := by
        rw [hids]
        exact mem_map.mpr ⟨b, hb, by rw [hparallel, hindex]⟩
      obtain ⟨b', hb', hpair⟩ := mem_map.mp hid
      exact ⟨b', mem_append_left _ hb', (Prod.mk.inj hpair).1, (Prod.mk.inj hpair).2⟩
    · cases hbranch
      obtain ⟨b, hb, hb'⟩ := exists_makeParallel hi
      exact ⟨b, mem_append_right _ hb, hb'⟩
  · rw [hpositions, nodup_append]
    refine ⟨h.once, nodup_singleton _, ?_⟩
    intro p hp p' hp' heq
    rw [mem_singleton.mp hp'] at heq
    exact hfresh (heq ▸ hp)

theorem stepBody_cons {rest : List BodyItem} (hrest : run.rest = item :: rest)
    (hcounter : run.cursor.nextIndex = run.made) :
    run.stepBody =
      { cursor := { run.cursor with nextIndex := run.made + 1 }
        rest := rest
        made := run.made + 1
        branches := run.branches ++ startedBy ⟨run.made, []⟩ item
        drawn := run.drawn ++ [⟨⟨run.made, []⟩, item, slotOf ⟨run.made, []⟩⟩] } := by
  unfold stepBody
  rw [hrest]
  cases item with
  | yielded y =>
    simp only [allocateSlot, hcounter, startedBy]
    rfl
  | compensation activityName =>
    simp only [reserveTopLevelIndex, hcounter, startedBy, append_nil]
    rfl

theorem stepBody_slots (h : SlotsByPosition body run) : SlotsByPosition body run.stepBody := by
  cases hrest : run.rest with
  | nil =>
    have hsame : run.stepBody = run := by simp [stepBody, hrest]
    rw [hsame]
    exact h
  | cons item rest =>
    have hdrop : body.drop run.made = item :: rest := h.rest.symm.trans hrest
    have hat : body[run.made]? = some item := by
      rw [← List.head?_drop, hdrop, List.head?_cons]
    have hfresh : (⟨run.made, []⟩ : YieldPosition) ∉ run.positions := by
      rw [h.passed]
      rintro (⟨-, hlt⟩ | ⟨b, -, seq, -, heq⟩)
      · exact Nat.lt_irrefl _ hlt
      · simp [inBranch] at heq
    have hitem : itemAt body ⟨run.made, []⟩ = some item := (itemAt_top body run.made).trans hat
    rw [stepBody_cons hrest h.counter]
    apply h.draw hitem hfresh rfl rfl h.branches rfl rfl
    · show rest = body.drop (run.made + 1)
      rw [← tail_drop, hdrop, tail_cons]
    · intro p
      constructor
      · rintro (⟨hpath, hlt⟩ | ⟨b, hb, seq, hseq, heq⟩)
        · change p.item < run.made + 1 at hlt
          by_cases hlast : p.item = run.made
          · right
            cases p
            simp_all
          · exact .inl (.inl ⟨hpath, by omega⟩)
        · rcases mem_append.mp hb with hb | hb
          · exact .inl (.inr ⟨b, hb, seq, hseq, heq⟩)
          · rw [(made_startedBy hb).2] at hseq
            omega
      · rintro ((⟨hpath, hlt⟩ | ⟨b, hb, seq, hseq, heq⟩) | rfl)
        · exact .inl ⟨hpath, Nat.lt_succ_of_lt hlt⟩
        · exact .inr ⟨b, mem_append_left _ hb, seq, hseq, heq⟩
        · exact .inl ⟨rfl, Nat.lt_succ_self _⟩

theorem stepBranch_cons {i : Nat}
    {rest : List JournaledYield} (hb : run.branches[i]? = some b) (hrest : b.rest = y :: rest)
    (hok : BranchOk body run b) :
    run.stepBranch i =
      { run with
        branches := run.branches.set i
            { b with
              scope := { b.scope with localCounter := b.made + 1 }
              rest := rest
              made := b.made + 1 } ++
          startedBy (b.parallel.inBranch b.branch b.made) (.yielded y)
        drawn := run.drawn ++ [⟨b.parallel.inBranch b.branch b.made, .yielded y,
          slotOf (b.parallel.inBranch b.branch b.made)⟩] } := by
  have hslot : slotOf (b.parallel.inBranch b.branch b.made) =
      ⟨b.scope.parallelActivityIndex, pathInBranch b.scope.pathPrefix b.scope.localCounter⟩ := by
    rw [hok.scope, slotOf, inBranch, pathText_snoc]
  have hcounter : b.scope.localCounter = b.made := by rw [hok.scope]
  unfold stepBranch
  rw [hb]
  simp only [hrest, allocateSlot, nextPathInScope, startedBy, hslot, hcounter,
    Option.getD_some]

theorem stepBranch_slots (h : SlotsByPosition body run) (i : Nat) :
    SlotsByPosition body (run.stepBranch i) := by
  cases hb : run.branches[i]? with
  | none =>
    have hsame : run.stepBranch i = run := by simp [stepBranch, hb]
    rw [hsame]
    exact h
  | some b =>
    cases hrest : b.rest with
    | nil =>
      have hsame : run.stepBranch i = run := by simp [stepBranch, hb, hrest]
      rw [hsame]
      exact h
    | cons y rest =>
      have hmem : b ∈ run.branches := mem_of_getElem? hb
      have hok := h.branches b hmem
      obtain ⟨yields, hyields, hdrop⟩ := hok.yields
      rw [hrest] at hdrop
      have hat : yields[b.made]? = some y := by
        rw [← List.head?_drop, ← hdrop, List.head?_cons]
      have hfresh : b.parallel.inBranch b.branch b.made ∉ run.positions := by
        rw [h.passed]
        rintro (⟨hpath, -⟩ | ⟨b', hb', seq, hseq, heq⟩)
        · simp [inBranch] at hpath
        · -- Another branch has another parallel or another index.
          obtain ⟨hparallel, hbranch, hmade⟩ := inBranch_inj heq
          have hsame : b' = b := by
            apply inj_on_of_nodup_map h.ids hb' hmem
            rw [hparallel, hbranch]
          rw [hsame] at hseq
          omega
      obtain ⟨hlt, hget⟩ := List.getElem?_eq_some_iff.mp hb
      have hitem : itemAt body (b.parallel.inBranch b.branch b.made) = some (.yielded y) := by
        rw [itemAt_inBranch, hyields]
        simp [hat]
      rw [stepBranch_cons hb hrest hok]
      refine h.draw hitem hfresh rfl rfl ?_ ?_ ?_ ?_ ?_
      · intro c hc
        rcases mem_or_eq_of_mem_set hc with hc | rfl
        · exact h.branches c hc
        · constructor
          · exact hok.started
          · refine ⟨yields, hyields, ?_⟩
            show rest = yields.drop (b.made + 1)
            rw [← tail_drop, ← hdrop, tail_cons]
          · show ({ b.scope with localCounter := b.made + 1 } : ActivityScope) = _
            rw [hok.scope]
      · rw [map_set]
        apply ext_getElem?
        intro j
        rw [List.getElem?_set]
        split
        · rename_i hij
          subst hij
          simp [hget, hlt]
        · rfl
      · exact h.counter
      · exact h.rest
      · intro p
        constructor
        · rintro (htop | ⟨c, hc, seq, hseq, heq⟩)
          · exact .inl (.inl htop)
          · rcases mem_append.mp hc with hc | hc
            · rcases mem_or_eq_of_mem_set hc with hc | rfl
              · exact .inl (.inr ⟨c, hc, seq, hseq, heq⟩)
              · change seq < b.made + 1 at hseq
                by_cases hlast : seq = b.made
                · exact .inr (hlast ▸ heq)
                · exact .inl (.inr ⟨b, hmem, seq, by omega, heq⟩)
            · rw [(made_startedBy hc).2] at hseq
              omega
        · rintro ((htop | ⟨c, hc, seq, hseq, heq⟩) | rfl)
          · exact .inl htop
          · obtain ⟨j, hj, hjc⟩ := getElem_of_mem hc
            by_cases hji : i = j
            · subst hji
              have hcb : c = b := hjc.symm.trans hget
              rw [hcb] at hseq heq
              exact .inr ⟨_, mem_append_left _ (mem_set hlt _), seq,
                Nat.lt_succ_of_lt hseq, heq⟩
            · refine .inr ⟨c, mem_append_left _ ?_, seq, hseq, heq⟩
              rw [mem_iff_getElem?]
              refine ⟨j, ?_⟩
              rw [List.getElem?_set_ne hji, List.getElem?_eq_getElem hj, hjc]
          · exact .inr ⟨_, mem_append_left _ (mem_set hlt _), b.made,
              Nat.lt_succ_self _, rfl⟩

theorem run_slotsByPosition (cursor : JournalCursor) (body : List BodyItem)
    (schedule : List BodyChoice) :
    SlotsByPosition body (bodyRun.run (.start cursor body) schedule) := by
  apply Machine.run_induction (P := SlotsByPosition body) _ schedule
    (slotsByPosition_start cursor body)
  intro run choice h
  cases choice with
  | body => exact stepBody_slots h
  | branch i => exact stepBranch_slots h i

/-! ## Finished runs -/

theorem SlotsByPosition.complete (h : SlotsByPosition body run) (hfinished : run.Finished)
    {item : Nat} (path : List (Nat × Nat)) (hitem : (itemAt body ⟨item, path⟩).isSome) :
    ⟨item, path⟩ ∈ run.positions := by
  induction path using List.reverseRecOn with
  | nil =>
    rw [h.passed]
    left
    refine ⟨rfl, ?_⟩
    rw [itemAt_top] at hitem
    have hall : body.length ≤ run.made := by
      rw [← drop_eq_nil_iff, ← h.rest]
      exact hfinished.1
    have hlt : item < body.length := by
      cases hget : body[item]? with
      | none =>
        rw [hget] at hitem
        exact nomatch hitem
      | some _ => exact (List.getElem?_eq_some_iff.mp hget).1
    show item < run.made
    omega
  | append_singleton path segment ih =>
    obtain ⟨branch, seq⟩ := segment
    have hin : itemAt body ((⟨item, path⟩ : YieldPosition).inBranch branch seq) ≠ none := by
      rw [← Option.isSome_iff_ne_none]
      exact hitem
    rw [itemAt_inBranch] at hin
    cases hbranch : branchAt body ⟨item, path⟩ branch with
    | none => simp [hbranch] at hin
    | some yields =>
      rw [hbranch] at hin
      have hseq : seq < yields.length := by
        by_contra hout
        simp [List.getElem?_eq_none (Nat.le_of_not_lt hout)] at hin
      unfold branchAt at hbranch
      split at hbranch
      · rename_i y hy
        have hdrawn := ih (by rw [hy]; rfl)
        obtain ⟨d, hd, hposition⟩ := mem_map.mp hdrawn
        have hdy := (h.drawn d hd).1
        rw [hposition, hy] at hdy
        cases y with
        | leaf kind name => exact nomatch hbranch
        | parallel branches =>
          have hlt : branch < branches.length := (List.getElem?_eq_some_iff.mp hbranch).1
          obtain ⟨b, hb, hparallel, hindex⟩ :=
            h.forked d hd branches (Option.some.inj hdy).symm branch hlt
          obtain ⟨yields', hyields, hdrop⟩ := (h.branches b hb).yields
          have hsame : branchAt body b.parallel b.branch = some yields := by
            rw [hparallel, hindex, hposition, branchAt, hy]
            exact hbranch
          rw [hsame] at hyields
          cases hyields
          -- The branch has nothing left, so it is past all its yields.
          have hpast : yields.length ≤ b.made := by
            rw [← drop_eq_nil_iff, ← hdrop]
            exact hfinished.2 b hb
          rw [h.passed]
          right
          refine ⟨b, hb, seq, by omega, ?_⟩
          rw [hparallel, hindex, hposition]
          rfl
      · exact nomatch hbranch

/-- **Slots by position.** Over every body and every schedule of its branches: every yield drew
    the slot of its position in the tree, two yields never share a slot, no yield drew twice,
    and once nobody has anything left to yield every yield has drawn. -/
theorem parallelSlots_byPosition (cursor : JournalCursor) (body : List BodyItem)
    (schedule : List BodyChoice) :
    (∀ d ∈ (bodyRun.run (.start cursor body) schedule).drawn,
      itemAt body d.position = some d.item ∧ d.slot = slotOf d.position) ∧
    Function.Injective slotOf ∧
    ((bodyRun.run (.start cursor body) schedule).drawn.map (·.slot)).Nodup ∧
    ((bodyRun.run (.start cursor body) schedule).Finished →
      ∀ position item, itemAt body position = some item →
        ∃ d ∈ (bodyRun.run (.start cursor body) schedule).drawn,
          d.position = position ∧ d.item = item) := by
  have h := run_slotsByPosition cursor body schedule
  generalize bodyRun.run (.start cursor body) schedule = run at h ⊢
  refine ⟨h.drawn, slotOf_inj, ?_, ?_⟩
  · have hslots : run.drawn.map (·.slot) = run.positions.map slotOf := by
      rw [positions, map_map]
      apply map_congr_left
      intro d hd
      exact (h.drawn d hd).2
    rw [hslots]
    exact h.once.map slotOf_inj
  · intro hfinished position item hitem
    obtain ⟨d, hd, hposition⟩ := mem_map.mp
      (h.complete hfinished position.path (by rw [hitem]; rfl))
    have hd' := (h.drawn d hd).1
    rw [hposition, hitem] at hd'
    exact ⟨d, hd, hposition, (Option.some.inj hd').symm⟩

/-- The body of the journal format's example: a parallel of `A` and of a branch that yields
    `B` and a parallel of `C` and `D`. -/
def nestedBody : List BodyItem :=
  [.yielded (.parallel
    [[.leaf .activity "A"],
      [.leaf .activity "B", .parallel [[.leaf .activity "C"], [.leaf .activity "D"]]]])]

def innerFirst : List BodyChoice :=
  [.body, .branch 1, .branch 1, .branch 3, .branch 2, .branch 0]

def newCursor : JournalCursor where
  workflowId := "w"
  stepName := "s"
  guard_ := none
  journal := []

theorem parallelSlots_byPosition_nested :
    ∃ d ∈ (bodyRun.run (.start newCursor nestedBody) innerFirst).drawn,
      d.position = ⟨0, [(1, 1), (0, 0)]⟩ ∧ d.item = .yielded (.leaf .activity "C") := by
  apply (parallelSlots_byPosition newCursor nestedBody innerFirst).2.2.2
  · constructor
    · rfl
    · intro b hb
      have hall : ((bodyRun.run (.start newCursor nestedBody) innerFirst).branches.all
          fun b => b.rest.isEmpty) = true := rfl
      exact isEmpty_iff.mp (all_eq_true.mp hall b hb)
  · rfl

example : slotOf ⟨0, [(1, 1), (0, 0)]⟩ = ⟨0, "/1.1/0.0"⟩ := by decide

end Promin.Durable
