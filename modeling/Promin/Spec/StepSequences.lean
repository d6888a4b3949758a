import Promin.Durable.BuilderState

/-!
# Step lists are immutable

What a `StepSeq` stands for is the list of definitions it was built from.
-/

namespace Promin.Durable

open Function List StepHeap StepStore

variable {V : Type}

/-! ## The reference -/

def firstRepeated (seen : List String) : List (StepDefinition V) → Option String
  | [] => none
  | step :: rest =>
    if step.name ∈ seen then some step.name else firstRepeated (step.name :: seen) rest

def stepLists : Machine (List (List (StepDefinition V))) (StepsOp V) StepsAnswer where
  step lists o := match o with
    | .emptySteps => (lists ++ [[]], .returned)
    | .appendSteps k defs =>
      match lists[k]? with
      | none => (lists, .none)
      | some list =>
        match firstRepeated (list.map (·.name)) defs with
        | some name => (lists, .duplicate name)
        | none => (lists ++ [list ++ defs], .returned)

variable {lists : List (List (StepDefinition V))}

theorem stepLists_throws {k : Nat} {list : List (StepDefinition V)} (hlist : lists[k]? = some list)
    (defs : List (StepDefinition V)) :
    (∃ name, stepLists.out lists (.appendSteps k defs) = .duplicate name) ↔
      firstRepeated (list.map (·.name)) defs ≠ none := by
  simp only [Machine.out, stepLists, hlist]
  cases firstRepeated (list.map (·.name)) defs with
  | none => simp
  | some name => simp

theorem firstRepeated_eq_none_iff (seen : List String) (defs : List (StepDefinition V))
    (hseen : seen.Nodup) :
    firstRepeated seen defs = none ↔ (seen ++ defs.map (·.name)).Nodup := by
  induction defs generalizing seen with
  | nil => simpa [firstRepeated] using hseen
  | cons step rest ih =>
    simp only [firstRepeated, map_cons]
    split
    · rename_i hmem
      have hnot : ¬ (seen ++ step.name :: rest.map (·.name)).Nodup := by
        intro hnd
        exact (nodup_append.mp hnd).2.2 _ hmem _ mem_cons_self rfl
      simp [hnot]
    · rename_i hmem
      rw [ih (step.name :: seen) (nodup_cons.mpr ⟨hmem, hseen⟩)]
      exact (perm_middle.symm.nodup_iff)

/-! ## Stores -/

/-- The index says where each name is. -/
def StoreOk (store : StepStore V) : Prop :=
  ∀ name i, store.index.get name = some i ↔ (store.defs[i]?).map (·.name) = some name

variable {store : StepStore V}

theorem StoreOk.unique (h : StoreOk store) {i j : Nat} {name : String}
    (hi : (store.defs[i]?).map (·.name) = some name)
    (hj : (store.defs[j]?).map (·.name) = some name) : i = j :=
  Option.some.inj (((h name i).mpr hi).symm.trans ((h name j).mpr hj))

theorem storeOk_empty : StoreOk (StepStore.empty : StepStore V) := by
  intro name i
  simp [StepStore.empty]

theorem StoreOk.snoc (h : StoreOk store) {step : StepDefinition V}
    (hnew : step.name ∉ store.defs.map (·.name)) :
    StoreOk { defs := store.defs ++ [step]
              index := store.index.set step.name store.defs.length } := by
  intro name i
  simp only [JsMap.get_set]
  by_cases hname : step.name = name
  · subst hname
    simp only [↓reduceIte, Option.some.injEq]
    constructor
    · rintro rfl
      simp
    · intro hi
      by_contra hne
      have hlt : i < store.defs.length := by
        have hsome : i < (store.defs ++ [step]).length := by
          by_contra hge
          rw [List.getElem?_eq_none (by omega)] at hi
          cases hi
        simp only [length_append, length_singleton] at hsome
        omega
      rw [List.getElem?_append_left hlt] at hi
      obtain ⟨step', hget, hname⟩ := Option.map_eq_some_iff.mp hi
      exact hnew (mem_map.mpr ⟨step', mem_of_getElem? hget, hname⟩)
  · simp only [hname, ↓reduceIte, h name i]
    by_cases hlt : i < store.defs.length
    · rw [List.getElem?_append_left hlt]
    · rw [List.getElem?_append_right (by omega), List.getElem?_eq_none (by omega)]
      cases hi : i - store.defs.length with
      | zero => simp [hname]
      | succ j => simp

theorem StepStore.push_cons (store : StepStore V) (step : StepDefinition V)
    (rest : List (StepDefinition V)) :
    store.push (step :: rest) =
      StepStore.push { defs := store.defs ++ [step]
                       index := store.index.set step.name store.defs.length } rest := rfl

@[simp] theorem push_defs (store : StepStore V) (defs : List (StepDefinition V)) :
    (store.push defs).defs = store.defs ++ defs := by
  induction defs generalizing store with
  | nil => simp [StepStore.push]
  | cons step rest ih =>
    rw [push_cons, ih]
    simp

theorem StoreOk.push (h : StoreOk store) {defs : List (StepDefinition V)}
    (hnew : ((store.defs ++ defs).map (·.name)).Nodup) : StoreOk (store.push defs) := by
  induction defs generalizing store with
  | nil => exact h
  | cons step rest ih =>
    rw [push_cons]
    apply ih
    · apply h.snoc
      rw [map_append, map_cons] at hnew
      intro hmem
      exact (nodup_append.mp hnew).2.2 _ hmem _ mem_cons_self rfl
    · simpa using hnew

theorem StoreOk.nodup (h : StoreOk store) : (store.defs.map (·.name)).Nodup := by
  rw [nodup_iff_getElem?_ne_getElem?]
  intro i j hij hj heq
  simp only [length_map] at hj
  have hi : i < store.defs.length := by omega
  have hname : (store.defs[i]?).map (·.name) = some store.defs[i].name := by
    rw [List.getElem?_eq_getElem hi]
    rfl
  have hsame : (store.defs[j]?).map (·.name) = some store.defs[i].name := by
    rw [← List.getElem?_map, ← heq, List.getElem?_map, hname]
  have hlast := h.unique hname hsame
  omega

private theorem getElem?_take_name {defs : List (StepDefinition V)} {length i : Nat}
    {name : String} : ((defs.take length)[i]?).map (·.name) = some name ↔
      i < length ∧ (defs[i]?).map (·.name) = some name := by
  rw [List.getElem?_take]
  split
  · rename_i hlt
    simp [hlt]
  · rename_i hge
    simp [hge]

private theorem StoreOk.delete_tail (h : StoreOk store) (length : Nat) :
    StoreOk { defs := store.defs.take length
              index := ((store.defs.drop length).map (·.name)).foldl
                (fun index name => index.delete name) store.index } := by
  intro name i
  rw [JsMap.get_foldl_delete, getElem?_take_name]
  have htail : name ∈ (store.defs.drop length).map (·.name) ↔
      ∃ j, length ≤ j ∧ (store.defs[j]?).map (·.name) = some name := by
    rw [mem_iff_getElem?]
    constructor
    · rintro ⟨j, hj⟩
      rw [List.getElem?_map, List.getElem?_drop] at hj
      exact ⟨length + j, by omega, hj⟩
    · rintro ⟨j, hle, hj⟩
      refine ⟨j - length, ?_⟩
      rw [List.getElem?_map, List.getElem?_drop, show length + (j - length) = j by omega]
      exact hj
  by_cases hmem : name ∈ (store.defs.drop length).map (·.name)
  · obtain ⟨j, hle, hj⟩ := htail.mp hmem
    simp only [hmem, ↓reduceIte, reduceCtorEq, false_iff, not_and]
    intro hlt hi
    have heq := h.unique hi hj
    omega
  · simp only [hmem, ↓reduceIte, h name i]
    constructor
    · intro hi
      refine ⟨?_, hi⟩
      by_contra hge
      exact hmem (htail.mpr ⟨i, by omega, hi⟩)
    · exact And.right

private theorem foldl_zipIdx_index (defs : List (StepDefinition V)) (store : StepStore V) :
    (defs.zipIdx store.defs.length).foldl (fun index (step, i) => index.set step.name i)
      store.index = (store.push defs).index := by
  induction defs generalizing store with
  | nil => rfl
  | cons step rest ih =>
    rw [push_cons, ← ih]
    simp

theorem StoreOk.copyPrefix (h : StoreOk store) (length : Nat) :
    StoreOk (copyPrefix store length) ∧
      (copyPrefix store length).defs = store.defs.take length := by
  unfold StepHeap.copyPrefix
  simp only
  split
  · exact ⟨h.delete_tail length, rfl⟩
  · refine ⟨?_, rfl⟩
    have hnames : ((store.defs.take length).map (·.name)).Nodup := by
      rw [map_take]
      exact h.nodup.sublist (take_sublist _ _)
    have hpush : StoreOk (empty.push (store.defs.take length)) := by
      apply storeOk_empty.push
      simpa [StepStore.empty] using hnames
    have hindex : (store.defs.take length).zipIdx.foldl
        (fun index (step, i) => index.set step.name i) JsMap.empty =
          (empty.push (store.defs.take length)).index :=
      foldl_zipIdx_index (store.defs.take length) empty
    have hdefs : (empty.push (store.defs.take length)).defs = store.defs.take length :=
      push_defs empty (store.defs.take length)
    intro name i
    rw [hindex]
    have hat := hpush name i
    rw [hdefs] at hat
    exact hat

/-! ## What a seq stands for -/

/-- The four ways to read a seq agree with a list. -/
structure Denotes (heap : StepHeap V) (seq : StepSeq) (list : List (StepDefinition V)) : Prop where
  toArray : heap.stepsToArray seq = list
  last : heap.lastStep seq = list.getLast?
  find : ∀ name, heap.findStep seq name = list.find? (·.name = name)
  has : ∀ name, heap.hasStep seq name = true ↔ ∃ step ∈ list, step.name = name

/-- Every store's index is right. -/
def HeapOk (heap : StepHeap V) : Prop := ∀ a, a < heap.size → StoreOk (heap.stores a)

/-- The seq is the list, as the first entries of a store. -/
structure Views (heap : StepHeap V) (seq : StepSeq) (list : List (StepDefinition V)) : Prop where
  store : seq.store < heap.size
  length : seq.length ≤ (heap.stores seq.store).defs.length
  list : (heap.stores seq.store).defs.take seq.length = list

variable {heap : StepHeap V} {seq : StepSeq} {list : List (StepDefinition V)}

section

variable (h : Views heap seq list)
include h

theorem Views.getElem? {i : Nat} {name : String} :
    (list[i]?).map (·.name) = some name ↔
      i < seq.length ∧ ((heap.stores seq.store).defs[i]?).map (·.name) = some name := by
  rw [← h.list]
  exact getElem?_take_name

theorem Views.hasStep (hheap : HeapOk heap) (name : String) :
    heap.hasStep seq name = true ↔ name ∈ list.map (·.name) := by
  have hstore := hheap seq.store h.store
  unfold StepHeap.hasStep
  rw [mem_iff_getElem?]
  simp only [List.getElem?_map, h.getElem?]
  cases hget : (heap.stores seq.store).index.get name with
  | none =>
    simp only [Bool.false_eq_true, false_iff, not_exists, not_and]
    intro i _ hi
    rw [(hstore name i).mpr hi] at hget
    cases hget
  | some i =>
    have hi := (hstore name i).mp hget
    simp only [decide_eq_true_eq]
    constructor
    · exact fun hlt => ⟨i, hlt, hi⟩
    · rintro ⟨j, hlt, hj⟩
      rwa [hstore.unique hi hj]

theorem Views.findStep (hheap : HeapOk heap) (name : String) :
    heap.findStep seq name = list.find? (·.name = name) := by
  have hstore := hheap seq.store h.store
  have hhas := h.hasStep hheap name
  unfold StepHeap.findStep
  unfold StepHeap.hasStep at hhas
  cases hget : (heap.stores seq.store).index.get name with
  | none =>
    simp only [hget, Bool.false_eq_true, false_iff] at hhas
    symm
    rw [List.find?_eq_none]
    intro step hstep hname
    exact hhas (mem_map.mpr ⟨step, hstep, by simpa using hname⟩)
  | some i =>
    simp only [hget, decide_eq_true_eq] at hhas
    simp only
    cases hfind : list.find? (·.name = name) with
    | none =>
      rw [List.find?_eq_none] at hfind
      have hge : ¬ i < seq.length := by
        intro hlt
        obtain ⟨step, hstep, hname⟩ := mem_map.mp (hhas.mp hlt)
        exact hfind step hstep (by simpa using hname)
      simp [hge]
    | some step =>
      -- The step that was found is the one at the position of the index.
      have hmem := mem_of_find?_eq_some hfind
      have hname : step.name = name := by simpa using List.find?_some hfind
      have hlt : i < seq.length := hhas.mpr (mem_map.mpr ⟨step, hmem, hname⟩)
      obtain ⟨j, hj⟩ := mem_iff_getElem?.mp hmem
      have hjname : (list[j]?).map (·.name) = some name := by
        rw [hj]
        exact congrArg some hname
      have hij : i = j := hstore.unique ((hstore name i).mp hget) (h.getElem?.mp hjname).2
      simp only [hlt, ↓reduceIte]
      rw [hij, ← hj, ← h.list, List.getElem?_take, if_pos (hij ▸ hlt)]

theorem Views.denotes (hheap : HeapOk heap) : Denotes heap seq list where
  toArray := h.list
  last := by
    rw [← h.list, List.getLast?_take]
    unfold lastStep
    split
    · rfl
    · rename_i hne
      have hlt : seq.length - 1 < (heap.stores seq.store).defs.length := by
        have hle := h.length
        omega
      rw [List.getElem?_eq_getElem hlt, Option.some_or]
  find := h.findStep hheap
  has := by
    intro name
    rw [h.hasStep hheap, mem_map]

end

/-! ## Appending -/

def HeapGrows (heap heap' : StepHeap V) : Prop :=
  ∀ a, a < heap.size → a < heap'.size ∧ (heap.stores a).defs <+: (heap'.stores a).defs

theorem HeapGrows.trans {heap₁ heap₂ heap₃ : StepHeap V} (h : HeapGrows heap₁ heap₂)
    (h' : HeapGrows heap₂ heap₃) : HeapGrows heap₁ heap₃ := by
  intro a ha
  obtain ⟨hsize, hprefix⟩ := h a ha
  obtain ⟨hsize', hprefix'⟩ := h' a hsize
  exact ⟨hsize', hprefix.trans hprefix'⟩

theorem Views.grows {heap' : StepHeap V} (h : Views heap seq list) (hgrows : HeapGrows heap heap') :
    Views heap' seq list := by
  obtain ⟨hsize, rest, hdefs⟩ := hgrows seq.store h.store
  have hlength := h.length
  constructor
  · exact hsize
  · rw [← hdefs, length_append]
    omega
  · rw [← hdefs, take_append_of_le_length hlength]
    exact h.list

theorem heapGrows_allocate (heap : StepHeap V) (store : StepStore V) :
    HeapGrows heap (heap.allocate store).1 := by
  intro a ha
  have hne : a ≠ heap.size := by omega
  refine ⟨Nat.lt_succ_of_lt ha, ?_⟩
  simp only [allocate, update_of_ne hne]
  exact prefix_rfl

theorem HeapOk.allocate (h : HeapOk heap) (hstore : StoreOk store) :
    HeapOk (heap.allocate store).1 := by
  intro a ha
  simp only [StepHeap.allocate] at ha ⊢
  by_cases heq : a = heap.size
  · subst heq
    rwa [update_self]
  · rw [update_of_ne heq]
    exact h a (by omega)

theorem HeapOk.update (h : HeapOk heap) (hstore : StoreOk store) (a : Nat) :
    HeapOk { heap with stores := Function.update heap.stores a store } := by
  intro b hb
  by_cases heq : b = a
  · subst heq
    simpa using hstore
  · simp only [update_of_ne heq]
    exact h b hb

theorem Views.duplicateName (h : Views heap seq list) (hheap : HeapOk heap)
    (defs : List (StepDefinition V)) :
    heap.duplicateName seq [] defs = firstRepeated (list.map (·.name)) defs := by
  have hseen : ∀ batch seen, (∀ name, name ∈ seen ↔ name ∈ batch ∨ name ∈ list.map (·.name)) →
      heap.duplicateName seq batch defs = firstRepeated seen defs := by
    induction defs with
    | nil => exact fun _ _ _ => rfl
    | cons step rest ih =>
      intro batch seen hiff
      have hmem : (batch.contains step.name || heap.hasStep seq step.name) = true ↔
          step.name ∈ seen := by
        rw [hiff, Bool.or_eq_true, h.hasStep hheap, contains_iff_mem]
      simp only [StepHeap.duplicateName, firstRepeated, hmem]
      split
      · rfl
      · apply ih
        intro name
        rw [mem_cons, mem_cons, hiff, or_assoc]
  exact hseen [] _ fun name => by simp

private theorem Views.nodup (h : Views heap seq list) (hheap : HeapOk heap) :
    (list.map (·.name)).Nodup := by
  rw [← h.list, map_take]
  exact (hheap seq.store h.store).nodup.sublist (take_sublist _ _)

/-- What `appendSteps` returns: the list with the batch at its end, while all stores keep what
    they held. -/
theorem Views.appendSteps (h : Views heap seq list) (hheap : HeapOk heap)
    (defs : List (StepDefinition V)) :
    match firstRepeated (list.map (·.name)) defs with
    | some name => heap.appendSteps seq defs = .error name
    | none => ∃ heap' seq', heap.appendSteps seq defs = .ok (heap', seq') ∧ HeapOk heap' ∧
        HeapGrows heap heap' ∧ Views heap' seq' (list ++ defs) := by
  have hdup := h.duplicateName hheap defs
  have hstore := hheap seq.store h.store
  split
  · rename_i name hname
    simp only [StepHeap.appendSteps, hdup, hname]
  · rename_i hnone
    have hnew := (firstRepeated_eq_none_iff _ defs (h.nodup hheap)).mp hnone
    rw [← map_append] at hnew
    simp only [StepHeap.appendSteps, hdup, hnone]
    by_cases htip : seq.length = (heap.stores seq.store).defs.length
    · -- The tip: every other seq on the store ends before the new entries.
      have hlist : (heap.stores seq.store).defs = list := by
        rw [← h.list, htip, take_length]
      rw [if_pos htip]
      refine ⟨_, _, rfl, hheap.update ?_ _, ?_, ?_⟩
      · apply hstore.push
        rwa [hlist]
      · intro a ha
        refine ⟨ha, ?_⟩
        by_cases heq : a = seq.store
        · subst heq
          simp only [update_self, push_defs]
          exact prefix_append _ _
        · simp only [update_of_ne heq]
          exact prefix_rfl
      · refine ⟨h.store, ?_, ?_⟩
        · simp only [update_self, Nat.le_refl]
        · simp only [update_self, push_defs, take_length, hlist]
    · obtain ⟨hcopy, hdefs⟩ := hstore.copyPrefix seq.length
      rw [h.list] at hdefs
      have hpush :
          StoreOk ((copyPrefix (heap.stores seq.store) seq.length).push defs) := by
        apply hcopy.push
        rwa [hdefs]
      rw [if_neg htip]
      refine ⟨_, _, rfl, hheap.allocate hpush, heapGrows_allocate heap _, ?_⟩
      refine ⟨Nat.lt_succ_self _, ?_, ?_⟩
      · simp only [allocate, update_self, Nat.le_refl]
      · simp only [allocate, update_self, push_defs, take_length, hdefs]

structure Agree (s : StepBuilders V) (lists : List (List (StepDefinition V))) : Prop where
  heap : HeapOk s.heap
  seqs : List.Forall₂ (Views s.heap) s.seqs lists

theorem agree_new : Agree (StepBuilders.new : StepBuilders V) [] where
  heap := fun a ha => absurd ha (Nat.not_lt_zero a)
  seqs := .nil

variable {s : StepBuilders V}

theorem Agree.grows {heap' : StepHeap V} (h : Agree s lists) (hgrows : HeapGrows s.heap heap') :
    List.Forall₂ (Views heap') s.seqs lists :=
  h.seqs.imp fun _ _ hview => hview.grows hgrows

private theorem Agree.view
    (h : Agree s lists) {k : Nat} {seq : StepSeq} (hseq : s.seqs[k]? = some seq) :
    ∃ list, lists[k]? = some list ∧ Views s.heap seq list := by
  obtain ⟨hk, hget⟩ := List.getElem?_eq_some_iff.mp hseq
  have hk' : k < lists.length := h.seqs.length_eq ▸ hk
  refine ⟨lists[k], List.getElem?_eq_getElem hk', ?_⟩
  have hrel := (forall₂_iff_get.mp h.seqs).2 k hk hk'
  simpa [hget] using hrel

theorem Agree.next (h : Agree s lists) (o : StepsOp V) :
    stepBuilders.out s o = stepLists.out lists o ∧
      Agree (stepBuilders.next s o) (stepLists.next lists o) ∧
      HeapGrows s.heap (stepBuilders.next s o).heap ∧ s.seqs <+: (stepBuilders.next s o).seqs := by
  cases o with
  | emptySteps =>
    have hgrows := heapGrows_allocate s.heap (.empty : StepStore V)
    refine ⟨rfl, ⟨h.heap.allocate storeOk_empty, ?_⟩, hgrows, prefix_append _ _⟩
    refine rel_append (h.grows hgrows) (.cons ?_ .nil)
    exact ⟨Nat.lt_succ_self _, Nat.zero_le _, rfl⟩
  | appendSteps k defs =>
    have hkeep : HeapGrows s.heap s.heap := fun a ha => ⟨ha, prefix_rfl⟩
    simp only [Machine.out, Machine.next, stepBuilders, stepLists]
    cases hseq : s.seqs[k]? with
    | none =>
      have hlist : lists[k]? = none := by
        rw [List.getElem?_eq_none_iff] at hseq ⊢
        rwa [← h.seqs.length_eq]
      simp only [hlist]
      exact ⟨trivial, h, hkeep, prefix_rfl⟩
    | some seq =>
      obtain ⟨list, hlist, hview⟩ := h.view hseq
      have happend := hview.appendSteps h.heap defs
      simp only [hlist]
      cases hfirst : firstRepeated (list.map (·.name)) defs with
      | some name =>
        simp only [hfirst] at happend
        simp only [happend]
        exact ⟨trivial, h, hkeep, prefix_rfl⟩
      | none =>
        simp only [hfirst] at happend
        obtain ⟨heap', seq', heq, hheap, hgrows, hview'⟩ := happend
        simp only [heq]
        exact ⟨trivial, ⟨hheap, rel_append (h.grows hgrows) (.cons hview' .nil)⟩, hgrows,
          prefix_append _ _⟩

theorem agree_run (h : Agree s lists) (ops : List (StepsOp V)) :
    stepBuilders.outs s ops = stepLists.outs lists ops ∧
      Agree (stepBuilders.run s ops) (stepLists.run lists ops) ∧
      HeapGrows s.heap (stepBuilders.run s ops).heap ∧
      s.seqs <+: (stepBuilders.run s ops).seqs := by
  induction ops generalizing s lists with
  | nil => exact ⟨rfl, h, fun a ha => ⟨ha, prefix_rfl⟩, prefix_rfl⟩
  | cons o ops ih =>
    obtain ⟨hout, hnext, hgrows, hprefix⟩ := h.next o
    obtain ⟨houts, hrun, hgrows', hprefix'⟩ := ih hnext
    refine ⟨?_, hrun, hgrows.trans hgrows', hprefix.trans hprefix'⟩
    simp only [Machine.outs, hout, houts]

/-- What holds of the calls of all builders: they answer like lists, every seq ever returned
    stands for the list it was built from, then and later, and an append throws exactly when a
    name repeats. -/
structure SeqsAreLists (ops : List (StepsOp V)) : Prop where
  answers : stepBuilders.outs .new ops = stepLists.outs [] ops
  denote : List.Forall₂ (Denotes (stepBuilders.run .new ops).heap)
    (stepBuilders.run .new ops).seqs (stepLists.run [] ops)
  kept : ∀ before after, ops = before ++ after → ∀ (k : Nat) seq list,
    (stepBuilders.run .new before).seqs[k]? = some seq →
    Denotes (stepBuilders.run .new before).heap seq list →
    (stepBuilders.run .new ops).seqs[k]? = some seq ∧
      Denotes (stepBuilders.run .new ops).heap seq list
  throws : ∀ (k : Nat) list, (stepLists.run [] ops)[k]? = some list → ∀ defs,
    (∃ name, stepBuilders.out (stepBuilders.run .new ops) (.appendSteps k defs) =
      .duplicate name) ↔ ¬ ((list ++ defs).map (·.name)).Nodup

/-- For every tree of `appendSteps` calls on shared builders, a `StepSeq` is an immutable
    list. -/
theorem stepSeqs_are_lists (ops : List (StepsOp V)) : SeqsAreLists ops := by
  obtain ⟨hanswers, hrun, -, -⟩ := agree_run (agree_new : Agree (V := V) .new []) ops
  constructor
  · exact hanswers
  · exact hrun.seqs.imp fun _ _ hview => hview.denotes hrun.heap
  · intro before after hops k seq list hseq hdenotes
    subst hops
    obtain ⟨-, hbefore, -, -⟩ := agree_run (agree_new : Agree (V := V) .new []) before
    obtain ⟨-, hafter, hgrows, hprefix⟩ := agree_run hbefore after
    rw [Machine.run_append]
    obtain ⟨list', -, hview⟩ := hbefore.view hseq
    -- Both lists are the entries before the seq's end.
    have hlist : list' = list := hview.list.symm.trans hdenotes.toArray
    subst hlist
    refine ⟨?_, (hview.grows hgrows).denotes hafter.heap⟩
    obtain ⟨later, hlater⟩ := hprefix
    obtain ⟨hk, -⟩ := List.getElem?_eq_some_iff.mp hseq
    rw [← hlater, List.getElem?_append_left hk]
    exact hseq
  · intro k list hlist defs
    obtain ⟨hout, -⟩ := hrun.next (.appendSteps k defs)
    have hk : k < (stepBuilders.run (.new : StepBuilders V) ops).seqs.length := by
      rw [hrun.seqs.length_eq]
      exact (List.getElem?_eq_some_iff.mp hlist).1
    obtain ⟨list', hlist', hview⟩ := hrun.view (List.getElem?_eq_getElem hk)
    have heq : list' = list := Option.some.inj (hlist'.symm.trans hlist)
    subst heq
    have hiff := firstRepeated_eq_none_iff _ defs (hview.nodup hrun.heap)
    rw [hout, map_append, ← hiff]
    exact stepLists_throws hlist defs

end Promin.Durable
