import Promin.ForStd.Machine
import Promin.Spec.JournalEntries
import Promin.Durable.SignalsAndStreams

/-!
# One key per pair

The journal and the streams keep one list per pair of a workflow id and a step
name or stream id, under the key `workflowId::name`.
-/

namespace Promin.Durable

open JsMap
open List hiding any_eq_true

/-- `${id}::${name}`, as the journal and the streams build it. -/
def keyed (id name : String) : String := id ++ "::" ++ name

/-- The key of the pair holds `::` once. -/
structure Alone (id name : String) : Prop where
  head : NoDouble ':' (id.toList ++ [':'])
  tail : NoDouble ':' (':' :: name.toList)

theorem toList_keyed (id name : String) :
    (keyed id name).toList = id.toList ++ ':' :: ':' :: name.toList := by
  simp [keyed]

variable {x : List Char} {j : InMemoryJournal} {name stepName w : String}

/-- Another way to read the key finds its `::` in the head or in the tail. -/
private theorem eq_of_split {y x' y' : List Char} (hx : NoDouble ':' (x ++ [':']))
    (hy : NoDouble ':' (':' :: y)) (h : x' ++ ':' :: ':' :: y' = x ++ ':' :: ':' :: y) :
    x' = x ∧ y' = y := by
  induction x generalizing x' with
  | nil =>
    cases x' with
    | nil =>
      have hrest := (List.cons.inj (List.cons.inj h).2).2
      exact ⟨rfl, hrest⟩
    | cons c x' =>
      -- The other `::` lies behind the first colon.
      obtain ⟨-, hrest⟩ := List.cons.inj h
      exact absurd ⟨x', y', by simpa using hrest⟩ hy
  | cons c x ih =>
    cases x' with
    | nil =>
      obtain ⟨rfl, hrest⟩ := List.cons.inj h
      cases x with
      | nil => exact absurd hx not_noDouble_cons
      | cons d x =>
        obtain ⟨rfl, -⟩ := List.cons.inj hrest
        exact absurd hx not_noDouble_cons
    | cons c' x' =>
      obtain ⟨hc, hrest⟩ := List.cons.inj h
      obtain ⟨hxs, hys⟩ := ih hx.tail hrest
      exact ⟨by rw [hc, hxs], hys⟩

theorem Alone.eq {w' name' : String} (h : Alone w name)
    (hkey : keyed w' name' = keyed w name) : w' = w ∧ name' = name := by
  have hlist := congrArg String.toList hkey
  rw [toList_keyed, toList_keyed] at hlist
  obtain ⟨hid, hname⟩ := eq_of_split h.head h.tail hlist
  exact ⟨String.toList_inj.mp hid, String.toList_inj.mp hname⟩

/-- The pairs whose key no other pair has. -/
theorem alone_iff (id name : String) :
    Alone id name ↔ ∀ w' name', keyed w' name' = keyed id name → w' = id ∧ name' = name := by
  refine ⟨fun h _ _ hkey => h.eq hkey, fun h => ?_⟩
  -- Read at another `::`, the key is another pair's.
  have hsame : ∀ x y : List Char,
      id.toList ++ ':' :: ':' :: name.toList = x ++ ':' :: ':' :: y → x = id.toList := by
    intro x y hsplit
    have hkey : keyed (.ofList x) (.ofList y) = keyed id name := by
      apply String.toList_inj.mp
      rw [toList_keyed, toList_keyed, String.toList_ofList, String.toList_ofList, hsplit]
    rw [← (h _ _ hkey).1, String.toList_ofList]
  constructor
  · rintro ⟨x, y, hxy⟩
    have heq := hsame x (y ++ ':' :: name.toList) (by
      have hcat := congrArg (· ++ ':' :: name.toList) hxy
      simpa using hcat.symm)
    have hlen := congrArg length hxy
    simp only [heq, length_append, length_cons, length_nil] at hlen
    omega
  · rintro ⟨x, y, hxy⟩
    have heq := hsame (id.toList ++ ':' :: x) y (by
      have hcat := congrArg (id.toList ++ ':' :: ·) hxy
      simpa using hcat.symm)
    have hlen := congrArg length heq
    simp only [length_append, length_cons] at hlen
    omega

theorem Alone.prefix_iff {w' : String} (h : Alone w' name) :
    (w ++ "::").toList.isPrefixOf (keyed w' name).toList = true ↔ w' = w := by
  rw [toList_keyed, isPrefixOf_iff_prefix]
  constructor
  · intro hleading
    obtain ⟨t, ht⟩ := hleading
    have hlist : w.toList ++ ':' :: ':' :: t = w'.toList ++ ':' :: ':' :: name.toList := by
      simpa using ht
    exact (String.toList_inj.mp (eq_of_split h.head h.tail hlist).1).symm
  · intro hw
    subst hw
    exact ⟨name.toList, by simp⟩

/-! ## Splitting a key -/

private theorem splitKey_go_head (hx : NoDouble ':' (x ++ [':'])) (rest acc : List Char) :
    InMemoryJournal.splitKey.go (x ++ ':' :: ':' :: rest) acc = (acc.reverse ++ x, rest) := by
  induction x generalizing acc with
  | nil => simp [InMemoryJournal.splitKey.go]
  | cons c x ih =>
    have hnot : ∀ tail, ¬ (c = ':' ∧ x ++ ':' :: ':' :: rest = ':' :: tail) := by
      intro tail h
      obtain ⟨rfl, htail⟩ := h
      cases x with
      | nil => exact not_noDouble_cons hx
      | cons d x =>
        obtain ⟨rfl, -⟩ := List.cons.inj htail
        exact not_noDouble_cons hx
    rw [cons_append, InMemoryJournal.splitKey.go.eq_2 _ _ _ (fun tail hc ht => hnot tail ⟨hc, ht⟩),
      ih hx.tail]
    simp

private theorem splitKey_go_tail (hx : NoDouble ':' x) (acc : List Char) :
    InMemoryJournal.splitKey.go x acc = (acc.reverse ++ x, []) := by
  induction x generalizing acc with
  | nil => simp [InMemoryJournal.splitKey.go]
  | cons c x ih =>
    have hnot : ∀ tail, c = ':' → x = ':' :: tail → False := by
      rintro tail rfl rfl
      exact not_noDouble_cons hx
    rw [InMemoryJournal.splitKey.go.eq_2 _ _ _ hnot, ih hx.tail]
    simp

theorem Alone.splitKey (h : Alone w name) :
    InMemoryJournal.splitKey (keyed w name).toList = (w.toList, name.toList) := by
  rw [toList_keyed, InMemoryJournal.splitKey, splitKey_go_head h.head]
  simp only [splitKey_go_tail h.tail.tail, reverse_nil, nil_append]

/-! ## The journal as a machine -/

/-- The calls of a journal. -/
inductive JournalOp where
  | load (w stepName : String)
  | append (now : Int) (a : EntryAddress) (activityName : String) (payloadHash : Option String)
      (exit : JournalExit)
  | appendPending (now : Int) (a : EntryAddress) (activityName : String)
      (payloadHash : Option String) (stepType : JournalStepType) (wakeAt : Option Int)
  | completePending (a : EntryAddress) (exit : JournalExit)
  | discard (w stepName : String) (slots : List JournalSlot)
  | discardIndex (w stepName : String) (activityIndex : Nat)
  | deleteStep (w stepName : String)
  | findDueSleeps (now limit : Int)
  | deleteWorkflow (w : String)

def journal : Machine InMemoryJournal JournalOp Unit where
  step j o := match o with
    | .load w stepName => ((j.load w stepName).1, ())
    | .append now a name hash exit => (j.append now a name hash exit, ())
    | .appendPending now a name hash type wakeAt =>
      (j.appendPending now a name hash type wakeAt, ())
    | .completePending a exit => ((j.completePending a exit).1, ())
    | .discard w stepName slots => (j.discard w stepName slots, ())
    | .discardIndex w stepName activityIndex => (j.discardIndex w stepName activityIndex, ())
    | .deleteStep w stepName => (j.deleteStep w stepName, ())
    | .findDueSleeps now limit => ((j.findDueSleeps now limit).1, ())
    | .deleteWorkflow w => (j.deleteWorkflow w, ())

def JournalOp.pair : JournalOp → Option (String × String)
  | .load w stepName => some (w, stepName)
  | .append _ a _ _ _ => some (a.workflowId, a.stepName)
  | .appendPending _ a _ _ _ _ => some (a.workflowId, a.stepName)
  | .completePending a _ => some (a.workflowId, a.stepName)
  | .discard w stepName _ => some (w, stepName)
  | .discardIndex w stepName _ => some (w, stepName)
  | .deleteStep w stepName => some (w, stepName)
  | .findDueSleeps _ _ => none
  | .deleteWorkflow _ => none

/-- A write goes to a pair that shares its key with no other. -/
def JournalOp.Clean : JournalOp → Prop
  | .append _ a _ _ _ => Alone a.workflowId a.stepName
  | .appendPending _ a _ _ _ _ => Alone a.workflowId a.stepName
  | _ => True

/-- What `loadJournal` shows of a pair. -/
def InMemoryJournal.entriesOf (j : InMemoryJournal) (w stepName : String) : List JournalEntry :=
  (j.load w stepName).2

def JournalEntry.PendingSleep (e : JournalEntry) : Prop := e.stepType = .sleep ∧ e.phase = .pending

open InMemoryJournal

theorem entriesOf_congr {j' : InMemoryJournal}
    (h : j'.journal.get (journalKey w stepName) = j.journal.get (journalKey w stepName)) :
    j'.entriesOf w stepName = j.entriesOf w stepName := by
  simp only [entriesOf, load, journalOf, h]
  cases j.journal.get (journalKey w stepName) with
  | none => rfl
  | some slots =>
    simp only
    cases slots.sorted <;> rfl

/-! ## What a write on a pair changes -/

def InMemoryJournal.keysOf (j : InMemoryJournal) (w : String) : List String :=
  (j.journalKeys.get w).getD []

structure PairWrite (w stepName : String) (j j' : InMemoryJournal) : Prop where
  elsewhere : ∀ k, k ≠ journalKey w stepName → j'.journal.get k = j.journal.get k
  keysKept : ∀ w' k, k ∈ j.keysOf w' → k ∈ j'.keysOf w'
  keysNew : ∀ w' k, k ∈ j'.keysOf w' → k ∈ j.keysOf w' ∨ w' = w ∧ k = journalKey w stepName
  listed : (j'.journal.get (journalKey w stepName)).isSome = true →
    (j.journal.get (journalKey w stepName)).isSome = true ∨ journalKey w stepName ∈ j'.keysOf w
  sleepsKept : ∀ k ∈ j.sleepKeys, k ∈ j'.sleepKeys
  sleepsNew : ∀ k ∈ j'.sleepKeys, k ∈ j.sleepKeys ∨ k = journalKey w stepName
  sleeps : ∀ slots' e, j'.journal.get (journalKey w stepName) = some slots' →
    e ∈ slots'.entries → e.PendingSleep → journalKey w stepName ∈ j'.sleepKeys ∨
      ∃ slots, j.journal.get (journalKey w stepName) = some slots ∧ e ∈ slots.entries

namespace PairWrite

variable {w stepName : String} {j j' j'' : InMemoryJournal}

theorem refl (w stepName : String) (j : InMemoryJournal) : PairWrite w stepName j j where
  elsewhere := fun _ _ => rfl
  keysKept := fun _ _ h => h
  keysNew := fun _ _ h => .inl h
  listed := .inl
  sleepsKept := fun _ h => h
  sleepsNew := fun _ h => .inl h
  sleeps := fun slots' _ hget he _ => .inr ⟨slots', hget, he⟩

theorem trans (h : PairWrite w stepName j j') (h' : PairWrite w stepName j' j'') :
    PairWrite w stepName j j'' where
  elsewhere := fun k hk => (h'.elsewhere k hk).trans (h.elsewhere k hk)
  keysKept := fun w' k hk => h'.keysKept w' k (h.keysKept w' k hk)
  keysNew := by
    intro w' k hk
    cases h'.keysNew w' k hk with
    | inr hnew => exact .inr hnew
    | inl hold => exact h.keysNew w' k hold
  listed := by
    intro hsome
    cases h'.listed hsome with
    | inr hlisted => exact .inr hlisted
    | inl hsome' => exact (h.listed hsome').imp_right fun hlisted => h'.keysKept w _ hlisted
  sleepsKept := fun k hk => h'.sleepsKept k (h.sleepsKept k hk)
  sleepsNew := by
    intro k hk
    cases h'.sleepsNew k hk with
    | inr hkey => exact .inr hkey
    | inl hold => exact h.sleepsNew k hold
  sleeps := by
    intro slots' e hget he hsleep
    cases h'.sleeps slots' e hget he hsleep with
    | inl hkey => exact .inl hkey
    | inr hold =>
      obtain ⟨slots, hget', he'⟩ := hold
      exact (h.sleeps slots e hget' he' hsleep).imp_left fun hkey => h'.sleepsKept _ hkey

theorem putSlots {slots slots' : JournalSlots}
    (hget : j.journal.get (journalKey w stepName) = some slots)
    (hsleeps : ∀ e ∈ slots'.entries, e.PendingSleep → e ∈ slots.entries) :
    PairWrite w stepName j (j.putSlots w stepName slots') where
  elsewhere := fun k hk => get_set_ne _ _ (Ne.symm hk)
  keysKept := fun _ _ h => h
  keysNew := fun _ _ h => .inl h
  listed := fun _ => .inl (by rw [hget]; rfl)
  sleepsKept := fun _ h => h
  sleepsNew := fun _ h => .inl h
  sleeps := by
    intro found e hfound he hsleep
    have heq : (j.journal.set (journalKey w stepName) slots').get (journalKey w stepName) =
        some found := hfound
    rw [get_set_self] at heq
    cases heq
    exact .inr ⟨slots, hget, hsleeps e he hsleep⟩

theorem openJournal (w stepName : String) (j : InMemoryJournal) :
    PairWrite w stepName j (j.openJournal w stepName).1 ∧
      (j.openJournal w stepName).1.journal.get (journalKey w stepName) =
        some (j.openJournal w stepName).2 ∧
      (j.openJournal w stepName).2.entries =
        ((j.journal.get (journalKey w stepName)).map (·.entries)).getD [] := by
  unfold InMemoryJournal.openJournal
  simp only
  cases hget : j.journal.get (journalKey w stepName) with
  | some slots => exact ⟨.refl w stepName j, hget, rfl⟩
  | none =>
    refine ⟨?_, get_set_self _ _ _, rfl⟩
    constructor
    · exact fun k hk => get_set_ne _ _ (Ne.symm hk)
    · intro w' k hk
      simp only [keysOf, get_set]
      split
      · rename_i hw
        subst hw
        rw [Option.getD_some, addKey]
        split
        · exact hk
        · exact mem_append_left _ hk
      · exact hk
    · intro w' k hk
      simp only [keysOf, get_set] at hk
      split at hk
      · rename_i hw
        subst hw
        rw [Option.getD_some, mem_addKey] at hk
        exact hk.imp_right fun hkey => ⟨rfl, hkey⟩
      · exact .inl hk
    · intro _
      right
      simp only [keysOf, get_set_self, Option.getD_some, addKey]
      split
      · rename_i hmem
        simpa using hmem
      · simp
    · exact fun _ h => h
    · exact fun _ h => .inl h
    · intro slots' e hget' he
      simp only [get_set_self, Option.some.injEq] at hget'
      subst hget'
      exact absurd he not_mem_nil

end PairWrite

theorem mem_putEntry {slots : JournalSlots} {entry e : JournalEntry}
    (h : e ∈ (slots.putEntry entry).entries) : e = entry ∨ e ∈ slots.entries := by
  unfold JournalSlots.putEntry at h
  simp only at h
  split at h
  · exact (mem_or_eq_of_mem_set h).symm
  · rw [mem_append, mem_singleton] at h
    exact h.symm

variable {o : JournalOp}

theorem step_pairWrite
    (h : o.pair = some (w, stepName)) : PairWrite w stepName j (journal.next j o) := by
  cases o with
  | load w' stepName' =>
    cases h
    show PairWrite w stepName j (j.load w stepName).1
    unfold load
    cases hget : j.journalOf w stepName with
    | none => exact .refl w stepName j
    | some slots =>
      simp only
      cases slots.sorted with
      | some sorted => exact .refl w stepName j
      | none => exact .putSlots hget fun _ he _ => he
  | append now a name hash exit =>
    cases h
    obtain ⟨hopen, hget, -⟩ := PairWrite.openJournal a.workflowId a.stepName j
    show PairWrite _ _ j (j.append now a name hash exit)
    unfold InMemoryJournal.append
    simp only
    split
    · exact hopen
    · apply hopen.trans
      apply PairWrite.putSlots hget
      intro e he hsleep
      cases mem_putEntry he with
      | inr hold => exact hold
      | inl heq =>
        subst heq
        cases hsleep.1
  | appendPending now a name hash type wakeAt =>
    cases h
    obtain ⟨hopen, hget, -⟩ := PairWrite.openJournal a.workflowId a.stepName j
    show PairWrite _ _ j (j.appendPending now a name hash type wakeAt)
    unfold InMemoryJournal.appendPending
    simp only
    split
    · exact hopen
    · split
      · -- A sleep: its key enters the scan set.
        apply hopen.trans
        constructor
        · exact fun k hk => get_set_ne _ _ (Ne.symm hk)
        · exact fun _ _ hk => hk
        · exact fun _ _ hk => .inl hk
        · exact fun _ => .inl (by rw [hget]; rfl)
        · intro k hk
          exact (mem_addKey _ _ _).mpr (.inl hk)
        · intro k hk
          exact (mem_addKey _ _ _).mp hk
        · intro _ _ _ _ _
          exact .inl ((mem_addKey _ _ _).mpr (.inr rfl))
      · rename_i htype
        apply hopen.trans
        apply PairWrite.putSlots hget
        intro e he hsleep
        cases mem_putEntry he with
        | inr hold => exact hold
        | inl heq =>
          subst heq
          exact absurd hsleep.1 htype
  | completePending a exit =>
    cases h
    show PairWrite _ _ j (j.completePending a exit).1
    unfold InMemoryJournal.completePending
    cases hget : j.journalOf a.workflowId a.stepName with
    | none => exact .refl _ _ j
    | some slots =>
      simp only
      cases slots.entryAt a.slot with
      | none => exact .refl _ _ j
      | some existing =>
        simp only
        split
        · exact .refl _ _ j
        · apply PairWrite.putSlots hget
          intro e he hsleep
          cases mem_putEntry he with
          | inr hold => exact hold
          | inl heq =>
            subst heq
            cases hsleep.2
  | discard w' stepName' slots =>
    cases h
    show PairWrite w stepName j (j.discard w stepName slots)
    unfold InMemoryJournal.discard
    cases hget : j.journalOf w stepName with
    | none => exact .refl w stepName j
    | some found =>
      exact .putSlots hget fun e he _ => (mem_filter.mp he).1
  | discardIndex w' stepName' activityIndex =>
    cases h
    show PairWrite w stepName j (j.discardIndex w stepName activityIndex)
    unfold InMemoryJournal.discardIndex
    cases hget : j.journalOf w stepName with
    | none => exact .refl w stepName j
    | some found =>
      exact .putSlots hget fun e he _ => (mem_filter.mp he).1
  | deleteStep w' stepName' =>
    cases h
    have hnone : (j.deleteStep w stepName).journal.get (journalKey w stepName) = none :=
      get_delete_self _ _
    constructor
    · exact fun k hk => get_delete_ne _ (Ne.symm hk)
    · exact fun _ _ hk => hk
    · exact fun _ _ hk => .inl hk
    · intro hsome
      have hgone : ((j.deleteStep w stepName).journal.get (journalKey w stepName)).isSome = true :=
        hsome
      rw [hnone] at hgone
      cases hgone
    · exact fun _ hk => hk
    · exact fun _ hk => .inl hk
    · intro slots' e hget
      have hgone : (j.deleteStep w stepName).journal.get (journalKey w stepName) = some slots' :=
        hget
      rw [hnone] at hgone
      cases hgone
  | findDueSleeps now limit => cases h
  | deleteWorkflow w' => cases h

/-! ## Due sleeps -/

private theorem scan_spec (j : InMemoryJournal) (now limit : Int) (keys kept : List String)
    (due : List DueSleep) (hroom : (due.length : Int) < max limit 1) :
    (findDueSleeps.scan j now limit keys kept due).2 = due ++
        (keys.flatMap fun key => dueSleepsOf now key (j.journal.get key)).take
          (max limit 1 - due.length).toNat ∧
      (∀ k, k ∈ kept ∨ k ∈ keys ∧ hasPendingSleep (j.journal.get k) = true →
        k ∈ (findDueSleeps.scan j now limit keys kept due).1) ∧
      ∀ k ∈ (findDueSleeps.scan j now limit keys kept due).1, k ∈ kept ∨ k ∈ keys := by
  induction keys generalizing kept due with
  | nil => simp [findDueSleeps.scan]
  | cons key rest ih =>
    simp only [findDueSleeps.scan]
    generalize hfound : dueSleepsOf now key (j.journal.get key) = found
    split
    · -- The limit is reached at this key.
      rename_i hfull
      simp only [Bool.and_eq_true, decide_eq_true_eq, ge_iff_le] at hfull
      refine ⟨?_, ?_, ?_⟩
      · rw [flatMap_cons, hfound, take_append_of_le_length hfull.1]
      · intro k hk
        simp only [mem_append]
        exact hk.imp_right fun h => h.1
      · intro k hk
        simpa only [mem_append] using hk
    · rename_i hnotFull
      simp only [Bool.and_eq_true, decide_eq_true_eq, ge_iff_le, not_and, not_lt,
        Nat.le_zero_eq] at hnotFull
      have hless : found.length < (max limit 1 - due.length).toNat := by
        by_cases hle : (max limit 1 - due.length).toNat ≤ found.length
        · have hzero := hnotFull hle
          omega
        · omega
      have hroom' : ((due ++ found).length : Int) < max limit 1 := by
        rw [length_append]
        omega
      obtain ⟨hdue, hkept, hold⟩ := ih
        (if hasPendingSleep (j.journal.get key) then kept ++ [key] else kept) (due ++ found) hroom'
      refine ⟨?_, ?_, ?_⟩
      · have hrest : (max limit 1 - due.length).toNat - found.length =
            (max limit 1 - (due ++ found).length).toNat := by
          rw [length_append]
          omega
        rw [hdue, flatMap_cons, hfound, take_append, append_assoc, ← hrest,
          take_of_length_le (Nat.le_of_lt hless)]
      · intro k hk
        apply hkept
        cases hk with
        | inl hkept' =>
          left
          split
          · exact mem_append_left _ hkept'
          · exact hkept'
        | inr hkey =>
          obtain ⟨hmem, hpending⟩ := hkey
          cases mem_cons.mp hmem with
          | inl heq =>
            subst heq
            left
            rw [if_pos hpending]
            simp
          | inr hrest => exact .inr ⟨hrest, hpending⟩
      · intro k hk
        cases hold k hk with
        | inr hrest => exact .inr (mem_cons_of_mem _ hrest)
        | inl hkept' =>
          split at hkept'
          · simp only [mem_append, mem_singleton] at hkept'
            cases hkept' with
            | inl h => exact .inl h
            | inr heq => exact .inr (by simp [heq])
          · exact .inl hkept'

theorem findDueSleeps_eq (j : InMemoryJournal) (now limit : Int) :
    (j.findDueSleeps now limit).2 =
      (j.sleepKeys.flatMap fun key => dueSleepsOf now key (j.journal.get key)).take
        (max limit 1).toNat := by
  have hroom : (([] : List DueSleep).length : Int) < max limit 1 := by
    simp only [length_nil]
    omega
  have hscan := (scan_spec j now limit j.sleepKeys [] [] hroom).1
  show (findDueSleeps.scan j now limit j.sleepKeys [] []).2 = _
  simpa using hscan

theorem findDueSleeps_sleepKeys (j : InMemoryJournal) (now limit : Int) :
    (∀ k ∈ j.sleepKeys, hasPendingSleep (j.journal.get k) = true →
      k ∈ (j.findDueSleeps now limit).1.sleepKeys) ∧
    ∀ k ∈ (j.findDueSleeps now limit).1.sleepKeys, k ∈ j.sleepKeys := by
  have hroom : (([] : List DueSleep).length : Int) < max limit 1 := by
    simp only [length_nil]
    omega
  obtain ⟨-, hkept, hold⟩ := scan_spec j now limit j.sleepKeys [] [] hroom
  constructor
  · exact fun k hk hpending => hkept k (.inr ⟨hk, hpending⟩)
  · intro k hk
    exact (hold k hk).resolve_left not_mem_nil

/-! ## Every state of the journal -/

/-- The keys are of pairs that have them alone, and listed where they are looked for. -/
structure KeysKept (j : InMemoryJournal) : Prop where
  sound : j.Sound
  owned : ∀ k, (j.journal.get k).isSome = true →
    ∃ w stepName, Alone w stepName ∧ k = journalKey w stepName ∧ k ∈ j.keysOf w
  listed : ∀ w k, k ∈ j.keysOf w → ∃ stepName, Alone w stepName ∧ k = journalKey w stepName
  scanned : ∀ k ∈ j.sleepKeys, ∃ w stepName, Alone w stepName ∧ k = journalKey w stepName
  sleeps : ∀ k slots e, j.journal.get k = some slots → e ∈ slots.entries → e.PendingSleep →
    k ∈ j.sleepKeys

theorem keysKept_new : KeysKept .new where
  sound := sound_new
  owned := fun _ hk => nomatch hk
  listed := fun _ _ hk => absurd hk not_mem_nil
  scanned := fun _ hk => absurd hk not_mem_nil
  sleeps := fun _ _ _ hget => nomatch hget

theorem step_sound (h : j.Sound) (o : JournalOp) :
    (journal.next j o).Sound := by
  cases o with
  | load w stepName => exact (load_step h w stepName).1
  | append now a name hash exit => exact (append_step h now a name hash exit).1
  | appendPending now a name hash type wakeAt =>
    exact (appendPending_step h now a name hash type wakeAt).1
  | completePending a exit => exact (completePending_step h a exit).1
  | discard w stepName slots => exact h.discard w stepName slots
  | discardIndex w stepName activityIndex => exact h.discardIndex w stepName activityIndex
  | deleteStep w stepName => exact h.deleteStep w stepName
  | findDueSleeps now limit => exact ⟨h.slots, h.keys⟩
  | deleteWorkflow w => exact h.deleteWorkflow w

namespace KeysKept

variable {j j' : InMemoryJournal} {w stepName : String}

theorem alone_of_used (h : KeysKept j) (hused : (j.journal.get (journalKey w stepName)).isSome) :
    Alone w stepName ∧ journalKey w stepName ∈ j.keysOf w := by
  obtain ⟨w', stepName', halone, hkey, hlisted⟩ := h.owned _ hused
  obtain ⟨rfl, rfl⟩ := halone.eq hkey
  exact ⟨halone, hlisted⟩

theorem pairWrite (h : KeysKept j) (halone : Alone w stepName) (hwrite : PairWrite w stepName j j')
    (hsound : j'.Sound) : KeysKept j' where
  sound := hsound
  owned := by
    intro k hk
    by_cases heq : k = journalKey w stepName
    · subst heq
      cases hwrite.listed hk with
      | inr hlisted => exact ⟨w, stepName, halone, rfl, hlisted⟩
      | inl hold => exact ⟨w, stepName, halone, rfl, hwrite.keysKept _ _ (h.alone_of_used hold).2⟩
    · rw [hwrite.elsewhere k heq] at hk
      obtain ⟨w', stepName', halone', hkey, hlisted⟩ := h.owned k hk
      exact ⟨w', stepName', halone', hkey, hwrite.keysKept _ _ hlisted⟩
  listed := by
    intro w' k hk
    cases hwrite.keysNew w' k hk with
    | inl hold => exact h.listed w' k hold
    | inr hnew =>
      obtain ⟨rfl, rfl⟩ := hnew
      exact ⟨stepName, halone, rfl⟩
  scanned := by
    intro k hk
    cases hwrite.sleepsNew k hk with
    | inl hold => exact h.scanned k hold
    | inr heq => exact ⟨w, stepName, halone, heq⟩
  sleeps := by
    intro k slots e hget he hsleep
    by_cases heq : k = journalKey w stepName
    · subst heq
      cases hwrite.sleeps slots e hget he hsleep with
      | inl hkey => exact hkey
      | inr hold =>
        obtain ⟨slots', hget', he'⟩ := hold
        exact hwrite.sleepsKept _ (h.sleeps _ slots' e hget' he' hsleep)
    · rw [hwrite.elsewhere k heq] at hget
      exact hwrite.sleepsKept k (h.sleeps k slots e hget he hsleep)

theorem congr (h : KeysKept j) (hsound : j'.Sound)
    (hget : ∀ k, j'.journal.get k = j.journal.get k) (hkeys : j'.journalKeys = j.journalKeys)
    (hsleeps : j'.sleepKeys = j.sleepKeys) : KeysKept j' where
  sound := hsound
  owned := by
    intro k hk
    rw [hget] at hk
    simpa only [keysOf, hkeys] using h.owned k hk
  listed := by simpa only [keysOf, hkeys] using h.listed
  scanned := by simpa only [hsleeps] using h.scanned
  sleeps := by
    intro k slots e hfound he hsleep
    rw [hget] at hfound
    rw [hsleeps]
    exact h.sleeps k slots e hfound he hsleep

end KeysKept

def JournalOp.appended : JournalOp → Option (String × String)
  | .append _ a _ _ _ => some (a.workflowId, a.stepName)
  | .appendPending _ a _ _ _ _ => some (a.workflowId, a.stepName)
  | _ => none

theorem JournalOp.Clean.alone (hclean : o.Clean)
    (happended : o.appended = some (w, stepName)) : Alone w stepName := by
  cases o with
  | append now a name hash exit | appendPending now a name hash type wakeAt =>
    cases happended
    exact hclean
  | _ => exact nomatch happended

theorem JournalOp.appended_eq_pair (h : o.appended ≠ none) :
    o.appended = o.pair := by
  cases o with
  | append now a name hash exit => rfl
  | appendPending now a name hash type wakeAt => rfl
  | _ => exact absurd rfl h

theorem JournalOp.Clean.no_append (hclean : o.Clean)
    (hpair : o.pair = some (w, stepName)) (hother : ¬ Alone w stepName) : o.appended = none := by
  by_contra happended
  have hsame := JournalOp.appended_eq_pair happended
  exact hother (hclean.alone (hsame.trans hpair))

theorem step_absent (hpair : o.pair = some (w, stepName)) (happended : o.appended = none)
    (hnone : j.journal.get (journalKey w stepName) = none) :
    (∀ k, (journal.next j o).journal.get k = j.journal.get k) ∧
      (journal.next j o).journalKeys = j.journalKeys ∧
      (journal.next j o).sleepKeys = j.sleepKeys := by
  have hnone' : j.journalOf w stepName = none := hnone
  have hkept : ∀ {j' : InMemoryJournal}, j' = j → (∀ k, j'.journal.get k = j.journal.get k) ∧
      j'.journalKeys = j.journalKeys ∧ j'.sleepKeys = j.sleepKeys := by
    intro j' heq
    subst heq
    exact ⟨fun _ => rfl, rfl, rfl⟩
  cases o with
  | load w' stepName' =>
    cases hpair
    apply hkept
    show (j.load w stepName).1 = j
    simp [load, hnone']
  | append now a name hash exit | appendPending now a name hash type wakeAt => cases happended
  | completePending a exit =>
    cases hpair
    apply hkept
    show (j.completePending a exit).1 = j
    simp [completePending, hnone']
  | discard w' stepName' slots =>
    cases hpair
    apply hkept
    show j.discard w stepName slots = j
    simp [InMemoryJournal.discard, hnone']
  | discardIndex w' stepName' activityIndex =>
    cases hpair
    apply hkept
    show j.discardIndex w stepName activityIndex = j
    simp [discardIndex, hnone']
  | deleteStep w' stepName' =>
    cases hpair
    refine ⟨?_, rfl, rfl⟩
    intro k
    show (j.journal.delete (journalKey w stepName)).get k = j.journal.get k
    rw [get_delete]
    split
    · rename_i hk
      rw [← hk, hnone]
    · rfl
  | findDueSleeps now limit | deleteWorkflow w' => cases hpair

theorem get_deleteWorkflow (j : InMemoryJournal) (w k : String) :
    (j.deleteWorkflow w).journal.get k = if k ∈ j.keysOf w then none else j.journal.get k :=
  get_foldl_delete _ _ _

theorem keysOf_deleteWorkflow (j : InMemoryJournal) (w w' : String) :
    (j.deleteWorkflow w).keysOf w' = if w = w' then [] else j.keysOf w' := by
  simp only [keysOf, deleteWorkflow, get_delete]
  split <;> rfl

theorem step_keysKept (hclean : o.Clean) (h : KeysKept j) :
    KeysKept (journal.next j o) := by
  have hsound := step_sound h.sound o
  cases hpair : o.pair with
  | some p =>
    obtain ⟨w, stepName⟩ := p
    by_cases halone : Alone w stepName
    · exact h.pairWrite halone (step_pairWrite hpair) hsound
    · have hnone : j.journal.get (journalKey w stepName) = none := by
        cases hget : j.journal.get (journalKey w stepName) with
        | none => rfl
        | some slots => exact absurd (h.alone_of_used (by simp [hget])).1 halone
      obtain ⟨hget, hkeys, hsleeps⟩ := step_absent hpair (hclean.no_append hpair halone) hnone
      exact h.congr hsound hget hkeys hsleeps
  | none =>
    cases o with
    | findDueSleeps now limit =>
      obtain ⟨hkept, hold⟩ := findDueSleeps_sleepKeys j now limit
      refine ⟨hsound, h.owned, h.listed, ?_, ?_⟩
      · exact fun k hk => h.scanned k (hold k hk)
      · intro k slots e hget he hsleep
        have hget' : j.journal.get k = some slots := hget
        apply hkept k (h.sleeps k slots e hget' he hsleep)
        rw [hget', hasPendingSleep, List.any_eq_true]
        exact ⟨e, he, by simp [hsleep.1, hsleep.2]⟩
    | deleteWorkflow w =>
      have hget := get_deleteWorkflow j w
      have hkeys := keysOf_deleteWorkflow j w
      refine ⟨hsound, ?_, ?_, h.scanned, ?_⟩
      · intro k hk
        have hk' : ((j.deleteWorkflow w).journal.get k).isSome = true := hk
        rw [hget] at hk'
        split at hk'
        · cases hk'
        · rename_i hleft
          obtain ⟨w', stepName, halone, hkey, hlisted⟩ := h.owned k hk'
          refine ⟨w', stepName, halone, hkey, ?_⟩
          show k ∈ (j.deleteWorkflow w).keysOf w'
          rw [hkeys, if_neg]
          · exact hlisted
          · intro heq
            subst heq
            exact hleft hlisted
      · intro w' k hk
        have hk' : k ∈ (j.deleteWorkflow w).keysOf w' := hk
        rw [hkeys] at hk'
        split at hk'
        · exact absurd hk' not_mem_nil
        · exact h.listed w' k hk'
      · intro k slots e hfound he hsleep
        have hfound' : (j.deleteWorkflow w).journal.get k = some slots := hfound
        rw [hget] at hfound'
        split at hfound'
        · cases hfound'
        · exact h.sleeps k slots e hfound' he hsleep
    | _ => cases hpair

/-! ## Isolation of the journal -/

def dueSleepOf (w stepName : String) (e : JournalEntry) (wakeAt : Int) : DueSleep where
  workflowId := w
  stepName := stepName
  activityIndex := e.activityIndex
  branchPath := e.branchPath
  wakeAt := wakeAt

/-- What a call does to one pair leaves every other alone. -/
structure JournalIsolated (j : InMemoryJournal) : Prop where
  apart : ∀ o w stepName, o.Clean → o.pair ≠ some (w, stepName) → o ≠ .deleteWorkflow w →
    (journal.next j o).entriesOf w stepName = j.entriesOf w stepName
  deleted : ∀ w stepName, (journal.next j (.deleteWorkflow w)).entriesOf w stepName = []
  reported : ∀ now limit, ∀ d ∈ (j.findDueSleeps now limit).2,
    ∃ e ∈ j.entriesOf d.workflowId d.stepName, e.PendingSleep ∧ e.wakeAt = some d.wakeAt ∧
      d.wakeAt ≤ now ∧ d = dueSleepOf d.workflowId d.stepName e d.wakeAt
  /-- Every due sleep is reported under its pair, unless the limit is reached. -/
  complete : ∀ now limit w stepName wakeAt, ∀ e ∈ j.entriesOf w stepName, e.PendingSleep →
    e.wakeAt = some wakeAt → wakeAt ≤ now →
    dueSleepOf w stepName e wakeAt ∈ (j.findDueSleeps now limit).2 ∨
      limit ≤ (j.findDueSleeps now limit).2.length

theorem mem_entriesOf (h : j.Sound) {e : JournalEntry} :
    e ∈ j.entriesOf w stepName ↔
      ∃ slots, j.journal.get (journalKey w stepName) = some slots ∧ e ∈ slots.entries := by
  rw [entriesOf, load_eq h]
  cases hget : j.journalOf w stepName with
  | none =>
    have hget' : j.journal.get (journalKey w stepName) = none := hget
    simp [hget']
  | some slots =>
    have hget' : j.journal.get (journalKey w stepName) = some slots := hget
    simp [hget', JournalSlots.sort, mem_insertionSort]

theorem dueSleep_eq_some_iff (stepName : String) (now : Int) (e : JournalEntry) (d : DueSleep) :
    (match e.wakeAt with
      | some wakeAt =>
        if e.stepType = .sleep ∧ e.phase = .pending ∧ wakeAt ≤ now then
          some (dueSleepOf w stepName e wakeAt)
        else none
      | none => none) = some d ↔ ∃ wakeAt, e.PendingSleep ∧ e.wakeAt = some wakeAt ∧
        wakeAt ≤ now ∧ d = dueSleepOf w stepName e wakeAt := by
  cases e.wakeAt with
  | none => simp
  | some wakeAt =>
    simp only [Option.ite_none_right_eq_some, Option.some.injEq, JournalEntry.PendingSleep]
    constructor
    · intro hdue
      obtain ⟨⟨htype, hphase, hle⟩, heq⟩ := hdue
      exact ⟨wakeAt, ⟨htype, hphase⟩, rfl, hle, heq.symm⟩
    · intro hdue
      obtain ⟨wakeAt', ⟨htype, hphase⟩, rfl, hle, heq⟩ := hdue
      exact ⟨⟨htype, hphase, hle⟩, heq.symm⟩

theorem mem_dueSleepsOf (halone : Alone w stepName) {now : Int} {d : DueSleep} :
    d ∈ dueSleepsOf now (journalKey w stepName) (j.journal.get (journalKey w stepName)) ↔
      ∃ slots, j.journal.get (journalKey w stepName) = some slots ∧ ∃ e ∈ slots.entries,
        ∃ wakeAt, e.PendingSleep ∧ e.wakeAt = some wakeAt ∧ wakeAt ≤ now ∧
          d = dueSleepOf w stepName e wakeAt := by
  have hsplit : splitKey (journalKey w stepName).toList = (w.toList, stepName.toList) :=
    halone.splitKey
  simp only [dueSleepsOf, hsplit, String.ofList_toList, mem_filterMap]
  cases j.journal.get (journalKey w stepName) with
  | none => simp
  | some slots =>
    simp only [Option.map_some, Option.getD_some, Option.some.injEq, exists_eq_left']
    exact exists_congr fun e => and_congr_right fun _ => dueSleep_eq_some_iff stepName now e d

/-- A journal whose used keys each belong to one pair keeps the pairs apart. -/
theorem KeysKept.isolated (h : KeysKept j) : JournalIsolated j where
  apart := by
    intro o w stepName hclean hpair hdelete
    apply entriesOf_congr
    cases ho : o.pair with
    | some p =>
      obtain ⟨w', stepName'⟩ := p
      have hwrite := step_pairWrite (j := j) ho
      by_cases halone : Alone w' stepName'
      · apply hwrite.elsewhere
        intro heq
        obtain ⟨rfl, rfl⟩ := halone.eq heq
        exact hpair ho
      · -- a shared key holds nothing yet
        have hnone : j.journal.get (journalKey w' stepName') = none := by
          cases hget : j.journal.get (journalKey w' stepName') with
          | none => rfl
          | some slots => exact absurd (h.alone_of_used (by simp [hget])).1 halone
        exact (step_absent ho (hclean.no_append ho halone) hnone).1 _
    | none =>
      cases o with
      | findDueSleeps now limit => rfl
      | deleteWorkflow w' =>
        show (j.deleteWorkflow w').journal.get (journalKey w stepName) = _
        rw [get_deleteWorkflow, if_neg]
        · intro hmem
          obtain ⟨stepName', halone, hkey⟩ := h.listed w' _ hmem
          obtain ⟨rfl, -⟩ := halone.eq hkey
          exact hdelete rfl
      | _ => cases ho
  deleted := by
    intro w stepName
    have hgone : (j.deleteWorkflow w).journal.get (journalKey w stepName) = none := by
      rw [get_deleteWorkflow]
      cases hused : j.journal.get (journalKey w stepName) with
      | none => rw [ite_self]
      | some slots => rw [if_pos (h.alone_of_used (by simp [hused])).2]
    show (j.deleteWorkflow w).entriesOf w stepName = []
    have hgone' : (j.deleteWorkflow w).journalOf w stepName = none := hgone
    simp [entriesOf, load, hgone']
  reported := by
    intro now limit d hd
    rw [findDueSleeps_eq] at hd
    obtain ⟨k, hk, hdue⟩ := mem_flatMap.mp (mem_of_mem_take hd)
    obtain ⟨w, stepName, halone, rfl⟩ := h.scanned k hk
    obtain ⟨slots, hget, e, he, wakeAt, hsleep, hwake, hle, rfl⟩ := (mem_dueSleepsOf halone).mp hdue
    exact ⟨e, (mem_entriesOf h.sound).mpr ⟨slots, hget, he⟩, hsleep, hwake, hle, rfl⟩
  complete := by
    intro now limit w stepName wakeAt e he hsleep hwake hle
    obtain ⟨slots, hget, he'⟩ := (mem_entriesOf h.sound).mp he
    have hused : (j.journal.get (journalKey w stepName)).isSome = true := by simp [hget]
    have halone := (h.alone_of_used hused).1
    have hkey := h.sleeps _ slots e hget he' hsleep
    have hdue : dueSleepOf w stepName e wakeAt ∈ j.sleepKeys.flatMap fun key =>
        dueSleepsOf now key (j.journal.get key) :=
      mem_flatMap.mpr ⟨_, hkey,
        (mem_dueSleepsOf halone).mpr ⟨slots, hget, e, he', wakeAt, hsleep, hwake, hle, rfl⟩⟩
    rw [findDueSleeps_eq]
    generalize j.sleepKeys.flatMap (fun key => dueSleepsOf now key (j.journal.get key))
      = all at hdue ⊢
    -- a full answer has as many as were asked for
    by_cases hroom : all.length ≤ (max limit 1).toNat
    · left
      rw [take_of_length_le hroom]
      exact hdue
    · right
      rw [length_take]
      omega

/-! ## The streams -/

inductive StreamOp where
  | append (now : Int) (p : AppendStreamChunkParams)
  | deleteWorkflow (w : String)

def streams : Machine InMemoryStreams StreamOp Unit where
  step s o := match o with
    | .append now p => ((s.append now p).1, ())
    | .deleteWorkflow w => (s.deleteWorkflow w, ())

/-- A chunk goes to a pair that shares its key with no other. -/
def StreamOp.Clean : StreamOp → Prop
  | .append _ p => Alone p.workflowId p.streamId
  | .deleteWorkflow _ => True

variable (s : InMemoryStreams)

def InMemoryStreams.chunksOf (w streamId : String) : List StreamChunk :=
  (s.chunks.get (InMemoryStreams.streamKey w streamId)).getD []

/-- What a call does to one stream leaves every other alone. -/
structure StreamsIsolated (s : InMemoryStreams) : Prop where
  /-- An append changes the chunks of its pair only. -/
  apart : ∀ now p w streamId, Alone p.workflowId p.streamId →
    (p.workflowId, p.streamId) ≠ (w, streamId) →
    (streams.next s (.append now p)).chunksOf w streamId = s.chunksOf w streamId
  /-- Deleting a workflow empties its pairs and no others. -/
  deleted : ∀ w w' streamId, (streams.next s (.deleteWorkflow w)).chunksOf w' streamId =
    if w' = w then [] else s.chunksOf w' streamId

def StreamKeysKept : Prop :=
  ∀ k, (s.chunks.get k).isSome = true → ∃ w streamId, Alone w streamId ∧ k = keyed w streamId

theorem append_elsewhere (now : Int) (p : AppendStreamChunkParams) {k : String}
    (hk : k ≠ keyed p.workflowId p.streamId) :
    (s.append now p).1.chunks.get k = s.chunks.get k := by
  unfold InMemoryStreams.append
  simp only
  split
  · rfl
  · exact get_set_ne _ _ (Ne.symm hk)

theorem step_streamKeysKept {s : InMemoryStreams} {o : StreamOp} (hclean : o.Clean)
    (h : StreamKeysKept s) : StreamKeysKept (streams.next s o) := by
  intro k hk
  cases o with
  | append now p =>
    by_cases heq : k = keyed p.workflowId p.streamId
    · exact ⟨p.workflowId, p.streamId, hclean, heq⟩
    · have hsame : ((s.append now p).1.chunks.get k).isSome = true := hk
      rw [append_elsewhere s now p heq] at hsame
      exact h k hsame
  | deleteWorkflow w =>
    have hleft : ((s.deleteWorkflow w).chunks.get k).isSome = true := hk
    simp only [InMemoryStreams.deleteWorkflow, get_filter] at hleft
    apply h k
    cases hget : s.chunks.get k with
    | none => simp [hget] at hleft
    | some chunks => rfl

theorem StreamKeysKept.isolated {s : InMemoryStreams} (h : StreamKeysKept s) :
    StreamsIsolated s where
  apart := by
    intro now p w streamId halone hpair
    show ((s.append now p).1.chunks.get (keyed w streamId)).getD [] = _
    rw [append_elsewhere s now p]
    · rfl
    · intro heq
      obtain ⟨rfl, rfl⟩ := halone.eq heq
      exact hpair rfl
  deleted := by
    intro w w' streamId
    show ((s.deleteWorkflow w).chunks.get (keyed w' streamId)).getD [] =
      if w' = w then [] else (s.chunks.get (keyed w' streamId)).getD []
    simp only [InMemoryStreams.deleteWorkflow, get_filter]
    cases hget : s.chunks.get (keyed w' streamId) with
    | none => simp
    | some chunks =>
      obtain ⟨w₀, streamId₀, halone, hkey⟩ := h (keyed w' streamId) (by simp [hget])
      obtain ⟨rfl, rfl⟩ := halone.eq hkey
      have hleading := halone.prefix_iff (w := w)
      by_cases hw : w' = w
      · have hdropped := hleading.mpr hw
        rw [if_pos hw, Option.filter_some, hdropped]
        rfl
      · have hleft : (w ++ "::").toList.isPrefixOf (keyed w' streamId).toList = false :=
          Bool.eq_false_iff.mpr fun hdropped => hw (hleading.mp hdropped)
        rw [if_neg hw, Option.filter_some, hleft]
        rfl

/-- In every run of the journal and of the streams whose appends are on pairs with a key of
their own, an operation on a pair leaves the entries and the chunks of every other pair
unchanged, deleting a workflow removes exactly its own, and the due sleeps are reported with
the workflow id and the step name of the entries they come from. -/
theorem keys_isolate {journalOps : List JournalOp} {streamOps : List StreamOp}
    (hjournal : ∀ o ∈ journalOps, JournalOp.Clean o)
    (hstreams : ∀ o ∈ streamOps, StreamOp.Clean o) :
    JournalIsolated (journal.run .new journalOps) ∧
      StreamsIsolated (streams.run .new streamOps) := by
  constructor
  · have hkept : KeysKept (journal.run .new journalOps) :=
      Machine.run_induction_always (fun _ _ ho h => step_keysKept ho h)
        (Machine.always_of_mem hjournal _) keysKept_new
    exact hkept.isolated
  · have hkept : StreamKeysKept (streams.run .new streamOps) :=
      Machine.run_induction_always (fun _ _ ho h => step_streamKeysKept ho h)
        (Machine.always_of_mem hstreams _) fun _ hk => nomatch hk
    exact hkept.isolated

/-- A due sleep in each of two workflows. -/
private def sleepOps : List JournalOp :=
  [.appendPending 0 ⟨"w", "s", 0, none⟩ "nap" none .sleep (some 5),
    .appendPending 0 ⟨"v", "t", 0, none⟩ "nap" none .sleep (some 5)]

/-- A chunk in each of two streams of a workflow. -/
private def chunkOps : List StreamOp :=
  [.append 0 { workflowId := "w", streamId := "out", payload := .null, appendedBy := .workflow },
    .append 0 { workflowId := "w", streamId := "log", payload := .null, appendedBy := .workflow }]

private theorem alone_of_single_colon_free (hw : ':' ∉ w.toList)
    (hname : ':' ∉ name.toList) : Alone w name where
  head := by
    intro h
    obtain ⟨x, y, hxy⟩ := h
    have hcount := congrArg (List.count ':') hxy
    simp [count_eq_zero_of_not_mem hw] at hcount
    omega
  tail := by
    intro h
    obtain ⟨x, y, hxy⟩ := h
    have hcount := congrArg (List.count ':') hxy
    simp [count_eq_zero_of_not_mem hname] at hcount
    omega

theorem keys_isolate_names :
    JournalIsolated (journal.run .new sleepOps) ∧ StreamsIsolated (streams.run .new chunkOps) := by
  have hjournal : ∀ o ∈ sleepOps, JournalOp.Clean o := by
    refine forall_mem_cons.mpr ⟨?_, forall_mem_singleton.mpr ?_⟩
    · exact alone_of_single_colon_free (by decide) (by decide)
    · exact alone_of_single_colon_free (by decide) (by decide)
  have hstreams : ∀ o ∈ chunkOps, StreamOp.Clean o := by
    refine forall_mem_cons.mpr ⟨?_, forall_mem_singleton.mpr ?_⟩
    · exact alone_of_single_colon_free (by decide) (by decide)
    · exact alone_of_single_colon_free (by decide) (by decide)
  exact keys_isolate hjournal hstreams

/-- A sleep under `("a", "b::c")` shows under `("a::b", "c")` and is reported under the step
`b`, and deleting the workflow `a::b` deletes a stream of the workflow `a`. -/
theorem shared_key_counterexample :
    let j := journal.run .new [.appendPending 0 ⟨"a", "b::c", 0, none⟩ "nap" none .sleep (some 5)]
    let s := streams.run .new [.append 0
      { workflowId := "a", streamId := "b::c", payload := .null, appendedBy := .workflow }]
    InMemoryJournal.new.entriesOf "a::b" "c" = [] ∧ (j.entriesOf "a::b" "c").length = 1 ∧
      (j.findDueSleeps 5 10).2.map (fun d => (d.workflowId, d.stepName)) = [("a", "b")] ∧
      (s.chunksOf "a" "b::c").length = 1 ∧
      (streams.next s (.deleteWorkflow "a::b")).chunksOf "a" "b::c" = [] := by
  decide +kernel

end Promin.Durable
