import Promin.ForStd.Text
import Promin.Durable.Journal

/-!
# What a journal write does to an entry

The entries of one step are indexed by slot (`JournalSlots.Sound`), so what is
found at a slot is the entry of that slot.
-/

namespace Promin.Durable

open List JsMap Option

theorem slotKey_inj {a b : JournalSlot} (h : slotKey a = slotKey b) : a = b := by
  have hcolon : ∀ n : Nat, ':' ∉ (toString n).toList := by
    intro n hmem
    rw [show toString n = n.repr from rfl, Nat.toList_repr] at hmem
    exact absurd (Nat.isDigit_of_mem_toDigits (by decide) (by decide) hmem) (by decide)
  have hlist := congrArg String.toList h
  simp only [slotKey, String.toList_append, append_assoc] at hlist
  obtain ⟨hindex, hpath⟩ :=
    append_cons_inj_of_first (hcolon a.activityIndex) (hcolon b.activityIndex) hlist
  cases a
  cases b
  simp only [JournalSlot.mk.injEq]
  exact ⟨Nat.toString_inj (String.toList_injective hindex), String.toList_injective hpath⟩

theorem mem_addKey (keys : List String) (key x : String) :
    x ∈ InMemoryJournal.addKey keys key ↔ x ∈ keys ∨ x = key := by
  simp only [InMemoryJournal.addKey]
  split
  · rename_i hmem
    constructor
    · exact .inl
    · intro hx
      cases hx with
      | inl hold => exact hold
      | inr heq =>
        rw [heq]
        simpa using hmem
  · simp

/-! ## One step's entries -/

namespace JournalSlots

/-- The entries in replay order. -/
def sort (entries : List JournalEntry) : List JournalEntry :=
  entries.insertionSort fun a b => a.before b = true

/-- The position index finds each entry at its slot, the cache is the sorted entries, and
    completed entries have an exit. -/
structure Sound (slots : JournalSlots) : Prop where
  indexed : JsMap.Indexes (fun e : JournalEntry => slotKey e.slot) slots.position slots.entries
  cached : ∀ l, slots.sorted = some l → l = sort slots.entries
  exits : ∀ e ∈ slots.entries, e.phase = .completed → e.exit.isSome = true

variable {slots : JournalSlots}

theorem Sound.entryAt_eq_some_iff (h : slots.Sound) (slot : JournalSlot) (e : JournalEntry) :
    slots.entryAt slot = some e ↔ e ∈ slots.entries ∧ e.slot = slot := by
  unfold entryAt
  rw [h.indexed.find_eq_some_iff]
  exact and_congr_right fun _ => ⟨slotKey_inj, fun he => he ▸ rfl⟩

theorem sound_empty : empty.Sound where
  indexed := indexes_empty
  cached := fun _ h => nomatch h
  exits := fun _ h => absurd h not_mem_nil

theorem Sound.putEntry (h : slots.Sound) {e : JournalEntry}
    (hexit : e.phase = .completed → e.exit.isSome = true) : (slots.putEntry e).Sound := by
  unfold JournalSlots.putEntry
  simp only
  cases hpos : slots.position.get (slotKey e.slot) with
  | some i =>
    refine ⟨h.indexed.replace hpos, (fun _ h => by cases h), fun e' he' => ?_⟩
    rcases mem_or_eq_of_mem_set he' with hmem | rfl
    · exact h.exits e' hmem
    · exact hexit
  | none =>
    refine ⟨h.indexed.snoc hpos, (fun _ h => by cases h), fun e' he' => ?_⟩
    rcases mem_append.mp he' with hmem | hmem
    · exact h.exits e' hmem
    · rw [mem_singleton.mp hmem]
      exact hexit

theorem Sound.entryAt_putEntry (h : slots.Sound) (e : JournalEntry) (slot : JournalSlot) :
    (slots.putEntry e).entryAt slot = if e.slot = slot then some e else slots.entryAt slot := by
  have hkey : slotKey e.slot = slotKey slot ↔ e.slot = slot :=
    ⟨slotKey_inj, fun he => he ▸ rfl⟩
  unfold JournalSlots.putEntry entryAt
  simp only
  cases hpos : slots.position.get (slotKey e.slot) with
  | some i => simp only [h.indexed.find_replace hpos, hkey]
  | none => simp only [h.indexed.find_snoc, hkey]

theorem Sound.filterEntries (h : slots.Sound) (keep : JournalEntry → Bool) :
    (slots.filterEntries keep).Sound where
  indexed := indexes_indexFrom ((filter_sublist.map _).nodup h.indexed.nodup)
  cached := fun _ h => nomatch h
  exits := fun e he => h.exits e (mem_filter.mp he).1

theorem Sound.entryAt_filterEntries (h : slots.Sound) (keep : JournalEntry → Bool)
    (slot : JournalSlot) :
    (slots.filterEntries keep).entryAt slot = (slots.entryAt slot).filter keep :=
  h.indexed.find_filter keep _

end JournalSlots

/-! ## The journal of all steps -/

/-- What a write may do to the entry at a slot. -/
inductive EntryStep : Option JournalEntry → Option JournalEntry → Prop where
  | same (e : Option JournalEntry) : EntryStep e e
  | opened (e : JournalEntry) : EntryStep none (some e)
  | completed {e e' : JournalEntry} (hopen : e.phase = .pending) (hdone : e'.phase = .completed) :
      EntryStep (some e) (some e')

namespace InMemoryJournal

/-- Every step's entries are sound, and the keys listed under a workflow are of its steps. -/
structure Sound (j : InMemoryJournal) : Prop where
  slots : ∀ key slots, j.journal.get key = some slots → slots.Sound
  keys : ∀ w key, key ∈ (j.journalKeys.get w).getD [] → ∃ stepName, key = journalKey w stepName

def entryIn (j : InMemoryJournal) (key : String) (slot : JournalSlot) : Option JournalEntry :=
  (j.journal.get key).bind fun slots => slots.entryAt slot

variable {j : InMemoryJournal}

theorem sound_new : InMemoryJournal.new.Sound where
  slots := fun _ _ h => nomatch h
  keys := fun _ _ h => absurd h not_mem_nil

variable {e : JournalEntry} {stepName w : String} {slots : JournalSlots}

private theorem Sound.putSlots (h : j.Sound)
    (hslots : slots.Sound) : (j.putSlots w stepName slots).Sound where
  slots := by
    intro key slots' hget
    simp only [InMemoryJournal.putSlots, get_set] at hget
    split at hget
    · cases hget
      exact hslots
    · exact h.slots key slots' hget
  keys := h.keys

private theorem entryIn_putSlots (w stepName : String) (slots : JournalSlots) (key : String)
    (slot : JournalSlot) :
    (j.putSlots w stepName slots).entryIn key slot =
      if journalKey w stepName = key then slots.entryAt slot else j.entryIn key slot := by
  simp only [entryIn, InMemoryJournal.putSlots, get_set]
  split <;> rfl

private theorem openJournal_spec (h : j.Sound) (w stepName : String) :
    (j.openJournal w stepName).1.Sound ∧ (j.openJournal w stepName).2.Sound ∧
      (∀ key slot, (j.openJournal w stepName).1.entryIn key slot = j.entryIn key slot) ∧
      ∀ slot, (j.openJournal w stepName).2.entryAt slot =
        j.entryIn (journalKey w stepName) slot := by
  unfold openJournal
  simp only
  cases hget : j.journal.get (journalKey w stepName) with
  | some slots => exact ⟨h, h.slots _ _ hget, fun _ _ => rfl, fun slot => by simp [entryIn, hget]⟩
  | none =>
    refine ⟨⟨?_, ?_⟩, JournalSlots.sound_empty, ?_, fun slot => by simp [entryIn, hget]; rfl⟩
    · intro key slots hkey
      simp only [get_set] at hkey
      split at hkey
      · cases hkey
        exact JournalSlots.sound_empty
      · exact h.slots key slots hkey
    · intro w' key hmem
      simp only [get_set] at hmem
      split at hmem
      · rename_i hw
        subst hw
        simp only [getD_some, addKey] at hmem
        split at hmem
        · exact h.keys w key hmem
        · rcases mem_append.mp hmem with hold | hnew
          · exact h.keys w key hold
          · exact ⟨stepName, mem_singleton.mp hnew⟩
      · exact h.keys w' key hmem
    · intro key slot
      simp only [entryIn, get_set]
      split
      · rename_i hkey
        rw [← hkey, hget]
        rfl
      · rfl

private theorem putEntry_step (h : j.Sound) {a : EntryAddress}
    (hslot : e.slot = a.slot) (hexit : e.phase = .completed → e.exit.isSome = true)
    (hstep : EntryStep (j.entryIn (journalKey a.workflowId a.stepName) a.slot) (some e)) :
    ((j.openJournal a.workflowId a.stepName).1.putSlots a.workflowId a.stepName
      ((j.openJournal a.workflowId a.stepName).2.putEntry e)).Sound ∧
    ∀ key slot, EntryStep (j.entryIn key slot)
      (((j.openJournal a.workflowId a.stepName).1.putSlots a.workflowId a.stepName
        ((j.openJournal a.workflowId a.stepName).2.putEntry e)).entryIn key slot) := by
  obtain ⟨hj, hslots, hsame, hat⟩ := openJournal_spec h a.workflowId a.stepName
  refine ⟨hj.putSlots (hslots.putEntry hexit), fun key slot => ?_⟩
  rw [entryIn_putSlots, hslots.entryAt_putEntry, hsame, hat]
  by_cases hkey : journalKey a.workflowId a.stepName = key
  · subst hkey
    rw [if_pos rfl]
    by_cases hs : e.slot = slot
    · rw [if_pos hs, ← hs, hslot]
      exact hstep
    · rw [if_neg hs]
      exact .same _
  · rw [if_neg hkey]
    exact .same _

theorem append_step (h : j.Sound) (now : Int) (a : EntryAddress) (activityName : String)
    (payloadHash : Option String) (exit : JournalExit) :
    (j.append now a activityName payloadHash exit).Sound ∧
      ∀ key slot, EntryStep (j.entryIn key slot)
        ((j.append now a activityName payloadHash exit).entryIn key slot) := by
  obtain ⟨hj, -, hsame, hat⟩ := openJournal_spec h a.workflowId a.stepName
  unfold append
  simp only
  split
  · refine ⟨hj, fun key slot => ?_⟩
    rw [hsame]
    exact .same _
  · rename_i hpending
    refine putEntry_step h rfl (fun _ => rfl) ?_
    rw [← hat]
    cases hold : (j.openJournal a.workflowId a.stepName).2.entryAt a.slot with
    | none => exact .opened _
    | some e =>
      rw [hold] at hpending
      exact .completed (by simpa using hpending) rfl

theorem appendPending_step (h : j.Sound) (now : Int) (a : EntryAddress) (activityName : String)
    (payloadHash : Option String) (stepType : JournalStepType) (wakeAt : Option Int) :
    (j.appendPending now a activityName payloadHash stepType wakeAt).Sound ∧
      ∀ key slot, EntryStep (j.entryIn key slot)
        ((j.appendPending now a activityName payloadHash stepType wakeAt).entryIn key slot) := by
  obtain ⟨hj, hslots, hsame, hat⟩ := openJournal_spec h a.workflowId a.stepName
  unfold appendPending
  simp only
  split
  · refine ⟨hj, fun key slot => ?_⟩
    rw [hsame]
    exact .same _
  · rename_i hfree
    -- The index has no position for the slot, so there is no entry at it.
    rw [hslots.indexed.has_iff] at hfree
    have hnone : j.entryIn (journalKey a.workflowId a.stepName) a.slot = none := by
      rw [← hat]
      simpa [JournalSlots.entryAt] using hfree
    have hput := putEntry_step h (a := a) (e := {
      activityIndex := a.activityIndex, branchPath := a.branchPath.getD ""
      activityName := activityName, stepType := stepType, phase := .pending
      payloadHash := payloadHash, wakeAt := wakeAt, createdAt := now }) rfl (fun h => nomatch h)
      (by rw [hnone]; exact .opened _)
    split
    · exact ⟨⟨hput.1.slots, hput.1.keys⟩, hput.2⟩
    · exact hput

theorem entryIn_appendPending (h : j.Sound) (now : Int) (a : EntryAddress) (activityName : String)
    (payloadHash : Option String) (stepType : JournalStepType) (wakeAt : Option Int)
    (key : String) (slot : JournalSlot) :
    (j.appendPending now a activityName payloadHash stepType wakeAt).entryIn key slot =
      if journalKey a.workflowId a.stepName = key ∧ a.slot = slot then
        (j.entryIn key slot).or (some {
          activityIndex := a.activityIndex, branchPath := a.branchPath.getD ""
          activityName := activityName, stepType := stepType, phase := .pending
          payloadHash := payloadHash, wakeAt := wakeAt, createdAt := now })
      else j.entryIn key slot := by
  obtain ⟨hj, hslots, hsame, hat⟩ := openJournal_spec h a.workflowId a.stepName
  have hhas : (j.openJournal a.workflowId a.stepName).2.position.has (slotKey a.slot) =
      (j.entryIn (journalKey a.workflowId a.stepName) a.slot).isSome := by
    rw [← hat, hslots.indexed.has_iff]
    rfl
  unfold appendPending
  simp only [hhas]
  cases hold : j.entryIn (journalKey a.workflowId a.stepName) a.slot with
  | some e =>
    simp only [isSome_some, if_true, hsame]
    split
    · rename_i hhere
      rw [← hhere.1, ← hhere.2, hold]
      rfl
    · rfl
  | none =>
    have hput : ∀ e : JournalEntry, e.slot = a.slot →
        ((j.openJournal a.workflowId a.stepName).1.putSlots a.workflowId a.stepName
          ((j.openJournal a.workflowId a.stepName).2.putEntry e)).entryIn key slot =
        if journalKey a.workflowId a.stepName = key ∧ a.slot = slot then
          (j.entryIn key slot).or (some e) else j.entryIn key slot := by
      intro e he
      rw [entryIn_putSlots, hslots.entryAt_putEntry, hsame, hat, he]
      by_cases hkey : journalKey a.workflowId a.stepName = key
      · by_cases hslot : a.slot = slot
        · rw [if_pos hkey, if_pos hslot, if_pos ⟨hkey, hslot⟩, ← hkey, ← hslot, hold]
          rfl
        · rw [if_pos hkey, if_neg hslot, if_neg fun hboth => hslot hboth.2, hkey]
      · rw [if_neg hkey, if_neg fun hboth => hkey hboth.1]
    simp only [isSome_none, Bool.false_eq_true, if_false]
    -- The set of sleeping journals is no part of what is found at a slot.
    split
    · exact hput _ rfl
    · exact hput _ rfl

theorem entryIn_of_journalOf (hget : j.journalOf w stepName = some slots) (slot : JournalSlot) :
    j.entryIn (journalKey w stepName) slot = slots.entryAt slot := by
  have hget' : j.journal.get (journalKey w stepName) = some slots := hget
  simp [entryIn, hget']

private theorem putSlots_putEntry_step (h : j.Sound) (hget : j.journalOf w stepName = some slots)
    (hexit : e.phase = .completed → e.exit.isSome = true)
    (hstep : EntryStep (slots.entryAt e.slot) (some e)) :
    (j.putSlots w stepName (slots.putEntry e)).Sound ∧
      ∀ key slot, EntryStep (j.entryIn key slot)
        ((j.putSlots w stepName (slots.putEntry e)).entryIn key slot) := by
  have hslots : slots.Sound := h.slots _ _ hget
  refine ⟨h.putSlots (hslots.putEntry hexit), fun key slot => ?_⟩
  rw [entryIn_putSlots, hslots.entryAt_putEntry]
  by_cases hkey : journalKey w stepName = key
  · subst hkey
    rw [if_pos rfl, entryIn_of_journalOf hget]
    by_cases hs : e.slot = slot
    · rw [if_pos hs, ← hs]
      exact hstep
    · rw [if_neg hs]
      exact .same _
  · rw [if_neg hkey]
    exact .same _

theorem completePending_step (h : j.Sound) (a : EntryAddress) (exit : JournalExit) :
    (j.completePending a exit).1.Sound ∧
      ∀ key slot, EntryStep (j.entryIn key slot)
        ((j.completePending a exit).1.entryIn key slot) := by
  unfold completePending
  cases hget : j.journalOf a.workflowId a.stepName with
  | none => exact ⟨h, fun _ _ => .same _⟩
  | some slots =>
    simp only
    cases hat : slots.entryAt a.slot with
    | none => exact ⟨h, fun _ _ => .same _⟩
    | some e =>
      simp only
      split
      · exact ⟨h, fun _ _ => .same _⟩
      · rename_i hpending
        have hslot : e.slot = a.slot := (((h.slots _ _ hget).entryAt_eq_some_iff _ _).mp hat).2
        refine putSlots_putEntry_step h hget (fun _ => rfl) ?_
        have hold : slots.entryAt e.slot = some e := by rw [hslot, hat]
        exact hold ▸ .completed (not_not.mp hpending) rfl

theorem entryIn_completePending (h : j.Sound) (a : EntryAddress) (exit : JournalExit)
    (key : String) (slot : JournalSlot) :
    (j.completePending a exit).1.entryIn key slot =
      if journalKey a.workflowId a.stepName = key ∧ a.slot = slot then
        (j.entryIn key slot).map fun e =>
          if e.phase = .pending then { e with phase := .completed, exit := some exit } else e
      else j.entryIn key slot := by
  unfold completePending
  cases hget : j.journalOf a.workflowId a.stepName with
  | none =>
    have hnone : j.entryIn (journalKey a.workflowId a.stepName) slot = none := by
      have hget' : j.journal.get (journalKey a.workflowId a.stepName) = none := hget
      simp [entryIn, hget']
    simp only
    split
    · rename_i hhere
      rw [← hhere.1, hnone]
      rfl
    · rfl
  | some slots =>
    have hslots := h.slots _ _ hget
    have hat := entryIn_of_journalOf hget
    simp only
    cases hold : slots.entryAt a.slot with
    | none =>
      simp only
      split
      · rename_i hhere
        rw [← hhere.1, ← hhere.2, hat, hold]
        rfl
      · rfl
    | some e =>
      have hslot : e.slot = a.slot := ((hslots.entryAt_eq_some_iff _ _).mp hold).2
      by_cases hpending : e.phase = .pending
      · simp only [hpending, ne_eq, not_true_eq_false, if_false]
        have hdone : ({ e with phase := .completed, exit := some exit } : JournalEntry).slot =
            a.slot := hslot
        rw [entryIn_putSlots, hslots.entryAt_putEntry, hdone]
        by_cases hkey : journalKey a.workflowId a.stepName = key
        · subst hkey
          rw [if_pos rfl]
          by_cases hs : a.slot = slot
          · subst hs
            rw [if_pos rfl, if_pos ⟨rfl, rfl⟩, hat, hold, map_some, if_pos hpending]
          · rw [if_neg hs, if_neg fun hboth => hs hboth.2, hat]
        · rw [if_neg hkey, if_neg fun hboth => hkey hboth.1]
      · simp only [ne_eq, hpending, not_false_eq_true, if_true]
        split
        · rename_i hhere
          rw [← hhere.1, ← hhere.2, hat, hold, map_some, if_neg hpending]
        · rfl

theorem completePending_answer (h : j.Sound) (a : EntryAddress) (exit : JournalExit)
    (hat : j.entryIn (journalKey a.workflowId a.stepName) a.slot = some e) :
    ∃ stored e', (j.completePending a exit).1.entryIn (journalKey a.workflowId a.stepName)
        a.slot = some e' ∧ e'.phase = .completed ∧ e'.exit = some stored ∧
      (j.completePending a exit).2.exit = some stored ∧
      ((j.completePending a exit).2.completed = true →
        sameStoredValue stored.toJs exit.toJs = true) := by
  unfold completePending
  cases hget : j.journalOf a.workflowId a.stepName with
  | none =>
    have hget' : j.journal.get (journalKey a.workflowId a.stepName) = none := hget
    simp [entryIn, hget'] at hat
  | some slots =>
    have hslots := h.slots _ _ hget
    rw [entryIn_of_journalOf hget] at hat
    simp only [hat]
    split
    · rename_i hdone
      have hphase : e.phase = .completed := by
        cases hp : e.phase with
        | pending => exact absurd hp hdone
        | completed => rfl
      obtain ⟨stored, hstored⟩ := isSome_iff_exists.mp
        (hslots.exits e ((hslots.entryAt_eq_some_iff _ _).mp hat).1 hphase)
      refine ⟨stored, e, by rw [entryIn_of_journalOf hget, hat], hphase, hstored, hstored, ?_⟩
      rw [hstored]
      exact id
    · refine ⟨exit, { e with phase := .completed, exit := some exit }, ?_, rfl, rfl, rfl,
        fun _ => sameStoredValue_refl _⟩
      have hslot : e.slot = a.slot := ((hslots.entryAt_eq_some_iff _ _).mp hat).2
      rw [entryIn_putSlots, if_pos rfl, hslots.entryAt_putEntry]
      exact if_pos hslot

/-! ## Dropping entries -/

theorem Sound.discard (h : j.Sound) (w stepName : String) (drop : List JournalSlot) :
    (j.discard w stepName drop).Sound := by
  unfold InMemoryJournal.discard
  cases hget : j.journalOf w stepName with
  | none => exact h
  | some slots => exact h.putSlots ((h.slots _ _ hget).filterEntries _)

theorem Sound.discardIndex (h : j.Sound) (w stepName : String) (activityIndex : Nat) :
    (j.discardIndex w stepName activityIndex).Sound := by
  unfold InMemoryJournal.discardIndex
  cases hget : j.journalOf w stepName with
  | none => exact h
  | some slots => exact h.putSlots ((h.slots _ _ hget).filterEntries _)

theorem entryIn_discard (h : j.Sound) (w stepName : String) (drop : List JournalSlot)
    (key : String) (slot : JournalSlot) :
    (j.discard w stepName drop).entryIn key slot =
      if journalKey w stepName = key ∧ slot ∈ drop then none else j.entryIn key slot := by
  unfold InMemoryJournal.discard
  cases hget : j.journalOf w stepName with
  | none =>
    by_cases hkey : journalKey w stepName = key
    · subst hkey
      have hnone : j.entryIn (journalKey w stepName) slot = none := by
        have hget' : j.journal.get (journalKey w stepName) = none := hget
        simp [entryIn, hget']
      simp only [hnone, ite_self]
    · simp [hkey]
  | some slots =>
    have hslots := h.slots _ _ hget
    simp only
    rw [entryIn_putSlots, hslots.entryAt_filterEntries]
    by_cases hkey : journalKey w stepName = key
    · subst hkey
      rw [if_pos rfl, entryIn_of_journalOf hget]
      cases hat : slots.entryAt slot with
      | none => simp
      | some e =>
        have hslot : e.slot = slot := ((hslots.entryAt_eq_some_iff _ _).mp hat).2
        have hdrop : (drop.map slotKey).contains (slotKey e.slot) = decide (slot ∈ drop) := by
          rw [contains_eq_mem, hslot]
          refine decide_eq_decide.mpr ⟨fun hmem => ?_, mem_map_of_mem⟩
          obtain ⟨slot', hslot', hk⟩ := mem_map.mp hmem
          exact slotKey_inj hk ▸ hslot'
        simp only [filter_some, hdrop, true_and]
        by_cases hmem : slot ∈ drop <;> simp [hmem]
    · simp [hkey]

theorem Sound.deleteStep (h : j.Sound) (w stepName : String) : (j.deleteStep w stepName).Sound where
  slots := by
    intro key slots hget
    simp only [InMemoryJournal.deleteStep, get_delete] at hget
    split at hget
    · cases hget
    · exact h.slots key slots hget
  keys := h.keys

theorem entryIn_deleteStep (w stepName key : String) (slot : JournalSlot) :
    (j.deleteStep w stepName).entryIn key slot =
      if journalKey w stepName = key then none else j.entryIn key slot := by
  simp only [entryIn, InMemoryJournal.deleteStep, get_delete]
  split <;> rfl

theorem Sound.deleteWorkflow (h : j.Sound) (w : String) : (j.deleteWorkflow w).Sound where
  slots := by
    intro key slots hget
    simp only [InMemoryJournal.deleteWorkflow, get_foldl_delete] at hget
    split at hget
    · cases hget
    · exact h.slots key slots hget
  keys := by
    intro w' key hmem
    simp only [InMemoryJournal.deleteWorkflow, get_delete] at hmem
    split at hmem
    · exact absurd hmem not_mem_nil
    · exact h.keys w' key hmem

theorem entryIn_deleteWorkflow (w key : String) (slot : JournalSlot) :
    (j.deleteWorkflow w).entryIn key slot =
      if key ∈ (j.journalKeys.get w).getD [] then none else j.entryIn key slot := by
  simp only [entryIn, InMemoryJournal.deleteWorkflow, get_foldl_delete]
  split <;> rfl

/-! ## Loading -/

theorem load_eq (h : j.Sound) (w stepName : String) :
    (j.load w stepName).2 =
      ((j.journalOf w stepName).map fun slots => JournalSlots.sort slots.entries).getD [] := by
  unfold load
  cases hget : j.journalOf w stepName with
  | none => rfl
  | some slots =>
    simp only
    cases hsorted : slots.sorted with
    | none => rfl
    | some l => exact (h.slots _ _ hget).cached l hsorted

theorem load_step (h : j.Sound) (w stepName : String) :
    (j.load w stepName).1.Sound ∧
      ∀ key slot, (j.load w stepName).1.entryIn key slot = j.entryIn key slot := by
  unfold load
  cases hget : j.journalOf w stepName with
  | none => exact ⟨h, fun _ _ => rfl⟩
  | some slots =>
    simp only
    cases hsorted : slots.sorted with
    | some l => exact ⟨h, fun _ _ => rfl⟩
    | none =>
      have hslots := h.slots _ _ hget
      refine ⟨h.putSlots ⟨hslots.indexed, ?_, hslots.exits⟩, fun key slot => ?_⟩
      · rintro l ⟨⟩
        rfl
      · rw [entryIn_putSlots]
        split
        · rename_i hkey
          rw [← hkey, entryIn_of_journalOf hget]
          rfl
        · rfl

end InMemoryJournal

end Promin.Durable
