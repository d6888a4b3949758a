import Promin.Agent.VersionedRegistry
import Promin.ForStd.Text

/-!
# One id of the versioned registry

`HeadOk` says what the five writes of the registry keep of one id: the active
pointer names a live version exactly while there is one, the history names other
live versions once each, and sequence numbers stay below the next one.
-/

namespace Promin.Agent

open InMemoryVersionedRegistry JsMap Head
open List hiding removeAll

/-! ## What is kept of one id -/

def Head.IsLive (head : Head) (version : String) : Prop :=
  ∃ row, head.rows.get version = some row ∧ row.removed = false

/-- A row stored under the label `v` of an id whose next number is `nextSeq`. -/
structure RowOk (sha256 : String → String) (nextSeq : Nat) (v : String) (row : Row) : Prop where
  keyed : row.version = v
  seq_lt : row.seq < nextSeq
  hashed : row.hash = contentHash sha256 row.body

structure HeadOk (sha256 : String → String) (head : Head) : Prop where
  rows : ∀ v row, head.rows.get v = some row → RowOk sha256 head.nextSeq v row
  active_live : ∀ v, head.active = some v → head.IsLive v
  live_active : ∀ v, head.IsLive v → head.active ≠ none
  history_live : ∀ v ∈ head.history, head.IsLive v
  history_nodup : head.history.Nodup
  active_not_mem : ∀ v, head.active = some v → v ∉ head.history

structure SameVersion (row row' : Row) : Prop where
  version : row'.version = row.version
  seq : row'.seq = row.seq
  body : row'.body = row.body
  hash : row'.hash = row.hash
  facets : row'.facets = row.facets
  createdAt : row'.createdAt = row.createdAt
  source : row'.source = row.source

variable {v : String} {row : Row} {head head' : Head}

theorem RowOk.mono {sha256 : String → String} {n n' : Nat}
    (h : RowOk sha256 n v row) (hle : n ≤ n') : RowOk sha256 n' v row :=
  ⟨h.keyed, Nat.lt_of_lt_of_le h.seq_lt hle, h.hashed⟩

theorem SameVersion.refl (row : Row) : SameVersion row row := ⟨rfl, rfl, rfl, rfl, rfl, rfl, rfl⟩

/-- Every version of `head` is still there in `head'`, and numbers only go up. -/
structure Head.Kept (head head' : Head) : Prop where
  rows : ∀ v row, head.rows.get v = some row →
    ∃ row', head'.rows.get v = some row' ∧ SameVersion row row'
  nextSeq : head.nextSeq ≤ head'.nextSeq

variable {sha256 : String → String}

theorem headOk_new : HeadOk sha256 Head.new := by
  constructor <;> simp [Head.new, Head.IsLive]

theorem Head.Kept.of_rows (hrows : head'.rows = head.rows)
    (hseq : head'.nextSeq = head.nextSeq) : head.Kept head' where
  rows v row h := ⟨row, by rw [hrows]; exact h, .refl row⟩
  nextSeq := Nat.le_of_eq hseq.symm

theorem Head.Kept.set {row' : Row}
    (hget : head.rows.get v = some row) (hsame : SameVersion row row')
    (hrows : head'.rows = head.rows.set v row') (hseq : head'.nextSeq = head.nextSeq) :
    head.Kept head' where
  rows := by
    intro v' other hother
    rw [hrows, get_set]
    by_cases hv : v = v'
    · subst hv
      rw [hget] at hother
      cases hother
      exact ⟨row', by simp, hsame⟩
    · exact ⟨other, by simp [hv, hother], .refl other⟩
  nextSeq := Nat.le_of_eq hseq.symm

/-! ## The helpers -/

theorem mem_pushHistory {history : List String} {previous : Option String} {next v : String} :
    v ∈ pushHistory history previous next ↔
      v ≠ next ∧ (previous = some v ∨ v ∈ history) := by
  unfold pushHistory
  cases previous with
  | none => simp [and_comm]
  | some active =>
    by_cases hne : active = next
    · subst hne
      by_cases hv : v = active
      · simp [hv]
      · simp [hv, Ne.symm hv]
    · by_cases hv : v = active
      · subst hv
        simp [hne]
      · by_cases hvn : v = next
        · subst hvn
          simp [hne, hv]
        · simp [hne, hv, hvn, Ne.symm hv]

theorem nodup_pushHistory {history : List String} (h : history.Nodup) (previous : Option String)
    (next : String) : (pushHistory history previous next).Nodup := by
  unfold pushHistory
  cases previous with
  | none => exact h.filter _
  | some active =>
    simp only
    split
    · rw [nodup_append]
      refine ⟨h.filter _, by simp, ?_⟩
      intro v hv w hw hvw
      rw [mem_singleton.mp hw] at hvw
      simp [hvw] at hv
    · exact h.filter _

theorem nextActiveVersion_cases (promote : Option String) (history live : List String) :
    (∃ v, promote = some v ∧ nextActiveVersion promote history live = some v) ∨
      (∃ v ∈ live, nextActiveVersion promote history live = some v) ∨
      (live = [] ∧ nextActiveVersion promote history live = none) := by
  unfold nextActiveVersion
  cases promote with
  | some v => exact .inl ⟨v, rfl, rfl⟩
  | none =>
    right
    simp only
    cases hfind : history.reverse.find? live.contains with
    | some v =>
      have hlive := List.find?_some hfind
      exact .inl ⟨v, by simpa using hlive, rfl⟩
    | none =>
      cases live with
      | nil => exact .inr ⟨rfl, rfl⟩
      | cons v rest =>
        left
        exact ⟨_, getLast_mem (by simp), List.getLast?_eq_getLast_of_ne_nil (by simp)⟩

theorem versionLabelOf_inj {m n : Nat} (h : versionLabelOf m = versionLabelOf n) : m = n :=
  Nat.append_toString_inj "v" h

private theorem autoVersionLabel_spec (taken : String → Bool) (tries seq : Nat) :
    taken (autoVersionLabel taken tries seq) = false ∨
      ∀ i ≤ tries, taken (versionLabelOf (seq + i)) = true := by
  induction tries generalizing seq with
  | zero =>
    unfold autoVersionLabel
    cases htaken : taken (versionLabelOf seq) with
    | false => exact .inl rfl
    | true =>
      right
      intro i hi
      have hzero : i = 0 := by omega
      rw [hzero]
      exact htaken
  | succ tries ih =>
    unfold autoVersionLabel
    cases htaken : taken (versionLabelOf seq) with
    | false =>
      left
      simp [htaken]
    | true =>
      rcases ih (seq + 1) with hfree | hall
      · left
        simpa using hfree
      · right
        intro i hi
        cases i with
        | zero => exact htaken
        | succ i =>
          have hrest := hall i (by omega)
          rw [show seq + (i + 1) = seq + 1 + i by omega]
          exact hrest

theorem autoVersionLabel_free (rows : JsMap String Row) (seq : Nat) :
    rows.get (autoVersionLabel rows.has rows.size seq) = none := by
  rcases autoVersionLabel_spec rows.has rows.size seq with hfree | hall
  · simpa [JsMap.has] using hfree
  · -- One label too many would be taken.
    have hnodup : ((List.range (rows.size + 1)).map fun i => versionLabelOf (seq + i)).Nodup := by
      apply List.Nodup.map _ nodup_range
      intro i j hij
      have := versionLabelOf_inj hij
      omega
    have hle := length_le_size (m := rows) hnodup (by
      intro label hlabel
      obtain ⟨i, hi, rfl⟩ := mem_map.mp hlabel
      have hi' := mem_range.mp hi
      exact hall i (by omega))
    simp at hle

/-! ## One write on one head -/

theorem isLive_set (hrows : head'.rows = head.rows.set v row) (w : String) :
    head'.IsLive w ↔ (w = v ∧ row.removed = false) ∨ (w ≠ v ∧ head.IsLive w) := by
  simp only [IsLive, hrows, get_set]
  by_cases hw : v = w
  · subst hw
    simp
  · simp [hw, Ne.symm hw]

section

variable (h : HeadOk sha256 head)
include h

theorem HeadOk.setSwitch (enabled : Option Bool) :
    HeadOk sha256 (head.setSwitch enabled) :=
  ⟨h.rows, h.active_live, h.live_active, h.history_live, h.history_nodup,
    h.active_not_mem⟩

theorem HeadOk.rewrite {row' : Row}
    (hget : head.rows.get v = some row) (hsame : SameVersion row row')
    (hremoved : row'.removed = row.removed) :
    HeadOk sha256 { head with rows := head.rows.set v row' } := by
  have hlive : ∀ w, IsLive { head with rows := head.rows.set v row' } w ↔ head.IsLive w := by
    intro w
    rw [isLive_set rfl]
    by_cases hw : w = v
    · subst hw
      simp [IsLive, hget, hremoved]
    · simp [hw]
  exact {
    rows := by
      intro w other hother
      simp only [get_set] at hother
      split at hother
      · rename_i hw
        cases hother
        have hok := h.rows v row hget
        refine ⟨(hsame.version.trans hok.keyed).trans hw, ?_, ?_⟩
        · rw [hsame.seq]
          exact hok.seq_lt
        · rw [hsame.hash, hsame.body]
          exact hok.hashed
      · exact h.rows w other hother
    active_live := fun w hw => (hlive w).mpr (h.active_live w hw)
    live_active := fun w hw => h.live_active w ((hlive w).mp hw)
    history_live := fun w hw => (hlive w).mpr (h.history_live w hw)
    history_nodup := h.history_nodup
    active_not_mem := h.active_not_mem }

theorem HeadOk.promoted (hv : head.IsLive v) :
    HeadOk sha256
      { head with history := pushHistory head.history head.active v, active := some v } where
  rows := h.rows
  active_live := by
    intro w hw
    cases hw
    exact hv
  live_active := by simp
  history_live := by
    intro w hw
    obtain ⟨-, hactive | hmem⟩ := mem_pushHistory.mp (show w ∈ pushHistory _ _ _ from hw)
    · exact h.active_live w hactive
    · exact h.history_live w hmem
  history_nodup := nodup_pushHistory h.history_nodup head.active v
  active_not_mem := by
    intro w hw hmem
    cases hw
    exact (mem_pushHistory.mp (show v ∈ pushHistory _ _ _ from hmem)).1 rfl

private theorem HeadOk.activate {stored : Head} (row : Row)
    (hrows : stored.rows = head.rows.set row.version row) (hlive : row.removed = false)
    (hrow : RowOk sha256 stored.nextSeq row.version row) (hnext : head.nextSeq ≤ stored.nextSeq)
    (hactive : stored.active = head.active) (hhistory : stored.history = head.history)
    (promote : Bool) : HeadOk sha256 (stored.activate promote row.version) := by
  have hset := isLive_set hrows
  have hold : ∀ v, head.IsLive v → stored.IsLive v := by
    intro v hv
    rw [hset]
    by_cases hvr : v = row.version
    · exact .inl ⟨hvr, hlive⟩
    · exact .inr ⟨hvr, hv⟩
  have hstored : stored.IsLive row.version := (hset _).mpr (.inl ⟨rfl, hlive⟩)
  have hrowsOk : ∀ v other, stored.rows.get v = some other →
      RowOk sha256 stored.nextSeq v other := by
    intro v other hget
    rw [hrows, get_set] at hget
    split at hget
    · rename_i hv
      cases hget
      exact hv ▸ hrow
    · exact (h.rows v other hget).mono hnext
  unfold Head.activate
  cases hcase : stored.active with
  | none =>
    exact {
      rows := hrowsOk
      active_live := by
        intro v hv
        cases hv
        exact hstored
      live_active := by simp
      history_live := by simp
      history_nodup := by simp
      active_not_mem := by simp }
  | some active =>
    have hok : HeadOk sha256 stored := {
      rows := hrowsOk
      active_live := fun v hv => hold v (h.active_live v (hactive ▸ hv))
      live_active := by simp [hcase]
      history_live := fun v hv => hold v (h.history_live v (hhistory ▸ hv))
      history_nodup := hhistory ▸ h.history_nodup
      active_not_mem := by
        intro v hv
        rw [hhistory]
        exact h.active_not_mem v (hactive ▸ hv) }
    simp only
    split
    · have hpromoted := hok.promoted hstored
      rw [hcase] at hpromoted
      exact hpromoted
    · exact hok

end

private theorem activate_rest (head : Head) (promote : Bool) (version : String)
    (enabled : Option Bool) :
    ((head.activate promote version).setSwitch enabled).rows = head.rows ∧
      ((head.activate promote version).setSwitch enabled).nextSeq = head.nextSeq := by
  unfold activate
  split
  · exact ⟨rfl, rfl⟩
  · split <;> exact ⟨rfl, rfl⟩

/-- A register stores a new row under a free version, or brings the stored row back. -/
theorem store_cases (h : HeadOk sha256 head) (now : Int) (input : RegisterVersionInput)
    (prepared : PreparedRegister) {stored : Option Row}
    (hstored : ∀ row ∈ stored, head.rows.get row.version = some row)
    (hnew : stored = none → ∀ v ∈ input.version, head.rows.get v = none)
    (hprepared : prepared.hash = contentHash sha256 prepared.body) (enabled : Option Bool) :
    ∃ head' row, (((head.store now input prepared stored).1.activate input.promote
        (head.store now input prepared stored).2.version).setSwitch enabled) = head' ∧
      (head.store now input prepared stored).2 = row ∧
      HeadOk sha256 head' ∧ head.Kept head' ∧ head'.rows.get row.version = some row ∧
      ((∃ old ∈ stored, SameVersion old row ∧ head'.nextSeq = head.nextSeq) ∨
        (stored = none ∧ row = newRow head now input prepared ∧
          head.rows.get row.version = none ∧ head'.nextSeq = head.nextSeq + 1)) := by
  refine ⟨_, _, rfl, rfl, ?_⟩
  have hrest := activate_rest (head.store now input prepared stored).1 input.promote
    (head.store now input prepared stored).2.version enabled
  rw [hrest.1, hrest.2]
  have hkept : ∀ head' : Head, head.Kept (head.store now input prepared stored).1 →
      head'.rows = (head.store now input prepared stored).1.rows →
      head'.nextSeq = (head.store now input prepared stored).1.nextSeq → head.Kept head' :=
    fun head' h hrows hseq => ⟨by rw [hrows]; exact h.rows, by rw [hseq]; exact h.nextSeq⟩
  cases stored with
  | some old =>
    have hold := hstored old rfl
    have hsame : SameVersion old { old with removed := false } :=
      ⟨rfl, rfl, rfl, rfl, rfl, rfl, rfl⟩
    refine ⟨?_, ?_, ?_, .inl ⟨old, rfl, hsame, rfl⟩⟩
    · have hrows : (head.store now input prepared (some old)).1.rows =
          head.rows.set old.version { old with removed := false } := rfl
      have holdOk := h.rows old.version old hold
      have hrow : RowOk sha256 (head.store now input prepared (some old)).1.nextSeq old.version
          { old with removed := false } := ⟨rfl, holdOk.seq_lt, holdOk.hashed⟩
      have hok := h.activate { old with removed := false } hrows rfl hrow (Nat.le_refl _) rfl rfl
        input.promote
      exact hok.setSwitch enabled
    · exact hkept _ (.set hold hsame rfl rfl) hrest.1 hrest.2
    · simp [store]
  | none =>
    have hfree : head.rows.get (newRow head now input prepared).version = none := by
      simp only [newRow]
      cases hversion : input.version with
      | some v => exact hnew rfl v hversion
      | none => exact autoVersionLabel_free head.rows head.nextSeq
    refine ⟨?_, ?_, ?_, .inr ⟨rfl, rfl, hfree, rfl⟩⟩
    · have hrows : (head.store now input prepared none).1.rows =
          head.rows.set (newRow head now input prepared).version
            (newRow head now input prepared) := rfl
      have hrow : RowOk sha256 (head.store now input prepared none).1.nextSeq
          (newRow head now input prepared).version (newRow head now input prepared) :=
        ⟨rfl, Nat.lt_succ_self _, hprepared⟩
      have hok := h.activate (newRow head now input prepared) hrows rfl hrow (Nat.le_succ _) rfl rfl
        input.promote
      exact hok.setSwitch enabled
    · apply hkept _ _ hrest.1 hrest.2
      constructor
      · intro v row hget
        have hne : (newRow head now input prepared).version ≠ v := by
          intro heq
          rw [heq, hget] at hfree
          cases hfree
        refine ⟨row, ?_, .refl row⟩
        simp only [store, get_set_ne _ _ hne]
        exact hget
      · exact Nat.le_succ _
    · simp [store]

private theorem foldl_preferred (hash : String) (rows : List Row) (best : Option Row) :
    ∀ row ∈ rows.foldl (preferred hash) best, best = some row ∨ (row ∈ rows ∧ row.hash = hash) := by
  refine List.foldlRecOn (motive := fun best' : Option Row => ∀ row ∈ best', best = some row ∨
    (row ∈ rows ∧ row.hash = hash)) _ _ (fun row h => .inl h) ?_
  intro best' ih candidate hmem row hrow
  unfold preferred at hrow
  split at hrow
  · exact ih row hrow
  · rename_i hhash
    have hcandidate : some candidate = some row → row ∈ rows ∧ row.hash = hash := by
      rintro ⟨rfl⟩
      exact ⟨hmem, by simpa using hhash⟩
    cases best' with
    | none => exact .inr (hcandidate hrow)
    | some old =>
      simp only at hrow
      split at hrow
      · exact .inr (hcandidate hrow)
      · exact ih row hrow

theorem namedRow_spec {kind : String} (h : HeadOk sha256 head)
    {input : RegisterVersionInput} {hash : String} {stored : Option Row}
    (hnamed : namedRow kind head input hash = .ok stored) :
    (∀ row ∈ stored, head.rows.get row.version = some row ∧ row.hash = hash) ∧
      (stored = none → ∀ v ∈ input.version, head.rows.get v = none) := by
  unfold namedRow at hnamed
  cases hversion : input.version with
  | some v =>
    simp only [hversion] at hnamed
    cases hget : head.rows.get v with
    | none =>
      simp only [hget, Except.ok.injEq] at hnamed
      subst hnamed
      simp [hget]
    | some row =>
      simp only [hget] at hnamed
      split at hnamed
      · cases hnamed
      · rename_i hhash
        cases hnamed
        refine ⟨?_, fun h => by cases h⟩
        intro other hother
        cases hother
        refine ⟨?_, by simpa using hhash⟩
        rw [(h.rows v row hget).keyed]
        exact hget
  | none =>
    simp only [hversion, Except.ok.injEq] at hnamed
    refine ⟨?_, by simp⟩
    intro row hrow
    rw [← hnamed] at hrow
    rcases foldl_preferred hash head.rows.values none row hrow with hnone | ⟨hmem, hhash⟩
    · cases hnone
    · obtain ⟨v, hget⟩ := (mem_values_iff _ row).mp hmem
      refine ⟨?_, hhash⟩
      rw [(h.rows v row hget).keyed]
      exact hget

theorem removeAll_ok (h : HeadOk sha256 head) :
    HeadOk sha256 (removeAll head) ∧ head.Kept (removeAll head) := by
  have hrows : ∀ v row, (removeAll head).rows.get v = some row →
      ∃ old, head.rows.get v = some old ∧ row = { old with removed := true } := by
    intro v row hget
    simp only [removeAll, get_mapValues, Option.map_eq_some_iff] at hget
    obtain ⟨old, hold, heq⟩ := hget
    exact ⟨old, hold, heq.symm⟩
  constructor
  · exact {
      rows := by
        intro v row hget
        obtain ⟨old, hold, rfl⟩ := hrows v row hget
        have hok := h.rows v old hold
        exact ⟨hok.keyed, hok.seq_lt, hok.hashed⟩
      active_live := by simp [removeAll]
      live_active := by
        rintro v ⟨row, hget, hlive⟩
        obtain ⟨old, -, rfl⟩ := hrows v row hget
        cases hlive
      history_live := by simp [removeAll]
      history_nodup := by simp [removeAll]
      active_not_mem := by simp [removeAll] }
  · constructor
    · intro v row hget
      refine ⟨{ row with removed := true }, ?_, ⟨rfl, rfl, rfl, rfl, rfl, rfl, rfl⟩⟩
      simp [removeAll, get_mapValues, hget]
    · exact Nat.le_refl _

theorem mem_live_iff (hkeyed : ∀ v row, head.rows.get v = some row → row.version = v)
    (v : String) : v ∈ head.live.map (·.version) ↔ head.IsLive v := by
  simp only [live, mem_map, mem_insertionSort, mem_filter, mem_values_iff]
  constructor
  · rintro ⟨row, ⟨⟨w, hget⟩, hlive⟩, rfl⟩
    rw [hkeyed w row hget]
    exact ⟨row, hget, by simpa using hlive⟩
  · rintro ⟨row, hget, hlive⟩
    exact ⟨row, ⟨⟨v, hget⟩, by simp [hlive]⟩, hkeyed v row hget⟩

/-- Removing the active version makes the requested, the last active or a live version active. -/
theorem removeVersion_ok (h : HeadOk sha256 head)
    {promote : Option String} (hget : head.rows.get v = some row)
    (hpromote : ∀ w ∈ promote, head.active = some v → head.IsLive w ∧ w ≠ v) :
    HeadOk sha256 (removeVersion head v row promote) ∧
      head.Kept (removeVersion head v row promote) := by
  have hsame : SameVersion row { row with removed := true } := ⟨rfl, rfl, rfl, rfl, rfl, rfl, rfl⟩
  have hlive : ∀ w, (removeVersion head v row promote).IsLive w ↔ w ≠ v ∧ head.IsLive w := by
    intro w
    rw [isLive_set rfl]
    simp
  have hrows : ∀ w other, (removeVersion head v row promote).rows.get w = some other →
      RowOk sha256 head.nextSeq w other := by
    intro w other hother
    simp only [removeVersion, get_set] at hother
    split at hother
    · rename_i hw
      cases hother
      have hok := h.rows v row hget
      exact ⟨hok.keyed.trans hw, hok.seq_lt, hok.hashed⟩
    · exact h.rows w other hother
  have hmem : ∀ w, w ∈ (live { head with
      rows := head.rows.set v { row with removed := true } }).map (·.version) ↔
      w ≠ v ∧ head.IsLive w := by
    intro w
    rw [← hlive w]
    exact mem_live_iff (fun w other hother => (hrows w other hother).keyed) w
  have hactive : (∀ w, (removeVersion head v row promote).active = some w →
        w ≠ v ∧ head.IsLive w) ∧
      ∀ w, w ≠ v → head.IsLive w → (removeVersion head v row promote).active ≠ none := by
    simp only [removeVersion]
    by_cases hremoving : head.active = some v
    · simp only [if_pos hremoving]
      rcases nextActiveVersion_cases promote head.history ((live { head with
          rows := head.rows.set v { row with removed := true } }).map (·.version))
        with ⟨w, hw, hnext⟩ | ⟨w, hw, hnext⟩ | ⟨hnil, hnext⟩
      · rw [hnext]
        have hok := hpromote w hw hremoving
        exact ⟨fun w' hw' => by cases hw'; exact ⟨hok.2, hok.1⟩, by simp⟩
      · rw [hnext]
        exact ⟨fun w' hw' => by cases hw'; exact (hmem w).mp hw, by simp⟩
      · rw [hnext]
        refine ⟨by simp, fun w hne hw => ?_⟩
        have hin := (hmem w).mpr ⟨hne, hw⟩
        rw [hnil] at hin
        cases hin
    · simp only [if_neg hremoving]
      constructor
      · intro w hw
        exact ⟨fun heq => hremoving (heq ▸ hw), h.active_live w hw⟩
      · exact fun w _ hw => h.live_active w hw
  constructor
  · exact {
      rows := hrows
      active_live := fun w hw => (hlive w).mpr (hactive.1 w hw)
      live_active := fun w hw => hactive.2 w ((hlive w).mp hw).1 ((hlive w).mp hw).2
      history_live := by
        intro w hw
        have hkept := (mem_filter.mp hw).2
        simp only [Bool.and_eq_true] at hkept
        exact (hlive w).mpr ((hmem w).mp (by simpa using hkept.1))
      history_nodup := h.history_nodup.filter _
      active_not_mem := by
        intro w hw hin
        have hkept := (mem_filter.mp hin).2
        simp only [Bool.and_eq_true, bne_iff_ne] at hkept
        exact hkept.2 hw.symm }
  · exact .set hget hsame rfl rfl

end Promin.Agent
