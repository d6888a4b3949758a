import Promin.Agent.ThreadCompaction
import Promin.Spec.ThreadMessages

/-!
# Convergence of compactions

Processes that compact one thread at once agree on the furthest compaction as
long as each, when it judges, sees the best one there is, and none writes a
better one of the same reach after the process of the other has judged
(`Steady`): compactions reach no less far than before or than any that was
returned, and one is left of the furthest (`compactions_converge`).
-/

namespace Promin.Agent

open Machine List Function InMemoryMemoryStore ThreadCalls

def CompactRun.own : CompactRun → Option EpisodicRecord
  | .written e | .superseded e _ => some e
  | _ => none

namespace ThreadCompactions

variable {μ : Type} {isUser : μ → Bool} {key : ThreadKey}

/-! ## Compactions in a store -/

def episodes (key : ThreadKey) (store : InMemoryMemoryStore μ) : List EpisodicRecord :=
  (store.threadEpisodes.get key.threadK).getD []

/-- The episode is a compaction of the thread. -/
def Stored (key : ThreadKey) (store : InMemoryMemoryStore μ) (e : EpisodicRecord) : Prop :=
  e ∈ episodes key store ∧
    JsMap.lookup "kind" e.metadata = some (.str InMemoryMemoryStore.COMPACT_EPISODE_KIND)

/-- `a` comes before `b`: it reaches further, or as far with a lower id. -/
def Better (a b : EpisodicRecord) : Prop :=
  b.throughSeq < a.throughSeq ∨ a.throughSeq = b.throughSeq ∧ a.id < b.id

variable {a b e : EpisodicRecord} {store : InMemoryMemoryStore μ}

theorem Better.trans {c : EpisodicRecord} (h : Better a b) (h' : Better b c) :
    Better a c := by
  rcases h with h | ⟨h, hid⟩ <;> rcases h' with h' | ⟨h', hid'⟩
  · exact .inl (h'.trans h)
  · exact .inl (h' ▸ h)
  · exact .inl (h ▸ h')
  · exact .inr ⟨h.trans h', String.lt_trans hid hid'⟩

theorem Better.le (h : Better a b) : b.throughSeq ≤ a.throughSeq := by
  rcases h with h | h
  · exact h.le
  · exact h.1.ge

theorem before_iff : before a b = true ↔ ¬ Better b a := by
  simp only [before, Better, decide_eq_true_eq, not_or, not_and, not_lt]
  constructor
  · rintro (h | ⟨h, hid⟩)
    · exact ⟨h.le, fun heq => absurd heq h.ne⟩
    · exact ⟨h.ge, fun _ => hid⟩
  · rintro ⟨hle, hid⟩
    rcases hle.lt_or_eq with h | h
    · exact .inl h
    · exact .inr ⟨h.symm, hid h⟩

theorem head_mergeSort {l : List EpisodicRecord}
    (h : (l.mergeSort before).head? = some e) : e ∈ l ∧ ∀ e' ∈ l, ¬ Better e' e := by
  have htrans : ∀ a b c : EpisodicRecord, before a b = true → before b c = true →
      before a c = true := by
    simp only [before, decide_eq_true_eq]
    rintro a b c (h | ⟨h, hid⟩) (h' | ⟨h', hid'⟩)
    · exact .inl (h'.trans h)
    · exact .inl (h' ▸ h)
    · exact .inl (h ▸ h')
    · exact .inr ⟨h.trans h', String.le_trans hid hid'⟩
  have htotal : ∀ a b : EpisodicRecord, (before a b || before b a) = true := by
    intro a b
    simp only [before, Bool.or_eq_true, decide_eq_true_eq]
    rcases lt_trichotomy a.throughSeq b.throughSeq with h | h | h
    · exact .inr (.inl h)
    · rcases String.le_total a.id b.id with hid | hid
      · exact .inl (.inr ⟨h, hid⟩)
      · exact .inr (.inr ⟨h.symm, hid⟩)
    · exact .inl (.inl h)
  have hsorted := pairwise_mergeSort htrans htotal l
  obtain ⟨rest, hrest⟩ := List.head?_eq_some_iff.mp h
  have hmem : ∀ e', e' ∈ l ↔ e' ∈ e :: rest := fun e' => by rw [← hrest, mem_mergeSort]
  refine ⟨(hmem e).mpr (.head _), fun e' he' => ?_⟩
  rcases mem_cons.mp ((hmem e').mp he') with rfl | he'
  · exact before_iff.mp (by simpa using htotal e' e')
  · rw [hrest] at hsorted
    exact before_iff.mp (rel_of_pairwise_cons hsorted he')

def IsBest (key : ThreadKey) (store : InMemoryMemoryStore μ) (e : EpisodicRecord) : Prop :=
  Stored key store e ∧ ∀ e', Stored key store e' → ¬ Better e' e

theorem mem_compactions {limit : Nat}
    (h : e ∈ compactions key store limit) : Stored key store e := by
  simp only [compactions, listThreadEpisodes,
    queryEpisodes] at h
  obtain ⟨⟨e', i⟩, hranked, rfl⟩ := mem_map.mp (mem_of_mem_take h)
  have hkept := fst_mem_of_mem_zipIdx (mem_mergeSort.mp hranked)
  obtain ⟨hmem, hkind⟩ := mem_filter.mp hkept
  exact ⟨hmem, by simpa using hkind⟩

/-- Where a query may answer all episodes, it answers every compaction. -/
theorem Stored.mem_compactions {limit : Nat} (he : Stored key store e)
    (hfew : (episodes key store).length ≤ limit) : e ∈ compactions key store limit := by
  obtain ⟨hmem, hkind⟩ := he
  simp only [compactions, listThreadEpisodes,
    queryEpisodes]
  generalize hkept : filter _ _ = kept
  have hin : e ∈ kept := by
    rw [← hkept, mem_filter]
    exact ⟨hmem, by simp [hkind]⟩
  have hlen : kept.length ≤ limit := by
    rw [← hkept]
    exact (length_filter_le _ _).trans hfew
  rw [take_of_length_le (by simpa using hlen)]
  obtain ⟨i, hi⟩ := mem_iff_getElem?.mp hin
  exact mem_map.mpr ⟨(e, i), mem_mergeSort.mpr (mk_mem_zipIdx_iff_getElem?.mpr hi), rfl⟩

theorem threadEpisodes_ensureThread (store : InMemoryMemoryStore μ) :
    (store.ensureThread key).threadEpisodes = store.threadEpisodes := by
  unfold ensureThread createThread
  split <;> rfl

variable (key) in
theorem episodes_append (store : InMemoryMemoryStore μ) (input : EpisodeInput) (uuid : String) :
    episodes key (store.appendThreadEpisode key input uuid).1 =
      episodes key store ++ [(store.appendThreadEpisode key input uuid).2] := by
  simp [episodes, appendThreadEpisode, JsMap.push_eq_set,
    threadEpisodes_ensureThread]

theorem episodes_delete (store : InMemoryMemoryStore μ) (id : String) :
    episodes key (store.deleteThreadEpisode key id) =
      (episodes key store).filter fun e => e.id != id := by
  simp only [episodes, deleteThreadEpisode, JsMap.filterAt]
  split <;> simp [*]

variable (key) in
theorem episodes_appendMessages (store : InMemoryMemoryStore μ) (msgs : List μ)
    (idempotencyKey : Option String) :
    episodes key (store.appendMessages key msgs idempotencyKey).1 = episodes key store := by
  unfold appendMessages
  dsimp only
  split <;> simp [episodes, storeMessages, threadEpisodes_ensureThread]

/-- What the stored episodes and the processes keep between steps, when each process sees the
    best compaction when it judges. -/
structure Inv (key : ThreadKey) (store : InMemoryMemoryStore μ) (process : Nat → CompactRun) :
    Prop where
  ids : ((episodes key store).map (·.id)).Nodup
  owned : ∀ i e, (process i).own = some e → Stored key store e
  apart : ∀ i j e e', (process i).own = some e → (process j).own = some e' → e.id = e'.id → i = j
  /-- What is to be deleted is not the best, and its winner is not lost. -/
  superseded : ∀ i e w, process i = .superseded e w →
    (∃ b, Stored key store b ∧ Better b e) ∧ ∃ b, Stored key store b ∧ w.throughSeq ≤ b.throughSeq
  /-- A furthest compaction that no process is still to judge or delete is the best. -/
  settled : ∀ b, Stored key store b → (∀ e, Stored key store e → e.throughSeq ≤ b.throughSeq) →
    (∀ i, (process i).own ≠ some b) → IsBest key store b

section

variable {store : InMemoryMemoryStore μ} {process : Nat → CompactRun} {i : Nat} {e : EpisodicRecord}

theorem Inv.eq_of_id (h : Inv key store process) {e' : EpisodicRecord}
    (he : Stored key store e) (he' : Stored key store e') (hid : e.id = e'.id) : e = e' :=
  inj_on_of_nodup_map h.ids he.1 he'.1 hid

theorem Inv.better (h : Inv key store process) {e' : EpisodicRecord} (he : Stored key store e)
    (he' : Stored key store e') (hne : e ≠ e') (hbest : ¬ Better e' e) : Better e e' := by
  simp only [Better, not_or, not_and, not_lt] at hbest
  rcases hbest.1.lt_or_eq with hlt | heq
  · exact .inl hlt
  · refine .inr ⟨heq.symm, Classical.byContradiction fun hid => hne ?_⟩
    exact h.eq_of_id he he' (String.le_antisymm (hbest.2 heq) (String.not_lt.mp hid))

theorem own_update (i : Nat) (run : CompactRun) (j : Nat) :
    (update process i run j).own = if j = i then run.own else (process j).own := by
  rw [update_apply]
  split <;> rfl

theorem eq_of_update {j : Nat} {run run' : CompactRun}
    (h : update process i run j = run') (hne : run ≠ run') : process j = run' := by
  rw [update_apply] at h
  split at h
  · exact absurd h hne
  · exact h

variable {store' : InMemoryMemoryStore μ}

theorem Inv.frame (h : Inv key store process)
    {process' : Nat → CompactRun} (hepisodes : episodes key store' = episodes key store)
    (hown : ∀ j, (process' j).own = (process j).own)
    (hsuper : ∀ j e w, process' j = .superseded e w → process j = .superseded e w) :
    Inv key store' process' := by
  have hstored : Stored key store' = Stored key store := by
    funext e
    rw [Stored, hepisodes, ← Stored]
  have hbest : IsBest key store' = IsBest key store := by
    funext e
    rw [IsBest, hstored, ← IsBest]
  constructor
  · simpa only [hepisodes] using h.ids
  · simpa only [hown, hstored] using h.owned
  · simpa only [hown] using h.apart
  · intro j e w hj
    simpa only [hstored] using h.superseded j e w (hsuper j e w hj)
  · simpa only [hown, hstored, hbest] using h.settled

variable {e : EpisodicRecord}

theorem Inv.write (h : Inv key store process) (hidle : (process i).own = none)
    (hepisodes : episodes key store' = episodes key store ++ [e]) (he : Stored key store' e)
    (hfresh : ∀ e' ∈ episodes key store, e'.id ≠ e.id)
    (hsteady : ∀ e', Stored key store e' → e'.throughSeq = e.throughSeq → e.id < e'.id →
      (∃ j, (process j).own = some e') ∨ ∃ b, Stored key store b ∧ e.throughSeq < b.throughSeq) :
    Inv key store' (update process i (.written e)) := by
  have hstored : ∀ e', Stored key store' e' ↔ Stored key store e' ∨ e' = e := by
    intro e'
    rw [Stored, hepisodes, mem_append, mem_singleton, Stored]
    constructor
    · rintro ⟨hmem | rfl, hkind⟩
      · exact .inl ⟨hmem, hkind⟩
      · exact .inr rfl
    · rintro (⟨hmem, hkind⟩ | rfl)
      · exact ⟨.inl hmem, hkind⟩
      · exact ⟨.inr rfl, he.2⟩
  have hold : ∀ j e', (update process i (.written e) j).own = some e' →
      j = i ∧ e' = e ∨ (process j).own = some e' := by
    intro j e' hj
    rw [own_update] at hj
    split at hj
    · exact .inl ⟨‹_›, (Option.some.inj hj).symm⟩
    · exact .inr hj
  constructor
  · rw [hepisodes, map_append, nodup_append]
    refine ⟨h.ids, nodup_singleton _, fun id hid id' hid' => ?_⟩
    obtain ⟨e', he', rfl⟩ := mem_map.mp hid
    rw [map_singleton, mem_singleton] at hid'
    exact hid' ▸ hfresh e' he'
  · intro j e' hj
    rcases hold j e' hj with ⟨-, rfl⟩ | hj
    · exact he
    · exact (hstored e').mpr (.inl (h.owned j e' hj))
  · intro j k e₁ e₂ hj hk hid
    rcases hold j e₁ hj with ⟨rfl, rfl⟩ | hj' <;> rcases hold k e₂ hk with ⟨rfl, rfl⟩ | hk'
    · rfl
    · exact absurd hid.symm (hfresh e₂ (h.owned k e₂ hk').1)
    · exact absurd hid (hfresh e₁ (h.owned j e₁ hj').1)
    · exact h.apart j k e₁ e₂ hj' hk' hid
  · intro j e' w hj
    obtain ⟨⟨b, hb, hbetter⟩, b', hb', hw⟩ := h.superseded j e' w (eq_of_update hj (by simp))
    exact ⟨⟨b, (hstored b).mpr (.inl hb), hbetter⟩, b', (hstored b').mpr (.inl hb'), hw⟩
  · intro b hb hfar hfree
    rcases (hstored b).mp hb with hb' | rfl
    · have hfar' : ∀ e', Stored key store e' → e'.throughSeq ≤ b.throughSeq :=
        fun e' he' => hfar e' ((hstored e').mpr (.inl he'))
      have hfree' : ∀ j, (process j).own ≠ some b := by
        intro j hj
        refine hfree j ?_
        rw [own_update, if_neg, hj]
        rintro rfl
        rw [hidle] at hj
        cases hj
      refine ⟨hb, fun e' he' hbetter => ?_⟩
      rcases (hstored e').mp he' with he' | rfl
      · exact (h.settled b hb' hfar' hfree').2 e' he' hbetter
      · -- a better episode of the same reach is written only while the process of `b` is to judge
        rcases hbetter with hlt | ⟨heq, hid⟩
        · exact absurd (hfar _ he) (Int.not_le.mpr hlt)
        · rcases hsteady b hb' heq.symm hid with ⟨j, hj⟩ | ⟨b', hb', hlt⟩
          · exact hfree' j hj
          · exact absurd (hfar' b' hb') (Int.not_le.mpr (heq ▸ hlt))
    · exact absurd (by rw [own_update, if_pos rfl]; rfl) (hfree i)

theorem Inv.yield (h : Inv key store process) {w : EpisodicRecord}
    (hi : process i = .written e) (hbest : IsBest key store w) (hne : w.id ≠ e.id) :
    Inv key store (update process i (.superseded e w)) := by
  have hown : ∀ j, (update process i (.superseded e w) j).own = (process j).own := by
    intro j
    rw [own_update]
    split
    · rename_i hji
      rw [hji, hi]
      rfl
    · rfl
  have he : Stored key store e := h.owned i e (by rw [hi]; rfl)
  constructor
  · exact h.ids
  · simpa only [hown] using h.owned
  · simpa only [hown] using h.apart
  · intro j e' w' hj
    rw [update_apply] at hj
    split at hj
    · cases hj
      have hbetter := h.better hbest.1 he (fun heq => hne (heq ▸ rfl)) (hbest.2 e he)
      exact ⟨⟨w, hbest.1, hbetter⟩, w, hbest.1, le_rfl⟩
    · exact h.superseded j e' w' hj
  · simpa only [hown] using h.settled

theorem own_idle {j : Nat}
    (h : (update process i .idle j).own = some e) : j ≠ i ∧ (process j).own = some e := by
  rw [own_update] at h
  split at h
  · cases h
  · exact ⟨‹_›, h⟩

theorem Inv.keep (h : Inv key store process)
    (hi : process i = .written e) (hbest : IsBest key store e) :
    Inv key store (update process i .idle) := by
  constructor
  · exact h.ids
  · exact fun j e' hj => h.owned j e' (own_idle hj).2
  · exact fun j k e₁ e₂ hj hk hid => h.apart j k e₁ e₂ (own_idle hj).2 (own_idle hk).2 hid
  · exact fun j e' w hj => h.superseded j e' w (eq_of_update hj (by simp))
  · intro b hb hfar hfree
    by_cases hbe : b = e
    · exact hbe ▸ hbest
    · refine h.settled b hb hfar fun j hj => hfree j ?_
      rw [own_update, if_neg, hj]
      rintro rfl
      rw [hi] at hj
      exact hbe (Option.some.inj hj).symm

theorem Inv.delete (h : Inv key store process) {w : EpisodicRecord}
    (hi : process i = .superseded e w)
    (hepisodes : episodes key store' = (episodes key store).filter fun e' => e'.id != e.id) :
    Inv key store' (update process i .idle) ∧
      ∀ b, Stored key store b → ∃ b', Stored key store' b' ∧ b.throughSeq ≤ b'.throughSeq ∧
        ∀ e', Better b e' → Better b' e' := by
  have hstored : ∀ e', Stored key store' e' ↔ Stored key store e' ∧ e'.id ≠ e.id := by
    intro e'
    rw [Stored, hepisodes, mem_filter, bne_iff_ne, Stored]
    tauto
  have hown : (process i).own = some e := by
    rw [hi]
    rfl
  have he := h.owned i e hown
  -- the best is not deleted, so for every episode one that is as good is left
  obtain ⟨⟨b₀, hb₀, hbetter₀⟩, -⟩ := h.superseded i e w hi
  have hkept₀ : Stored key store' b₀ := by
    refine (hstored b₀).mpr ⟨hb₀, fun hid => ?_⟩
    rw [h.eq_of_id hb₀ he hid] at hbetter₀
    rcases hbetter₀ with hlt | ⟨-, hlt⟩
    · exact lt_irrefl _ hlt
    · exact String.lt_irrefl _ hlt
  have hleft : ∀ b, Stored key store b → ∃ b', Stored key store' b' ∧
      b.throughSeq ≤ b'.throughSeq ∧ ∀ e', Better b e' → Better b' e' := by
    intro b hb
    by_cases hid : b.id = e.id
    · rw [h.eq_of_id hb he hid]
      exact ⟨b₀, hkept₀, hbetter₀.le, fun e' => hbetter₀.trans⟩
    · exact ⟨b, (hstored b).mpr ⟨hb, hid⟩, le_rfl, fun _ => id⟩
  refine ⟨?_, hleft⟩
  constructor
  · rw [hepisodes]
    exact h.ids.sublist (filter_sublist.map _)
  · intro j e' hj
    obtain ⟨hji, hj⟩ := own_idle hj
    exact (hstored e').mpr ⟨h.owned j e' hj, fun hid => hji (h.apart j i e' e hj hown hid)⟩
  · exact fun j k e₁ e₂ hj hk hid => h.apart j k e₁ e₂ (own_idle hj).2 (own_idle hk).2 hid
  · intro j e' w' hj
    obtain ⟨⟨b, hb, hbetter⟩, b', hb', hw⟩ := h.superseded j e' w' (eq_of_update hj (by simp))
    obtain ⟨c, hc, -, hcbetter⟩ := hleft b hb
    obtain ⟨c', hc', hcfar, -⟩ := hleft b' hb'
    exact ⟨⟨c, hc, hcbetter e' hbetter⟩, c', hc', hw.trans hcfar⟩
  · intro b hb hfar hfree
    obtain ⟨hb', hid⟩ := (hstored b).mp hb
    have hfar' : ∀ e', Stored key store e' → e'.throughSeq ≤ b.throughSeq := by
      intro e' he'
      obtain ⟨c, hc, hcfar, -⟩ := hleft e' he'
      exact hcfar.trans (hfar c hc)
    have hfree' : ∀ j, (process j).own ≠ some b := by
      intro j hj
      refine hfree j ?_
      rw [own_update, if_neg, hj]
      rintro rfl
      rw [hown] at hj
      exact hid (congrArg EpisodicRecord.id (Option.some.inj hj).symm)
    exact ⟨hb, fun e' he' => (h.settled b hb' hfar' hfree').2 e' ((hstored e').mp he').1⟩

theorem Inv.unowned (h : Inv key store process) {run : CompactRun}
    (hi : (process i).own = none) (hrun : run.own = none) :
    Inv key store (update process i run) := by
  refine h.frame rfl (fun j => ?_) (fun j e w hj => eq_of_update hj fun heq => ?_)
  · rw [own_update]
    split
    · rename_i hji
      rw [hji, hi, hrun]
    · rfl
  · rw [heq] at hrun
    cases hrun

/-- Some compaction covers the messages up to `throughSeq`. -/
def Reaches (key : ThreadKey) (store : InMemoryMemoryStore μ) (throughSeq : Int) : Prop :=
  ∃ b, Stored key store b ∧ throughSeq ≤ b.throughSeq

theorem exists_best (he : Stored key store e) :
    ∃ b, IsBest key store b ∧ e.throughSeq ≤ b.throughSeq := by
  let comps := (episodes key store).filter fun e => decide (JsMap.lookup "kind" e.metadata =
    some (.str InMemoryMemoryStore.COMPACT_EPISODE_KIND))
  have hmem : ∀ e', e' ∈ comps ↔ Stored key store e' := by simp [comps, Stored]
  cases hhead : (comps.mergeSort before).head? with
  | none =>
    rw [List.head?_eq_none_iff, ← length_eq_zero_iff, length_mergeSort,
      length_eq_zero_iff] at hhead
    have hnil := (hmem e).mpr he
    rw [hhead] at hnil
    cases hnil
  | some b =>
    obtain ⟨hb, hbest⟩ := head_mergeSort hhead
    refine ⟨b, ⟨(hmem b).mp hb, fun e' he' => hbest e' ((hmem e').mpr he')⟩, ?_⟩
    exact not_lt.mp fun hlt => hbest e ((hmem e).mpr he) (.inl hlt)

theorem winner_eq_best (h : Inv key store process) (he : Stored key store e)
    (hsees : ∀ b, IsBest key store b → b ∈ compactions key store 2) :
    ∃ w, winner (compactions key store 2) e.throughSeq = some w ∧ IsBest key store w := by
  obtain ⟨b, hb, hreach⟩ := exists_best he
  have hrow : b ∈ (compactions key store 2).filter fun e' => e.throughSeq ≤ e'.throughSeq :=
    mem_filter.mpr ⟨hsees b hb, by simpa using hreach⟩
  cases hhead : winner (compactions key store 2) e.throughSeq with
  | none =>
    rw [winner, List.head?_eq_none_iff, ← length_eq_zero_iff, length_mergeSort,
      length_eq_zero_iff] at hhead
    rw [hhead] at hrow
    cases hrow
  | some w =>
    obtain ⟨hw, hbest⟩ := head_mergeSort hhead
    have hstored := mem_compactions (mem_filter.mp hw).1
    refine ⟨w, rfl, ?_⟩
    by_cases hwb : w = b
    · exact hwb ▸ hb
    · exact absurd (h.better hstored hb.1 hwb (hbest b hrow)) (hb.2 w hstored)

end

/-- `randomUUID` makes an id that no episode has. -/
def Fresh (key : ThreadKey) (s : ThreadCompactions μ) : CompactOp μ → Prop
  | .resume i _ uuid =>
    match s.process i with
    | .writing .. => ∀ e ∈ episodes key s.store, e.id ≠ uuid
    | _ => True
  | _ => True

/-- A process that judges sees the best compaction; and one that writes an episode that would be
    better than a stored one of the same reach does so while the process of that one is still to
    judge or delete it, or when there is one that reaches further. -/
def Steady (key : ThreadKey) (s : ThreadCompactions μ) : CompactOp μ → Prop
  | .resume i _ uuid =>
    match s.process i with
    | .written _ => ∀ b, IsBest key s.store b → b ∈ compactions key s.store 2
    | .writing _ _ throughSeq _ =>
      ∀ e, Stored key s.store e → e.throughSeq = throughSeq → uuid < e.id →
        (∃ j, (s.process j).own = some e) ∨ ∃ b, Stored key s.store b ∧ throughSeq < b.throughSeq
    | _ => True
  | _ => True

theorem cut_own (store : InMemoryMemoryStore μ) (keepRecent : Nat)
    (previous : Option EpisodicRecord) (seen : Nat) (newestSeq : Int) (beforeSeq : Option Int) :
    (cut isUser key store keepRecent previous seen newestSeq beforeSeq).1.own = none ∧
      ∀ e, (cut isUser key store keepRecent previous seen newestSeq beforeSeq).2 ≠ .returned e := by
  simp only [cut]
  split <;> split <;> exact ⟨rfl, by simp⟩

theorem check_own (store : InMemoryMemoryStore μ) (keepRecent : Nat)
    (previous : Option EpisodicRecord) (throughSeq : Int)
    (folded : Except String FoldedTranscript) :
    (check key store keepRecent previous throughSeq folded).1.own = none ∧
      ∀ e, (check key store keepRecent previous throughSeq folded).2 = .returned e →
        Stored key store e := by
  unfold check
  split
  · exact ⟨rfl, by simp⟩
  · split
    · exact ⟨rfl, by simp⟩
    · dsimp only
      split
      · rename_i latest hlatest
        split
        · refine ⟨rfl, fun e he => ?_⟩
          cases he
          exact mem_compactions (mem_of_head? hlatest)
        · exact ⟨rfl, by simp⟩
      · exact ⟨rfl, by simp⟩

/-- What a step keeps: the invariant, how far the compactions reach, and what is returned. -/
structure Kept (key : ThreadKey) (s : ThreadCompactions μ)
    (result : ThreadCompactions μ × CompactAnswer) : Prop where
  inv : Inv key result.1.store result.1.process
  reaches : ∀ n, Reaches key s.store n → Reaches key result.1.store n
  returned : ∀ e, result.2 = .returned e → Reaches key result.1.store e.throughSeq

variable {s : ThreadCompactions μ}

variable (isUser) in
/-- A step keeps the invariant, reaches what was reached and returns a reached cut. -/
theorem step_kept (h : Inv key s.store s.process) (o : CompactOp μ)
    (hfresh : Fresh key s o) (hsteady : Steady key s o) :
    Kept key s (step isUser key s o) := by
  cases o with
  | appendMessages msgs idempotencyKey =>
    have hepisodes := episodes_appendMessages key s.store msgs idempotencyKey
    refine ⟨h.frame hepisodes (fun _ => rfl) (fun _ _ _ hj => hj), fun n hn => ?_, by simp [step]⟩
    simpa [Reaches, Stored, hepisodes, step] using hn
  | compactThread i keepRecent =>
    simp only [step]
    split
    · rename_i hi
      exact ⟨h.unowned (by rw [hi]; rfl) rfl, fun _ => id, by simp⟩
    · exact ⟨h, fun _ => id, by simp⟩
  | resume i folded uuid =>
    simp only [Fresh] at hfresh
    simp only [Steady] at hsteady
    simp only [step]
    cases hi : s.process i with
    | idle => exact ⟨h.unowned (by rw [hi]; rfl) rfl, fun _ => id, by simp [resume]⟩
    | cutting keepRecent previous seen newestSeq beforeSeq =>
      obtain ⟨hown, hanswer⟩ := cut_own s.store keepRecent previous
        seen newestSeq beforeSeq
      exact ⟨h.unowned (by rw [hi]; rfl) hown, fun _ => id, fun e he => absurd he (hanswer e)⟩
    | folding keepRecent previous throughSeq =>
      obtain ⟨hown, hanswer⟩ := check_own s.store keepRecent previous throughSeq folded
      exact ⟨h.unowned (by rw [hi]; rfl) hown, fun _ => id, fun e he => ⟨e, hanswer e he, le_rfl⟩⟩
    | writing keepRecent fromSeq throughSeq folded =>
      rw [hi] at hfresh hsteady
      have hepisodes := episodes_append key s.store
        (episodeInput key fromSeq throughSeq folded) uuid
      have he : Stored key (s.store.appendThreadEpisode key (episodeInput key fromSeq throughSeq
          folded) uuid).1 (s.store.appendThreadEpisode key (episodeInput key fromSeq throughSeq
          folded) uuid).2 :=
        ⟨by rw [hepisodes]; exact mem_concat_self, rfl⟩
      refine ⟨h.write (by rw [hi]; rfl) hepisodes he hfresh hsteady, ?_, by simp [resume]⟩
      rintro n ⟨b, hb, hn⟩
      refine ⟨b, ⟨?_, hb.2⟩, hn⟩
      show b ∈ episodes key (s.store.appendThreadEpisode key _ uuid).1
      rw [hepisodes]
      exact mem_append_left _ hb.1
    | written e =>
      rw [hi] at hsteady
      -- the judge reads two rows; `Steady` puts the best one among them
      obtain ⟨w, hw, hbest⟩ := winner_eq_best h (h.owned i e (by rw [hi]; rfl)) hsteady
      simp only [resume, judge, hw]
      have he := h.owned i e (by rw [hi]; rfl)
      split
      · rename_i hid
        rw [h.eq_of_id hbest.1 he hid] at hbest
        refine ⟨h.keep hi hbest, fun _ => id, fun e' he' => ?_⟩
        cases he'
        exact ⟨e, he, le_rfl⟩
      · rename_i hne
        exact ⟨h.yield hi hbest hne, fun _ => id, by simp⟩
    | superseded e w =>
      obtain ⟨hinv, hleft⟩ := h.delete hi (episodes_delete s.store e.id)
      have hreaches : ∀ n, Reaches key s.store n →
          Reaches key (s.store.deleteThreadEpisode key e.id) n := by
        rintro n ⟨b, hb, hn⟩
        obtain ⟨b', hb', hfar, -⟩ := hleft b hb
        exact ⟨b', hb', hn.trans hfar⟩
      refine ⟨hinv, hreaches, fun e' he' => ?_⟩
      cases he'
      exact hreaches _ (h.superseded i e w hi).2

/-! ## Cuts -/

def TurnAfter (isUser : μ → Bool) (key : ThreadKey) (store : InMemoryMemoryStore μ)
    (keepRecent : Nat) (throughSeq : Int) : Prop :=
  (∃ m ∈ store.getMessages key {}, m.seq = throughSeq + 1 ∧ isUser m.message = true) ∧
    throughSeq + keepRecent ≤ (store.getMessages key {}).length

theorem scanPage_spec (keepRecent : Nat) (page : List (StoredMessage μ)) :
    ∀ (seen : Nat) (newestSeq top : Int),
      (∀ (j : Nat) m, page[j]? = some m → m.seq = top - j) →
      (seen ≠ 0 → newestSeq = top + seen) →
      let result := scanPage isUser keepRecent seen newestSeq page
      (seen + page.length ≠ 0 → result.2.1 = top + seen) ∧
      (∀ throughSeq, result.2.2 = some throughSeq → 1 ≤ keepRecent →
        throughSeq + keepRecent ≤ top + seen ∧
          ∃ m ∈ page, m.seq = throughSeq + 1 ∧ isUser m.message = true) ∧
      (result.2.2 = none → result.1 = seen + page.length) := by
  induction page with
  | nil =>
    intro seen newestSeq top _ hnewest
    exact ⟨hnewest, by simp [scanPage], fun _ => rfl⟩
  | cons m page ih =>
    intro seen newestSeq top hpage hnewest
    have hm : m.seq = top := by simpa using hpage 0 m rfl
    have hnewest' : (if seen = 0 then m.seq else newestSeq) = top + seen := by
      split
      · rename_i hseen
        simp [hseen, hm]
      · exact hnewest ‹_›
    simp only [scanPage, hnewest']
    split
    · exact ⟨fun _ => rfl, fun _ _ hkeep => by omega, fun h => by cases h⟩
    split
    · rename_i hcut
      refine ⟨fun _ => rfl, fun throughSeq hthrough _ => ?_, fun h => by cases h⟩
      cases hthrough
      exact ⟨by omega, m, .head _, by omega, hcut.2⟩
    · obtain ⟨hnewest, hcut, hseen⟩ := ih (seen + 1) (top + seen) (top - 1)
        (fun j m' hj => by have := hpage (j + 1) m' hj; omega) (by intro; omega)
      refine ⟨fun _ => by rw [hnewest (by omega)]; omega, fun throughSeq hthrough hkeep => ?_,
        fun h => ?_⟩
      · obtain ⟨hle, m', hm', hturn⟩ := hcut throughSeq hthrough hkeep
        exact ⟨by omega, m', .tail _ hm', hturn⟩
      · rw [hseen h, length_cons]
        omega

def CutReady (isUser : μ → Bool) (key : ThreadKey) (store : InMemoryMemoryStore μ) :
    CompactRun → Prop
  | .cutting _ _ seen newestSeq beforeSeq =>
    seen = 0 ∧ beforeSeq = none ∨
      seen ≠ 0 ∧ beforeSeq = some (newestSeq - seen + 1) ∧
        newestSeq ≤ (store.getMessages key {}).length
  | .folding keepRecent _ throughSeq | .writing keepRecent _ throughSeq _ =>
    1 ≤ keepRecent → TurnAfter isUser key store keepRecent throughSeq
  | _ => True

/-- A page of the backwards scan continues where the last one ended. -/
theorem cut_ready (hcounted : store.Counted key)
    {keepRecent : Nat} {previous : Option EpisodicRecord} {seen : Nat} {newestSeq : Int}
    {beforeSeq : Option Int}
    (h : CutReady isUser key store (.cutting keepRecent previous seen newestSeq beforeSeq)) :
    CutReady isUser key store
      (cut isUser key store keepRecent previous seen newestSeq beforeSeq).1 := by
  let afterSeq := (previous.map (·.throughSeq)).getD 0
  let page := store.getMessages key {
    fromSeq := some (afterSeq + 1)
    toSeq := beforeSeq.map (· - 1)
    newestFirst := true
    limit := some PAGE_SIZE }
  let top : Int := (beforeSeq.map (· - 1) : Option Int).getD (store.getMessages key {}).length
  have htop : (seen ≠ 0 → newestSeq = top + seen) ∧
      top + seen ≤ (store.getMessages key {}).length := by
    rcases h with ⟨rfl, rfl⟩ | ⟨hseen, rfl, hle⟩
    · exact ⟨fun hne => absurd rfl hne, by simp [top]⟩
    · simp only [top, Option.map_some, Option.getD_some]
      omega
  -- a page reads down from `top`
  have hwindow : page = ((((store.getMessages key {}).take top.toNat).drop
      (afterSeq + 1 - 1).toNat).reverse).take PAGE_SIZE :=
    getMessages_window hcounted _
  have hpage : ∀ (j : Nat) m, page[j]? = some m → m.seq = top - j := by
    intro j m hj
    rw [hwindow, List.getElem?_take] at hj
    split at hj
    · rw [(hcounted.numbered.take _).seq_reverse hj, length_take]
      have hj' := (List.getElem?_eq_some_iff.mp hj).1
      rw [length_reverse, length_drop, length_take] at hj'
      omega
    · cases hj
  have hmem : ∀ m ∈ page, m ∈ store.getMessages key {} := by
    intro m hm
    rw [hwindow] at hm
    exact mem_of_mem_take (mem_of_mem_drop (mem_reverse.mp (mem_of_mem_take hm)))
  obtain ⟨hnewest, hcut, hseen⟩ := scanPage_spec keepRecent page seen newestSeq
    top hpage htop.1
  have hbound := htop.2
  unfold cut
  dsimp only
  split
  · rename_i newest throughSeq hscan
    split
    · trivial
    · intro hkeep
      rw [hscan] at hcut
      obtain ⟨hle, m, hm, hturn⟩ := hcut throughSeq rfl hkeep
      exact ⟨⟨m, hmem m hm, hturn⟩, by omega⟩
  · rename_i seen' newest hscan
    rw [hscan] at hnewest hseen
    split
    · trivial
    · rename_i hfull
      have hpageLength : page.length ≠ 0 := fun hzero => hfull (by
        show page.length < PAGE_SIZE
        rw [hzero]
        decide)
      have hseen' : seen' = seen + page.length := hseen rfl
      have hnewest' : newest = top + seen := hnewest (by omega)
      have hlast := List.getElem?_eq_getElem (l := page) (i := page.length - 1) (by omega)
      have hlastSeq := hpage _ _ hlast
      refine .inr ⟨by omega, ?_, by omega⟩
      show page.getLast?.map (·.seq) = _
      rw [List.getLast?_eq_getElem?, hlast, Option.map_some, hlastSeq, hnewest', hseen']
      congr 1
      omega

variable {run : CompactRun}

theorem CutReady.frame {store' : InMemoryMemoryStore μ} (h : CutReady isUser key store run)
    (hahead : store.getMessages key {} <+: store'.getMessages key {}) :
    CutReady isUser key store' run := by
  have hlength := hahead.length_le
  have hturn : ∀ keepRecent throughSeq, TurnAfter isUser key store keepRecent throughSeq →
      TurnAfter isUser key store' keepRecent throughSeq := by
    rintro keepRecent throughSeq ⟨⟨m, hm, hturn⟩, hle⟩
    exact ⟨⟨m, hahead.subset hm, hturn⟩, by omega⟩
  cases run with
  | cutting keepRecent previous seen newestSeq beforeSeq =>
    rcases h with h | ⟨hseen, hbefore, hle⟩
    · exact .inl h
    · exact .inr ⟨hseen, hbefore, by omega⟩
  | folding | writing => exact fun hkeep => hturn _ _ (h hkeep)
  | idle | written | superseded => trivial

variable (key) in
theorem sameMessages_ensureThread (store : InMemoryMemoryStore μ) :
    InMemoryMemoryStore.SameMessages key store (store.ensureThread key) := by
  unfold ensureThread createThread
  split <;> exact ⟨rfl, rfl, rfl⟩

variable (isUser key) in
theorem sameMessages_resume (store : InMemoryMemoryStore μ)
    (folded : Except String FoldedTranscript)
    (uuid : String) (run : CompactRun) :
    InMemoryMemoryStore.SameMessages key store (resume isUser key store folded uuid run).1 := by
  have hensure := sameMessages_ensureThread key store
  cases run with
  | writing => exact ⟨hensure.messages, hensure.seq, hensure.appends⟩
  | idle | cutting | folding | written | superseded => exact ⟨rfl, rfl, rfl⟩

variable (isUser) in
theorem step_messages (hcounted : s.store.Counted key) (o : CompactOp μ) :
    s.store.getMessages key {} <+: (step isUser key s o).1.store.getMessages key {} ∧
      (step isUser key s o).1.store.Counted key := by
  cases o with
  | appendMessages msgs idempotencyKey =>
    have hensure := sameMessages_ensureThread key s.store
    refine ⟨?_, append_counted (hcounted.frame hensure) msgs idempotencyKey⟩
    show _ <+: (append key (s.store.ensureThread key) msgs
      idempotencyKey).1.getMessages key {}
    rw [← hensure.messages, append]
    split
    · exact prefix_refl _
    · rw [getMessages_storeMessages]
      exact prefix_append _ _
  | compactThread i keepRecent =>
    simp only [step]
    split <;> exact ⟨prefix_refl _, hcounted⟩
  | resume i folded uuid =>
    have hsame := sameMessages_resume isUser key s.store folded uuid (s.process i)
    exact ⟨hsame.messages ▸ prefix_refl _, hcounted.frame hsame⟩

theorem CutReady.update {store' : InMemoryMemoryStore μ} {process : Nat → CompactRun}
    (h : ∀ j, CutReady isUser key store (process j))
    (hahead : store.getMessages key {} <+: store'.getMessages key {}) {i : Nat}
    (hrun : CutReady isUser key store' run) (j : Nat) :
    CutReady isUser key store' (update process i run j) := by
  rw [update_apply]
  split
  · exact hrun
  · exact (h j).frame hahead

theorem resume_ready (hcounted : store.Counted key)
    (h : CutReady isUser key store run) (folded : Except String FoldedTranscript) (uuid : String) :
    CutReady isUser key (resume isUser key store folded uuid run).1
      (resume isUser key store folded uuid run).2.1 := by
  cases run with
  | cutting => exact cut_ready hcounted h
  | folding keepRecent previous throughSeq =>
    simp only [resume, check]
    split
    · trivial
    · split
      · trivial
      · split
        · split
          · trivial
          · exact h
        · exact h
  | written =>
    simp only [resume, judge]
    split
    · trivial
    · split <;> trivial
  | idle | writing | superseded => trivial

theorem resume_wrote {folded : Except String FoldedTranscript} {uuid : String} {keepRecent : Nat}
    (h : (resume isUser key store folded uuid run).2.2 = .wrote keepRecent e) :
    ∃ fromSeq folded', run = .writing keepRecent fromSeq e.throughSeq folded' := by
  cases run with
  | writing keepRecent fromSeq throughSeq folded' =>
    cases h
    exact ⟨fromSeq, folded', rfl⟩
  | idle | superseded => cases h
  | cutting =>
    simp only [resume, cut] at h
    split at h <;> split at h <;> cases h
  | folding =>
    simp only [resume, check] at h
    split at h
    · cases h
    · split at h
      · cases h
      · split at h
        · split at h <;> cases h
        · cases h
  | written =>
    simp only [resume, judge] at h
    split at h
    · cases h
    · split at h <;> cases h

theorem step_ready (hcounted : s.store.Counted key)
    (h : ∀ i, CutReady isUser key s.store (s.process i)) (o : CompactOp μ) :
    (∀ i, CutReady isUser key (step isUser key s o).1.store ((step isUser key s o).1.process i)) ∧
    ∀ keepRecent e, (step isUser key s o).2 = .wrote keepRecent e → 1 ≤ keepRecent →
      TurnAfter isUser key (step isUser key s o).1.store keepRecent e.throughSeq := by
  have hahead := (step_messages isUser hcounted o).1
  cases o with
  | appendMessages msgs idempotencyKey => exact ⟨fun i => (h i).frame hahead, by simp [step]⟩
  | compactThread i keepRecent =>
    simp only [step]
    split
    · exact ⟨CutReady.update h (prefix_refl _) (.inl ⟨rfl, rfl⟩), by simp⟩
    · exact ⟨h, by simp⟩
  | resume i folded uuid =>
    refine ⟨CutReady.update h hahead (resume_ready hcounted (h i) folded uuid), ?_⟩
    intro keepRecent e he hkeep
    obtain ⟨fromSeq, folded', hi⟩ := resume_wrote he
    have hready := (h i).frame hahead
    rw [hi] at hready
    exact hready hkeep

/-- What an answer says still holds of the store. -/
def Lasts (isUser : μ → Bool) (key : ThreadKey) (store : InMemoryMemoryStore μ) :
    CompactAnswer → Prop
  | .returned e => Reaches key store e.throughSeq
  | .wrote keepRecent e => 1 ≤ keepRecent → TurnAfter isUser key store keepRecent e.throughSeq
  | _ => True

/-- Where processes begin: none is under way, the store is as calls on threads leave it, ids are
    distinct, and no two compactions are the furthest. -/
structure Start (key : ThreadKey) (s : ThreadCompactions μ) : Prop where
  idle : ∀ i, s.process i = .idle
  reached : ∃ now os, s.store = reached key now os
  ids : ((episodes key s.store).map (·.id)).Nodup
  furthest : ∀ b b', Stored key s.store b → Stored key s.store b' →
    (∀ e, Stored key s.store e → e.throughSeq ≤ b.throughSeq ∧ e.throughSeq ≤ b'.throughSeq) →
    b = b'

/-- What holds between the steps of a run, after the answers so far. -/
structure RunKept (isUser : μ → Bool) (key : ThreadKey) (s : ThreadCompactions μ)
    (answers : List CompactAnswer) : Prop where
  inv : Inv key s.store s.process
  counted : s.store.Counted key
  ready : ∀ i, CutReady isUser key s.store (s.process i)
  lasts : ∀ answer ∈ answers, Lasts isUser key s.store answer

theorem RunKept.step {answers : List CompactAnswer}
    (h : RunKept isUser key s answers) {o : CompactOp μ} (hfresh : Fresh key s o)
    (hsteady : Steady key s o) :
    RunKept isUser key (ThreadCompactions.step isUser key s o).1
      (answers ++ [(ThreadCompactions.step isUser key s o).2]) := by
  have hkept := step_kept isUser h.inv o hfresh hsteady
  obtain ⟨hahead, hcounted⟩ := step_messages isUser h.counted o
  obtain ⟨hready, hwrote⟩ := step_ready h.counted h.ready o
  refine ⟨hkept.inv, hcounted, hready, fun answer hanswer => ?_⟩
  rcases mem_append.mp hanswer with hanswer | hanswer
  · have hold := h.lasts answer hanswer
    cases answer with
    | returned e => exact hkept.reaches _ hold
    | wrote keepRecent e =>
      have hready : CutReady isUser key s.store (.folding keepRecent none e.throughSeq) := hold
      exact hready.frame hahead
    | none | threw => trivial
  · rw [mem_singleton] at hanswer
    subst hanswer
    cases hans : (ThreadCompactions.step isUser key s o).2 with
    | returned e => exact hkept.returned e hans
    | wrote keepRecent e => exact hwrote keepRecent e hans
    | none | threw => trivial

theorem Start.kept (h : Start key s) : RunKept isUser key s [] := by
  obtain ⟨now, os, hstore⟩ := h.reached
  have hown : ∀ i, (s.process i).own = none := fun i => by rw [h.idle]; rfl
  constructor
  · constructor
    · exact h.ids
    · intro i e hi
      rw [hown] at hi
      cases hi
    · intro i j e e' hi
      rw [hown] at hi
      cases hi
    · intro i e w hi
      rw [h.idle] at hi
      cases hi
    · intro b hb hfar _
      refine ⟨hb, fun e he hbetter => ?_⟩
      have heq : e = b := h.furthest e b he hb fun e' he' =>
        ⟨(hfar e' he').trans hbetter.le, hfar e' he'⟩
      subst heq
      rcases hbetter with hlt | ⟨-, hlt⟩
      · exact lt_irrefl _ hlt
      · exact String.lt_irrefl _ hlt
  · rw [hstore]
    exact counted_reached key now os
  · intro i
    rw [h.idle]
    trivial
  · exact fun _ hmem => absurd hmem not_mem_nil

/-- **Compactions converge.**  Where every step is steady, compactions reach as far as at any time
    before and as any that was returned; once no process is under way one is left of the
    furthest; and each that was written with messages to keep ends right before a turn, with as
    many messages after it. -/
theorem compactions_converge (isUser : μ → Bool) (key : ThreadKey) (s : ThreadCompactions μ)
    (os : List (CompactOp μ)) (hstart : Start key s)
    (hsteady : (threadCompactions isUser key).Always (fun s o => Fresh key s o ∧ Steady key s o)
      s os) :
    let s' := (threadCompactions isUser key).run s os
    (∀ before after, os = before ++ after → ∀ e,
      Stored key ((threadCompactions isUser key).run s before).store e →
        Reaches key s'.store e.throughSeq) ∧
    (∀ answer ∈ (threadCompactions isUser key).outs s os, Lasts isUser key s'.store answer) ∧
    ((∀ i, s'.process i = .idle) → ∀ e, Stored key s'.store e →
      ∃ b, Stored key s'.store b ∧
        ∀ b', Stored key s'.store b' → b' ≠ b → b'.throughSeq < b.throughSeq) := by
  intro s'
  have hstep : ∀ (s : ThreadCompactions μ) o answers, Fresh key s o ∧ Steady key s o →
      RunKept isUser key s answers → RunKept isUser key ((threadCompactions isUser key).next s o)
        (answers ++ [(threadCompactions isUser key).out s o]) :=
    fun s o answers h hs => hs.step h.1 h.2
  have hkept : RunKept isUser key s' ((threadCompactions isUser key).outs s os) := by
    rw [← trace_out]
    exact run_induction_trace (P := RunKept isUser key) hstep hsteady hstart.kept
  refine ⟨?_, hkept.lasts, fun hidle e he => ?_⟩
  · rintro before after rfl e he
    obtain ⟨hbefore, hafter⟩ := (always_append _ _ _ _ _).mp hsteady
    have hmid := run_induction_trace (P := RunKept isUser key) hstep hbefore hstart.kept
    have hend := run_induction_always
      (P := fun s => Inv key s.store s.process ∧ Reaches key s.store e.throughSeq)
      (fun s o h hs => by
        have hkept := step_kept isUser hs.1 o h.1 h.2
        exact ⟨hkept.inv, hkept.reaches _ hs.2⟩) hafter ⟨hmid.inv, e, he, le_rfl⟩
    rw [← run_append] at hend
    exact hend.2
  · obtain ⟨b, hb, -⟩ := exists_best he
    refine ⟨b, hb.1, fun b' hb' hne => ?_⟩
    have hle := fun e' he' => not_lt.mp fun hlt => hb.2 e' he' (.inl hlt)
    refine lt_of_not_ge fun hge => hb.2 b' hb' ?_
    have hbest' := hkept.inv.settled b' hb' (fun e' he' => (hle e' he').trans hge)
      fun i hi => by
        rw [hidle] at hi
        cases hi
    exact hkept.inv.better hb' hb.1 hne (hbest'.2 b hb.1)

/-! ## Two processes -/

def sharedKey : ThreadKey := ⟨"n", "t", none⟩

/-- Where two processes begin. -/
def shared : ThreadCompactions Bool where
  store := reached sharedKey 0 []

/-- What a process writes. -/
def note (id : String) : EpisodicRecord :=
  shared.store.makeEpisode (episodeInput sharedKey 1 1 { summary := "notes" }) id

section

variable {store : InMemoryMemoryStore Bool}
  (h : store.threadEpisodes.get sharedKey.threadK = some [note "b", note "a"])

include h

theorem winner_notes : winner (compactions sharedKey store 2) 1 = some (note "a") := by
  have hlisted : compactions sharedKey store 2 = [note "a", note "b"] := by
    simp [compactions, listThreadEpisodes, h, note,
      queryEpisodes, rankedBefore, episodeInput,
      episodeKey, makeEpisode, JsMap.lookup,
      List.mergeSort]
  rw [hlisted]
  simp [winner, before, List.mergeSort, note, episodeInput, EpisodicRecord.throughSeq,
    makeEpisode]

theorem judge_note (id : String) : judge sharedKey store (note id) =
    if id = "a" then (.idle, .returned (note "a"))
    else (.superseded (note id) (note "a"), .none) := by
  have hbest : winner (compactions sharedKey store 2) (note id).throughSeq = some (note "a") :=
    winner_notes h
  rw [judge, hbest]
  by_cases hid : id = "a"
  · subst hid
    rfl
  · have hne : (note "a").id ≠ (note id).id := fun heq => hid heq.symm
    simp only [hne, if_false, hid]

end

def CompactRun.writes : CompactRun → Bool
  | .writing .. => true
  | _ => false

/-- While there are two episodes at most, a process that does not write goes on steadily. -/
theorem steady_of_few {s : ThreadCompactions Bool} {i : Nat} {uuid : String}
    {folded : Except String FoldedTranscript} (h : CompactRun.writes (s.process i) = false)
    (hfew : (episodes sharedKey s.store).length ≤ 2) :
    Fresh sharedKey s (.resume i folded uuid) ∧ Steady sharedKey s (.resume i folded uuid) := by
  simp only [Fresh, Steady]
  cases hrun : s.process i with
  | writing =>
    rw [hrun] at h
    cases h
  | written => exact ⟨trivial, fun b hb => hb.1.mem_compactions hfew⟩
  | idle | cutting | folding | superseded => exact ⟨trivial, trivial⟩

/-- Decides that no step writes and that two episodes are stored at most. -/
def quietly : ThreadCompactions Bool → List (CompactOp Bool) → Bool
  | _, [] => true
  | s, o :: os =>
    (match o with
    | .resume i .. => !CompactRun.writes (s.process i) && (episodes sharedKey s.store).length ≤ 2
    | _ => true) && quietly ((threadCompactions id sharedKey).next s o) os

theorem always_of_quietly {os : List (CompactOp Bool)} {s : ThreadCompactions Bool}
    (h : quietly s os = true) :
    (threadCompactions id sharedKey).Always
      (fun s o => Fresh sharedKey s o ∧ Steady sharedKey s o) s os := by
  induction os generalizing s with
  | nil => trivial
  | cons o os ih =>
    obtain ⟨hfirst, hrest⟩ := Bool.and_eq_true_iff.mp h
    refine ⟨?_, ih hrest⟩
    cases o with
    | resume i =>
      simp only [Bool.and_eq_true, Bool.not_eq_true', decide_eq_true_eq] at hfirst
      exact steady_of_few hfirst.1 hfirst.2
    | _ => exact ⟨trivial, trivial⟩

/-- A process goes on. -/
def go (i : Nat) (uuid : String) : CompactOp Bool :=
  .resume i (.ok { summary := "notes" }) uuid

/-- Two processes find their cut, and both see no compaction that reaches it. -/
def opening : List (CompactOp Bool) :=
  [.appendMessages [true, true] none, .compactThread 0 1, .compactThread 1 1, go 0 "", go 1 "",
    go 0 "", go 1 ""]

theorem first_steady {s : ThreadCompactions Bool}
    (hstore : s.store.threadEpisodes.get sharedKey.threadK = none)
    (hrun : s.process 0 = .writing 1 1 1 { summary := "notes" }) :
    Fresh sharedKey s (go 0 "b") ∧ Steady sharedKey s (go 0 "b") := by
  constructor
  · simp [Fresh, go, hrun, episodes, hstore]
  · simp [Steady, go, hrun, Stored, episodes, hstore]

/-- The second writes a lower id while the first is still to judge. -/
theorem second_steady {s : ThreadCompactions Bool}
    (hstore : s.store.threadEpisodes.get sharedKey.threadK = some [note "b"])
    (hown : s.process 0 = .written (note "b"))
    (hrun : s.process 1 = .writing 1 1 1 { summary := "notes" }) :
    Fresh sharedKey s (go 1 "a") ∧ Steady sharedKey s (go 1 "a") := by
  constructor
  · simp only [Fresh, go, hrun, episodes, hstore]
    decide
  · simp only [Steady, go, hrun, Stored, episodes, hstore]
    rintro e ⟨he, -⟩ - -
    obtain rfl := mem_singleton.mp he
    exact .inl ⟨0, by rw [hown]; rfl⟩

/-- From there on the first deletes its own, and both return the second's. -/
theorem judging_steady {s : ThreadCompactions Bool}
    (hstore : s.store.threadEpisodes.get sharedKey.threadK = some [note "b", note "a"])
    (hfirst : s.process 0 = .written (note "b")) (hsecond : s.process 1 = .written (note "a")) :
    (threadCompactions id sharedKey).Always
      (fun s o => Fresh sharedKey s o ∧ Steady sharedKey s o) s [go 0 "", go 0 "", go 1 ""] := by
  have hfew : (episodes sharedKey s.store).length ≤ 2 := by
    simp [episodes, hstore]
  have hjudged : (threadCompactions id sharedKey).next s (go 0 "") =
      { s with process := update s.process 0 (.superseded (note "b") (note "a")) } := by
    simp [Machine.next, threadCompactions, step, go, hfirst, resume, judge_note hstore]
  have hdeleted : (threadCompactions id sharedKey).next
      ((threadCompactions id sharedKey).next s (go 0 "")) (go 0 "") =
      { store := s.store.deleteThreadEpisode sharedKey "b"
        process := update s.process 0 .idle } := by
    rw [hjudged]
    simp [Machine.next, threadCompactions, step, go, resume, note, makeEpisode]
  refine ⟨steady_of_few (by rw [hfirst]; rfl) hfew, ?_, ?_, trivial⟩
  · rw [hjudged]
    exact steady_of_few (by simp [CompactRun.writes]) hfew
  · rw [hdeleted]
    refine steady_of_few (by simp [hsecond, CompactRun.writes]) ?_
    rw [episodes_delete]
    exact (length_filter_le _ _).trans hfew

/-- Where the two are after the opening, after the first writes and after the second does. -/
theorem written_runs :
    let machine := threadCompactions id sharedKey
    let s := machine.run shared opening
    let s' := machine.run shared (opening ++ [go 0 "b"])
    let s'' := machine.run shared (opening ++ [go 0 "b"] ++ [go 1 "a"])
    quietly shared opening = true ∧
    (s.store.threadEpisodes.get sharedKey.threadK = none ∧
      s.process 0 = .writing 1 1 1 { summary := "notes" }) ∧
    (s'.store.threadEpisodes.get sharedKey.threadK = some [note "b"] ∧
      s'.process 0 = .written (note "b") ∧
      s'.process 1 = .writing 1 1 1 { summary := "notes" }) ∧
    s''.store.threadEpisodes.get sharedKey.threadK = some [note "b", note "a"] ∧
      s''.process 0 = .written (note "b") ∧ s''.process 1 = .written (note "a") := by
  decide +kernel

theorem compactions_converge_overlapping :
    let os := opening ++ [go 0 "b"] ++ [go 1 "a"] ++ [go 0 "", go 0 "", go 1 ""]
    let s' := (threadCompactions id sharedKey).run shared os
    (∀ before after, os = before ++ after → ∀ e,
      Stored sharedKey ((threadCompactions id sharedKey).run shared before).store e →
        Reaches sharedKey s'.store e.throughSeq) ∧
    (∀ answer ∈ (threadCompactions id sharedKey).outs shared os,
      Lasts id sharedKey s'.store answer) ∧
    ((∀ i, s'.process i = .idle) → ∀ e, Stored sharedKey s'.store e →
      ∃ b, Stored sharedKey s'.store b ∧
        ∀ b', Stored sharedKey s'.store b' → b' ≠ b → b'.throughSeq < b.throughSeq) := by
  refine compactions_converge id sharedKey shared _
    { idle := fun _ => rfl
      reached := ⟨0, [], rfl⟩
      ids := nodup_nil
      furthest := fun _ _ hb => absurd hb.1 not_mem_nil } ?_
  obtain ⟨hquiet, ⟨hempty, hwriting⟩, ⟨hone, hwritten, hwriting'⟩, hstore, hfirst, hsecond⟩ :=
    written_runs
  rw [always_append, always_append, always_append]
  exact ⟨⟨⟨always_of_quietly hquiet, first_steady hempty hwriting, trivial⟩,
    second_steady hone hwritten hwriting', trivial⟩, judging_steady hstore hfirst hsecond⟩

/-- Neither process has seen the other's episode; the second is to judge its own. -/
def racing : List (CompactOp Bool) :=
  opening ++ [go 0 "b", go 0 "", go 1 "a"]

/-- The second writes an episode with a lower id after the first has judged: both return their
    own, and both stay. -/
theorem compactions_counterexample :
    let s := (threadCompactions id sharedKey).run shared racing
    .returned (note "b") ∈ (threadCompactions id sharedKey).outs shared racing ∧
    (threadCompactions id sharedKey).step s (.resume 1 (.error "") "") =
      ({ s with process := update s.process 1 .idle }, .returned (note "a")) ∧
    s.store.threadEpisodes.get sharedKey.threadK = some [note "b", note "a"] ∧
    (note "b").throughSeq = (note "a").throughSeq := by
  intro s
  obtain ⟨hfirst, hstore, hsecond⟩ :
      .returned (note "b") ∈ (threadCompactions id sharedKey).outs shared racing ∧
      s.store.threadEpisodes.get sharedKey.threadK = some [note "b", note "a"] ∧
      s.process 1 = .written (note "a") := by
    decide +kernel
  refine ⟨hfirst, ?_, hstore, rfl⟩
  simp only [threadCompactions, step, hsecond, resume, judge_note hstore, if_true]

end ThreadCompactions

end Promin.Agent
