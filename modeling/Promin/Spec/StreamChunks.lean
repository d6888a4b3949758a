import Promin.Spec.KeyIsolation

/-!
# The chunks of a stream

A stream is a log of the chunks appended under different ids.
-/

namespace Promin.Durable

open List InMemoryStreams

open InMemoryStreams (streamKey)

/-! ## The log -/

/-- The chunks since the workflow was last deleted, each with the id it was appended under. -/
abbrev StreamLog := List (Option String × StreamChunk)

/-- An append under an id that is in the log answers the index of the first chunk with it. -/
def StreamLog.append (log : StreamLog) (now : Int) (p : AppendStreamChunkParams) :
    StreamLog × Nat :=
  match p.chunkId.bind fun c => log.findIdx? fun e => e.1 == some c with
  | some seen => (log, seen)
  | none => (log ++ [(p.chunkId, ⟨log.length, p.payload, p.appendedBy, now⟩)], log.length)

section

variable (w streamId : String)

def On (p : AppendStreamChunkParams) : Prop := p.workflowId = w ∧ p.streamId = streamId

instance (p : AppendStreamChunkParams) : Decidable (On w streamId p) :=
  inferInstanceAs (Decidable (_ ∧ _))

/-- A call on the log of one stream. -/
def StreamLog.step (log : StreamLog) : StreamOp → StreamLog
  | .append now p => if On w streamId p then (log.append now p).1 else log
  | .deleteWorkflow w' => if w' = w then [] else log

/-- The log of the stream after the calls. -/
def logOf (ops : List StreamOp) : StreamLog := ops.foldl (StreamLog.step w streamId) []

/-! ## Calls that spare the stream -/

def idKey (c : String) : String := streamKey w streamId ++ "::" ++ c

/-- The ids a run appends under. -/
def idsOf (ops : List StreamOp) : List String :=
  ops.filterMap fun
    | .append _ p => if On w streamId p then p.chunkId else none
    | .deleteWorkflow _ => none

/-- A call on another stream touches neither the key nor the listed chunk ids. -/
def spares (ids : List String) : StreamOp → Bool
  | .append _ p => decide (On w streamId p) ||
      streamKey p.workflowId p.streamId != streamKey w streamId && ids.all fun c =>
        p.chunkId.all fun c' => idKey p.workflowId p.streamId c' != idKey w streamId c
  | .deleteWorkflow w' => w' == w || (streamKey w streamId :: ids.map (idKey w streamId)).all
      fun key => !(w' ++ "::").toList.isPrefixOf key.toList

/-! ## The maps follow the log -/

/-- The two maps hold what the log says. -/
structure Follows (ids : List String) (s : InMemoryStreams) (log : StreamLog) : Prop where
  chunks : s.chunksOf w streamId = log.map (·.2)
  byChunkId : ∀ c ∈ ids, s.byChunkId.get (idKey w streamId c) =
    log.findIdx? fun e => e.1 == some c
  dense : log.map (·.2.chunkIndex) = List.range log.length

end

variable {w streamId : String} {ids : List String} {s : InMemoryStreams} {log : StreamLog}

theorem idKey_inj {c c' : String} (h : idKey w streamId c = idKey w streamId c') : c = c' := by
  simpa [idKey, String.ext_iff] using h

theorem Follows.append (h : Follows w streamId ids s log) (now : Int)
    {p : AppendStreamChunkParams} (hon : On w streamId p) (hids : ∀ c ∈ p.chunkId, c ∈ ids) :
    (s.append now p).2 = (log.append now p).2 ∧
      Follows w streamId ids (s.append now p).1 (log.append now p).1 := by
  obtain ⟨rfl, rfl⟩ := hon
  have hseen : (p.chunkId.map (idKey p.workflowId p.streamId)).bind s.byChunkId.get =
      p.chunkId.bind fun c => log.findIdx? fun e => e.1 == some c := by
    cases hc : p.chunkId with
    | none => rfl
    | some c => exact h.byChunkId c (hids c hc)
  have hlength : ((s.chunks.get (streamKey p.workflowId p.streamId)).getD []).length =
      log.length := by
    have hchunks := congrArg List.length h.chunks
    rwa [length_map] at hchunks
  simp only [append, StreamLog.append]
  have hkeys : (fun chunkId => streamKey p.workflowId p.streamId ++ "::" ++ chunkId) =
      idKey p.workflowId p.streamId := rfl
  rw [hkeys, hseen]
  cases hlog : p.chunkId.bind fun c => log.findIdx? fun e => e.1 == some c with
  | some seen => exact ⟨rfl, h⟩
  | none =>
    refine ⟨hlength, ?_, fun c hc => ?_, ?_⟩
    · simp only [chunksOf, JsMap.get_set_self, Option.getD_some, hlength,
        map_append, map_cons, map_nil]
      exact congrArg (· ++ _) h.chunks
    · rw [findIdx?_append, ← h.byChunkId c hc]
      cases hp : p.chunkId with
      | none => simp
      | some c' =>
        rw [hp, Option.bind_some] at hlog
        by_cases hsame : c' = c
        · subst hsame
          rw [h.byChunkId c' hc, hlog]
          simp [hlength]
        · have hother : idKey p.workflowId p.streamId c' ≠ idKey p.workflowId p.streamId c :=
            fun heq => hsame (idKey_inj heq)
          simp [JsMap.get_set_ne _ _ hother, hsame]
    · simp [h.dense, range_succ]

theorem byChunkId_elsewhere (s : InMemoryStreams) (now : Int) (p : AppendStreamChunkParams)
    {k : String} (hk : ∀ c ∈ p.chunkId, idKey p.workflowId p.streamId c ≠ k) :
    (s.append now p).1.byChunkId.get k = s.byChunkId.get k := by
  unfold append
  simp only
  split
  · rfl
  · cases hc : p.chunkId with
    | none => rfl
    | some c => exact JsMap.get_set_ne _ _ (hk c hc)

theorem Follows.step (h : Follows w streamId ids s log) {o : StreamOp}
    (hspares : spares w streamId ids o = true) (hids : ∀ c ∈ idsOf w streamId [o], c ∈ ids) :
    Follows w streamId ids (streams.next s o) (StreamLog.step w streamId log o) := by
  cases o with
  | append now p =>
    by_cases hon : On w streamId p
    · rw [StreamLog.step, if_pos hon]
      refine (h.append now hon fun c hc => hids c ?_).2
      rw [Option.mem_def] at hc
      simp [idsOf, hon, hc]
    · rw [StreamLog.step, if_neg hon]
      simp only [spares, hon, decide_false, Bool.false_or, Bool.and_eq_true, bne_iff_ne, ne_eq,
        all_eq_true] at hspares
      obtain ⟨hkey, hidKeys⟩ := hspares
      refine ⟨?_, fun c hc => ?_, h.dense⟩
      · rw [← h.chunks]
        exact congrArg (Option.getD · []) (append_elsewhere s now p (Ne.symm hkey))
      · rw [← h.byChunkId c hc]
        exact byChunkId_elsewhere s now p fun c' hc' => by
          simpa [Option.mem_def.mp hc'] using hidKeys c hc
  | deleteWorkflow w' =>
    have hget : ∀ {α : Type} (m : JsMap String α) (key : String),
        (m.filter fun k _ => !(w' ++ "::").toList.isPrefixOf k.toList).get key =
          if (w' ++ "::").toList.isPrefixOf key.toList then none else m.get key := by
      intro α m key
      rw [JsMap.get_filter]
      cases (w' ++ "::").toList.isPrefixOf key.toList <;> cases m.get key <;> rfl
    by_cases hw : w' = w
    · subst hw
      rw [StreamLog.step, if_pos rfl]
      refine ⟨?_, fun c _ => ?_, rfl⟩
      · refine congrArg (Option.getD · []) ((hget s.chunks _).trans (if_pos ?_))
        simp [streamKey]
      · refine (hget s.byChunkId _).trans (if_pos ?_)
        simp [idKey, streamKey]
    · rw [StreamLog.step, if_neg hw]
      simp only [spares, beq_iff_eq, hw, Bool.or_eq_true, false_or, all_cons,
        Bool.and_eq_true, all_map, all_eq_true, Bool.not_eq_true',
        Function.comp_apply] at hspares
      obtain ⟨hkey, hidKeys⟩ := hspares
      refine ⟨?_, fun c hc => ?_, h.dense⟩
      · rw [← h.chunks]
        exact congrArg (Option.getD · [])
          ((hget s.chunks _).trans (if_neg (Bool.eq_false_iff.mp hkey)))
      · rw [← h.byChunkId c hc]
        exact (hget s.byChunkId _).trans (if_neg (Bool.eq_false_iff.mp (hidKeys c hc)))

theorem run_follows {ops : List StreamOp} (hspares : ∀ o ∈ ops, spares w streamId ids o = true)
    (hids : ∀ c ∈ idsOf w streamId ops, c ∈ ids) :
    Follows w streamId ids (streams.run .new ops) (logOf w streamId ops) := by
  induction ops using List.reverseRecOn with
  | nil => exact ⟨rfl, fun _ _ => rfl, rfl⟩
  | append_singleton ops o ih =>
    have hlast := ih (fun o' ho' => hspares o' (mem_append_left _ ho')) fun c hc =>
      hids c (by simp only [idsOf, filterMap_append]; exact mem_append_left _ hc)
    rw [Machine.run_append, logOf, foldl_append]
    exact hlast.step (hspares o (by simp)) fun c hc =>
      hids c (by simp only [idsOf, filterMap_append]; exact mem_append_right _ hc)

/-- The stream is its log: indices are dense, appends are answered as the log answers them, and
    a reader gets the chunks from where it is on. -/
structure StreamKept (w streamId : String) (ops : List StreamOp) : Prop where
  answers : ∀ before now p after, ops = before ++ .append now p :: after → On w streamId p →
    ((streams.run .new before).append now p).2 = ((logOf w streamId before).append now p).2
  chunks : (streams.run .new ops).chunksOf w streamId = (logOf w streamId ops).map (·.2)
  dense : ((streams.run .new ops).chunksOf w streamId).map (·.chunkIndex) =
    List.range ((streams.run .new ops).chunksOf w streamId).length
  reads : ∀ from_ : Nat, (streams.run .new ops).read w streamId (some (from_ - 1)) none =
    ((streams.run .new ops).chunksOf w streamId).drop from_
  limits : ∀ since limit, (streams.run .new ops).read w streamId since (some limit) =
    ((streams.run .new ops).read w streamId since none).take limit

/-- Chunks with dense indices are filtered as they are dropped. -/
theorem filter_chunkIndex {chunks : List StreamChunk} (n from_ : Nat)
    (hdense : chunks.map (·.chunkIndex) = List.range' n chunks.length) :
    chunks.filter (fun c => decide ((from_ : Int) - 1 < c.chunkIndex)) =
      chunks.drop (from_ - n) := by
  induction chunks generalizing n with
  | nil => simp
  | cons c chunks ih =>
    simp only [map_cons, length_cons, range'_succ, List.cons.injEq] at hdense
    obtain ⟨hindex, hdense⟩ := hdense
    by_cases hle : from_ ≤ n
    · have hall : ∀ m, from_ - (n + m) = 0 := fun m => by omega
      rw [filter_cons_of_pos (by rw [hindex]; simp; omega), ih (n + 1) hdense, hall 1,
        ← Nat.add_zero n, hall 0]
      rfl
    · rw [filter_cons_of_neg (by rw [hindex]; simp; omega), ih (n + 1) hdense,
        show from_ - n = from_ - (n + 1) + 1 by omega]
      rfl

/-- In every run whose calls on other streams and workflows use no key of the stream. -/
theorem stream_kept {ops : List StreamOp}
    (hspares : ∀ o ∈ ops, spares w streamId (idsOf w streamId ops) o = true) :
    StreamKept w streamId ops := by
  have hfollows := run_follows hspares fun _ => id
  have hdense : ((streams.run .new ops).chunksOf w streamId).map (·.chunkIndex) =
      List.range ((streams.run .new ops).chunksOf w streamId).length := by
    rw [hfollows.chunks, map_map, length_map]
    exact hfollows.dense
  refine ⟨?_, hfollows.chunks, hdense, fun from_ => ?_, fun _ _ => rfl⟩
  · rintro before now p after rfl hon
    have hbefore : Follows w streamId (idsOf w streamId (before ++ .append now p :: after))
        (streams.run .new before) (logOf w streamId before) :=
      run_follows (fun o ho => hspares o (mem_append_left _ ho)) fun c hc => by
        simp only [idsOf, filterMap_append]
        exact mem_append_left _ hc
    refine (hbefore.append now hon fun c hc => ?_).1
    rw [Option.mem_def] at hc
    simp [idsOf, hon, hc]
  · rw [range_eq_range'] at hdense
    exact filter_chunkIndex 0 from_ hdense

private def chunk (w streamId : String) (chunkId : Option String) : StreamOp :=
  .append 0 ⟨w, streamId, .null, .external, chunkId⟩

/-- Two streams that use the same chunk ids, and a retry. -/
theorem stream_kept_retry : StreamKept "w" "out"
    [chunk "w" "out" (some "1"), chunk "w" "log" (some "1"), chunk "w" "out" none,
      chunk "w" "out" (some "1"), .deleteWorkflow "v"] :=
  stream_kept (by decide)

/-- The chunk `y` of the stream `s::x` is taken for the chunk `x::y` of the stream `s`, and
    nothing is stored. -/
theorem stream_kept_counterexample : ¬ StreamKept "w" "s::x"
    [chunk "w" "s" (some "x::y"), chunk "w" "s::x" (some "y")] := by
  intro h
  exact absurd h.chunks (by decide)

end Promin.Durable
