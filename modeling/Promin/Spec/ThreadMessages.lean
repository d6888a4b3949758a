import Mathlib.Data.List.Perm.Basic
import Promin.Agent.ThreadCalls

/-!
# Messages of a thread

Messages are numbered from 1 on in the order they are stored, whatever calls
overlap (`numbered_run`), so a range is a slice of them (`getMessages_window`).
-/

namespace Promin.Agent

open List Machine InMemoryMemoryStore

variable {μ : Type}

/-! ## Numbered messages -/

/-- Numbered one after the other from the one after `seq` on. -/
def Numbered (seq : Int) : List (StoredMessage μ) → Prop
  | [] => True
  | m :: rest => m.seq = seq + 1 ∧ Numbered (seq + 1) rest

theorem numbered_append {seq : Int} {l l' : List (StoredMessage μ)} :
    Numbered seq (l ++ l') ↔ Numbered seq l ∧ Numbered (seq + l.length) l' := by
  induction l generalizing seq with
  | nil => simp [Numbered]
  | cons m l ih =>
    have hseq : seq + (m :: l).length = seq + 1 + l.length := by
      simp only [length_cons]
      omega
    rw [hseq, cons_append, Numbered, Numbered, ih, and_assoc]

variable {l : List (StoredMessage μ)}

theorem numbered_iff {seq : Int} :
    Numbered seq l ↔ l.map (·.seq) = (range l.length).map fun i : Nat => seq + 1 + i := by
  induction l generalizing seq with
  | nil => simp [Numbered]
  | cons m l ih =>
    rw [Numbered, ih, length_cons, range_succ_eq_map, map_cons, map_cons,
      map_map, List.cons.injEq]
    have hnext : ((fun i : Nat => seq + 1 + (i : Int)) ∘ Nat.succ) =
        fun i : Nat => seq + 1 + 1 + (i : Int) := by
      funext i
      show seq + 1 + ((i + 1 : Nat) : Int) = seq + 1 + 1 + i
      omega
    rw [hnext]
    simp

theorem numbered_stored (msgs : List μ) (seq now : Int) :
    Numbered seq (numbered msgs seq now) := by
  rw [numbered_iff]
  apply ext_getElem
  · simp [numbered]
  · intro i hi hi'
    simp [numbered]

theorem numbered_messages (msgs : List μ) (seq now : Int) :
    (numbered msgs seq now).map (·.message) = msgs := by
  apply ext_getElem
  · simp [numbered]
  · intro i hi hi'
    simp [numbered]

theorem Numbered.bounds {seq : Int} (h : Numbered seq l)
    {m : StoredMessage μ} (hm : m ∈ l) : seq < m.seq ∧ m.seq ≤ seq + l.length := by
  have hseq : m.seq ∈ l.map (·.seq) := mem_map_of_mem hm
  rw [numbered_iff.mp h] at hseq
  obtain ⟨i, hi, hseq⟩ := mem_map.mp hseq
  have hlt := mem_range.mp hi
  omega

theorem Numbered.take {seq : Int} (h : Numbered seq l) (n : Nat) :
    Numbered seq (l.take n) := by
  rw [← take_append_drop n l, numbered_append] at h
  exact h.1

theorem Numbered.seq_reverse (h : Numbered 0 l) {a k : Nat}
    {m : StoredMessage μ} (hm : (l.drop a).reverse[k]? = some m) : m.seq = l.length - k := by
  obtain ⟨hk, rfl⟩ := List.getElem?_eq_some_iff.mp hm
  rw [length_reverse, length_drop] at hk
  simp only [getElem_reverse, getElem_drop, length_drop]
  have hget := getElem_of_eq (numbered_iff.mp h) (i := a + (l.length - a - 1 - k))
    (by rw [length_map]; omega)
  rw [getElem_map, getElem_map, getElem_range] at hget
  rw [hget]
  omega

theorem filter_window {seq : Int} (h : Numbered seq l) (fromSeq toSeq : Int) :
    l.filter (fun m => decide (fromSeq ≤ m.seq) && decide (m.seq ≤ toSeq)) =
      (l.take (toSeq - seq).toNat).drop (fromSeq - 1 - seq).toNat := by
  induction l generalizing seq with
  | nil => simp
  | cons m l ih =>
    obtain ⟨hm, hl⟩ := h
    rw [filter_cons, ih hl, hm]
    by_cases hto : seq + 1 ≤ toSeq
    · rw [show (toSeq - seq).toNat = (toSeq - (seq + 1)).toNat + 1 by omega, take_succ_cons]
      by_cases hfrom : fromSeq ≤ seq + 1
      · simp [hto, hfrom, show (fromSeq - 1 - seq).toNat = 0 by omega,
          show (fromSeq - 1 - (seq + 1)).toNat = 0 by omega]
      · rw [show (fromSeq - 1 - seq).toNat = (fromSeq - 1 - (seq + 1)).toNat + 1 by omega]
        simp [hfrom]
    · simp [hto, show (toSeq - seq).toNat = 0 by omega,
        show (toSeq - (seq + 1)).toNat = 0 by omega]

namespace InMemoryMemoryStore

variable (s : InMemoryMemoryStore μ) (key : ThreadKey)

theorem getMessages_all : s.getMessages key {} = (s.messages.get key.threadK).getD [] := by
  simp [getMessages]

/-- The messages are numbered without gaps, up to the stored count. -/
structure Counted : Prop where
  numbered : Numbered 0 (s.getMessages key {})
  seq : (s.seqByThread.get key.threadK).getD 0 = (s.getMessages key {}).length

variable {s key}

theorem getMessages_window (h : s.Counted key) (range : MessageRange) :
    s.getMessages key range =
      let list := s.getMessages key {}
      let kept := (list.take (range.toSeq.getD list.length).toNat).drop
        (range.fromSeq.getD 1 - 1).toNat
      let directed := if range.newestFirst then kept.reverse else kept
      directed.take (range.limit.getD directed.length) := by
  obtain ⟨fromSeq, toSeq, limit, newestFirst⟩ := range
  have hrange : s.getMessages key { fromSeq := fromSeq, toSeq := toSeq } =
      ((s.getMessages key {}).take (toSeq.getD (s.getMessages key {}).length).toNat).drop
        (fromSeq.getD 1 - 1).toNat := by
    have hlist := h.numbered
    rw [getMessages_all] at hlist ⊢
    have hwindow := filter_window hlist (fromSeq.getD 1)
      (toSeq.getD ((s.messages.get key.threadK).getD []).length)
    rw [Int.sub_zero, Int.sub_zero] at hwindow
    rw [← hwindow]
    apply filter_congr
    intro m hm
    obtain ⟨hlow, hhigh⟩ := hlist.bounds hm
    have hfirst : 1 ≤ m.seq := by omega
    have hlast : m.seq ≤ ((s.messages.get key.threadK).getD []).length := by omega
    cases fromSeq <;> cases toSeq <;> simp [hfirst, hlast]
  simp only [← hrange]
  cases limit with
  | none => exact (take_length).symm
  | some limit => rfl

/-- Two stores hold the same messages of the thread. -/
structure SameMessages (key : ThreadKey) (s s' : InMemoryMemoryStore μ) : Prop where
  messages : s'.getMessages key {} = s.getMessages key {}
  seq : (s'.seqByThread.get key.threadK).getD 0 = (s.seqByThread.get key.threadK).getD 0
  appends : s'.appendsOf key.threadK = s.appendsOf key.threadK

theorem Counted.frame {s' : InMemoryMemoryStore μ} (h : s.Counted key)
    (hsame : SameMessages key s s') : s'.Counted key := by
  constructor
  · rw [hsame.messages]
    exact h.numbered
  · rw [hsame.seq, hsame.messages]
    exact h.seq

variable (s key) in
theorem getMessages_storeMessages (msgs : List μ) (idempotencyKey : Option String) :
    (s.storeMessages key.threadK msgs idempotencyKey).1.getMessages key {} =
      s.getMessages key {} ++ (s.storeMessages key.threadK msgs idempotencyKey).2 := by
  simp [getMessages_all, storeMessages]

theorem Counted.storeMessages (h : s.Counted key) (msgs : List μ) (idempotencyKey : Option String) :
    (s.storeMessages key.threadK msgs idempotencyKey).1.Counted key := by
  have hlength : (s.storeMessages key.threadK msgs idempotencyKey).2.length = msgs.length := by
    simp [InMemoryMemoryStore.storeMessages, InMemoryMemoryStore.numbered]
  constructor
  · rw [getMessages_storeMessages, numbered_append, Int.zero_add, ← h.seq]
    exact ⟨h.numbered, numbered_stored msgs _ s.now⟩
  · rw [getMessages_storeMessages, length_append, hlength, Int.natCast_add, ← h.seq]
    simp [InMemoryMemoryStore.storeMessages]

end InMemoryMemoryStore

namespace ThreadCalls

variable {key : ThreadKey}

open InMemoryMemoryStore (SameMessages Counted)

def appendOf : PendingCall μ → List (List μ × Option String)
  | .append msgs idempotencyKey => [(msgs, idempotencyKey)]
  | _ => []

/-- The appends that are still under way. -/
def waiting (s : ThreadCalls μ) : List (List μ × Option String) := s.pending.flatMap appendOf

/-- The append a call begins. -/
def begun : ThreadOp μ → List (List μ × Option String)
  | .appendMessages msgs idempotencyKey => [(msgs, idempotencyKey)]
  | _ => []

def ended : ThreadAnswer μ → List (FinishedAppend μ)
  | .appended done => [done]
  | _ => []

def Silent (answer : ThreadAnswer μ) : Prop :=
  ended answer = [] ∧ ∀ message, answer ≠ .appendFailed message

/-- What a step other than a delete does to the messages in `store`, where `calls` are the
    appends under way: one of them stores its messages, or none does. -/
inductive Effect (key : ThreadKey) (store : InMemoryMemoryStore μ)
    (calls : List (List μ × Option String)) : ThreadCalls μ × ThreadAnswer μ → Prop where
  | append {s' msgs idempotencyKey} (h : s'.store = (append key store msgs idempotencyKey).1)
      (hcalls : ((msgs, idempotencyKey) :: s'.waiting).Perm calls) :
      Effect key store calls
        (s', .appended ⟨msgs, idempotencyKey, (ThreadCalls.append key store msgs idempotencyKey).2⟩)
  | silent {s' answer} (h : SameMessages key store s'.store) (hanswer : Silent answer)
      (hcalls : s'.waiting.Perm calls) : Effect key store calls (s', answer)

variable {store : InMemoryMemoryStore μ}

theorem Effect.perm {calls calls' : List (List μ × Option String)}
    {result : ThreadCalls μ × ThreadAnswer μ} (h : Effect key store calls result)
    (hperm : calls.Perm calls') : Effect key store calls' result := by
  cases h with
  | append h hcalls => exact .append h (hcalls.trans hperm)
  | silent h hanswer hcalls => exact .silent h hanswer (hcalls.trans hperm)

theorem finish_effect (s : ThreadCalls μ) (call : PendingCall μ) :
    Effect key s.store (appendOf call ++ s.waiting) (s.finish key call) := by
  cases call with
  | append msgs idempotencyKey => exact .append rfl (.refl _)
  | set setter row =>
    cases row with
    | none | some row => exact .silent ⟨rfl, rfl, rfl⟩ ⟨rfl, fun _ h => nomatch h⟩ (.refl _)
  | episode input uuid => exact .silent ⟨rfl, rfl, rfl⟩ ⟨rfl, fun _ h => nomatch h⟩ (.refl _)

theorem withThread_effect (s : ThreadCalls μ) (call : PendingCall μ) :
    Effect key s.store (appendOf call ++ s.waiting) (s.withThread key call) := by
  by_cases hhas : s.store.threads.has key.threadK
  · rw [withThread, if_pos hhas]
    exact finish_effect s call
  · simp only [withThread, createThread, hhas]
    refine .silent ⟨rfl, rfl, rfl⟩ ⟨rfl, fun _ h => nomatch h⟩ ?_
    simpa [waiting] using perm_append_comm

variable (key) in
theorem step_effect (s : ThreadCalls μ) {o : ThreadOp μ} (ho : o ≠ .deleteThread) :
    Effect key s.store (begun o ++ s.waiting) (step key s o) := by
  have hsilent : Silent (.none : ThreadAnswer μ) := ⟨rfl, fun _ h => nomatch h⟩
  cases o with
  | advance ms | deleteThreadEpisode episodeId => exact .silent ⟨rfl, rfl, rfl⟩ hsilent (.refl _)
  | createThread init =>
    simp only [step, createThread]
    split
    · rename_i h
      split at h
      · cases h
      · cases h
        exact .silent ⟨rfl, rfl, rfl⟩ hsilent (.refl _)
    · exact .silent ⟨rfl, rfl, rfl⟩ ⟨rfl, fun _ h => nomatch h⟩ (.refl _)
  | appendMessages msgs idempotencyKey => exact withThread_effect s (.append msgs idempotencyKey)
  | set setter =>
    refine .silent ⟨rfl, rfl, rfl⟩ hsilent ?_
    simp [waiting, appendOf, begun]
  | appendThreadEpisode input uuid => exact withThread_effect s (.episode input uuid)
  | deleteThread => exact absurd rfl ho
  | resume place =>
    simp only [step]
    split
    · exact .silent ⟨rfl, rfl, rfl⟩ hsilent (.refl _)
    · rename_i call hcall
      obtain ⟨hplace, hget⟩ := List.getElem?_eq_some_iff.mp hcall
      -- the call that goes on is no longer among those that wait
      have hperm : (appendOf call ++ (s.pending.eraseIdx place).flatMap appendOf).Perm
          s.waiting := by
        rw [← flatMap_cons, ← hget]
        exact (getElem_cons_eraseIdx_perm hplace).flatMap_right _
      exact (finish_effect { s with pending := s.pending.eraseIdx place } call).perm hperm

theorem append_counted (h : store.Counted key) (msgs : List μ)
    (idempotencyKey : Option String) : (append key store msgs idempotencyKey).1.Counted key := by
  rw [append]
  split
  · exact h
  · exact h.storeMessages msgs idempotencyKey

theorem counted_run {s : ThreadCalls μ} (os : List (ThreadOp μ)) (h : s.store.Counted key) :
    ((threadCalls key).run s os).store.Counted key := by
  refine run_induction (P := fun s : ThreadCalls μ => s.store.Counted key)
    (fun s o hs => ?_) os h
  by_cases ho : o = .deleteThread
  · subst ho
    constructor
    · simp [threadCalls, Machine.next, step, InMemoryMemoryStore.deleteThread,
        getMessages_all, Numbered]
    · simp [threadCalls, Machine.next, step, InMemoryMemoryStore.deleteThread,
        getMessages_all]
  · have heffect := step_effect key s ho
    show (step key s o).1.store.Counted key
    generalize step key s o = result at heffect
    cases heffect with
    | append hstore _ =>
      rw [hstore]
      exact append_counted hs _ _
    | silent hsame _ _ => exact hs.frame hsame

/-- Of the appends that are done, those that stored their messages: all without a key, and the
    first under each key. -/
def storing (done : List (FinishedAppend μ)) : List (FinishedAppend μ) :=
  done.foldl (fun kept d =>
    if d.idempotencyKey.isSome && kept.any (·.idempotencyKey == d.idempotencyKey) then kept
    else kept ++ [d]) []

variable (done : List (FinishedAppend μ))

theorem storing_snoc (d : FinishedAppend μ) :
    storing (done ++ [d]) =
      if d.idempotencyKey.isSome && (storing done).any (·.idempotencyKey == d.idempotencyKey) then
        storing done
      else storing done ++ [d] := by
  simp [storing]

theorem filter_storing_none :
    (storing done).filter (·.idempotencyKey.isNone) = done.filter (·.idempotencyKey.isNone) := by
  induction done using reverseRecOn with
  | nil => rfl
  | append_singleton done d ih =>
    rw [storing_snoc, filter_append, ← ih]
    cases hkey : d.idempotencyKey with
    | none => simp [hkey]
    | some k => split <;> simp [hkey]

theorem filter_storing_some (k : String) :
    (storing done).filter (·.idempotencyKey == some k) =
      (done.filter (·.idempotencyKey == some k)).take 1 := by
  induction done using reverseRecOn with
  | nil => rfl
  | append_singleton done d ih =>
    rw [filter_append]
    by_cases hkey : d.idempotencyKey = some k
    · have hd : [d].filter (·.idempotencyKey == some k) = [d] := by simp [hkey]
      rw [storing_snoc, hkey, Option.isSome_some, Bool.true_and, hd]
      cases hdone : done.filter (·.idempotencyKey == some k) with
      | nil =>
        rw [hdone, take_nil] at ih
        have hnone : (storing done).any (·.idempotencyKey == some k) = false := by
          rw [any_eq_false]
          exact filter_eq_nil_iff.mp ih
        rw [hnone, if_neg Bool.false_ne_true, filter_append, ih, hd]
        rfl
      | cons first rest =>
        rw [hdone] at ih
        have hmem : first ∈ (storing done).filter (·.idempotencyKey == some k) := by simp [ih]
        have hany : (storing done).any (·.idempotencyKey == some k) = true :=
          any_eq_true.mpr ⟨first, (mem_filter.mp hmem).1, (mem_filter.mp hmem).2⟩
        rw [hany, if_pos rfl, ih]
        rfl
    · have hd : [d].filter (·.idempotencyKey == some k) = [] := by simp [hkey]
      rw [hd, append_nil, ← ih, storing_snoc]
      split
      · rfl
      · rw [filter_append, hd, append_nil]

structure Holds (key : ThreadKey) (store : InMemoryMemoryStore μ) (done : List (FinishedAppend μ)) :
    Prop where
  messages : store.getMessages key {} = (storing done).flatMap (·.stored)
  stored : ∀ d ∈ storing done, d.stored.map (·.message) = d.msgs
  appends : ∀ k, (store.appendsOf key.threadK).get k =
    ((storing done).find? (·.idempotencyKey == some k)).map (·.stored)
  repeats : ∀ d ∈ done, ∀ k, d.idempotencyKey = some k →
    (store.appendsOf key.threadK).get k = some d.stored

theorem Holds.frame {store store' : InMemoryMemoryStore μ} {done : List (FinishedAppend μ)}
    (h : Holds key store done) (hsame : SameMessages key store store') : Holds key store' done where
  messages := hsame.messages.trans h.messages
  stored := h.stored
  appends k := by rw [hsame.appends, h.appends]
  repeats d hd k hk := by rw [hsame.appends, h.repeats d hd k hk]

theorem Holds.append {done : List (FinishedAppend μ)}
    (h : Holds key store done) (msgs : List μ) (idempotencyKey : Option String) :
    Holds key (append key store msgs idempotencyKey).1
      (done ++ [⟨msgs, idempotencyKey, (ThreadCalls.append key store msgs idempotencyKey).2⟩]) := by
  cases hbefore : idempotencyKey.bind (store.appendsOf key.threadK).get with
  | some stored =>
    -- a repeat: what the first append under the key stored
    obtain ⟨k, rfl, hget⟩ := Option.bind_eq_some_iff.mp hbefore
    have hkept : storing (done ++ [⟨msgs, some k, stored⟩]) = storing done := by
      rw [storing_snoc, if_pos]
      rw [h.appends, Option.map_eq_some_iff] at hget
      obtain ⟨first, hfirst, -⟩ := hget
      simp only [Option.isSome_some, Bool.true_and, any_eq_true]
      have hkey := find?_some hfirst
      exact ⟨first, mem_of_find?_eq_some hfirst, hkey⟩
    simp only [ThreadCalls.append, hbefore]
    refine ⟨by rw [hkept, h.messages], by rw [hkept]; exact h.stored,
      fun k' => by rw [hkept, h.appends], fun d hd k' hk' => ?_⟩
    rcases List.mem_append.mp hd with hd | hd
    · exact h.repeats d hd k' hk'
    · cases List.mem_singleton.mp hd
      cases hk'
      exact hget
  | none =>
    have hnone : ∀ k, idempotencyKey = some k → (store.appendsOf key.threadK).get k = none := by
      rintro k rfl
      exact hbefore
    simp only [ThreadCalls.append, hbefore]
    generalize hstored : (store.storeMessages key.threadK msgs idempotencyKey).2 = stored
    have hkept : storing (done ++ [⟨msgs, idempotencyKey, stored⟩]) =
        storing done ++ [⟨msgs, idempotencyKey, stored⟩] := by
      rw [storing_snoc, if_neg]
      simp only [Bool.and_eq_true, any_eq_true, not_and, not_exists]
      intro hsome d hd hkey
      obtain ⟨k, rfl⟩ := Option.isSome_iff_exists.mp hsome
      have hfind := h.appends k
      rw [hnone k rfl, eq_comm, Option.map_eq_none_iff, find?_eq_none] at hfind
      exact hfind d hd hkey
    have happends : ∀ k,
        ((store.storeMessages key.threadK msgs idempotencyKey).1.appendsOf key.threadK).get k =
          if idempotencyKey = some k then some stored else (store.appendsOf key.threadK).get k := by
      intro k
      cases idempotencyKey with
      | none => rfl
      | some k' =>
        simp [storeMessages, appendsOf, JsMap.get_set,
          ← hstored]
    constructor
    · rw [getMessages_storeMessages, hstored, hkept, flatMap_append,
        h.messages, flatMap_singleton]
    · intro d hd
      rw [hkept] at hd
      rcases List.mem_append.mp hd with hd | hd
      · exact h.stored d hd
      · cases List.mem_singleton.mp hd
        rw [← hstored]
        exact numbered_messages msgs _ _
    · intro k
      rw [hkept, happends, find?_append, h.appends]
      by_cases hkey : idempotencyKey = some k
      · have hfind := h.appends k
        rw [hnone k hkey, eq_comm, Option.map_eq_none_iff] at hfind
        rw [hfind, if_pos hkey]
        simp [hkey]
      · simp [hkey]
    · intro d hd k hk
      rw [happends]
      rcases List.mem_append.mp hd with hd | hd
      · rw [if_neg, h.repeats d hd k hk]
        intro hkey
        have := h.repeats d hd k hk
        rw [hnone k hkey] at this
        cases this
      · cases List.mem_singleton.mp hd
        rw [if_pos hk]

/-- The appends a run of the machine ends, in order. -/
def finished (key : ThreadKey) (s : ThreadCalls μ) (os : List (ThreadOp μ)) :
    List (FinishedAppend μ) :=
  (threadCalls key).trace (fun s o => ended ((threadCalls key).out s o)) s os

/-- The store after calls on one thread. -/
def reached (key : ThreadKey) (now : Int) (os : List (ThreadOp μ)) : InMemoryMemoryStore μ :=
  ((threadCalls key).run { store := new now } os).store

theorem counted_reached (key : ThreadKey) (now : Int) (os : List (ThreadOp μ)) :
    (reached key now os).Counted key :=
  counted_run os ⟨by simp [getMessages_all, new, Numbered],
    by simp [getMessages_all, new]⟩

/-- Nothing is stored of the thread's messages: it is new, or deleted. -/
structure NoMessages (key : ThreadKey) (store : InMemoryMemoryStore μ) : Prop where
  messages : store.messages.get key.threadK = none
  seq : store.seqByThread.get key.threadK = none
  appends : store.appendsByThread.get key.threadK = none

theorem NoMessages.holds (h : NoMessages key store) :
    Holds key store [] where
  messages := by simp [getMessages_all, h.messages, storing]
  stored := by simp [storing]
  appends k := by simp [appendsOf, h.appends, storing]
  repeats := by simp

theorem NoMessages.counted (h : NoMessages key store) :
    store.Counted key where
  numbered := by simp [getMessages_all, h.messages, Numbered]
  seq := by simp [getMessages_all, h.messages, h.seq]

theorem holds_run {s : ThreadCalls μ} {os : List (ThreadOp μ)} (hempty : NoMessages key s.store)
    (hkept : .deleteThread ∉ os) :
    Holds key ((threadCalls key).run s os).store (finished key s os) := by
  have halways : (threadCalls key).Always (fun _ o => o ≠ .deleteThread) s os :=
    always_of_mem (fun _ ho heq => hkept (Eq.subst (motive := (· ∈ os)) heq ho)) s
  refine run_induction_trace
    (P := fun (s : ThreadCalls μ) done => Holds key s.store done) (fun s o done ho hs => ?_)
    halways hempty.holds
  have heffect := step_effect key s ho
  show Holds key (step key s o).1.store (done ++ ended (step key s o).2)
  generalize step key s o = result at heffect
  cases heffect with
  | append hstore _ =>
    rw [hstore]
    exact hs.append _ _
  | silent hsame hanswer _ =>
    rw [hanswer.1, append_nil]
    exact hs.frame hsame

theorem calls_run (s : ThreadCalls μ) {os : List (ThreadOp μ)} (hkept : .deleteThread ∉ os) :
    (∀ message, .appendFailed message ∉ (threadCalls key).outs s os) ∧
    ((finished key s os).map (fun d => (d.msgs, d.idempotencyKey)) ++
      ((threadCalls key).run s os).waiting).Perm (os.flatMap begun ++ s.waiting) := by
  induction os generalizing s with
  | nil => exact ⟨fun _ => not_mem_nil, .refl _⟩
  | cons o os ih =>
    obtain ⟨hfail, hperm⟩ := ih ((threadCalls key).next s o) fun h => hkept (.tail _ h)
    have heffect := step_effect key s (o := o) fun h => hkept (h ▸ .head _)
    have hstep : (∀ message, (step key s o).2 ≠ .appendFailed message) ∧
        ((ended (step key s o).2).map (fun d => (d.msgs, d.idempotencyKey)) ++
          (step key s o).1.waiting).Perm (begun o ++ s.waiting) := by
      generalize step key s o = result at heffect
      cases heffect with
      | append _ hcalls => exact ⟨by simp, hcalls⟩
      | silent _ hanswer hcalls =>
        rw [hanswer.1]
        exact ⟨hanswer.2, hcalls⟩
    constructor
    · intro message hmem
      rcases mem_cons.mp hmem with heq | hmem
      · exact hstep.1 message heq.symm
      · exact hfail message hmem
    · show ((ended (step key s o).2 ++ finished key (step key s o).1 os).map _ ++ _).Perm _
      rw [map_append, append_assoc, flatMap_cons, append_assoc]
      exact ((hperm.append_left _).trans (perm_append_comm_assoc _ _ _)).trans
        ((hstep.2.append_left _).trans (perm_append_comm_assoc _ _ _))

/-- What overlapping appends come to: `done` have returned, `calls` were made or waited. -/
structure AppendsKept (key : ThreadKey) (calls : List (List μ × Option String))
    (answers : List (ThreadAnswer μ)) (done : List (FinishedAppend μ)) (s : ThreadCalls μ) :
    Prop where
  noneFails : ∀ message, .appendFailed message ∉ answers
  calls : (done.map (fun d => (d.msgs, d.idempotencyKey)) ++ s.waiting).Perm calls
  numbered : (s.store.getMessages key {}).map (·.seq) =
    (range (s.store.getMessages key {}).length).map fun i : Nat => 1 + (i : Int)
  messages : s.store.getMessages key {} = (storing done).flatMap (·.stored)
  stored : ∀ d ∈ storing done, d.stored.map (·.message) = d.msgs
  withoutKey :
    (storing done).filter (·.idempotencyKey.isNone) = done.filter (·.idempotencyKey.isNone)
  underKey : ∀ k, (storing done).filter (·.idempotencyKey == some k) =
    (done.filter (·.idempotencyKey == some k)).take 1
  repeats : ∀ d ∈ done, ∀ d' ∈ done, d.idempotencyKey.isSome →
    d.idempotencyKey = d'.idempotencyKey → d.stored = d'.stored
  window : ∀ range, s.store.getMessages key range =
    let list := s.store.getMessages key {}
    let kept := (list.take (range.toSeq.getD list.length).toNat).drop
      (range.fromSeq.getD 1 - 1).toNat
    let directed := if range.newestFirst then kept.reverse else kept
    directed.take (range.limit.getD directed.length)

/-- Whatever calls on a thread overlap, as long as none deletes it, the appends are kept. -/
theorem appends_interleaved (key : ThreadKey) (s : ThreadCalls μ) (os : List (ThreadOp μ))
    (hempty : NoMessages key s.store) (hkept : .deleteThread ∉ os) :
    AppendsKept key (os.flatMap begun ++ s.waiting) ((threadCalls key).outs s os)
      (finished key s os) ((threadCalls key).run s os) := by
  have hholds := holds_run hempty hkept
  have hcounted := counted_run os hempty.counted
  obtain ⟨hfail, hperm⟩ := calls_run s hkept
  constructor
  · exact hfail
  · exact hperm
  · simpa using numbered_iff.mp hcounted.numbered
  · exact hholds.messages
  · exact hholds.stored
  · exact filter_storing_none _
  · exact filter_storing_some _
  · intro d hd d' hd' hsome heq
    obtain ⟨k, hk⟩ := Option.isSome_iff_exists.mp hsome
    have hget := hholds.repeats d hd k hk
    rw [hholds.repeats d' hd' k (heq ▸ hk)] at hget
    exact (Option.some_inj.mp hget).symm
  · exact fun range => getMessages_window hcounted range

/-- Two first appends under one key: the first waits for its thread, the second finds it there and
    finishes at once, and one of them stores. -/
theorem appends_interleaved_retry :
    let key : ThreadKey := ⟨"n", "t", none⟩
    let s : ThreadCalls Nat := { store := new 0 }
    let os := [.appendMessages [1, 2] (some "k"), .appendMessages [1, 2] (some "k"), .resume 0]
    NoMessages key s.store ∧ .deleteThread ∉ os ∧
      AppendsKept key (os.flatMap begun ++ s.waiting) ((threadCalls key).outs s os)
        (finished key s os) ((threadCalls key).run s os) :=
  ⟨⟨rfl, rfl, rfl⟩, by simp, appends_interleaved ⟨"n", "t", none⟩
    { store := new 0 }
    [.appendMessages [1, 2] (some "k"), .appendMessages [1, 2] (some "k"), .resume 0]
    ⟨rfl, rfl, rfl⟩ (by simp)⟩

end ThreadCalls

end Promin.Agent

/-!
## Overlapping updates of a thread's row

A setter reads the row, awaits, and writes the whole row back.
-/

namespace Promin.Agent

/-- A row's fields besides `updatedAt`. -/
def ThreadRow.fields (row : ThreadRow) : ThreadRow := { row with updatedAt := 0 }

namespace ThreadCalls

variable {μ : Type} {key : ThreadKey}

/-- A call that changes the thread's row. -/
def Updates : ThreadOp μ → Prop
  | .set _ | .deleteThread | .resume _ | .advance _ => True
  | _ => False

/-- What a completed call makes of the row's fields. -/
def settle (row : Option ThreadRow) : ThreadAnswer μ → Option ThreadRow
  | .set setter => row.map setter.change
  | .deleted => none
  | _ => row

/-- A setter that goes on writes over the row it has read: the thread still exists, and no
    field but its own has changed. -/
def Steady (key : ThreadKey) (s : ThreadCalls μ) : ThreadOp μ → Prop
  | .resume place => ∀ setter row, s.pending[place]? = some (.set setter (some row)) →
    (s.store.getThread key).map (fun stored => (setter.change stored).fields) =
      some (setter.change row).fields
  | _ => True

def OnlySetters (s : ThreadCalls μ) : Prop :=
  ∀ call ∈ s.pending, ∃ setter row, call = .set setter row

theorem change_fields (setter : ThreadSetter) (row : ThreadRow) :
    (setter.change row).fields = setter.change row.fields := by
  cases setter <;> rfl

theorem step_settles {s : ThreadCalls μ} {o : ThreadOp μ} (ho : Updates o)
    (hsteady : Steady key s o) (hpending : OnlySetters s) :
    OnlySetters (step key s o).1 ∧ ((step key s o).1.store.getThread key).map (·.fields) =
      settle ((s.store.getThread key).map (·.fields)) (step key s o).2 := by
  cases o with
  | advance ms => exact ⟨hpending, rfl⟩
  | set setter =>
    refine ⟨fun call hcall => ?_, rfl⟩
    rcases List.mem_append.mp hcall with hcall | hcall
    · exact hpending call hcall
    · exact ⟨setter, _, List.mem_singleton.mp hcall⟩
  | deleteThread =>
    refine ⟨hpending, ?_⟩
    simp [step, settle, InMemoryMemoryStore.deleteThread, InMemoryMemoryStore.getThread]
  | resume place =>
    cases hcall : s.pending[place]? with
    | none =>
      simp only [step, hcall]
      exact ⟨hpending, rfl⟩
    | some call =>
      obtain ⟨setter, row, rfl⟩ := hpending call (List.mem_of_getElem? hcall)
      have hrest : ∀ call ∈ s.pending.eraseIdx place, ∃ setter row, call = .set setter row :=
        fun call h => hpending call (List.mem_of_mem_eraseIdx h)
      simp only [step, hcall, finish]
      cases row with
      | none => exact ⟨hrest, rfl⟩
      | some row =>
        refine ⟨hrest, ?_⟩
        have hread := hsteady setter row hcall
        simp only [finishSet, settle, InMemoryMemoryStore.getThread, JsMap.get_set_self,
          Option.map_some, Option.map_map, Function.comp_def, ← change_fields] at hread ⊢
        exact hread.symm
  | createThread | appendMessages | appendThreadEpisode | deleteThreadEpisode => exact ho.elim

/-- **Overlapping updates.**  Where every setter writes over the row it has read, the row's fields
    are what the completed calls make of them, in the order in which they return: each field is
    as the last call that set it left it, and a deleted thread stays deleted. -/
theorem updates_kept (key : ThreadKey) (s : ThreadCalls μ) (os : List (ThreadOp μ))
    (hidle : s.pending = []) (hos : ∀ o ∈ os, Updates o)
    (hsteady : (threadCalls key).Always (Steady key) s os) :
    (((threadCalls key).run s os).store.getThread key).map (·.fields) =
      ((threadCalls key).outs s os).foldl settle ((s.store.getThread key).map (·.fields)) := by
  have hpending : OnlySetters s := by simp [OnlySetters, hidle]
  clear hidle
  induction os generalizing s with
  | nil => rfl
  | cons o os ih =>
    obtain ⟨hpending', hrow⟩ := step_settles (hos o (.head _)) hsteady.1 hpending
    have hrest := ih ((threadCalls key).next s o) (fun o' ho' => hos o' (.tail _ ho'))
      hsteady.2 hpending'
    rw [Machine.run_cons, hrest]
    show _ = (_ :: _).foldl settle _
    rw [List.foldl_cons]
    exact congrArg (((threadCalls key).outs _ os).foldl settle) hrow

def oneThread (key : ThreadKey) : ThreadCalls μ where
  store := ((InMemoryMemoryStore.new 0).createThread key {}).1

/-- Two titles, both set before either is written: the later write is kept. -/
theorem updates_kept_overlapping :
    let s : ThreadCalls Unit := oneThread ⟨"n", "t", none⟩
    let os := [.set (.setThreadTitle "Plan"), .set (.setThreadTitle "Draft"), .resume 0, .resume 0]
    (((threadCalls ⟨"n", "t", none⟩).run s os).store.getThread ⟨"n", "t", none⟩).map (·.fields) =
      ((threadCalls ⟨"n", "t", none⟩).outs s os).foldl settle
        ((s.store.getThread ⟨"n", "t", none⟩).map (·.fields)) := by
  refine updates_kept _ _ _ rfl (by simp [Updates]) ⟨trivial, trivial, ?_, ?_, trivial⟩
  · rintro _ _ ⟨⟩
    rfl
  · rintro _ _ ⟨⟩
    rfl

/-- Two setters that have read the same row: the second to write takes the first's title back.
    And a setter that has read the row brings a thread back that is deleted since. -/
theorem lost_update_counterexample :
    let s : ThreadCalls Unit := oneThread ⟨"n", "t", none⟩
    let both := [.set (.setThreadTitle "Plan"), .set (.setThreadWorking "notes"), .resume 0,
      .resume 0]
    let back := [.set (.setThreadTitle "Plan"), .deleteThread, .resume 0]
    let row os := ((threadCalls ⟨"n", "t", none⟩).run s os).store.getThread ⟨"n", "t", none⟩
    let settled os := ((threadCalls ⟨"n", "t", none⟩).outs s os).foldl settle
      ((s.store.getThread ⟨"n", "t", none⟩).map (·.fields))
    (row both).map (·.title) = some none ∧ (settled both).map (·.title) = some (some "Plan") ∧
      (row back).map (·.title) = some (some "Plan") ∧ settled back = none :=
  ⟨rfl, rfl, rfl, rfl⟩

end ThreadCalls

end Promin.Agent
