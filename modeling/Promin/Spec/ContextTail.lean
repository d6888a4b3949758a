import Promin.Spec.ThreadMessages

/-!
# The messages of a context

`loadResolvedContext` reads a thread backwards, in pages, to one message past
the budget, and the trimmer drops whole turns from what it is given.
-/

namespace Promin.Agent

open List

namespace InMemoryMemoryStore

open ThreadCalls (reached)

variable {μ : Type} {isUser : μ → Bool} {budget : TokenBudget μ}

/-! ## The trimmer -/

@[simp] theorem total_nil : total budget [] = 0 := rfl

@[simp] theorem total_cons (m : StoredMessage μ) (l : List (StoredMessage μ)) :
    total budget (m :: l) = budget.estimate m + total budget l := rfl

theorem total_append (l l' : List (StoredMessage μ)) :
    total budget (l ++ l') = total budget l + total budget l' := by
  simp [total]

variable (l : List (StoredMessage μ))

theorem total_reverse : total budget l.reverse = total budget l := by
  rw [total, map_reverse, sum_reverse]
  rfl

theorem total_nonneg : 0 ≤ total budget l := by
  induction l with
  | nil => exact Int.le_refl 0
  | cons m l ih =>
    rw [total_cons]
    omega

variable (isUser budget) in
def longestFit : List (StoredMessage μ) → List (StoredMessage μ)
  | [] => []
  | m :: rest =>
    if isUser m.message = true ∧ total budget (m :: rest) ≤ budget.maxMessageTokens then m :: rest
    else longestFit rest

theorem longestFit_suffix : longestFit isUser budget l <:+ l := by
  induction l with
  | nil => exact suffix_refl _
  | cons m l ih =>
    rw [longestFit]
    split
    · exact suffix_refl _
    · exact ih.trans (suffix_cons m l)

theorem longestFit_fits :
    longestFit isUser budget l = [] ∨
      total budget (longestFit isUser budget l) ≤ budget.maxMessageTokens ∧
      ∃ m rest, longestFit isUser budget l = m :: rest ∧ isUser m.message = true := by
  induction l with
  | nil => exact .inl rfl
  | cons m l ih =>
    rw [longestFit]
    split
    · rename_i h
      exact .inr ⟨h.2, m, l, rfl, h.1⟩
    · exact ih

theorem longestFit_drop :
    longestFit isUser budget (l.drop (l.findIdx fun m => isUser m.message)) =
      longestFit isUser budget l := by
  induction l with
  | nil => rfl
  | cons m l ih =>
    rw [findIdx_cons]
    cases hm : isUser m.message with
    | true => rfl
    | false => simpa [longestFit, hm] using ih

theorem longestFit_over (front : List (StoredMessage μ)) {m : StoredMessage μ}
    {rest : List (StoredMessage μ)} (h : budget.maxMessageTokens < total budget (m :: rest)) :
    longestFit isUser budget (front ++ m :: rest) = longestFit isUser budget rest := by
  induction front with
  | nil => rw [nil_append, longestFit, if_neg (by omega)]
  | cons m' front ih =>
    have hfront : 0 ≤ total budget (m' :: front) := total_nonneg _
    have hover : budget.maxMessageTokens < total budget (m' :: front ++ m :: rest) := by
      rw [total_append]
      omega
    rw [← ih]
    exact if_neg fun hfits => absurd hfits.2 (Int.not_le.mpr hover)

theorem trimTurns_eq (remaining : List (StoredMessage μ)) :
    trimTurns isUser budget remaining (total budget remaining) =
      if budget.maxMessageTokens < total budget remaining then
        longestFit isUser budget remaining.tail
      else remaining := by
  induction h : remaining.length using Nat.strongRecOn generalizing remaining with
  | ind n ih =>
    subst h
    rw [trimTurns]
    cases remaining with
    | nil => simp [longestFit]
    | cons m rest =>
      by_cases hover : budget.maxMessageTokens < total budget (m :: rest)
      · rw [dif_pos ⟨cons_ne_nil m rest, hover⟩, if_pos hover, tail_cons]
        let n := rest.findIdx fun m => isUser m.message
        have hdrop : (m :: rest).drop (turnEnd isUser (m :: rest)) = rest.drop n := by
          rw [turnEnd, Nat.add_comm]
          rfl
        have htotal : total budget (m :: rest) -
            total budget ((m :: rest).take (turnEnd isUser (m :: rest))) =
              total budget (rest.drop n) := by
          have hsplit := congrArg (total budget)
            (take_append_drop (turnEnd isUser (m :: rest)) (m :: rest))
          rw [total_append, hdrop] at hsplit
          omega
        have hlength : (rest.drop n).length < (m :: rest).length := by
          rw [length_drop, length_cons]
          omega
        rw [hdrop, htotal, ih _ hlength _ rfl, ← longestFit_drop rest]
        -- what is left starts a turn, or is empty
        cases hrest : rest.drop n with
        | nil => simp [longestFit]
        | cons u rest' =>
          have hn : n < rest.length := by
            have hlen := congrArg List.length hrest
            rw [length_drop, length_cons] at hlen
            omega
          have huser : isUser u.message = true := by
            have hu := findIdx_getElem (w := hn)
            rw [drop_eq_getElem_cons hn] at hrest
            rwa [(List.cons.inj hrest).1] at hu
          rw [longestFit, tail_cons]
          by_cases hfits : total budget (u :: rest') ≤ budget.maxMessageTokens
          · rw [if_neg (Int.not_lt.mpr hfits), if_pos ⟨huser, hfits⟩]
          · rw [if_pos (Int.not_le.mp hfits), if_neg fun h => hfits h.2]
      · rw [dif_neg (fun h => hover h.2), if_neg hover]

theorem trimMessages_eq :
    trimMessages isUser budget l =
      if total budget l ≤ budget.maxMessageTokens then l else longestFit isUser budget l.tail := by
  rw [trimMessages]
  split
  · rfl
  · rename_i hover
    rw [trimTurns_eq, if_pos (Int.not_le.mp hover)]

variable (isUser) in
theorem trimMessages_tail {l taken : List (StoredMessage μ)} (htaken : taken <:+ l) (h : taken = l ∨
      ∃ m rest, taken = m :: rest ∧ budget.maxMessageTokens < total budget (m :: rest)) :
    trimMessages isUser budget taken = trimMessages isUser budget l := by
  rcases h with rfl | ⟨m, rest, rfl, hover⟩
  · rfl
  · obtain ⟨front, rfl⟩ := htaken
    have hfront : 0 ≤ total budget front := total_nonneg _
    rw [trimMessages_eq, trimMessages_eq, if_neg (Int.not_le.mpr hover), total_append,
      if_neg (by omega), tail_cons]
    cases front with
    | nil => rfl
    | cons m' front => exact (longestFit_over front hover).symm

/-- What is kept is an end, within the budget, and where something is dropped it is empty or
    starts a turn. -/
theorem trimMessages_spec :
    trimMessages isUser budget l <:+ l ∧
    (trimMessages isUser budget l = [] ∨
      total budget (trimMessages isUser budget l) ≤ budget.maxMessageTokens) ∧
    (trimMessages isUser budget l = l ∨ trimMessages isUser budget l = [] ∨
      ∃ m rest, trimMessages isUser budget l = m :: rest ∧ isUser m.message = true) := by
  rw [trimMessages_eq]
  split
  · rename_i hfits
    exact ⟨suffix_refl _, .inr hfits, .inl rfl⟩
  · refine ⟨(longestFit_suffix _).trans (tail_suffix l), ?_⟩
    rcases longestFit_fits l.tail with h | ⟨hfits, hhead⟩
    · exact ⟨.inl h, .inr (.inl h)⟩
    · exact ⟨.inr hfits, .inr (.inr hhead)⟩

/-! ## The reader -/

variable (budget) in
theorem takePage_cases (taken page : List (StoredMessage μ)) (cost : Int) :
    takePage budget taken cost page = (taken ++ page, cost + total budget page, false) ∨
    ∃ front m rest, page = front ++ m :: rest ∧
      (takePage budget taken cost page).1 = taken ++ front ++ [m] ∧
      (takePage budget taken cost page).2.2 = true ∧
      budget.maxMessageTokens < cost + total budget (front ++ [m]) := by
  induction page generalizing taken cost with
  | nil => exact .inl (by simp [takePage])
  | cons m page ih =>
    rw [takePage]
    by_cases hover : budget.maxMessageTokens < cost + budget.estimate m
    · rw [if_pos hover]
      exact .inr ⟨[], m, page, rfl, by simp, rfl, by simpa using hover⟩
    · rw [if_neg hover]
      rcases ih (taken ++ [m]) (cost + budget.estimate m) with h | ⟨front, m', rest, rfl, h⟩
      · exact .inl (by simp [h, Int.add_assoc])
      · exact .inr ⟨m :: front, m', rest, rfl, by simpa [Int.add_assoc] using h⟩

variable {s : InMemoryMemoryStore μ} {key : ThreadKey}

theorem getMessages_page (h : s.Counted key) (afterSeq : Int) {k : Nat} {before : Option Int}
    (hk : k ≤ ((s.getMessages key {}).drop afterSeq.toNat).length)
    (hbefore : (before.map (· - 1) : Option Int).getD (s.getMessages key {}).length =
      ((s.getMessages key {}).length : Int) - k) :
    s.getMessages key {
        fromSeq := some (afterSeq + 1)
        toSeq := before.map (· - 1)
        newestFirst := true
        limit := some TAIL_PAGE_SIZE } =
    (((s.getMessages key {}).drop afterSeq.toNat).reverse.drop k).take TAIL_PAGE_SIZE := by
  rw [getMessages_window h]
  simp only [hbefore, Option.getD_some, if_true]
  rw [length_drop] at hk
  congr 1
  rw [drop_reverse, length_drop, take_drop]
  have hstart : (afterSeq + 1 - 1).toNat = afterSeq.toNat := by omega
  rw [hstart]
  rcases Nat.le_total afterSeq.toNat (s.getMessages key {}).length with hle | hge
  · have hend : (((s.getMessages key {}).length : Int) - k).toNat =
        afterSeq.toNat + ((s.getMessages key {}).length - afterSeq.toNat - k) := by omega
    rw [hend]
  · rw [drop_eq_nil_of_le ((length_take_le' _ _).trans hge),
      drop_eq_nil_of_le ((length_take_le' _ _).trans hge)]

theorem readPages_cases (h : s.Counted key) (afterSeq : Int) :
    let live := (s.getMessages key {}).drop afterSeq.toNat
    ∀ fuel k before, k ≤ live.length → live.length < k + fuel →
      (before.map (· - 1) : Option Int).getD (s.getMessages key {}).length =
        ((s.getMessages key {}).length : Int) - k →
      let taken := s.readPages key afterSeq budget fuel (live.reverse.take k)
        (total budget (live.reverse.take k)) before
      taken <:+ live ∧ (taken = live ∨
        ∃ m rest, taken = m :: rest ∧ budget.maxMessageTokens < total budget (m :: rest)) := by
  intro live fuel
  induction fuel with
  | zero =>
    intro k before hk hfuel _
    omega
  | succ fuel ih =>
    intro k before hk hfuel hbefore
    have hpage := getMessages_page h afterSeq hk hbefore
    let page := (live.reverse.drop k).take TAIL_PAGE_SIZE
    have hread : live.reverse.take k ++ page = live.reverse.take (k + TAIL_PAGE_SIZE) :=
      (take_add).symm
    have hprefix : live.reverse.take k ++ page <+: live.reverse := hread ▸ take_prefix _ _
    have hcases := takePage_cases budget (live.reverse.take k) page
      (total budget (live.reverse.take k))
    simp only [readPages, hpage]
    split
    · -- a message tips it over: what is read is the end that begins with that message
      rename_i taken cost htaken
      rw [htaken] at hcases
      rcases hcases with hall | ⟨front, m, rest, hfront, rfl, -, hcost⟩
      · cases hall
      · have hend : (live.reverse.take k ++ front ++ [m]).reverse <:+ live := by
          rw [← reverse_reverse live]
          apply reverse_suffix.mpr
          apply List.IsPrefix.trans ⟨rest, ?_⟩ hprefix
          rw [hfront]
          simp
        refine ⟨hend, .inr ⟨m, (live.reverse.take k ++ front).reverse, by simp, ?_⟩⟩
        rw [← reverse_concat, total_reverse, append_assoc, total_append]
        exact hcost
    · rename_i taken cost htaken
      rw [htaken] at hcases
      rcases hcases with hall | ⟨front, m, rest, -, -, hfalse, -⟩
      · cases hall
        rw [← total_append, hread]
        by_cases hfull : page.length < TAIL_PAGE_SIZE
        · have hlength : live.reverse.length ≤ k + TAIL_PAGE_SIZE := by
            rw [length_take, length_drop] at hfull
            omega
          rw [if_pos hfull, take_of_length_le hlength, reverse_reverse]
          exact ⟨suffix_refl _, .inl rfl⟩
        · have hlength : k + TAIL_PAGE_SIZE ≤ live.length := by
            rw [length_take, length_drop, length_reverse] at hfull
            omega
          rw [if_neg hfull]
          refine ih (k + TAIL_PAGE_SIZE) _ hlength (by rw [TAIL_PAGE_SIZE]; omega) ?_
          -- the next page ends before the oldest message of this one
          have hlast : k + (TAIL_PAGE_SIZE - 1) < live.reverse.length := by
            rw [length_reverse, TAIL_PAGE_SIZE] at *
            omega
          have hget := getElem?_eq_getElem hlast
          have hpageLast : page.getLast? = live.reverse[k + (TAIL_PAGE_SIZE - 1)]? := by
            have hsize : page.length = TAIL_PAGE_SIZE := by
              rw [length_take, length_drop, length_reverse]
              omega
            rw [getLast?_eq_getElem?, hsize, getElem?_take_of_lt (by decide),
              getElem?_drop]
          rw [hpageLast, hget, Option.map_some, Option.map_some, Option.getD_some,
            h.numbered.seq_reverse hget, TAIL_PAGE_SIZE]
          omega
      · cases hfalse

theorem readMessageTail_cases (h : s.Counted key) (afterSeq : Int) :
    let live := (s.getMessages key {}).drop afterSeq.toNat
    s.readMessageTail key afterSeq budget <:+ live ∧
      (s.readMessageTail key afterSeq budget = live ∨ ∃ m rest,
        s.readMessageTail key afterSeq budget = m :: rest ∧
          budget.maxMessageTokens < total budget (m :: rest)) :=
  readPages_cases h afterSeq ((s.getMessages key {}).length + 1) 0 none (Nat.zero_le _)
    (by rw [length_drop]; omega) (by simp)

/-! ## The context -/

/-- The input of a context that reads the whole thread. -/
def wholeInput (s : InMemoryMemoryStore μ) (key : ThreadKey) (budget : TokenBudget μ) :
    ResolveContextInput μ :=
  { s.contextInput key budget with messages := s.getMessages key {} }

theorem filter_after (h : s.Counted key) (seq : Int) :
    (s.getMessages key {}).filter (fun m => decide (seq < m.seq)) =
      (s.getMessages key {}).drop seq.toNat := by
  have hwindow := filter_window h.numbered (seq + 1) (s.getMessages key {}).length
  have hall : ∀ m ∈ s.getMessages key {}, decide (seq < m.seq) =
      (decide (seq + 1 ≤ m.seq) && decide (m.seq ≤ (s.getMessages key {}).length)) := by
    intro m hm
    have hlast := (h.numbered.bounds hm).2
    rw [Int.zero_add] at hlast
    rw [decide_eq_true hlast, Bool.and_true, decide_eq_decide]
    exact Int.lt_iff_add_one_le
  rw [filter_congr hall, hwindow]
  simp only [Int.sub_zero, Int.add_sub_cancel, Int.toNat_natCast, take_length]

theorem liveMessages_tail (h : s.Counted key) (hthread : (s.getThread key).isSome) :
    liveMessages (s.contextInput key budget) <:+ liveMessages (wholeInput s key budget) ∧
    (liveMessages (s.contextInput key budget) = liveMessages (wholeInput s key budget) ∨
      ∃ m rest, liveMessages (s.contextInput key budget) = m :: rest ∧
        budget.maxMessageTokens < total budget (m :: rest)) := by
  let afterSeq := (((s.contextInput key budget).compaction.bind
    (·.sourceMessageRange)).map (·.toSeq)).getD 0
  have hmessages : (s.contextInput key budget).messages =
      s.readMessageTail key afterSeq budget := if_pos hthread
  have hwhole : liveMessages (wholeInput s key budget) =
      (s.getMessages key {}).drop afterSeq.toNat := filter_after h afterSeq
  obtain ⟨hsuffix, hcases⟩ := readMessageTail_cases h afterSeq
  have htail : liveMessages (s.contextInput key budget) =
      s.readMessageTail key afterSeq budget := by
    rw [liveMessages, hmessages]
    apply filter_eq_self.mpr
    intro m hm
    have hlive := hsuffix.subset hm
    rw [← filter_after h] at hlive
    exact (mem_filter.mp hlive).2
  rw [htail, hwhole]
  exact ⟨hsuffix, hcases⟩

/-- **Bounded loading is full loading.**  Whatever calls were made on a thread that exists, the
    messages of its context, read from its tail, are those resolved of the whole thread: an end
    of the messages no compaction has folded, within the budget (empty where it is negative),
    and empty or at the start of a turn where something was dropped. -/
theorem contextMessages_eq (key : ThreadKey) (isUser : μ → Bool) (now : Int)
    (os : List (ThreadOp μ)) (budget : TokenBudget μ)
    (hthread : ((reached key now os).getThread key).isSome) :
    let whole := wholeInput (reached key now os) key budget
    let messages := contextMessages isUser ((reached key now os).contextInput key budget)
    messages = contextMessages isUser whole ∧ messages <:+ liveMessages whole ∧
    (0 ≤ budget.maxMessageTokens → total budget messages ≤ budget.maxMessageTokens) ∧
    (budget.maxMessageTokens < 0 → messages = []) ∧
    (messages = liveMessages whole ∨ messages = [] ∨
      ∃ m rest, messages = m :: rest ∧ isUser m.message = true) := by
  have hcounted := ThreadCalls.counted_reached key now os
  obtain ⟨hsuffix, hcases⟩ := liveMessages_tail hcounted hthread
  have heq := trimMessages_tail isUser hsuffix hcases
  obtain ⟨hspec, hfits, hhead⟩ := trimMessages_spec
    (liveMessages (wholeInput (reached key now os) key budget))
  rw [← heq] at hspec hfits hhead
  refine ⟨heq, hspec, fun hbudget => ?_, fun hbudget => ?_, hhead⟩
  · rcases hfits with hnil | hfits
    · exact (congrArg (total budget) hnil).trans_le hbudget
    · exact hfits
  · exact hfits.resolve_right fun hfits =>
      absurd (total_nonneg _) (Int.not_le.mpr (hfits.trans_lt hbudget))

def perMessage (maxMessageTokens : Int) : TokenBudget μ where
  maxMessageTokens := maxMessageTokens
  estimate _ := 1
  estimateEpisode _ := 0

/-- A question and its answer, of which the answer alone would fit: nothing is kept. -/
theorem contextMessages_eq_answer :
    let key : ThreadKey := ⟨"n", "t", none⟩
    let os := [.createThread {}, .appendMessages [true, false] none]
    ((reached key 0 os).getThread key).isSome ∧
    (let whole := wholeInput (reached key 0 os) key (perMessage 1)
      let messages := contextMessages id ((reached key 0 os).contextInput key (perMessage 1))
      messages = contextMessages id whole ∧ messages <:+ liveMessages whole ∧
      ((0 : Int) ≤ 1 → total (perMessage 1) messages ≤ 1) ∧
      ((1 : Int) < 0 → messages = []) ∧
      (messages = liveMessages whole ∨ messages = [] ∨
        ∃ m rest, messages = m :: rest ∧ id m.message = true)) :=
  ⟨rfl, contextMessages_eq ⟨"n", "t", none⟩ id 0
    [.createThread {}, .appendMessages [true, false] none] (perMessage 1) rfl⟩

/-- No messages are within a budget below zero. -/
theorem contextMessages_counterexample :
    let key : ThreadKey := ⟨"n", "t", none⟩
    let os := [.createThread {}, .appendMessages [true] none]
    ((reached key 0 os).getThread key).isSome ∧
    ¬ total (perMessage (-1))
      (contextMessages id ((reached key 0 os).contextInput key (perMessage (-1)))) ≤ -1 := by
  refine ⟨rfl, fun hfits => ?_⟩
  have hnonneg : 0 ≤ total (perMessage (-1)) _ := total_nonneg (contextMessages id
    ((reached ⟨"n", "t", none⟩ 0 [.createThread {}, .appendMessages [true] none]).contextInput
      ⟨"n", "t", none⟩ (perMessage (-1))))
  omega

end InMemoryMemoryStore

end Promin.Agent
