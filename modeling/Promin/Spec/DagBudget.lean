import Promin.Agent.DagRun
import Promin.ForStd.Amounts
import Promin.Spec.TopologicalSort

/-!
# The budget of a DAG run

A share is computed in one step of a branch and held from a later one, and a
replay meets the journaled shares in any order; so what a drive sees as free may
be promised to others already.
-/

namespace Promin.Agent

open Option hiding max_eq_left

open Relation Function
open List hiding any_eq_true mem_map

namespace DagGraph

variable {dag : DagGraph}

theorem mem_outgoing {a b : String} : b ∈ dag.outgoing a ↔ dag.Precedes a b := by
  simp only [outgoing, Precedes, List.mem_map, mem_filter, decide_eq_true_eq]
  exact exists_congr fun e => and_assoc

private theorem precedes_of_mem {e : DagEdge} {id : String} (he : e ∈ dag.incoming id) :
    e ∈ dag.edges ∧ dag.Precedes e.source id := by
  obtain ⟨hedge, htarget⟩ := mem_filter.mp he
  exact ⟨hedge, e, hedge, rfl, of_decide_eq_true htarget⟩

private theorem length_incoming (h : dag.Valid) (id : String) :
    (dag.incoming id).length = (dag.ids.flatMap dag.outgoing).count id := by
  have hcount : ∀ source, ((dag.incoming id).map (·.source)).count source =
      (dag.outgoing source).count id := by
    intro source
    simp only [incoming, outgoing, List.count, countP_map, countP_filter]
    exact countP_congr fun e _ => by simp [and_comm]
  have hsum := Durable.TopologicalSort.sum_count_of_subset (l := (dag.incoming id).map (·.source))
    h.ids_nodup fun source hsource => by
      obtain ⟨e, he, rfl⟩ := List.mem_map.mp hsource
      exact (h.endpoints e (precedes_of_mem he).1).1
  rw [length_map] at hsum
  rw [← hsum, count_flatMap]
  exact congrArg List.sum (map_congr_left fun source _ => hcount source)

theorem topologicalOrder_perm (h : dag.Valid) : dag.topologicalOrder.Perm dag.ids := by
  have hclosed : ∀ a ∈ dag.ids, ∀ b ∈ dag.outgoing a, b ∈ dag.ids := by
    intro a _ b hb
    obtain ⟨e, he, -, rfl⟩ := mem_outgoing.mp hb
    exact (h.endpoints e he).2
  have hedge : Kahn.Edge dag.outgoing = dag.Precedes := by
    funext a b
    exact propext mem_outgoing
  have hacyclic : Kahn.Acyclic dag.outgoing := fun id => hedge ▸ h.acyclic id
  exact (Kahn.drain_spec hacyclic Durable.TopologicalSort.next?_choice _ _ _
    (Kahn.Inv.start h.ids_nodup hclosed fun id => by rw [length_incoming h])
    (by simp [ids])).1

end DagGraph

/-! ## What the gate reads -/

namespace DagInput

variable {input : DagInput}

/-- The upstream nodes of a node that has settled have settled. -/
def Upward (input : DagInput) (states : NodeStates) : Prop :=
  ∀ a b, input.dag.Precedes a b → (states b).isSome → (states a).isSome

variable {α : Type} {run : DagRun} {id m : String} {states : NodeStates} {journal : DagJournal}

private theorem any_congr {l : List α} {p q : α → Bool} (h : ∀ a ∈ l, p a = q a) :
    l.any p = l.any q := by
  rw [Bool.eq_iff_iff, List.any_eq_true, List.any_eq_true]
  exact exists_congr fun a => and_congr_right fun ha => by rw [h a ha]

private theorem mapM_congr {β : Type} {l : List α} {f g : α → Except String β}
    (h : ∀ a ∈ l, f a = g a) : l.mapM f = l.mapM g := by
  induction l with
  | nil => rfl
  | cons a l ih =>
    obtain ⟨ha, hl⟩ := forall_mem_cons.mp h
    rw [mapM_cons, mapM_cons, ha, ih hl]

variable {states states' : NodeStates}

theorem gate_congr (hvalid : input.dag.Valid)
    (h : ∀ m, TransGen input.dag.Precedes m id → states m = states' m) :
    input.gate states id = input.gate states' id := by
  have hsource : ∀ e ∈ input.dag.incoming id, states e.source = states' e.source := fun e he =>
    h _ (.single (DagGraph.precedes_of_mem he).2)
  have hinputs : resolveNodeInputs (input.nodeById id) input.initialInput states =
      resolveNodeInputs (input.nodeById id) input.initialInput states' := by
    refine mapM_congr fun (field, src) hmem => ?_
    cases src with
    | initial | literal => rfl
    | node nodeId path =>
      have hread : states nodeId = states' nodeId := by
        rw [nodeById] at hmem
        cases hfind : input.dag.nodes.find? (·.id = id) with
        | none => simp [hfind] at hmem
        | some node =>
          rw [hfind] at hmem
          have hid := List.find?_some hfind
          have hpath := hvalid.upstream node (mem_of_find?_eq_some hfind) field nodeId path hmem
          exact h nodeId (of_decide_eq_true hid ▸ hpath)
      simp only [resolveSource, hread]
  have hnone : ((input.dag.incoming id).any fun e => (states e.source).isNone) =
      (input.dag.incoming id).any fun e => (states' e.source).isNone :=
    any_congr fun e he => by rw [hsource e he]
  have hstops : (input.dag.incoming id).any (input.stops states) =
      (input.dag.incoming id).any (input.stops states') :=
    any_congr fun e he => by simp only [stops, hsource e he]
  have hblocks : checkBlockers states (input.dag.incoming id) =
      checkBlockers states' (input.dag.incoming id) :=
    any_congr fun e he => by simp only [blocks, hsource e he]
  simp only [gate, hnone, hstops, hblocks, hinputs]

theorem isSome_of_gate (hup : input.Upward states) (hgate : input.gate states id ≠ .waiting)
    (hm : TransGen input.dag.Precedes m id) : (states m).isSome := by
  induction hm using TransGen.head_induction_on with
  | single hedge =>
    obtain ⟨e, he, rfl, htarget⟩ := hedge
    by_contra hnone
    apply hgate
    have hany : ((input.dag.incoming id).any fun e => (states e.source).isNone) = true :=
      List.any_eq_true.mpr ⟨e, mem_filter.mpr ⟨he, decide_eq_true htarget⟩, by
        simpa using hnone⟩
    simp only [gate, hany, ↓reduceIte]
  | head hedge _ ih => exact hup _ _ hedge ih

/-! ## What the journal decides -/

def decided (journal : DagJournal) (id : String) : Gate → Option NodeState
  | .waiting => none
  | .settled state => some state
  | .ready =>
    (journal.starts id).bind fun start =>
      if start.start then (journal.outcomes id).map (·.state) else some .notStarted

/-- The journal lets the node settle in the state, once all nodes upstream have. -/
inductive Final (input : DagInput) (journal : DagJournal) : String → NodeState → Prop
  | settles {states : NodeStates} {id : String} {state : NodeState}
      (final : ∀ m s, states m = some s → Final input journal m s) (upward : input.Upward states)
      (decided : decided journal id (input.gate states id) = some state) :
        Final input journal id state

/-- States that a drive over the journal can have reached. -/
structure View (input : DagInput) (journal : DagJournal) (states : NodeStates) : Prop where
  final : ∀ m s, states m = some s → Final input journal m s
  upward : input.Upward states

/-- Past its gate, the journal decides on the node. -/
def Ready (input : DagInput) (journal : DagJournal) (id : String) : Prop :=
  ∃ states, View input journal states ∧ input.gate states id = .ready

variable {journal journal' : DagJournal} {id : String} {state : NodeState}

private theorem gate_ne_waiting {gate : Gate}
    (h : decided journal id gate = some state) : gate ≠ .waiting := by
  rintro rfl
  exact nomatch h

section

variable (hvalid : input.dag.Valid)
include hvalid

private theorem gate_agree (hup : input.Upward states) (hup' : input.Upward states')
    (hsame : ∀ m s s', states m = some s → states' m = some s' → s = s')
    (hgate : input.gate states id ≠ .waiting) (hgate' : input.gate states' id ≠ .waiting) :
    input.gate states id = input.gate states' id := by
  refine gate_congr hvalid fun m hm => ?_
  obtain ⟨s, hs⟩ := isSome_iff_exists.mp (isSome_of_gate hup hgate hm)
  obtain ⟨s', hs'⟩ := isSome_iff_exists.mp (isSome_of_gate hup' hgate' hm)
  rw [hs, hs', hsame m s s' hs hs']

theorem Final.unique (h : Final input journal id state) :
    ∀ {state'}, Final input journal id state' → state = state' := by
  induction h with
  | settles _ hup hdecided ih =>
    rintro state' ⟨hfinal', hup', hdecided'⟩
    have hgate := gate_agree hvalid hup hup'
      (fun m s s' hs hs' => ih m s hs (hfinal' m s' hs'))
      (gate_ne_waiting hdecided) (gate_ne_waiting hdecided')
    rw [hgate, hdecided'] at hdecided
    exact (Option.some.inj hdecided).symm

variable (id) in
theorem View.gate_eq (h : View input journal states) (h' : View input journal states')
    (hgate : input.gate states id ≠ .waiting) (hgate' : input.gate states' id ≠ .waiting) :
    input.gate states id = input.gate states' id :=
  gate_agree hvalid h.upward h'.upward
    (fun m s s' hs hs' => (h.final m s hs).unique hvalid (h'.final m s' hs')) hgate hgate'

theorem Ready.decided (h : Ready input journal id)
    (hfinal : Final input journal id state) : decided journal id .ready = some state := by
  obtain ⟨states, hview, hgate⟩ := h
  obtain ⟨hfinal', hup', hdecided⟩ := hfinal
  have hsame := View.gate_eq id hvalid hview ⟨hfinal', hup'⟩ (by rw [hgate]; exact nofun)
    (gate_ne_waiting hdecided)
  rwa [← hsame, hgate] at hdecided

end

/-- The second journal has all the entries of the first. -/
structure Extends (journal journal' : DagJournal) : Prop where
  starts : ∀ id start, journal.starts id = some start → journal'.starts id = some start
  outcomes : ∀ id outcome, journal.outcomes id = some outcome →
    journal'.outcomes id = some outcome

section

variable (h : Extends journal journal')
include h

theorem Extends.decided {gate : Gate} (hdecided : DagInput.decided journal id gate = some state) :
    DagInput.decided journal' id gate = some state := by
  cases gate with
  | waiting | settled => exact hdecided
  | ready =>
    obtain ⟨start, hstart, hstate⟩ := bind_eq_some_iff.mp hdecided
    refine bind_eq_some_iff.mpr ⟨start, h.starts id start hstart, ?_⟩
    by_cases hs : start.start = true
    · rw [if_pos hs] at hstate ⊢
      obtain ⟨outcome, houtcome, rfl⟩ := map_eq_some_iff.mp hstate
      rw [h.outcomes id outcome houtcome, map_some]
    · rwa [if_neg hs] at hstate ⊢

theorem Final.mono (hfinal : Final input journal id state) : Final input journal' id state := by
  induction hfinal with
  | settles _ hup hdecided ih => exact .settles ih hup (h.decided hdecided)

theorem View.mono (hview : View input journal states) : View input journal' states :=
  ⟨fun m s hs => (hview.final m s hs).mono h, hview.upward⟩

theorem Ready.mono (hready : Ready input journal id) :
    Ready input journal' id :=
  hready.imp fun _ hview => ⟨hview.1.mono h, hview.2⟩

end

theorem View.settle (h : View input journal states)
    (hdecided : decided journal id (input.gate states id) = some state) :
    View input journal (Function.update states id (some state)) := by
  refine ⟨fun m s hs => ?_, fun a b hedge hb => ?_⟩
  · by_cases hm : m = id
    · subst hm
      rw [update_self] at hs
      obtain rfl := Option.some.inj hs
      exact .settles h.final h.upward hdecided
    · rw [update_of_ne hm] at hs
      exact h.final m s hs
  · by_cases ha : a = id
    · rw [ha, update_self]
      rfl
    · rw [update_of_ne ha]
      by_cases hb' : b = id
      · exact isSome_of_gate h.upward (gate_ne_waiting hdecided) (.single (hb' ▸ hedge))
      · rw [update_of_ne hb'] at hb
        exact h.upward a b hedge hb

/-! ## What a drive keeps -/

def spendOf (journal : DagJournal) (id : String) (d : BudgetDimension) : ℚ :=
  ((journal.outcomes id).bind (·.spend)).elim 0 (spentOn · d)

structure Inv (input : DagInput) (run : DagRun) : Prop where
  view : View input run.journal run.drive.states
  starts : ∀ id start, run.journal.starts id = some start → Ready input run.journal id
  outcomes : ∀ id outcome, run.journal.outcomes id = some outcome →
    ∃ share, run.journal.starts id = some ⟨true, share⟩
  held : ∀ id share, run.drive.held id = some share →
    run.journal.starts id = some ⟨true, some share⟩ ∧ run.drive.states id = none
  within : ∀ id outcome share spend, run.journal.outcomes id = some outcome →
    run.journal.starts id = some ⟨true, some share⟩ → outcome.spend = some spend →
    budgetOverrun share spend = none
  computed : ∀ id start, run.drive.computed id = some start →
    Ready input run.journal id ∧ run.journal.starts id = none
  everSettled : ∀ id, run.everSettled id = true → ∃ state, Final input run.journal id state
  settled : ∀ id, (run.drive.states id).isSome → run.everSettled id = true
  spent : ∀ d, spentOn run.drive.spent d = (input.order.map fun id =>
    if (run.drive.states id).isSome then spendOf run.journal id d else 0).sum

theorem Ready.not_final (hvalid : input.dag.Valid) (h : Ready input journal id)
    (hopen : journal.starts id = none) : ¬ Final input journal id state := by
  intro hfinal
  have hdecided := h.decided hvalid hfinal
  simp [DagInput.decided, hopen] at hdecided

theorem Inv.running (hvalid : input.dag.Valid) (h : Inv input run)
    {share : Option TurnBudget} (hstart : run.journal.starts id = some ⟨true, share⟩)
    (houtcome : run.journal.outcomes id = none) :
    ¬ Final input run.journal id state := by
  intro hfinal
  have hdecided := (h.starts id _ hstart).decided hvalid hfinal
  simp [DagInput.decided, hstart, houtcome] at hdecided

private theorem sum_map_eq_off {l : List String} (hnd : l.Nodup) (hid : id ∈ l)
    {f g : String → ℚ} (h : ∀ m, m ≠ id → g m = f m) :
    (l.map g).sum + f id = (l.map f).sum + g id := by
  have hrest : (l.erase id).map g = (l.erase id).map f :=
    map_congr_left fun m hm => h m ((hnd.mem_erase_iff).mp hm).1
  rw [← sum_map_erase f hid, ← sum_map_erase g hid, hrest]
  ring

/-- A node that settles is charged once: its share is no longer held, what it spent is. -/
theorem Inv.settle (hvalid : input.dag.Valid) (h : Inv input run)
    (hid : id ∈ input.order) (hfresh : run.drive.states id = none)
    (hdecided : decided run.journal id (input.gate run.drive.states id) = some state)
    {held : String → Option TurnBudget} {spent : BudgetUsage}
    (hheld : ∀ m share, held m = some share → m ≠ id ∧ run.drive.held m = some share)
    (hspent : ∀ d, spentOn spent d = spentOn run.drive.spent d + spendOf run.journal id d) :
    Inv input (input.settle
      { run with drive := { run.drive with held := held, spent := spent } } id state) where
  view := h.view.settle hdecided
  starts := h.starts
  outcomes := h.outcomes
  within := h.within
  held := fun m share hm => by
    obtain ⟨hne, hm⟩ := hheld m share hm
    exact ⟨(h.held m share hm).1, by
      simpa [DagInput.settle, update_of_ne hne] using (h.held m share hm).2⟩
  computed := h.computed
  everSettled := fun m hm => by
    by_cases hmid : m = id
    · subst hmid
      exact ⟨state, .settles h.view.final h.view.upward hdecided⟩
    · exact h.everSettled m (by simpa [DagInput.settle, update_of_ne hmid] using hm)
  settled := fun m hm => by
    by_cases hmid : m = id
    · simp [DagInput.settle, hmid]
    · simp only [DagInput.settle, update_of_ne hmid] at hm ⊢
      exact h.settled m hm
  spent := fun d => by
    have hnd : input.order.Nodup := (DagGraph.topologicalOrder_perm hvalid).nodup_iff.mpr
      hvalid.ids_nodup
    show spentOn spent d = _
    -- the sums over the order differ at `id` only
    have hsum := sum_map_eq_off hnd hid (f := fun m =>
      if (run.drive.states m).isSome then spendOf run.journal m d else 0) (g := fun m =>
      if (Function.update run.drive.states id (some state) m).isSome then spendOf run.journal m d
      else 0) fun m hm => by simp only [update_of_ne hm]
    simp only [hfresh, update_self, isSome_none, isSome_some,
      Bool.false_eq_true, ↓reduceIte, add_zero] at hsum
    rw [hspent, h.spent]
    exact hsum.symm

/-- A journaled outcome spends no more than the share its node was started with. -/
def SpendsWithinShare (run : DagRun) : DagOp → Bool
  | .journalOutcome id outcome =>
    ((run.journal.starts id).bind (·.budget)).all fun share =>
      outcome.spend.all fun spend => budgetOverrun share spend = none
  | _ => true

/-- What a step can do. -/
inductive Effect (input : DagInput) (run : DagRun) : DagRun → Prop
  | none : Effect input run run
  | settle {id : String} {state : NodeState} {held : String → Option TurnBudget}
      {spent : BudgetUsage} (hid : id ∈ input.order) (hfresh : run.drive.states id = none)
      (hdecided : decided run.journal id (input.gate run.drive.states id) = some state)
      (hheld : ∀ m share, held m = some share → m ≠ id ∧ run.drive.held m = some share)
      (hspent : ∀ d, spentOn spent d = spentOn run.drive.spent d + spendOf run.journal id d) :
      Effect input run (input.settle
        { run with drive := { run.drive with held := held, spent := spent } } id state)
  | compute {id : String} {start : NodeStart} (hid : id ∈ input.order)
      (hready : Ready input run.journal id) (hopen : run.journal.starts id = .none)
      (hstart : start = ⟨false, .none⟩ ∨ start = ⟨true, input.shareFor run.drive⟩) :
      Effect input run { run with drive := { run.drive with
        computed := Function.update run.drive.computed id (some start) } }
  | hold {id : String} {share : TurnBudget} (hfresh : run.drive.states id = .none)
      (hstart : run.journal.starts id = some ⟨true, some share⟩) :
      Effect input run { run with drive := { run.drive with
        held := Function.update run.drive.held id (some share) } }
  | journalStart {id : String} {start : NodeStart}
    (hcomputed : run.drive.computed id = some start) :
      Effect input run { run with
        journal := { run.journal with starts := Function.update run.journal.starts id (some start) }
        drive := { run.drive with computed := Function.update run.drive.computed id .none } }
  | journalOutcome {id : String} {share : Option TurnBudget} {outcome : NodeOutcome}
      (hstart : run.journal.starts id = some ⟨true, share⟩)
      (hnone : run.journal.outcomes id = .none)
      (hwithin : ∀ limits spend, share = some limits → outcome.spend = some spend →
        budgetOverrun limits spend = .none) :
      Effect input run { run with journal := { run.journal with
        outcomes := Function.update run.journal.outcomes id (some outcome) } }
  | crash : Effect input run { run with drive := {} }

private theorem Inv.settle_plain (h : Inv input run)
    (hid : id ∈ input.order) (hfresh : run.drive.states id = none)
    (hdecided : decided run.journal id (input.gate run.drive.states id) = some state)
    (hplain : ∀ share, run.journal.starts id ≠ some ⟨true, share⟩) :
    Effect input run (input.settle run id state) := by
  refine .settle hid hfresh hdecided
    (fun m share hm => ⟨?_, hm⟩) fun d => ?_
  · rintro rfl
    exact hplain _ (h.held m share hm).1
  · have hnone : run.journal.outcomes id = none := by
      cases houtcome : run.journal.outcomes id with
      | none => rfl
      | some outcome =>
        obtain ⟨share, hshare⟩ := h.outcomes id outcome houtcome
        exact (hplain share hshare).elim
    simp [spendOf, hnone]

theorem spentOn_settled (spent : BudgetUsage) {journal : DagJournal} {id : String}
    {outcome : NodeOutcome} (houtcome : journal.outcomes id = some outcome) (d : BudgetDimension) :
    spentOn (match outcome.spend with
      | some spend => addUsage spent spend
      | none => spent) d = spentOn spent d + spendOf journal id d := by
  cases hspend : outcome.spend <;> simp [spendOf, houtcome, hspend, spentOn_addUsage]

theorem branch_effect (hvalid : input.dag.Valid) (h : Inv input run) (id : String) :
    Effect input run (input.nodeBranch run id) := by
  rw [nodeBranch]
  by_cases hskip : id ∉ input.order ∨ (run.drive.states id).isSome
  · rw [if_pos hskip]
    exact .none
  rw [if_neg hskip]
  obtain ⟨hid, hsome⟩ := not_or.mp hskip
  rw [not_not] at hid
  have hfresh : run.drive.states id = none := by simpa using hsome
  cases hgate : input.gate run.drive.states id with
  | waiting => exact .none
  | settled state =>
    refine h.settle_plain hid hfresh (by rw [hgate]; rfl) fun share hstart => ?_
    obtain ⟨states, hview, hready⟩ := h.starts id _ hstart
    have hsame := hview.gate_eq id hvalid h.view (by simp [hready]) (by simp [hgate])
    rw [hready, hgate] at hsame
    cases hsame
  | ready =>
    cases hstarts : run.journal.starts id with
    | none =>
      cases hcomputed : run.drive.computed id with
      | some _ => exact .none
      | none =>
        refine .compute hid ⟨_, h.view, hgate⟩ hstarts ?_
        by_cases haborted : run.drive.aborted = true
        · exact .inl (by rw [if_pos haborted])
        · exact .inr (by rw [if_neg haborted])
    | some start =>
      obtain ⟨_ | _, share⟩ := start
      · exact h.settle_plain hid hfresh (by simp [hgate, decided, hstarts])
          (by simp [hstarts])
      · -- past a journaled start: hold the share, then wait for the outcome
        by_cases hhold : ∃ limits, share = some limits ∧ run.drive.held id = none
        · obtain ⟨limits, rfl, hheld⟩ := hhold
          simp only [hheld]
          exact .hold hfresh hstarts
        · cases houtcome : run.journal.outcomes id with
          | none =>
            cases hheld : run.drive.held id with
            | none =>
              cases share with
              | none => exact .none
              | some limits => exact (hhold ⟨limits, rfl, hheld⟩).elim
            | some _ => cases share <;> exact .none
          | some outcome =>
            have hdecided : decided run.journal id (input.gate run.drive.states id) =
                some outcome.state := by
              simp [hgate, decided, hstarts, houtcome]
            have hsettle := Effect.settle hid hfresh hdecided
              (fun m limits (hm : Function.update run.drive.held id none m = some limits) => by
                by_cases hmid : m = id
                · simp [hmid] at hm
                · exact ⟨hmid, by rwa [update_of_ne hmid] at hm⟩) (spentOn_settled _ houtcome)
            cases hheld : run.drive.held id with
            | none =>
              cases share with
              | none => exact hsettle
              | some limits => exact (hhold ⟨limits, rfl, hheld⟩).elim
            | some _ => cases share <;> exact hsettle

theorem step_effect (hvalid : input.dag.Valid) (h : Inv input run) {op : DagOp}
    (hop : SpendsWithinShare run op = true) : Effect input run (input.step run op) := by
  cases op with
  | branch id => exact branch_effect hvalid h id
  | journalStart id =>
    simp only [step]
    cases hcomputed : run.drive.computed id with
    | none => exact .none
    | some start => exact .journalStart hcomputed
  | journalOutcome id outcome =>
    simp only [step]
    split
    next share hstart hnone =>
      refine .journalOutcome hstart hnone fun limits spend hlimits hspend => ?_
      simpa [SpendsWithinShare, hstart, hlimits, hspend] using hop
    next => exact .none
  | crash => exact .crash

private theorem update_eq_some {f : String → Option α} {a b : α}
    (h : Function.update f id (some a) m = some b) : m = id ∧ a = b ∨ m ≠ id ∧ f m = some b := by
  by_cases hm : m = id
  · rw [hm, update_self] at h
    exact .inl ⟨hm, Option.some.inj h⟩
  · rw [update_of_ne hm] at h
    exact .inr ⟨hm, h⟩

private theorem update_of_none {f : String → Option α} {a b : α}
    (hnone : f id = none) (h : f m = some b) : Function.update f id (some a) m = some b := by
  rw [update_of_ne _ _ _, h]
  rintro rfl
  rw [hnone] at h
  exact nomatch h

private theorem extends_start (start : NodeStart)
    (hopen : journal.starts id = none) : Extends journal
      { journal with starts := Function.update journal.starts id (some start) } where
  starts := fun _ _ h => update_of_none hopen h
  outcomes := fun _ _ h => h

private theorem extends_outcome (outcome : NodeOutcome)
    (hnone : journal.outcomes id = none) : Extends journal
      { journal with outcomes := Function.update journal.outcomes id (some outcome) } where
  starts := fun _ _ h => h
  outcomes := fun _ _ h => update_of_none hnone h

private theorem spendOf_update {outcome : NodeOutcome} (hm : m ≠ id) (d : BudgetDimension) :
    spendOf { journal with outcomes := Function.update journal.outcomes id (some outcome) } m d =
      spendOf journal m d := by
  simp [spendOf, update_of_ne hm]

private theorem View.fresh (journal : DagJournal) : View input journal fun _ => none where
  final := fun _ _ h => nomatch h
  upward := fun _ _ _ h => nomatch h

theorem Inv.start (input : DagInput) : Inv input {} where
  view := .fresh _
  starts := fun _ _ h => nomatch h
  outcomes := fun _ _ h => nomatch h
  held := fun _ _ h => nomatch h
  within := fun _ _ _ _ h => nomatch h
  computed := fun _ _ h => nomatch h
  everSettled := fun _ h => nomatch h
  settled := fun _ h => nomatch h
  spent := fun d => by simp

/-- The share a node starts with is journaled before the node runs. -/
private theorem Inv.journalStart (h : Inv input run)
    {start : NodeStart} (hcomputed : run.drive.computed id = some start) :
    Inv input { run with
      journal := { run.journal with starts := Function.update run.journal.starts id (some start) }
      drive := { run.drive with computed := Function.update run.drive.computed id none } } := by
  obtain ⟨hready, hopen⟩ := h.computed id start hcomputed
  have hext := extends_start start hopen
  have hnone : run.journal.outcomes id = none := by
    cases houtcome : run.journal.outcomes id with
    | none => rfl
    | some outcome =>
      obtain ⟨share, hshare⟩ := h.outcomes id outcome houtcome
      rw [hopen] at hshare
      exact nomatch hshare
  constructor
  case view => exact h.view.mono hext
  case starts =>
    intro m s hm
    rcases update_eq_some hm with ⟨rfl, -⟩ | ⟨-, hm⟩
    · exact hready.mono hext
    · exact (h.starts m s hm).mono hext
  case outcomes =>
    exact fun m outcome hm => (h.outcomes m outcome hm).imp fun _ => update_of_none hopen
  case held =>
    exact fun m share hm => ⟨update_of_none hopen (h.held m share hm).1, (h.held m share hm).2⟩
  case within =>
    intro m outcome share spend hm hshare hspend
    rcases update_eq_some hshare with ⟨rfl, -⟩ | ⟨-, hshare⟩
    · rw [hnone] at hm
      exact nomatch hm
    · exact h.within m outcome share spend hm hshare hspend
  case computed =>
    intro m s hm
    by_cases hmid : m = id
    · simp [hmid] at hm
    · simp only [update_of_ne hmid] at hm ⊢
      exact ⟨(h.computed m s hm).1.mono hext, (h.computed m s hm).2⟩
  case everSettled => exact fun m hm => (h.everSettled m hm).imp fun _ => .mono hext
  case settled => exact h.settled
  case spent => exact h.spent

private theorem Inv.journalOutcome (hvalid : input.dag.Valid) (h : Inv input run)
    {share : Option TurnBudget} {outcome : NodeOutcome}
    (hstart : run.journal.starts id = some ⟨true, share⟩) (hnone : run.journal.outcomes id = none)
    (hwithin : ∀ limits spend, share = some limits → outcome.spend = some spend →
      budgetOverrun limits spend = none) :
    Inv input { run with journal := { run.journal with
      outcomes := Function.update run.journal.outcomes id (some outcome) } } := by
  have hext := extends_outcome outcome hnone
  constructor
  case view => exact h.view.mono hext
  case starts => exact fun m s hm => (h.starts m s hm).mono hext
  case outcomes =>
    intro m o hm
    rcases update_eq_some hm with ⟨rfl, -⟩ | ⟨-, hm⟩
    · exact ⟨share, hstart⟩
    · exact h.outcomes m o hm
  case held => exact h.held
  case within =>
    intro m o limits spend hm hlimits hspend
    rcases update_eq_some hm with ⟨rfl, rfl⟩ | ⟨-, hm⟩
    · rw [hstart] at hlimits
      cases hlimits
      exact hwithin limits spend rfl hspend
    · exact h.within m o limits spend hm hlimits hspend
  case computed => exact fun m s hm => ⟨(h.computed m s hm).1.mono hext, (h.computed m s hm).2⟩
  case everSettled => exact fun m hm => (h.everSettled m hm).imp fun _ => .mono hext
  case settled => exact h.settled
  case spent =>
    intro d
    rw [h.spent]
    refine congrArg List.sum (map_congr_left fun m _ => ?_)
    by_cases hm : m = id
    · -- a node that runs has not settled in the drive
      subst hm
      have hfresh : run.drive.states m = none := by
        cases hstate : run.drive.states m with
        | none => rfl
        | some state => exact (h.running hvalid hstart hnone (h.view.final m state hstate)).elim
      simp [hfresh]
    · rw [spendOf_update hm]

theorem Inv.effect (hvalid : input.dag.Valid) {run' : DagRun} (h : Inv input run)
    (heffect : Effect input run run') : Inv input run' := by
  cases heffect with
  | none => exact h
  | settle hid hfresh hdecided hheld hspent =>
    exact h.settle hvalid hid hfresh hdecided hheld hspent
  | compute hid hready hopen hstart =>
    refine ⟨h.view, h.starts, h.outcomes, h.held, h.within, fun m start hm => ?_, h.everSettled,
      h.settled, h.spent⟩
    rcases update_eq_some hm with ⟨rfl, -⟩ | ⟨-, hm⟩
    · exact ⟨hready, hopen⟩
    · exact h.computed m start hm
  | hold hfresh hstart =>
    refine ⟨h.view, h.starts, h.outcomes, fun m share hm => ?_, h.within, h.computed, h.everSettled,
      h.settled, h.spent⟩
    rcases update_eq_some hm with ⟨rfl, rfl⟩ | ⟨-, hm⟩
    · exact ⟨hstart, hfresh⟩
    · exact h.held m share hm
  | journalStart hcomputed => exact h.journalStart hcomputed
  | journalOutcome hstart hnone hwithin => exact h.journalOutcome hvalid hstart hnone hwithin
  | crash =>
    exact ⟨.fresh _, h.starts, h.outcomes, (fun _ _ h => nomatch h), h.within,
      (fun _ _ h => nomatch h), h.everSettled, (fun _ h => nomatch h), fun d => by simp⟩

/-! ## The level of a dimension -/

def shareOn (share : Option TurnBudget) (d : BudgetDimension) : ℚ := (share.bind (·.get d)).getD 0

def Allots (d : BudgetDimension) (level : ℚ) (start : NodeStart) : Prop :=
  match start.budget with
  | none => start.start = false
  | some share => ∃ part, share.get d = some part ∧ 0 ≤ part ∧ part ≤ level

variable {d : BudgetDimension} {level limit : ℚ} {run run' : DagRun}

theorem Allots.mono {start : NodeStart} (h : Allots d level start) {level' : ℚ}
    (hle : level ≤ level') : Allots d level' start := by
  obtain ⟨start, _ | share⟩ := start
  · exact h
  · obtain ⟨part, hpart, hnonneg, hpartle⟩ := h
    exact ⟨part, hpart, hnonneg, hpartle.trans hle⟩

theorem Allots.bounds {start : NodeStart} (h : Allots d level start) (hlevel : 0 ≤ level) :
    0 ≤ shareOn start.budget d ∧ shareOn start.budget d ≤ level := by
  obtain ⟨start, _ | share⟩ := start
  · exact ⟨le_rfl, hlevel⟩
  · obtain ⟨part, hpart, hbounds⟩ := h
    simpa [shareOn, hpart] using hbounds

open Classical in
/-- What a node was given, or spent of that; nothing while it may still ask. -/
noncomputable def charge (input : DagInput) (run : DagRun) (d : BudgetDimension) (id : String) :
    Option ℚ :=
  if run.everSettled id then some (spendOf run.journal id d)
  else match run.journal.starts id with
    | some start => some (shareOn start.budget d)
    | none => if ∃ state, Final input run.journal id state then some 0 else none

/-- The shares of a dimension fit together at a level. -/
structure Allotted (input : DagInput) (run : DagRun) (d : BudgetDimension) (limit level : ℚ) :
    Prop where
  fair : Allotment.Fair input.order limit (charge input run d) level
  journaled : ∀ id start, run.journal.starts id = some start → Allots d level start
  computed : ∀ id start, run.drive.computed id = some start → Allots d level start

theorem Allotted.spendOf_le (hinv : Inv input run) (h : Allotted input run d limit level)
    {start : NodeStart} (hstart : run.journal.starts id = some start) :
    spendOf run.journal id d ≤ shareOn start.budget d := by
  have hallots := h.journaled id start hstart
  have hnonneg := (hallots.bounds h.fair.nonneg).1
  rw [spendOf]
  cases houtcome : run.journal.outcomes id with
  | none => exact hnonneg
  | some outcome =>
    obtain ⟨share, hshare⟩ := hinv.outcomes id outcome houtcome
    obtain rfl := Option.some.inj (hstart.symm.trans hshare)
    cases hspend : outcome.spend with
    | none => simpa [hspend] using hnonneg
    | some spend =>
      cases share with
      | none => exact nomatch hallots
      | some limits =>
        obtain ⟨part, hpart, -⟩ := hallots
        have hle := budgetOverrun_eq_none_iff.mp
          (hinv.within id outcome limits spend houtcome hshare hspend) d part hpart
        simpa [hspend, shareOn, hpart] using hle

theorem Inv.spendOf_eq_zero (hinv : Inv input run) (hopen : run.journal.starts id = none) :
    spendOf run.journal id d = 0 := by
  cases houtcome : run.journal.outcomes id with
  | none => simp [spendOf, houtcome]
  | some outcome =>
    obtain ⟨share, hshare⟩ := hinv.outcomes id outcome houtcome
    rw [hopen] at hshare
    exact nomatch hshare

variable (input d level) in
theorem charge_of_open (hsettled : run.everSettled id = false)
    (hopen : run.journal.starts id = none) :
    (charge input run d id).getD level = 0 ∨ (charge input run d id).getD level = level := by
  simp only [charge, hsettled, Bool.false_eq_true, ↓reduceIte, hopen]
  split <;> simp

theorem Allotted.charge_bounds (hinv : Inv input run) (h : Allotted input run d limit level)
    {start : NodeStart} (hstart : run.journal.starts id = some start) :
    spendOf run.journal id d ≤ (charge input run d id).getD level ∧
      (charge input run d id).getD level ≤ shareOn start.budget d := by
  have hspend := h.spendOf_le hinv hstart
  cases hsettled : run.everSettled id with
  | true => simpa [charge, hsettled] using hspend
  | false => simpa [charge, hsettled, hstart] using hspend

theorem Allotted.charge_le_level (hinv : Inv input run) (h : Allotted input run d limit level)
    (id : String) : (charge input run d id).getD level ≤ level := by
  have hlevel := h.fair.nonneg
  cases hstart : run.journal.starts id with
  | some start =>
    exact (h.charge_bounds hinv hstart).2.trans ((h.journaled id start hstart).bounds hlevel).2
  | none =>
    cases hsettled : run.everSettled id with
    | true => simpa [charge, hsettled, hinv.spendOf_eq_zero hstart] using hlevel
    | false =>
      rcases charge_of_open input d level hsettled hstart with h | h
      · rwa [h]
      · exact h.le

theorem Allotted.lower (h : Allotted input run d limit level) (hcharge : ∀ id ∈ input.order,
      (charge input run' d id).getD level ≤ (charge input run d id).getD level)
    (hjournaled : ∀ id start, run'.journal.starts id = some start → Allots d level start)
    (hcomputed : ∀ id start, run'.drive.computed id = some start → Allots d level start) :
    ∃ level', Allotted input run' d limit level' := by
  obtain ⟨level', hle, hfair⟩ := h.fair.lower hcharge
  exact ⟨level', hfair, fun id start hs => (hjournaled id start hs).mono hle,
    fun id start hs => (hcomputed id start hs).mono hle⟩

/-! ## The share of a starting node -/

private theorem get_foldl_subtract {takens : List TurnBudget}
    (htaken : ∀ taken ∈ takens, 0 ≤ shareOn (some taken) d) :
    ∀ {free : TurnBudget} {x : ℚ}, free.get d = some x → 0 ≤ x →
      (takens.foldl subtractBudget free).get d =
        some (max 0 (x - (takens.map fun taken => shareOn (some taken) d).sum)) := by
  induction takens with
  | nil =>
    intro free x hfree hx
    simp [hfree, hx]
  | cons taken takens ih =>
    intro free x hfree hx
    obtain ⟨hfirst, hrest⟩ := forall_mem_cons.mp htaken
    have hsum : 0 ≤ (takens.map fun taken => shareOn (some taken) d).sum :=
      sum_nonneg (forall_mem_map.mpr hrest)
    have hget : (subtractBudget free taken).get d = some (max 0 (x - shareOn (some taken) d)) := by
      simp [subtractBudget, hfree, shareOn]
    rw [foldl_cons, ih hrest hget (le_max_left _ _), map_cons, sum_cons]
    rcases le_total 0 (x - shareOn (some taken) d) with hle | hle
    · rw [max_eq_right hle, sub_sub]
    · rw [max_eq_left hle, max_eq_left (by linarith), max_eq_left (by linarith)]

private theorem sum_filterMap (l : List String) (f : String → Option TurnBudget)
    (g : TurnBudget → ℚ) : ((l.filterMap f).map g).sum = (l.map fun id => (f id).elim 0 g).sum := by
  induction l with
  | nil => rfl
  | cons id l ih =>
    rw [filterMap_cons, map_cons, sum_cons, ← ih]
    cases f id <;> simp

/-- What a drive sees of a node. -/
def seen (run : DagRun) (d : BudgetDimension) (id : String) : Option ℚ :=
  if (run.drive.states id).isSome then some (spendOf run.journal id d)
  else (run.drive.held id).map fun share => shareOn (some share) d

theorem Inv.total_seen (hinv : Inv input run) : Allotment.total input.order (seen run d) 0 =
    spentOn run.drive.spent d +
      ((input.order.filterMap run.drive.held).map fun taken => shareOn (some taken) d).sum := by
  rw [hinv.spent, sum_filterMap, ← sum_map_add, Allotment.total]
  refine congrArg List.sum (map_congr_left fun id _ => ?_)
  rw [seen]
  cases hstate : run.drive.states id with
  | none => cases run.drive.held id <;> simp
  | some state =>
    have hheld : run.drive.held id = none := by
      cases hheld : run.drive.held id with
      | none => rfl
      | some share =>
        have hnone := (hinv.held id share hheld).2
        rw [hstate] at hnone
        cases hnone
    simp [hheld]

theorem Allotted.charge_le_seen (hinv : Inv input run) (h : Allotted input run d limit level)
    (id : String) : (charge input run d id).getD level ≤ (seen run d id).getD level := by
  by_cases hstate : (run.drive.states id).isSome
  · simp [seen, charge, hstate, hinv.settled id hstate]
  · cases hheld : run.drive.held id with
    | none => simpa [seen, hstate, hheld] using h.charge_le_level hinv id
    | some share =>
      simpa [seen, hstate, hheld] using (h.charge_bounds hinv (hinv.held id share hheld).1).2

/-- **The share a drive computes is at most the level.** -/
theorem Allotted.share (hvalid : input.dag.Valid) (hinv : Inv input run)
    (h : Allotted input run d limit level) {budget : TurnBudget}
    (hbudget : input.budget = some budget)
    (hlimit : budget.get d = some limit) (hid : id ∈ input.order)
    (hready : Ready input run.journal id) (hopen : run.journal.starts id = none) :
    Allots d level ⟨true, input.shareFor run.drive⟩ := by
  have hfresh : run.drive.states id = none := by
    cases hstate : run.drive.states id with
    | none => rfl
    | some state => exact (hready.not_final hvalid hopen (hinv.view.final id state hstate)).elim
  have hunheld : run.drive.held id = none := by
    cases hheld : run.drive.held id with
    | none => rfl
    | some share =>
      have hstart := (hinv.held id share hheld).1
      rw [hopen] at hstart
      exact nomatch hstart
  have hcharge : charge input run d id = none := by
    have hsettled : run.everSettled id = false := by
      rw [← Bool.not_eq_true]
      intro hsettled
      obtain ⟨state, hfinal⟩ := hinv.everSettled id hsettled
      exact hready.not_final hvalid hopen hfinal
    have hfinal : ¬ ∃ state, Final input run.journal id state := fun ⟨_, hfinal⟩ =>
      hready.not_final hvalid hopen hfinal
    simp [charge, hsettled, hopen, hfinal]
  have hseen := h.fair.share_le (fun id _ => h.charge_le_seen hinv id) hid hcharge
  have hwaiting : (input.order.countP fun id => (seen run d id).isNone) =
      input.order.countP fun id => (run.drive.states id).isNone && (run.drive.held id).isNone :=
    countP_congr fun id _ => by
      cases hstate : run.drive.states id <;> simp [seen, hstate]
  rw [hwaiting, hinv.total_seen] at hseen
  have htaken : ∀ taken ∈ input.order.filterMap run.drive.held, 0 ≤ shareOn (some taken) d := by
    intro taken htaken
    obtain ⟨m, -, hm⟩ := mem_filterMap.mp htaken
    exact ((h.journaled m _ (hinv.held m taken hm).1).bounds h.fair.nonneg).1
  have hget : (remainingBudget budget run.drive.spent).get d =
      some (max 0 (limit - spentOn run.drive.spent d)) := by
    simp [remainingBudget, hlimit]
  have hfree := get_foldl_subtract htaken hget (le_max_left _ _)
  rw [shareFor, hbudget]
  set waiting := input.order.countP fun id =>
    (run.drive.states id).isNone && (run.drive.held id).isNone
  have hpos : 1 ≤ waiting := countP_pos_iff.mpr ⟨id, hid, by simp [hfresh, hunheld]⟩
  set taken := ((input.order.filterMap run.drive.held).map fun taken => shareOn (some taken) d).sum
  have hsum : 0 ≤ taken := sum_nonneg (forall_mem_map.mpr htaken)
  -- what is free, divided by the nodes that wait
  have hx : max 0 (max 0 (limit - spentOn run.drive.spent d) - taken) / (waiting : ℚ) ≤ level := by
    have hposQ : (0 : ℚ) < waiting := by exact_mod_cast hpos
    have hnonneg := mul_nonneg hposQ.le h.fair.nonneg
    rw [div_le_iff₀ hposQ, mul_comm level]
    refine max_le hnonneg ?_
    rcases le_total 0 (limit - spentOn run.drive.spent d) with hle | hle
    · rw [max_eq_right hle]
      linarith
    · rw [max_eq_left hle]
      linarith
  have hzero : 0 ≤ max 0 (max 0 (limit - spentOn run.drive.spent d) - taken) / (waiting : ℚ) :=
    div_nonneg (le_max_left _ _) (Nat.cast_nonneg _)
  refine ⟨_, by simp only [shareOfBudget, TurnBudget.get_build, hfree, map_some]; rfl, ?_⟩
  rw [max_eq_right hpos, max_eq_right hpos]
  split_ifs with hcost
  · exact ⟨hzero, hx⟩
  · exact ⟨by exact_mod_cast Int.floor_nonneg.mpr hzero, (Int.floor_le _).trans hx⟩

theorem Allotted.charge_mono (h : Allotted input run d limit level)
    (hsame : run'.everSettled = run.everSettled) (hext : Extends run.journal run'.journal)
    (hspend : ∀ id, run.everSettled id = true →
      spendOf run'.journal id d = spendOf run.journal id d)
    (hstart : ∀ id start, run.journal.starts id = none → run'.journal.starts id = some start →
      (∀ state, ¬ Final input run.journal id state) ∧ shareOn start.budget d ≤ level)
    (id : String) : (charge input run' d id).getD level ≤ (charge input run d id).getD level := by
  have hlevel := h.fair.nonneg
  cases hsettled : run.everSettled id with
  | true => simp [charge, hsame, hsettled, hspend id hsettled]
  | false =>
    cases hstarts : run.journal.starts id with
    | some start => simp [charge, hsame, hsettled, hstarts, hext.starts id start hstarts]
    | none =>
      by_cases hfinal : ∃ state, Final input run.journal id state
      · have hnone : run'.journal.starts id = none := by
          cases hstarts' : run'.journal.starts id with
          | none => rfl
          | some start => exact (hstart id start hstarts hstarts').1 _ hfinal.choose_spec |>.elim
        have hfinal' : ∃ state, Final input run'.journal id state := hfinal.imp fun _ => .mono hext
        simp [charge, hsame, hsettled, hstarts, hnone, hfinal, hfinal']
      · have hcharge : (charge input run d id).getD level = level := by
          simp [charge, hsettled, hstarts, hfinal]
        rw [hcharge]
        cases hstarts' : run'.journal.starts id with
        | some start =>
          simpa [charge, hsame, hsettled, hstarts'] using (hstart id start hstarts hstarts').2
        | none =>
          rcases charge_of_open input d level
            (hsame ▸ hsettled : run'.everSettled id = false) hstarts' with h | h
          · rwa [h]
          · exact h.le

private theorem Allotted.settle (hinv : Inv input run) (h : Allotted input run d limit level)
    (hdecided : decided run.journal id (input.gate run.drive.states id) = some state)
    (held : String → Option TurnBudget) (spent : BudgetUsage) :
    ∃ level', Allotted input (input.settle
      { run with drive := { run.drive with held := held, spent := spent } } id state)
      d limit level' := by
  refine h.lower (fun m _ => ?_) h.journaled h.computed
  by_cases hm : m = id
  · -- what is left of its share is free again
    subst hm
    have hspend : charge input (input.settle
        { run with drive := { run.drive with held := held, spent := spent } } m state) d m =
        some (spendOf run.journal m d) := by
      simp [charge, DagInput.settle]
    rw [hspend, getD_some]
    cases hstart : run.journal.starts m with
    | some start => exact (h.charge_bounds hinv hstart).1
    | none =>
      have hfinal : ∃ state, Final input run.journal m state :=
        ⟨state, .settles hinv.view.final hinv.view.upward hdecided⟩
      simp only [charge, hstart, hfinal, ↓reduceIte, hinv.spendOf_eq_zero hstart]
      split_ifs <;> simp
  · have hsame : (DagInput.settle input { run with drive := { run.drive with
        held := held, spent := spent } } id state).everSettled m = run.everSettled m :=
      update_of_ne hm _ _
    rw [charge, hsame]
    exact le_rfl

private theorem Allotted.journalStart (hvalid : input.dag.Valid) (hinv : Inv input run)
    (h : Allotted input run d limit level) {start : NodeStart}
    (hcomputed : run.drive.computed id = some start) : ∃ level', Allotted input { run with
      journal := { run.journal with starts := Function.update run.journal.starts id (some start) }
      drive := { run.drive with computed := Function.update run.drive.computed id none } }
      d limit level' := by
  obtain ⟨hready, hopen⟩ := hinv.computed id start hcomputed
  have hallots := h.computed id start hcomputed
  refine h.lower (fun m _ => ?_) (fun m s hs => ?_) fun m s hs => ?_
  · apply h.charge_mono
    case hsame => rfl
    case hext => exact extends_start start hopen
    case hspend => exact fun _ _ => rfl
    case hstart =>
      intro m s hnone hs
      rcases update_eq_some hs with ⟨rfl, rfl⟩ | ⟨-, hs⟩
      · exact ⟨fun _ => hready.not_final hvalid hopen, (hallots.bounds h.fair.nonneg).2⟩
      · rw [hnone] at hs
        exact nomatch hs
  · rcases update_eq_some hs with ⟨rfl, rfl⟩ | ⟨-, hs⟩
    · exact hallots
    · exact h.journaled m s hs
  · by_cases hm : m = id
    · simp [hm] at hs
    · simp only [update_of_ne hm] at hs
      exact h.computed m s hs

private theorem Allotted.journalOutcome (hvalid : input.dag.Valid) (hinv : Inv input run)
    (h : Allotted input run d limit level) {share : Option TurnBudget}
    (outcome : NodeOutcome) (hstart : run.journal.starts id = some ⟨true, share⟩)
    (hnone : run.journal.outcomes id = none) : ∃ level', Allotted input { run with
      journal := { run.journal with
        outcomes := Function.update run.journal.outcomes id (some outcome) } } d limit level' := by
  refine h.lower (fun m _ => ?_) h.journaled h.computed
  apply h.charge_mono
  case hsame => rfl
  case hext => exact extends_outcome outcome hnone
  case hspend =>
    intro m hm
    apply spendOf_update
    rintro rfl
    obtain ⟨state, hfinal⟩ := hinv.everSettled m hm
    exact hinv.running hvalid hstart hnone hfinal
  case hstart =>
    intro m s hopen hs
    rw [hopen] at hs
    exact nomatch hs

theorem Allotted.effect (hvalid : input.dag.Valid) (hinv : Inv input run)
    (h : Allotted input run d limit level) {budget : TurnBudget}
    (hbudget : input.budget = some budget)
    (hlimit : budget.get d = some limit) (heffect : Effect input run run') :
    ∃ level', Allotted input run' d limit level' := by
  cases heffect with
  | none => exact ⟨level, h⟩
  | settle _ _ hdecided => exact h.settle hinv hdecided _ _
  | compute hid hready hopen hstart =>
    refine ⟨level, h.fair, h.journaled, fun m start hm => ?_⟩
    rcases update_eq_some hm with ⟨rfl, rfl⟩ | ⟨-, hm⟩
    · rcases hstart with rfl | rfl
      · rfl
      · exact h.share hvalid hinv hbudget hlimit hid hready hopen
    · exact h.computed m start hm
  | hold => exact ⟨level, h.fair, h.journaled, h.computed⟩
  | journalStart hcomputed => exact h.journalStart hvalid hinv hcomputed
  | journalOutcome hstart hnone => exact h.journalOutcome hvalid hinv _ hstart hnone
  | crash => exact ⟨level, h.fair, h.journaled, fun _ _ h => nomatch h⟩

theorem Allotted.start (input : DagInput) (d : BudgetDimension) {limit : ℚ} (hlimit : 0 ≤ limit) :
    ∃ level, Allotted input {} d limit level := by
  obtain ⟨level, hfair⟩ := Allotment.Fair.start input.order hlimit
  have hcharge : ∀ id ∈ input.order, (charge input {} d id).getD level ≤ level := by
    intro id _
    have hopen : ({} : DagRun).journal.starts id = none := rfl
    rcases charge_of_open input d level rfl hopen with h | h
    · rw [h]
      exact hfair.nonneg
    · exact h.le
  obtain ⟨level', -, hfair'⟩ := hfair.lower hcharge
  exact ⟨level', hfair', (fun _ _ h => nomatch h), fun _ _ h => nomatch h⟩

/-- What a node takes of the budget: its spend once it has settled, else its share if it has one,
    journaled or just computed. -/
def taken (run : DagRun) (d : BudgetDimension) (id : String) : ℚ :=
  if run.everSettled id then spendOf run.journal id d
  else shareOn ((run.journal.starts id <|> run.drive.computed id).bind (·.budget)) d

theorem Allotted.taken_le (hvalid : input.dag.Valid) (hinv : Inv input run)
    (h : Allotted input run d limit level) (id : String) :
    taken run d id ≤ (charge input run d id).getD level := by
  cases hsettled : run.everSettled id with
  | true => simp [taken, charge, hsettled]
  | false =>
    cases hstart : run.journal.starts id with
    | some start => simp [taken, charge, hsettled, hstart]
    | none =>
      cases hcomputed : run.drive.computed id with
      | none =>
        have hlevel := h.fair.nonneg
        rcases charge_of_open input d level hsettled hstart with h | h
        all_goals simp [taken, hsettled, hstart, hcomputed, shareOn, h, hlevel]
      | some start =>
        have hopen : ¬ ∃ state, Final input run.journal id state := fun ⟨_, hfinal⟩ =>
          (hinv.computed id start hcomputed).1.not_final hvalid hstart hfinal
        simpa [taken, charge, hsettled, hstart, hcomputed, hopen] using
          ((h.computed id start hcomputed).bounds h.fair.nonneg).2

/-- **A run's budget is not over-allotted.** In every run of a validated DAG, from its start over
    any steps of its branches, journal entries and crashes, where no recorded spend exceeds the
    node's share: what the settled nodes spent, and the shares of the other nodes that have one,
    are together within every limit of the run's budget. -/
theorem dag_shares_within_budget (input : DagInput) (hvalid : input.dag.Valid)
    {budget : TurnBudget} (hbudget : input.budget = some budget) (hparsed : budget.Valid)
    (ops : List DagOp)
    (hspend : input.runs.Always (fun run op => SpendsWithinShare run op = true) {} ops) :
    ∀ d, ∀ limit ∈ budget.get d,
      (input.dag.ids.map (taken (input.runs.run {} ops) d)).sum ≤ limit := by
  intro d limit hlimit
  obtain ⟨hinv, level, hallotted⟩ := Machine.run_induction_always
    (P := fun run => Inv input run ∧ ∃ level, Allotted input run d limit level)
    (fun run op hop ⟨hinv, level, hallotted⟩ => by
      have heffect := step_effect hvalid hinv hop
      exact ⟨hinv.effect hvalid heffect, hallotted.effect hvalid hinv hbudget hlimit heffect⟩)
    hspend ⟨Inv.start input, Allotted.start input d (hparsed d limit hlimit).1⟩
  have hperm := (DagGraph.topologicalOrder_perm hvalid).map (taken (input.runs.run {} ops) d)
  rw [← hperm.sum_eq]
  exact (sum_le_sum fun id _ => hallotted.taken_le hvalid hinv id).trans hallotted.fair.within

def sideBySide : DagInput where
  dag := {
    nodes := [{ id := "plan" }, { id := "search" }, { id := "write" }]
    edges := [{ source := "plan", target := "write" }]
    entry := ["plan", "search"]
    terminals := ["write"] }
  initialInput := .obj []
  budget := some { maxTotalTokens := some 90, maxLlmCalls := some 7 }

theorem sideBySide_valid : sideBySide.dag.Valid where
  ids_nodup := by decide
  entry_mem := by decide
  terminals_mem := by decide
  endpoints := by simp [sideBySide, DagGraph.ids]
  acyclic := by
    have hedge : ∀ a b, sideBySide.dag.Precedes a b → a = "plan" ∧ b = "write" := by
      simp [sideBySide, DagGraph.Precedes, eq_comm]
    intro id hcycle
    obtain ⟨m, hfirst, -⟩ := TransGen.head'_iff.mp hcycle
    obtain ⟨m', -, hlast⟩ := TransGen.tail'_iff.mp hcycle
    exact absurd ((hedge _ _ hfirst).1.symm.trans (hedge _ _ hlast).2) (by decide)
  reachable := by
    simp only [sideBySide, DagGraph.ids, map_cons, map_nil, forall_mem_cons]
    refine ⟨⟨"plan", by simp, .refl⟩, ⟨"search", by simp, .refl⟩, ⟨"plan", by simp, ?_⟩, by simp⟩
    exact .single ⟨_, mem_cons_self, rfl, rfl⟩
  upstream := by simp [sideBySide]
  entry_inputs := by simp [sideBySide]

/-- The second node is given its share before the first holds its own; a crash comes after the
    first node has settled. -/
private def crashed : List DagOp :=
  [.branch "plan", .branch "search", .journalStart "plan", .branch "plan",
    .journalOutcome "plan" ⟨.ok (.str "two steps"), some ⟨9, 3, 0, 0, 0, 2, 0⟩⟩,
    .branch "plan", .branch "write", .journalStart "write", .crash, .branch "search"]

theorem dag_shares_within_budget_sideBySide :
    (sideBySide.dag.ids.map (taken (sideBySide.runs.run {} crashed) .maxTotalTokens)).sum ≤ 90 ∧
    (sideBySide.dag.ids.map (taken (sideBySide.runs.run {} crashed) .maxLlmCalls)).sum ≤ 7 := by
  have hshares : ∀ d, ∀ limit ∈ ({ maxTotalTokens := some 90, maxLlmCalls := some 7 } :
      TurnBudget).get d,
      (sideBySide.dag.ids.map (taken (sideBySide.runs.run {} crashed) d)).sum ≤ limit := by
    refine dag_shares_within_budget sideBySide sideBySide_valid rfl ?_ _ (by decide +kernel)
    intro d limit hlimit
    cases d <;> simp [TurnBudget.get] at hlimit
    · subst hlimit
      exact ⟨by norm_num, fun _ => rfl⟩
    · subst hlimit
      exact ⟨by norm_num, fun _ => rfl⟩
  exact ⟨hshares .maxTotalTokens 90 rfl, hshares .maxLlmCalls 7 rfl⟩

end DagInput

end Promin.Agent
