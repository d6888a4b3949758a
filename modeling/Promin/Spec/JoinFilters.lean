import Promin.Spec.FilterPushdown

/-!
# Filters split at a join

`splitFilterAtJoin` cuts a filter above a join into its conjuncts, compiles them
anew, and moves those that read columns of one side only to that side.
-/

namespace Promin.Data

open List JsMap

section Joins

variable {κ : Type} [JsCells κ] {mode : ExecMode}

open LogicalPlan

/-! ## Joins as nested loops -/

def matched (on : JoinOn) (rows : List (Row κ)) (row : Row κ) : List (Row κ) :=
  rows.filter fun r => getJoinKey r on == getJoinKey row on

variable (on : JoinOn)

private theorem get_foldl_push (items : List (Row κ × Nat))
    (index : JsMap String (List (Row κ × Nat))) (key : String) :
    (items.foldl (fun index r => index.push (getJoinKey r.1 on) r) index).get key =
      match items.filter fun r => getJoinKey r.1 on == key with
      | [] => index.get key
      | found => some ((index.get key).getD [] ++ found) := by
  induction items generalizing index with
  | nil => rfl
  | cons item rest ih =>
    rw [foldl_cons, ih, push_eq_set]
    rw [filter_cons]
    by_cases hkey : getJoinKey item.1 on = key
    · rw [hkey, get_set_self, if_pos (by simp)]
      cases hrest : rest.filter fun r => getJoinKey r.1 on == key with
      | nil => rfl
      | cons r found => simp
    · rw [get_set_ne _ _ hkey, if_neg (by simpa using hkey)]

variable (rows : List (Row κ)) (row : Row κ)

theorem get_indexRows :
    ((indexRows on rows).get (getJoinKey row on)).map (List.map Prod.fst) =
      if matched on rows row = [] then none else some (matched on rows row) := by
  have hrows : (rows.zipIdx.filter fun r => getJoinKey r.1 on == getJoinKey row on).map Prod.fst =
      matched on rows row := by
    have hfst := filter_map (f := Prod.fst (β := Nat))
      (p := fun r => getJoinKey r on == getJoinKey row on) (l := rows.zipIdx)
    rw [zipIdx_map_fst] at hfst
    exact hfst.symm
  rw [indexRows, get_foldl_push]
  cases hfound : rows.zipIdx.filter fun r => getJoinKey r.1 on == getJoinKey row on with
  | nil | cons r found =>
    rw [hfound] at hrows
    rw [← hrows]
    rfl

variable (left right : List (Row κ))

theorem executeJoin_inner :
    executeJoin left right on .inner =
      left.flatMap fun l => (matched on right l).map (mergeRow l) := by
  show left.flatMap _ = _
  congr 1
  funext l
  have hindex := get_indexRows on right l
  rw [joinMatches]
  cases hfound : (indexRows on right).get (getJoinKey l on) with
  | none =>
    rw [hfound] at hindex
    split at hindex
    · rename_i hnone
      rw [hnone]
      rfl
    · exact nomatch hindex
  | some found =>
    rw [hfound] at hindex
    split at hindex
    · exact nomatch hindex
    · rw [← Option.some.inj hindex]
      simp [Function.comp_def]

private theorem outer_eq (merge : Row κ → Row κ) :
    (match (indexRows on rows).get (getJoinKey row on) with
      | some found => found.map fun r => merge r.1
      | none => [row]) =
      if matched on rows row = [] then [row] else (matched on rows row).map merge := by
  have hindex := get_indexRows on rows row
  cases hfound : (indexRows on rows).get (getJoinKey row on) with
  | none =>
    rw [hfound] at hindex
    split at hindex
    · rename_i hnone
      rw [if_pos hnone]
    · exact nomatch hindex
  | some found =>
    rw [hfound] at hindex
    split at hindex
    · exact nomatch hindex
    · rename_i hsome
      rw [if_neg hsome, ← Option.some.inj hindex]
      simp [Function.comp_def]

theorem executeJoin_left :
    executeJoin left right on .left = left.flatMap fun l =>
      if matched on right l = [] then [l] else (matched on right l).map (mergeRow l) := by
  show left.flatMap _ = _
  congr 1
  funext l
  exact outer_eq on right l (mergeRow l)

theorem executeJoin_right :
    executeJoin left right on .right = right.flatMap fun r =>
      if matched on left r = [] then [r] else (matched on left r).map fun l => mergeRow l r := by
  show right.flatMap _ = _
  congr 1
  funext r
  exact outer_eq on left r fun l => mergeRow l r

private theorem has_indexRows :
    (indexRows on rows).has (getJoinKey row on) = !decide (matched on rows row = []) := by
  have hindex := get_indexRows on rows row
  rw [has]
  cases hfound : (indexRows on rows).get (getJoinKey row on) <;> rw [hfound] at hindex <;>
    split at hindex <;> simp_all

theorem executeJoin_semi :
    executeJoin left right on .semi = left.filter fun l => !decide (matched on right l = []) := by
  show left.filter _ = _
  simp only [has_indexRows]

theorem executeJoin_anti :
    executeJoin left right on .anti = left.filter fun l => decide (matched on right l = []) := by
  show left.filter _ = _
  simp only [has_indexRows, Bool.not_not]

/-! ## Filters and joins -/

variable {α : Type} {on : JoinOn} {type : JoinType} {left right : LogicalPlan κ}

private theorem filter_map_split {β : Type} (ms : List α) (f : α → β) (outer : Bool)
    (inner : α → Bool) (stay all : β → Bool)
    (h : ∀ m ∈ ms, all (f m) = (outer && inner m && stay (f m))) :
    (if outer then ((ms.filter inner).map f).filter stay else []) = (ms.map f).filter all := by
  rw [filter_map, filter_map]
  cases outer with
  | true =>
    rw [if_pos rfl, filter_filter]
    congr 1
    apply filter_congr
    intro m hm
    simp [h m hm, Bool.and_comm]
  | false =>
    have hnone : ms.filter (all ∘ f) = [] := by
      rw [filter_eq_nil_iff]
      intro m hm
      simp [h m hm]
    rw [hnone]
    rfl

private theorem flatMap_filter_congr {β : Type} {rows : List α} {keep : α → Bool}
    {f g : α → List β} (h : ∀ a ∈ rows, (if keep a then f a else []) = g a) :
    (rows.filter keep).flatMap f = rows.flatMap g := by
  induction rows with
  | nil => rfl
  | cons a rows ih =>
    obtain ⟨ha, hrows⟩ := forall_mem_cons.mp h
    rw [flatMap_cons, ← ha, ← ih hrows, filter_cons]
    split <;> simp

private theorem filter_of_forall {keep : α → Bool} (h : ∀ a, keep a = true)
    (rows : List α) : rows.filter keep = rows :=
  filter_eq_self.mpr fun a _ => h a

theorem matched_filter (keep : Row κ → Bool) :
    matched on (rows.filter keep) row = (matched on rows row).filter keep := by
  simp only [matched, filter_filter, Bool.and_comm]

/-- Filtering the inputs filters the joined rows, on the sides where the join type allows it. -/
theorem executeJoin_filter {ls rs : List (Row κ)} {forLeft forRight stay : Row κ → Bool}
    (hleft : (∀ row, forLeft row = true) ∨ type ∈ [.inner, .left, .semi, .anti])
    (hright : (∀ row, forRight row = true) ∨ type ∈ [.inner, .right])
    (hcells : type ∈ [.inner, .left, .right] → ∀ l ∈ ls, ∀ r ∈ rs,
      getJoinKey l on = getJoinKey r on →
        forLeft (mergeRow l r) = forLeft l ∧ forRight (mergeRow l r) = forRight r) :
    (executeJoin (ls.filter forLeft) (rs.filter forRight) on type).filter stay =
      (executeJoin ls rs on type).filter fun row => forLeft row && forRight row && stay row := by
  have hmatched : ∀ {rows : List (Row κ)} {row r : Row κ}, r ∈ matched on rows row →
      r ∈ rows ∧ getJoinKey r on = getJoinKey row on := by
    intro rows row r hr
    simpa [matched] using hr
  cases type with
  | inner =>
    rw [executeJoin_inner, executeJoin_inner, filter_flatMap, filter_flatMap]
    apply flatMap_filter_congr
    intro l hl
    rw [matched_filter]
    apply filter_map_split
    intro r hr
    obtain ⟨hrs, hkey⟩ := hmatched hr
    obtain ⟨hkl, hkr⟩ := hcells (by simp) l hl r hrs hkey.symm
    rw [hkl, hkr]
  | left =>
    have hall : ∀ row, forRight row = true := by simpa using hright
    rw [filter_of_forall hall, executeJoin_left, executeJoin_left, filter_flatMap,
      filter_flatMap]
    apply flatMap_filter_congr
    intro l hl
    -- an unmatched left row is kept as it is, so only its own conjuncts are asked
    by_cases hnone : matched on rs l = []
    · simp only [hnone, if_true, filter_cons, filter_nil, hall, Bool.and_true]
      cases forLeft l <;> simp
    · rw [if_neg hnone]
      have hsplit := filter_map_split (matched on rs l) (mergeRow l) (forLeft l) forRight stay
        (fun row => forLeft row && forRight row && stay row) fun r hr => by
          obtain ⟨hrs, hkey⟩ := hmatched hr
          obtain ⟨hkl, hkr⟩ := hcells (by simp) l hl r hrs hkey.symm
          rw [hkl, hkr]
      rwa [filter_of_forall hall] at hsplit
  | right =>
    have hall : ∀ row, forLeft row = true := by simpa using hleft
    rw [filter_of_forall hall, executeJoin_right, executeJoin_right, filter_flatMap,
      filter_flatMap]
    apply flatMap_filter_congr
    intro r hr
    by_cases hnone : matched on ls r = []
    · simp only [hnone, if_true, filter_cons, filter_nil, hall, Bool.true_and]
      cases forRight r <;> simp
    · rw [if_neg hnone]
      have hsplit := filter_map_split (matched on ls r) (fun l => mergeRow l r) (forRight r)
        forLeft stay (fun row => forLeft row && forRight row && stay row) fun l hl => by
          obtain ⟨hls, hkey⟩ := hmatched hl
          obtain ⟨hkl, hkr⟩ := hcells (by simp) l hls r hr hkey
          rw [hkl, hkr, Bool.and_comm (forLeft l)]
      rwa [filter_of_forall hall] at hsplit
  | full =>
    have hkl : ∀ row, forLeft row = true := by simpa using hleft
    have hkr : ∀ row, forRight row = true := by simpa using hright
    simp only [filter_of_forall hkl, filter_of_forall hkr, hkl, hkr, Bool.true_and]
  | semi =>
    have hall : ∀ row, forRight row = true := by simpa using hright
    rw [filter_of_forall hall, executeJoin_semi, executeJoin_semi]
    simp only [filter_filter, hall, Bool.and_true]
    apply filter_congr
    intro l _
    cases forLeft l <;> simp [Bool.and_comm]
  | anti =>
    have hall : ∀ row, forRight row = true := by simpa using hright
    rw [filter_of_forall hall, executeJoin_anti, executeJoin_anti]
    simp only [filter_filter, hall, Bool.and_true]
    apply filter_congr
    intro l _
    cases forLeft l <;> simp [Bool.and_comm]

/-! ## Conjuncts -/

/-- The trees `astToFn` compiles. -/
def ExprAst.isPredicate : ExprAst κ → Bool
  | .col _ | .lit _ => true
  | .binary _ left right => left.isPredicate && right.isPredicate
  | .unary _ operand | .between operand _ _ | .isIn operand _ => operand.isPredicate
  | .call _ _ | .case _ _ | .cast _ _ | .field _ _ | .listOp _ _ _ | .fn _ => false

theorem astToFn_ok_iff (ast : ExprAst κ) :
    (∃ fn, ast.astToFn = .ok fn) ↔ ast.isPredicate = true := by
  induction ast using ExprAst.inductionOn with
  | col | lit | call | case | cast | field | listOp | fn =>
    simp [ExprAst.astToFn, ExprAst.isPredicate]
  | binary op left right ihl ihr =>
    simp only [ExprAst.isPredicate, Bool.and_eq_true, ← ihl, ← ihr, ExprAst.astToFn]
    cases left.astToFn <;> cases right.astToFn <;> simp [bind, Except.bind, pure, Except.pure]
  | unary _ operand ih | between operand _ _ ih | isIn operand _ ih =>
    simp only [ExprAst.isPredicate, ← ih, ExprAst.astToFn]
    cases operand.astToFn <;> simp [bind, Except.bind, pure, Except.pure]

omit [JsCells κ] in
theorem isCompilable_of_isPredicate {ast : ExprAst κ} (h : ast.isPredicate = true) :
    ast.isCompilable = true := by
  induction ast using ExprAst.inductionOn with
  | col | lit => rfl
  | binary _ _ _ ihl ihr =>
    simp only [ExprAst.isPredicate, Bool.and_eq_true] at h
    simp [ExprAst.isCompilable, ihl h.1, ihr h.2]
  | unary _ _ ih | between _ _ _ ih | isIn _ _ ih => exact ih h
  | call | case | cast | field | listOp | fn => simp [ExprAst.isPredicate] at h

def Holds (row : Row κ) (c : ExprAst κ) : Prop :=
  ∃ v, Evaluates row c v ∧ JsCells.truthy v = true

theorem truthy_iff_holds {row : Row κ} {c : ExprAst κ} {v : κ} (hc : c.isPredicate = true)
    (hv : Evaluates row c v) : JsCells.truthy v = true ↔ Holds row c := by
  constructor
  · exact fun htrue => ⟨v, hv, htrue⟩
  · intro h
    obtain ⟨w, hw, htrue⟩ := h
    rwa [evaluates_unique (isCompilable_of_isPredicate hc) hv hw]

theorem holds_congr {row row' : Row κ} {c : ExprAst κ}
    (hcells : ∀ name ∈ c.collectColumns, cell row name = cell row' name) :
    Holds row c ↔ Holds row' c := by
  constructor
  · intro ⟨v, hv, htrue⟩
    exact ⟨v, evaluates_of_agree hcells hv, htrue⟩
  · intro ⟨v, hv, htrue⟩
    exact ⟨v, evaluates_of_agree (fun name hname => (hcells name hname).symm) hv, htrue⟩

theorem holds_andExpr (a b : ExprAst κ) :
    Holds row (andExpr a b) ↔ Holds row a ∧ Holds row b := by
  simp only [Holds, andExpr, Evaluates]
  constructor
  · rintro ⟨_, ⟨x, y, hx, hy, rfl⟩, htrue⟩
    cases htx : JsCells.truthy x with
    | true =>
      simp only [BinaryOp.apply, htx, if_true] at htrue
      exact ⟨⟨x, hx, htx⟩, ⟨y, hy, htrue⟩⟩
    | false => simp [BinaryOp.apply, htx] at htrue
  · rintro ⟨⟨x, hx, htx⟩, ⟨y, hy, hty⟩⟩
    exact ⟨_, ⟨x, y, hx, hy, rfl⟩, by simp [BinaryOp.apply, htx, hty]⟩

variable (expr : ExprAst κ)

theorem holds_splitAnd : Holds row expr ↔ ∀ c ∈ splitAnd expr, Holds row c := by
  induction expr using ExprAst.inductionOn with
  | binary op left right ihl ihr =>
    cases op with
    | and =>
      show Holds row (andExpr left right) ↔ _
      rw [holds_andExpr, ihl, ihr, splitAnd, forall_mem_append]
    | _ => simp [splitAnd]
  | _ => simp [splitAnd]

theorem holds_andAll (first : ExprAst κ) (rest : List (ExprAst κ)) :
    Holds row (andAll first rest) ↔ ∀ c ∈ first :: rest, Holds row c := by
  induction rest generalizing first with
  | nil => simp [andAll]
  | cons c rest ih =>
    show Holds row (andAll (andExpr first c) rest) ↔ _
    rw [ih]
    simp only [forall_mem_cons, holds_andExpr, and_assoc]

omit [JsCells κ] in
theorem isPredicate_splitAnd :
    expr.isPredicate = true ↔ ∀ c ∈ splitAnd expr, c.isPredicate = true := by
  induction expr using ExprAst.inductionOn with
  | binary op left right ihl ihr =>
    cases op with
    | and => rw [ExprAst.isPredicate, Bool.and_eq_true, ihl, ihr, splitAnd, forall_mem_append]
    | _ => simp [splitAnd]
  | _ => simp [splitAnd]

omit [JsCells κ] in
theorem isPredicate_andAll (first : ExprAst κ) (rest : List (ExprAst κ)) :
    (andAll first rest).isPredicate = true ↔ ∀ c ∈ first :: rest, c.isPredicate = true := by
  induction rest generalizing first with
  | nil => simp [andAll]
  | cons c rest ih =>
    show (andAll (andExpr first c) rest).isPredicate = true ↔ _
    rw [ih]
    simp only [forall_mem_cons, andExpr, ExprAst.isPredicate, Bool.and_eq_true, and_assoc]

/-! ## The rule -/

/-- Where the conjuncts of a filter go. -/
structure JoinSplit (κ : Type) where
  forLeft : List (ExprAst κ)
  forRight : List (ExprAst κ)
  stay : List (ExprAst κ)

/-- Which conjuncts go below the join, and to which side. -/
def joinSplit (left right : LogicalPlan κ) : Option (JoinSplit κ) :=
  match inferColumns left, inferColumns right with
  | some leftCols, some rightCols =>
    let inLeft := fun c : ExprAst κ => c.collectColumns.all leftCols.contains
    let inRight := fun c : ExprAst κ => c.collectColumns.all rightCols.contains
    let forLeft := (splitAnd expr).filter fun c => inLeft c && !inRight c
    let forRight := (splitAnd expr).filter fun c => inRight c && !inLeft c
    if forLeft.isEmpty && forRight.isEmpty then none
    else some ⟨forLeft, forRight, (splitAnd expr).filter fun c => inLeft c == inRight c⟩
  | _, _ => none

def splitPlan (split : JoinSplit κ) (left right : LogicalPlan κ) (on : JoinOn) (type : JoinType) :
    Except String (LogicalPlan κ) := do
  let leftInput ← wrapFilter left split.forLeft
  let rightInput ← wrapFilter right split.forRight
  wrapFilter (.join leftInput rightInput on type) split.stay

theorem splitFilterAtJoin_eq (fn : Row κ → κ) (expr : ExprAst κ) (left right : LogicalPlan κ)
    (on : JoinOn) (type : JoinType) :
    splitFilterAtJoin (filter fn (some expr) (.join left right on type)) =
      match joinSplit expr left right with
      | none => .ok none
      | some split => (splitPlan split left right on type).map some := by
  unfold splitFilterAtJoin joinSplit
  cases hleft : inferColumns left with
  | none => simp only [hleft]
  | some leftCols =>
    cases hright : inferColumns right with
    | none => simp only [hleft, hright]
    | some rightCols =>
      simp only [hleft, hright]
      split
      · rfl
      · simp only [splitPlan]
        cases wrapFilter left _ with
        | error e => rfl
        | ok leftInput =>
          cases wrapFilter right _ with
          | error e => rfl
          | ok rightInput =>
            simp only [bind, Except.bind]
            cases wrapFilter (.join leftInput rightInput on type) _ <;> rfl

omit [JsCells κ] in
theorem joinSplit_conjuncts {expr : ExprAst κ} {split : JoinSplit κ}
    (h : joinSplit expr left right = some split) (c : ExprAst κ) :
    c ∈ splitAnd expr ↔ c ∈ split.forLeft ∨ c ∈ split.forRight ∨ c ∈ split.stay := by
  unfold joinSplit at h
  split at h
  · simp only at h
    split at h
    · exact nomatch h
    · rw [← Option.some.inj h]
      rename_i leftCols rightCols _ _ _
      simp only [mem_filter]
      cases c.collectColumns.all leftCols.contains <;>
        cases c.collectColumns.all rightCols.contains <;> simp
  · exact nomatch h

theorem wrapFilter_spec (input : LogicalPlan κ) {conjuncts : List (ExprAst κ)}
    (hall : ∀ c ∈ conjuncts, c.isPredicate = true) :
    ∃ q keep, wrapFilter input conjuncts = .ok q ∧
      (∀ mode, executePlan mode q = (executePlan mode input).map (List.filter keep)) ∧
      ∀ row, keep row = true ↔ ∀ c ∈ conjuncts, Holds row c := by
  cases conjuncts with
  | nil =>
    refine ⟨input, fun _ => true, rfl, fun mode => ?_, by simp⟩
    cases executePlan mode input <;> simp [Except.map]
  | cons first rest =>
    have hpredicate := (isPredicate_andAll first rest).mpr hall
    obtain ⟨fn, hfn⟩ := (astToFn_ok_iff _).mpr hpredicate
    refine ⟨filter fn (some (andAll first rest)) input, fun row => JsCells.truthy (fn row),
      ?_, ?_, ?_⟩
    · simp [wrapFilter, hfn, bind, Except.bind, pure, Except.pure]
    · exact fun mode => executePlan_filter fn _ input
    · intro row
      rw [truthy_iff_holds hpredicate (evaluates_astToFn hfn row), holds_andAll]

theorem wrapFilter_ok_iff (input : LogicalPlan κ) (conjuncts : List (ExprAst κ)) :
    (∃ q, wrapFilter input conjuncts = .ok q) ↔ ∀ c ∈ conjuncts, c.isPredicate = true := by
  constructor
  · intro ⟨q, hq⟩
    cases conjuncts with
    | nil => simp
    | cons first rest =>
      rw [← isPredicate_andAll, ← astToFn_ok_iff]
      rw [wrapFilter] at hq
      obtain ⟨fn, hfn, -⟩ := exists_of_bind hq
      exact ⟨fn, hfn⟩
  · intro hall
    obtain ⟨q, -, hq, -⟩ := wrapFilter_spec input hall
    exact ⟨q, hq⟩

/-! ## Where the rows stay the same -/

/-- Conjuncts go to a side only where its rows are not in the result without them, and read there
what they read of the joined row. -/
structure SplitSafe (mode : ExecMode) (left right : LogicalPlan κ) (on : JoinOn) (type : JoinType)
    (split : JoinSplit κ) : Prop where
  fromLeft : split.forLeft = [] ∨ type ∈ [.inner, .left, .semi, .anti]
  fromRight : split.forRight = [] ∨ type ∈ [.inner, .right]
  cells : type ∈ [.inner, .left, .right] → ∀ ls rs, executePlan mode left = .ok ls →
    executePlan mode right = .ok rs → ∀ l ∈ ls, ∀ r ∈ rs, getJoinKey l on = getJoinKey r on →
      (∀ c ∈ split.forLeft, ∀ name ∈ c.collectColumns, cell (mergeRow l r) name = cell l name) ∧
      (∀ c ∈ split.forRight, ∀ name ∈ c.collectColumns, cell (mergeRow l r) name = cell r name)

theorem executePlan_splitPlan {fn : Row κ → κ} {expr : ExprAst κ}
    (hfn : ∀ row, Evaluates row expr (fn row)) {split : JoinSplit κ}
    (hsplit : joinSplit expr left right = some split) (hpredicate : expr.isPredicate = true)
    (hsafe : SplitSafe mode left right on type split) :
    ∃ p, splitPlan split left right on type = .ok p ∧
      executePlan mode p = executePlan mode (filter fn (some expr) (.join left right on type)) := by
  have hconjuncts := joinSplit_conjuncts hsplit
  have hall := (isPredicate_splitAnd expr).mp hpredicate
  obtain ⟨leftInput, forLeft, hleft, hleftRows, hforLeft⟩ := wrapFilter_spec left
    fun c hc => hall c ((hconjuncts c).mpr (.inl hc))
  obtain ⟨rightInput, forRight, hright, hrightRows, hforRight⟩ := wrapFilter_spec right
    fun c hc => hall c ((hconjuncts c).mpr (.inr (.inl hc)))
  obtain ⟨q, stay, hq, hqRows, hstay⟩ := wrapFilter_spec (.join leftInput rightInput on type)
    fun c hc => hall c ((hconjuncts c).mpr (.inr (.inr hc)))
  refine ⟨q, by simp only [splitPlan, hleft, hright, hq, bind, Except.bind], ?_⟩
  -- The filter keeps the rows on which all conjuncts hold, wherever they went.
  have hkeep : ∀ row, JsCells.truthy (fn row) = (forLeft row && forRight row && stay row) := by
    intro row
    rw [Bool.eq_iff_iff, truthy_iff_holds hpredicate (hfn row), holds_splitAnd]
    simp only [Bool.and_eq_true, hforLeft, hforRight, hstay, hconjuncts]
    constructor
    · exact fun h => ⟨⟨fun c hc => h c (.inl hc), fun c hc => h c (.inr (.inl hc))⟩,
        fun c hc => h c (.inr (.inr hc))⟩
    · rintro ⟨⟨hl, hr⟩, hs⟩ c (hc | hc | hc)
      · exact hl c hc
      · exact hr c hc
      · exact hs c hc
  rw [hqRows, executePlan_filter, executePlan_join, executePlan_join, hleftRows, hrightRows]
  cases hls : executePlan mode left with
  | error err => rfl
  | ok ls =>
    cases hrs : executePlan mode right with
    | error err => rfl
    | ok rs =>
      show Except.ok ((executeJoin (ls.filter forLeft) (rs.filter forRight) on type).filter stay) =
        Except.ok (keptRows fn (executeJoin ls rs on type))
      rw [keptRows, executeJoin_filter]
      · simp only [hkeep]
      · refine hsafe.fromLeft.imp (fun hnil row => ?_) id
        rw [hforLeft, hnil]
        exact fun c hc => by cases hc
      · refine hsafe.fromRight.imp (fun hnil row => ?_) id
        rw [hforRight, hnil]
        exact fun c hc => by cases hc
      · intro htype l hl r hr hkey
        obtain ⟨hcl, hcr⟩ := hsafe.cells htype ls rs hls hrs l hl r hr hkey
        constructor
        · rw [Bool.eq_iff_iff, hforLeft, hforLeft]
          exact forall₂_congr fun c hc => holds_congr (hcl c hc)
        · rw [Bool.eq_iff_iff, hforRight, hforRight]
          exact forall₂_congr fun c hc => holds_congr (hcr c hc)

theorem splitPlan_preserves {e : Expr κ} (he : e.Built) {split : JoinSplit κ}
    (hsplit : joinSplit e.ast left right = some split) (hpredicate : e.ast.isPredicate = true)
    (hsafe : SplitSafe mode left right on type split) :
    ∃ p, splitPlan split left right on type = .ok p ∧
      executePlan mode p = executePlan mode (filter e.fn (some e.ast) (.join left right on type)) :=
  executePlan_splitPlan he.evaluates hsplit hpredicate hsafe

/-- The rule does not throw, and what it answers with has the rows of the filter above the join. -/
def SplitPreserves (mode : ExecMode) (e : Expr κ) (left right : LogicalPlan κ) (on : JoinOn)
    (type : JoinType) : Prop :=
  ∃ answer, splitFilterAtJoin (filter e.fn (some e.ast) (.join left right on type)) = .ok answer ∧
    ∀ p, answer = some p →
      executePlan mode p = executePlan mode (filter e.fn (some e.ast) (.join left right on type))

theorem isPredicate_of_splitPlan {expr : ExprAst κ}
    {split : JoinSplit κ} (hsplit : joinSplit expr left right = some split)
    {p : LogicalPlan κ} (hp : splitPlan split left right on type = .ok p) :
    expr.isPredicate = true := by
  rw [isPredicate_splitAnd]
  intro c hc
  rw [splitPlan] at hp
  obtain ⟨leftInput, hleft, hp⟩ := exists_of_bind hp
  obtain ⟨rightInput, hright, hp⟩ := exists_of_bind hp
  rcases (joinSplit_conjuncts hsplit c).mp hc with hc | hc | hc
  · exact (wrapFilter_ok_iff _ _).mp ⟨leftInput, hleft⟩ c hc
  · exact (wrapFilter_ok_iff _ _).mp ⟨rightInput, hright⟩ c hc
  · exact (wrapFilter_ok_iff _ _).mp ⟨p, hp⟩ c hc

/-- Splitting a filter at a join keeps the rows where the split is safe and its conjuncts compile;
where one does not compile, the rule throws. -/
theorem join_filters_preserve {e : Expr κ} (he : e.Built) (left right : LogicalPlan κ)
    (on : JoinOn) (type : JoinType) :
    ((∀ split, joinSplit e.ast left right = some split →
        e.ast.isPredicate = true ∧ SplitSafe mode left right on type split) →
      SplitPreserves mode e left right on type) ∧
    (SplitPreserves mode e left right on type →
      ∀ split, joinSplit e.ast left right = some split → e.ast.isPredicate = true) := by
  constructor
  · intro h
    rw [SplitPreserves, splitFilterAtJoin_eq]
    cases hsplit : joinSplit e.ast left right with
    | none => exact ⟨none, rfl, fun p hp => nomatch hp⟩
    | some split =>
      obtain ⟨hpredicate, hsafe⟩ := h split hsplit
      obtain ⟨p, hp, hrows⟩ := splitPlan_preserves he hsplit hpredicate hsafe
      refine ⟨some p, by simp only [hp, Except.map], fun p' hp' => ?_⟩
      cases hp'
      exact hrows
  · rintro ⟨answer, hanswer, -⟩ split hsplit
    rw [splitFilterAtJoin_eq, hsplit] at hanswer
    cases hp : splitPlan split left right on type with
    | error err => simp [hp, Except.map] at hanswer
    | ok p => exact isPredicate_of_splitPlan hsplit hp

end Joins

def keyedRow (name : String) (value : Int) : Row JsValue :=
  (empty.set "id" (.num 1)).set name (.num value)

def bIsTwo : Expr JsValue := .binary .eq (.col "b") (.lit (.num 2))

theorem bIsTwo_built : bIsTwo.Built := .binary _ (.col _) (.lit _)

theorem inferColumns_keyedRow (name : String) (value : Int) (hname : isArrayIndex name = false)
    (hid : name ≠ "id") : inferColumns (sourceOf [keyedRow name value]) = some ["id", name] := by
  have hentries : (keyedRow name value).entries = [("id", .num 1), (name, .num value)] := by
    simp [keyedRow, JsMap.set, JsMap.empty, JsMap.upsert, Ne.symm hid]
  have hindex : isArrayIndex "id" = false := by decide +kernel
  simp [inferColumns, sourceOf, enumerate, hentries, hindex, hname, StableSort.sort]

theorem joinSplit_bIsTwo (a b : Int) :
    joinSplit bIsTwo.ast (sourceOf [keyedRow "a" a]) (sourceOf [keyedRow "b" b]) =
      some ⟨[], [bIsTwo.ast], []⟩ := by
  rw [joinSplit, inferColumns_keyedRow "a" a (by decide +kernel) (by decide),
    inferColumns_keyedRow "b" b (by decide +kernel) (by decide)]
  rfl

theorem join_filters_preserve_inner : SplitPreserves .executeSync bIsTwo
    (sourceOf [keyedRow "a" 1]) (sourceOf [keyedRow "b" 2]) (.column "id") .inner := by
  apply (join_filters_preserve bIsTwo_built _ _ _ _).1
  intro split hsplit
  rw [joinSplit_bIsTwo] at hsplit
  cases hsplit
  refine ⟨rfl, .inl rfl, .inr (by simp), ?_⟩
  intro _ ls rs hls hrs l hl r hr _
  cases hls
  cases hrs
  rw [mem_singleton.mp hl, mem_singleton.mp hr]
  refine ⟨fun c hc => (nomatch hc), fun c hc name hname => ?_⟩
  rw [mem_singleton.mp hc] at hname
  rw [mem_singleton.mp hname]
  rfl

/-- Below a left join, a left row whose only match is filtered out is left as it is. -/
theorem left_join_counterexample : ¬ ∀ (e : Expr JsValue), e.Built → ∀ left right on type,
    SplitPreserves .executeSync e left right on type := by
  intro h
  obtain ⟨answer, hanswer, hrows⟩ := h bIsTwo bIsTwo_built (sourceOf [keyedRow "a" 1])
    (sourceOf [keyedRow "b" 1]) (.column "id") .left
  rw [splitFilterAtJoin_eq, joinSplit_bIsTwo] at hanswer
  cases hanswer
  have heq := hrows _ rfl
  change Except.ok [keyedRow "a" 1] = Except.ok [] at heq
  exact nomatch heq

end Promin.Data
