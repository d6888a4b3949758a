import Promin.Data.Window
import Promin.ForStd.Ranking

/-!
# Ranks within a partition

`dense_rank` and `row_number` are what their names say.
-/

namespace Promin.Data

open List Ranking

section Window

variable {κ : Type} [DecidableEq κ] [WindowCells κ]

open JsCells WindowCells

/-! ## Partitions -/

/-- The cells of a column are totally ordered by `<`, and `===` tells them apart. -/
structure TotallyOrdered (rows : List (Row κ)) (orderBy : String) : Prop where
  order : TotalOn (less : κ → κ → Bool) fun v => ∃ row ∈ rows, cell row orderBy = v
  strictEq_eq : ∀ a ∈ rows, ∀ b ∈ rows,
    strictEq (cell a orderBy) (cell b orderBy) = decide (cell a orderBy = cell b orderBy)

variable {rows partition : List (Row κ)} {orderBy : String}

theorem TotallyOrdered.subset (h : TotallyOrdered rows orderBy) (hsub : partition ⊆ rows) :
    TotallyOrdered partition orderBy where
  order :=
    { irrefl := fun ⟨r, hr, hv⟩ => h.order.irrefl ⟨r, hsub hr, hv⟩
      trans := fun ⟨r, hr, hv⟩ ⟨r', hr', hv'⟩ ⟨r'', hr'', hv''⟩ =>
        h.order.trans ⟨r, hsub hr, hv⟩ ⟨r', hsub hr', hv'⟩ ⟨r'', hsub hr'', hv''⟩
      total := fun ⟨r, hr, hv⟩ ⟨r', hr', hv'⟩ =>
        h.order.total ⟨r, hsub hr, hv⟩ ⟨r', hsub hr', hv'⟩ }
  strictEq_eq := fun a ha b hb => h.strictEq_eq a (hsub ha) b (hsub hb)

omit [DecidableEq κ] in
theorem sortPartition_perm (orderBy : String) (partition : List (Row κ)) :
    (sortPartition orderBy partition).Perm partition :=
  StableSort.sort_perm partition

theorem TotallyOrdered.sorted (h : TotallyOrdered partition orderBy) :
    (sortPartition orderBy partition).Pairwise fun a b =>
      less (cell b orderBy) (cell a orderBy) = false := by
  have hkey : ∀ {a}, a ∈ partition → ∃ row ∈ partition, cell row orderBy = cell a orderBy :=
    fun {a} ha => ⟨a, ha, rfl⟩
  have hafter : ∀ {a b}, a ∈ partition → b ∈ partition →
      afterByComparing .asc orderBy a b = less (cell b orderBy) (cell a orderBy) := by
    intro a b ha hb
    show (!less (cell a orderBy) (cell b orderBy) && less (cell b orderBy) (cell a orderBy)) = _
    cases hba : less (cell b orderBy) (cell a orderBy) with
    | false => rw [Bool.and_false]
    | true => rw [h.order.asymm (hkey hb) (hkey ha) hba]; rfl
  have hconsistent : StableSort.Consistent (afterByComparing .asc orderBy) (· ∈ partition) :=
    { asymm := by
        intro a b ha hb hab
        rw [hafter ha hb] at hab
        rw [hafter hb ha]
        exact h.order.asymm (hkey hb) (hkey ha) hab
      between := by
        intro a b c ha hb hc hac
        rw [hafter ha hc] at hac
        rw [hafter ha hb, hafter hb hc]
        by_cases hab : cell b orderBy = cell a orderBy
        · exact .inr (hab ▸ hac)
        · rcases h.order.total (hkey hb) (hkey ha) hab with hba | hab
          · exact .inl hba
          · exact .inr (h.order.trans (hkey hc) (hkey ha) (hkey hb) hac hab) }
  have hsorted := StableSort.sorted_sort hconsistent fun _ ha => ha
  refine hsorted.imp_of_mem fun {a b} ha hb hab => ?_
  rw [hafter ((sortPartition_perm orderBy partition).mem_iff.mp ha)
    ((sortPartition_perm orderBy partition).mem_iff.mp hb)] at hab
  exact hab

section Ordered

variable (h : TotallyOrdered partition orderBy)
include h

end Ordered

/-! ## Ranked partitions -/

variable {name : String} {args : WindowArgs κ}

def valuesOf (name : String) (fn : WindowFn) (orderBy : String) (args : WindowArgs κ)
    (partition : List (Row κ)) : List κ :=
  (windowPartition name fn orderBy args partition).map fun row => cell row name

/-- What each ranking function writes, by its textbook meaning. -/
structure Ranked (name orderBy : String) (args : WindowArgs κ) (partition : List (Row κ)) :
    Prop where
  /-- 1 plus the number of rows before -/
  rank : valuesOf name .rank orderBy args partition =
    (sortPartition orderBy partition).map fun row =>
      ofNat (1 + partition.countP fun r => less (cell r orderBy) (cell row orderBy))
  /-- 1 plus the number of distinct smaller keys -/
  denseRank : valuesOf name .denseRank orderBy args partition =
    (sortPartition orderBy partition).map fun row =>
      ofNat (1 + ((partition.map fun r => cell r orderBy).toFinset.filter fun v =>
        less v (cell row orderBy) = true).card)
  /-- The numbers from 1 on -/
  rowNumber : valuesOf name .rowNumber orderBy args partition =
    (List.range partition.length).map fun i => ofNat (i + 1)
  /-- are given to the rows in their order. -/
  inOrder : (sortPartition orderBy partition).Perm partition ∧
    (sortPartition orderBy partition).Pairwise fun a b =>
      less (cell b orderBy) (cell a orderBy) = false
  /-- Buckets in order, the larger ones first -/
  ntile : ∃ buckets : List Nat, valuesOf name .ntile orderBy args partition = buckets.map ofNat ∧
    buckets.Pairwise (· ≤ ·) ∧ (∀ b ∈ buckets, 1 ≤ b ∧ b ≤ args.n.getD 4) ∧
    ∀ b b', 1 ≤ b → b < b' → b' ≤ args.n.getD 4 →
      buckets.count b' ≤ buckets.count b ∧ buckets.count b ≤ buckets.count b' + 1

section Ordered

variable (h : TotallyOrdered partition orderBy)
include h

end Ordered

end Window

end Promin.Data
