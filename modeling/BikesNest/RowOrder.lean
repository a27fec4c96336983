import Mathlib

/-! The order of the rows of a query. `ORDER BY` settles it up to rows whose keys are equal, and
`DISTINCT ON` keeps the first row of each value of a column. -/

namespace RowOrder

section OrderBy

variable {ρ κ : Type*} [LinearOrder κ] {key : ρ → κ}

/-- `ORDER BY key`. Rows with the same key come in any order. -/
structure OrderBy (key : ρ → κ) where
  sort : List ρ → List ρ
  perm : ∀ rows, (sort rows).Perm rows
  sorted : ∀ rows, (sort rows).Pairwise fun a b => key a ≤ key b

/-- Rows with the same key stay as they were. -/
def stable (key : ρ → κ) : OrderBy key where
  sort := List.insertionSort fun a b => key a ≤ key b
  perm := List.perm_insertionSort _
  sorted rows := by
    have : Std.Total fun a b : ρ => key a ≤ key b := ⟨fun a b => le_total (key a) (key b)⟩
    have : IsTrans ρ fun a b => key a ≤ key b := ⟨fun a b c => le_trans⟩
    exact List.pairwise_insertionSort _ rows

variable (o : OrderBy key)

@[simp] theorem mem_sort {rows : List ρ} {r : ρ} : r ∈ o.sort rows ↔ r ∈ rows :=
  (o.perm rows).mem_iff

@[simp] theorem length_sort (rows : List ρ) : (o.sort rows).length = rows.length :=
  (o.perm rows).length_eq

theorem sort_strict {rows : List ρ} (distinct : (rows.map key).Nodup) :
    (o.sort rows).Pairwise fun a b => key a < key b := by
  have keys : ((o.sort rows).map key).Nodup := ((o.perm rows).map key).nodup_iff.mpr distinct
  have different := List.pairwise_map.mp keys
  exact ((o.sorted rows).and different).imp fun h => lt_of_le_of_ne h.1 h.2

/-- Distinct keys leave one order only. -/
theorem sort_eq {rows sorted : List ρ} (perm : sorted.Perm rows)
    (strict : sorted.Pairwise fun a b => key a < key b) : o.sort rows = sorted := by
  have keys : (rows.map key).Nodup := by
    apply (perm.map key).nodup_iff.mp
    exact List.pairwise_map.mpr (strict.imp fun h => ne_of_lt h)
  refine List.Perm.eq_of_pairwise ?_ (sort_strict o keys) strict ((o.perm rows).trans perm.symm)
  intro a b _ _ hab hba
  exact absurd hba (lt_asymm hab)

theorem sort_filter {rows : List ρ} (distinct : (rows.map key).Nodup) (p : ρ → Bool) :
    o.sort (rows.filter p) = (o.sort rows).filter p := by
  apply sort_eq
  · exact (o.perm rows).filter p
  · exact (sort_strict o distinct).filter p

end OrderBy

/-- Rows that a join keeps have their keys. -/
theorem keys_filterMap {ρ β κ : Type*} {f : ρ → Option β} {key : ρ → κ} {key' : β → κ}
    (copies : ∀ r b, f r = some b → key' b = key r) (rows : List ρ) :
    ((rows.filterMap f).map key').Sublist (rows.map key) := by
  induction rows with
  | nil => exact List.Sublist.slnil
  | cons r rows ih =>
    cases h : f r with
    | none =>
      rw [List.filterMap_cons_none h]
      exact ih.cons _
    | some b =>
      rw [List.filterMap_cons_some h, List.map_cons, List.map_cons, copies r b h]
      exact ih.cons_cons _

section DistinctOn

variable {ρ β κ : Type*} [DecidableEq β]

/-- `DISTINCT ON (f)`: of the rows that share a value of `f`, the first one. -/
def distinctOn (f : ρ → β) : List ρ → List ρ
  | [] => []
  | r :: rows => r :: (distinctOn f rows).filter fun q => decide (f q ≠ f r)

variable {f : ρ → β}

theorem distinctOn_sublist (rows : List ρ) : (distinctOn f rows).Sublist rows := by
  induction rows with
  | nil => exact List.Sublist.slnil
  | cons r rows ih => exact (List.filter_sublist.trans ih).cons_cons r

theorem distinctOn_nodup (rows : List ρ) : ((distinctOn f rows).map f).Nodup := by
  induction rows with
  | nil => simp [distinctOn]
  | cons r rows ih =>
    rw [distinctOn, List.map_cons, List.nodup_cons]
    constructor
    · intro h
      obtain ⟨q, hq, same⟩ := List.mem_map.mp h
      have := (List.mem_filter.mp hq).2
      simp [same] at this
    · exact (List.filter_sublist.map f).nodup ih

/-- Every value of the column keeps a row. -/
theorem mem_map_distinctOn {rows : List ρ} {b : β} :
    b ∈ (distinctOn f rows).map f ↔ b ∈ rows.map f := by
  induction rows with
  | nil => simp [distinctOn]
  | cons r rows ih =>
    rw [distinctOn, List.map_cons, List.map_cons, List.mem_cons, List.mem_cons, ← ih]
    by_cases h : b = f r
    · simp [h]
    · simp only [h, false_or, List.mem_map, List.mem_filter, decide_eq_true_eq]
      constructor
      · rintro ⟨q, ⟨hq, -⟩, rfl⟩
        exact ⟨q, hq, rfl⟩
      · rintro ⟨q, hq, rfl⟩
        exact ⟨q, ⟨hq, h⟩, rfl⟩

theorem distinctOn_eq_self {rows : List ρ} (distinct : (rows.map f).Nodup) :
    distinctOn f rows = rows := by
  induction rows with
  | nil => rfl
  | cons r rows ih =>
    obtain ⟨fresh, distinct⟩ := List.nodup_cons.mp distinct
    rw [distinctOn, ih distinct, List.filter_eq_self.mpr]
    intro q hq
    have : f q ≠ f r := fun same => fresh (List.mem_map.mpr ⟨q, hq, same⟩)
    simpa using this

/-- In ordered rows the one that is kept comes before the others of its value. -/
theorem distinctOn_first [LinearOrder κ] {key : ρ → κ} {rows : List ρ}
    (sorted : rows.Pairwise fun a b => key a ≤ key b) {r q : ρ} (hr : r ∈ distinctOn f rows)
    (hq : q ∈ rows) (same : f q = f r) : key r ≤ key q := by
  induction rows with
  | nil => simp at hq
  | cons a rows ih =>
    obtain ⟨first, sorted⟩ := List.pairwise_cons.mp sorted
    rcases List.mem_cons.mp hr with rfl | hr
    · rcases List.mem_cons.mp hq with rfl | hq
      · exact le_rfl
      · exact first q hq
    · obtain ⟨hr, different⟩ := List.mem_filter.mp hr
      rcases List.mem_cons.mp hq with rfl | hq
      · simp [same] at different
      · exact ih sorted hr hq

end DistinctOn

end RowOrder
