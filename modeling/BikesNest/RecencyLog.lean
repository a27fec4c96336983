import Mathlib.Data.List.Dedup
import Mathlib.Data.List.DropRight

/-! Logs of values given to keys, read by recency: `latest` is the value a key was given last, and
the keys in the order of their latest values are the deduplicated keys of the log, of which a
bounded cache keeps a window at the end. -/

namespace RecencyLog

variable {κ ν τ : Type*} [DecidableEq κ]

def latest (key : κ) (log : List (κ × ν)) : Option ν :=
  ((log.filter fun entry => decide (entry.1 = key)).getLast?).map Prod.snd

/-- The keys of a log, the one given a value longest ago first. -/
def byRecency (log : List (κ × ν)) : List κ := (log.map Prod.fst).dedup

variable {log : List (κ × ν)} {key k : κ} {v : ν}

@[simp] theorem latest_nil : latest key ([] : List (κ × ν)) = none := rfl

theorem latest_concat :
    latest key (log ++ [(k, v)]) = if k = key then some v else latest key log := by
  rw [latest, List.filter_append]
  by_cases same : k = key
  · simp [same]
  · simp [same, latest]

theorem latest_mem (h : latest key log = some v) : (key, v) ∈ log := by
  obtain ⟨entry, last, rfl⟩ := Option.map_eq_some_iff.mp h
  obtain ⟨mem, same⟩ := List.mem_filter.mp (List.mem_of_getLast? last)
  rw [← of_decide_eq_true same]
  exact mem

theorem latest_isSome : (latest key log).isSome = true ↔ key ∈ byRecency log := by
  induction log using List.reverseRecOn with
  | nil => simp [byRecency]
  | append_singleton log entry ih =>
    obtain ⟨k, v⟩ := entry
    rw [latest_concat, byRecency, List.mem_dedup, List.map_append, List.mem_append,
      ← List.mem_dedup, ← byRecency, ← ih]
    split_ifs with same
    · simp [same]
    · simp [Ne.symm same]

/-- A key that is given a value becomes the most recent one. -/
theorem dedup_concat (l : List κ) (a : κ) : (l ++ [a]).dedup = l.dedup.erase a ++ [a] := by
  induction l with
  | nil => simp
  | cons b l ih =>
    by_cases seen : b ∈ l
    · rw [List.cons_append, List.dedup_cons_of_mem (List.mem_append_left _ seen), ih,
        List.dedup_cons_of_mem seen]
    · rw [List.dedup_cons_of_notMem seen]
      by_cases same : b = a
      · subst same
        rw [List.cons_append, List.dedup_cons_of_mem (by simp), ih, List.erase_cons_head,
          List.erase_of_not_mem (by simpa using seen)]
      · have fresh : b ∉ l ++ [a] := by simp [seen, same]
        rw [List.cons_append, List.dedup_cons_of_notMem fresh, ih,
          List.erase_cons_tail (by simpa using same), List.cons_append]

theorem byRecency_concat : byRecency (log ++ [(k, v)]) = (byRecency log).erase k ++ [k] := by
  rw [byRecency, List.map_append]
  exact dedup_concat _ k

theorem byRecency_nodup : (byRecency log).Nodup := List.nodup_dedup _

/-- The keys are sorted by the times of their latest values, where the times of the log are. -/
theorem byRecency_sorted [Preorder τ] (time : ν → τ)
    (sorted : log.Pairwise fun a b => time a.2 ≤ time b.2) : (byRecency log).Pairwise fun a b =>
      ∀ x ∈ latest a log, ∀ y ∈ latest b log, time x ≤ time y := by
  induction log using List.reverseRecOn with
  | nil => exact .nil
  | append_singleton log entry ih =>
    obtain ⟨k, v⟩ := entry
    obtain ⟨before, -, last⟩ := List.pairwise_append.mp sorted
    rw [byRecency_concat, List.pairwise_append]
    refine ⟨?_, List.pairwise_singleton _ _, ?_⟩
    · refine ((ih before).sublist (List.erase_sublist)).imp_of_mem ?_
      intro a b ha hb h
      rw [latest_concat, latest_concat, if_neg, if_neg]
      · exact h
      · exact fun same => (List.Nodup.not_mem_erase byRecency_nodup) (same ▸ hb)
      · exact fun same => (List.Nodup.not_mem_erase byRecency_nodup) (same ▸ ha)
    · intro a ha b hb x hx y hy
      obtain rfl := List.mem_singleton.mp hb
      have other : b ≠ a := fun same => (List.Nodup.not_mem_erase byRecency_nodup) (same ▸ ha)
      rw [latest_concat, if_neg other] at hx
      rw [latest_concat, if_pos rfl] at hy
      cases hy
      exact last _ (latest_mem hx) _ (List.mem_singleton_self _)

section Window

variable {l : List κ} {n : ℕ}

omit [DecidableEq κ] in
theorem rtake_of_length_le (h : l.length ≤ n) : l.rtake n = l := by
  rw [List.rtake, Nat.sub_eq_zero_of_le h, List.drop_zero]

omit [DecidableEq κ] in
theorem length_rtake : (l.rtake n).length = min n l.length := by
  rw [List.rtake, List.length_drop]
  omega

omit [DecidableEq κ] in
theorem rtake_append {before : List κ} (h : n ≤ l.length) : (before ++ l).rtake n = l.rtake n := by
  have cut : before.length + l.length - n = before.length + (l.length - n) := by omega
  rw [List.rtake, List.length_append, cut, List.drop_append, List.rtake]
  simp

/-- A window that loses a key and takes one at its end does what the whole list does. -/
theorem rtake_erase_concat (nodup : l.Nodup) (positive : 0 < n) :
    ((l.rtake n).erase key ++ [key]).rtake n = (l.erase key ++ [key]).rtake n := by
  obtain ⟨m, rfl⟩ : ∃ m, n = m + 1 := ⟨n - 1, by omega⟩
  by_cases short : l.length ≤ m + 1
  · rw [rtake_of_length_le short]
  have parts : l = l.rdrop (m + 1) ++ l.rtake (m + 1) := (List.take_append_drop _ l).symm
  have size : (l.rtake (m + 1)).length = m + 1 := by
    rw [length_rtake]
    omega
  have left : m ≤ ((l.rtake (m + 1)).erase key).length := by
    rw [List.length_erase]
    split_ifs <;> omega
  obtain ⟨before, erased⟩ : ∃ before, l.erase key = before ++ (l.rtake (m + 1)).erase key := by
    by_cases early : key ∈ l.rdrop (m + 1)
    · have late : key ∉ l.rtake (m + 1) := fun h =>
        (List.nodup_append.mp (parts ▸ nodup)).2.2 key early key h rfl
      refine ⟨(l.rdrop (m + 1)).erase key, ?_⟩
      conv_lhs => rw [parts]
      rw [List.erase_append_left _ early, List.erase_of_not_mem late]
    · refine ⟨l.rdrop (m + 1), ?_⟩
      conv_lhs => rw [parts]
      exact List.erase_append_right _ early
  rw [List.rtake_concat_succ, List.rtake_concat_succ, erased, rtake_append left]

end Window

end RecencyLog
