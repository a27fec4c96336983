import Mathlib

/-! Keyed relational tables. A table is the list of its rows in storage order together
with the proof that no two rows share a key, so a value of the type never violates its
primary key. Statements are total functions of the table; an insert whose key is taken
is refused. -/

structure Table (κ ρ : Type*) (key : ρ → κ) where
  rows : List ρ
  distinct : (rows.map key).Nodup

namespace Table

variable {κ ρ : Type*} {key : ρ → κ}

instance : Membership ρ (Table κ ρ key) := ⟨fun t r => r ∈ t.rows⟩

@[ext] theorem ext {t u : Table κ ρ key} (h : t.rows = u.rows) : t = u := by
  cases t
  cases u
  cases h
  rfl

theorem mem_rows {t : Table κ ρ key} {r : ρ} : r ∈ t ↔ r ∈ t.rows := Iff.rfl

def empty : Table κ ρ key := ⟨[], by simp⟩

@[simp] theorem not_mem_empty (r : ρ) : r ∉ (empty : Table κ ρ key) :=
  List.not_mem_nil

theorem eq_of_key_eq {t : Table κ ρ key} {r q : ρ} (hr : r ∈ t) (hq : q ∈ t)
    (h : key r = key q) : r = q :=
  List.inj_on_of_nodup_map t.distinct hr hq h

/-- `SELECT … WHERE p`, in storage order. -/
def filter (t : Table κ ρ key) (p : ρ → Bool) : List ρ := t.rows.filter p

@[simp] theorem mem_filter {t : Table κ ρ key} {p : ρ → Bool} {r : ρ} :
    r ∈ t.filter p ↔ r ∈ t ∧ p r = true := List.mem_filter

/-- `SELECT count(*) … WHERE p`. -/
def count (t : Table κ ρ key) (p : ρ → Bool) : ℕ := t.rows.countP p

/-- `UPDATE … SET f WHERE p`; the assignment leaves the key alone. -/
def update (t : Table κ ρ key) (p : ρ → Bool) (f : ρ → ρ) (hf : ∀ r, key (f r) = key r) :
    Table κ ρ key where
  rows := t.rows.map fun r => if p r then f r else r
  distinct := by
    have h : (key ∘ fun r => if p r then f r else r) = key := by
      funext r
      by_cases hp : p r <;> simp [hp, hf]
    rw [List.map_map, h]
    exact t.distinct

theorem mem_update {t : Table κ ρ key} {p : ρ → Bool} {f : ρ → ρ}
    {hf : ∀ r, key (f r) = key r} {q : ρ} :
    q ∈ t.update p f hf ↔ ∃ r ∈ t, (if p r then f r else r) = q := List.mem_map

/-- The table as a reader of fewer columns sees it. -/
def project {ρ' : Type*} {key' : ρ' → κ} (t : Table κ ρ key) (f : ρ → ρ')
    (hf : ∀ r, key' (f r) = key r) : Table κ ρ' key' where
  rows := t.rows.map f
  distinct := by
    rw [List.map_map, show key' ∘ f = key from funext hf]
    exact t.distinct

/-- `DELETE … WHERE p`. -/
def delete (t : Table κ ρ key) (p : ρ → Bool) : Table κ ρ key where
  rows := t.rows.filter fun r => !p r
  distinct := (List.filter_sublist.map key).nodup t.distinct

theorem mem_delete {t : Table κ ρ key} {p : ρ → Bool} {r : ρ} :
    r ∈ t.delete p ↔ r ∈ t ∧ p r = false :=
  List.mem_filter.trans (and_congr_right' (Iff.of_eq (Bool.not_eq_true' _)))

section Keyed

variable [DecidableEq κ]

/-- The row with primary key `k`. -/
def find (t : Table κ ρ key) (k : κ) : Option ρ := t.rows.find? fun r => decide (key r = k)

theorem find_eq_some {t : Table κ ρ key} {k : κ} {r : ρ} :
    t.find k = some r ↔ r ∈ t ∧ key r = k := by
  constructor
  · intro h
    exact ⟨List.mem_of_find?_eq_some h, by simpa using List.find?_some h⟩
  · rintro ⟨hr, rfl⟩
    cases hq : t.find (key r) with
    | none =>
      have := List.find?_eq_none.mp hq r hr
      simp at this
    | some q =>
      have hk : key q = key r := by simpa using List.find?_some hq
      rw [eq_of_key_eq (List.mem_of_find?_eq_some hq) hr hk]

theorem find_eq_none {t : Table κ ρ key} {k : κ} :
    t.find k = none ↔ ∀ r ∈ t, key r ≠ k :=
  List.find?_eq_none.trans (forall₂_congr fun _ _ => not_congr decide_eq_true_iff)

theorem find_of_mem {t : Table κ ρ key} {r : ρ} (h : r ∈ t) : t.find (key r) = some r :=
  find_eq_some.mpr ⟨h, rfl⟩

/-- Rows of a table are told apart by their keys. -/
theorem perm_of_keys (t : Table κ ρ key) {xs ys : List ρ} (hx : ∀ r ∈ xs, r ∈ t)
    (hy : ∀ r ∈ ys, r ∈ t) (same : (xs.map key).Perm (ys.map key)) : xs.Perm ys := by
  have back : ∀ rows : List ρ, (∀ r ∈ rows, r ∈ t) → (rows.map key).filterMap t.find = rows := by
    intro rows
    induction rows with
    | nil => exact fun _ => rfl
    | cons r rows ih =>
      intro stored
      have found := find_of_mem (stored r List.mem_cons_self)
      rw [List.map_cons, List.filterMap_cons_some found,
        ih fun q hq => stored q (List.mem_cons_of_mem r hq)]
  rw [← back xs hx, ← back ys hy]
  exact same.filterMap _

@[simp] theorem find_empty (k : κ) : (empty : Table κ ρ key).find k = none := rfl

@[simp] theorem find_project {ρ' : Type*} {key' : ρ' → κ} (t : Table κ ρ key) (f : ρ → ρ')
    (hf : ∀ r, key' (f r) = key r) (k : κ) :
    (t.project f hf : Table κ ρ' key').find k = (t.find k).map f := by
  have same : (fun q => decide (key' q = k)) ∘ f = fun r => decide (key r = k) :=
    funext fun r => by rw [Function.comp_apply, hf]
  exact List.find?_map.trans (by rw [same]; rfl)

@[simp] theorem find_update (t : Table κ ρ key) (p : ρ → Bool) (f : ρ → ρ)
    (hf : ∀ r, key (f r) = key r) (k : κ) :
    (t.update p f hf).find k = (t.find k).map fun r => if p r then f r else r := by
  cases h : t.find k with
  | none =>
    rw [Option.map_none, find_eq_none]
    intro q hq
    obtain ⟨r, hr, rfl⟩ := mem_update.mp hq
    have := find_eq_none.mp h r hr
    by_cases hp : p r <;> simpa [hp, hf] using this
  | some r =>
    obtain ⟨hr, rfl⟩ := find_eq_some.mp h
    rw [Option.map_some, find_eq_some]
    refine ⟨mem_update.mpr ⟨r, hr, rfl⟩, ?_⟩
    by_cases hp : p r <;> simp [hp, hf]

theorem find_delete (t : Table κ ρ key) (p : ρ → Bool) (k : κ) :
    (t.delete p).find k = (t.find k).filter fun r => !p r := by
  cases h : t.find k with
  | none =>
    rw [Option.filter_none, find_eq_none]
    intro q hq
    exact find_eq_none.mp h q (mem_delete.mp hq).1
  | some r =>
    obtain ⟨hr, rfl⟩ := find_eq_some.mp h
    cases hp : p r with
    | false =>
      rw [Option.filter_some_pos (by simp [hp])]
      exact find_eq_some.mpr ⟨mem_delete.mpr ⟨hr, hp⟩, rfl⟩
    | true =>
      rw [Option.filter_some_neg (by simp [hp]), find_eq_none]
      intro q hq hk
      obtain ⟨hq, hpq⟩ := mem_delete.mp hq
      rw [eq_of_key_eq hq hr hk, hp] at hpq
      cases hpq

/-- `INSERT`, refused when the key is taken. -/
def insert (t : Table κ ρ key) (r : ρ) : Option (Table κ ρ key) :=
  if h : key r ∈ t.rows.map key then none
  else some ⟨t.rows ++ [r], by
    rw [List.map_append, List.nodup_append]
    refine ⟨t.distinct, by simp, ?_⟩
    rintro a ha b hb rfl
    simp only [List.map_cons, List.map_nil, List.mem_singleton] at hb
    exact h (hb ▸ ha)⟩

theorem insert_of_taken {t : Table κ ρ key} {r : ρ} (h : key r ∈ t.rows.map key) :
    t.insert r = none := dif_pos h

theorem insert_of_free {t : Table κ ρ key} {r : ρ} (h : key r ∉ t.rows.map key) :
    ∃ u, t.insert r = some u ∧ u.rows = t.rows ++ [r] := ⟨_, dif_neg h, rfl⟩

theorem insert_eq_some {t u : Table κ ρ key} {r : ρ} :
    t.insert r = some u ↔ t.find (key r) = none ∧ u.rows = t.rows ++ [r] := by
  have hn : t.find (key r) = none ↔ key r ∉ t.rows.map key := by
    simp only [find_eq_none, List.mem_map, not_exists, not_and, mem_rows]
  rw [hn]
  by_cases h : key r ∈ t.rows.map key
  · rw [insert_of_taken h]
    exact iff_of_false (fun hu => by cases hu) fun hu => hu.1 h
  · obtain ⟨v, hv, rows⟩ := insert_of_free h
    rw [hv, Option.some.injEq]
    constructor
    · rintro rfl
      exact ⟨h, rows⟩
    · rintro ⟨-, hu⟩
      exact Table.ext (rows.trans hu.symm)

theorem insert_isSome {t : Table κ ρ key} {r : ρ} :
    (∃ u, t.insert r = some u) ↔ t.find (key r) = none := by
  constructor
  · rintro ⟨u, hu⟩
    exact (insert_eq_some.mp hu).1
  · intro h
    have hk : key r ∉ t.rows.map key := by
      simpa [find_eq_none, mem_rows] using h
    obtain ⟨u, hu, -⟩ := insert_of_free hk
    exact ⟨u, hu⟩

theorem mem_insert {t u : Table κ ρ key} {r q : ρ} (h : t.insert r = some u) :
    q ∈ u ↔ q ∈ t ∨ q = r := by
  simp [mem_rows, (insert_eq_some.mp h).2]

theorem find_insert {t u : Table κ ρ key} {r : ρ} (h : t.insert r = some u) (k : κ) :
    u.find k = if key r = k then some r else t.find k := by
  split
  · rename_i hk
    exact find_eq_some.mpr ⟨(mem_insert h).mpr (Or.inr rfl), hk⟩
  · rename_i hk
    cases hf : t.find k with
    | none =>
      rw [find_eq_none]
      intro q hq
      rcases (mem_insert h).mp hq with hq | rfl
      · exact find_eq_none.mp hf q hq
      · exact hk
    | some q =>
      obtain ⟨hq, rfl⟩ := find_eq_some.mp hf
      exact find_of_mem ((mem_insert h).mpr (Or.inl hq))

/-- An insert leaves the rows that were there to be found. -/
theorem find_insert_of_find {t u : Table κ ρ key} {r q : ρ} {k : κ} (h : t.insert r = some u)
    (hk : t.find k = some q) : u.find k = some q := by
  have free := (insert_eq_some.mp h).1
  have other : key r ≠ k := by
    rintro rfl
    rw [free] at hk
    cases hk
  rw [find_insert h, if_neg other, hk]

/-- A row stands once, and the others have other keys. -/
theorem rows_of_find {t : Table κ ρ key} {k : κ} {r : ρ} (h : t.find k = some r) :
    ∃ xs ys, t.rows = xs ++ r :: ys ∧ ∀ q ∈ xs ++ ys, key q ≠ k := by
  obtain ⟨member, rfl⟩ := find_eq_some.mp h
  obtain ⟨xs, ys, split⟩ := List.append_of_mem member
  refine ⟨xs, ys, split, fun q hq same => ?_⟩
  have distinct := t.distinct
  rw [split, (List.perm_middle.map key).nodup_iff, List.map_cons, List.nodup_cons] at distinct
  exact distinct.1 (same ▸ List.mem_map_of_mem hq)

theorem count_insert {t u : Table κ ρ key} {r : ρ} (h : t.insert r = some u) (p : ρ → Bool) :
    u.count p = t.count p + if p r then 1 else 0 := by
  rw [count, count, (insert_eq_some.mp h).2, List.countP_append, List.countP_singleton]

theorem count_update_key {t : Table κ ρ key} {k : κ} {r : ρ} (h : t.find k = some r)
    (f : ρ → ρ) (hf : ∀ q, key (f q) = key q) (p : ρ → Bool) :
    (t.update (fun q => decide (key q = k)) f hf).count p + (if p r then 1 else 0) =
      t.count p + if p (f r) then 1 else 0 := by
  obtain ⟨xs, ys, split, others⟩ := rows_of_find h
  have same : key r = k := (find_eq_some.mp h).2
  have kept : ∀ zs : List ρ, (∀ q ∈ zs, key q ≠ k) →
      (zs.map fun q => if decide (key q = k) then f q else q) = zs := by
    intro zs hz
    apply (List.map_congr_left fun q hq => ?_).trans (List.map_id zs)
    simp [hz q hq]
  show (t.rows.map fun q => if decide (key q = k) then f q else q).countP p + _ = t.rows.countP p + _
  rw [split, List.map_append, List.map_cons, kept xs fun q hq => others q (List.mem_append_left _ hq),
    kept ys fun q hq => others q (List.mem_append_right _ hq)]
  simp only [same, decide_true, if_true, List.countP_append, List.countP_cons]
  omega

theorem count_delete_key {t : Table κ ρ key} {k : κ} {r : ρ} (h : t.find k = some r)
    (p : ρ → Bool) :
    (t.delete fun q => decide (key q = k)).count p + (if p r then 1 else 0) = t.count p := by
  obtain ⟨xs, ys, split, others⟩ := rows_of_find h
  have same : key r = k := (find_eq_some.mp h).2
  have kept : ∀ zs : List ρ, (∀ q ∈ zs, key q ≠ k) →
      zs.filter (fun q => !decide (key q = k)) = zs := by
    intro zs hz
    rw [List.filter_eq_self]
    intro q hq
    simp [hz q hq]
  show (t.rows.filter fun q => !decide (key q = k)).countP p + _ = t.rows.countP p
  rw [split, List.filter_append, List.filter_cons_of_neg (by simp [same]), kept xs fun q hq => others q (List.mem_append_left _ hq),
    kept ys fun q hq => others q (List.mem_append_right _ hq)]
  simp only [List.countP_append, List.countP_cons]
  omega

/-- A key that is not there is not deleted. -/
theorem delete_key_of_none {t : Table κ ρ key} {k : κ} (h : t.find k = none) :
    (t.delete fun q => decide (key q = k)) = t := by
  apply Table.ext
  rw [delete, List.filter_eq_self]
  intro q hq
  simpa using find_eq_none.mp h q hq
/-- A multi-row `INSERT`: all rows go in, or the statement fails. -/
def insertAll (t : Table κ ρ key) (rs : List ρ) : Option (Table κ ρ key) :=
  rs.foldlM (fun u r => u.insert r) t

theorem insertAll_cons (t : Table κ ρ key) (r : ρ) (rs : List ρ) :
    t.insertAll (r :: rs) = (t.insert r).bind fun u => u.insertAll rs := rfl

theorem insertAll_eq_some {t u : Table κ ρ key} {rs : List ρ} :
    t.insertAll rs = some u ↔
      u.rows = t.rows ++ rs ∧ (rs.map key).Nodup ∧ ∀ r ∈ rs, t.find (key r) = none := by
  induction rs generalizing t with
  | nil =>
    constructor
    · intro h
      cases h
      simp
    · rintro ⟨h, -, -⟩
      cases u
      cases t
      simp_all [insertAll]
  | cons r rs ih =>
    rw [insertAll_cons, Option.bind_eq_some_iff]
    constructor
    · rintro ⟨v, hv, hu⟩
      obtain ⟨hn, hr⟩ := insert_eq_some.mp hv
      obtain ⟨hrows, hnodup, hfree⟩ := ih.mp hu
      refine ⟨by simp [hrows, hr], ?_, ?_⟩
      · rw [List.map_cons, List.nodup_cons]
        refine ⟨?_, hnodup⟩
        intro hm
        obtain ⟨q, hq, hk⟩ := List.mem_map.mp hm
        have := hfree q hq
        rw [find_insert hv, if_pos hk.symm] at this
        cases this
      · intro q hq
        rcases List.mem_cons.mp hq with rfl | hq
        · exact hn
        · have := hfree q hq
          rw [find_insert hv] at this
          split at this
          · cases this
          · exact this
    · rintro ⟨hrows, hnodup, hfree⟩
      rw [List.map_cons, List.nodup_cons] at hnodup
      obtain ⟨v, hv⟩ := insert_isSome.mpr (hfree r (by simp))
      refine ⟨v, hv, ih.mpr ⟨?_, hnodup.2, ?_⟩⟩
      · rw [hrows, (insert_eq_some.mp hv).2, List.append_assoc, List.singleton_append]
      · intro q hq
        rw [find_insert hv, if_neg, hfree q (by simp [hq])]
        exact fun hk => hnodup.1 (hk ▸ List.mem_map_of_mem hq)

theorem insertAll_isSome {t : Table κ ρ key} {rs : List ρ} :
    (∃ u, t.insertAll rs = some u) ↔
      (rs.map key).Nodup ∧ ∀ r ∈ rs, t.find (key r) = none := by
  constructor
  · rintro ⟨u, hu⟩
    exact (insertAll_eq_some.mp hu).2
  · rintro ⟨hn, hf⟩
    have hd : ((t.rows ++ rs).map key).Nodup := by
      rw [List.map_append, List.nodup_append]
      refine ⟨t.distinct, hn, ?_⟩
      rintro a ha b hb rfl
      obtain ⟨r, hr, rfl⟩ := List.mem_map.mp hb
      obtain ⟨q, hq, hk⟩ := List.mem_map.mp ha
      exact find_eq_none.mp (hf r hr) q hq hk
    exact ⟨⟨t.rows ++ rs, hd⟩, insertAll_eq_some.mpr ⟨rfl, hn, hf⟩⟩

/-- `INSERT … ON CONFLICT (key) DO UPDATE SET f`. -/
def upsert (t : Table κ ρ key) (r : ρ) (f : ρ → ρ) (hf : ∀ q, key (f q) = key q) :
    Table κ ρ key :=
  (t.insert r).getD (t.update (fun q => decide (key q = key r)) f hf)

theorem find_upsert (t : Table κ ρ key) (r : ρ) (f : ρ → ρ) (hf : ∀ q, key (f q) = key q)
    (k : κ) :
    (t.upsert r f hf).find k =
      if key r = k then some ((t.find k).elim r f) else t.find k := by
  cases hi : t.insert r with
  | none =>
    have hn : ¬ t.find (key r) = none := by
      intro h
      obtain ⟨u, hu⟩ := insert_isSome.mpr h
      simp [hi] at hu
    obtain ⟨q, hq⟩ := Option.ne_none_iff_exists'.mp hn
    rw [upsert, hi, Option.getD_none, find_update]
    split
    · rename_i hk
      subst hk
      simp [hq, (find_eq_some.mp hq).2]
    · rename_i hk
      cases hs : t.find k with
      | none => rfl
      | some x =>
        have hx : key x ≠ key r := by
          rw [(find_eq_some.mp hs).2]
          exact fun h => hk h.symm
        simp [hx]
  | some u =>
    rw [upsert, hi, Option.getD_some, find_insert hi]
    split
    · rename_i hk
      subst hk
      simp [(insert_eq_some.mp hi).1]
    · rfl

/-- An upsert whose row does not count takes its key's old row out of the count. -/
theorem count_upsert_of_not {t : Table κ ρ key} {r : ρ} {f : ρ → ρ}
    {hf : ∀ q, key (f q) = key q} {p : ρ → Bool} (hr : p r = false)
    (hq : ∀ q, key q = key r → p (f q) = false) :
    (t.upsert r f hf).count p = t.count fun q => p q && !decide (key q = key r) := by
  cases hi : t.insert r with
  | some u =>
    obtain ⟨hn, hrows⟩ := insert_eq_some.mp hi
    rw [upsert, hi, Option.getD_some, count, count, hrows, List.countP_append]
    simp only [List.countP_singleton, hr, Bool.false_eq_true, if_false, Nat.add_zero]
    refine List.countP_congr fun q hm => ?_
    simp [find_eq_none.mp hn q hm]
  | none =>
    rw [upsert, hi, Option.getD_none, count, count, update, List.countP_map]
    refine List.countP_congr fun q _ => ?_
    by_cases hk : key q = key r
    · simp [hk, hq q hk]
    · simp [hk]

end Keyed

end Table
