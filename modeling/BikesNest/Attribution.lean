import BikesNest.Table

/-! Tables whose rows refer to people, and what it is for a change to be about one of them: every
reference stays or was that person's and is cleared, rows that do not refer to that person stay
as they are, and no row appears. -/

namespace Attribution

variable {κ ρ ι : Type*} {key : ρ → κ} [DecidableEq κ] {u : ι} {columns : List (ρ → Option ι)}
  {refers : ρ → Prop} {t t' t'' : Table κ ρ key}

/-- One of the references is to `u`. -/
def RefersTo (u : ι) (columns : List (ρ → Option ι)) (r : ρ) : Prop := ∃ c ∈ columns, c r = some u

structure Spares (u : ι) (columns : List (ρ → Option ι)) (refers : ρ → Prop)
    (t t' : Table κ ρ key) : Prop where
  own : ∀ r ∈ t, ∀ r', t'.find (key r) = some r' → ∀ c ∈ columns,
    c r' = c r ∨ c r = some u ∧ c r' = none
  others : ∀ r ∈ t, ¬ refers r → t'.find (key r) = some r
  known : ∀ r' ∈ t', ∃ r ∈ t, key r = key r'

variable (t') in
theorem Spares.trans (first : Spares u columns refers t t') (next : Spares u columns refers t' t'') :
    Spares u columns refers t t'' := by
  constructor
  · intro r hr r'' found c hc
    obtain ⟨there, same⟩ := Table.find_eq_some.mp found
    obtain ⟨r', hr', same'⟩ := next.known r'' there
    have step : t'.find (key r) = some r' := Table.find_eq_some.mpr ⟨hr', same'.trans same⟩
    rw [← same, ← same'] at found
    rcases first.own r hr r' step c hc with eq | ⟨own, cleared⟩
    · rcases next.own r' hr' r'' found c hc with eq' | ⟨own', cleared'⟩
      · exact .inl (eq'.trans eq)
      · exact .inr ⟨eq ▸ own', cleared'⟩
    · rcases next.own r' hr' r'' found c hc with eq' | ⟨own', -⟩
      · exact .inr ⟨own, eq'.trans cleared⟩
      · rw [cleared] at own'
        cases own'
  · intro r hr other
    have kept := first.others r hr other
    exact next.others r (Table.find_eq_some.mp kept).1 other
  · intro r'' hr''
    obtain ⟨r', hr', same'⟩ := next.known r'' hr''
    obtain ⟨r, hr, same⟩ := first.known r' hr'
    exact ⟨r, hr, same.trans same'⟩

theorem spares_delete {p : ρ → Bool} (about : ∀ r, p r = true → refers r) :
    Spares u columns refers t (t.delete p) := by
  have find (r : ρ) (hr : r ∈ t) : (t.delete p).find (key r) = Option.filter (fun r => !p r) r := by
    rw [Table.find_delete, Table.find_of_mem hr]
  constructor
  · intro r hr r' found c _
    rw [find r hr] at found
    obtain ⟨eq, -⟩ := Option.filter_eq_some_iff.mp found
    cases eq
    exact .inl rfl
  · intro r hr other
    rw [find r hr]
    exact Option.filter_eq_some_iff.mpr ⟨rfl, by simpa using mt (about r) other⟩
  · intro r hr
    exact ⟨r, (Table.mem_delete.mp hr).1, rfl⟩

/-- An update that touches rows of `u` only, and clears references to `u` only. -/
theorem spares_update {p : ρ → Bool} {f : ρ → ρ} (hf : ∀ r, key (f r) = key r)
    (about : ∀ r, p r = true → refers r)
    (clears : ∀ r ∈ t, p r = true → ∀ c ∈ columns, c (f r) = c r ∨ c r = some u ∧ c (f r) = none) :
    Spares u columns refers t (t.update p f hf) := by
  have find (r : ρ) (hr : r ∈ t) :
      (t.update p f hf).find (key r) = some (if p r then f r else r) := by
    rw [Table.find_update, Table.find_of_mem hr, Option.map_some]
  constructor
  · intro r hr r' found c hc
    rw [find r hr, Option.some.injEq] at found
    subst found
    by_cases hit : p r = true
    · rw [if_pos hit]
      exact clears r hr hit c hc
    · rw [if_neg hit]
      exact .inl rfl
  · intro r hr other
    rw [find r hr, if_neg (mt (about r) other)]
  · intro r' hr'
    obtain ⟨r, hr, rfl⟩ := Table.mem_update.mp hr'
    refine ⟨r, hr, ?_⟩
    split
    · exact (hf r).symm
    · rfl

/-- Clearing a single column of the rows that name `u` there. -/
theorem spares_clear [DecidableEq ι] {column : ρ → Option ι} {f : ρ → ρ}
    (hf : ∀ r, key (f r) = key r) (named : ∀ r, column r = some u → refers r)
    (cleared : ∀ r, column r = some u → ∀ c ∈ columns, c (f r) = c r ∨ c r = some u ∧ c (f r) = none) :
    Spares u columns refers t (t.update (fun r => decide (column r = some u)) f hf) :=
  spares_update hf (fun r hit => named r (of_decide_eq_true hit))
    fun r _ hit => cleared r (of_decide_eq_true hit)

/-- An update that clears every column of the rows it touches is about `u` exactly when these
rows refer to nobody else. -/
theorem spares_update_all_iff {p : ρ → Bool} {f : ρ → ρ} (hf : ∀ r, key (f r) = key r)
    (about : ∀ r, p r = true → refers r) (all : ∀ r, ∀ c ∈ columns, c (f r) = none) :
    Spares u columns refers t (t.update p f hf) ↔
      ∀ r ∈ t, p r = true → ∀ v, RefersTo v columns r → v = u := by
  constructor
  · rintro spares r hr hit v ⟨c, hc, names⟩
    have image : (t.update p f hf).find (key r) = some (f r) := by
      rw [Table.find_update, Table.find_of_mem hr, Option.map_some, if_pos hit]
    rcases spares.own r hr (f r) image c hc with kept | ⟨own, -⟩
    · rw [all r c hc, names] at kept
      cases kept
    · exact Option.some.inj (names.symm.trans own)
  · intro alone
    refine spares_update hf about fun r hr hit c hc => ?_
    cases names : c r with
    | none => exact .inl (all r c hc)
    | some v => exact .inr ⟨by rw [alone r hr hit v ⟨c, hc, names⟩], all r c hc⟩

end Attribution
