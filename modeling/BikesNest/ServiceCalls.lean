import Mathlib.Logic.Basic

/-! Calls of a service over a store, as `do` blocks: an error ends the call and leaves the store
as the steps before it have left it. What the rules are about is a part of the store, `rows`, and
whether a call that ends in an error has left it alone. -/

namespace ServiceCalls

abbrev Service (σ ε α : Type) := ExceptT ε (StateM σ) α

variable {σ ε α β ω ρ : Type} {R : Type*}

/-- The answer of a call and the store after it. -/
def exec (x : Service σ ε α) (s : σ) : Except ε α × σ := x.run s

/-- A step that only looks at the store. -/
def reads (f : σ → Except ε α) : Service σ ε α := fun s => (f s, s)

/-- A transaction: it commits or changes nothing. -/
def transact (f : σ → Except ε (α × σ)) : Service σ ε α := fun s =>
  match f s with
  | .ok (a, t) => (.ok a, t)
  | .error e => (.error e, s)

/-- A step whose effect is there whatever its answer. -/
def effect (f : σ → σ) (answer : Except ε α) : Service σ ε α := fun s => (answer, f s)

/-- A call that leaves the rows alone. -/
def Keeps (rows : σ → R) (x : Service σ ε α) : Prop := ∀ s, rows (exec x s).2 = rows s

/-- A call that leaves the rows alone when it ends in an error. -/
def AtomicAt (rows : σ → R) (x : Service σ ε α) (s : σ) : Prop :=
  ∀ e, (exec x s).1 = .error e → rows (exec x s).2 = rows s

section Rules

variable {rows : σ → R} {x : Service σ ε α} {f : α → Service σ ε β} {s t : σ} {a : α} {e : ε}

@[simp] theorem exec_pure : exec (pure a : Service σ ε α) s = (.ok a, s) := rfl

@[simp] theorem exec_reads {f : σ → Except ε α} : exec (reads f) s = (f s, s) := rfl

theorem exec_transact {f : σ → Except ε (α × σ)} : exec (transact f) s =
    match f s with
    | .ok (a, t) => (.ok a, t)
    | .error e => (.error e, s) := rfl

theorem exec_bind : exec (x >>= f) s =
    match exec x s with
    | (.ok a, t) => exec (f a) t
    | (.error e, t) => (.error e, t) := by
  simp only [exec, ExceptT.run, bind, ExceptT.bind, ExceptT.mk, StateT.bind]
  rcases x s with ⟨e | a, t⟩
  · rfl
  · rfl

theorem exec_bind_ok (h : exec x s = (.ok a, t)) : exec (x >>= f) s = exec (f a) t := by
  rw [exec_bind, h]

theorem exec_bind_error (h : exec x s = (.error e, t)) : exec (x >>= f) s = (.error e, t) := by
  rw [exec_bind, h]

/-- A call that succeeds has gone through its first step. -/
theorem exec_bind_eq_ok {b : β} : exec (x >>= f) s = (.ok b, t) ↔
    ∃ a u, exec x s = (.ok a, u) ∧ exec (f a) u = (.ok b, t) := by
  rw [exec_bind]
  rcases exec x s with ⟨e | a, u⟩
  · simp
  · constructor
    · exact fun h => ⟨a, u, rfl, h⟩
    · rintro ⟨a, u, first, h⟩
      cases first
      exact h

theorem keeps_pure : Keeps rows (pure a : Service σ ε α) := fun _ => rfl

theorem keeps_reads (f : σ → Except ε α) : Keeps rows (reads f) := fun _ => rfl

theorem keeps_effect {f : σ → σ} (h : ∀ s, rows (f s) = rows s) (answer : Except ε α) :
    Keeps rows (effect f answer) := h

theorem keeps_bind (hx : Keeps rows x) (hf : ∀ a, Keeps rows (f a)) : Keeps rows (x >>= f) := by
  intro s
  have first := hx s
  cases h : exec x s with
  | mk answer t =>
    rw [h] at first
    cases answer with
    | error e =>
      rw [exec_bind_error h]
      exact first
    | ok a =>
      rw [exec_bind_ok h]
      exact (hf a t).trans first

theorem exec_tryCatch {h : ε → Service σ ε α} : exec (tryCatch x h) s =
    match exec x s with
    | (.error e, t) => exec (h e) t
    | (.ok a, t) => (.ok a, t) := by
  simp only [exec, ExceptT.run, tryCatch, tryCatchThe, MonadExceptOf.tryCatch, ExceptT.tryCatch,
    ExceptT.mk, bind, StateT.bind]
  rcases x s with ⟨e | a, t⟩
  · rfl
  · rfl

theorem keeps_throw : Keeps rows (throw e : Service σ ε α) := fun _ => rfl

theorem keeps_tryCatch {h : ε → Service σ ε α} (hx : Keeps rows x) (hh : ∀ e, Keeps rows (h e)) :
    Keeps rows (tryCatch x h) := by
  intro s
  have first := hx s
  rw [exec_tryCatch]
  split
  · rename_i e t failed
    rw [failed] at first
    exact (hh e t).trans first
  · rename_i a t done
    rw [done] at first
    exact first

/-- What is undone after an error leaves a call as it was. -/
theorem atomicAt_tryCatch {h : ε → Service σ ε α} (hx : AtomicAt rows x s)
    (hh : ∀ e, Keeps rows (h e)) : AtomicAt rows (tryCatch x h) s := by
  intro e failed
  rw [exec_tryCatch] at failed ⊢
  split at failed
  · rename_i e' t first
    have back := hx e'
    rw [first] at back
    exact (hh e' t).trans (back rfl)
  · cases failed

theorem atomicAt_transact (f : σ → Except ε (α × σ)) (s : σ) : AtomicAt rows (transact f) s := by
  intro e h
  rw [exec_transact] at h ⊢
  split at h
  · cases h
  · rfl

end Rules

/-- A call that checks and reads, commits, and goes on. It leaves the rows alone in every error
unless it has committed, its commit has changed a row, and what follows the commit fails. -/
theorem atomicAt_commit {rows : σ → R} {before : Service σ ε ω} {commit : ω → Service σ ε ρ}
    {after : ω → ρ → Service σ ε α} {s : σ} (keeps : Keeps rows before)
    (atomic : ∀ w t, AtomicAt rows (commit w) t)
    (follows : ∀ w r t t', exec (commit w) t = (.ok r, t') → ∀ e u,
      exec (after w r) t' = (.error e, u) → (rows u = rows t ↔ rows t' = rows t)) :
    AtomicAt rows (do
      let w ← before
      let r ← commit w
      after w r) s ↔
      ¬ ∃ w r t, exec (do
        let w ← before
        let r ← commit w
        pure (w, r)) s = (.ok (w, r), t) ∧ rows t ≠ rows s ∧
          ∃ e u, exec (after w r) t = (.error e, u) := by
  cases start : exec before s with
  | mk answer s₁ =>
  have same : rows s₁ = rows s := by
    have := keeps s
    rwa [start] at this
  cases answer with
  | error e =>
    rw [AtomicAt, exec_bind_error start, exec_bind_error start]
    simp [same]
  | ok w =>
    rw [AtomicAt, exec_bind_ok start, exec_bind_ok start]
    cases middle : exec (commit w) s₁ with
    | mk answer t =>
    cases answer with
    | error e =>
      have back : rows t = rows s := by
        have := atomic w s₁ e
        rw [middle] at this
        exact (this rfl).trans same
      rw [exec_bind_error middle, exec_bind_error middle]
      simp [back]
    | ok r =>
      rw [exec_bind_ok middle, exec_bind_ok middle]
      cases ending : exec (after w r) t with
      | mk answer u =>
      cases answer with
      | error e =>
        have iff := follows w r s₁ t middle e u ending
        rw [same] at iff
        simp only [exec_pure, Prod.mk.injEq, Except.ok.injEq]
        constructor
        · rintro h ⟨w', r', t', ⟨⟨rfl, rfl⟩, rfl⟩, moved, -⟩
          exact moved (iff.mp (h e rfl))
        · intro h e' _
          refine iff.mpr (by_contra fun moved => h ?_)
          exact ⟨w, r, t, ⟨⟨rfl, rfl⟩, rfl⟩, moved, e, u, ending⟩
      | ok a =>
        simp only [exec_pure, Prod.mk.injEq, Except.ok.injEq]
        constructor
        · rintro - ⟨w', r', t', ⟨⟨rfl, rfl⟩, rfl⟩, -, e, u', fails⟩
          rw [ending] at fails
          cases fails
        · rintro - e fails
          cases fails

end ServiceCalls
