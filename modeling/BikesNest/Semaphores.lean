import Mathlib.Data.List.Nodup

/-! A counting semaphore that serves its waiters in the order in which they came. A permit that
comes back goes to the first of them; it is free only when nobody waits. -/

namespace Semaphores

variable {α : Type*}

@[ext] structure Semaphore (α : Type*) where
  permits : ℕ
  waiters : List α
  fair : waiters ≠ [] → permits = 0

namespace Semaphore

def new (permits : ℕ) : Semaphore α := ⟨permits, [], fun h => absurd rfl h⟩

/-- Takes a free permit. -/
def tryAcquire (s : Semaphore α) : Option (Semaphore α) :=
  if s.permits = 0 then none
  else some ⟨s.permits - 1, s.waiters, fun h => by rw [s.fair h]⟩

/-- Takes a free permit, or joins the end of the queue; says which of the two. -/
def acquire (s : Semaphore α) (a : α) : Semaphore α × Bool :=
  if h : s.permits = 0 then (⟨s.permits, s.waiters ++ [a], fun _ => h⟩, false)
  else (⟨s.permits - 1, s.waiters, fun waits => by rw [s.fair waits]⟩, true)

/-- Gives a permit back, and says who of the waiters has it now. -/
def release (s : Semaphore α) : Semaphore α × Option α :=
  match h : s.waiters with
  | [] => (⟨s.permits + 1, [], fun h => absurd rfl h⟩, none)
  | a :: rest => (⟨s.permits, rest, fun _ => s.fair (by rw [h]; exact List.cons_ne_nil a rest)⟩,
      some a)

/-- A waiter gives up. -/
def leave [DecidableEq α] (s : Semaphore α) (a : α) : Semaphore α :=
  ⟨s.permits, s.waiters.erase a, fun h => s.fair fun none => h (by rw [none, List.erase_nil])⟩

variable {s s' : Semaphore α} {a : α}

theorem tryAcquire_eq_some :
    s.tryAcquire = some s' ↔ s.permits = s'.permits + 1 ∧ s'.waiters = s.waiters := by
  unfold tryAcquire
  split
  · rename_i none
    rw [none]
    constructor
    · rintro ⟨⟩
    · rintro ⟨taken, -⟩
      omega
  · rename_i free
    rw [Option.some.injEq, Semaphore.ext_iff]
    constructor
    · rintro ⟨permits, waiters⟩
      exact ⟨by change s.permits - 1 = _ at permits; omega, waiters.symm⟩
    · rintro ⟨permits, waiters⟩
      exact ⟨by change s.permits - 1 = _; omega, waiters.symm⟩

theorem tryAcquire_eq_none : s.tryAcquire = none ↔ s.permits = 0 := by
  unfold tryAcquire
  split <;> simp_all

theorem acquire_free (h : s.permits ≠ 0) :
    ∃ s', s.acquire a = (s', true) ∧ s.tryAcquire = some s' := by
  rw [acquire, dif_neg h, tryAcquire, if_neg h]
  exact ⟨_, rfl, rfl⟩

theorem acquire_taken (h : s.permits = 0) :
    ∃ s', s.acquire a = (s', false) ∧ s'.permits = 0 ∧ s'.waiters = s.waiters ++ [a] := by
  rw [acquire, dif_pos h]
  exact ⟨_, rfl, h, rfl⟩

theorem release_alone (h : s.waiters = []) :
    s.release.1.permits = s.permits + 1 ∧ s.release.1.waiters = [] ∧ s.release.2 = none := by
  unfold release
  split
  · exact ⟨rfl, rfl, rfl⟩
  · rename_i waits
    rw [h] at waits
    cases waits

theorem release_head {rest : List α} (h : s.waiters = a :: rest) :
    s.release.1.permits = s.permits ∧ s.release.1.waiters = rest ∧ s.release.2 = some a := by
  unfold release
  split
  · rename_i none
    rw [none] at h
    cases h
  · rename_i waits
    rw [h] at waits
    cases waits
    exact ⟨rfl, rfl, rfl⟩

end Semaphore

/-! ### The place of a waiter -/

section Before

variable [DecidableEq α]

/-- The waiters that are served before `a`. -/
def before (a : α) (waiters : List α) : List α := waiters.takeWhile fun b => decide (b ≠ a)

variable {a b : α} {waiters : List α}

theorem before_split {xs ys : List α} (h : a ∉ xs) : before a (xs ++ a :: ys) = xs := by
  have others : ∀ b ∈ xs, decide (b ≠ a) = true := fun b hb =>
    decide_eq_true fun same => h (same ▸ hb)
  rw [before, List.takeWhile_append_of_pos others, List.takeWhile_cons_of_neg (by simp),
    List.append_nil]

theorem exists_split (h : a ∈ waiters) : ∃ xs ys, waiters = xs ++ a :: ys ∧ a ∉ xs := by
  obtain ⟨xs, ys, fresh, split⟩ := List.exists_erase_eq h
  exact ⟨xs, ys, split.1, fresh⟩

theorem before_append (h : a ∈ waiters) (more : List α) :
    before a (waiters ++ more) = before a waiters := by
  obtain ⟨xs, ys, rfl, first⟩ := exists_split h
  rw [List.append_assoc, List.cons_append, before_split first, before_split first]

/-- Nobody gets before `a` when somebody else leaves. -/
theorem before_erase (h : a ∈ waiters) (other : b ≠ a) :
    before a (waiters.erase b) = (before a waiters).erase b := by
  obtain ⟨xs, ys, rfl, first⟩ := exists_split h
  rw [before_split first, List.erase_append]
  split
  · exact before_split fun still => first (List.mem_of_mem_erase still)
  · rename_i absent
    rw [List.erase_cons_tail (by simpa using Ne.symm other), before_split first,
      List.erase_of_not_mem absent]

theorem before_tail (other : b ≠ a) : before a (b :: waiters) = b :: before a waiters := by
  rw [before, List.takeWhile_cons_of_pos (by simpa using other), before]

theorem length_before_lt (h : a ∈ waiters) : (before a waiters).length < waiters.length := by
  obtain ⟨xs, ys, rfl, first⟩ := exists_split h
  rw [before_split first, List.length_append, List.length_cons]
  omega

end Before

end Semaphores
