import BikesNest.Table

/-! Calls that run side by side over one store. A call is a sequence of steps, each of which
reads and writes the store at once; between two of them anything may happen, also that the
call is given up. What follows is about runs: a condition on the steps of a run, an
invariant that it maintains, and what then holds at every step; and about calls that run alone. -/

namespace Interleaving

/-- Where a call stands after a step: at a further phase, or at its result. -/
inductive Progress (ℓ ρ : Type*) where
  | next (phase : ℓ)
  | done (result : ρ)

/-- `entry` is what a call does before its first step, and `ι` what the world hands to a step,
such as the time. Operations of type `α` run in one step. -/
structure Program (σ ℓ ρ ι γ α : Type*) where
  entry : γ → Progress ℓ ρ
  step : ℓ → ι → σ → σ × Progress ℓ ρ
  apply : α → σ → σ

structure Running (τ ℓ : Type*) where
  id : τ
  phase : ℓ

structure State (σ τ ℓ : Type*) where
  store : σ
  running : Table τ (Running τ ℓ) Running.id

inductive Event (τ ι γ α : Type*) where
  | begin (t : τ) (call : γ)
  | advance (t : τ) (input : ι)
  | drop (t : τ)
  | other (op : α)

variable {σ τ ℓ ρ ι γ α : Type*}

def initial (s : σ) : State σ τ ℓ := ⟨s, .empty⟩

variable [DecidableEq τ]

def finish (s : State σ τ ℓ) (t : τ) (store : σ) : State σ τ ℓ :=
  ⟨store, s.running.delete fun x => decide (x.id = t)⟩

/-- The state after a step of a call. -/
def settle (s : State σ τ ℓ) (t : τ) : σ × Progress ℓ ρ → State σ τ ℓ
  | (store, .next phase) => ⟨store, s.running.update (fun x => decide (x.id = t))
      (fun x => { x with phase := phase }) fun _ => rfl⟩
  | (store, .done _) => finish s t store

/-- One event; a meaningless one changes nothing. -/
def fire (P : Program σ ℓ ρ ι γ α) (s : State σ τ ℓ) : Event τ ι γ α → State σ τ ℓ
  | .begin t call =>
    match P.entry call with
    | .next phase =>
      match s.running.insert ⟨t, phase⟩ with
      | some running => ⟨s.store, running⟩
      | none => s
    | .done _ => s
  | .advance t input =>
    match s.running.find t with
    | some x => settle s t (P.step x.phase input s.store)
    | none => s
  | .drop t => finish s t s.store
  | .other op => ⟨P.apply op s.store, s.running⟩

def run (P : Program σ ℓ ρ ι γ α) (s : State σ τ ℓ) (events : List (Event τ ι γ α)) :
    State σ τ ℓ :=
  events.foldl (fire P) s

/-- `cond` holds at each step of the run, of the event and the state it meets. -/
def Along (P : Program σ ℓ ρ ι γ α) (cond : State σ τ ℓ → Event τ ι γ α → Prop) :
    State σ τ ℓ → List (Event τ ι γ α) → Prop
  | _, [] => True
  | s, e :: events => cond s e ∧ Along P cond (fire P s e) events

instance decidableAlong (P : Program σ ℓ ρ ι γ α) (cond : State σ τ ℓ → Event τ ι γ α → Prop)
    [∀ s e, Decidable (cond s e)] :
    ∀ (s : State σ τ ℓ) (events : List (Event τ ι γ α)), Decidable (Along P cond s events)
  | _, [] => .isTrue trivial
  | s, e :: events =>
    haveI := decidableAlong P cond (fire P s e) events
    inferInstanceAs (Decidable (cond s e ∧ Along P cond (fire P s e) events))

section Rules

variable {P : Program σ ℓ ρ ι γ α} {s : State σ τ ℓ}

/-- Every running call satisfies `L` with the store. -/
def Asserts (L : ℓ → σ → Prop) (s : State σ τ ℓ) : Prop :=
  ∀ x ∈ s.running, L x.phase s.store

omit [DecidableEq τ] in
theorem initial_asserts (L : ℓ → σ → Prop) (s : σ) : Asserts L (initial s : State σ τ ℓ) := by
  intro x hx
  exact absurd hx (Table.not_mem_empty x)

theorem settle_store {s : State σ τ ℓ} {t : τ} {r : σ × Progress ℓ ρ} :
    (settle s t r).store = r.1 := by
  obtain ⟨store, progress⟩ := r
  cases progress <;> rfl

/-- A step leaves the other calls where they are. -/
theorem find_settle_other {s : State σ τ ℓ} {t u : τ} (other : u ≠ t) (r : σ × Progress ℓ ρ) :
    (settle s t r).running.find u = s.running.find u := by
  obtain ⟨store, progress⟩ := r
  cases progress with
  | next phase =>
    rw [settle, Table.find_update]
    cases found : s.running.find u with
    | none => rfl
    | some x =>
      have different : x.id ≠ t := (Table.find_eq_some.mp found).2 ▸ other
      simp [different]
  | done result =>
    rw [settle, finish, Table.find_delete]
    cases found : s.running.find u with
    | none => rfl
    | some x =>
      have different : x.id ≠ t := (Table.find_eq_some.mp found).2 ▸ other
      simp [different]

theorem find_settle_next {s : State σ τ ℓ} {t : τ} {x : Running τ ℓ} {store : σ} {phase : ℓ}
    (found : s.running.find t = some x) :
    (settle s t (store, (.next phase : Progress ℓ ρ))).running.find t =
      some { x with phase := phase } := by
  rw [settle, Table.find_update, found, Option.map_some, (Table.find_eq_some.mp found).2]
  simp

theorem fire_advance {s : State σ τ ℓ} {t : τ} {x : Running τ ℓ}
    (found : s.running.find t = some x) (input : ι) :
    fire P s (.advance t input) = settle s t (P.step x.phase input s.store) := by
  simp only [fire, found]

/-- A call that begins touches nothing. -/
theorem fire_begin_store {s : State σ τ ℓ} {t : τ} {call : γ} :
    (fire P s (.begin t call)).store = s.store := by
  simp only [fire]
  split
  · split <;> rfl
  · rfl

/-- How many running calls are at a phase that counts. -/
def countAt (s : State σ τ ℓ) (p : ℓ → Bool) : ℕ := s.running.count fun x => p x.phase

/-- A step moves its own call. -/
theorem countAt_settle {s : State σ τ ℓ} {t : τ} {x : Running τ ℓ}
    (found : s.running.find t = some x) (p : ℓ → Bool) (r : σ × Progress ℓ ρ) :
    countAt (settle s t r) p + (if p x.phase then 1 else 0) = countAt s p +
      match r.2 with
      | .next phase => if p phase then 1 else 0
      | .done _ => 0 := by
  obtain ⟨store, phase | result⟩ := r
  · exact Table.count_update_key found (fun x => { x with phase := phase }) (fun _ => rfl)
      fun x => p x.phase
  · exact Table.count_delete_key found fun x => p x.phase

theorem countAt_drop {s : State σ τ ℓ} {t : τ} {x : Running τ ℓ}
    (found : s.running.find t = some x) (p : ℓ → Bool) :
    countAt (fire P s (.drop t)) p + (if p x.phase then 1 else 0) = countAt s p :=
  Table.count_delete_key found fun x => p x.phase

theorem fire_drop_none {s : State σ τ ℓ} {t : τ} (found : s.running.find t = none) :
    fire P s (.drop t) = s := by
  rw [fire, finish, Table.delete_key_of_none found]

/-- A call that starts counts at its first phase. -/
theorem countAt_begin {s : State σ τ ℓ} {t : τ} {call : γ} (p : ℓ → Bool)
    (first : ∀ phase, P.entry call = .next phase → p phase = false) :
    countAt (fire P s (.begin t call)) p = countAt s p := by
  simp only [fire]
  split
  · rename_i phase started
    split
    · rename_i running inserted
      have same := Table.count_insert inserted fun x => p x.phase
      simp only [first phase started, Bool.false_eq_true, if_false, Nat.add_zero] at same
      exact same
    · rfl
  · rfl

/-- One event preserves what every step of a call, relying on its assertion, and every operation
preserve. -/
theorem fire_preserves_store {I : σ → Prop} {L : ℓ → σ → Prop} (hI : I s.store)
    (hs : Asserts L s) (e : Event τ ι γ α)
    (own : ∀ phase input, L phase s.store → I (P.step phase input s.store).1)
    (op : ∀ a, I (P.apply a s.store)) : I (fire P s e).store := by
  cases e with
  | begin t call =>
    simp only [fire]
    split
    · split <;> exact hI
    · exact hI
  | advance t input =>
    simp only [fire]
    split
    · rename_i x found
      rw [settle_store]
      exact own x.phase input (hs x (Table.find_eq_some.mp found).1)
    · exact hI
  | drop t => exact hI
  | other a => exact op a

/-- One event preserves the assertions: the call that steps establishes the next one, and the
calls beside it keep theirs. -/
theorem fire_asserts {L : ℓ → σ → Prop} (hs : Asserts L s) (e : Event τ ι γ α)
    (entry : ∀ call phase, P.entry call = .next phase → L phase s.store)
    (own : ∀ t input x, e = .advance t input → s.running.find t = some x →
      ∀ store next, P.step x.phase input s.store = (store, .next next) → L next store)
    (stable : ∀ x ∈ s.running, L x.phase s.store → L x.phase (fire P s e).store) :
    Asserts L (fire P s e) := by
  have kept : ∀ x ∈ s.running, L x.phase (fire P s e).store := fun x hx => stable x hx (hs x hx)
  cases e with
  | begin t call =>
    simp only [fire] at kept ⊢
    split
    · rename_i phase started
      split
      · rename_i running inserted
        intro x hx
        rcases (Table.mem_insert inserted).mp hx with hx | rfl
        · exact hs x hx
        · exact entry call phase started
      · exact hs
    · exact hs
  | advance t input =>
    simp only [fire] at kept ⊢
    split
    · rename_i x found
      obtain ⟨hx, same⟩ := Table.find_eq_some.mp found
      simp only [found] at kept
      cases stepped : P.step x.phase input s.store with
      | mk store progress =>
        rw [stepped] at kept
        cases progress with
        | next phase =>
          intro y hy
          simp only [settle, Table.mem_update] at hy
          obtain ⟨z, hz, rfl⟩ := hy
          by_cases hid : z.id = t
          · simp only [hid, decide_true, if_true]
            exact own t input x rfl found store phase stepped
          · simp only [hid, decide_false, Bool.false_eq_true, if_false]
            exact kept z hz
        | done result =>
          intro y hy
          exact kept y (Table.mem_delete.mp hy).1
    · exact hs
  | drop t =>
    intro y hy
    exact hs y (Table.mem_delete.mp hy).1
  | other op => exact kept

/-- The same, where a step needs no more than its own assertion. -/
theorem fire_preserves_asserts {L : ℓ → σ → Prop} (hs : Asserts L s) (e : Event τ ι γ α)
    (entry : ∀ call phase, P.entry call = .next phase → L phase s.store)
    (own : ∀ phase input t next, L phase s.store → P.step phase input s.store = (t, .next next) →
      L next t)
    (stable : ∀ x ∈ s.running, L x.phase s.store → L x.phase (fire P s e).store) :
    Asserts L (fire P s e) :=
  fire_asserts hs e entry
    (fun _ input x _ found store next stepped =>
      own x.phase input store next (hs x (Table.find_eq_some.mp found).1) stepped) stable

/-- The rule of runs: what a maintained invariant gives at each step holds along the run. -/
theorem along_of_invariant {I : State σ τ ℓ → Prop}
    {cond goal : State σ τ ℓ → Event τ ι γ α → Prop}
    (step : ∀ s e, I s → cond s e → I (fire P s e)) (holds : ∀ s e, I s → cond s e → goal s e)
    {events : List (Event τ ι γ α)} (start : I s) (along : Along P cond s events) :
    Along P goal s events := by
  induction events generalizing s with
  | nil => trivial
  | cons e events ih =>
    exact ⟨holds s e start along.1, ih (step s e start along.1) along.2⟩

/-- An invariant that is maintained holds at the end of the run. -/
theorem run_invariant {I : State σ τ ℓ → Prop} {cond : State σ τ ℓ → Event τ ι γ α → Prop}
    (step : ∀ s e, I s → cond s e → I (fire P s e)) {events : List (Event τ ι γ α)} (start : I s)
    (along : Along P cond s events) : I (run P s events) := by
  induction events generalizing s with
  | nil => exact start
  | cons e events ih => exact ih (step s e start along.1) along.2

theorem along_true (s : State σ τ ℓ) (events : List (Event τ ι γ α)) :
    Along P (fun _ _ => True) s events := by
  induction events generalizing s with
  | nil => trivial
  | cons e events ih => exact ⟨trivial, ih (fire P s e)⟩

end Rules

section Alone

variable {P : Program σ ℓ ρ ι γ α}

/-- A call with nothing beside it, for as many steps as there are inputs; it is given up where
they end. -/
def alone (P : Program σ ℓ ρ ι γ α) : List ι → σ × Progress ℓ ρ → σ × Progress ℓ ρ
  | input :: inputs, (s, .next phase) => alone P inputs (P.step phase input s)
  | [], r => r
  | _ :: _, (s, .done result) => (s, .done result)

theorem alone_done (inputs : List ι) (s : σ) (result : ρ) :
    alone P inputs (s, .done result) = (s, .done result) := by
  cases inputs <;> rfl

theorem alone_append (inputs more : List ι) (r : σ × Progress ℓ ρ) :
    alone P (inputs ++ more) r = alone P more (alone P inputs r) := by
  induction inputs generalizing r with
  | nil => rfl
  | cons input inputs ih =>
    obtain ⟨s, phase | result⟩ := r
    · exact ih _
    · rw [alone_done, alone_done, alone_done]

/-- What every step preserves, of the store and of where the call stands, a call preserves. -/
theorem alone_preserves {S : σ × Progress ℓ ρ → Prop}
    (step : ∀ s phase input, S (s, .next phase) → S (P.step phase input s)) (inputs : List ι)
    {r : σ × Progress ℓ ρ} (start : S r) : S (alone P inputs r) := by
  induction inputs generalizing r with
  | nil => exact start
  | cons input inputs ih =>
    obtain ⟨s, phase | result⟩ := r
    · exact ih (step s phase input start)
    · exact start

/-- A call that is over does not advance. -/
theorem run_advances_none {s : State σ τ ℓ} {t : τ} (none : s.running.find t = none)
    (inputs : List ι) : run P s (inputs.map (.advance t)) = s := by
  induction inputs with
  | nil => rfl
  | cons input inputs ih =>
    have still : fire P s (.advance t input) = s := by simp only [fire, none]
    rw [List.map_cons, run, List.foldl_cons, still]
    exact ih

/-- The steps of one call, with no event between them. -/
theorem run_advances {s : State σ τ ℓ} {t : τ} {x : Running τ ℓ}
    (found : s.running.find t = some x) (inputs : List ι) :
    (run P s (inputs.map (.advance t))).store = (alone P inputs (s.store, .next x.phase)).1 := by
  induction inputs generalizing s x with
  | nil => rfl
  | cons input inputs ih =>
    rw [List.map_cons, run, List.foldl_cons, fire_advance found, alone]
    cases stepped : P.step x.phase input s.store with
    | mk store progress =>
      cases progress with
      | next phase => exact ih (find_settle_next found)
      | done result =>
        have ended : (finish s t store).running.find t = none := by
          rw [finish, Table.find_delete, found, Option.filter_some_neg]
          simp [(Table.find_eq_some.mp found).2]
        have still := run_advances_none (P := P) ended inputs
        rw [alone_done]
        exact congrArg State.store still

theorem find_begin {s : State σ τ ℓ} {t : τ} {call : γ} {phase : ℓ}
    (free : s.running.find t = none) (first : P.entry call = .next phase) :
    (fire P s (.begin t call)).store = s.store ∧
      (fire P s (.begin t call)).running.find t = some ⟨t, phase⟩ := by
  obtain ⟨running, inserted⟩ : ∃ running, s.running.insert ⟨t, phase⟩ = some running :=
    Table.insert_isSome.mpr free
  simp only [fire, first, inserted]
  exact ⟨trivial, (Table.find_insert inserted t).trans (if_pos rfl)⟩

/-- A step of a call that goes on. -/
theorem find_advance {s : State σ τ ℓ} {t : τ} {x : Running τ ℓ} {input : ι} {store : σ}
    {next : ℓ} (found : s.running.find t = some x)
    (stepped : P.step x.phase input s.store = (store, .next next)) :
    (fire P s (.advance t input)).store = store ∧
      (fire P s (.advance t input)).running.find t = some { x with phase := next } := by
  rw [fire_advance found, stepped]
  exact ⟨rfl, find_settle_next found⟩

end Alone

end Interleaving
