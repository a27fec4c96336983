import Mathlib

/-! Runs of a step function. A run is a list of events; a condition on the events of a run is
asked of each event in the state it meets, and an invariant that the events keep under such a
condition is there in every state of the run. -/

namespace Runs

variable {σ α : Type*} {step : σ → α → σ}

def run (step : σ → α → σ) (s : σ) (events : List α) : σ := events.foldl step s

/-- `cond` holds of each event of the run, in the state it meets. -/
def Along (step : σ → α → σ) (cond : σ → α → Prop) : σ → List α → Prop
  | _, [] => True
  | s, e :: events => cond s e ∧ Along step cond (step s e) events

instance decidableAlong (step : σ → α → σ) (cond : σ → α → Prop) [∀ s e, Decidable (cond s e)] :
    ∀ (s : σ) (events : List α), Decidable (Along step cond s events)
  | _, [] => .isTrue trivial
  | s, e :: events =>
    haveI := decidableAlong step cond (step s e) events
    inferInstanceAs (Decidable (cond s e ∧ Along step cond (step s e) events))

theorem run_append (s : σ) (events more : List α) :
    run step s (events ++ more) = run step (run step s events) more := by
  simp [run]

theorem along_append {cond : σ → α → Prop} {s : σ} {events more : List α} :
    Along step cond s (events ++ more) ↔
      Along step cond s events ∧ Along step cond (run step s events) more := by
  induction events generalizing s with
  | nil => simp [Along, run]
  | cons e events ih =>
    simp only [List.cons_append, Along, ih, and_assoc]
    rfl

/-- An invariant that every admitted event keeps holds after every admitted run. -/
theorem run_invariant {I : σ → Prop} {C : σ → α → Prop}
    (keeps : ∀ s e, I s → C s e → I (step s e)) {s : σ} {events : List α} (start : I s)
    (along : Along step C s events) : I (run step s events) := by
  induction events generalizing s with
  | nil => exact start
  | cons e events ih => exact ih (keeps s e start along.1) along.2

/-- What an invariant gives at each event holds along the run. -/
theorem along_of_invariant {I : σ → Prop} {C G : σ → α → Prop}
    (keeps : ∀ s e, I s → C s e → I (step s e)) (gives : ∀ s e, I s → C s e → G s e)
    {s : σ} {events : List α} (start : I s) (along : Along step C s events) :
    Along step G s events := by
  induction events generalizing s with
  | nil => trivial
  | cons e events ih =>
    exact ⟨gives s e start along.1, ih (keeps s e start along.1) along.2⟩

theorem along_and {C D : σ → α → Prop} {s : σ} {events : List α} (hc : Along step C s events)
    (hd : Along step D s events) : Along step (fun s e => C s e ∧ D s e) s events := by
  induction events generalizing s with
  | nil => trivial
  | cons e events ih => exact ⟨⟨hc.1, hd.1⟩, ih hc.2 hd.2⟩

theorem along_true (s : σ) (events : List α) : Along step (fun _ _ => True) s events := by
  induction events generalizing s with
  | nil => trivial
  | cons e events ih => exact ⟨trivial, ih (step s e)⟩

end Runs
