import BikesNest.Runs

/-! Sliding logs. A check of a key is allowed when fewer than a limit of the key's checks were
allowed within the window before it. A limiter keeps what it likes; `Slides` says what one check
must do to the number of events that still count for each key, and the rules at the end say how
its answers then compare with the log of the whole run. -/

namespace SlidingLog

variable {κ ι σ : Type*} [DecidableEq κ]

structure Check (κ : Type*) where
  key : κ
  limit : ℕ
  window : ℕ
  now : ℕ

/-- A check that was answered; `ι` is what the limiter drew for it. -/
structure Answered (ι κ : Type*) where
  draw : ι
  check : Check κ
  allowed : Bool

/-- Allowed, of the key, and within the half-open interval of the last `window` up to `now`. -/
def Counts (key : κ) (window now : ℕ) (a : Answered ι κ) : Prop :=
  a.allowed = true ∧ a.check.key = key ∧ a.check.now ≤ now ∧ now < a.check.now + window

instance (key : κ) (window now : ℕ) (a : Answered ι κ) : Decidable (Counts key window now a) :=
  inferInstanceAs (Decidable (_ ∧ _ ∧ _ ∧ _))

def allowedIn (log : List (Answered ι κ)) (key : κ) (window now : ℕ) : ℕ :=
  log.countP fun a => decide (Counts key window now a)

/-- The keys checked within their windows. -/
def liveKeys (log : List (Answered ι κ)) (now : ℕ) : List κ :=
  ((log.filter fun a => decide (now < a.check.now + a.check.window)).map fun a => a.check.key).dedup

abbrev Limiter (σ ι κ : Type*) := ι → Check κ → σ → Bool × σ

/-- A limiter and the log of its answers, the latest first. -/
structure Logged (σ ι κ : Type*) where
  store : σ
  log : List (Answered ι κ)

def record (L : Limiter σ ι κ) (s : Logged σ ι κ) (e : ι × Check κ) : Logged σ ι κ :=
  ⟨(L e.1 e.2 s.store).2, ⟨e.1, e.2, (L e.1 e.2 s.store).1⟩ :: s.log⟩

/-- The answer is that of the log. -/
def Exact (L : Limiter σ ι κ) (s : Logged σ ι κ) (e : ι × Check κ) : Prop :=
  (L e.1 e.2 s.store).1 = true ↔ allowedIn s.log e.2.key e.2.window e.2.now < e.2.limit

/-- The answer is no false refusal. -/
def Fair (L : Limiter σ ι κ) (s : Logged σ ι κ) (e : ι × Check κ) : Prop :=
  allowedIn s.log e.2.key e.2.window e.2.now < e.2.limit → (L e.1 e.2 s.store).1 = true

/-- The clock does not go back, and each key has its window. -/
structure Admissible (window : κ → ℕ) (s : Logged σ ι κ) (e : ι × Check κ) : Prop where
  forward : ∀ a ∈ s.log, a.check.now ≤ e.2.now
  own : e.2.window = window e.2.key

/-- What a check does to the events that count: those of its own key grow by itself when it is
allowed, those of other keys do not grow. -/
structure Slides (L : Limiter σ ι κ) (window : κ → ℕ) (live : σ → κ → ℕ → ℕ) (i : ι) (c : Check κ)
    (s : σ) : Prop where
  answer : (L i c s).1 = decide (live s c.key c.now < c.limit)
  own : ∀ now, c.now ≤ now → live (L i c s).2 c.key now =
    live s c.key now + if (L i c s).1 = true ∧ now < c.now + window c.key then 1 else 0
  others : ∀ k now, k ≠ c.key → c.now ≤ now → live (L i c s).2 k now ≤ live s k now

/-- No event that counts is forgotten. -/
def Remembers (L : Limiter σ ι κ) (live : σ → κ → ℕ → ℕ) (i : ι) (c : Check κ) (s : σ) : Prop :=
  ∀ k now, k ≠ c.key → c.now ≤ now → live s k now ≤ live (L i c s).2 k now

theorem allowedIn_cons (a : Answered ι κ) (log : List (Answered ι κ)) (key : κ) (window now : ℕ) :
    allowedIn (a :: log) key window now =
      allowedIn log key window now + if Counts key window now a then 1 else 0 := by
  simp [allowedIn, List.countP_cons]

/-- The time lies behind every check of the log. -/
def After (log : List (Answered ι κ)) (now : ℕ) : Prop := ∀ a ∈ log, a.check.now ≤ now

omit [DecidableEq κ] in
theorem after_cons {a : Answered ι κ} {log : List (Answered ι κ)} {now : ℕ} :
    After (a :: log) now ↔ a.check.now ≤ now ∧ After log now := by
  simp [After]

section Rules

variable {L : Limiter σ ι κ} {window : κ → ℕ} {live : σ → κ → ℕ → ℕ}

/-- The limiter counts no more than the log. -/
def Bounded (window : κ → ℕ) (live : σ → κ → ℕ → ℕ) (s : Logged σ ι κ) : Prop :=
  ∀ k now, After s.log now → live s.store k now ≤ allowedIn s.log k (window k) now

/-- The limiter counts as the log does. -/
def Equal (window : κ → ℕ) (live : σ → κ → ℕ → ℕ) (s : Logged σ ι κ) : Prop :=
  ∀ k now, After s.log now → live s.store k now = allowedIn s.log k (window k) now

variable {s : Logged σ ι κ} {e : ι × Check κ} (admissible : Admissible window s e)
  (slides : Slides L window live e.1 e.2 s.store)
include admissible slides

theorem fair_of_bounded (bounded : Bounded window live s) : Fair L s e := by
  intro few
  rw [slides.answer, decide_eq_true_eq]
  rw [admissible.own] at few
  exact lt_of_le_of_lt (bounded e.2.key e.2.now admissible.forward) few

theorem exact_of_equal (equal : Equal window live s) : Exact L s e := by
  rw [Exact, slides.answer, decide_eq_true_eq, admissible.own,
    equal e.2.key e.2.now admissible.forward]

omit admissible slides in
/-- What the new entry of the log counts for its own key. -/
theorem allowedIn_own {now : ℕ} (later : e.2.now ≤ now) :
    allowedIn (record L s e).log e.2.key (window e.2.key) now =
      allowedIn s.log e.2.key (window e.2.key) now +
        if (L e.1 e.2 s.store).1 = true ∧ now < e.2.now + window e.2.key then 1 else 0 := by
  rw [record, allowedIn_cons]
  congr 1
  refine if_congr ?_ rfl rfl
  simp [Counts, later]

omit admissible slides in
theorem allowedIn_other {k : κ} (other : k ≠ e.2.key) (now : ℕ) :
    allowedIn (record L s e).log k (window k) now = allowedIn s.log k (window k) now := by
  rw [record, allowedIn_cons, if_neg, Nat.add_zero]
  rintro ⟨-, same, -⟩
  exact other same.symm

omit admissible in
theorem bounded_record (bounded : Bounded window live s) : Bounded window live (record L s e) := by
  intro k now after
  obtain ⟨later, after⟩ := after_cons.mp after
  by_cases own : k = e.2.key
  · subst own
    rw [allowedIn_own later]
    have before := bounded e.2.key now after
    have here := slides.own now later
    simp only [record]
    omega
  · rw [allowedIn_other own]
    exact (slides.others k now own later).trans (bounded k now after)

omit admissible in
theorem equal_record (remembers : Remembers L live e.1 e.2 s.store)
    (equal : Equal window live s) : Equal window live (record L s e) := by
  intro k now after
  obtain ⟨later, after⟩ := after_cons.mp after
  by_cases own : k = e.2.key
  · subst own
    rw [allowedIn_own later, ← equal e.2.key now after]
    exact slides.own now later
  · rw [allowedIn_other own, ← equal k now after]
    exact le_antisymm (slides.others k now own later) (remembers k now own later)

end Rules

omit [DecidableEq κ] in
/-- A sequence of checks whose times do not go back, each key with its window, is admissible at
each of its checks. -/
theorem along_admissible (L : Limiter σ ι κ) {window : κ → ℕ} {events : List (ι × Check κ)}
    (own : ∀ e ∈ events, e.2.window = window e.2.key)
    (forward : events.Pairwise fun a b => a.2.now ≤ b.2.now) {s : Logged σ ι κ}
    (start : ∀ e ∈ events, After s.log e.2.now) :
    Runs.Along (record L) (Admissible window) s events := by
  induction events generalizing s with
  | nil => trivial
  | cons e events ih =>
    obtain ⟨first, forward⟩ := List.pairwise_cons.mp forward
    refine ⟨⟨start e List.mem_cons_self, own e List.mem_cons_self⟩,
      ih (fun d hd => own d (List.mem_cons_of_mem e hd)) forward fun d hd => ?_⟩
    exact after_cons.mpr ⟨first d hd, start d (List.mem_cons_of_mem e hd)⟩

omit [DecidableEq κ] in
/-- The draws of the checks so far are none of those to come. -/
theorem along_fresh (L : Limiter σ ι κ) {α : Type*} (f : ι → α) {events : List (ι × Check κ)}
    (distinct : (events.map fun e => f e.1).Nodup) {s : Logged σ ι κ}
    (start : ∀ e ∈ events, ∀ a ∈ s.log, f a.draw ≠ f e.1) :
    Runs.Along (record L) (fun s e => ∀ a ∈ s.log, f a.draw ≠ f e.1) s events := by
  induction events generalizing s with
  | nil => trivial
  | cons e events ih =>
    obtain ⟨first, distinct⟩ := List.nodup_cons.mp distinct
    refine ⟨start e List.mem_cons_self, ih distinct fun d hd a ha => ?_⟩
    rcases List.mem_cons.mp ha with rfl | ha
    · exact fun same => first (List.mem_map.mpr ⟨d, hd, same.symm⟩)
    · exact start d (List.mem_cons_of_mem e hd) a ha

end SlidingLog
