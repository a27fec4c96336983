import BikesNest.ReadCommitted

/-! Transactions under READ COMMITTED whose locks have modes. Two transactions hold a row
together when their modes do not clash, a statement sees whether a lock is free and can pass
over a row that is locked, and a process runs one transaction after the other.

The invariant rule is that of `ReadCommitted`, for runs whose events meet a condition. What a
transaction relies on may depend on the transaction: `Evolves x` says how the committed store
may change beside `x`. -/

namespace LockModes

open ReadCommitted (Txn State finish)

/-- What a statement does once it has its locks: go on with a further write, or end the
transaction, after which the process may start another one. -/
inductive Action (σ ℓ : Type*) where
  | proceed (next : ℓ) (write : σ → σ)
  | commit (rest : Option ℓ)
  | abort (rest : Option ℓ)

structure Statement (σ κ ℓ : Type*) where
  locks : List κ
  action : Action σ ℓ

/-- `next` is the statement of a phase, on the view its transaction has; the last argument says
which locks nobody else is in the way of. -/
structure Program (σ κ ℓ γ : Type*) where
  clash : κ → κ → Bool
  entry : γ → ℓ
  next : ℓ → σ → (κ → Bool) → Statement σ κ ℓ

inductive Event (τ γ : Type*) where
  | begin (t : τ) (call : γ)
  | advance (t : τ)
  | rollback (t : τ)

variable {σ κ τ ℓ γ : Type*}

def Statement.proceed (next : ℓ) (locks : List κ) (write : σ → σ) : Statement σ κ ℓ :=
  ⟨locks, .proceed next write⟩

def Statement.commit (rest : Option ℓ) : Statement σ κ ℓ := ⟨[], .commit rest⟩

def Statement.abort (locks : List κ) (rest : Option ℓ) : Statement σ κ ℓ := ⟨locks, .abort rest⟩

theorem Statement.proceed_inj {next next' : ℓ} {locks locks' : List κ} {write write' : σ → σ}
    (h : Statement.proceed next locks write = ⟨locks', .proceed next' write'⟩) :
    next' = next ∧ locks' = locks ∧ write' = write := by
  simp only [Statement.proceed, Statement.mk.injEq, Action.proceed.injEq] at h
  exact ⟨h.2.1.symm, h.1.symm, h.2.2.symm⟩

/-- The next transaction of a process. -/
def restart (x : Txn σ κ τ ℓ) (phase : ℓ) : Txn σ κ τ ℓ := .start x.id phase

@[simp] theorem restart_id (x : Txn σ κ τ ℓ) (phase : ℓ) : (restart x phase).id = x.id := rfl

section Semantics

variable [DecidableEq τ]

/-- Nobody but `own` holds a lock that clashes with `k`. -/
def clear (P : Program σ κ ℓ γ) (s : State σ κ τ ℓ) (own : τ) (k : κ) : Bool :=
  s.running.rows.all fun x => decide (x.id = own) || x.held.all fun k' => !P.clash k k'

def Program.statement (P : Program σ κ ℓ γ) (s : State σ κ τ ℓ) (x : Txn σ κ τ ℓ) :
    Statement σ κ ℓ :=
  P.next x.phase (x.pending s.committed) (clear P s x.id)

/-- The process `t` leaves its transaction, and starts the next one if there is one. -/
def leave (s : State σ κ τ ℓ) (t : τ) (committed : σ) : Option ℓ → State σ κ τ ℓ
  | none => finish s t committed
  | some phase => ⟨committed, s.running.update (fun y => decide (y.id = t))
      (fun y => restart y phase) fun y => restart_id y phase⟩

def settle (s : State σ κ τ ℓ) (x : Txn σ κ τ ℓ) (locks : List κ) : Action σ ℓ → State σ κ τ ℓ
  | .proceed next write => ⟨s.committed, s.running.update (fun y => decide (y.id = x.id))
      (fun y => y.step locks next write) fun y => y.step_id locks next write⟩
  | .commit rest => leave s x.id (x.pending s.committed) rest
  | .abort rest => leave s x.id s.committed rest

/-- One event; a blocked or meaningless one changes nothing. -/
def fire (P : Program σ κ ℓ γ) (s : State σ κ τ ℓ) : Event τ γ → State σ κ τ ℓ
  | .begin t call =>
    match s.running.insert (.start t (P.entry call)) with
    | some running => ⟨s.committed, running⟩
    | none => s
  | .advance t =>
    match s.running.find t with
    | some x =>
      if (P.statement s x).locks.all (clear P s t) then
        settle s x (P.statement s x).locks (P.statement s x).action
      else s
    | none => s
  | .rollback t => finish s t s.committed

def run (P : Program σ κ ℓ γ) (s : State σ κ τ ℓ) (events : List (Event τ γ)) : State σ κ τ ℓ :=
  events.foldl (fire P) s

/-- `cond` holds of each event of the run, in the state it meets. -/
def Along (P : Program σ κ ℓ γ) (cond : State σ κ τ ℓ → Event τ γ → Prop) :
    State σ κ τ ℓ → List (Event τ γ) → Prop
  | _, [] => True
  | s, e :: events => cond s e ∧ Along P cond (fire P s e) events

instance decidableAlong (P : Program σ κ ℓ γ) (cond : State σ κ τ ℓ → Event τ γ → Prop)
    [∀ s e, Decidable (cond s e)] :
    (s : State σ κ τ ℓ) → (events : List (Event τ γ)) → Decidable (Along P cond s events)
  | _, [] => .isTrue trivial
  | s, e :: events =>
    have := decidableAlong P cond (fire P s e) events
    inferInstanceAs (Decidable (cond s e ∧ Along P cond (fire P s e) events))

end Semantics

/-- A proof outline: `I` holds of every committed store, `L` of every running transaction and
the committed store beside it. -/
structure Outline [DecidableEq τ] (P : Program σ κ ℓ γ) (I : σ → Prop)
    (L : Txn σ κ τ ℓ → σ → Prop) (Evolves : Txn σ κ τ ℓ → σ → σ → Prop)
    (Keeps : κ → σ → σ → Prop) (cond : State σ κ τ ℓ → Event τ γ → Prop) : Prop where
  clash_comm : ∀ k k', P.clash k k' = P.clash k' k
  entry : ∀ s t call, I s → L (.start t (P.entry call)) s
  proceed : ∀ s x locks next write, I s.committed → L x s.committed → x ∈ s.running →
    cond s (.advance x.id) → P.statement s x = ⟨locks, .proceed next write⟩ →
    L (x.step locks next write) s.committed
  commit : ∀ s x locks rest, I s.committed → L x s.committed → x ∈ s.running →
    cond s (.advance x.id) → P.statement s x = ⟨locks, .commit rest⟩ →
    I (x.pending s.committed) ∧
      (∀ k, (∀ k' ∈ x.held, P.clash k k' = false) → Keeps k s.committed (x.pending s.committed)) ∧
      (∀ y ∈ s.running, y.id ≠ x.id → Evolves y s.committed (x.pending s.committed)) ∧
      ∀ p ∈ rest, L (.start x.id p) (x.pending s.committed)
  abort : ∀ s x locks rest, I s.committed → L x s.committed → x ∈ s.running →
    P.statement s x = ⟨locks, .abort rest⟩ → ∀ p ∈ rest, L (.start x.id p) s.committed
  stable : ∀ c c' y, I c → I c' → L y c → Evolves y c c' → (∀ k ∈ y.held, Keeps k c c') → L y c'

/-- The invariant of an outline: besides `I` and `L`, no two transactions hold clashing locks. -/
structure Sound (P : Program σ κ ℓ γ) (I : σ → Prop) (L : Txn σ κ τ ℓ → σ → Prop)
    (s : State σ κ τ ℓ) : Prop where
  committed : I s.committed
  running : ∀ x ∈ s.running, L x s.committed
  exclusive : ∀ x ∈ s.running, ∀ y ∈ s.running, x.id ≠ y.id →
    ∀ k ∈ x.held, ∀ k' ∈ y.held, P.clash k k' = false

section Invariant

variable {P : Program σ κ ℓ γ} {I : σ → Prop} {L : Txn σ κ τ ℓ → σ → Prop}
  {Evolves : Txn σ κ τ ℓ → σ → σ → Prop} {Keeps : κ → σ → σ → Prop} {s : State σ κ τ ℓ}

theorem initial_sound {c : σ} (h : I c) :
    Sound P I L (ReadCommitted.initial c : State σ κ τ ℓ) := by
  refine ⟨h, ?_, ?_⟩
  · intro x hx
    exact absurd hx (Table.not_mem_empty x)
  · intro x hx
    exact absurd hx (Table.not_mem_empty x)

variable [DecidableEq τ] {cond : State σ κ τ ℓ → Event τ γ → Prop}

theorem clear_iff {own : τ} {k : κ} : clear P s own k = true ↔
    ∀ x ∈ s.running, x.id ≠ own → ∀ k' ∈ x.held, P.clash k k' = false := by
  simp only [clear, List.all_eq_true, Bool.or_eq_true, decide_eq_true_eq, Bool.not_eq_true',
    Table.mem_rows]
  refine forall_congr' fun x => forall_congr' fun _ => ?_
  exact or_iff_not_imp_left

theorem begin_preserves_sound (outline : Outline P I L Evolves Keeps cond) (hs : Sound P I L s)
    {t : τ} {call : γ} {running : Table τ (Txn σ κ τ ℓ) Txn.id}
    (h : s.running.insert (.start t (P.entry call)) = some running) :
    Sound P I L (⟨s.committed, running⟩ : State σ κ τ ℓ) := by
  refine ⟨hs.committed, ?_, ?_⟩
  · intro x hx
    rcases (Table.mem_insert h).mp hx with hx | rfl
    · exact hs.running x hx
    · exact outline.entry _ t call hs.committed
  · intro x hx y hy hne k hk k' hk'
    rcases (Table.mem_insert h).mp hx with hx | rfl
    · rcases (Table.mem_insert h).mp hy with hy | rfl
      · exact hs.exclusive x hx y hy hne k hk k' hk'
      · simp [Txn.start] at hk'
    · simp [Txn.start] at hk

theorem mem_leave {t : τ} {committed : σ} {rest : Option ℓ} {y : Txn σ κ τ ℓ}
    (hy : y ∈ (leave s t committed rest).running) :
    (y ∈ s.running ∧ y.id ≠ t) ∨ ∃ p ∈ rest, y = .start t p := by
  cases rest with
  | none =>
    obtain ⟨hy, hne⟩ := Table.mem_delete.mp hy
    exact .inl ⟨hy, by simpa using hne⟩
  | some p =>
    simp only [leave, Table.mem_update] at hy
    obtain ⟨z, hz, rfl⟩ := hy
    by_cases hid : z.id = t
    · subst hid
      exact .inr ⟨p, rfl, by simp [restart]⟩
    · simp only [hid, decide_false, Bool.false_eq_true, if_false]
      exact .inl ⟨hz, hid⟩

@[simp] theorem leave_committed (t : τ) (committed : σ) (rest : Option ℓ) :
    (leave s t committed rest).committed = committed := by
  cases rest <;> rfl

/-- The transactions that stay keep their assertions when the committed store moves, as long as
they are kept what they rely on. -/
theorem leave_preserves_sound (hs : Sound P I L s) {t : τ} {committed : σ} {rest : Option ℓ}
    (after : I committed) (stays : ∀ y ∈ s.running, y.id ≠ t → L y committed)
    (fresh : ∀ p ∈ rest, L (.start t p) committed) :
    Sound P I L (leave s t committed rest) := by
  refine ⟨?_, ?_, ?_⟩
  · rw [leave_committed]
    exact after
  · intro y hy
    rw [leave_committed]
    rcases mem_leave hy with ⟨hy, hne⟩ | ⟨p, hp, rfl⟩
    · exact stays y hy hne
    · exact fresh p hp
  · intro x hx y hy hne k hk k' hk'
    rcases mem_leave hx with ⟨hx, -⟩ | ⟨p, -, rfl⟩
    · rcases mem_leave hy with ⟨hy, -⟩ | ⟨p, -, rfl⟩
      · exact hs.exclusive x hx y hy hne k hk k' hk'
      · simp [Txn.start] at hk'
    · simp [Txn.start] at hk

theorem proceed_preserves_sound (outline : Outline P I L Evolves Keeps cond) (hs : Sound P I L s)
    {x : Txn σ κ τ ℓ} (hx : x ∈ s.running) (met : cond s (.advance x.id)) {locks : List κ}
    {next : ℓ} {write : σ → σ} (free : locks.all (clear P s x.id) = true)
    (h : P.statement s x = ⟨locks, .proceed next write⟩) :
    Sound P I L (settle s x locks (.proceed next write)) := by
  have origin : ∀ y ∈ (settle s x locks (.proceed next write)).running,
      y = x.step locks next write ∨ (y ∈ s.running ∧ y.id ≠ x.id) := by
    intro y hy
    simp only [settle, Table.mem_update] at hy
    obtain ⟨z, hz, rfl⟩ := hy
    by_cases hid : z.id = x.id
    · obtain rfl := Table.eq_of_key_eq hz hx hid
      simp
    · simp [hid, hz]
  -- the locks just taken were free, the older ones exclusive already
  have apart : ∀ y ∈ s.running, y.id ≠ x.id →
      ∀ k ∈ (x.step locks next write).held, ∀ k' ∈ y.held, P.clash k k' = false := by
    intro y hy hne k hk k' hk'
    rcases List.mem_append.mp hk with hk | hk
    · exact clear_iff.mp (List.all_eq_true.mp free k hk) y hy hne k' hk'
    · exact hs.exclusive x hx y hy (Ne.symm hne) k hk k' hk'
  refine ⟨hs.committed, ?_, ?_⟩
  · intro y hy
    rcases origin y hy with rfl | ⟨hy, -⟩
    · exact outline.proceed s x locks next write hs.committed (hs.running x hx) hx met h
    · exact hs.running y hy
  · intro y hy z hz hne k hk k' hk'
    rcases origin y hy with rfl | ⟨hy, hyx⟩
    · rcases origin z hz with rfl | ⟨hz, hzx⟩
      · exact absurd rfl hne
      · exact apart z hz hzx k hk k' hk'
    · rcases origin z hz with rfl | ⟨hz, -⟩
      · rw [outline.clash_comm]
        exact apart y hy hyx k' hk' k hk
      · exact hs.exclusive y hy z hz hne k hk k' hk'

theorem advance_preserves_sound (outline : Outline P I L Evolves Keeps cond) (hs : Sound P I L s)
    {x : Txn σ κ τ ℓ} (hx : x ∈ s.running) (met : cond s (.advance x.id))
    (free : (P.statement s x).locks.all (clear P s x.id) = true) :
    Sound P I L (settle s x (P.statement s x).locks (P.statement s x).action) := by
  cases h : (P.statement s x).action with
  | proceed next write =>
    refine proceed_preserves_sound outline hs hx met free ?_
    rw [← h]
  | commit rest =>
    obtain ⟨after, kept, evolves, fresh⟩ := outline.commit s x _ rest hs.committed
      (hs.running x hx) hx met (by rw [← h])
    refine leave_preserves_sound hs after (fun y hy hne => ?_) fresh
    refine outline.stable _ _ y hs.committed after (hs.running y hy) (evolves y hy hne) ?_
    exact fun k hk => kept k fun k' hk' => hs.exclusive y hy x hx hne k hk k' hk'
  | abort rest =>
    have fresh := outline.abort s x _ rest hs.committed (hs.running x hx) hx (by rw [← h])
    exact leave_preserves_sound hs hs.committed (fun y hy _ => hs.running y hy) fresh

theorem fire_preserves_sound (outline : Outline P I L Evolves Keeps cond) (hs : Sound P I L s)
    (e : Event τ γ) (met : cond s e) : Sound P I L (fire P s e) := by
  cases e with
  | begin t call =>
    simp only [fire]
    split
    · rename_i running h
      exact begin_preserves_sound outline hs h
    · exact hs
  | advance t =>
    simp only [fire]
    split
    · rename_i x found
      obtain ⟨hx, rfl⟩ := Table.find_eq_some.mp found
      split
      · rename_i free
        exact advance_preserves_sound outline hs hx met free
      · exact hs
    · exact hs
  | rollback t =>
    change Sound P I L (leave s t s.committed none)
    refine leave_preserves_sound hs hs.committed (fun y hy _ => hs.running y hy) ?_
    intro p hp
    cases hp

theorem run_preserves_sound (outline : Outline P I L Evolves Keeps cond) (hs : Sound P I L s)
    {events : List (Event τ γ)} (along : Along P cond s events) :
    Sound P I L (run P s events) := by
  induction events generalizing s with
  | nil => exact hs
  | cons e events ih => exact ih (fire_preserves_sound outline hs e along.1) along.2

end Invariant

end LockModes
