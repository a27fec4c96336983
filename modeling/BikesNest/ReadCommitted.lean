import BikesNest.Table

/-! Transactions under READ COMMITTED with row locks. A transaction runs one statement at a
time; each statement reads what is committed when it runs, with the transaction's own writes
on top, and blocks while another transaction holds a row it locks. Locks are kept and writes
stay invisible until the transaction commits. Transactions whose inner order does not matter
run in one step, which blocks in the same way.

The invariant rule at the end is that of rely and guarantee: `Evolves` says how the committed
store may change at all, and `Keeps k` how the data behind the row `k` may change under a
transaction that holds `k`. -/

namespace ReadCommitted

/-- What a statement does once it has its locks: go on with a further write, or end. -/
inductive Action (σ ℓ : Type*) where
  | proceed (next : ℓ) (write : σ → σ)
  | commit
  | abort

structure Statement (σ κ ℓ : Type*) where
  locks : List κ
  action : Action σ ℓ

/-- Calls start at `entry`; `next` is the statement of a phase, read off the view the
transaction has. `atomic` operations touch rows and transform the store. -/
structure Program (σ κ ℓ γ α : Type*) where
  entry : γ → ℓ
  next : ℓ → σ → Statement σ κ ℓ
  touches : α → σ → List κ
  apply : α → σ → σ

/-- A running transaction. `pending` lays its own writes over a committed store. -/
structure Txn (σ κ τ ℓ : Type*) where
  id : τ
  phase : ℓ
  held : List κ
  pending : σ → σ

structure State (σ κ τ ℓ : Type*) where
  committed : σ
  running : Table τ (Txn σ κ τ ℓ) Txn.id

inductive Event (τ γ α : Type*) where
  | begin (t : τ) (call : γ)
  | advance (t : τ)
  | rollback (t : τ)
  | atomic (op : α)

variable {σ κ τ ℓ γ α : Type*}

def Statement.proceed (next : ℓ) (locks : List κ) (write : σ → σ) : Statement σ κ ℓ :=
  ⟨locks, .proceed next write⟩

def Statement.abort (locks : List κ) : Statement σ κ ℓ := ⟨locks, .abort⟩

theorem Statement.proceed_inj {next next' : ℓ} {locks locks' : List κ} {write write' : σ → σ}
    (h : Statement.proceed next locks write = ⟨locks', .proceed next' write'⟩) :
    next' = next ∧ locks' = locks ∧ write' = write := by
  simp only [Statement.proceed, Statement.mk.injEq, Action.proceed.injEq] at h
  exact ⟨h.2.1.symm, h.1.symm, h.2.2.symm⟩

theorem Statement.abort_ne_proceed {next : ℓ} {locks locks' : List κ} {write : σ → σ} :
    (Statement.abort locks : Statement σ κ ℓ) ≠ ⟨locks', .proceed next write⟩ := by
  simp [Statement.abort]

theorem Statement.abort_ne_commit {locks locks' : List κ} :
    (Statement.abort locks : Statement σ κ ℓ) ≠ ⟨locks', .commit⟩ := by
  simp [Statement.abort]

theorem Statement.proceed_ne_commit {next : ℓ} {locks locks' : List κ} {write : σ → σ} :
    Statement.proceed next locks write ≠ ⟨locks', .commit⟩ := by
  simp [Statement.proceed]

def initial (s : σ) : State σ κ τ ℓ := ⟨s, .empty⟩

def Txn.start (t : τ) (phase : ℓ) : Txn σ κ τ ℓ := ⟨t, phase, [], fun s => s⟩

def Txn.step (x : Txn σ κ τ ℓ) (locks : List κ) (next : ℓ) (write : σ → σ) : Txn σ κ τ ℓ :=
  { x with phase := next, held := locks ++ x.held, pending := write ∘ x.pending }

@[simp] theorem Txn.step_id (x : Txn σ κ τ ℓ) (locks : List κ) (next : ℓ) (write : σ → σ) :
    (x.step locks next write).id = x.id := rfl

/-- Nothing written so far. -/
def Txn.Untouched (x : Txn σ κ τ ℓ) : Prop := x.pending = fun s => s

theorem Txn.Untouched.view {x : Txn σ κ τ ℓ} (h : x.Untouched) (s : σ) : x.pending s = s :=
  congrFun h s

theorem Txn.Untouched.step {x : Txn σ κ τ ℓ} (h : x.Untouched) (locks : List κ) (next : ℓ)
    (write : σ → σ) : (x.step locks next write).pending = write :=
  congrArg (write ∘ ·) h

/-- The statement a transaction runs next. -/
def Program.statement (P : Program σ κ ℓ γ α) (x : Txn σ κ τ ℓ) (s : σ) : Statement σ κ ℓ :=
  P.next x.phase (x.pending s)

/-- A transaction that nothing runs beside: the phase it commits in, and what it commits. -/
def Program.alone (P : Program σ κ ℓ γ α) : ℕ → Txn σ κ τ ℓ → σ → Option (ℓ × σ)
  | 0, _, _ => none
  | n + 1, x, s =>
    match (P.statement x s).action with
    | .proceed next write => P.alone n (x.step (P.statement x s).locks next write) s
    | .commit => some (x.phase, x.pending s)
    | .abort => none

section Alone

variable {P : Program σ κ ℓ γ α} {x : Txn σ κ τ ℓ} {s : σ} {locks : List κ}

theorem alone_proceed {next : ℓ} {write : σ → σ} (n : ℕ)
    (h : P.statement x s = .proceed next locks write) :
    P.alone (n + 1) x s = P.alone n (x.step locks next write) s := by
  simp [Program.alone, h, Statement.proceed]

theorem alone_abort (n : ℕ) (h : P.statement x s = .abort locks) :
    P.alone (n + 1) x s = none := by
  simp [Program.alone, h, Statement.abort]

theorem alone_commit (n : ℕ) (h : P.statement x s = ⟨locks, .commit⟩) :
    P.alone (n + 1) x s = some (x.phase, x.pending s) := by
  simp [Program.alone, h]

end Alone

/-- No transaction but `own` holds any of the rows. -/
def Free (s : State σ κ τ ℓ) (own : Option τ) (locks : List κ) : Prop :=
  ∀ x ∈ s.running.rows, own ≠ some x.id → ∀ k ∈ locks, k ∉ x.held

instance [DecidableEq κ] [DecidableEq τ] (s : State σ κ τ ℓ) (own : Option τ) (locks : List κ) :
    Decidable (Free s own locks) :=
  inferInstanceAs (Decidable (∀ x ∈ s.running.rows, own ≠ some x.id → ∀ k ∈ locks, k ∉ x.held))

variable [DecidableEq τ]

def finish (s : State σ κ τ ℓ) (t : τ) (committed : σ) : State σ κ τ ℓ :=
  ⟨committed, s.running.delete fun x => decide (x.id = t)⟩

def settle (s : State σ κ τ ℓ) (x : Txn σ κ τ ℓ) (locks : List κ) :
    Action σ ℓ → State σ κ τ ℓ
  | .proceed next write => ⟨s.committed, s.running.update (fun y => decide (y.id = x.id))
      (fun y => y.step locks next write) fun y => y.step_id locks next write⟩
  | .commit => finish s x.id (x.pending s.committed)
  | .abort => finish s x.id s.committed

section Runs

variable [DecidableEq κ]

/-- One event; a blocked or meaningless one changes nothing. -/
def fire (P : Program σ κ ℓ γ α) (s : State σ κ τ ℓ) : Event τ γ α → State σ κ τ ℓ
  | .begin t call =>
    match s.running.insert (.start t (P.entry call)) with
    | some running => ⟨s.committed, running⟩
    | none => s
  | .advance t =>
    match s.running.find t with
    | some x =>
      if Free s (some t) (P.statement x s.committed).locks then
        settle s x (P.statement x s.committed).locks (P.statement x s.committed).action
      else s
    | none => s
  | .rollback t => finish s t s.committed
  | .atomic op =>
    if Free s none (P.touches op s.committed) then ⟨P.apply op s.committed, s.running⟩ else s

def run (P : Program σ κ ℓ γ α) (s : State σ κ τ ℓ) (events : List (Event τ γ α)) :
    State σ κ τ ℓ :=
  events.foldl (fire P) s

theorem run_append (P : Program σ κ ℓ γ α) (s : State σ κ τ ℓ)
    (events more : List (Event τ γ α)) :
    run P s (events ++ more) = run P (run P s events) more := by
  simp [run]

theorem fire_commit {P : Program σ κ ℓ γ α} {s : State σ κ τ ℓ} {x : Txn σ κ τ ℓ}
    (hx : x ∈ s.running) (h : P.statement x s.committed = ⟨[], .commit⟩) :
    fire P s (.advance x.id) = finish s x.id (x.pending s.committed) := by
  have free : Free s (some x.id) [] := fun _ _ _ k hk => absurd hk List.not_mem_nil
  simp [fire, Table.find_of_mem hx, h, free, settle]

end Runs

/-- A proof outline: `I` holds of every committed store, `L` of every running transaction and
the committed store beside it. -/
structure Outline (P : Program σ κ ℓ γ α) (I : σ → Prop) (L : Txn σ κ τ ℓ → σ → Prop)
    (Evolves : σ → σ → Prop) (Keeps : κ → σ → σ → Prop) : Prop where
  entry : ∀ s t call, I s → L (.start t (P.entry call)) s
  proceed : ∀ s x locks next write, I s → L x s →
    P.statement x s = ⟨locks, .proceed next write⟩ → L (x.step locks next write) s
  commit : ∀ s x locks, I s → L x s → P.statement x s = ⟨locks, .commit⟩ →
    I (x.pending s) ∧ Evolves s (x.pending s) ∧ ∀ k, k ∉ x.held → Keeps k s (x.pending s)
  atomic : ∀ s op, I s →
    I (P.apply op s) ∧ Evolves s (P.apply op s) ∧
      ∀ k, k ∉ P.touches op s → Keeps k s (P.apply op s)
  stable : ∀ s s' x, I s → I s' → L x s → Evolves s s' → (∀ k ∈ x.held, Keeps k s s') →
    L x s'

/-- The invariant of an outline: besides `I` and `L`, no row is held twice. -/
structure Sound (I : σ → Prop) (L : Txn σ κ τ ℓ → σ → Prop) (s : State σ κ τ ℓ) : Prop where
  committed : I s.committed
  running : ∀ x ∈ s.running, L x s.committed
  exclusive : ∀ x ∈ s.running, ∀ y ∈ s.running, x.id ≠ y.id → ∀ k ∈ x.held, k ∉ y.held

section Invariant

variable {P : Program σ κ ℓ γ α} {I : σ → Prop} {L : Txn σ κ τ ℓ → σ → Prop}
  {Evolves : σ → σ → Prop} {Keeps : κ → σ → σ → Prop} {s : State σ κ τ ℓ}

omit [DecidableEq τ] in
theorem initial_sound {s : σ} (h : I s) : Sound I L (initial s : State σ κ τ ℓ) := by
  refine ⟨h, ?_, ?_⟩
  · intro x hx
    exact absurd hx (Table.not_mem_empty x)
  · intro x hx
    exact absurd hx (Table.not_mem_empty x)

theorem begin_preserves_sound (outline : Outline P I L Evolves Keeps) (hs : Sound I L s) {t : τ}
    {call : γ} {running : Table τ (Txn σ κ τ ℓ) Txn.id}
    (h : s.running.insert (.start t (P.entry call)) = some running) :
    Sound I L (⟨s.committed, running⟩ : State σ κ τ ℓ) := by
  refine ⟨hs.committed, ?_, ?_⟩
  · intro x hx
    rcases (Table.mem_insert h).mp hx with hx | rfl
    · exact hs.running x hx
    · exact outline.entry _ t call hs.committed
  · intro x hx y hy hne k hk
    rcases (Table.mem_insert h).mp hx with hx | rfl
    · rcases (Table.mem_insert h).mp hy with hy | rfl
      · exact hs.exclusive x hx y hy hne k hk
      · simp [Txn.start]
    · simp [Txn.start] at hk

/-- The transactions that stay keep their assertions when the committed store moves, as long
as the rows they hold are kept. -/
theorem finish_preserves_sound (outline : Outline P I L Evolves Keeps) (hs : Sound I L s) {t : τ}
    {committed : σ} (after : I committed) (evolves : Evolves s.committed committed)
    (kept : ∀ x ∈ s.running, x.id ≠ t → ∀ k ∈ x.held, Keeps k s.committed committed) :
    Sound I L (finish s t committed) := by
  have stays : ∀ x ∈ (finish s t committed).running, x ∈ s.running ∧ x.id ≠ t := by
    intro x hx
    obtain ⟨hx, hne⟩ := Table.mem_delete.mp hx
    exact ⟨hx, by simpa using hne⟩
  refine ⟨after, ?_, ?_⟩
  · intro x hx
    obtain ⟨hx, hne⟩ := stays x hx
    exact outline.stable _ _ x hs.committed after (hs.running x hx) evolves (kept x hx hne)
  · intro x hx y hy
    exact hs.exclusive x (stays x hx).1 y (stays y hy).1

/-- Ending a transaction without a write needs no assertion to be stable. -/
theorem release_preserves_sound (hs : Sound I L s) (t : τ) :
    Sound I L (finish s t s.committed) := by
  refine ⟨hs.committed, ?_, ?_⟩
  · intro x hx
    exact hs.running x (Table.mem_delete.mp hx).1
  · intro x hx y hy
    exact hs.exclusive x (Table.mem_delete.mp hx).1 y (Table.mem_delete.mp hy).1

theorem proceed_preserves_sound (outline : Outline P I L Evolves Keeps) (hs : Sound I L s)
    {x : Txn σ κ τ ℓ} (hx : x ∈ s.running) {locks : List κ} {next : ℓ} {write : σ → σ}
    (free : Free s (some x.id) locks)
    (h : P.statement x s.committed = ⟨locks, .proceed next write⟩) :
    Sound I L (settle s x locks (.proceed next write)) := by
  have origin : ∀ y ∈ (settle s x locks (.proceed next write)).running,
      y = x.step locks next write ∨ (y ∈ s.running ∧ y.id ≠ x.id) := by
    intro y hy
    simp only [settle, Table.mem_update] at hy
    obtain ⟨z, hz, rfl⟩ := hy
    by_cases hid : z.id = x.id
    · obtain rfl := Table.eq_of_key_eq hz hx hid
      simp
    · simp [hid, hz]
  -- the locks just taken were free, the older ones exclusive already
  have clear : ∀ y ∈ s.running, y.id ≠ x.id →
      ∀ k ∈ (x.step locks next write).held, k ∉ y.held := by
    intro y hy hne k hk hky
    rcases List.mem_append.mp hk with hk | hk
    · exact free y hy (fun he => hne (Option.some.inj he).symm) k hk hky
    · exact hs.exclusive x hx y hy (Ne.symm hne) k hk hky
  refine ⟨hs.committed, ?_, ?_⟩
  · intro y hy
    rcases origin y hy with rfl | ⟨hy, -⟩
    · exact outline.proceed _ x locks next write hs.committed (hs.running x hx) h
    · exact hs.running y hy
  · intro y hy z hz hne k hky hkz
    rcases origin y hy with rfl | ⟨hy, hyx⟩
    · rcases origin z hz with rfl | ⟨hz, hzx⟩
      · exact hne rfl
      · exact clear z hz hzx k hky hkz
    · rcases origin z hz with rfl | ⟨hz, -⟩
      · exact clear y hy hyx k hkz hky
      · exact hs.exclusive y hy z hz hne k hky hkz

variable [DecidableEq κ]

theorem fire_preserves_sound (outline : Outline P I L Evolves Keeps) (hs : Sound I L s)
    (e : Event τ γ α) : Sound I L (fire P s e) := by
  cases e with
  | begin t call =>
    simp only [fire]
    split
    · rename_i running h
      exact begin_preserves_sound outline hs h
    · exact hs
  | advance t =>
    simp only [fire]
    split
    · rename_i x found
      obtain ⟨hx, rfl⟩ := Table.find_eq_some.mp found
      split
      · rename_i free
        cases h : (P.statement x s.committed).action with
        | proceed next write =>
          refine proceed_preserves_sound outline hs hx free ?_
          rw [← h]
        | commit =>
          obtain ⟨after, evolves, kept⟩ := outline.commit s.committed x _ hs.committed
            (hs.running x hx) (by rw [← h])
          refine finish_preserves_sound outline hs after evolves fun y hy hne k hk => kept k ?_
          exact fun hkx => hs.exclusive y hy x hx hne k hk hkx
        | abort => exact release_preserves_sound hs x.id
      · exact hs
    · exact hs
  | rollback t => exact release_preserves_sound hs t
  | atomic op =>
    simp only [fire]
    split
    · rename_i free
      obtain ⟨after, evolves, kept⟩ := outline.atomic s.committed op hs.committed
      refine ⟨after, ?_, hs.exclusive⟩
      intro x hx
      refine outline.stable _ _ x hs.committed after (hs.running x hx) evolves
        fun k hk => kept k ?_
      exact fun hkt => free x hx (by simp) k hkt hk
    · exact hs

theorem run_preserves_sound (outline : Outline P I L Evolves Keeps) (hs : Sound I L s)
    (events : List (Event τ γ α)) : Sound I L (run P s events) := by
  induction events generalizing s with
  | nil => exact hs
  | cons e events ih => exact ih (fire_preserves_sound outline hs e)

/-- The committed store changes as an outline lets it. -/
theorem fire_evolves (outline : Outline P I L Evolves Keeps) (refl : ∀ c, Evolves c c)
    (hs : Sound I L s) (e : Event τ γ α) : Evolves s.committed (fire P s e).committed := by
  cases e with
  | begin t call =>
    simp only [fire]
    split
    · exact refl _
    · exact refl _
  | advance t =>
    simp only [fire]
    split
    · rename_i x found
      obtain ⟨hx, rfl⟩ := Table.find_eq_some.mp found
      split
      · cases h : (P.statement x s.committed).action with
        | proceed next write => exact refl _
        | commit =>
          exact (outline.commit s.committed x _ hs.committed (hs.running x hx) (by rw [← h])).2.1
        | abort => exact refl _
      · exact refl _
    · exact refl _
  | rollback t => exact refl _
  | atomic op =>
    simp only [fire]
    split
    · exact (outline.atomic s.committed op hs.committed).2.1
    · exact refl _

theorem run_evolves (outline : Outline P I L Evolves Keeps) (refl : ∀ c, Evolves c c)
    (trans : ∀ a b c, Evolves a b → Evolves b c → Evolves a c) (hs : Sound I L s)
    (events : List (Event τ γ α)) : Evolves s.committed (run P s events).committed := by
  induction events generalizing s with
  | nil => exact refl _
  | cons e events ih =>
    exact trans _ _ _ (fire_evolves outline refl hs e) (ih (fire_preserves_sound outline hs e))

end Invariant

end ReadCommitted
