import BikesNest.Runs
import BikesNest.Semaphores
import BikesNest.Table

/-! The admission of work that fills a processor, over every order of the steps of its callers.
One semaphore counts the work that runs, one the places in the waiting room. A permit moves into
the work, which outlives a caller that is cancelled. Neither semaphore is ever closed. -/

namespace CpuAdmission

open Semaphores Runs

inductive AdmissionError where
  | queueFull | timedOut | closed | join
  deriving DecidableEq

/-- Where a call of `run` stands. -/
inductive Phase where
  /-- no permit was free -/
  | refused
  /-- it has a place in the waiting room -/
  | admitted
  /-- it waits for a permit -/
  | queued
  /-- it was given a permit and has not gone on yet -/
  | granted
  /-- its work runs and it waits for the result -/
  | executing
  /-- its work runs and nobody waits for the result -/
  | detached
  deriving DecidableEq

def Phase.working : Phase → Bool
  | .executing | .detached => true
  | _ => false

/-- It holds a permit of `running`. -/
def Phase.holdsRunning : Phase → Bool
  | .granted | .executing | .detached => true
  | _ => false

/-- It holds a permit of `waiting`. -/
def Phase.holdsWaiting : Phase → Bool
  | .admitted | .queued | .granted => true
  | _ => false

structure Call where
  id : ℕ
  phase : Phase

def Call.move (phase : Phase) (c : Call) : Call := { c with phase := phase }

theorem Call.move_id (phase : Phase) (c : Call) : (c.move phase).id = c.id := rfl

structure Admission where
  running : Semaphore ℕ
  waiting : Semaphore ℕ
  calls : Table ℕ Call Call.id
  answers : List (ℕ × Except AdmissionError Unit)

/-- `CpuAdmission::new` -/
def new (concurrency queueCapacity : ℕ) : Admission :=
  ⟨.new concurrency, .new queueCapacity, .empty, []⟩

namespace Admission

def phase (s : Admission) (t : ℕ) : Option Phase := (s.calls.find t).map Call.phase

def holding (s : Admission) (p : Phase → Bool) : ℕ := s.calls.count fun c => p c.phase

def move (s : Admission) (t : ℕ) (phase : Phase) : Admission :=
  { s with
    calls := s.calls.update (fun c => decide (c.id = t)) (Call.move phase) (Call.move_id phase) }

/-- The call is over. -/
def drop (s : Admission) (t : ℕ) : Admission :=
  { s with calls := s.calls.delete fun c => decide (c.id = t) }

def answer (s : Admission) (t : ℕ) (r : Except AdmissionError Unit) : Admission :=
  { s.drop t with answers := s.answers ++ [(t, r)] }

/-- A permit of `running` is dropped; the first of the queue has it then. -/
def releaseRunning (s : Admission) : Admission :=
  match s.running.release with
  | (running, none) => { s with running := running }
  | (running, some u) => { s with running := running }.move u .granted

/-- A permit of `waiting` is dropped; nobody ever waits for one. -/
def releaseWaiting (s : Admission) : Admission := { s with waiting := s.waiting.release.1 }

/-- `drop(waiting)`, and the work is spawned. -/
def proceed (s : Admission) (t : ℕ) : Admission := s.releaseWaiting.move t .executing

/-- The future of a queued call is dropped, with its place in the waiting room. -/
def giveUp (s : Admission) (t : ℕ) : Admission :=
  { s.releaseWaiting with running := s.running.leave t }

end Admission

inductive Event where
  /-- `run` is called and tries to get a permit. -/
  | call (t : ℕ)
  /-- It tries to get into the waiting room. -/
  | enter (t : ℕ)
  /-- It asks for a permit and waits. -/
  | acquire (t : ℕ)
  /-- It goes on with the permit. -/
  | resume (t : ℕ)
  /-- Its time is up. A permit that is there by then counts. -/
  | expire (t : ℕ)
  /-- The caller is cancelled, where it waits for something. -/
  | cancel (t : ℕ)
  /-- The work ends. -/
  | finish (t : ℕ) (panicked : Bool)

def step (s : Admission) : Event → Admission
  | .call t =>
    match s.running.tryAcquire with
    | some running =>
      (s.calls.insert ⟨t, .executing⟩).elim s fun calls =>
        { s with running := running, calls := calls }
    | none => (s.calls.insert ⟨t, .refused⟩).elim s fun calls => { s with calls := calls }
  | .enter t =>
    match s.phase t with
    | some .refused =>
      match s.waiting.tryAcquire with
      | some waiting => { s with waiting := waiting }.move t .admitted
      | none => s.answer t (.error .queueFull)
    | _ => s
  | .acquire t =>
    match s.phase t with
    | some .admitted =>
      match s.running.acquire t with
      | (running, true) => { s with running := running }.move t .granted
      | (running, false) => { s with running := running }.move t .queued
    | _ => s
  | .resume t =>
    match s.phase t with
    | some .granted => s.proceed t
    | _ => s
  | .expire t =>
    match s.phase t with
    | some .queued => (s.giveUp t).answer t (.error .timedOut)
    | some .granted => s.proceed t
    | _ => s
  | .cancel t =>
    match s.phase t with
    | some .queued => (s.giveUp t).drop t
    | some .granted => (s.drop t).releaseWaiting.releaseRunning
    | some .executing => s.move t .detached
    | _ => s
  | .finish t panicked =>
    match s.phase t with
    | some .executing =>
      (s.answer t (if panicked then .error .join else .ok ())).releaseRunning
    | some .detached => (s.drop t).releaseRunning
    | _ => s

section Calls

variable {s : Admission} {t u : ℕ} {old : Phase} {p : Phase → Bool}

theorem find_of_phase (h : s.phase t = some old) : s.calls.find t = some ⟨t, old⟩ := by
  obtain ⟨c, found, rfl⟩ := Option.map_eq_some_iff.mp h
  obtain ⟨-, rfl⟩ := Table.find_eq_some.mp found
  exact found

theorem phase_move (h : s.phase t = some old) (new : Phase) :
    (s.move t new).phase u = if u = t then some new else s.phase u := by
  simp only [Admission.phase, Admission.move, Table.find_update]
  split_ifs with same
  · rw [same, find_of_phase h]
    simp [Call.move]
  · cases found : s.calls.find u with
    | none => rfl
    | some c =>
      obtain ⟨-, rfl⟩ := Table.find_eq_some.mp found
      simp [same]

theorem phase_drop : (s.drop t).phase u = if u = t then none else s.phase u := by
  simp only [Admission.phase, Admission.drop, Table.find_delete]
  cases found : s.calls.find u with
  | none => simp
  | some c =>
    obtain ⟨-, rfl⟩ := Table.find_eq_some.mp found
    by_cases same : c.id = t <;> simp [same, Option.filter]

theorem holding_move (h : s.phase t = some old) (new : Phase) (p : Phase → Bool) :
    (s.move t new).holding p + (if p old then 1 else 0) =
      s.holding p + if p new then 1 else 0 :=
  Table.count_update_key (find_of_phase h) (Call.move new) (Call.move_id new) fun c => p c.phase

theorem holding_drop (h : s.phase t = some old) (p : Phase → Bool) :
    (s.drop t).holding p + (if p old then 1 else 0) = s.holding p :=
  Table.count_delete_key (find_of_phase h) fun c => p c.phase

theorem releaseRunning_alone (h : s.running.waiters = []) :
    s.releaseRunning = { s with running := s.running.release.1 } := by
  have nobody := (Semaphore.release_alone h).2.2
  unfold Admission.releaseRunning
  split
  · rename_i split
    rw [split]
  · rename_i split
    rw [split] at nobody
    cases nobody

theorem releaseRunning_next {rest : List ℕ} (h : s.running.waiters = u :: rest) :
    s.releaseRunning = { s with running := s.running.release.1 }.move u .granted := by
  have next := (Semaphore.release_head h).2.2
  unfold Admission.releaseRunning
  split
  · rename_i split
    rw [split] at next
    cases next
  · rename_i split
    rw [split] at next ⊢
    rw [← Option.some.inj next]

end Calls

/-! ### The permits -/

/-- The permits of `running` come to `concurrency`, the places of the waiting room to `capacity`,
and the queue of `running` has the calls that wait for a permit. -/
structure Sound (concurrency capacity : ℕ) (s : Admission) : Prop where
  running : s.running.permits + s.holding Phase.holdsRunning = concurrency
  waiting : s.waiting.permits + s.holding Phase.holdsWaiting = capacity
  room : s.waiting.waiters = []
  queue : ∀ t, t ∈ s.running.waiters ↔ s.phase t = some .queued
  nodup : s.running.waiters.Nodup

section Permits

variable {s : Admission} {t : ℕ} {old new : Phase} {c q c' q' : ℕ}

theorem Sound.drop (sound : Sound c q s) (h : s.phase t = some old) (settled : old ≠ .queued)
    (hc : c = c' + if old.holdsRunning then 1 else 0)
    (hq : q = q' + if old.holdsWaiting then 1 else 0) : Sound c' q' (s.drop t) := by
  have running := holding_drop h Phase.holdsRunning
  have waiting := holding_drop h Phase.holdsWaiting
  have total := sound.running
  have places := sound.waiting
  refine ⟨?_, ?_, sound.room, fun u => ?_, sound.nodup⟩
  · change s.running.permits + _ = _
    omega
  · change s.waiting.permits + _ = _
    omega
  · rw [phase_drop, show (s.drop t).running = s.running from rfl, sound.queue u]
    split_ifs with same
    · rw [same, h]
      simpa using settled
    · rfl

theorem Sound.move (sound : Sound c q s) (h : s.phase t = some old) (settled : old ≠ .queued)
    (onward : new ≠ .queued)
    (hc : c + (if new.holdsRunning then 1 else 0) = c' + if old.holdsRunning then 1 else 0)
    (hq : q + (if new.holdsWaiting then 1 else 0) = q' + if old.holdsWaiting then 1 else 0) :
    Sound c' q' (s.move t new) := by
  have running := holding_move h new Phase.holdsRunning
  have waiting := holding_move h new Phase.holdsWaiting
  have total := sound.running
  have places := sound.waiting
  refine ⟨?_, ?_, sound.room, fun u => ?_, sound.nodup⟩
  · change s.running.permits + _ = _
    omega
  · change s.waiting.permits + _ = _
    omega
  · rw [phase_move h, show (s.move t new).running = s.running from rfl, sound.queue u]
    split_ifs with same
    · rw [same, h]
      simp [settled, onward]
    · rfl

theorem Sound.answer {r : Except AdmissionError Unit} (sound : Sound c q (s.drop t)) :
    Sound c q (s.answer t r) :=
  ⟨sound.running, sound.waiting, sound.room, sound.queue, sound.nodup⟩

/-- A permit that was held by nobody comes back. -/
theorem Sound.releaseRunning (sound : Sound c q s) : Sound (c + 1) q s.releaseRunning := by
  have total := sound.running
  cases waits : s.running.waiters with
  | nil =>
    obtain ⟨permits, none, -⟩ := Semaphore.release_alone waits
    rw [releaseRunning_alone waits]
    refine ⟨?_, sound.waiting, sound.room, fun u => ?_, ?_⟩
    · change s.running.release.1.permits + s.holding _ = _
      omega
    · change u ∈ s.running.release.1.waiters ↔ _
      rw [none, ← waits]
      exact sound.queue u
    · change s.running.release.1.waiters.Nodup
      rw [none]
      exact List.nodup_nil
  | cons first rest =>
    obtain ⟨permits, later, -⟩ := Semaphore.release_head waits
    have queued : s.phase first = some .queued :=
      (sound.queue first).mp (by rw [waits]; exact List.mem_cons_self)
    have distinct := sound.nodup
    rw [waits, List.nodup_cons] at distinct
    rw [releaseRunning_next waits]
    have running : ({ s with running := s.running.release.1 }.move first .granted).holding
        Phase.holdsRunning = s.holding Phase.holdsRunning + 1 :=
      holding_move (s := { s with running := s.running.release.1 }) queued .granted
        Phase.holdsRunning
    have waiting : ({ s with running := s.running.release.1 }.move first .granted).holding
        Phase.holdsWaiting + 1 = s.holding Phase.holdsWaiting + 1 :=
      holding_move (s := { s with running := s.running.release.1 }) queued .granted
        Phase.holdsWaiting
    refine ⟨?_, ?_, sound.room, fun u => ?_, ?_⟩
    · change s.running.release.1.permits + _ = _
      omega
    · change s.waiting.permits + _ = _
      rw [Nat.add_right_cancel waiting]
      exact sound.waiting
    · change u ∈ s.running.release.1.waiters ↔ _
      rw [later, phase_move (s := { s with running := s.running.release.1 }) queued]
      have listed : u ∈ first :: rest ↔ s.phase u = some .queued := waits ▸ sound.queue u
      split_ifs with same
      · rw [same]
        exact iff_of_false distinct.1 (by simp)
      · exact (List.mem_cons.trans (or_iff_right same)).symm.trans listed
    · change s.running.release.1.waiters.Nodup
      rw [later]
      exact distinct.2

/-- A place of the waiting room that was held by nobody comes back. -/
theorem Sound.releaseWaiting (sound : Sound c q s) : Sound c (q + 1) s.releaseWaiting := by
  obtain ⟨places, none, -⟩ := Semaphore.release_alone sound.room
  have total := sound.waiting
  refine ⟨sound.running, ?_, none, sound.queue, sound.nodup⟩
  change s.waiting.release.1.permits + s.holding _ = _
  omega

theorem Sound.takeRunning {running : Semaphore ℕ} (sound : Sound (c + 1) q s)
    (taken : s.running.tryAcquire = some running) : Sound c q { s with running := running } := by
  obtain ⟨permits, waiters⟩ := Semaphore.tryAcquire_eq_some.mp taken
  have total := sound.running
  refine ⟨?_, sound.waiting, sound.room, fun u => ?_, ?_⟩
  · change running.permits + s.holding _ = _
    omega
  · exact waiters ▸ sound.queue u
  · exact waiters ▸ sound.nodup

theorem Sound.takeWaiting {waiting : Semaphore ℕ} (sound : Sound c (q + 1) s)
    (taken : s.waiting.tryAcquire = some waiting) : Sound c q { s with waiting := waiting } := by
  obtain ⟨places, waiters⟩ := Semaphore.tryAcquire_eq_some.mp taken
  have total := sound.waiting
  refine ⟨sound.running, ?_, waiters.trans sound.room, sound.queue, sound.nodup⟩
  change waiting.permits + s.holding _ = _
  omega

theorem Sound.insert {calls : Table ℕ Call Call.id} (sound : Sound c q s)
    (inserted : s.calls.insert ⟨t, new⟩ = some calls) (waits : new ≠ .queued)
    (hc : c + (if new.holdsRunning then 1 else 0) = c')
    (hq : q + (if new.holdsWaiting then 1 else 0) = q') : Sound c' q' { s with calls := calls } := by
  have running := Table.count_insert inserted fun c => c.phase.holdsRunning
  have waiting := Table.count_insert inserted fun c => c.phase.holdsWaiting
  refine ⟨?_, ?_, sound.room, fun u => ?_, sound.nodup⟩
  · rw [← hc, ← sound.running, Nat.add_assoc]
    exact congrArg _ running
  · rw [← hq, ← sound.waiting, Nat.add_assoc]
    exact congrArg _ waiting
  · change u ∈ s.running.waiters ↔ (calls.find u).map Call.phase = _
    rw [sound.queue u, Table.find_insert inserted]
    split_ifs with same
    · have fresh := (Table.insert_eq_some.mp inserted).1
      rw [same] at fresh
      rw [Admission.phase, fresh]
      simp [waits]
    · rfl

/-- A call joins the queue. -/
theorem Sound.enqueue {running : Semaphore ℕ} (sound : Sound c q s)
    (h : s.phase t = some .admitted) (taken : s.running.permits = 0) (none : running.permits = 0)
    (joined : running.waiters = s.running.waiters ++ [t]) :
    Sound c q ({ s with running := running }.move t .queued) := by
  have works : ({ s with running := running }.move t .queued).holding Phase.holdsRunning =
      s.holding Phase.holdsRunning :=
    holding_move (s := { s with running := running }) h .queued Phase.holdsRunning
  have waits : ({ s with running := running }.move t .queued).holding Phase.holdsWaiting + 1 =
      s.holding Phase.holdsWaiting + 1 :=
    holding_move (s := { s with running := running }) h .queued Phase.holdsWaiting
  have absent : t ∉ s.running.waiters := fun listed => by
    rw [sound.queue t, h] at listed
    cases listed
  refine ⟨?_, ?_, sound.room, fun u => ?_, ?_⟩
  · change running.permits + _ = _
    rw [works, none, ← sound.running, taken]
  · change s.waiting.permits + _ = _
    rw [Nat.add_right_cancel waits]
    exact sound.waiting
  · change u ∈ running.waiters ↔ _
    rw [joined, phase_move (s := { s with running := running }) h, List.mem_append,
      List.mem_singleton]
    split_ifs with same
    · simp [same]
    · rw [or_iff_left same]
      exact sound.queue u
  · change running.waiters.Nodup
    rw [joined, List.nodup_append]
    refine ⟨sound.nodup, List.nodup_singleton t, fun a ha b hb same => ?_⟩
    rw [List.mem_singleton.mp hb] at same
    exact absent (same ▸ ha)

/-- A call leaves the queue and is over. -/
theorem Sound.giveUp (sound : Sound c q s) (h : s.phase t = some .queued) :
    Sound c q ((s.giveUp t).drop t) := by
  have running := holding_drop (s := s.giveUp t) h Phase.holdsRunning
  have waiting := holding_drop (s := s.giveUp t) h Phase.holdsWaiting
  obtain ⟨places, none, -⟩ := Semaphore.release_alone sound.room
  have places' : (s.giveUp t).waiting.permits = s.waiting.permits + 1 := places
  have total := sound.waiting
  refine ⟨?_, ?_, none, fun u => ?_, sound.nodup.erase t⟩
  · exact (congrArg _ running).trans sound.running
  · change (s.giveUp t).waiting.permits + _ = _
    change _ + 1 = s.holding _ at waiting
    omega
  · change u ∈ s.running.waiters.erase t ↔ _
    rw [phase_drop, sound.nodup.mem_erase_iff, sound.queue u]
    split_ifs with same
    · simp [same]
    · exact and_iff_right same

theorem Sound.some_running (sound : Sound c q s)
    (h : s.running.permits ≠ 0 ∨ ∃ old, s.phase t = some old ∧ old.holdsRunning = true) :
    ∃ rest, c = rest + 1 := by
  have total := sound.running
  rcases h with free | ⟨old, there, holds⟩
  · exact ⟨c - 1, by omega⟩
  · have rest := holding_drop there Phase.holdsRunning
    rw [if_pos holds] at rest
    exact ⟨c - 1, by omega⟩

theorem Sound.some_waiting (sound : Sound c q s)
    (h : s.waiting.permits ≠ 0 ∨ ∃ old, s.phase t = some old ∧ old.holdsWaiting = true) :
    ∃ rest, q = rest + 1 := by
  have total := sound.waiting
  rcases h with free | ⟨old, there, holds⟩
  · exact ⟨q - 1, by omega⟩
  · have rest := holding_drop there Phase.holdsWaiting
    rw [if_pos holds] at rest
    exact ⟨q - 1, by omega⟩

end Permits

theorem new_sound (concurrency capacity : ℕ) :
    Sound concurrency capacity (new concurrency capacity) :=
  ⟨rfl, rfl, rfl, fun _ => iff_of_false List.not_mem_nil (by rintro ⟨⟩), List.nodup_nil⟩

theorem step_sound {s : Admission} {c q : ℕ} (sound : Sound c q s) (e : Event) :
    Sound c q (step s e) := by
  cases e with
  | call t =>
    simp only [step]
    cases taken : s.running.tryAcquire with
    | some running =>
      cases inserted : s.calls.insert ⟨t, .executing⟩ with
      | none => exact sound
      | some calls =>
        have permits := (Semaphore.tryAcquire_eq_some.mp taken).1
        obtain ⟨rest, rfl⟩ := sound.some_running (t := t) (.inl (by omega))
        exact (sound.takeRunning taken).insert inserted (by simp) rfl rfl
    | none =>
      cases inserted : s.calls.insert ⟨t, .refused⟩ with
      | none => exact sound
      | some calls => exact sound.insert inserted (by simp) rfl rfl
  | enter t =>
    simp only [step]
    split
    · rename_i refused
      cases taken : s.waiting.tryAcquire with
      | some waiting =>
        have places := (Semaphore.tryAcquire_eq_some.mp taken).1
        obtain ⟨rest, rfl⟩ := sound.some_waiting (t := t) (.inl (by omega))
        exact (sound.takeWaiting taken).move refused (by simp) (by simp) rfl rfl
      | none => exact (sound.drop refused (by simp) rfl rfl).answer
    · exact sound
  | acquire t =>
    simp only [step]
    split
    · rename_i admitted
      by_cases taken : s.running.permits = 0
      · obtain ⟨running, acquired, none, joined⟩ := Semaphore.acquire_taken (a := t) taken
        rw [acquired]
        exact sound.enqueue admitted taken none joined
      · obtain ⟨running, acquired, free⟩ := Semaphore.acquire_free (a := t) taken
        obtain ⟨rest, rfl⟩ := sound.some_running (t := t) (.inl taken)
        rw [acquired]
        exact (sound.takeRunning free).move admitted (by simp) (by simp) rfl rfl
    · exact sound
  | resume t =>
    simp only [step]
    split
    · rename_i granted
      exact sound.releaseWaiting.move granted (by simp) (by simp) rfl rfl
    · exact sound
  | expire t =>
    simp only [step]
    split
    · rename_i queued
      exact (sound.giveUp queued).answer
    · rename_i granted
      exact sound.releaseWaiting.move granted (by simp) (by simp) rfl rfl
    · exact sound
  | cancel t =>
    simp only [step]
    split
    · rename_i queued
      exact sound.giveUp queued
    · rename_i granted
      obtain ⟨_, rfl⟩ := sound.some_running (.inr ⟨_, granted, rfl⟩)
      obtain ⟨_, rfl⟩ := sound.some_waiting (.inr ⟨_, granted, rfl⟩)
      exact (sound.drop granted (by simp) rfl rfl).releaseWaiting.releaseRunning
    · rename_i executing
      exact sound.move executing (by simp) (by simp) rfl rfl
    · exact sound
  | finish t panicked =>
    simp only [step]
    split
    · rename_i executing
      obtain ⟨_, rfl⟩ := sound.some_running (.inr ⟨_, executing, rfl⟩)
      exact (sound.drop executing (by simp) rfl rfl).answer.releaseRunning
    · rename_i detached
      obtain ⟨_, rfl⟩ := sound.some_running (.inr ⟨_, detached, rfl⟩)
      exact (sound.drop detached (by simp) rfl rfl).releaseRunning
    · exact sound

theorem run_sound (concurrency capacity : ℕ) (events : List Event) :
    Sound concurrency capacity (run step (new concurrency capacity) events) :=
  run_invariant (I := Sound concurrency capacity) (fun _ e sound _ => step_sound sound e)
    (new_sound concurrency capacity) (along_true _ events)

/-- No more work runs than there are permits and no more calls wait than there are places; nobody
waits while a permit is free; a call is turned away exactly when the waiting room is full; and when
all calls are over, every permit is back. -/
theorem admission_bounds (concurrency capacity : ℕ) (events : List Event) :
    let s := run step (new concurrency capacity) events
    s.holding Phase.working ≤ concurrency ∧ s.holding Phase.holdsWaiting ≤ capacity ∧
      (s.running.waiters ≠ [] → s.holding Phase.holdsRunning = concurrency) ∧
      (∀ t, s.phase t = some .refused →
        ((step s (.enter t)).answers = s.answers ++ [(t, .error .queueFull)] ↔
          s.holding Phase.holdsWaiting = capacity)) ∧
      (s.calls.rows = [] → s.running.permits = concurrency ∧ s.waiting.permits = capacity) := by
  intro s
  have sound : Sound concurrency capacity s := run_sound concurrency capacity events
  have running := sound.running
  have waiting := sound.waiting
  have works : s.holding Phase.working ≤ s.holding Phase.holdsRunning :=
    List.countP_mono_left fun c _ => by cases c.phase <;> simp [Phase.working, Phase.holdsRunning]
  refine ⟨by omega, by omega, fun waits => ?_, fun t refused => ?_, fun none => ?_⟩
  · have taken := s.running.fair waits
    omega
  · simp only [step, refused]
    cases taken : s.waiting.tryAcquire with
    | none =>
      have full := Semaphore.tryAcquire_eq_none.mp taken
      exact iff_of_true rfl (by omega)
    | some room =>
      have free := (Semaphore.tryAcquire_eq_some.mp taken).1
      refine iff_of_false (fun same => ?_) (by omega)
      have longer := congrArg List.length same
      rw [List.length_append] at longer
      exact absurd longer (Nat.ne_of_lt (Nat.lt_succ_self s.answers.length))
  · have nobody : ∀ p, s.holding p = 0 := fun p => by
      rw [Admission.holding, Table.count, none]
      rfl
    rw [nobody] at running waiting
    exact ⟨running, waiting⟩

/-! ### The order of the queue -/

def Holds (s : Admission) (u : ℕ) : Prop := ∃ p, s.phase u = some p ∧ p.holdsRunning = true

/-- From `s` to `s'`, `n` permits have come back to the queue that `t` is in, and only those who
were before `t` have got a permit. -/
structure Advanced (t : ℕ) (s s' : Admission) (n : ℕ) : Prop where
  places : (before t s'.running.waiters).length + n ≤ (before t s.running.waiters).length
  nobody : ∀ u ∈ before t s'.running.waiters, u ∈ before t s.running.waiters
  holders : ∀ u, Holds s' u → Holds s u ∨ u ∈ before t s.running.waiters

section Order

variable {s s' s'' : Admission} {t u v n m : ℕ} {old new : Phase} {c q : ℕ}

theorem Advanced.trans (first : Advanced t s s' m) (later : Advanced t s' s'' n) :
    Advanced t s s'' (m + n) := by
  refine ⟨?_, fun u hu => first.nobody u (later.nobody u hu), fun u hu => ?_⟩
  · have := first.places
    have := later.places
    omega
  · rcases later.holders u hu with held | waited
    · exact first.holders u held
    · exact .inr (first.nobody u waited)

theorem Advanced.still (same : s'.running.waiters = s.running.waiters)
    (held : ∀ u, Holds s' u → Holds s u) : Advanced t s s' 0 := by
  refine ⟨?_, fun u hu => ?_, fun u hu => .inl (held u hu)⟩
  · rw [same, Nat.add_zero]
  · rwa [same] at hu

theorem Advanced.answer {r : Except AdmissionError Unit} (h : Advanced t s (s'.drop v) n) :
    Advanced t s (s'.answer v r) n :=
  ⟨h.places, h.nobody, h.holders⟩

theorem holds_move (h : s.phase t = some old)
    (kept : new.holdsRunning = true → old.holdsRunning = true) (held : Holds (s.move t new) u) :
    Holds s u := by
  obtain ⟨p, there, holds⟩ := held
  rw [phase_move h] at there
  split_ifs at there with same
  · cases there
    exact same ▸ ⟨old, h, kept holds⟩
  · exact ⟨p, there, holds⟩

theorem holds_drop (held : Holds (s.drop t) u) : Holds s u := by
  obtain ⟨p, there, holds⟩ := held
  rw [phase_drop] at there
  split_ifs at there
  exact ⟨p, there, holds⟩

theorem holds_insert {calls : Table ℕ Call Call.id} (inserted : s.calls.insert ⟨t, new⟩ = some calls)
    (empty : new.holdsRunning = false) (held : Holds { s with calls := calls } u) : Holds s u := by
  obtain ⟨p, there, holds⟩ := held
  change (calls.find u).map Call.phase = some p at there
  rw [Table.find_insert inserted] at there
  split_ifs at there
  · cases there
    rw [empty] at holds
    cases holds
  · exact ⟨p, there, holds⟩

theorem advanced_release (sound : Sound c q s) (waits : t ∈ s.running.waiters)
    (stays : t ∈ s.releaseRunning.running.waiters) : Advanced t s s.releaseRunning 1 := by
  cases line : s.running.waiters with
  | nil =>
    rw [line] at waits
    cases waits
  | cons first rest =>
    have queued : s.phase first = some .queued :=
      (sound.queue first).mp (by rw [line]; exact List.mem_cons_self)
    have distinct := sound.nodup
    rw [line, List.nodup_cons] at distinct
    have later : s.releaseRunning.running.waiters = rest := by
      rw [releaseRunning_next line]
      exact (Semaphore.release_head line).2.1
    rw [later] at stays
    have other : first ≠ t := fun same => distinct.1 (same ▸ stays)
    have split : before t (first :: rest) = first :: before t rest := before_tail other
    refine ⟨?_, fun u hu => ?_, fun u hu => ?_⟩
    · rw [later, line, split, List.length_cons]
    · rw [later] at hu
      rw [line, split]
      exact List.mem_cons_of_mem first hu
    · rw [line, split]
      obtain ⟨p, there, holds⟩ := hu
      rw [releaseRunning_next line,
        phase_move (s := { s with running := s.running.release.1 }) queued] at there
      split_ifs at there with same
      · exact .inr (same ▸ List.mem_cons_self)
      · exact .inl ⟨p, there, holds⟩

theorem advanced_enqueue {running : Semaphore ℕ} (waits : t ∈ s.running.waiters)
    (h : s.phase v = some .admitted) (joined : running.waiters = s.running.waiters ++ [v]) :
    Advanced t s ({ s with running := running }.move v .queued) 0 := by
  have line : before t ({ s with running := running }.move v .queued).running.waiters =
      before t s.running.waiters :=
    (congrArg _ joined).trans (before_append waits [v])
  refine ⟨?_, fun u hu => ?_, fun u hu => .inl ?_⟩
  · rw [line, Nat.add_zero]
  · rwa [line] at hu
  · exact holds_move (s := { s with running := running }) h (by simp [Phase.holdsRunning]) hu

theorem advanced_giveUp (sound : Sound c q s) (waits : t ∈ s.running.waiters)
    (stays : t ∈ (s.giveUp v).running.waiters) : Advanced t s ((s.giveUp v).drop v) 0 := by
  have other : v ≠ t := fun same => (sound.nodup.mem_erase_iff.mp stays).1 same.symm
  have line : before t ((s.giveUp v).drop v).running.waiters =
      (before t s.running.waiters).erase v := before_erase waits other
  refine ⟨?_, fun u hu => ?_, fun u hu => .inl (holds_drop hu)⟩
  · rw [line, Nat.add_zero]
    exact List.length_erase_le
  · rw [line] at hu
    exact List.mem_of_mem_erase hu

/-- The work that the event ends. -/
def ends (s : Admission) : Event → ℕ
  | .finish v _ => if (s.phase v).any Phase.working then 1 else 0
  | _ => 0

theorem step_advances (sound : Sound c q s) (waits : t ∈ s.running.waiters) (e : Event)
    (stays : t ∈ (step s e).running.waiters) : Advanced t s (step s e) (ends s e) := by
  have taken : s.running.permits = 0 := s.running.fair (List.ne_nil_of_mem waits)
  cases e with
  | call v =>
    simp only [step, Semaphore.tryAcquire_eq_none.mpr taken] at stays ⊢
    cases inserted : s.calls.insert ⟨v, .refused⟩ with
    | none => exact .still rfl fun _ held => held
    | some calls => exact .still rfl fun _ held => holds_insert inserted rfl held
  | enter v =>
    simp only [step]
    split
    · rename_i refused
      split
      · rename_i waiting _
        exact .still rfl fun _ => holds_move (s := { s with waiting := waiting }) refused
          (by simp [Phase.holdsRunning])
      · exact .still rfl fun _ => holds_drop
    · exact .still rfl fun _ held => held
  | acquire v =>
    simp only [step]
    split
    · rename_i admitted
      obtain ⟨running, acquired, -, joined⟩ := Semaphore.acquire_taken (a := v) taken
      rw [acquired]
      exact advanced_enqueue waits admitted joined
    · exact .still rfl fun _ held => held
  | resume v =>
    simp only [step]
    split
    · rename_i granted
      exact .still rfl fun _ => holds_move (s := s.releaseWaiting) granted fun _ => rfl
    · exact .still rfl fun _ held => held
  | expire v =>
    simp only [step] at stays ⊢
    split at stays
    · exact (advanced_giveUp sound waits stays).answer
    · rename_i granted
      exact .still rfl fun _ => holds_move (s := s.releaseWaiting) granted fun _ => rfl
    · exact .still rfl fun _ held => held
  | cancel v =>
    simp only [step] at stays ⊢
    split at stays
    · exact advanced_giveUp sound waits stays
    · rename_i granted
      obtain ⟨_, rfl⟩ := sound.some_running (.inr ⟨_, granted, rfl⟩)
      obtain ⟨_, rfl⟩ := sound.some_waiting (.inr ⟨_, granted, rfl⟩)
      have dropped : Advanced t s (s.drop v).releaseWaiting 0 := .still rfl fun _ => holds_drop
      have released := advanced_release (sound.drop granted (by simp) rfl rfl).releaseWaiting waits
        stays
      have both := dropped.trans released
      exact ⟨Nat.le_trans (Nat.le_add_right _ 1) both.places, both.nobody, both.holders⟩
    · rename_i executing
      exact .still rfl fun _ => holds_move executing fun _ => rfl
    · exact .still rfl fun _ held => held
  | finish v panicked =>
    simp only [step, ends] at stays ⊢
    split at stays
    · rename_i executing
      obtain ⟨_, rfl⟩ := sound.some_running (.inr ⟨_, executing, rfl⟩)
      rw [executing]
      have dropped : Advanced t s
          (s.answer v (if panicked then .error .join else .ok ())) 0 := .still rfl fun _ => holds_drop
      exact dropped.trans
        (advanced_release (sound.drop executing (by simp) rfl rfl).answer waits stays)
    · rename_i detached
      obtain ⟨_, rfl⟩ := sound.some_running (.inr ⟨_, detached, rfl⟩)
      rw [detached]
      have dropped : Advanced t s (s.drop v) 0 := .still rfl fun _ => holds_drop
      exact dropped.trans (advanced_release (sound.drop detached (by simp) rfl rfl) waits stays)
    · rename_i idle not
      cases there : s.phase v with
      | none => exact .still rfl fun _ held => held
      | some p =>
        cases p with
        | executing => exact absurd there idle
        | detached => exact absurd there not
        | _ => exact .still rfl fun _ held => held

/-- The work that ends in the course of a run. -/
def ended : Admission → List Event → ℕ
  | _, [] => 0
  | s, e :: events => ends s e + ended (step s e) events

theorem run_advances (sound : Sound c q s) (waits : t ∈ s.running.waiters) {events : List Event}
    (stays : Along step (fun s e => t ∈ (step s e).running.waiters) s events) :
    Advanced t s (run step s events) (ended s events) := by
  induction events generalizing s with
  | nil => exact .still rfl fun _ held => held
  | cons e events ih =>
    exact (step_advances sound waits e stays.1).trans (ih (step_sound sound e) stays.1 stays.2)

end Order

/-- Each call in the queue has a place of the waiting room. -/
theorem length_waiters_le {s : Admission} {c q : ℕ} (sound : Sound c q s) :
    s.running.waiters.length ≤ s.holding Phase.holdsWaiting := by
  rw [Admission.holding, Table.count, List.countP_eq_length_filter, ← List.length_map Call.id]
  refine (List.subperm_of_subset sound.nodup fun t listed => ?_).length_le
  have found := find_of_phase ((sound.queue t).mp listed)
  have member := (Table.find_eq_some.mp found).1
  exact List.mem_map.mpr ⟨_, List.mem_filter.mpr ⟨member, rfl⟩, rfl⟩

/-- A call that waits is passed by nobody: those who get a permit while it is in the queue were
there before it, and fewer pieces of work end meanwhile than the waiting room has places. -/
theorem admission_fifo (concurrency capacity : ℕ) (events more : List Event) (t : ℕ)
    (waits : t ∈ (run step (new concurrency capacity) events).running.waiters)
    (stays : Along step (fun s e => t ∈ (step s e).running.waiters)
      (run step (new concurrency capacity) events) more) :
    let s := run step (new concurrency capacity) events
    ended s more < capacity ∧
      ∀ u, Holds (run step s more) u → Holds s u ∨ u ∈ before t s.running.waiters := by
  intro s
  have sound : Sound concurrency capacity s := run_sound concurrency capacity events
  have advanced : Advanced t s (run step s more) (ended s more) := run_advances sound waits stays
  have inside : (before t s.running.waiters).length < s.running.waiters.length :=
    length_before_lt waits
  have places := advanced.places
  have line := length_waiters_le sound
  have total := sound.waiting
  exact ⟨by omega, advanced.holders⟩

/-- Two calls fill the pool and the waiting room, and a third one is turned away. -/
def burst : List Event := [.call 1, .call 2, .enter 2, .acquire 2, .call 3, .enter 3]

theorem burst_waits : ended (run step (new 1 1) burst) [.cancel 1] < 1 ∧
    ∀ u, Holds (run step (run step (new 1 1) burst) [.cancel 1]) u →
      Holds (run step (new 1 1) burst) u ∨ u ∈ before 2 (run step (new 1 1) burst).running.waiters :=
  admission_fifo 1 1 burst [.cancel 1] 2 (by decide) ⟨by decide, trivial⟩

example : (run step (new 1 1) burst).answers = [(3, .error .queueFull)] := rfl

end CpuAdmission
