import BikesNest.Interleaving
import BikesNest.Photos

/-! The sweep over pending photos without an object, beside the moderators. It reads the pending
rows of a table once, asks the object store about each of them, and deletes those that have lost
their object; a moderator may have decided in the meantime. -/

namespace PhotoReconcile

open Parking Photos Interleaving

/-- `PENDING_RECONCILE_GRACE`, an hour. -/
def pendingReconcileGrace : ℤ := 3600000000

/-- A run of the sweep: it looks at the rows older than `cutoff`. -/
structure Sweep where
  cutoff : Instant
  deleted : ℕ
  deriving DecidableEq

/-- A photo by its table and identity. -/
abbrev PhotoId := PhotoKind × ℕ

inductive Phase where
  | list (sweep : Sweep) (kind : PhotoKind)
  | probe (sweep : Sweep) (photo : PhotoId) (key : String) (rest : List (ℕ × String))
  | delete (sweep : Sweep) (photo : PhotoId) (rest : List (ℕ × String))
  | getApproved (photo : PhotoId) (moderator : UserId)
  | approve (photo : PhotoId) (moderator : UserId)
  | getRejected (photo : PhotoId) (moderator : UserId) (reason : String)
  | reject (photo : PhotoId) (moderator : UserId) (reason : String)
  | deleteFull (full : String) (thumb : Option String)
  | deleteThumb (thumb : String)

inductive Call where
  | reconcilePendingPhotos (now : Instant)
  | approvePhoto (photo : PhotoId) (moderator : UserId)
  | rejectPhoto (photo : PhotoId) (moderator : UserId) (reason : String)

inductive PhotoError where
  | notFound
  | notPending
  | invalidField (message : String)
  | storage
  deriving DecidableEq

/-- A sweep returns how many rows it has deleted. -/
abbrev Reply := Except PhotoError ℕ

/-- The time of a statement, and the answer of the object store when it is asked. -/
structure Input where
  now : Instant
  answer : Answer

/-- The next row of the batch, or the next table. -/
def resume (sweep : Sweep) (kind : PhotoKind) : List (ℕ × String) → Progress Phase Reply
  | (id, key) :: rest => .next (.probe sweep (kind, id) key rest)
  | [] =>
    match kind with
    | .parking => .next (.list sweep .review)
    | .review => .done (.ok sweep.deleted)

/-- `SELECT id, storage_key … WHERE moderation_state = 'PENDING_REVIEW' AND created_at < $1`. -/
def pendingBefore (t : PhotoTable) (cutoff : Instant) : List (ℕ × String) :=
  (t.filter fun p => decide (p.moderationState = .pendingReview ∧ p.createdAt < cutoff)).map
    fun p => (p.id, p.storageKey)

def stateOf (db : PhotoDb) (photo : PhotoId) : Option Erasure.PhotoState :=
  ((db.photos photo.1).find photo.2).map fun p => p.moderationState

def entry : Call → Progress Phase Reply
  | .reconcilePendingPhotos now => .next (.list ⟨now - pendingReconcileGrace, 0⟩ .parking)
  | .approvePhoto photo moderator => .next (.getApproved photo moderator)
  | .rejectPhoto photo moderator reason =>
    if trim reason = "" then .done (.error (.invalidField "reason is required"))
    else .next (.getRejected photo moderator (trim reason))

/-- One statement of a call. -/
def step (phase : Phase) (input : Input) (db : PhotoDb) : PhotoDb × Progress Phase Reply :=
  match phase with
  | .list sweep kind => (db, resume sweep kind (pendingBefore (db.photos kind) sweep.cutoff))
  | .probe sweep photo key rest =>
    if input.answer.isError then (db, .done (.error .storage))
    else if objectExists db.objects key then (db, resume sweep photo.1 rest)
    else (db, .next (.delete sweep photo rest))
  | .delete sweep photo rest =>
    let affected := if ((db.photos photo.1).find photo.2).isSome then 1 else 0
    (deletePhoto db photo.1 photo.2,
      resume { sweep with deleted := sweep.deleted + affected } photo.1 rest)
  | .getApproved photo moderator =>
    match stateOf db photo with
    | none => (db, .done (.error .notFound))
    | some .pendingReview => (db, .next (.approve photo moderator))
    | some .approved => (db, .done (.ok 0))
    | some _ => (db, .done (.error .notPending))
  | .approve photo moderator =>
    match Photos.approve db photo.1 photo.2 moderator input.now with
    | some db' => (db', .done (.ok 0))
    | none => (db, .done (.error .notPending))
  | .getRejected photo moderator reason =>
    match stateOf db photo with
    | none => (db, .done (.error .notFound))
    | some .pendingReview => (db, .next (.reject photo moderator reason))
    | some .rejected => (db, .done (.ok 0))
    | some _ => (db, .done (.error .notPending))
  | .reject photo moderator reason =>
    match (db.photos photo.1).find photo.2,
      Photos.reject db photo.1 photo.2 moderator reason input.now with
    | some p, some db' => (db', .next (.deleteFull p.storageKey p.thumbnailKey))
    | _, _ => (db, .done (.error .notPending))
  | .deleteFull full thumb =>
    -- the answer of a best-effort delete is not looked at
    ({ db with objects := deleteAnswered db.objects full input.answer },
      match thumb with
      | some key => .next (.deleteThumb key)
      | none => .done (.ok 0))
  | .deleteThumb thumb =>
    ({ db with objects := deleteAnswered db.objects thumb input.answer }, .done (.ok 0))

/-- The moderators' other calls are one statement each. -/
inductive PhotoOp where
  | hidePhoto (photo : PhotoId) (moderator : UserId) (now : Instant)
  | restorePhoto (photo : PhotoId) (moderator : UserId) (now : Instant)

def apply : PhotoOp → PhotoDb → PhotoDb
  | .hidePhoto photo moderator now, db => (hide db photo.1 photo.2 moderator now).getD db
  | .restorePhoto photo moderator now, db => (restore db photo.1 photo.2 moderator now).getD db

def program : Program PhotoDb Phase Reply Input Call PhotoOp := ⟨entry, step, apply⟩

abbrev PhotoState := State PhotoDb ℕ Phase

abbrev PhotoEvent := Event ℕ Input Call PhotoOp

/-- The row that a sweep is about to delete. -/
def Phase.condemned : Phase → Option PhotoId
  | .delete _ photo _ => some photo
  | _ => none

/-- The photo that a moderator is about to decide on. -/
def Phase.decides : Phase → Option PhotoId
  | .approve photo _ => some photo
  | .reject photo _ _ => some photo
  | _ => none

/-- The row, if it is still there, waits for a moderator. -/
def Undecided (db : PhotoDb) (photo : PhotoId) : Prop :=
  ∀ state ∈ stateOf db photo, state = .pendingReview

instance (db : PhotoDb) (photo : PhotoId) : Decidable (Undecided db photo) := by
  unfold Undecided
  infer_instance

/-- The photo whose object a probe finds missing. -/
def Phase.condemns (phase : Phase) (input : Input) (db : PhotoDb) : Option PhotoId :=
  match phase with
  | .probe _ photo key _ =>
    if input.answer.isError = false ∧ objectExists db.objects key = false then some photo else none
  | _ => none

/-- When a probe finds the object of a photo missing, nobody has decided on the photo; and no
decision hits a photo between such a probe and its delete. -/
def Unraced (s : PhotoState) : PhotoEvent → Prop
  | .advance t input =>
    ∀ y ∈ s.running.find t,
      (∀ photo ∈ y.phase.condemns input s.store, Undecided s.store photo) ∧
      ∀ photo ∈ y.phase.decides, stateOf s.store photo = some .pendingReview →
        ∀ x ∈ s.running.rows, x.phase.condemned ≠ some photo
  | _ => True

instance (s : PhotoState) : DecidablePred (Unraced s)
  | .begin _ _ => .isTrue trivial
  | .advance _ _ => by
    unfold Unraced
    infer_instance
  | .drop _ => .isTrue trivial
  | .other _ => .isTrue trivial

/-- A row that the event deletes is in state `PENDING_REVIEW`. -/
def DeletesPending (s : PhotoState) : PhotoEvent → Prop
  | .advance t _ =>
    ∀ x ∈ s.running.find t, ∀ photo ∈ x.phase.condemned, Undecided s.store photo
  | _ => True

instance (s : PhotoState) : DecidablePred (DeletesPending s)
  | .begin _ _ => .isTrue trivial
  | .advance _ _ => by
    unfold DeletesPending
    infer_instance
  | .drop _ => .isTrue trivial
  | .other _ => .isTrue trivial

section Steps

variable {db : PhotoDb} {photo : PhotoId}

/-- A change of state leaves the other photos, and meets the state it expects. -/
theorem stateOf_moderate {kind : PhotoKind} {id : ℕ} {expected : Erasure.PhotoState}
    {f : StoredPhoto → StoredPhoto} {hf : ∀ p, (f p).id = p.id} {db' : PhotoDb}
    (h : moderate db kind id expected f hf = some db') (photo : PhotoId) :
    stateOf db' photo = stateOf db photo ∨
      (photo = (kind, id) ∧ stateOf db photo = some expected) := by
  obtain ⟨p, found, state, -, rows⟩ := moderate_eq_some h
  obtain ⟨k, i⟩ := photo
  by_cases here : k = kind ∧ i = id
  · obtain ⟨rfl, rfl⟩ := here
    right
    exact ⟨rfl, by rw [stateOf, found, Option.map_some, state]⟩
  · left
    rw [stateOf, rows, if_neg here]
    rfl

/-- What a statement does to the state of a photo: the row goes, or a moderator decides on it. -/
theorem stateOf_step (phase : Phase) (input : Input) (photo : PhotoId) :
    stateOf (step phase input db).1 photo = stateOf db photo ∨
      stateOf (step phase input db).1 photo = none ∨
        (phase.decides = some photo ∧ stateOf db photo = some .pendingReview) := by
  cases phase with
  | list sweep kind => exact Or.inl rfl
  | probe sweep target key rest =>
    left
    simp only [step]
    split_ifs <;> rfl
  | delete sweep target rest =>
    simp only [step, stateOf, find_deletePhoto]
    by_cases here : photo.1 = target.1 ∧ photo.2 = target.2
    · rw [if_pos here]
      exact Or.inr (Or.inl rfl)
    · rw [if_neg here]
      exact Or.inl rfl
  | getApproved target moderator =>
    left
    simp only [step]
    split <;> rfl
  | approve target moderator =>
    simp only [step]
    split
    · rename_i db' approved
      rcases stateOf_moderate approved photo with same | ⟨rfl, pending⟩
      · exact Or.inl same
      · exact Or.inr (Or.inr ⟨rfl, pending⟩)
    · exact Or.inl rfl
  | getRejected target moderator reason =>
    left
    simp only [step]
    split <;> rfl
  | reject target moderator reason =>
    simp only [step]
    split
    · rename_i p db' found rejected
      rcases stateOf_moderate rejected photo with same | ⟨rfl, pending⟩
      · exact Or.inl same
      · exact Or.inr (Or.inr ⟨rfl, pending⟩)
    · exact Or.inl rfl
  | deleteFull full thumb => exact Or.inl rfl
  | deleteThumb thumb => exact Or.inl rfl

/-- A decision on a pending photo is made. -/
theorem stateOf_decide {phase : Phase} (input : Input) (decides : phase.decides = some photo)
    (pending : stateOf db photo = some .pendingReview) :
    ∃ state, stateOf (step phase input db).1 photo = some state ∧ state ≠ .pendingReview := by
  obtain ⟨p, found, state⟩ := Option.map_eq_some_iff.mp pending
  cases phase with
  | approve target moderator =>
    obtain rfl : target = photo := Option.some.inj decides
    obtain ⟨db', approved⟩ : ∃ db', Photos.approve db target.1 target.2 moderator input.now =
      some db' := moderate_of_state found state
    obtain ⟨q, -, -, -, rows⟩ := moderate_eq_some approved
    refine ⟨.approved, ?_, by decide⟩
    simp only [step, approved, stateOf, rows, and_self, if_true, Option.map_some]
  | reject target moderator reason =>
    obtain rfl : target = photo := Option.some.inj decides
    obtain ⟨db', rejected⟩ : ∃ db', Photos.reject db target.1 target.2 moderator reason input.now =
      some db' := moderate_of_state found state
    obtain ⟨q, -, -, -, rows⟩ := moderate_eq_some rejected
    refine ⟨.rejected, ?_, by decide⟩
    simp only [step, found, rejected, stateOf, rows, and_self, if_true, Option.map_some]
  | _ => cases decides

/-- Hiding and restoring leave a photo alone that waits for a moderator. -/
theorem undecided_apply (op : PhotoOp) (h : Undecided db photo) : Undecided (apply op db) photo := by
  have kept : ∀ {kind id expected f hf db'}, moderate db kind id expected f hf = some db' →
      expected ≠ .pendingReview → Undecided db' photo := by
    intro kind id expected f hf db' moderated other
    rcases stateOf_moderate moderated photo with same | ⟨-, met⟩
    · rw [Undecided, same]
      exact h
    · exact absurd (h expected met) other
  cases op with
  | hidePhoto target moderator now =>
    simp only [apply]
    cases moderated : hide db target.1 target.2 moderator now with
    | none => exact h
    | some db' => exact kept moderated (by decide)
  | restorePhoto target moderator now =>
    simp only [apply]
    cases moderated : restore db target.1 target.2 moderator now with
    | none => exact h
    | some db' => exact kept moderated (by decide)

end Steps

section Runs

variable {s : PhotoState}

/-- A condemned row waits for a moderator. -/
def Asserted (phase : Phase) (db : PhotoDb) : Prop :=
  ∀ photo ∈ phase.condemned, Undecided db photo

theorem resume_asserted {sweep : Sweep} {kind : PhotoKind} {rest : List (ℕ × String)}
    {phase : Phase} (h : resume sweep kind rest = .next phase) : phase.condemned = none := by
  cases rest with
  | nil =>
    cases kind with
    | parking =>
      cases h
      rfl
    | review => cases h
  | cons row rest =>
    cases h
    rfl

/-- A call condemns a row when a probe has found its object missing. -/
theorem step_condemned {phase next : Phase} {input : Input} {db db' : PhotoDb} {photo : PhotoId}
    (h : step phase input db = (db', .next next)) (condemned : next.condemned = some photo) :
    db' = db ∧ phase.condemns input db = some photo := by
  have resumed : ∀ {sweep kind rest}, resume sweep kind rest = .next next → False := by
    intro sweep kind rest h
    rw [resume_asserted h] at condemned
    cases condemned
  cases phase with
  | list sweep kind => exact absurd (Prod.mk.inj h).2 fun h => resumed h
  | probe sweep target key rest =>
    simp only [step] at h
    split_ifs at h with failed found
    · cases h
    · exact absurd (Prod.mk.inj h).2 fun h => resumed h
    · obtain ⟨rfl, h⟩ := Prod.mk.inj h
      cases h
      cases condemned
      exact ⟨rfl, if_pos ⟨by simpa using failed, by simpa using found⟩⟩
  | delete sweep target rest => exact absurd (Prod.mk.inj h).2 fun h => resumed h
  | getApproved target moderator =>
    simp only [step] at h
    split at h <;> cases h
    cases condemned
  | approve target moderator =>
    simp only [step] at h
    split at h <;> cases h
  | getRejected target moderator reason =>
    simp only [step] at h
    split at h <;> cases h
    cases condemned
  | reject target moderator reason =>
    simp only [step] at h
    split at h <;> cases h
    cases condemned
  | deleteFull full thumb =>
    cases thumb <;> cases h
    cases condemned
  | deleteThumb thumb => cases h

/-- One event keeps what is condemned undecided, when no decision races with a sweep. -/
theorem fire_asserted (hs : Asserts Asserted s) (e : PhotoEvent) (unraced : Unraced s e) :
    Asserts Asserted (fire program s e) := by
  refine fire_asserts hs e ?_ ?_ ?_
  · intro call phase started photo condemned
    cases call with
    | reconcilePendingPhotos now =>
      cases started
      cases condemned
    | approvePhoto target moderator =>
      cases started
      cases condemned
    | rejectPhoto target moderator reason =>
      simp only [program, entry] at started
      split_ifs at started
      cases started
      cases condemned
  · rintro t input y rfl found store next stepped photo condemned
    obtain ⟨rfl, condemns⟩ := step_condemned stepped condemned
    exact (unraced y found).1 photo condemns
  · intro x hx asserted photo condemned
    have undecided := asserted photo condemned
    cases e with
    | begin t call =>
      simp only [fire]
      split
      · split <;> exact undecided
      · exact undecided
    | advance t input =>
      cases found : s.running.find t with
      | none =>
        simp only [fire, found]
        exact undecided
      | some y =>
        rw [fire_advance found, settle_store]
        rcases @stateOf_step s.store y.phase input photo with same | gone | ⟨decides, pending⟩
        · rw [Undecided, program, same]
          exact undecided
        · rw [Undecided, program, gone]
          intro state h
          cases h
        · exact absurd condemned ((unraced y found).2 photo decides pending x hx)
    | drop t => exact undecided
    | other op => exact undecided_apply op undecided

/-- A probe that finds an object missing condemns its row. -/
theorem step_condemns {phase : Phase} {input : Input} {db : PhotoDb} {photo : PhotoId}
    (h : phase.condemns input db = some photo) :
    ∃ next, step phase input db = (db, .next next) ∧ next.condemned = some photo := by
  cases phase with
  | probe sweep target key rest =>
    simp only [Phase.condemns, Option.ite_none_right_eq_some, Option.some.injEq] at h
    obtain ⟨⟨answered, missing⟩, rfl⟩ := h
    refine ⟨.delete sweep target rest, ?_, rfl⟩
    simp only [step, answered, missing, Bool.false_eq_true, if_false]
  | _ => cases h

/-- Where a decision has raced, one more step of the sweep deletes a photo that is decided. -/
theorem raced_fails {e : PhotoEvent} (raced : ¬ Unraced s e) :
    ∃ t, ∀ input, ¬ DeletesPending (fire program s e) (.advance t input) := by
  cases e with
  | begin t call => exact absurd trivial raced
  | drop t => exact absurd trivial raced
  | other op => exact absurd trivial raced
  | advance t input =>
    simp only [Unraced, not_forall] at raced
    obtain ⟨y, found, raced⟩ := raced
    by_cases late : ∀ photo ∈ y.phase.condemns input s.store, Undecided s.store photo
    · -- a decision between the probe and the delete
      have decided : ¬ ∀ photo ∈ y.phase.decides, stateOf s.store photo = some .pendingReview →
          ∀ x ∈ s.running.rows, x.phase.condemned ≠ some photo := fun h => raced ⟨late, h⟩
      push Not at decided
      obtain ⟨photo, decides, pending, x, hx, condemned⟩ := decided
      have other : x.id ≠ t := by
        intro same
        obtain rfl : y = x := Option.some.inj (found.symm.trans (same ▸ Table.find_of_mem hx))
        cases phase : y.phase <;> simp [phase, Phase.decides, Phase.condemned] at decides condemned
      refine ⟨x.id, fun input' deletes => ?_⟩
      rw [fire_advance found] at deletes
      have standing := (find_settle_other other (program.step y.phase input s.store)).trans
        (Table.find_of_mem hx)
      have undecided := deletes x standing photo condemned
      rw [settle_store] at undecided
      obtain ⟨state, after, different⟩ := stateOf_decide input decides pending
      exact different (undecided state after)
    · -- a decision before the probe
      push Not at late
      obtain ⟨photo, condemns, decided⟩ := late
      obtain ⟨next, stepped, condemned⟩ := step_condemns condemns
      refine ⟨t, fun input' deletes => decided ?_⟩
      have fired : fire program s (.advance t input) = settle s t (s.store, (.next next : Progress Phase Reply)) := by
        rw [fire_advance found]
        exact congrArg (settle s t) stepped
      rw [fired] at deletes
      have undecided := deletes _ (find_settle_next found) photo condemned
      rwa [settle_store] at undecided

/-- Along every run whose steps do not race, every row that a sweep deletes is pending; and where
one races, the run can go on to delete a photo that a moderator has decided on. -/
theorem reconcile_deletes_pending_iff (db : PhotoDb) (events : List PhotoEvent) :
    (Along program Unraced (initial db) events → Along program DeletesPending (initial db) events) ∧
    ∀ e, ¬ Unraced (run program (initial db) events) e →
      ∃ t, ∀ input, ¬ DeletesPending (run program (initial db) (events ++ [e])) (.advance t input) := by
  constructor
  · intro unraced
    refine along_of_invariant (I := Asserts Asserted) (fun s e hs h => fire_asserted hs e h) ?_
      (initial_asserts Asserted db) unraced
    intro s e hs _
    cases e with
    | advance t input =>
      intro x found photo condemned
      exact hs x (Table.find_eq_some.mp found).1 photo condemned
    | begin t call => trivial
    | drop t => trivial
    | other op => trivial
  · intro e raced
    have last : run program (initial db) (events ++ [e]) =
        fire program (run program (initial db) events) e := by
      simp [run]
    rw [last]
    exact raced_fails raced

end Runs

section Samples

/-- A photo that waits for a moderator since the start of the clock. -/
def waiting : StoredPhoto :=
  newPhoto 1 ⟨.parking, 4, 7, none, "uploads/x/full.jpg", "uploads/x/thumb.jpg", 1600, 1200⟩ 0

/-- Its table, with the objects of the store. -/
def waitingDb (objects : ObjectStore) : PhotoDb where
  photos
    | .parking => ⟨[waiting], by decide⟩
    | .review => .empty
  objects := objects

def stored : ObjectStore := ⟨[⟨"uploads/x/full.jpg", 0⟩, ⟨"uploads/x/thumb.jpg", 0⟩], by decide⟩

/-- Two hours later. -/
def later : Input := ⟨7200000000, .done⟩

/-- A sweep over both tables. -/
def sweepAll : List PhotoEvent :=
  [.begin 1 (.reconcilePendingPhotos later.now), .advance 1 later, .advance 1 later,
    .advance 1 later, .advance 1 later]

/-- A row that has no object is deleted while it is pending. -/
theorem sweepAll_deletes_pending :
    Along program DeletesPending (initial (waitingDb .empty)) sweepAll :=
  (reconcile_deletes_pending_iff (waitingDb .empty) sweepAll).1 (by decide)

/-- A moderator rejects the photo after the sweep has listed it. -/
def rejectedAmidSweep : List PhotoEvent :=
  [.begin 1 (.reconcilePendingPhotos later.now), .advance 1 later,
    .begin 2 (.rejectPhoto (.parking, 1) 9 "blurred"), .advance 2 later, .advance 2 later,
    .advance 2 later, .advance 1 later, .advance 1 later]

/-- The sweep deletes the rejected row, with its reason and its moderator. -/
theorem rejected_photo_deleted : ∃ (db : PhotoDb) (events : List PhotoEvent),
    ¬ Along program DeletesPending (initial db) events := by
  refine ⟨waitingDb stored, rejectedAmidSweep, ?_⟩
  decide

end Samples

end PhotoReconcile
