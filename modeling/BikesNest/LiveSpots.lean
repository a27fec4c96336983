import BikesNest.Community
import BikesNest.Effects

/-! Contributions and takedowns side by side. A proposal and a vote look at the location again
under its lock. A review locks the location but does not look, and a verification does
neither, so these two rest on the check that `require_active` made some steps earlier. -/

namespace LiveSpots

open Parking Proposal Schema Publishing Contribution Operations Outcome Details Interleaving
open Community Effects

abbrev CallState := State Store ℕ Phase

abbrev CallEvent := Event ℕ Instant Request Op

def Live (s : Store) (l : LocationId) : Prop :=
  ∃ row, s.locations.find l = some row ∧ row.moderationState = .active

instance (s : Store) (l : LocationId) : Decidable (Live s l) :=
  decidable_of_iff ((s.locations.find l).any fun r => decide (r.moderationState = .active)) (by
    cases found : s.locations.find l <;> simp [Live, found])

/-- The location a write is about; that of a vote is its proposal's. -/
def Write.location (s : Store) : Write → Option LocationId
  | .review d => some d.locationId
  | .verification _ v => some v.locationId
  | .freshness l => some l
  | .proposal _ p => some p.locationId
  | .vote id _ _ => (s.proposals.find id).map ProposalRow.locationId

/-- The location of the contribution that an event commits, if it commits one. -/
def contribution (env : Env) (s : CallState) : CallEvent → Option LocationId
  | .advance t now =>
    match (s.running.find t).map Running.phase with
    | some (.write w) =>
      if (w.perform env now s.store).toOption.isSome then Write.location s.store w else none
    | _ => none
  | _ => none

/-- Whether the repository leaves it to the service to look at the location's state. -/
def unguarded : Submission → Bool
  | .upsertReview _ _ _ _ => true
  | .recordVerification _ _ => true
  | _ => false

/-- The location of a review or verification call between its check and its last write. -/
def exposed : Phase → Option LocationId
  | .readLocation _ _ => none
  | .readHours _ sub row =>
    if unguarded sub ∧ row.moderationState = .active then some sub.location else none
  | .readSecurity _ sub row _ =>
    if unguarded sub ∧ row.moderationState = .active then some sub.location else none
  | .write (.review d) => some d.locationId
  | .write (.verification _ v) => some v.locationId
  | .write (.freshness l) => some l
  | .write (.proposal _ _) => none
  | .write (.vote _ _ _) => none

/-- No location is taken down under a call that is exposed there. -/
def Undisturbed (env : Env) (s : CallState) (e : CallEvent) : Prop :=
  ∀ x ∈ s.running.rows, ∀ l ∈ exposed x.phase,
    Live s.store l → Live (fire (program env) s e).store l

/-- A contribution commits only on a live location. -/
def CommitsLive (env : Env) (s : CallState) (e : CallEvent) : Prop :=
  ∀ l ∈ contribution env s e, Live s.store l

instance (env : Env) (s : CallState) (e : CallEvent) : Decidable (Undisturbed env s e) :=
  inferInstanceAs (Decidable (∀ x ∈ s.running.rows, ∀ l ∈ exposed x.phase,
    Live s.store l → Live (fire (program env) s e).store l))

instance (env : Env) (s : CallState) (e : CallEvent) : Decidable (CommitsLive env s e) :=
  inferInstanceAs (Decidable (∀ l ∈ contribution env s e, Live s.store l))

/-- What a call relies on: where it is exposed, the location is live. -/
def Checked (phase : Phase) (s : Store) : Prop := ∀ l ∈ exposed phase, Live s l

/-- A location whose row is changed in other columns stays live. -/
theorem live_of_map {s t : Store} {l : LocationId} {f : LocationRow → LocationRow}
    (h : t.locations.find l = (s.locations.find l).map f)
    (same : ∀ r, (f r).moderationState = r.moderationState) (live : Live s l) : Live t l := by
  obtain ⟨row, found, state⟩ := live
  exact ⟨f row, by rw [h, found, Option.map_some], (same row).trans state⟩

theorem live_of_eq {s t : Store} {l : LocationId} (h : t.locations = s.locations)
    (live : Live s l) : Live t l := by
  simpa only [Live, h] using live

/-- The repositories that look again commit on live locations only. -/
theorem perform_guarded {env : Env} {now : Instant} {s t : Store} {w : Write} {reply : Reply}
    (h : w.perform env now s = .ok (reply, t)) (hw : exposed (.write w) = none) {l : LocationId}
    (hl : Write.location s w = some l) : Live s l := by
  cases w with
  | review d => simp [exposed] at hw
  | verification id v => simp [exposed] at hw
  | freshness l => simp [exposed] at hw
  | proposal id p =>
    simp only [Write.perform, bind_ok, pure_ok] at h
    obtain ⟨u, submitted, -⟩ := h
    obtain ⟨loc, author, submitted⟩ := createProposal_ok.mp submitted
    obtain rfl : p.locationId = l := Option.some.inj hl
    exact ⟨loc, submitted.located, submitted.active⟩
  | vote id voter position =>
    simp only [Write.perform, bind_ok, pure_ok] at h
    obtain ⟨⟨totals, u⟩, voted, -⟩ := h
    obtain ⟨prop, loc, _, votable, -⟩ := voteOnProposal_ok.mp voted
    simp only [Write.location, votable.found, Option.map_some, Option.some.injEq] at hl
    exact hl ▸ ⟨loc, votable.located, votable.active⟩

/-- A write of an exposed call is about the location it is exposed at. -/
theorem location_of_exposed {s : Store} {w : Write} {l : LocationId}
    (h : exposed (.write w) = some l) : Write.location s w = some l := by
  cases w <;> simp_all [exposed, Write.location]

theorem prepare_exposed {env : Env} {user : UserId} {current : ParkingLocation}
    {sub : Submission} {w : Write} (h : prepare env user current sub = .ok w) :
    exposed (.write w) = if unguarded sub then some sub.location else none := by
  cases sub with
  | upsertReview id l rating body =>
    simp only [prepare, pure_ok] at h
    exact h ▸ rfl
  | recordVerification id signal =>
    simp only [prepare, pure_ok] at h
    exact h ▸ rfl
  | applyParkingEdit id l expectedVersion edit =>
    simp only [prepare, bind_ok, ensure_ok, pure_ok] at h
    obtain ⟨-, -, -, -, rfl⟩ := h
    rfl
  | proposeLocationChange id l kind proposed resolved =>
    simp only [prepare, bind_ok, ensure_ok, pure_ok] at h
    obtain ⟨-, -, -, -, change, -, rfl⟩ := h
    rfl

/-- What `require_active` hands on is exposed only where the row it read was active. -/
theorem requireActive_exposed {env : Env} {user : UserId} {sub : Submission} {row : LocationRow}
    {hours : List HoursRow} {security : List SecurityRow} {w : Write}
    (h : requireActive env user sub row hours security = .ok w) :
    exposed (.write w) = exposed (.readSecurity user sub row hours) := by
  simp only [requireActive, bind_ok, mapError_ok, ensure_ok] at h
  obtain ⟨current, read, -, active, prepared⟩ := h
  rw [(toDomain_copies read).2.1] at active
  rw [prepare_exposed prepared]
  simp [exposed, active]

/-- The listing is live when its row is first read; from there on the call keeps the place it
is exposed at, and its own writes leave the state of the location alone. -/
theorem step_preserves_checked {env : Env} {phase next : Phase} {now : Instant} {s t : Store}
    (hs : Checked phase s) (h : step env phase now s = (t, .next next)) : Checked next t := by
  cases phase with
  | readLocation user sub =>
    simp only [step] at h
    split at h
    · rename_i row found
      obtain ⟨rfl, rfl⟩ : s = t ∧ Phase.readHours user sub row = next := by simpa using h
      intro l hl
      simp only [exposed, Option.mem_def, Option.ite_none_right_eq_some, Option.some.injEq] at hl
      obtain ⟨⟨-, active⟩, rfl⟩ := hl
      exact ⟨row, found, active⟩
    · simp at h
  | readHours user sub row =>
    obtain ⟨rfl, rfl⟩ : s = t ∧ Phase.readSecurity user sub row (Schema.readHours s row.id) =
      next := by simpa [step] using h
    exact hs
  | readSecurity user sub row hours =>
    simp only [step] at h
    split at h
    · rename_i w passed
      obtain ⟨rfl, rfl⟩ : s = t ∧ Phase.write w = next := by simpa using h
      intro l hl
      rw [requireActive_exposed passed] at hl
      exact hs l hl
    · simp at h
  | write w =>
    simp only [step] at h
    split at h
    · rename_i reply t' performed
      cases w with
      | verification id v =>
        simp only [Write.after, Prod.mk.injEq] at h
        obtain ⟨rfl, h⟩ := h
        split at h
        · obtain rfl : Phase.write (.freshness v.locationId) = next := by simpa using h
          simp only [Write.perform, bind_ok, pure_ok, Prod.mk.injEq] at performed
          obtain ⟨u, recorded, -, rfl⟩ := performed
          exact fun l hl => live_of_eq (by rw [record_frame recorded]) (hs l hl)
        · simp at h
      | review d => simp [Write.after] at h
      | freshness l => simp [Write.after] at h
      | proposal id p => simp [Write.after] at h
      | vote id voter position => simp [Write.after] at h
    · simp at h

/-- A call starts with nothing checked. -/
theorem entry_checked {env : Env} {request : Request} {phase : Phase}
    (h : (program env).entry request = .next phase) (s : Store) : Checked phase s := by
  have none : exposed phase = none := by
    simp only [program] at h
    split at h
    · rename_i admitted ok
      obtain rfl : admitted = phase := by simpa using h
      cases request with
      | submit user allowed sub =>
        simp only [accept, bind_ok, ensure_ok, pure_ok] at ok
        obtain ⟨-, -, -, -, -, -, rfl⟩ := ok
        rfl
      | voteOnProposal user id vote =>
        simp only [accept, bind_ok, ensure_ok, pure_ok] at ok
        obtain ⟨-, -, rfl⟩ := ok
        rfl
    · simp at h
  simp [Checked, none]

theorem fire_preserves_checked {env : Env} {s : CallState} {e : CallEvent}
    (hs : Asserts Checked s) (undisturbed : Undisturbed env s e) :
    Asserts Checked (fire (program env) s e) := by
  refine fire_preserves_asserts hs e ?_ ?_ ?_
  · intro call phase started
    exact entry_checked started s.store
  · intro phase input t next checked stepped
    exact step_preserves_checked checked stepped
  · intro x hx checked l hl
    exact undisturbed x hx l hl (checked l hl)

theorem commits_live_of_checked {env : Env} {s : CallState} (hs : Asserts Checked s)
    (e : CallEvent) : CommitsLive env s e := by
  intro l hl
  cases e with
  | advance t now =>
    simp only [contribution, Option.mem_def] at hl
    split at hl
    · rename_i w at_write
      obtain ⟨x, found, hphase⟩ := Option.map_eq_some_iff.mp at_write
      obtain ⟨hx, -⟩ := Table.find_eq_some.mp found
      rw [Option.ite_none_right_eq_some] at hl
      obtain ⟨performed, located⟩ := hl
      cases place : exposed (.write w) with
      | some k =>
        obtain rfl : k = l := Option.some.inj ((location_of_exposed place).symm.trans located)
        exact hs x hx k (hphase ▸ place)
      | none =>
        obtain ⟨⟨reply, t⟩, performed⟩ := Option.isSome_iff_exists.mp performed
        exact perform_guarded (toOption_eq_some.mp performed) place located
    · simp at hl
  | begin t call => simp [contribution] at hl
  | drop t => simp [contribution] at hl
  | other op => simp [contribution] at hl

/-! What can take a location down. -/

/-- The operations that take the location `l` down: a moderator's change of state, and the
publication of a removal, by a moderator or by a vote. -/
inductive Takedown (env : Env) (s : Store) (l : LocationId) : Op → Prop where
  | moderated {sources : List ModerationState} {target : ModerationState} {moderator : UserId}
      (away : target ≠ .active) : Takedown env s l (.setParkingState l sources target moderator)
  | approved {id : ProposalId} {moderator : UserId} (prop : ProposalRow)
      (found : s.proposals.find id = some prop) (about : prop.locationId = l) :
      Takedown env s l (.approveProposal id moderator (.changeExistence false))
  | voted {id : ProposalId} {voter : UserId} {vote : ProposalVote} {now : Instant}
      (prop : ProposalRow) (found : s.proposals.find id = some prop)
      (about : prop.locationId = l)
      (removal : merge env prop.kind (ProposedChange.fromJson env prop.kind prop.proposed) {} =
        .ok (.changeExistence false)) :
      Takedown env s l (.voteOnProposal id voter vote now)

/-- A listing that is written stays live unless its own row leaves the active state. -/
theorem live_of_rewrites {s t : Store} {row : LocationRow} {snapshot : Json}
    (h : Rewrites s t row snapshot) {l : LocationId} (live : Live s l)
    (active : l = row.id → row.moderationState = .active) : Live t l := by
  obtain ⟨old, found, state⟩ := live
  by_cases hl : l = row.id
  · exact ⟨row, by rw [h.location, if_pos hl], active hl⟩
  · exact ⟨old, by rw [h.location, if_neg hl, found], state⟩

theorem live_of_kept {s t : Store} (h : Kept s t) {l : LocationId} (live : Live s l) :
    Live t l := by
  obtain ⟨forget, kept⟩ := h.location l
  exact live_of_map kept (fun _ => rfl) live

/-- A published change leaves the state alone unless it is about existence. -/
theorem live_of_published {env : Env} {s t : Store} {id : ProposalId} {moderator : UserId}
    {applied : ProposalApplication} {prop : ProposalRow} {loc row : LocationRow} {parts : Store}
    (h : Published env s t id moderator applied prop loc row parts) {l : LocationId}
    (live : Live s l) : Live t l ∨ applied = .changeExistence false ∧ prop.locationId = l := by
  have hid : row.id = prop.locationId := (changedRow_id h.changed).trans h.location_id
  have kept : row.moderationState = loc.moderationState → Live t l := by
    intro same
    refine live_of_rewrites (published_rewrites h) live fun hl => ?_
    obtain ⟨old, found, state⟩ := live
    rw [hl, hid, h.located] at found
    rw [same, Option.some.inj found]
    exact state
  have changed := h.changed
  cases applied with
  | editDetails edit =>
    obtain ⟨before, after⟩ := changedRow_edit_active changed
    exact .inl (kept (after.trans before.symm))
  | moveLocation lat lon timezone =>
    simp only [changedRow, Option.some.injEq] at changed
    exact .inl (kept (changed ▸ rfl))
  | changeExistence present =>
    simp only [changedRow, Option.some.injEq] at changed
    cases present with
    | true =>
      exact .inl (live_of_rewrites (published_rewrites h) live fun _ => changed ▸ rfl)
    | false =>
      by_cases hl : prop.locationId = l
      · exact .inr ⟨rfl, hl⟩
      · refine .inl (live_of_rewrites (published_rewrites h) live fun he => ?_)
        exact absurd (he.trans hid).symm hl

theorem takedown_of_perform {env : Env} {s t : Store} {op : Op} {l : LocationId}
    (h : perform env s op = .ok t) (live : Live s l) : Live t l ∨ Takedown env s l op := by
  cases perform_effect h with
  | kept kept => exact .inl (live_of_kept kept live)
  | created tz parts created =>
    exact .inl (live_of_rewrites (created_rewrites created) live fun _ => rfl)
  | edited loc row point tz parts edited =>
    exact .inl (live_of_rewrites (edited_rewrites edited) live
      fun _ => (changedRow_edit_active edited.changed).2)
  | @moderated id sources target moderator old moderated =>
    obtain rfl : old.id = id := (Table.find_eq_some.mp moderated.found).2
    have rewrites := moderated_rewrites moderated
    by_cases away : target = .active
    · exact .inl (live_of_rewrites rewrites live fun _ => away)
    · by_cases hl : l = old.id
      · subst hl
        exact .inr (.moderated away)
      · exact .inl (live_of_rewrites rewrites live fun he => absurd he hl)
  | approved prop loc row parts published =>
    rcases live_of_published published live with live | ⟨rfl, about⟩
    · exact .inl live
    · exact .inr (.approved prop published.found about)
  | voted applied prop loc row parts merged published =>
    rcases live_of_published published live with live | ⟨rfl, about⟩
    · exact .inl live
    · exact .inr (.voted prop published.found about merged)

/-- Of the writes of the service only a vote can take a location down. -/
theorem takedown_of_write {env : Env} {now : Instant} {s t : Store} {w : Write} {reply : Reply}
    {l : LocationId} (h : w.perform env now s = .ok (reply, t)) (live : Live s l) :
    Live t l ∨ ∃ id voter vote, w = .vote id voter vote ∧
      Takedown env s l (.voteOnProposal id voter vote now) := by
  cases w with
  | review d =>
    simp only [Write.perform, bind_ok, pure_ok, Prod.mk.injEq] at h
    obtain ⟨⟨existed, u⟩, upserted, -, rfl⟩ := h
    obtain ⟨ratings, found⟩ := Reviews.upsertReview_find_location upserted
    refine .inl (live_of_map (found l) (fun r => ?_) live)
    split <;> rfl
  | verification id v =>
    simp only [Write.perform, bind_ok, pure_ok, Prod.mk.injEq] at h
    obtain ⟨u, recorded, -, rfl⟩ := h
    exact .inl (live_of_eq (by rw [record_frame recorded]) live)
  | freshness k =>
    simp only [Write.perform, pure_ok, Prod.mk.injEq] at h
    obtain ⟨-, rfl⟩ := h
    refine .inl (live_of_map (find_markVerifiedAt s k now l) (fun r => ?_) live)
    split <;> rfl
  | proposal id p =>
    simp only [Write.perform, bind_ok, pure_ok, Prod.mk.injEq] at h
    obtain ⟨u, submitted, -, rfl⟩ := h
    obtain ⟨loc, author, submitted⟩ := createProposal_ok.mp submitted
    exact .inl (live_of_eq (by rw [submitted.outcome]) live)
  | vote id voter position =>
    simp only [Write.perform, bind_ok, pure_ok, Prod.mk.injEq] at h
    obtain ⟨⟨totals, u⟩, voted, -, rfl⟩ := h
    have performed : perform env s (.voteOnProposal id voter position now) = .ok u := by
      simp [perform, voted, Except.map, Except.mapError]
    rcases takedown_of_perform performed live with live | down
    · exact .inl live
    · exact .inr ⟨id, voter, position, rfl, down⟩

/-- The events that take a location down. -/
inductive TakesDown (env : Env) (s : CallState) (l : LocationId) : CallEvent → Prop where
  | other {op : Op} (h : Takedown env s.store l op) : TakesDown env s l (.other op)
  | advance {t : ℕ} {now : Instant} {id : ProposalId} {voter : UserId} {vote : ProposalVote}
      (x : Running ℕ Phase) (found : s.running.find t = some x)
      (voting : x.phase = .write (.vote id voter vote))
      (h : Takedown env s.store l (.voteOnProposal id voter vote now)) :
      TakesDown env s l (.advance t now)

theorem takesDown_of_fire {env : Env} {s : CallState} {e : CallEvent} {l : LocationId}
    (live : Live s.store l) : Live (fire (program env) s e).store l ∨ TakesDown env s l e := by
  cases e with
  | begin t call =>
    left
    simp only [fire]
    split
    · split <;> exact live
    · exact live
  | advance t now =>
    simp only [fire]
    split
    · rename_i x found
      rw [settle_store]
      cases hphase : x.phase with
      | write w =>
        simp only [program, step]
        split
        · rename_i reply u performed
          rcases takedown_of_write performed live with live | ⟨id, voter, vote, rfl, down⟩
          · exact .inl live
          · exact .inr (.advance x found hphase down)
        · exact .inl live
      | readLocation user sub =>
        simp only [program, step]
        split <;> exact .inl live
      | readHours user sub row => exact .inl live
      | readSecurity user sub row hours =>
        simp only [program, step]
        split <;> exact .inl live
    · exact .inl live
  | drop t => exact .inl live
  | other op =>
    simp only [fire, program, exec]
    cases performed : perform env s.store op with
    | ok t =>
      rcases takedown_of_perform performed live with live | down
      · exact .inl live
      · exact .inr (.other down)
    | error e => exact .inl live

/-- A step that takes no exposed location down disturbs no call. -/
theorem undisturbed_of_no_takedown {env : Env} {s : CallState} {e : CallEvent}
    (h : ∀ x ∈ s.running, ∀ l ∈ exposed x.phase, ¬ TakesDown env s l e) :
    Undisturbed env s e := by
  intro x hx l hl live
  exact (takesDown_of_fire live).resolve_right (h x hx l hl)

/-! Runs. -/

/-- A step of a call that commits no contribution leaves the store as it was. -/
theorem store_of_no_contribution {env : Env} {s : CallState} {t : ℕ} {now : Instant}
    (h : contribution env s (.advance t now) = none) :
    (fire (program env) s (.advance t now)).store = s.store := by
  simp only [fire]
  split
  · rename_i x found
    rw [settle_store]
    simp only [contribution, found, Option.map_some] at h
    cases hphase : x.phase with
    | readLocation user sub =>
      simp only [program, step]
      split <;> rfl
    | readHours user sub row => rfl
    | readSecurity user sub row hours =>
      simp only [program, step]
      split <;> rfl
    | write w =>
      simp only [program, step]
      split
      · rename_i reply u performed
        simp only [hphase, performed, Except.toOption, Option.isSome_some, if_true] at h
        cases w with
        | vote id voter position =>
          simp only [Write.perform, bind_ok, pure_ok] at performed
          obtain ⟨⟨totals, v⟩, voted, -⟩ := performed
          obtain ⟨prop, loc, _, votable, -⟩ := voteOnProposal_ok.mp voted
          simp [Write.location, votable.found] at h
        | review d => simp [Write.location] at h
        | verification id v => simp [Write.location] at h
        | freshness l => simp [Write.location] at h
        | proposal id p => simp [Write.location] at h
      · rfl
  · rfl

/-- Over every run in which nothing takes a location down between the check and the last
write of a review or verification call on it, contributions commit on live locations only. -/
theorem contributions_commit_live (env : Env) (s : Store) (events : List CallEvent)
    (undisturbed : Along (program env) (Undisturbed env) (initial s) events) :
    Along (program env) (CommitsLive env) (initial s) events := by
  refine along_of_invariant (I := Asserts Checked) ?_ ?_ (initial_asserts Checked s) undisturbed
  · intro t e checked undisturbed
    exact fire_preserves_checked checked undisturbed
  · intro t e checked _
    exact commits_live_of_checked checked e

/-- Three users and a listing by the first of them. -/
def openRack : Store :=
  Operations.run Clock.env Schema.empty
    (enlist 1 ++ enlist 2 ++ enlist 3 ++ [.create 1 sampleRack 1])

/-- User 2 writes a review, user 3 confirms that the listing exists. -/
def sampleReview (id : ℕ) : Request :=
  .submit ⟨2, true⟩ true (.upsertReview id 1 ⟨5, by decide⟩ ⟨"Dry and well lit", by decide⟩)

def sampleConfirmation : Request :=
  .submit ⟨3, true⟩ true (.recordVerification 1 ⟨1, 3, .existence .stillExists⟩)

/-- The three reads of `require_active`. -/
def checks (t : ℕ) : List CallEvent := [.advance t 0, .advance t 0, .advance t 0]

def takedown : CallEvent := .other (.setParkingState 1 [.active] .invalid 1)

/-- Both calls finish before a moderator takes the listing down; a third comes too late. -/
def earlyContributions : List CallEvent :=
  .begin 0 (sampleReview 1) :: checks 0 ++ .advance 0 1 ::
    .begin 1 sampleConfirmation :: checks 1 ++ .advance 1 2 :: .advance 1 3 ::
    takedown :: .begin 2 (sampleReview 2) :: checks 2

/-- The store a run over the sample listing ends in. -/
def outcome (events : List CallEvent) : Store :=
  (Interleaving.run (program Clock.env) (initial openRack) events).store

/-- What a store holds of the contributions to the sample listing. -/
def contributed (s : Store) : ℕ × ℕ × Option Instant :=
  (s.reviews.rows.length, s.verifications.rows.length,
    (s.locations.find 1).bind LocationRow.lastVerifiedAt)

theorem earlyContributions_live :
    contributed (outcome earlyContributions) = (1, 1, some 3) ∧
      Along (program Clock.env) (Undisturbed Clock.env) (initial openRack) earlyContributions ∧
      Along (program Clock.env) (CommitsLive Clock.env) (initial openRack) earlyContributions := by
  have undisturbed : Along (program Clock.env) (Undisturbed Clock.env) (initial openRack)
      earlyContributions := by decide +kernel
  exact ⟨by decide +kernel, undisturbed,
    contributions_commit_live Clock.env openRack _ undisturbed⟩

/-- Both calls have passed their check when the moderator takes the listing down. -/
def lateContributions : List CallEvent :=
  .begin 0 (sampleReview 1) :: checks 0 ++ .begin 1 sampleConfirmation :: checks 1 ++
    [takedown, .advance 0 1, .advance 1 2, .advance 1 3]

/-- The review, the confirmation and the refreshed date are all written after the takedown. -/
theorem lateContributions_slip :
    ¬ Along (program Clock.env) (CommitsLive Clock.env) (initial openRack) lateContributions ∧
      contributed (outcome (lateContributions.take 9)) = (0, 0, none) ∧
      ¬ Live (outcome (lateContributions.take 9)) 1 ∧
      contributed (outcome lateContributions) = (1, 1, some 3) ∧
      ¬ Live (outcome lateContributions) 1 := by
  decide +kernel

end LiveSpots
