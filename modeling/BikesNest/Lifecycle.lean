import BikesNest.Operations
import BikesNest.Versioned

/-! The life of a proposal. The store is seen as a collection of versioned documents with
tickets: locations are the documents, proposals the tickets, and `parking_revision` holds
the histories. Every operation of the repositories is one event of that machine, so what
holds of the machine holds of every run of the store. -/

namespace Lifecycle

open Parking Proposal Schema Publishing Contribution Accounts Operations Versioned

def statusOf : ProposalStatus → Status
  | .pending => .pending
  | .approved => .accepted
  | .rejected => .declined
  | .superseded => .retired

theorem statusOf_injective {a b : ProposalStatus} (h : statusOf a = statusOf b) : a = b := by
  cases a <;> cases b <;> first | rfl | cases h

def docOf (r : LocationRow) : Doc := ⟨r.version, decide (r.moderationState = .active)⟩

def ticketOf (p : ProposalRow) : Ticket LocationId :=
  ⟨p.locationId, p.baseVersion, statusOf p.status⟩

/-- The revision numbers recorded for a location, in the order they were written. -/
def recorded (s : Store) (l : LocationId) : List ℕ :=
  (s.revisions.filter fun r => decide (r.locationId = l)).map RevisionRow.version

def view (s : Store) : State LocationId ProposalId where
  doc l := (s.locations.find l).map docOf
  ticket i := (s.proposals.find i).map ticketOf
  history l := recorded s l

theorem view_empty : view Schema.empty = Versioned.initial := by
  rfl

theorem recorded_insert {s t : Store} {r : RevisionRow}
    (h : s.revisions.insert r = some t.revisions) (l : LocationId) :
    recorded t l = if r.locationId = l then recorded s l ++ [r.version] else recorded s l := by
  have hrows := (Table.insert_eq_some.mp h).2
  by_cases hl : r.locationId = l <;> simp [recorded, Table.filter, hrows, hl]

/-- The view reads the locations, the proposals and the revisions only. -/
theorem view_congr {s t : Store} (locations : t.locations = s.locations)
    (proposals : t.proposals = s.proposals) (revisions : t.revisions = s.revisions) :
    view t = view s := by
  simp [view, recorded, locations, proposals, revisions]

theorem view_accounts {s t : Store} (h : AccountsOnly s t) : view t = view s :=
  view_congr h.locations h.proposals h.revisions

theorem view_scrub (s : Store) (id : UserId) : view (scrub s id) = view s := by
  ext1
  · funext l
    simp only [view, find_scrub_location, Option.map_map]
    congr 1
    funext r
    by_cases hr : r.creatorId = some id <;> simp [docOf, hr]
  · funext i
    simp only [view, find_scrub_proposal, Option.map_map]
    rfl
  · funext l
    simp only [view, recorded, Table.filter, scrub_revisions, List.filter_map, List.map_map]
    have hl : ((fun r : RevisionRow => decide (r.locationId = l)) ∘ fun r =>
        if r.editorId = some id then { r with editorId := none } else r) =
        fun r => decide (r.locationId = l) := by
      funext r
      by_cases hr : r.editorId = some id <;> simp [hr]
    have hv : (RevisionRow.version ∘ fun r =>
        if r.editorId = some id then { r with editorId := none } else r) =
        RevisionRow.version := by
      funext r
      by_cases hr : r.editorId = some id <;> simp [hr]
    rw [hl, hv]

theorem view_upsertVote (s : Store) (id : ProposalId) (voter : UserId) (vote : ProposalVote) :
    view (upsertVote s id voter vote) = view s :=
  view_congr rfl rfl rfl

theorem view_escalate (s : Store) (id : ProposalId) (now : Instant) :
    view (escalate s id now) = view s := by
  ext1
  · rfl
  · funext i
    simp only [view, escalate, Table.find_update, Option.map_map]
    congr 1
    funext p
    by_cases hp : p.id = id ∧ p.escalatedAt = none <;> simp [ticketOf, hp]
  · rfl

/-- The location column of the view after one row is overwritten. -/
theorem doc_setLocation {s t : Store} {old row : LocationRow}
    (h : t.locations = (setLocation s row).locations) (found : s.locations.find row.id = some old) :
    (view t).doc = Function.update (view s).doc row.id (some (docOf row)) := by
  funext l
  simp only [view, h, find_setLocation]
  by_cases hl : l = row.id
  · subst hl
    simp [found]
  · simp [hl]

theorem history_insert {s t : Store} {r : RevisionRow}
    (h : s.revisions.insert r = some t.revisions) :
    (view t).history = Function.update (view s).history r.locationId
      ((view s).history r.locationId ++ [r.version]) := by
  funext l
  simp only [view, recorded_insert h]
  by_cases hl : r.locationId = l
  · subst hl
    simp
  · simp [hl, Ne.symm hl]

theorem view_create {env : Env} {s s' : Store} {id : LocationId} {new : NewParkingLocation}
    {creator : UserId} {tz : Tz} {parts : Store}
    (h : Created env s s' id new creator tz parts) :
    Enabled (view s) (.add id) ∧ view s' = next (view s) (.add id) := by
  have hnone : s.locations.find id = none := (Table.insert_eq_some.mp h.inserted).1
  refine ⟨by simp [Enabled, view, hnone], ?_⟩
  ext1
  · funext l
    simp only [view, next, record, Table.find_insert h.inserted]
    by_cases hl : id = l
    · simp [hl, newRow, docOf]
    · simp [hl, newRow, Ne.symm hl]
  · simp only [view, next, record, h.frame.1]
  · exact history_insert h.recorded

theorem view_applyEdit {env : Env} {s s' : Store} {id : LocationId} {expectedVersion : ℕ}
    {edit : ParkingEdit} {editor : UserId} {loc row : LocationRow} {point : GeoPoint} {tz : Tz}
    {parts : Store} (h : Edited env s s' id expectedVersion edit editor loc row point tz parts) :
    Enabled (view s) (.overwrite id) ∧ view s' = next (view s) (.overwrite id) := by
  obtain ⟨locations, proposals, -⟩ := h.frame
  obtain rfl : loc.id = id := (Table.find_eq_some.mp h.found).2
  have hrow : row.id = loc.id := changedRow_id h.changed
  have hdoc : (view s).doc loc.id = some ⟨loc.version, true⟩ := by
    simp [view, h.found, docOf, h.active]
  have hnew : docOf row = ⟨loc.version + 1, true⟩ := by
    simp [docOf, changedRow_version h.changed, (changedRow_edit_active h.changed).2]
  refine ⟨⟨_, hdoc⟩, ?_⟩
  simp only [next, hdoc, record]
  ext1
  · rw [doc_setLocation locations (hrow ▸ h.found), hrow, hnew]
  · simp only [view, proposals]
  · rw [history_insert h.recorded, changedRow_version h.changed]

theorem view_createProposal {env : Env} {s s' : Store} {id : ProposalId} {p : NewProposal}
    {loc : LocationRow} {author : UserRow} (h : Submitted env s s' id p loc author) :
    Enabled (view s) (.submit id p.locationId) ∧
      view s' = next (view s) (.submit id p.locationId) := by
  have hnone : s.proposals.find id = none := (Table.insert_eq_some.mp h.inserted).1
  have hdoc : (view s).doc p.locationId = some ⟨p.baseVersion, true⟩ := by
    simp [view, h.located, docOf, h.active, h.current]
  refine ⟨⟨by simp [view, hnone], _, hdoc⟩, ?_⟩
  simp only [next, hdoc]
  ext1
  · rw [h.outcome]
    rfl
  · funext i
    simp only [view, Table.find_insert h.inserted]
    by_cases hi : id = i
    · simp [hi, newProposalRow, ticketOf, statusOf]
    · simp [hi, newProposalRow, Ne.symm hi]
  · rw [h.outcome]
    rfl

theorem view_setParkingState {env : Env} {s s' : Store} {id : LocationId}
    {sources : List ModerationState} {target : ModerationState} {moderator : UserId}
    {old : LocationRow} (h : Moderated env s s' id sources target moderator old) :
    Enabled (view s) (.revise id (decide (target = .active))) ∧
      view s' = next (view s) (.revise id (decide (target = .active))) := by
  obtain rfl : old.id = id := (Table.find_eq_some.mp h.found).2
  have hdoc : (view s).doc old.id = some (docOf old) := by
    simp [view, h.found]
  refine ⟨⟨_, hdoc⟩, ?_⟩
  simp only [next, hdoc, record, retire]
  ext1
  · exact doc_setLocation h.locations h.found
  · funext i
    simp only [view]
    rw [h.outcome, find_supersede]
    change Option.map _ (Option.map _ (s.proposals.find i)) = _
    simp only [Option.map_map]
    congr 1
    funext p
    by_cases hp : p.locationId = old.id <;> cases hs : p.status <;>
      simp [ticketOf, statusOf, hp, hs]
  · exact history_insert h.recorded

theorem view_rejectProposal {s s' : Store} {id : ProposalId} {moderator : UserId}
    {reason : String} (h : rejectProposal s id moderator reason = .ok s') :
    Enabled (view s) (.decline id) ∧ view s' = next (view s) (.decline id) := by
  obtain ⟨-, prop, found, pending, -, rfl⟩ := rejectProposal_ok.mp h
  refine ⟨⟨ticketOf prop, by simp [view, found], by simp [ticketOf, pending, statusOf]⟩, ?_⟩
  ext1
  · rfl
  · funext i
    simp only [view, next, settle, find_decide, Option.map_map]
    congr 1
    funext p
    by_cases hi : i = id <;> simp [ticketOf, statusOf, hi]
  · rfl

theorem view_approve {env : Env} {s s' : Store} {id : ProposalId} {moderator : UserId}
    {applied : ProposalApplication} {prop : ProposalRow} {loc row : LocationRow} {parts : Store}
    (h : Published env s s' id moderator applied prop loc row parts) :
    Enabled (view s) (.accept id (decide (row.moderationState = .active))) ∧
      view s' = next (view s) (.accept id (decide (row.moderationState = .active))) := by
  have hloc := h.location_id
  have hrow : row.id = loc.id := changedRow_id h.changed
  have hver := changedRow_version h.changed
  have hticket : (view s).ticket id = some (ticketOf prop) := by
    simp [view, h.found]
  refine ⟨⟨ticketOf prop, docOf loc, hticket, by simp [ticketOf, h.pending, statusOf],
    by simp [view, ticketOf, h.located], by simp [docOf, ticketOf, h.current]⟩, ?_⟩
  simp only [next, hticket, record, settle, retire]
  ext1
  · rw [doc_setLocation h.locations (by rw [hrow, hloc]; exact h.located), hrow, hloc]
    simp [docOf, ticketOf, hver, h.current]
  · funext i
    simp only [view, h.find_proposal, Option.map_map]
    congr 1
    funext p
    by_cases hi : i = id
    · simp [ticketOf, statusOf, hi]
    · by_cases hp : p.locationId = prop.locationId <;> cases hs : p.status <;>
        simp [ticketOf, statusOf, hi, hp, hs]
  · rw [history_insert h.recorded, hloc, hver, ← h.current]
    rfl

theorem view_vote {env : Env} {s s' : Store} {id : ProposalId} {voter : UserId}
    {vote : ProposalVote} {now : Instant} {totals : ProposalVoteTotals}
    (h : voteOnProposal env s id voter vote now = .ok (totals, s')) :
    ∃ e, Enabled (view s) e ∧ e.keepsFresh ∧ view s' = next (view s) e := by
  obtain ⟨prop, loc, u, hv, -, -, -, -, hs⟩ := voteOnProposal_ok.mp h
  rcases settleVote_cases hs with ⟨-, -, applied, -, happ⟩ | ⟨-, -, -, rfl⟩ | ⟨-, -, rfl⟩
  · obtain ⟨prop', loc', row, parts, hp⟩ := approve_ok.mp happ
    have := view_approve hp
    rw [view_upsertVote] at this
    exact ⟨_, this.1, trivial, this.2⟩
  · exact ⟨.idle, trivial, trivial, by rw [view_escalate, view_upsertVote]; rfl⟩
  · exact ⟨.idle, trivial, trivial, view_upsertVote s id voter vote⟩

/-- Only the direct edit leaves pending proposals of its location behind. -/
def retiresPending : Op → Bool
  | .applyEdit _ _ _ _ => false
  | _ => true

/-- Every operation of the repositories is one event of the machine. -/
theorem perform_refines {env : Env} {s t : Store} {op : Op} (h : perform env s op = .ok t) :
    ∃ e, Enabled (view s) e ∧ (retiresPending op = true → e.keepsFresh) ∧
      view t = next (view s) e := by
  have idle : view t = view s → ∃ e, Enabled (view s) e ∧
      (retiresPending op = true → e.keepsFresh) ∧ view t = next (view s) e :=
    fun hv => ⟨.idle, trivial, fun _ => trivial, hv⟩
  cases op with
  | create id new creator =>
    simp only [perform, Outcome.mapError_ok] at h
    obtain ⟨tz, parts, hc⟩ := create_ok h
    exact ⟨_, (view_create hc).1, fun _ => trivial, (view_create hc).2⟩
  | applyEdit id expectedVersion edit editor =>
    simp only [perform, Outcome.mapError_ok] at h
    obtain ⟨loc, row, point, tz, parts, he⟩ := applyEdit_ok h
    exact ⟨_, (view_applyEdit he).1, by simp [retiresPending], (view_applyEdit he).2⟩
  | createProposal id p =>
    simp only [perform, Outcome.mapError_ok] at h
    obtain ⟨loc, author, hs⟩ := createProposal_ok.mp h
    exact ⟨_, (view_createProposal hs).1, fun _ => trivial, (view_createProposal hs).2⟩
  | voteOnProposal id voter vote now =>
    simp only [perform, Outcome.mapError_ok] at h
    obtain ⟨⟨totals, t'⟩, hv, rfl⟩ := Outcome.map_ok.mp h
    obtain ⟨e, he, hk, hn⟩ := view_vote hv
    exact ⟨e, he, fun _ => hk, hn⟩
  | setParkingState id sources target moderator =>
    simp only [perform, Outcome.mapError_ok] at h
    obtain ⟨old, hm⟩ := setParkingState_ok.mp h
    exact ⟨_, (view_setParkingState hm).1, fun _ => trivial, (view_setParkingState hm).2⟩
  | approveProposal id moderator applied =>
    simp only [perform, Outcome.mapError_ok] at h
    obtain ⟨prop, loc, row, parts, hp⟩ := approve_ok.mp h
    exact ⟨_, (view_approve hp).1, fun _ => trivial, (view_approve hp).2⟩
  | rejectProposal id moderator reason =>
    simp only [perform, Outcome.mapError_ok] at h
    exact ⟨_, (view_rejectProposal h).1, fun _ => trivial, (view_rejectProposal h).2⟩
  | register id publicName =>
    simp only [perform, Outcome.mapError_ok] at h
    exact idle (view_accounts (register_frame h))
  | confirmEmail id now =>
    simp only [perform, Except.ok.injEq] at h
    exact idle (h ▸ view_accounts (confirmEmail_frame s id now))
  | suspendByAdmin id =>
    simp only [perform, Outcome.mapError_ok] at h
    exact idle (view_accounts (suspendByAdmin_frame h))
  | restoreByAdmin id =>
    simp only [perform, Except.ok.injEq] at h
    exact idle (h ▸ view_accounts (restoreByAdmin_frame s id))
  | anonymize id =>
    simp only [perform, Outcome.mapError_ok] at h
    exact idle (anonymize_ok h ▸ view_scrub s id)

theorem reachable_invariant (env : Env) (ops : List Op) :
    Invariant (view (run env Schema.empty ops)) := by
  refine run_invariant (P := fun s => Invariant (view s)) ?_ (along_true _ ops)
    (view_empty ▸ initial_invariant)
  intro s t op inv _ h
  obtain ⟨e, he, -, hv⟩ := perform_refines h
  rw [hv]
  exact step_preserves_invariant he inv

theorem reachable_grounded (env : Env) (ops : List Op) :
    Grounded (view (run env Schema.empty ops)) := by
  refine run_invariant (P := fun s => Grounded (view s)) ?_ (along_true _ ops)
    (view_empty ▸ initial_grounded)
  intro s t op grounded _ h
  obtain ⟨e, he, -, hv⟩ := perform_refines h
  rw [hv]
  exact step_preserves_grounded he grounded

theorem reachable_fresh {env : Env} {ops : List Op} (h : ∀ op ∈ ops, retiresPending op = true) :
    Fresh (view (run env Schema.empty ops)) := by
  refine run_invariant (P := fun s => Fresh (view s)) ?_ (along_of_forall h _)
    (view_empty ▸ initial_fresh)
  intro s t op fresh hk h
  obtain ⟨e, he, hkeep, hv⟩ := perform_refines h
  rw [hv]
  exact step_preserves_fresh he (hkeep hk) fresh

/-- Along any run a proposal keeps its location and base, and its status once it is decided. -/
theorem ticket_run (env : Env) {s : Store} {i : ProposalId} {x : Ticket LocationId}
    (hx : (view s).ticket i = some x) (ops : List Op) :
    ∃ y, (view (run env s ops)).ticket i = some y ∧ y.doc = x.doc ∧ y.base = x.base ∧
      (y.status = x.status ∨ x.status = .pending) := by
  refine run_invariant (P := fun t => ∃ y, (view t).ticket i = some y ∧ y.doc = x.doc ∧
    y.base = x.base ∧ (y.status = x.status ∨ x.status = .pending)) ?_
    (along_true _ ops) ⟨x, hx, rfl, rfl, .inl rfl⟩
  rintro s t op ⟨y, hy, hdoc, hbase, hstatus⟩ _ h
  obtain ⟨e, he, -, hv⟩ := perform_refines h
  obtain ⟨z, hz, hm⟩ := ticket_move he hy
  refine ⟨z, hv ▸ hz, hm.doc.trans hdoc, hm.base.trans hbase, ?_⟩
  rcases hm.status with hs | ⟨hp, -⟩
  · rw [hs]
    exact hstatus
  · rcases hstatus with hs | hs
    · exact .inr (hs ▸ hp)
    · exact .inr hs

theorem ticket_of_mem {s : Store} {p : ProposalRow} (h : p ∈ s.proposals) :
    (view s).ticket p.id = some (ticketOf p) := by
  simp [view, Table.find_of_mem h]

theorem mem_of_ticket {s : Store} {i : ProposalId} {x : Ticket LocationId}
    (h : (view s).ticket i = some x) : ∃ p ∈ s.proposals, p.id = i ∧ ticketOf p = x := by
  simp only [view, Option.map_eq_some_iff, Table.find_eq_some] at h
  obtain ⟨p, ⟨hp, rfl⟩, rfl⟩ := h
  exact ⟨p, hp, rfl, rfl⟩

theorem location_of_doc {s : Store} {l : LocationId} {d : Doc} (h : (view s).doc l = some d) :
    ∃ loc, s.locations.find l = some loc ∧ loc.version = d.version ∧
      decide (loc.moderationState = .active) = d.live := by
  simp only [view, Option.map_eq_some_iff] at h
  obtain ⟨loc, hl, rfl⟩ := h
  exact ⟨loc, hl, rfl, rfl⟩

/-- In every run of the operations that the services call, a pending proposal was written
against the version its location still has, the location is active, and so the proposal
passes every check a vote by somebody else makes. -/
theorem pending_proposal_current (env : Env) (ops : List Op)
    (service : ∀ op ∈ ops, retiresPending op = true)
    (p : ProposalRow) (found : p ∈ (run env Schema.empty ops).proposals)
    (pending : p.status = .pending) :
    ∃ loc, (run env Schema.empty ops).locations.find p.locationId = some loc ∧
      loc.version = p.baseVersion ∧ loc.moderationState = .active ∧
      ∀ voter, p.proposerId ≠ some voter →
        lockForVote (run env Schema.empty ops) p.id voter = .ok p := by
  have hdoc := reachable_fresh service p.id (ticketOf p) (ticket_of_mem found)
    (by simp [ticketOf, pending, statusOf])
  obtain ⟨loc, hloc, hversion, hlive⟩ := location_of_doc hdoc
  have hactive : loc.moderationState = .active := by simpa using hlive
  refine ⟨loc, hloc, hversion, hactive, fun voter hv => lockForVote_ok.mpr ⟨loc, ?_⟩⟩
  exact ⟨Table.find_of_mem found, hloc, hactive, hversion.symm, pending, hv⟩

theorem sampleProposal_current :
    ∃ loc, (run Clock.env Schema.empty (sampleStart sampleEdit)).locations.find 1 = some loc ∧
      loc.version = 1 ∧ loc.moderationState = .active ∧
      ∀ voter, some 1 ≠ some voter →
        lockForVote (run Clock.env Schema.empty (sampleStart sampleEdit)) 1 voter =
          .ok (newProposalRow 1 (proposeEdit sampleEdit) true) :=
  pending_proposal_current Clock.env (sampleStart sampleEdit) (by decide)
    (newProposalRow 1 (proposeEdit sampleEdit) true) (Table.mem_rows.mpr (by decide)) rfl

/-- The operation that approves `q`: it meets the location at exactly the proposal's base,
leaves it at the version after it, and writes that one revision. -/
structure ApprovedAt (s t : Store) (q : ProposalRow) : Prop where
  pending : ∃ p ∈ s.proposals, p.id = q.id ∧ p.locationId = q.locationId ∧
    p.baseVersion = q.baseVersion ∧ p.status = .pending
  before : ∃ loc, s.locations.find q.locationId = some loc ∧ loc.version = q.baseVersion
  after : ∃ loc, t.locations.find q.locationId = some loc ∧ loc.version = q.baseVersion + 1
  revision : recorded t q.locationId = recorded s q.locationId ++ [q.baseVersion + 1]
  others : ∀ l, l ≠ q.locationId → recorded t l = recorded s l

/-- One operation on a proposal `q` of the state it leaves: `q` is new and pending, or it
keeps the status it had, or it was pending and is not any more. -/
theorem status_move {env : Env} {s t : Store} {op : Op} (h : perform env s op = .ok t)
    {q : ProposalRow} (hq : q ∈ t.proposals) :
    (s.proposals.find q.id = none ∧ q.status = .pending) ∨
    ∃ p ∈ s.proposals, p.id = q.id ∧ p.locationId = q.locationId ∧
      p.baseVersion = q.baseVersion ∧
      (p.status = q.status ∨ (p.status = .pending ∧ q.status ≠ .pending)) ∧
      (q.status = .approved → p.status ≠ .approved → ApprovedAt s t q) := by
  obtain ⟨e, he, -, hv⟩ := perform_refines h
  have ht : (next (view s) e).ticket q.id = some (ticketOf q) := hv ▸ ticket_of_mem hq
  rcases ticket_origin he ht with ⟨x, hx, hm⟩ | ⟨hp, hnone, -⟩
  · obtain ⟨p, hp, hid, rfl⟩ := mem_of_ticket hx
    have hstatus : p.status = q.status ∨ (p.status = .pending ∧ q.status ≠ .pending) := by
      rcases hm.status with hs | ⟨h₁, h₂⟩
      · exact .inl (statusOf_injective hs.symm)
      · exact .inr ⟨statusOf_injective h₁, fun hq => h₂ (congrArg statusOf hq)⟩
    refine .inr ⟨p, hp, hid, hm.doc.symm, hm.base.symm, hstatus, ?_⟩
    intro hqa hpa
    have hacc := accepted_of_move he hx hm (congrArg statusOf hqa)
      fun hp => hpa (statusOf_injective hp)
    have hdoc : p.locationId = q.locationId := hm.doc.symm
    have hbase : p.baseVersion = q.baseVersion := hm.base.symm
    obtain ⟨d, hd, hdv⟩ := hacc.before
    obtain ⟨d', hd', hdv'⟩ := hacc.after
    rw [← hv] at hd'
    obtain ⟨loc, hloc, hlv, -⟩ := location_of_doc hd
    obtain ⟨loc', hloc', hlv', -⟩ := location_of_doc hd'
    have hpending : p.status = .pending := by
      rcases hstatus with hs | ⟨hs, -⟩
      · exact absurd (hs.trans hqa) hpa
      · exact hs
    refine ⟨⟨p, hp, hid, hdoc, hbase, hpending⟩, ?_, ?_, ?_, ?_⟩
    · exact ⟨loc, hdoc ▸ hloc, by rw [hlv, hdv, ← hbase]; rfl⟩
    · exact ⟨loc', hdoc ▸ hloc', by rw [hlv', hdv', ← hbase]; rfl⟩
    · have := hacc.history
      rw [← hv] at this
      rw [← hdoc, ← hbase]
      exact this
    · intro l hl
      have := (hacc.others l (by simpa [ticketOf, hdoc] using hl)).2
      rw [← hv] at this
      exact this
  · refine .inl ⟨by simpa [view] using hnone, statusOf_injective hp⟩

/-- For every run and every continuation of it, direct edits included: a proposal enters
pending, leaves that status at most once and never changes again; at most one proposal of a
location and base version is ever approved; and the operation that approves it is as
`ApprovedAt` says. -/
theorem proposal_decided_once (env : Env) (ops more : List Op) (op : Op) :
    (∀ p ∈ (run env Schema.empty ops).proposals,
      ∃ q ∈ (run env (run env Schema.empty ops) more).proposals, q.id = p.id ∧
        q.locationId = p.locationId ∧ q.baseVersion = p.baseVersion ∧
        (q.status = p.status ∨ p.status = .pending)) ∧
    (∀ p ∈ (run env Schema.empty ops).proposals,
      ∀ q ∈ (run env (run env Schema.empty ops) more).proposals,
      p.status = .approved → q.status = .approved → p.locationId = q.locationId →
      p.baseVersion = q.baseVersion → p.id = q.id) ∧
    (∀ q ∈ (exec env (run env Schema.empty ops) op).proposals,
      ((run env Schema.empty ops).proposals.find q.id = none → q.status = .pending) ∧
      (q.status = .approved →
        (∃ p ∈ (run env Schema.empty ops).proposals, p.id = q.id ∧ p.status = .approved) ∨
        ApprovedAt (run env Schema.empty ops) (exec env (run env Schema.empty ops) op) q)) := by
  have later : ∀ p ∈ (run env Schema.empty ops).proposals,
      ∃ q ∈ (run env (run env Schema.empty ops) more).proposals, q.id = p.id ∧
        q.locationId = p.locationId ∧ q.baseVersion = p.baseVersion ∧
        (q.status = p.status ∨ p.status = .pending) := by
    intro p hp
    obtain ⟨y, hy, hdoc, hbase, hstatus⟩ := ticket_run env (ticket_of_mem hp) more
    obtain ⟨q, hq, hid, rfl⟩ := mem_of_ticket hy
    refine ⟨q, hq, hid, hdoc, hbase, hstatus.imp (fun h => statusOf_injective h) ?_⟩
    exact fun h => statusOf_injective h
  refine ⟨later, ?_, ?_⟩
  · intro p hp q hq hpa hqa hloc hbase
    obtain ⟨p', hp', hid, hloc', hbase', hstatus⟩ := later p hp
    have hpa' : p'.status = .approved := by
      rcases hstatus with hs | hs
      · rw [hs, hpa]
      · rw [hpa] at hs
        cases hs
    have inv := reachable_invariant env (ops ++ more)
    rw [run_append] at inv
    rw [← hid]
    exact inv.once p'.id q.id (ticketOf p') (ticketOf q) (ticket_of_mem hp') (ticket_of_mem hq)
      (congrArg statusOf hpa') (congrArg statusOf hqa) (hloc'.trans hloc) (hbase'.trans hbase)
  · intro q hq
    cases hperform : perform env (run env Schema.empty ops) op with
    | error e =>
      rw [exec_error hperform] at hq
      refine ⟨fun hnone => ?_, fun ha => .inl ⟨q, hq, rfl, ha⟩⟩
      rw [Table.find_of_mem hq] at hnone
      cases hnone
    | ok t =>
      rw [exec_ok hperform] at hq ⊢
      rcases status_move hperform hq with ⟨hnone, hpend⟩ | ⟨p, hp, hid, -, -, -, hacc⟩
      · refine ⟨fun _ => hpend, fun ha => ?_⟩
        rw [ha] at hpend
        cases hpend
      · refine ⟨fun hnone => ?_, fun ha => ?_⟩
        · rw [← hid, Table.find_of_mem hp] at hnone
          cases hnone
        · by_cases hpa : p.status = .approved
          · exact .inl ⟨p, hp, hid, hpa⟩
          · exact .inr (hacc ha hpa)

/-- For every run, the revisions recorded for a location are numbered 1 up to its version,
one for each number and in that order. One operation more either leaves a location's version
and revisions alone, or moves the version on by one and records exactly that number; a failed
operation leaves the store as it was. -/
theorem revisions_match_version (env : Env) (ops : List Op) (op : Op) :
    (∀ loc ∈ (run env Schema.empty ops).locations,
      recorded (run env Schema.empty ops) loc.id = List.range' 1 loc.version) ∧
    (∀ l, (((exec env (run env Schema.empty ops) op).locations.find l).map LocationRow.version =
          ((run env Schema.empty ops).locations.find l).map LocationRow.version ∧
        recorded (exec env (run env Schema.empty ops) op) l =
          recorded (run env Schema.empty ops) l) ∨
      ∃ v, ((exec env (run env Schema.empty ops) op).locations.find l).map LocationRow.version =
          some (v + 1) ∧
        (((run env Schema.empty ops).locations.find l).map LocationRow.version).getD 0 = v ∧
        recorded (exec env (run env Schema.empty ops) op) l =
          recorded (run env Schema.empty ops) l ++ [v + 1]) ∧
    (∀ e, perform env (run env Schema.empty ops) op = .error e →
      exec env (run env Schema.empty ops) op = run env Schema.empty ops) := by
  have versions : ∀ (s : Store) l, (s.locations.find l).map LocationRow.version =
      ((view s).doc l).map Doc.version := by
    intro s l
    simp only [view, Option.map_map]
    rfl
  refine ⟨?_, ?_, fun e => exec_error⟩
  · intro loc hloc
    have h := (reachable_invariant env ops).history loc.id
    simpa [view, Table.find_of_mem hloc, docOf] using h
  · intro l
    cases hperform : perform env (run env Schema.empty ops) op with
    | error e =>
      rw [exec_error hperform]
      exact .inl ⟨rfl, rfl⟩
    | ok t =>
      rw [exec_ok hperform]
      obtain ⟨e, he, -, hv⟩ := perform_refines hperform
      have hm := doc_move he l
      rw [← hv] at hm
      rw [versions, versions]
      cases hm with
      | same doc history => exact .inl ⟨by rw [doc], history⟩
      | added absent doc history =>
        exact .inr ⟨0, by rw [doc]; rfl, by rw [absent]; rfl, history⟩
      | moved x live present doc history =>
        exact .inr ⟨x.version, by rw [doc]; rfl, by rw [present]; rfl, history⟩

end Lifecycle
