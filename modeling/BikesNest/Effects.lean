import BikesNest.Operations

/-! What one operation can do to a listing, and where a proposal's payload comes from. Every
invariant of the stored listings is derived from these two inversions. -/

namespace Effects

open Parking Proposal Schema Publishing Contribution Accounts Operations

/-- No listing is touched: rows may lose their creator and revisions their editor. -/
structure Kept (s t : Store) : Prop where
  location : ∀ l, ∃ forget : LocationRow → Option UserId,
    t.locations.find l = (s.locations.find l).map fun r => { r with creatorId := forget r }
  hours : t.hours = s.hours
  security : t.security = s.security
  snapshot : ∀ k, (t.revisions.find k).map RevisionRow.snapshot =
    (s.revisions.find k).map RevisionRow.snapshot

theorem Kept.of_eq {s t : Store} (locations : t.locations = s.locations)
    (hours : t.hours = s.hours) (security : t.security = s.security)
    (revisions : t.revisions = s.revisions) : Kept s t where
  location l := ⟨LocationRow.creatorId, by simp [locations]⟩
  hours := hours
  security := security
  snapshot k := by rw [revisions]

theorem Kept.of_accounts {s t : Store} (h : AccountsOnly s t) : Kept s t :=
  .of_eq h.locations h.hours h.security h.revisions

theorem kept_scrub (s : Store) (id : UserId) : Kept s (scrub s id) where
  location l := by
    refine ⟨fun r => if r.creatorId = some id then none else r.creatorId, ?_⟩
    rw [find_scrub_location]
    congr 1
    funext r
    by_cases hr : r.creatorId = some id <;> simp [hr]
  hours := rfl
  security := rfl
  snapshot k := by
    simp only [scrub, Table.find_update, Option.map_map]
    congr 1
    funext r
    by_cases hr : r.editorId = some id <;> simp [hr]

/-- The listing side of one operation. A published proposal is either approved directly, or
by the vote that has just been added to the store. -/
inductive Effect (env : Env) (s t : Store) : Op → Prop where
  | kept {op : Op} (h : Kept s t) : Effect env s t op
  | created {id : LocationId} {new : NewParkingLocation} {creator : UserId} (tz : Tz)
      (parts : Store) (h : Created env s t id new creator tz parts) :
      Effect env s t (.create id new creator)
  | edited {id : LocationId} {expectedVersion : ℕ} {edit : ParkingEdit} {editor : UserId}
      (loc row : LocationRow) (point : GeoPoint) (tz : Tz) (parts : Store)
      (h : Edited env s t id expectedVersion edit editor loc row point tz parts) :
      Effect env s t (.applyEdit id expectedVersion edit editor)
  | moderated {id : LocationId} {sources : List ModerationState} {target : ModerationState}
      {moderator : UserId} (old : LocationRow)
      (h : Moderated env s t id sources target moderator old) :
      Effect env s t (.setParkingState id sources target moderator)
  | approved {id : ProposalId} {moderator : UserId} {applied : ProposalApplication}
      (prop : ProposalRow) (loc row : LocationRow) (parts : Store)
      (h : Published env s t id moderator applied prop loc row parts) :
      Effect env s t (.approveProposal id moderator applied)
  | voted {id : ProposalId} {voter : UserId} {vote : ProposalVote} {now : Instant}
      (applied : ProposalApplication) (prop : ProposalRow) (loc row : LocationRow)
      (parts : Store)
      (merged : merge env prop.kind (ProposedChange.fromJson env prop.kind prop.proposed) {} =
        .ok applied)
      (h : Published env (upsertVote s id voter vote) t id voter applied prop loc row parts) :
      Effect env s t (.voteOnProposal id voter vote now)

theorem kept_escalate (s : Store) (id : ProposalId) (now : Instant) : Kept s (escalate s id now) :=
  .of_eq rfl rfl rfl rfl

theorem kept_upsertVote (s : Store) (id : ProposalId) (voter : UserId) (vote : ProposalVote) :
    Kept s (upsertVote s id voter vote) :=
  .of_eq rfl rfl rfl rfl

theorem vote_effect {env : Env} {s t : Store} {id : ProposalId} {voter : UserId}
    {vote : ProposalVote} {now : Instant} {totals : ProposalVoteTotals}
    (h : voteOnProposal env s id voter vote now = .ok (totals, t)) :
    Effect env s t (.voteOnProposal id voter vote now) := by
  obtain ⟨prop, loc, u, hv, -, -, -, -, hs⟩ := voteOnProposal_ok.mp h
  obtain rfl : prop.id = id := (Table.find_eq_some.mp hv.found).2
  rcases settleVote_cases hs with ⟨-, -, applied, hm, happ⟩ | ⟨-, -, -, rfl⟩ | ⟨-, -, rfl⟩
  · obtain ⟨prop', loc', row, parts, hp⟩ := approve_ok.mp happ
    obtain rfl : prop = prop' := Option.some.inj (hv.found.symm.trans hp.found)
    exact .voted applied prop loc' row parts hm hp
  · exact .kept (.of_eq rfl rfl rfl rfl)
  · exact .kept (kept_upsertVote s prop.id voter vote)

theorem perform_effect {env : Env} {s t : Store} {op : Op} (h : perform env s op = .ok t) :
    Effect env s t op := by
  cases op with
  | create id new creator =>
    simp only [perform, Outcome.mapError_ok] at h
    obtain ⟨tz, parts, hc⟩ := create_ok h
    exact .created tz parts hc
  | applyEdit id expectedVersion edit editor =>
    simp only [perform, Outcome.mapError_ok] at h
    obtain ⟨loc, row, point, tz, parts, he⟩ := applyEdit_ok h
    exact .edited loc row point tz parts he
  | createProposal id p =>
    simp only [perform, Outcome.mapError_ok] at h
    obtain ⟨loc, author, hs⟩ := createProposal_ok.mp h
    rw [hs.outcome]
    exact .kept (.of_eq rfl rfl rfl rfl)
  | voteOnProposal id voter vote now =>
    simp only [perform, Outcome.mapError_ok] at h
    obtain ⟨⟨totals, t'⟩, hv, rfl⟩ := Outcome.map_ok.mp h
    exact vote_effect hv
  | setParkingState id sources target moderator =>
    simp only [perform, Outcome.mapError_ok] at h
    obtain ⟨old, hm⟩ := setParkingState_ok.mp h
    exact .moderated old hm
  | approveProposal id moderator applied =>
    simp only [perform, Outcome.mapError_ok] at h
    obtain ⟨prop, loc, row, parts, hp⟩ := approve_ok.mp h
    exact .approved prop loc row parts hp
  | rejectProposal id moderator reason =>
    simp only [perform, Outcome.mapError_ok] at h
    obtain ⟨-, prop, -, -, -, rfl⟩ := rejectProposal_ok.mp h
    exact .kept (.of_eq rfl rfl rfl rfl)
  | register id publicName =>
    simp only [perform, Outcome.mapError_ok] at h
    exact .kept (.of_accounts (register_frame h))
  | confirmEmail id now =>
    simp only [perform, Except.ok.injEq] at h
    exact .kept (h ▸ .of_accounts (confirmEmail_frame s id now))
  | suspendByAdmin id =>
    simp only [perform, Outcome.mapError_ok] at h
    exact .kept (.of_accounts (suspendByAdmin_frame h))
  | restoreByAdmin id =>
    simp only [perform, Except.ok.injEq] at h
    exact .kept (h ▸ .of_accounts (restoreByAdmin_frame s id))
  | anonymize id =>
    simp only [perform, Outcome.mapError_ok] at h
    exact .kept (anonymize_ok h ▸ kept_scrub s id)

/-- One listing is written: its row, its revision, and nothing of any other listing. -/
structure Rewrites (s t : Store) (row : LocationRow) (snapshot : Json) : Prop where
  location : ∀ l, t.locations.find l = if l = row.id then some row else s.locations.find l
  revision : ∃ rev : RevisionRow, rev.snapshot = snapshot ∧ ∀ k, t.revisions.find k =
    if k = (row.id, row.version) then some rev else s.revisions.find k
  hours : ∀ l, l ≠ row.id → hoursOf t l = hoursOf s l
  security : ∀ l code, l ≠ row.id → t.security.find (l, code) = s.security.find (l, code)

theorem revision_of_insert {s t : Store} {r : RevisionRow}
    (h : s.revisions.insert r = some t.revisions) :
    ∃ rev : RevisionRow, rev.snapshot = r.snapshot ∧ ∀ k, t.revisions.find k =
      if k = (r.locationId, r.version) then some rev else s.revisions.find k := by
  refine ⟨r, rfl, fun k => ?_⟩
  rw [Table.find_insert h]
  by_cases hk : (r.locationId, r.version) = k
  · simp [hk]
  · simp [hk, Ne.symm hk]

theorem location_of_set {s t : Store} {old row : LocationRow}
    (h : t.locations = (setLocation s row).locations)
    (found : s.locations.find row.id = some old) (l : LocationId) :
    t.locations.find l = if l = row.id then some row else s.locations.find l := by
  rw [h, find_setLocation]
  by_cases hl : l = row.id
  · simp [hl, found]
  · simp [hl]

theorem created_rewrites {env : Env} {s t : Store} {id : LocationId} {new : NewParkingLocation}
    {creator : UserId} {tz : Tz} {parts : Store}
    (h : Created env s t id new creator tz parts) :
    Rewrites s t (newRow id new tz creator) (newSnapshot env new tz) := by
  refine ⟨?_, revision_of_insert h.recorded, ?_, ?_⟩
  · intro l
    rw [Table.find_insert h.inserted]
    by_cases hl : (newRow id new tz creator).id = l
    · simp [hl]
    · simp [hl, Ne.symm hl]
  · intro l hl
    simp only [hoursOf, h.parts_eq.1]
    exact (hoursOf_writeHours h.written l).trans (if_neg hl)
  · intro l code hl
    obtain ⟨-, written, same⟩ := h.parts_eq
    rw [written, find_writeSecurity, if_neg (fun hc => hl hc.1), same]

theorem edited_rewrites {env : Env} {s t : Store} {id : LocationId} {expectedVersion : ℕ}
    {edit : ParkingEdit} {editor : UserId} {loc row : LocationRow} {point : GeoPoint} {tz : Tz}
    {parts : Store} (h : Edited env s t id expectedVersion edit editor loc row point tz parts) :
    Rewrites s t row (editSnapshot env row edit point tz) := by
  have hid : row.id = id := (changedRow_id h.changed).trans (Table.find_eq_some.mp h.found).2
  subst hid
  refine ⟨location_of_set h.frame.1 h.found, revision_of_insert h.recorded, ?_, ?_⟩
  · intro l hl
    simp only [hoursOf, h.parts_eq.1]
    exact (hoursOf_writeHours h.written l).trans (if_neg hl)
  · intro l code hl
    obtain ⟨-, written, same⟩ := h.parts_eq
    rw [written, find_writeSecurity, if_neg (fun hc => hl hc.1), same]

theorem moderated_rewrites {env : Env} {s t : Store} {id : LocationId}
    {sources : List ModerationState} {target : ModerationState} {moderator : UserId}
    {old : LocationRow} (h : Moderated env s t id sources target moderator old) :
    Rewrites s t (moderatedRow old target) (snapshotWith env t (moderatedRow old target)) := by
  obtain rfl : old.id = id := (Table.find_eq_some.mp h.found).2
  have hours : t.hours = s.hours := by rw [h.outcome]; rfl
  have security : t.security = s.security := by rw [h.outcome]; rfl
  refine ⟨location_of_set (by rw [h.outcome]; rfl) h.found, ?_, ?_, ?_⟩
  · rw [snapshotWith_congr _ hours security]
    exact revision_of_insert h.recorded
  · intro l _
    simp only [hoursOf, hours]
  · intro l code _
    rw [security]

theorem published_rewrites {env : Env} {s t : Store} {id : ProposalId} {moderator : UserId}
    {applied : ProposalApplication} {prop : ProposalRow} {loc row : LocationRow} {parts : Store}
    (h : Published env s t id moderator applied prop loc row parts) :
    Rewrites s t row (snapshotWith env t row) := by
  have hid : row.id = loc.id := changedRow_id h.changed
  have found : s.locations.find row.id = some loc := by
    rw [hid, h.location_id]
    exact h.located
  refine ⟨location_of_set h.locations found, ?_, ?_, ?_⟩
  · rw [← h.snapshot, hid]
    exact revision_of_insert h.recorded
  · intro l hl
    simp only [hoursOf, h.hours]
    exact hoursOf_writeParts h.written (hid ▸ hl)
  · intro l code hl
    rw [h.security]
    exact find_security_writeParts h.written (hid ▸ hl) code

/-- The columns of a proposal that no operation changes. -/
structure SamePayload (p q : ProposalRow) : Prop where
  id : p.id = q.id
  locationId : p.locationId = q.locationId
  baseVersion : p.baseVersion = q.baseVersion
  kind : p.kind = q.kind
  proposed : p.proposed = q.proposed

/-- The public name of a proposal is not decided again, and its proposer may be forgotten. -/
structure Follows (p q : ProposalRow) : Prop extends SamePayload p q where
  publicAuthor : q.publicAuthor = p.publicAuthor
  proposer : q.proposerId = p.proposerId ∨ q.proposerId = none

theorem Follows.refl (p : ProposalRow) : Follows p p :=
  ⟨⟨rfl, rfl, rfl, rfl, rfl⟩, rfl, .inl rfl⟩

/-- Every proposal of `t` follows one of `s`. -/
def PayloadsFrom (s t : Store) : Prop :=
  ∀ i q, t.proposals.find i = some q → ∃ p, s.proposals.find i = some p ∧ Follows p q

theorem PayloadsFrom.of_eq {s t : Store} (h : t.proposals = s.proposals) : PayloadsFrom s t :=
  fun _ q hq => ⟨q, h ▸ hq, .refl q⟩

theorem PayloadsFrom.of_map {s t : Store} {f : ProposalId → ProposalRow → ProposalRow}
    (h : ∀ i, t.proposals.find i = (s.proposals.find i).map (f i))
    (hf : ∀ i p, Follows p (f i p)) : PayloadsFrom s t := by
  intro i q hq
  rw [h, Option.map_eq_some_iff] at hq
  obtain ⟨p, hp, rfl⟩ := hq
  exact ⟨p, hp, hf i p⟩

theorem payloads_supersede (s : Store) (l : LocationId) (spared : Option ProposalId) :
    PayloadsFrom s (supersedePendingProposals s l spared) := by
  refine .of_map (find_supersede s l spared) fun i p => ?_
  split <;> exact ⟨⟨rfl, rfl, rfl, rfl, rfl⟩, rfl, .inl rfl⟩

theorem payloads_published {env : Env} {s t : Store} {id : ProposalId} {moderator : UserId}
    {applied : ProposalApplication} {prop : ProposalRow} {loc row : LocationRow} {parts : Store}
    (h : Published env s t id moderator applied prop loc row parts) : PayloadsFrom s t := by
  refine .of_map h.find_proposal fun i p => ?_
  split
  · exact ⟨⟨rfl, rfl, rfl, rfl, rfl⟩, rfl, .inl rfl⟩
  · split <;> exact ⟨⟨rfl, rfl, rfl, rfl, rfl⟩, rfl, .inl rfl⟩

theorem payloads_vote {env : Env} {s t : Store} {id : ProposalId} {voter : UserId}
    {vote : ProposalVote} {now : Instant} {totals : ProposalVoteTotals}
    (h : voteOnProposal env s id voter vote now = .ok (totals, t)) : PayloadsFrom s t := by
  obtain ⟨prop, loc, u, hv, -, -, -, -, hs⟩ := voteOnProposal_ok.mp h
  rcases settleVote_cases hs with ⟨-, -, applied, hm, happ⟩ | ⟨-, -, -, rfl⟩ | ⟨-, -, rfl⟩
  · obtain ⟨prop', loc', row, parts, hp⟩ := approve_ok.mp happ
    have published := payloads_published hp
    exact published
  · refine .of_map (f := fun _ p => if p.id = prop.id ∧ p.escalatedAt = none then
      { p with escalatedAt := some now } else p) (fun i => ?_) fun i p => ?_
    · simp [escalate, upsertVote]
    · split <;> exact ⟨⟨rfl, rfl, rfl, rfl, rfl⟩, rfl, .inl rfl⟩
  · exact .of_eq rfl

/-- A proposal of the next state has the payload it had, or has just been submitted. -/
theorem proposal_origin {env : Env} {s t : Store} {op : Op} (h : perform env s op = .ok t)
    {i : ProposalId} {q : ProposalRow} (hq : t.proposals.find i = some q) :
    (∃ p, s.proposals.find i = some p ∧ Follows p q) ∨
    ∃ n loc author, op = .createProposal i n ∧ Submitted env s t i n loc author ∧
      q = newProposalRow i n author.publicContributionName := by
  have old : PayloadsFrom s t → (∃ p, s.proposals.find i = some p ∧ Follows p q) ∨
      ∃ n loc author, op = .createProposal i n ∧ Submitted env s t i n loc author ∧
        q = newProposalRow i n author.publicContributionName :=
    fun hp => .inl (hp i q hq)
  cases op with
  | create id new creator =>
    simp only [perform, Outcome.mapError_ok] at h
    obtain ⟨tz, parts, hc⟩ := create_ok h
    exact old (.of_eq hc.frame.1)
  | applyEdit id expectedVersion edit editor =>
    simp only [perform, Outcome.mapError_ok] at h
    obtain ⟨loc, row, point, tz, parts, he⟩ := applyEdit_ok h
    exact old (.of_eq he.frame.2.1)
  | createProposal id n =>
    simp only [perform, Outcome.mapError_ok] at h
    obtain ⟨loc, author, hs⟩ := createProposal_ok.mp h
    rw [Table.find_insert hs.inserted] at hq
    split at hq
    · rename_i hid
      obtain rfl : id = i := hid
      exact .inr ⟨n, loc, author, rfl, hs, (Option.some.inj hq).symm⟩
    · exact .inl ⟨q, hq, .refl q⟩
  | voteOnProposal id voter vote now =>
    simp only [perform, Outcome.mapError_ok] at h
    obtain ⟨⟨totals, t'⟩, hv, rfl⟩ := Outcome.map_ok.mp h
    exact old (payloads_vote hv)
  | setParkingState id sources target moderator =>
    simp only [perform, Outcome.mapError_ok] at h
    obtain ⟨old', hm⟩ := setParkingState_ok.mp h
    refine old fun i q hq => ?_
    rw [hm.outcome] at hq
    exact payloads_supersede _ id none i q hq
  | approveProposal id moderator applied =>
    simp only [perform, Outcome.mapError_ok] at h
    obtain ⟨prop, loc, row, parts, hp⟩ := approve_ok.mp h
    exact old (payloads_published hp)
  | rejectProposal id moderator reason =>
    simp only [perform, Outcome.mapError_ok] at h
    obtain ⟨-, prop, -, -, -, rfl⟩ := rejectProposal_ok.mp h
    refine old (.of_map (find_decide s id _ _ _) fun i p => ?_)
    split <;> exact ⟨⟨rfl, rfl, rfl, rfl, rfl⟩, rfl, .inl rfl⟩
  | register id publicName =>
    simp only [perform, Outcome.mapError_ok] at h
    exact old (.of_eq (register_frame h).proposals)
  | confirmEmail id now =>
    simp only [perform, Except.ok.injEq] at h
    exact old (.of_eq (h ▸ (confirmEmail_frame s id now).proposals))
  | suspendByAdmin id =>
    simp only [perform, Outcome.mapError_ok] at h
    exact old (.of_eq (suspendByAdmin_frame h).proposals)
  | restoreByAdmin id =>
    simp only [perform, Except.ok.injEq] at h
    exact old (.of_eq (h ▸ (restoreByAdmin_frame s id).proposals))
  | anonymize id =>
    simp only [perform, Outcome.mapError_ok] at h
    refine old ?_
    rw [anonymize_ok h]
    refine .of_map (find_scrub_proposal s id) fun i p => ⟨⟨rfl, rfl, rfl, rfl, rfl⟩, rfl, ?_⟩
    by_cases own : p.proposerId = some id
    · exact .inr (if_pos own)
    · exact .inl (if_neg own)

theorem reviews_published {env : Env} {s t : Store} {id : ProposalId} {moderator : UserId}
    {applied : ProposalApplication} {prop : ProposalRow} {loc row : LocationRow} {parts : Store}
    (h : Published env s t id moderator applied prop loc row parts) : t.reviews = s.reviews := by
  rw [h.outcome]
  exact (writeParts_frame h.written).reviews

/-- No operation but an anonymization touches a review. -/
theorem reviews_perform {env : Env} {s t : Store} {op : Op} (h : perform env s op = .ok t) :
    t.reviews = s.reviews ∨ ∃ id, op = .anonymize id ∧ t = scrub s id := by
  cases op with
  | create id new creator =>
    simp only [perform, Outcome.mapError_ok] at h
    obtain ⟨tz, parts, hc⟩ := create_ok h
    obtain ⟨-, -, filled, -, hparts⟩ := writeHours_ok.mp hc.written
    exact .inl (by rw [hc.outcome, ← hparts]; rfl)
  | applyEdit id expectedVersion edit editor =>
    simp only [perform, Outcome.mapError_ok] at h
    obtain ⟨loc, row, point, tz, parts, he⟩ := applyEdit_ok h
    obtain ⟨-, -, filled, -, hparts⟩ := writeHours_ok.mp he.written
    exact .inl (by rw [he.outcome, ← hparts]; rfl)
  | createProposal id n =>
    simp only [perform, Outcome.mapError_ok] at h
    obtain ⟨loc, author, hs⟩ := createProposal_ok.mp h
    exact .inl (by rw [hs.outcome])
  | voteOnProposal id voter vote now =>
    simp only [perform, Outcome.mapError_ok] at h
    obtain ⟨⟨totals, t'⟩, hv, rfl⟩ := Outcome.map_ok.mp h
    obtain ⟨prop, loc, u, -, -, -, -, -, hs⟩ := voteOnProposal_ok.mp hv
    rcases settleVote_cases hs with ⟨-, -, applied, -, happ⟩ | ⟨-, -, -, rfl⟩ | ⟨-, -, rfl⟩
    · obtain ⟨prop', loc', row, parts, hp⟩ := approve_ok.mp happ
      have published := reviews_published hp
      exact .inl published
    · exact .inl rfl
    · exact .inl rfl
  | setParkingState id sources target moderator =>
    simp only [perform, Outcome.mapError_ok] at h
    obtain ⟨old, hm⟩ := setParkingState_ok.mp h
    exact .inl (by rw [hm.outcome]; rfl)
  | approveProposal id moderator applied =>
    simp only [perform, Outcome.mapError_ok] at h
    obtain ⟨prop, loc, row, parts, hp⟩ := approve_ok.mp h
    exact .inl (reviews_published hp)
  | rejectProposal id moderator reason =>
    simp only [perform, Outcome.mapError_ok] at h
    obtain ⟨-, prop, -, -, -, rfl⟩ := rejectProposal_ok.mp h
    exact .inl rfl
  | register id publicName =>
    simp only [perform, Outcome.mapError_ok] at h
    exact .inl (register_frame h).reviews
  | confirmEmail id now =>
    simp only [perform, Except.ok.injEq] at h
    exact .inl (h ▸ (confirmEmail_frame s id now).reviews)
  | suspendByAdmin id =>
    simp only [perform, Outcome.mapError_ok] at h
    exact .inl (suspendByAdmin_frame h).reviews
  | restoreByAdmin id =>
    simp only [perform, Except.ok.injEq] at h
    exact .inl (h ▸ (restoreByAdmin_frame s id).reviews)
  | anonymize id =>
    simp only [perform, Outcome.mapError_ok] at h
    exact .inr ⟨id, rfl, anonymize_ok h⟩

end Effects
