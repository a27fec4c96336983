import BikesNest.Lifecycle

/-! What a rejection can bring about. A proposal is published from the recounted tally of
eligible approvals, whatever the vote just cast, so the question is how that tally moves
between votes: only a restored account makes it grow without a vote. -/

namespace VoteTally

open Parking Proposal Schema Publishing Contribution Accounts Operations

/-- The eligible approvals of a proposal by users other than `voter`. -/
def standingApprovals (s : Store) (id : ProposalId) (voter : UserId) : ℕ :=
  s.votes.count fun v => decide (v.proposalId = id ∧ v.vote = .approve ∧ v.voterId ≠ voter) &&
    (s.users.find v.voterId).any eligibleVoter

/-- A cast rejection leaves exactly the approvals of the other users. -/
theorem approvals_after_rejection (s : Store) (id : ProposalId) (voter : UserId) :
    countVotes (upsertVote s id voter .reject) id .approve = standingApprovals s id voter := by
  simp only [countVotes, upsertVote, standingApprovals]
  rw [Table.count_upsert_of_not (by simp) (by simp)]
  refine List.countP_congr fun v _ => ?_
  by_cases hv : v.voterId = voter <;> by_cases hp : v.proposalId = id <;> simp [hv, hp]

theorem standing_le_approvals (s : Store) (id : ProposalId) (voter : UserId) :
    standingApprovals s id voter ≤ countVotes s id .approve := by
  refine List.countP_mono_left fun v _ h => ?_
  simp only [Bool.and_eq_true, decide_eq_true_eq] at h ⊢
  exact ⟨⟨h.1.1, h.1.2.1⟩, h.2⟩

/-- A vote on one proposal is not counted on another. -/
theorem approvals_of_other {s : Store} {id k : ProposalId} (h : k ≠ id) (voter : UserId)
    (vote : ProposalVote) :
    countVotes (upsertVote s id voter vote) k .approve = countVotes s k .approve := by
  have other : id ≠ k := fun hk => h hk.symm
  simp only [countVotes, upsertVote]
  rw [Table.count_upsert_of_not (by simp [other]) (by simp_all)]
  refine List.countP_congr fun v _ => ?_
  by_cases hv : v.proposalId = k
  · simp [hv, h]
  · simp [hv]

/-- An account that has voted: its address stays verified, and it is active or suspended. -/
def Voter (u : UserRow) : Prop :=
  u.emailVerifiedAt.isSome ∧ (u.accountState = .active ∨ u.accountState = .suspended)

theorem voter_of_eligible {u : UserRow} (h : eligibleVoter u = true) : Voter u := by
  simp only [eligibleVoter, Bool.and_eq_true, decide_eq_true_eq] at h
  exact ⟨h.2, .inl h.1⟩

/-- Open to the community: pending, and not handed to a moderator. -/
def Open (p : ProposalRow) : Prop := p.status = .pending ∧ p.escalatedAt = none

/-- Every vote names an account that could vote and a proposal that exists. -/
structure Ledger (s : Store) : Prop where
  voter : ∀ v ∈ s.votes, ∃ u, s.users.find v.voterId = some u ∧ Voter u
  proposal : ∀ v ∈ s.votes, (s.proposals.find v.proposalId).isSome

/-- No open proposal has the approvals that would publish it. -/
structure Invariant (s : Store) : Prop extends Ledger s where
  short : ∀ id p, s.proposals.find id = some p → Open p →
    shouldPublish (countVotes s id .approve) = false

theorem initial_invariant : Invariant Schema.empty := by
  refine ⟨⟨?_, ?_⟩, ?_⟩
  · intro v hv
    exact absurd hv (Table.not_mem_empty v)
  · intro v hv
    exact absurd hv (Table.not_mem_empty v)
  · intro id p hp
    cases hp

theorem shouldPublish_mono {a b : ℕ} (h : a ≤ b) (hb : shouldPublish b = false) :
    shouldPublish a = false := by
  have hb : ¬ communityApprovalsToPublish ≤ b := of_decide_eq_false hb
  exact decide_eq_false fun ha => hb (ha.trans h)

/-- A step that casts no vote and makes no voter eligible again. -/
structure Quiet (s t : Store) : Prop where
  votes : t.votes.rows.Sublist s.votes.rows
  voter : ∀ v ∈ t.votes, ∀ u, s.users.find v.voterId = some u → Voter u →
    ∃ u', t.users.find v.voterId = some u' ∧ Voter u' ∧
      (eligibleVoter u' = true → eligibleVoter u = true)
  kept : ∀ id, (s.proposals.find id).isSome → (t.proposals.find id).isSome
  opened : ∀ id q, t.proposals.find id = some q → Open q →
    ∃ p, s.proposals.find id = some p ∧ Open p

theorem Quiet.tally_le {s t : Store} (h : Quiet s t) (hs : Ledger s) (id : ProposalId) :
    countVotes t id .approve ≤ countVotes s id .approve := by
  refine le_trans (List.countP_mono_left fun v hv hc => ?_) h.votes.countP_le
  simp only [Bool.and_eq_true, Option.any_eq_true] at hc ⊢
  obtain ⟨hc, u', hu', he⟩ := hc
  obtain ⟨u, hu, hvoter⟩ := hs.voter v (h.votes.subset hv)
  obtain ⟨w, hw, -, back⟩ := h.voter v hv u hu hvoter
  obtain rfl : u' = w := Option.some.inj (hu'.symm.trans hw)
  exact ⟨hc, u, hu, back he⟩

theorem Quiet.ledger {s t : Store} (h : Quiet s t) (hs : Ledger s) : Ledger t := by
  constructor
  · intro v hv
    obtain ⟨u, hu, hvoter⟩ := hs.voter v (h.votes.subset hv)
    obtain ⟨u', hu', hvoter', -⟩ := h.voter v hv u hu hvoter
    exact ⟨u', hu', hvoter'⟩
  · intro v hv
    exact h.kept _ (hs.proposal v (h.votes.subset hv))

theorem Quiet.invariant {s t : Store} (h : Quiet s t) (hs : Invariant s) : Invariant t := by
  refine ⟨h.ledger hs.toLedger, fun id q hq hopen => ?_⟩
  obtain ⟨p, hp, hopen⟩ := h.opened id q hq hopen
  exact shouldPublish_mono (h.tally_le hs.toLedger id) (hs.short id p hp hopen)

/-- Votes and users stay; proposals stay or are decided. -/
theorem Quiet.of_proposals {s t : Store} {f : ProposalId → ProposalRow → ProposalRow}
    (votes : t.votes = s.votes) (users : t.users = s.users)
    (find : ∀ i, t.proposals.find i = (s.proposals.find i).map (f i))
    (opened : ∀ i p, Open (f i p) → Open p) : Quiet s t where
  votes := by rw [votes]
  voter v _ u hu hvoter := ⟨u, by rw [users, hu], hvoter, id⟩
  kept i hi := by rw [find]; simpa using hi
  opened i q hq hopen := by
    rw [find, Option.map_eq_some_iff] at hq
    obtain ⟨p, hp, rfl⟩ := hq
    exact ⟨p, hp, opened i p hopen⟩

theorem Quiet.of_eq {s t : Store} (votes : t.votes = s.votes) (users : t.users = s.users)
    (proposals : t.proposals = s.proposals) : Quiet s t :=
  .of_proposals votes users (f := fun _ p => p) (fun i => by simp [proposals]) fun _ _ h => h

theorem quiet_setUser {s : Store} {id : UserId} {f : UserRow → UserRow}
    {hf : ∀ u, (f u).id = u.id}
    (h : ∀ u, Voter u → Voter (f u) ∧ (eligibleVoter (f u) = true → eligibleVoter u = true)) :
    Quiet s (setUser s id f hf) where
  votes := .refl _
  voter v _ u hu hvoter := by
    by_cases hid : u.id = id
    · exact ⟨f u, by simp [setUser, hu, hid], h u hvoter⟩
    · exact ⟨u, by simp [setUser, hu, hid], hvoter, fun he => he⟩
  kept _ hi := hi
  opened _ q hq hopen := ⟨q, hq, hopen⟩

theorem Quiet.refl (s : Store) : Quiet s s := .of_eq rfl rfl rfl

theorem quiet_register {s t : Store} {id : UserId} {publicName : Bool}
    (h : register s id publicName = .ok t) : Quiet s t := by
  obtain ⟨users, hins, roles, -, rfl⟩ := register_ok.mp h
  refine ⟨.refl _, ?_, fun _ hi => hi, fun _ q hq hopen => ⟨q, hq, hopen⟩⟩
  intro v _ u hu hvoter
  refine ⟨u, ?_, hvoter, fun he => he⟩
  -- the account is new, so it is not the voter's
  rw [Table.find_insert hins, if_neg, hu]
  intro hid
  have hfree := (Table.insert_eq_some.mp hins).1
  rw [hid, hu] at hfree
  cases hfree

theorem quiet_confirmEmail (s : Store) (id : UserId) (now : Instant) :
    Quiet s (confirmEmail s id now) := by
  unfold confirmEmail
  split
  · rename_i u hu
    split
    · rename_i hstate
      refine ⟨.refl _, ?_, fun _ hi => hi, fun _ q hq hopen => ⟨q, hq, hopen⟩⟩
      intro v _ w hw hvoter
      by_cases hid : w.id = id
      · obtain rfl : w = u := by
          have := (Table.find_eq_some.mp hw).2
          rw [← this, hid] at hw
          exact Option.some.inj (hw.symm.trans hu)
        refine ⟨_, by simp [setUser, hw, hid]; rfl, ⟨rfl, .inl rfl⟩, fun _ => ?_⟩
        -- a voter is verified, so the state that admits it is `active`
        have hactive : w.accountState = .active := by
          rcases hvoter.2 with h | h
          · exact h
          · simp [h] at hstate
        simp [eligibleVoter, hactive, hvoter.1]
      · exact ⟨w, by simp [setUser, hw, hid], hvoter, fun he => he⟩
    · exact .refl s
  · exact .refl s

theorem quiet_suspendByAdmin {s t : Store} {id : UserId} (h : suspendByAdmin s id = .ok t) :
    Quiet s t := by
  rcases suspendByAdmin_ok h with rfl | rfl
  · exact .refl t
  · refine quiet_setUser fun u hu => ⟨⟨hu.1, .inr rfl⟩, fun he => ?_⟩
    simp [eligibleVoter] at he

theorem quiet_scrub (s : Store) (id : UserId) : Quiet s (scrub s id) where
  votes := List.filter_sublist
  voter v hv u hu hvoter := by
    refine ⟨u, ?_, hvoter, fun he => he⟩
    have hne : v.voterId ≠ id := by
      have := (Table.mem_delete.mp hv).2
      simpa using this
    have hid : u.id ≠ id := by
      rw [(Table.find_eq_some.mp hu).2]
      exact hne
    simp [hu, hid]
  kept i hi := by simpa using hi
  opened i q hq hopen := by
    rw [find_scrub_proposal, Option.map_eq_some_iff] at hq
    obtain ⟨p, hp, rfl⟩ := hq
    exact ⟨p, hp, hopen⟩

theorem quiet_published {env : Env} {s t : Store} {id : ProposalId} {moderator : UserId}
    {applied : ProposalApplication} {prop : ProposalRow} {loc row : LocationRow} {parts : Store}
    (h : Published env s t id moderator applied prop loc row parts) : Quiet s t := by
  refine .of_proposals h.votes h.users h.find_proposal fun i p hopen => ?_
  split at hopen
  · cases hopen.1
  · split at hopen
    · cases hopen.1
    · exact hopen

theorem quiet_moderated {env : Env} {s t : Store} {id : LocationId}
    {sources : List ModerationState} {target : ModerationState} {moderator : UserId}
    {old : LocationRow} (h : Moderated env s t id sources target moderator old) : Quiet s t := by
  rw [h.outcome]
  refine .of_proposals rfl rfl (find_supersede _ id none) fun i p hopen => ?_
  split at hopen
  · cases hopen.1
  · exact hopen

theorem quiet_rejected (s : Store) (id : ProposalId) (moderator : UserId)
    (reason : Option String → Option String) :
    Quiet s (decideProposal s id .rejected moderator reason) := by
  refine .of_proposals rfl rfl (find_decide s id .rejected moderator reason) fun i p hopen => ?_
  split at hopen
  · cases hopen.1
  · exact hopen

/-- A new proposal has no votes, since every vote names a proposal that was there. -/
theorem submitted_invariant {env : Env} {s t : Store} {id : ProposalId} {n : NewProposal}
    {loc : LocationRow} {author : UserRow} (h : Submitted env s t id n loc author)
    (hs : Invariant s) : Invariant t := by
  have votes : t.votes = s.votes := by rw [h.outcome]
  have users : t.users = s.users := by rw [h.outcome]
  refine ⟨⟨?_, ?_⟩, ?_⟩
  · rw [votes, users]
    exact hs.voter
  · intro v hv
    rw [Table.find_insert h.inserted]
    split
    · rfl
    · exact hs.proposal v (votes ▸ hv)
  · intro k p hp hopen
    rw [countVotes_congr k .approve votes users]
    rw [Table.find_insert h.inserted] at hp
    split at hp
    · rename_i hk
      have hfree := (Table.insert_eq_some.mp h.inserted).1
      have none : countVotes s k .approve = 0 := by
        refine List.countP_eq_zero.mpr fun v hv hc => ?_
        simp only [Bool.and_eq_true, decide_eq_true_eq] at hc
        have := hs.proposal v hv
        rw [hc.1.1, ← hk, hfree] at this
        cases this
      rw [none]
      rfl
    · exact hs.short k p hp hopen

theorem ledger_upsertVote {s : Store} {id : ProposalId} {voter : UserId} {vote : ProposalVote}
    {u : UserRow} (hs : Ledger s) (found : (s.proposals.find id).isSome)
    (hu : s.users.find voter = some u) (eligible : eligibleVoter u = true) :
    Ledger (upsertVote s id voter vote) := by
  have origin : ∀ v ∈ (upsertVote s id voter vote).votes,
      (v.proposalId = id ∧ v.voterId = voter) ∨ v ∈ s.votes := by
    intro v hv
    have hf := Table.find_of_mem hv
    simp only [upsertVote, Table.find_upsert] at hf
    split at hf
    · rename_i hk
      simp only [Prod.mk.injEq] at hk
      exact .inl ⟨hk.1.symm, hk.2.symm⟩
    · exact .inr (Table.find_eq_some.mp hf).1
  constructor
  · intro v hv
    rcases origin v hv with ⟨-, hv⟩ | hv
    · exact ⟨u, hv ▸ hu, voter_of_eligible eligible⟩
    · exact hs.voter v hv
  · intro v hv
    rcases origin v hv with ⟨hv, -⟩ | hv
    · exact hv ▸ found
    · exact hs.proposal v hv

/-- A vote leaves no open proposal at the quorum: its own is published, escalated or short of
approvals, and the tallies of the others do not move. -/
theorem vote_invariant {env : Env} {s t : Store} {id : ProposalId} {voter : UserId}
    {vote : ProposalVote} {now : Instant} {totals : ProposalVoteTotals}
    (h : voteOnProposal env s id voter vote now = .ok (totals, t)) (hs : Invariant s) :
    Invariant t := by
  obtain ⟨prop, loc, u, hv, hu, he, htally, -, hsettle⟩ := voteOnProposal_ok.mp h
  obtain rfl : prop.id = id := (Table.find_eq_some.mp hv.found).2
  have ledger : Ledger (upsertVote s prop.id voter vote) :=
    ledger_upsertVote hs.toLedger (by simp [hv.found]) hu he
  have others : ∀ k p, k ≠ prop.id → s.proposals.find k = some p → Open p →
      shouldPublish (countVotes (upsertVote s prop.id voter vote) k .approve) = false := by
    intro k p hk hp hopen
    rw [approvals_of_other hk]
    exact hs.short k p hp hopen
  rcases settleVote_cases hsettle with ⟨-, -, applied, -, happ⟩ | ⟨-, -, -, rfl⟩ | ⟨-, hno, rfl⟩
  · obtain ⟨prop', loc', row, parts, hp⟩ := approve_ok.mp happ
    have quiet := quiet_published hp
    refine ⟨quiet.ledger ledger, fun k q hq hopen => ?_⟩
    obtain ⟨p, hpk, hopen'⟩ := quiet.opened k q hq hopen
    refine shouldPublish_mono (quiet.tally_le ledger k) (others k p ?_ hpk hopen')
    rintro rfl
    rw [hp.find_proposal, hpk] at hq
    simp only [if_pos, Option.map_some, Option.some.injEq] at hq
    rw [← hq] at hopen
    cases hopen.1
  · refine ⟨⟨ledger.voter, fun v hm => ?_⟩, fun k q hq hopen => ?_⟩
    · have := ledger.proposal v hm
      simpa [escalate] using this
    · simp only [escalate, Table.find_update, decide_eq_true_eq, Option.map_eq_some_iff] at hq
      obtain ⟨p, hp, rfl⟩ := hq
      split at hopen
      · cases hopen.2
      · rename_i hne
        refine others k p (fun hk => hne ⟨?_, hopen.2⟩) hp hopen
        rw [← hk]
        exact (Table.find_eq_some.mp hp).2
  · refine ⟨ledger, fun k q hq hopen => ?_⟩
    by_cases hk : k = prop.id
    · subst hk
      obtain rfl : prop = q := Option.some.inj (hv.found.symm.trans hq)
      rw [← htally]
      by_contra hpub
      exact hno ⟨by simpa using hpub, hopen.2⟩
    · exact others k q hk hq hopen

/-- The one operation that makes a suspended voter eligible again. -/
def restoresAccount : Op → Bool
  | .restoreByAdmin _ => true
  | _ => false

theorem step_preserves_invariant {env : Env} {s t : Store} {op : Op} (hs : Invariant s)
    (hop : restoresAccount op = false) (h : perform env s op = .ok t) : Invariant t := by
  cases op with
  | create id new creator =>
    simp only [perform, Outcome.mapError_ok] at h
    obtain ⟨tz, parts, hc⟩ := create_ok h
    exact (Quiet.of_eq hc.frame.2.1 hc.frame.2.2 hc.frame.1).invariant hs
  | applyEdit id expectedVersion edit editor =>
    simp only [perform, Outcome.mapError_ok] at h
    obtain ⟨loc, row, point, tz, parts, he⟩ := applyEdit_ok h
    exact (Quiet.of_eq he.frame.2.2.1 he.frame.2.2.2 he.frame.2.1).invariant hs
  | createProposal id n =>
    simp only [perform, Outcome.mapError_ok] at h
    obtain ⟨loc, author, hn⟩ := createProposal_ok.mp h
    exact submitted_invariant hn hs
  | voteOnProposal id voter vote now =>
    simp only [perform, Outcome.mapError_ok] at h
    obtain ⟨⟨totals, t'⟩, hv, rfl⟩ := Outcome.map_ok.mp h
    exact vote_invariant hv hs
  | setParkingState id sources target moderator =>
    simp only [perform, Outcome.mapError_ok] at h
    obtain ⟨old, hm⟩ := setParkingState_ok.mp h
    exact (quiet_moderated hm).invariant hs
  | approveProposal id moderator applied =>
    simp only [perform, Outcome.mapError_ok] at h
    obtain ⟨prop, loc, row, parts, hp⟩ := approve_ok.mp h
    exact (quiet_published hp).invariant hs
  | rejectProposal id moderator reason =>
    simp only [perform, Outcome.mapError_ok] at h
    obtain ⟨-, prop, -, -, -, rfl⟩ := rejectProposal_ok.mp h
    exact (quiet_rejected s id moderator _).invariant hs
  | register id publicName =>
    simp only [perform, Outcome.mapError_ok] at h
    exact (quiet_register h).invariant hs
  | confirmEmail id now =>
    simp only [perform, Except.ok.injEq] at h
    exact h ▸ (quiet_confirmEmail s id now).invariant hs
  | suspendByAdmin id =>
    simp only [perform, Outcome.mapError_ok] at h
    exact (quiet_suspendByAdmin h).invariant hs
  | restoreByAdmin id => cases hop
  | anonymize id =>
    simp only [perform, Outcome.mapError_ok] at h
    exact anonymize_ok h ▸ (quiet_scrub s id).invariant hs

theorem reachable_invariant_without_restoration (env : Env) {ops : List Op}
    (h : ∀ op ∈ ops, restoresAccount op = false) : Invariant (run env Schema.empty ops) :=
  run_invariant (fun _ _ _ hs hop hp => step_preserves_invariant hs hop hp)
    (along_of_forall h _) initial_invariant

/-- A rejection that succeeds publishes in exactly one case: six approvals by other users
were standing already, on a proposal no moderator has been asked about and whose payload
merges. Otherwise the proposal stays pending and no version moves; and in a run that restores
no account that case never arises. -/
theorem rejection_publishes_iff (env : Env) (ops : List Op) (id : ProposalId) (voter : UserId)
    (now : Instant) (totals : ProposalVoteTotals) (t : Store)
    (h : voteOnProposal env (run env Schema.empty ops) id voter .reject now = .ok (totals, t)) :
    ∃ prop, (run env Schema.empty ops).proposals.find id = some prop ∧
      (totals.published = true ↔
        communityApprovalsToPublish ≤ standingApprovals (run env Schema.empty ops) id voter ∧
        prop.escalatedAt = none ∧
        ∃ applied, merge env prop.kind
          (ProposedChange.fromJson env prop.kind prop.proposed) {} = .ok applied) ∧
      (totals.published = false →
        (∃ q, t.proposals.find id = some q ∧ q.status = .pending) ∧
        ∀ l, (t.locations.find l).map LocationRow.version =
          ((run env Schema.empty ops).locations.find l).map LocationRow.version) ∧
      ((∀ op ∈ ops, restoresAccount op = false) → totals.published = false) := by
  obtain ⟨prop, loc, u, hv, -, -, htally, -, hsettle⟩ := voteOnProposal_ok.mp h
  obtain rfl : prop.id = id := (Table.find_eq_some.mp hv.found).2
  rw [approvals_after_rejection] at htally
  have reached : shouldPublish totals.approvals = true ↔ communityApprovalsToPublish ≤
      standingApprovals (run env Schema.empty ops) prop.id voter := by
    rw [htally, shouldPublish, decide_eq_true_eq]
  refine ⟨prop, hv.found, ?_, ?_, ?_⟩
  · rcases settleVote_cases hsettle with ⟨hp, ⟨hq, hesc⟩, applied, hm, -⟩ |
      ⟨hp, -, ⟨e, hm⟩, -⟩ | ⟨hp, hno, -⟩
    · simp only [hp, true_iff]
      exact ⟨reached.mp hq, hesc, applied, hm⟩
    · simp [hp, hm]
    · simp only [hp, Bool.false_eq_true, false_iff]
      rintro ⟨hq, hesc, -⟩
      exact hno ⟨reached.mpr hq, hesc⟩
  · intro hp
    rcases settleVote_cases hsettle with ⟨hp', -⟩ | ⟨-, -, -, rfl⟩ | ⟨-, -, rfl⟩
    · simp [hp] at hp'
    · refine ⟨?_, fun _ => rfl⟩
      simp only [escalate, upsertVote, Table.find_update, hv.found, Option.map_some,
        Option.some.injEq, exists_eq_left']
      split
      · exact hv.pending
      · exact hv.pending
    · exact ⟨⟨prop, hv.found, hv.pending⟩, fun _ => rfl⟩
  · intro hops
    have inv := reachable_invariant_without_restoration env hops
    rcases settleVote_cases hsettle with ⟨-, ⟨hq, hesc⟩, -⟩ | ⟨hp, -⟩ | ⟨hp, -⟩
    · have short := inv.short prop.id prop hv.found ⟨hv.pending, hesc⟩
      have := shouldPublish_mono (standing_le_approvals _ prop.id voter) short
      rw [← htally, hq] at this
      cases this
    · exact hp
    · exact hp

/-- One approver is suspended while five more approve, and then restored. -/
def restoredApprover : List Op :=
  sampleStart sampleEdit ++ approvals [2] ++ [.suspendByAdmin 2] ++ approvals [3, 4, 5, 6, 7] ++
    [.restoreByAdmin 2] ++ enlist 8

/-- After that run the rejection of user 8 publishes the proposal. -/
theorem rejection_publishes_restored :
    ∃ totals t, voteOnProposal Clock.env (run Clock.env Schema.empty restoredApprover) 1 8
        .reject 0 = .ok (totals, t) ∧
      totals = ⟨6, 1, true⟩ ∧ (t.proposals.find 1).map ProposalRow.status = some .approved ∧
      (t.locations.find 1).map LocationRow.version = some 2 := by
  have h : ((voteOnProposal Clock.env (run Clock.env Schema.empty restoredApprover) 1 8 .reject
      0).toOption.map fun r => (r.1, (r.2.proposals.find 1).map ProposalRow.status,
        (r.2.locations.find 1).map LocationRow.version)) =
      some (⟨6, 1, true⟩, some .approved, some 2) := by decide +kernel
  obtain ⟨⟨totals, t⟩, hr, heq⟩ := Option.map_eq_some_iff.mp h
  simp only [Prod.mk.injEq] at heq
  exact ⟨totals, t, Outcome.toOption_eq_some.mp hr, heq⟩

/-- Five approvals and one rejection: nothing is published. -/
theorem rejection_counted :
    ∃ totals t, voteOnProposal Clock.env (run Clock.env Schema.empty
        (sampleStart sampleEdit ++ approvals [2, 3, 4, 5, 6] ++ enlist 7)) 1 7 .reject 0 =
        .ok (totals, t) ∧ totals.published = false := by
  have h : (voteOnProposal Clock.env (run Clock.env Schema.empty
      (sampleStart sampleEdit ++ approvals [2, 3, 4, 5, 6] ++ enlist 7)) 1 7 .reject
      0).toOption.isSome = true := by decide +kernel
  obtain ⟨⟨totals, t⟩, hr⟩ := Option.isSome_iff_exists.mp h
  have hok := Outcome.toOption_eq_some.mp hr
  obtain ⟨prop, -, -, -, unpublished⟩ :=
    rejection_publishes_iff Clock.env _ 1 7 0 totals t hok
  exact ⟨totals, t, hok, unpublished (by decide)⟩

end VoteTally
