import BikesNest.Publishability
import BikesNest.VoteMoves

/-! What stands when a vote publishes a proposal, over every interleaving of votes with the
other transactions. The locks pin down the location and the proposal; the accounts of the
voters move freely, so the tally and the decision columns each describe their own moment. -/

namespace VotePublication

open Parking Proposal Schema Publishing Contribution Accounts Operations
open ReadCommitted RowLocks VoteStatements VoteMoves

/-- The location and the proposal are held, as they were read. -/
structure Holding (x : VoteTxn) (s : Store) (k : Locked) : Prop where
  location : .location k.prop.locationId ∈ x.held
  proposal : .proposal k.ballot.id ∈ x.held
  votable : Votable s k.ballot.id k.ballot.voter k.prop k.loc

/-- The voter has passed the eligibility check, so the account exists. -/
structure Voting (x : VoteTxn) (s : Store) (k : Locked) : Prop extends Holding x s k where
  known : (s.users.find k.ballot.voter).isSome

/-- The votes the tally read are those that stand, but for voters gone since. -/
structure Tallied (c : Counted) (s : Store) : Prop where
  byOther : ∀ v ∈ c.seen.votes, v.proposalId = c.ballot.id →
    c.prop.proposerId ≠ some v.voterId
  kept : ∀ u, VoteKept c.seen (voteWrite c.ballot s) c.ballot.id u

/-- Why the change is published, and that it can be. -/
structure Agreed (env : Env) (a : Applied) : Prop where
  quorum : shouldPublish (tallyApprovals a.toCounted) = true
  unescalated : a.prop.escalatedAt = none
  merged : merge env a.prop.kind (ProposedChange.fromJson env a.prop.kind a.prop.proposed) {} =
    .ok a.applied
  changed : changedRow a.loc a.applied = some a.row
  writable : ∃ v parts, writeParts env v a.loc.id a.applied = .ok parts

/-- A publication under way. -/
structure Applying (env : Env) (x : VoteTxn) (s : Store) (a : Applied) : Prop where
  voting : Voting x s a.toLocked
  tallied : Tallied a.toCounted s
  agreed : Agreed env a

/-- The votes the decision statement read, against those of the tally. -/
def Decision (d : Decided) : Prop := ∀ u, VoteKept d.seen d.decidedOn d.ballot.id u

def applyWrites (env : Env) (a : Applied) (revision : RevisionRow) (s : Store) : Store :=
  publishWrite env a.loc.id a.row a.applied revision (voteWrite a.ballot s)

def decideWrites (env : Env) (d : Decided) (revision : RevisionRow) (s : Store) : Store :=
  decisionWrite d.ballot.id d.ballot.voter (countVotes d.decidedOn d.ballot.id .approve)
    (countVotes d.decidedOn d.ballot.id .reject) (applyWrites env d.toApplied revision s)

/-- What each phase may assume of its own writes and of the committed store. -/
def Assertion (env : Env) (x : VoteTxn) (s : Store) : Prop :=
  match x.phase with
  | .start _ => x.Untouched
  | .located b l => x.Untouched ∧ ∃ p, s.proposals.find b.id = some p ∧ p.locationId = l
  | .locationLocked b loc => x.Untouched ∧ .location loc.id ∈ x.held ∧
      s.locations.find loc.id = some loc ∧ loc.moderationState = .active ∧
      ∃ p, s.proposals.find b.id = some p ∧ p.locationId = loc.id
  | .proposalLocked k => x.Untouched ∧ Holding x s k
  | .admitted k => x.Untouched ∧ Voting x s k
  | .voted k => x.pending = voteWrite k.ballot ∧ Voting x s k
  | .counted c => x.pending = voteWrite c.ballot ∧ Voting x s c.toLocked ∧ Tallied c s
  | .unpublished c => Voting x s c.toLocked ∧ Tallied c s ∧ (x.pending = voteWrite c.ballot ∨
      x.pending = fun s => escalate (voteWrite c.ballot s) c.ballot.id c.ballot.now)
  | .applied a => Applying env x s a ∧ ∃ revision, x.pending = applyWrites env a revision
  | .decided d => Applying env x s d.toApplied ∧ Decision d ∧
      ∃ revision, x.pending = decideWrites env d revision
  | .published d => Applying env x s d.toApplied ∧ Decision d ∧
      ∃ revision ids, d.ballot.id ∉ ids ∧ (∀ i ∈ ids, .proposal i ∈ x.held) ∧
        x.pending = fun s => supersedeWrite ids (decideWrites env d revision s)

section Stability

variable {env : Env} {x : VoteTxn} {s t : Store}

theorem Holding.stable {k : Locked} (h : Holding x s k) (keeps : ∀ l ∈ x.held, Keeps l s t) :
    Holding x t k := by
  have proposal : t.proposals.find k.ballot.id = s.proposals.find k.ballot.id :=
    keeps _ h.proposal
  refine ⟨h.location, h.proposal, ?_⟩
  exact { h.votable with
    found := proposal.trans h.votable.found
    located := (keeps _ h.location).1.trans h.votable.located }

theorem Voting.stable {k : Locked} (h : Voting x s k) (evolves : Evolves s t)
    (keeps : ∀ l ∈ x.held, Keeps l s t) : Voting x t k :=
  ⟨h.toHolding.stable keeps, evolves.known _ h.known⟩

theorem voteKept_voteWrite {id : ProposalId} {u : UserId} (b : Ballot)
    (h : VoteKept s t id u) : VoteKept (voteWrite b s) (voteWrite b t) id u := by
  rw [VoteKept, find_voteWrite, find_voteWrite]
  split
  · exact .inl rfl
  · exact h

theorem Tallied.stable {c : Counted} (h : Tallied c s) (voting : Voting x s c.toLocked)
    (evolves : Evolves s t) (keeps : ∀ l ∈ x.held, Keeps l s t) : Tallied c t := by
  refine ⟨h.byOther, fun u => ?_⟩
  have gone : Gone (voteWrite c.ballot s) u → Gone (voteWrite c.ballot t) u := evolves.gone u
  have since : VoteKept s t c.ballot.id u :=
    (keeps _ voting.location).2 c.ballot.id c.prop voting.votable.found rfl u
  exact (h.kept u).trans gone (voteKept_voteWrite c.ballot since)

theorem Applying.stable {a : Applied} (h : Applying env x s a) (evolves : Evolves s t)
    (keeps : ∀ l ∈ x.held, Keeps l s t) : Applying env x t a :=
  ⟨h.voting.stable evolves keeps, h.tallied.stable h.voting evolves keeps, h.agreed⟩

theorem located_stable {id : ProposalId} {l : LocationId} (evolves : Evolves s t)
    (h : ∃ p, s.proposals.find id = some p ∧ p.locationId = l) :
    ∃ p, t.proposals.find id = some p ∧ p.locationId = l := by
  obtain ⟨p, hp, hl⟩ := h
  obtain ⟨q, hq, hql, -⟩ := evolves.proposal id p hp
  exact ⟨q, hq, hql.trans hl⟩

theorem stable (h : Assertion env x s) (evolves : Evolves s t)
    (keeps : ∀ l ∈ x.held, Keeps l s t) : Assertion env x t := by
  unfold Assertion at h ⊢
  split at h
  · exact h
  · exact ⟨h.1, located_stable evolves h.2⟩
  · obtain ⟨fresh, held, located, active, found⟩ := h
    exact ⟨fresh, held, (keeps _ held).1.trans located, active, located_stable evolves found⟩
  · exact ⟨h.1, h.2.stable keeps⟩
  · exact ⟨h.1, h.2.stable evolves keeps⟩
  · exact ⟨h.1, h.2.stable evolves keeps⟩
  · exact ⟨h.1, h.2.1.stable evolves keeps, h.2.2.stable h.2.1 evolves keeps⟩
  · exact ⟨h.1.stable evolves keeps, h.2.1.stable h.1 evolves keeps, h.2.2⟩
  · exact ⟨h.1.stable evolves keeps, h.2⟩
  · exact ⟨h.1.stable evolves keeps, h.2⟩
  · exact ⟨h.1.stable evolves keeps, h.2⟩

end Stability

/-! Each statement takes its transaction from one assertion to the next. -/

section Steps

variable {env : Env} {x : VoteTxn} {s : Store} {locks : List Lock} {phase : Phase}
  {write : Store → Store}

theorem Holding.step {k : Locked} (h : Holding x s k) : Holding (x.step locks phase write) s k :=
  ⟨List.mem_append_right _ h.location, List.mem_append_right _ h.proposal, h.votable⟩

theorem Voting.step {k : Locked} (h : Voting x s k) : Voting (x.step locks phase write) s k :=
  ⟨h.toHolding.step, h.known⟩

theorem Applying.step {a : Applied} (h : Applying env x s a) :
    Applying env (x.step locks phase write) s a :=
  ⟨h.voting.step, h.tallied, h.agreed⟩

theorem lockLocation_proceed {b : Ballot} {l : LocationId} (fresh : x.Untouched)
    (found : ∃ p, s.proposals.find b.id = some p ∧ p.locationId = l)
    (h : lockLocationStatement b l s = ⟨locks, .proceed phase write⟩) :
    Assertion env (x.step locks phase write) s := by
  unfold lockLocationStatement at h
  split at h
  · rename_i loc hloc
    split at h
    · rename_i active
      obtain ⟨rfl, rfl, rfl⟩ := Statement.proceed_inj h
      obtain rfl : loc.id = l := (Table.find_eq_some.mp hloc).2
      exact ⟨fresh.step _ _ _, by simp [Txn.step], hloc, active, found⟩
    · exact absurd h Statement.abort_ne_proceed
  · exact absurd h Statement.abort_ne_proceed

theorem lockProposal_proceed {b : Ballot} {loc : LocationRow} (fresh : x.Untouched)
    (held : .location loc.id ∈ x.held) (located : s.locations.find loc.id = some loc)
    (active : loc.moderationState = .active)
    (found : ∃ p, s.proposals.find b.id = some p ∧ p.locationId = loc.id)
    (h : lockProposalStatement b loc s = ⟨locks, .proceed phase write⟩) :
    Assertion env (x.step locks phase write) s := by
  unfold lockProposalStatement at h
  split at h
  · rename_i prop hprop
    split at h
    · rename_i checks
      obtain ⟨current, pending, byOther⟩ := checks
      obtain ⟨rfl, rfl, rfl⟩ := Statement.proceed_inj h
      obtain ⟨p, hp, hl⟩ := found
      obtain rfl : prop = p := Option.some.inj (hprop.symm.trans hp)
      refine ⟨fresh.step _ _ _, ?_, by simp [Txn.step], ?_⟩
      · exact List.mem_append_right _ (hl ▸ held)
      · exact ⟨hprop, hl ▸ located, active, current, pending, byOther⟩
    · exact absurd h Statement.abort_ne_proceed
  · exact absurd h Statement.abort_ne_proceed

/-- The tally reads the transaction's own vote and the committed rest. -/
theorem count_proceed {k : Locked} (hs : Invariant s) (voting : Voting x s k)
    (pending : x.pending = voteWrite k.ballot) :
    Assertion env (x.step [] (.counted { k with seen := x.pending s }) fun s => s) s := by
  refine ⟨pending, voting.step, ?_, fun u => ?_⟩
  · have after := (moves_voteWrite voting.votable.found voting.votable.byOther
      voting.known).invariant hs
    intro v hv hid
    simp only [pending] at hv
    refine after.byOther v hv k.prop ?_
    rw [hid]
    exact voting.votable.found
  · simp only [pending]
    exact .refl _ _ _

theorem publish_proceed {c : Counted} {applied : ProposalApplication} {v : Store}
    (voting : Voting x s c.toLocked) (tallied : Tallied c s)
    (pending : x.pending = voteWrite c.ballot)
    (quorum : shouldPublish (tallyApprovals c) = true) (unescalated : c.prop.escalatedAt = none)
    (merged : merge env c.prop.kind (ProposedChange.fromJson env c.prop.kind c.prop.proposed) {} =
      .ok applied)
    (h : publishStatement env c applied v = ⟨locks, .proceed phase write⟩) :
    Assertion env (x.step locks phase write) s := by
  simp only [publishStatement] at h
  split at h
  · split at h
    · rename_i row parts happly
      obtain ⟨changed, -, written⟩ := applyChange_ok.mp happly
      split at h
      · obtain ⟨rfl, rfl, rfl⟩ := Statement.proceed_inj h
        refine ⟨⟨voting.step, tallied, quorum, unescalated, merged, changed, _, _, written⟩,
          publishedRevision env parts c.loc.id row c.ballot.voter applied, ?_⟩
        funext r
        simp only [Txn.step, Function.comp_apply, pending, applyWrites]
      · exact absurd h Statement.abort_ne_proceed
    · exact absurd h Statement.abort_ne_proceed
  · exact absurd h Statement.abort_ne_proceed

theorem settle_proceed {c : Counted} {v : Store} (voting : Voting x s c.toLocked)
    (tallied : Tallied c s) (pending : x.pending = voteWrite c.ballot)
    (h : settleStatement env c v = ⟨locks, .proceed phase write⟩) :
    Assertion env (x.step locks phase write) s := by
  unfold settleStatement at h
  split at h
  · rename_i quorum
    split at h
    · rename_i applied merged
      exact publish_proceed voting tallied pending quorum.1 quorum.2 merged h
    · obtain ⟨rfl, rfl, rfl⟩ := Statement.proceed_inj h
      refine ⟨voting.step, tallied, .inr ?_⟩
      simp only [Txn.step, pending]
      rfl
  · obtain ⟨rfl, rfl, rfl⟩ := Statement.proceed_inj h
    refine ⟨voting.step, tallied, .inl ?_⟩
    simp only [Txn.step, pending]
    rfl

theorem decide_proceed {a : Applied} {revision : RevisionRow} (applying : Applying env x s a)
    (pending : x.pending = applyWrites env a revision) :
    Assertion env (x.step [.proposal a.ballot.id] (.decided { a with decidedOn := x.pending s })
      (decisionWrite a.ballot.id a.ballot.voter (countVotes (x.pending s) a.ballot.id .approve)
        (countVotes (x.pending s) a.ballot.id .reject))) s := by
  obtain ⟨-, -, votes, users⟩ := publishWrite_frame env a.loc.id a.row a.applied revision
    (voteWrite a.ballot s)
  refine ⟨applying.step, fun u => ?_, revision, ?_⟩
  · simp only [pending, VoteKept, Gone, applyWrites, votes, users]
    exact applying.tallied.kept u
  · funext r
    simp only [Txn.step, Function.comp_apply, pending, decideWrites]

theorem supersede_proceed {d : Decided} {revision : RevisionRow} {v : Store}
    (applying : Applying env x s d.toApplied) (decision : Decision d)
    (pending : x.pending = decideWrites env d revision) :
    Assertion env (x.step ((siblings d v).map .proposal) (.published d)
      (supersedeWrite (siblings d v))) s := by
  refine ⟨applying.step, decision, revision, siblings d v, ?_, fun i hi => ?_, ?_⟩
  · simp [siblings]
  · exact List.mem_append_left _ (List.mem_map_of_mem hi)
  · funext r
    simp only [Txn.step, Function.comp_apply, pending]

theorem proceed_assertion (hs : Invariant s) (hx : Assertion env x s)
    (h : next env x.phase (x.pending s) = ⟨locks, .proceed phase write⟩) :
    Assertion env (x.step locks phase write) s := by
  unfold Assertion at hx
  split at hx
  · rename_i b hphase
    simp only [hphase, next, Txn.Untouched.view hx] at h
    split at h
    · rename_i p hp
      obtain ⟨rfl, rfl, rfl⟩ := Statement.proceed_inj h
      exact ⟨Txn.Untouched.step hx _ _ _, p, hp, rfl⟩
    · exact absurd h Statement.abort_ne_proceed
  · rename_i b l hphase
    obtain ⟨fresh, found⟩ := hx
    simp only [hphase, next, fresh.view] at h
    exact lockLocation_proceed fresh found h
  · rename_i b loc hphase
    obtain ⟨fresh, held, located, active, found⟩ := hx
    simp only [hphase, next, fresh.view] at h
    exact lockProposal_proceed fresh held located active found h
  · rename_i k hphase
    obtain ⟨fresh, holding⟩ := hx
    simp only [hphase, next, fresh.view] at h
    split at h
    · rename_i eligible
      obtain ⟨rfl, rfl, rfl⟩ := Statement.proceed_inj h
      refine ⟨fresh.step _ _ _, holding.step, ?_⟩
      obtain ⟨u, hu, -⟩ := (Option.any_eq_true _ _).mp eligible
      exact Option.isSome_iff_exists.mpr ⟨u, hu⟩
    · exact absurd h Statement.abort_ne_proceed
  · rename_i k hphase
    obtain ⟨fresh, voting⟩ := hx
    simp only [hphase, next] at h
    obtain ⟨rfl, rfl, rfl⟩ := Statement.proceed_inj h
    exact ⟨fresh.step _ _ _, voting.step⟩
  · rename_i k hphase
    obtain ⟨pending, voting⟩ := hx
    simp only [hphase, next] at h
    obtain ⟨rfl, rfl, rfl⟩ := Statement.proceed_inj h
    exact count_proceed hs voting pending
  · rename_i c hphase
    obtain ⟨pending, voting, tallied⟩ := hx
    simp only [hphase, next] at h
    exact settle_proceed voting tallied pending h
  · rename_i c hphase
    simp [hphase, next] at h
  · rename_i a hphase
    obtain ⟨applying, revision, pending⟩ := hx
    simp only [hphase, next] at h
    obtain ⟨rfl, rfl, rfl⟩ := Statement.proceed_inj h
    exact decide_proceed applying pending
  · rename_i d hphase
    obtain ⟨applying, decision, revision, pending⟩ := hx
    simp only [hphase, next] at h
    obtain ⟨rfl, rfl, rfl⟩ := Statement.proceed_inj h
    exact supersede_proceed applying decision pending
  · rename_i d hphase
    simp [hphase, next] at h

end Steps

section Commit

variable {env : Env} {x : VoteTxn} {s : Store} {locks : List Lock}

/-- Only a vote that has been settled commits. -/
theorem commit_phase {phase : Phase} {v : Store} (h : next env phase v = ⟨locks, .commit⟩) :
    (∃ c, phase = .unpublished c) ∨ ∃ d, phase = .published d := by
  cases phase with
  | unpublished c => exact .inl ⟨c, rfl⟩
  | published d => exact .inr ⟨d, rfl⟩
  | admitted | voted | applied | decided => exact absurd h Statement.proceed_ne_commit
  | start | proposalLocked =>
    simp only [next] at h
    split at h <;> simp [Statement.proceed, Statement.abort] at h
  | located b l =>
    simp only [next, lockLocationStatement] at h
    split at h
    · split at h <;> simp [Statement.proceed, Statement.abort] at h
    · exact absurd h Statement.abort_ne_commit
  | locationLocked b loc =>
    simp only [next, lockProposalStatement] at h
    split at h
    · split at h <;> simp [Statement.proceed, Statement.abort] at h
    · exact absurd h Statement.abort_ne_commit
  | counted c =>
    simp only [next, settleStatement, publishStatement] at h
    split at h
    · split at h
      · split at h
        · split at h
          · split at h <;> simp [Statement.proceed, Statement.abort] at h
          · exact absurd h Statement.abort_ne_commit
        · exact absurd h Statement.abort_ne_commit
      · exact absurd h Statement.proceed_ne_commit
    · exact absurd h Statement.proceed_ne_commit

theorem Voting.moves {k : Locked} (h : Voting x s k) : Moves s (voteWrite k.ballot s) x.held :=
  (moves_voteWrite h.votable.found h.votable.byOther h.known).mono fun _ hl =>
    List.mem_singleton.mp hl ▸ h.location

/-- The row written is that of the location held. -/
theorem Applying.row_id {a : Applied} (h : Applying env x s a) :
    a.row.id = a.prop.locationId := by
  rw [changedRow_id h.agreed.changed]
  exact (Table.find_eq_some.mp h.voting.votable.located).2

theorem Applying.moves {d : Decided} (h : Applying env x s d.toApplied)
    (revision : RevisionRow) : Moves s (decideWrites env d revision s) x.held := by
  refine ((h.voting.moves.trans (moves_publishWrite env d.row d.applied revision _ d.loc.id)).trans
    (moves_decisionWrite d.ballot.id d.ballot.voter _ _ _)).mono fun l hl => ?_
  rcases List.mem_append.mp hl with hl | hl
  · rcases List.mem_append.mp hl with hl | hl
    · exact hl
    · rw [List.mem_singleton.mp hl, h.row_id]
      exact h.voting.location
  · rw [List.mem_singleton.mp hl]
    exact h.voting.proposal

theorem commit_moves (hx : Assertion env x s)
    (h : next env x.phase (x.pending s) = ⟨locks, .commit⟩) :
    Moves s (x.pending s) x.held := by
  rcases commit_phase h with ⟨c, hphase⟩ | ⟨d, hphase⟩
  · simp only [Assertion, hphase] at hx
    obtain ⟨voting, -, pending | pending⟩ := hx
    · rw [pending]
      exact voting.moves
    · rw [pending]
      refine (voting.moves.trans (moves_escalate _ c.ballot.id c.ballot.now)).mono fun _ hl => ?_
      rcases List.mem_append.mp hl with hl | hl
      · exact hl
      · rw [List.mem_singleton.mp hl]
        exact voting.proposal
  · simp only [Assertion, hphase] at hx
    obtain ⟨applying, -, revision, ids, -, held, pending⟩ := hx
    rw [pending]
    refine ((applying.moves revision).trans (moves_supersedeWrite ids _)).mono fun l hl => ?_
    rcases List.mem_append.mp hl with hl | hl
    · exact hl
    · obtain ⟨i, hi, rfl⟩ := List.mem_map.mp hl
      exact held i hi

end Commit

theorem outline (env : Env) :
    Outline (τ := ℕ) (program env) Invariant (Assertion env) Evolves Keeps where
  entry s t call _ := rfl
  proceed s x locks next write hs hx h := proceed_assertion hs hx h
  commit s x locks hs hx h := by
    have moves := commit_moves hx h
    exact ⟨moves.invariant hs, moves.evolves, moves.keeps⟩
  atomic s op hs := by
    have moves := moves_exec env hs op
    exact ⟨moves.invariant hs, moves.evolves, moves.keeps⟩
  stable s t x _ _ hx evolves keeps := stable hx evolves keeps

theorem reachable_sound (env : Env) (events : List (Event ℕ Ballot Op)) :
    Sound Invariant (Assertion env)
      (ReadCommitted.run (program env) (initial Schema.empty) events) :=
  run_preserves_sound (outline env) (initial_sound initial_invariant) events

/-- The eligible users whose vote approves the proposal, in one view. -/
def approvers (v : Store) (id : ProposalId) : List UserId :=
  (v.votes.filter fun r => decide (r.proposalId = id ∧ r.vote = .approve) &&
    (v.users.find r.voterId).any eligibleVoter).map VoteRow.voterId

theorem approvers_length (v : Store) (id : ProposalId) :
    (approvers v id).length = countVotes v id .approve := by
  rw [approvers, List.length_map, Table.filter, countVotes, Table.count,
    List.countP_eq_length_filter]

theorem approvers_nodup (v : Store) (id : ProposalId) : (approvers v id).Nodup := by
  have rows : v.votes.rows.Nodup := v.votes.distinct.of_map _
  refine List.Nodup.map_on (fun r hr q hq hvoter => ?_) (rows.filter _)
  simp only [Table.mem_filter, Bool.and_eq_true, decide_eq_true_eq] at hr hq
  refine Table.eq_of_key_eq hr.1 hq.1 ?_
  rw [hr.2.1.1, hq.2.1.1, hvoter]

theorem mem_approvers {v : Store} {id : ProposalId} {u : UserId} :
    u ∈ approvers v id ↔ v.votes.find (id, u) = some ⟨id, u, .approve⟩ ∧
      (v.users.find u).any eligibleVoter = true := by
  simp only [approvers, List.mem_map, Table.mem_filter, Bool.and_eq_true, decide_eq_true_eq,
    Table.find_eq_some]
  constructor
  · rintro ⟨⟨i, w, vote⟩, ⟨hm, ⟨rfl, rfl⟩, he⟩, rfl⟩
    exact ⟨⟨hm, trivial⟩, he⟩
  · rintro ⟨⟨hm, -⟩, he⟩
    exact ⟨⟨id, u, .approve⟩, ⟨hm, ⟨rfl, rfl⟩, he⟩, rfl⟩

theorem not_eligible_of_gone {v : Store} {u : UserId} (h : Gone v u) :
    (v.users.find u).any eligibleVoter = false := by
  obtain ⟨w, hw, hdeleted⟩ := h
  simp [hw, eligibleVoter, hdeleted]

/-- Two views in which the same users are eligible count the same votes, if votes went only
with their voters. -/
theorem countVotes_of_kept {v w : Store} {id : ProposalId} (kept : ∀ u, VoteKept v w id u)
    (eligible : ∀ u, (w.users.find u).any eligibleVoter = (v.users.find u).any eligibleVoter)
    (vote : ProposalVote) : countVotes w id vote = countVotes v id vote := by
  simp only [countVotes, Table.count, List.countP_eq_length_filter]
  refine List.Perm.length_eq ?_
  have nodup : ∀ t : Store, t.votes.rows.Nodup := fun t => t.votes.distinct.of_map _
  rw [List.perm_ext_iff_of_nodup ((nodup w).filter _) ((nodup v).filter _)]
  intro r
  simp only [List.mem_filter, Bool.and_eq_true, decide_eq_true_eq, eligible]
  have same : r.proposalId = id → (v.users.find r.voterId).any eligibleVoter = true →
      (r ∈ w.votes.rows ↔ r ∈ v.votes.rows) := by
    rintro rfl he
    have hw : ∀ t : Store, r ∈ t.votes.rows ↔ t.votes.find (r.proposalId, r.voterId) = some r :=
      fun t => ⟨fun hm => Table.find_of_mem (t := t.votes) hm,
        fun hf => (Table.find_eq_some.mp hf).1⟩
    rcases kept r.voterId with hk | ⟨-, hg⟩
    · rw [hw, hw, hk]
    · have := not_eligible_of_gone hg
      rw [eligible, he] at this
      cases this
  constructor
  · rintro ⟨hm, ⟨hid, hvote⟩, he⟩
    exact ⟨(same hid he).mp hm, ⟨hid, hvote⟩, he⟩
  · rintro ⟨hm, ⟨hid, hvote⟩, he⟩
    exact ⟨(same hid he).mpr hm, ⟨hid, hvote⟩, he⟩

theorem writeParts_writable {env : Env} {v parts : Store} {l : LocationId}
    {applied : ProposalApplication} (h : writeParts env v l applied = .ok parts) (s : Store) :
    ∃ filled, writeParts env s l applied = .ok filled := by
  rcases writeParts_cases h with ⟨hkind, -⟩ | ⟨edit, filled, rfl, hf, -⟩
  · cases applied with
    | editDetails edit => exact absurd rfl hkind
    | moveLocation lat lon timezone => exact ⟨s, rfl⟩
    | changeExistence present => exact ⟨s, rfl⟩
  · have succeeds : ∃ t, writeHours env s l edit.hours = .ok t :=
      Publishability.writeHours_succeeds.mpr (Publishability.writeHours_succeeds.mp ⟨filled, hf⟩)
    obtain ⟨t, ht⟩ := succeeds
    exact ⟨writeSecurity t l edit.security, by simp [writeParts, ht, Except.mapError]⟩

/-- What stands when a vote publishes: `s` is committed before it, `t` after it. -/
structure PublishedByVote (env : Env) (d : Decided) (totals : ProposalVoteTotals)
    (s t : Store) : Prop where
  located : s.locations.find d.prop.locationId = some d.loc
  active : d.loc.moderationState = .active
  current : d.loc.version = d.prop.baseVersion
  found : s.proposals.find d.ballot.id = some d.prop
  unescalated : d.prop.escalatedAt = none
  quorum : communityApprovalsToPublish ≤ (approvers d.seen d.ballot.id).length
  distinct : (approvers d.seen d.ballot.id).Nodup
  counted : (approvers d.seen d.ballot.id).length = totals.approvals
  byOthers : ∀ u ∈ approvers d.seen d.ballot.id, d.prop.proposerId ≠ some u
  standing : ∀ u ∈ approvers d.seen d.ballot.id,
    t.votes.find (d.ballot.id, u) = some ⟨d.ballot.id, u, .approve⟩ ∨ Gone t u
  recorded : t.proposals.find d.ballot.id = some { d.prop with
    status := .approved
    resolvedBy := some d.ballot.voter
    decisionApprovals := some (countVotes d.decidedOn d.ballot.id .approve)
    decisionRejections := some (countVotes d.decidedOn d.ballot.id .reject) }
  /-- The decision columns are the totals counted, unless an account's eligibility changed
  between the two statements. -/
  agreeing : (∀ u, (d.decidedOn.users.find u).any eligibleVoter =
      (d.seen.users.find u).any eligibleVoter) →
    countVotes d.decidedOn d.ballot.id .approve = totals.approvals ∧
      countVotes d.decidedOn d.ballot.id .reject = totals.rejections
  merged : merge env d.prop.kind (ProposedChange.fromJson env d.prop.kind d.prop.proposed) {} =
    .ok d.applied
  changed : changedRow d.loc d.applied = some d.row
  written : t.locations.find d.prop.locationId = some d.row ∧
    ∃ parts, writeParts env (setLocation (voteWrite d.ballot s) d.row) d.loc.id d.applied =
      .ok parts ∧ t.hours = parts.hours ∧ t.security = parts.security

section Published

variable {env : Env} {x : VoteTxn} {s : Store} {d : Decided}

theorem decideWrites_frame (env : Env) (d : Decided) (revision : RevisionRow) (s : Store) :
    (decideWrites env d revision s).locations =
        (setLocation (voteWrite d.ballot s) d.row).locations ∧
      (decideWrites env d revision s).votes = (voteWrite d.ballot s).votes ∧
      (decideWrites env d revision s).users = s.users := by
  obtain ⟨locations, -, votes, users⟩ := publishWrite_frame env d.loc.id d.row d.applied revision
    (voteWrite d.ballot s)
  exact ⟨locations, votes, users⟩

theorem recorded_of_published {revision : RevisionRow} {ids : List ProposalId}
    (found : s.proposals.find d.ballot.id = some d.prop) (spared : d.ballot.id ∉ ids) :
    (supersedeWrite ids (decideWrites env d revision s)).proposals.find d.ballot.id =
      some { d.prop with
        status := .approved
        resolvedBy := some d.ballot.voter
        decisionApprovals := some (countVotes d.decidedOn d.ballot.id .approve)
        decisionRejections := some (countVotes d.decidedOn d.ballot.id .reject) } := by
  obtain ⟨-, proposals, -, -⟩ := publishWrite_frame env d.loc.id d.row d.applied revision
    (voteWrite d.ballot s)
  have hid : d.prop.id = d.ballot.id := (Table.find_eq_some.mp found).2
  have before : (applyWrites env d.toApplied revision s).proposals.find d.ballot.id =
      some d.prop := by
    rw [applyWrites, proposals]
    exact found
  rw [find_supersedeWrite, decideWrites, find_decisionWrite, before]
  simp [hid, spared]

theorem written_of_published {revision : RevisionRow} {ids : List ProposalId}
    (applying : Applying env x s d.toApplied) :
    (supersedeWrite ids (decideWrites env d revision s)).locations.find d.prop.locationId =
        some d.row ∧
      ∃ parts, writeParts env (setLocation (voteWrite d.ballot s) d.row) d.loc.id d.applied =
          .ok parts ∧
        (supersedeWrite ids (decideWrites env d revision s)).hours = parts.hours ∧
        (supersedeWrite ids (decideWrites env d revision s)).security = parts.security := by
  have located := applying.voting.votable.located
  have hrow := applying.row_id
  constructor
  · change (decideWrites env d revision s).locations.find d.prop.locationId = some d.row
    rw [(decideWrites_frame env d revision s).1, find_setLocation, if_pos hrow.symm]
    change Option.map (fun _ => d.row) (s.locations.find d.prop.locationId) = some d.row
    rw [located]
    rfl
  · obtain ⟨v, _, hv⟩ := applying.agreed.writable
    obtain ⟨parts, hparts⟩ := writeParts_writable hv (setLocation (voteWrite d.ballot s) d.row)
    refine ⟨parts, hparts, ?_, ?_⟩
    · simp only [supersedeWrite, decideWrites, decisionWrite, applyWrites, publishWrite, hparts,
        Except.toOption, Option.getD_some]
    · simp only [supersedeWrite, decideWrites, decisionWrite, applyWrites, publishWrite, hparts,
        Except.toOption, Option.getD_some]

theorem publishedByVote (hx : Assertion env x s) (phase : x.phase = .published d) :
    PublishedByVote env d ⟨tallyApprovals d.toCounted, tallyRejections d.toCounted, true⟩ s
      (x.pending s) := by
  simp only [Assertion, phase] at hx
  obtain ⟨applying, decision, revision, ids, spared, -, pending⟩ := hx
  have votable := applying.voting.votable
  rw [pending]
  refine
    { located := votable.located
      active := votable.active
      current := votable.current.symm
      found := votable.found
      unescalated := applying.agreed.unescalated
      quorum := ?_
      distinct := approvers_nodup d.seen d.ballot.id
      counted := approvers_length d.seen d.ballot.id
      byOthers := ?_
      standing := ?_
      recorded := recorded_of_published votable.found spared
      agreeing := fun eligible => ⟨countVotes_of_kept decision eligible .approve,
        countVotes_of_kept decision eligible .reject⟩
      merged := applying.agreed.merged
      changed := applying.agreed.changed
      written := written_of_published applying }
  · rw [approvers_length]
    exact of_decide_eq_true applying.agreed.quorum
  · intro u hu
    obtain ⟨hm, -⟩ := Table.find_eq_some.mp (mem_approvers.mp hu).1
    exact applying.tallied.byOther _ hm rfl
  · intro u hu
    obtain ⟨-, votes, users⟩ := decideWrites_frame env d revision s
    have kept := applying.tallied.kept u
    simp only [VoteKept, Gone] at kept
    rw [(mem_approvers.mp hu).1] at kept
    change (decideWrites env d revision s).votes.find (d.ballot.id, u) = _ ∨
      ∃ w, (decideWrites env d revision s).users.find u = some w ∧ _
    rw [votes, users]
    exact kept.imp id And.right

end Published

/-! The proposer, also one that anonymization has made the row forget. -/

/-- `u` proposed it: the row says so, or the account is gone. -/
def Authored (s : Store) (id : ProposalId) (u : UserId) : Prop :=
  (∃ p, s.proposals.find id = some p ∧ p.proposerId = some u) ∨ Gone s u

theorem Authored.evolves {s t : Store} {id : ProposalId} {u : UserId} (h : Authored s id u)
    (evolves : Evolves s t) : Authored t id u := by
  rcases h with ⟨p, hp, hu⟩ | hg
  · obtain ⟨q, hq, -, hqp | ⟨-, w, hw, hg⟩⟩ := evolves.proposal id p hp
    · exact .inl ⟨q, hq, hqp.trans hu⟩
    · obtain rfl : u = w := Option.some.inj (hu.symm.trans hw)
      exact .inr hg
  · exact .inr (evolves.gone u hg)

def tallyOf : Phase → Option Counted
  | .counted c | .unpublished c => some c
  | .applied a => some a.toCounted
  | .decided d | .published d => some d.toCounted
  | _ => none

/-- `u` is not among the approvers a transaction has counted on the proposal. -/
def Excludes (id : ProposalId) (u : UserId) (phase : Phase) : Prop :=
  ∀ c, tallyOf phase = some c → c.ballot.id = id → u ∉ approvers c.seen id

/-- Only the tally statement sets what a transaction has counted. -/
theorem tallyOf_next {env : Env} {phase phase' : Phase} {v : Store} {locks : List Lock}
    {write : Store → Store} (h : next env phase v = ⟨locks, .proceed phase' write⟩) :
    tallyOf phase' = tallyOf phase ∨
      ∃ k, phase = .voted k ∧ tallyOf phase' = some { k with seen := v } := by
  cases phase with
  | unpublished c => simp [next] at h
  | published d => simp [next] at h
  | voted k =>
    obtain ⟨rfl, -, -⟩ := Statement.proceed_inj h
    exact .inr ⟨k, rfl, rfl⟩
  | admitted | applied | decided =>
    obtain ⟨rfl, -, -⟩ := Statement.proceed_inj h
    exact .inl rfl
  | start | proposalLocked =>
    simp only [next] at h
    split at h
    · obtain ⟨rfl, -, -⟩ := Statement.proceed_inj h
      exact .inl rfl
    · exact absurd h Statement.abort_ne_proceed
  | located b l =>
    simp only [next, lockLocationStatement] at h
    split at h
    · split at h
      · obtain ⟨rfl, -, -⟩ := Statement.proceed_inj h
        exact .inl rfl
      · exact absurd h Statement.abort_ne_proceed
    · exact absurd h Statement.abort_ne_proceed
  | locationLocked b loc =>
    simp only [next, lockProposalStatement] at h
    split at h
    · split at h
      · obtain ⟨rfl, -, -⟩ := Statement.proceed_inj h
        exact .inl rfl
      · exact absurd h Statement.abort_ne_proceed
    · exact absurd h Statement.abort_ne_proceed
  | counted c =>
    simp only [next, settleStatement, publishStatement] at h
    split at h
    · split at h
      · split at h
        · split at h
          · split at h
            · obtain ⟨rfl, -, -⟩ := Statement.proceed_inj h
              exact .inl rfl
            · exact absurd h Statement.abort_ne_proceed
          · exact absurd h Statement.abort_ne_proceed
        · exact absurd h Statement.abort_ne_proceed
      · obtain ⟨rfl, -, -⟩ := Statement.proceed_inj h
        exact .inl rfl
    · obtain ⟨rfl, -, -⟩ := Statement.proceed_inj h
      exact .inl rfl

section Proposer

variable {env : Env} {x : VoteTxn} {s : Store} {id : ProposalId} {u : UserId}

theorem tallied_of_assertion (hx : Assertion env x s) {c : Counted}
    (hc : tallyOf x.phase = some c) : Voting x s c.toLocked ∧ Tallied c s := by
  unfold Assertion at hx
  split at hx <;> rename_i hphase <;> rw [hphase] at hc <;> cases hc
  · exact hx.2
  · exact ⟨hx.1, hx.2.1⟩
  · exact ⟨hx.1.voting, hx.1.tallied⟩
  · exact ⟨hx.1.voting, hx.1.tallied⟩
  · exact ⟨hx.1.voting, hx.1.tallied⟩

/-- A tally taken while the row names the proposer leaves the proposer out. -/
theorem excludes_of_named (hx : Assertion env x s) {p : ProposalRow}
    (found : s.proposals.find id = some p) (proposer : p.proposerId = some u) :
    Excludes id u x.phase := by
  rintro c hc rfl hu
  obtain ⟨voting, tallied⟩ := tallied_of_assertion hx hc
  obtain rfl : c.prop = p := Option.some.inj (voting.votable.found.symm.trans found)
  obtain ⟨hm, -⟩ := Table.find_eq_some.mp (mem_approvers.mp hu).1
  exact tallied.byOther _ hm rfl proposer

theorem tally_excludes {k : Locked} (hs : Invariant s) (authored : Authored s k.ballot.id u)
    (voting : Voting x s k) (pending : x.pending = voteWrite k.ballot) :
    u ∉ approvers (x.pending s) k.ballot.id := by
  intro hu
  rw [pending] at hu
  obtain ⟨hvote, eligible⟩ := mem_approvers.mp hu
  rcases authored with ⟨p, hp, hpu⟩ | hg
  · have after := (moves_voteWrite voting.votable.found voting.votable.byOther
      voting.known).invariant hs
    exact after.byOther _ (Table.find_eq_some.mp hvote).1 p hp hpu
  · have ineligible := not_eligible_of_gone hg
    exact absurd (ineligible.symm.trans eligible) Bool.false_ne_true

theorem outline_authored (env : Env) (id : ProposalId) (u : UserId) :
    Outline (τ := ℕ) (program env) (fun s => Invariant s ∧ Authored s id u)
      (fun x s => Assertion env x s ∧ Excludes id u x.phase) Evolves Keeps where
  entry s t call hs := ⟨(outline env).entry s t call hs.1, fun c hc => nomatch hc⟩
  proceed s x locks phase write hs hx h := by
    refine ⟨(outline env).proceed s x locks phase write hs.1 hx.1 h, ?_⟩
    rcases tallyOf_next h with same | ⟨k, hphase, counted⟩
    · intro c hc
      exact hx.2 c (same ▸ hc)
    · rintro c hc rfl
      rw [Txn.step, counted] at hc
      obtain rfl := Option.some.inj hc
      have voted := hx.1
      simp only [Assertion, hphase] at voted
      exact tally_excludes hs.1 hs.2 voted.2 voted.1
  commit s x locks hs hx h := by
    obtain ⟨after, evolves, keeps⟩ := (outline env).commit s x locks hs.1 hx.1 h
    exact ⟨⟨after, hs.2.evolves evolves⟩, evolves, keeps⟩
  atomic s op hs := by
    obtain ⟨after, evolves, keeps⟩ := (outline env).atomic s op hs.1
    exact ⟨⟨after, hs.2.evolves evolves⟩, evolves, keeps⟩
  stable s t x hs ht hx evolves keeps :=
    ⟨(outline env).stable s t x hs.1 ht.1 hx.1 evolves keeps, hx.2⟩

/-- Whoever was ever recorded as the proposer is in no later tally of the proposal. -/
theorem proposer_excluded {before more : List (Event ℕ Ballot Op)} {p : ProposalRow}
    (found : (ReadCommitted.run (program env) (initial Schema.empty)
      before).committed.proposals.find id = some p)
    (proposer : p.proposerId = some u)
    (hx : x ∈ (ReadCommitted.run (program env) (initial Schema.empty) (before ++ more)).running) :
    Excludes id u x.phase := by
  have sound := reachable_sound env before
  have start : Sound (fun s => Invariant s ∧ Authored s id u)
      (fun x s => Assertion env x s ∧ Excludes id u x.phase)
      (ReadCommitted.run (program env) (initial Schema.empty) before) :=
    ⟨⟨sound.committed, .inl ⟨p, found, proposer⟩⟩,
      fun y hy => ⟨sound.running y hy, excludes_of_named (sound.running y hy) found proposer⟩,
      sound.exclusive⟩
  rw [ReadCommitted.run_append] at hx
  exact ((run_preserves_sound (outline_authored env id u) start more).running x hx).2

end Proposer

/-- In every interleaving, a vote about to return `published = true` commits what
`PublishedByVote` says, and nobody ever recorded as the proposal's proposer is among the
approvers it counted. -/
theorem published_by_vote (env : Env) (events : List (Event ℕ Ballot Op)) (x : VoteTxn)
    (totals : ProposalVoteTotals)
    (running : x ∈ (ReadCommitted.run (program env) (initial Schema.empty) events).running)
    (returns : returned x.phase = some totals) (published : totals.published = true) :
    ∃ d, x.phase = .published d ∧
      PublishedByVote env d totals
        (ReadCommitted.run (program env) (initial Schema.empty) events).committed
        (ReadCommitted.run (program env) (initial Schema.empty)
          (events ++ [.advance x.id])).committed ∧
      ∀ before more, events = before ++ more → ∀ p u,
        (ReadCommitted.run (program env) (initial Schema.empty)
          before).committed.proposals.find d.ballot.id = some p →
        p.proposerId = some u → u ∉ approvers d.seen d.ballot.id := by
  obtain ⟨d, phase, rfl⟩ : ∃ d, x.phase = .published d ∧
      totals = ⟨tallyApprovals d.toCounted, tallyRejections d.toCounted, true⟩ := by
    cases hphase : x.phase with
    | published d =>
      rw [hphase] at returns
      exact ⟨d, rfl, (Option.some.inj returns).symm⟩
    | unpublished c =>
      rw [hphase] at returns
      rw [← Option.some.inj returns] at published
      cases published
    | _ =>
      rw [hphase] at returns
      cases returns
  have sound := reachable_sound env events
  refine ⟨d, phase, ?_, ?_⟩
  · have commits : (program env).statement x
        (ReadCommitted.run (program env) (initial Schema.empty) events).committed =
        ⟨[], .commit⟩ := by
      simp [Program.statement, program, phase, next]
    rw [ReadCommitted.run_append]
    change PublishedByVote env d _ _ (fire (program env) _ (.advance x.id)).committed
    rw [fire_commit running commits]
    exact publishedByVote (sound.running x running) phase
  · rintro before more rfl p u found proposer
    exact proposer_excluded found proposer running d.toCounted (by rw [phase]; rfl) rfl

/-- Five approvals stand, a sixth user's vote counts six, and an approver is suspended before
the decision is recorded. -/
def suspendedMeanwhile : List (Event ℕ Ballot Op) :=
  (sampleStart sampleEdit ++ approvals [2, 3, 4, 5, 6] ++ enlist 7).map .atomic ++
    .begin 1 ⟨1, 7, .approve, 0⟩ :: List.replicate 6 (.advance 1) ++
    .atomic (.suspendByAdmin 2) :: List.replicate 3 (.advance 1)

theorem suspended_not_recorded :
    ∃ x totals, x ∈ (ReadCommitted.run (program Clock.env) (initial Schema.empty)
        suspendedMeanwhile).running ∧
      returned x.phase = some totals ∧ totals.published = true ∧ totals.approvals = 6 ∧
      ((ReadCommitted.run (program Clock.env) (initial Schema.empty)
        (suspendedMeanwhile ++ [.advance x.id])).committed.proposals.find 1).map
          ProposalRow.decisionApprovals = some (some 5) := by
  have returns : ((ReadCommitted.run (program Clock.env) (initial Schema.empty)
      suspendedMeanwhile).running.find 1).bind (fun x => returned x.phase) =
      some ⟨6, 0, true⟩ := by decide +kernel
  have recorded : ((ReadCommitted.run (program Clock.env) (initial Schema.empty)
      (suspendedMeanwhile ++ [.advance 1])).committed.proposals.find 1).map
        ProposalRow.decisionApprovals = some (some 5) := by decide +kernel
  obtain ⟨x, hx, hret⟩ := Option.bind_eq_some_iff.mp returns
  obtain ⟨hmem, hid⟩ := Table.find_eq_some.mp hx
  refine ⟨x, ⟨6, 0, true⟩, hmem, hret, rfl, rfl, ?_⟩
  rw [hid]
  exact recorded

/-- Six approvals, the sixth taken statement by statement. -/
def sixthVote : List (Event ℕ Ballot Op) :=
  (sampleStart sampleEdit ++ approvals [2, 3, 4, 5, 6] ++ enlist 7).map .atomic ++
    .begin 1 ⟨1, 7, .approve, 0⟩ :: List.replicate 9 (.advance 1)

theorem sixthVote_published :
    ∃ x totals d, x ∈ (ReadCommitted.run (program Clock.env) (initial Schema.empty)
        sixthVote).running ∧
      returned x.phase = some totals ∧ totals = ⟨6, 0, true⟩ ∧ x.phase = .published d ∧
      PublishedByVote Clock.env d totals
        (ReadCommitted.run (program Clock.env) (initial Schema.empty) sixthVote).committed
        (ReadCommitted.run (program Clock.env) (initial Schema.empty)
          (sixthVote ++ [.advance x.id])).committed := by
  have returns : ((ReadCommitted.run (program Clock.env) (initial Schema.empty)
      sixthVote).running.find 1).bind (fun x => returned x.phase) = some ⟨6, 0, true⟩ := by
    decide +kernel
  obtain ⟨x, hx, hret⟩ := Option.bind_eq_some_iff.mp returns
  have hmem := (Table.find_eq_some.mp hx).1
  obtain ⟨d, phase, holds, -⟩ := published_by_vote Clock.env sixthVote x _ hmem hret rfl
  exact ⟨x, _, d, hmem, hret, rfl, phase, holds⟩

end VotePublication
