import BikesNest.RowLocks

/-! `vote_on_proposal` statement by statement. The location and the proposal are locked, the
accounts are not: eligibility is read three times, by the check, by the tally and by the
statement that records the decision, each on what is committed when it runs. -/

namespace VoteStatements

open Parking Proposal Schema Publishing Contribution Accounts Operations ReadCommitted RowLocks
open Outcome

structure Ballot where
  id : ProposalId
  voter : UserId
  vote : ProposalVote
  now : Instant

/-- What the transaction read under its locks. -/
structure Locked where
  ballot : Ballot
  loc : LocationRow
  prop : ProposalRow

/-- `seen` is the view the tally statement counted in. -/
structure Counted extends Locked where
  seen : Store

/-- The change a publication writes, and the row the location's update returned. -/
structure Applied extends Counted where
  applied : ProposalApplication
  row : LocationRow

/-- `decidedOn` is the view the decision statement counted in. -/
structure Decided extends Applied where
  decidedOn : Store

inductive Phase where
  | start (b : Ballot)
  | located (b : Ballot) (l : LocationId)
  | locationLocked (b : Ballot) (loc : LocationRow)
  | proposalLocked (k : Locked)
  | admitted (k : Locked)
  | voted (k : Locked)
  | counted (c : Counted)
  | unpublished (c : Counted)
  | applied (a : Applied)
  | decided (d : Decided)
  | published (d : Decided)

abbrev Stmt := Statement Store Lock Phase

abbrev VoteTxn := Txn Store Lock ℕ Phase

def voteWrite (b : Ballot) (s : Store) : Store := upsertVote s b.id b.voter b.vote

/-- The revision of a publication. -/
def publishedRevision (env : Env) (v : Store) (l : LocationId) (row : LocationRow)
    (moderator : UserId) (applied : ProposalApplication) : RevisionRow :=
  ⟨l, row.version, some moderator, .moderation, appliedSummary applied, snapshotWith env v row⟩

/-- The location's row, its parts and its revision. Whether the parts can be written depends
on the change alone. -/
def publishWrite (env : Env) (l : LocationId) (row : LocationRow)
    (applied : ProposalApplication) (revision : RevisionRow) (s : Store) : Store :=
  let moved := setLocation s row
  let parts := (writeParts env moved l applied).toOption.getD moved
  { parts with revisions := (parts.revisions.insert revision).getD parts.revisions }

/-- The decision columns, with the counts the statement has read. -/
def decisionWrite (id : ProposalId) (resolver : UserId) (approvals rejections : ℕ)
    (s : Store) : Store :=
  let proposals := s.proposals.update (fun p => decide (p.id = id))
    (fun p => { p with
      status := .approved
      resolvedBy := some resolver
      decisionApprovals := some approvals
      decisionRejections := some rejections }) fun _ => rfl
  { s with proposals := proposals }

def supersedeWrite (ids : List ProposalId) (s : Store) : Store :=
  let proposals := s.proposals.update (fun p => decide (p.id ∈ ids))
    (fun p => { p with status := .superseded }) ProposalRow.superseded_key
  { s with proposals := proposals }

def tallyApprovals (c : Counted) : ℕ := countVotes c.seen c.ballot.id .approve

def tallyRejections (c : Counted) : ℕ := countVotes c.seen c.ballot.id .reject

/-- The location's row is read under its lock and must be active. -/
def lockLocationStatement (b : Ballot) (l : LocationId) (v : Store) : Stmt :=
  match v.locations.find l with
  | some loc =>
    if loc.moderationState = .active then
      .proceed (.locationLocked b loc) [.location l] fun s => s
    else .abort [.location l]
  | none => .abort []

/-- The proposal is read under its lock: current, pending and by someone else. -/
def lockProposalStatement (b : Ballot) (loc : LocationRow) (v : Store) : Stmt :=
  match v.proposals.find b.id with
  | some prop =>
    if prop.baseVersion = loc.version ∧ prop.status = .pending ∧
        prop.proposerId ≠ some b.voter then
      .proceed (.proposalLocked ⟨b, loc, prop⟩) [.proposal b.id] fun s => s
    else .abort [.proposal b.id]
  | none => .abort []

/-- The writes of `approve_in_transaction` up to the revision, after its own checks. -/
def publishStatement (env : Env) (c : Counted) (applied : ProposalApplication) (v : Store) :
    Stmt :=
  let locks := [.location c.loc.id, .proposal c.ballot.id]
  if c.prop.kind = applied.kind then
    match applyChange env v c.loc applied with
    | .ok (row, parts) =>
      let revision := publishedRevision env parts c.loc.id row c.ballot.voter applied
      match insertRevision parts c.loc.id row.version c.ballot.voter .moderation
          (appliedSummary applied) (snapshotWith env parts row) with
      | .ok _ => .proceed (.applied { c with applied := applied, row := row }) locks
          (publishWrite env c.loc.id row applied revision)
      | .error _ => .abort locks
    | .error _ => .abort locks
  else .abort locks

/-- After the tally: publish, escalate or only count. -/
def settleStatement (env : Env) (c : Counted) (v : Store) : Stmt :=
  if shouldPublish (tallyApprovals c) = true ∧ c.prop.escalatedAt = none then
    match merge env c.prop.kind (ProposedChange.fromJson env c.prop.kind c.prop.proposed) {} with
    | .ok applied => publishStatement env c applied v
    | .error _ => .proceed (.unpublished c) [.proposal c.ballot.id]
        fun s => escalate s c.ballot.id c.ballot.now
  else .proceed (.unpublished c) [] fun s => s

/-- The other pending proposals of the location, in the view of the statement. -/
def siblings (d : Decided) (v : Store) : List ProposalId :=
  (v.proposals.filter fun p => decide (p.locationId = d.loc.id ∧ p.status = .pending ∧
    p.id ≠ d.ballot.id)).map ProposalRow.id

/-- The statement of each phase, on the view its transaction has. -/
def next (env : Env) (phase : Phase) (v : Store) : Stmt :=
  match phase with
  | .start b =>
    match v.proposals.find b.id with
    | some p => .proceed (.located b p.locationId) [] fun s => s
    | none => .abort []
  | .located b l => lockLocationStatement b l v
  | .locationLocked b loc => lockProposalStatement b loc v
  | .proposalLocked k =>
    if (v.users.find k.ballot.voter).any eligibleVoter then .proceed (.admitted k) [] fun s => s
    else .abort []
  | .admitted k => .proceed (.voted k) [.vote k.ballot.id k.ballot.voter] (voteWrite k.ballot)
  | .voted k => .proceed (.counted { k with seen := v }) [] fun s => s
  | .counted c => settleStatement env c v
  | .applied a =>
    .proceed (.decided { a with decidedOn := v }) [.proposal a.ballot.id]
      (decisionWrite a.ballot.id a.ballot.voter (countVotes v a.ballot.id .approve)
        (countVotes v a.ballot.id .reject))
  | .decided d =>
    .proceed (.published d) ((siblings d v).map .proposal) (supersedeWrite (siblings d v))
  | .unpublished _ => ⟨[], .commit⟩
  | .published _ => ⟨[], .commit⟩

/-- What a vote about to commit returns. -/
def returned : Phase → Option ProposalVoteTotals
  | .unpublished c => some ⟨tallyApprovals c, tallyRejections c, false⟩
  | .published d => some ⟨tallyApprovals d.toCounted, tallyRejections d.toCounted, true⟩
  | _ => none

/-- Votes, statement by statement, among the operations of the repositories. -/
def program (env : Env) : Program Store Lock Phase Ballot Op where
  entry := .start
  next := next env
  touches op s := touches s op
  apply op s := exec env s op

/-! A vote that nothing runs beside is the one-step `voteOnProposal`. -/

theorem supersedeWrite_siblings {d : Decided} {v : Store} :
    supersedeWrite (siblings d v) v =
      supersedePendingProposals v d.loc.id (some d.ballot.id) := by
  have rows : (supersedeWrite (siblings d v) v).proposals =
      (supersedePendingProposals v d.loc.id (some d.ballot.id)).proposals := by
    ext1
    simp only [supersedeWrite, supersedePendingProposals, Table.update]
    refine List.map_congr_left fun p hp => ?_
    have same : p.id ∈ siblings d v ↔ p.locationId = d.loc.id ∧ p.status = .pending ∧
        some d.ballot.id ≠ some p.id := by
      simp only [siblings, List.mem_map, Table.mem_filter, decide_eq_true_eq]
      constructor
      · rintro ⟨q, ⟨hq, hl, hs, hne⟩, hid⟩
        obtain rfl : q = p := Table.eq_of_key_eq hq hp hid
        exact ⟨hl, hs, fun he => hne (Option.some.inj he).symm⟩
      · rintro ⟨hl, hs, hne⟩
        exact ⟨p, ⟨hp, hl, hs, fun he => hne (he ▸ rfl)⟩, rfl⟩
    simp only [same]
  simp only [supersedeWrite, supersedePendingProposals] at rows ⊢
  rw [rows]

theorem publishWrite_eq {env : Env} {v parts t : Store} {loc row : LocationRow}
    {applied : ProposalApplication} {moderator : UserId}
    (happly : applyChange env v loc applied = .ok (row, parts))
    (hrev : insertRevision parts loc.id row.version moderator .moderation
      (appliedSummary applied) (snapshotWith env parts row) = .ok t) :
    publishWrite env loc.id row applied
      (publishedRevision env parts loc.id row moderator applied) v = t := by
  obtain ⟨-, -, written⟩ := applyChange_ok.mp happly
  obtain ⟨-, -, revisions, hins, rfl⟩ := insertRevision_ok.mp hrev
  simp only [publishWrite, written, Except.toOption, Option.getD_some, publishedRevision, hins]

/-- What a run alone returns and commits. -/
def outcome (r : Option (Phase × Store)) : Option (ProposalVoteTotals × Store) :=
  r.bind fun r => (returned r.1).map fun totals => (totals, r.2)

section Alone

variable {env : Env} {s : Store} {x : VoteTxn} {c : Counted}

theorem publish_alone (applied : ProposalApplication) (hphase : x.phase = .counted c)
    (votable : Votable (x.pending s) c.ballot.id c.ballot.voter c.prop c.loc)
    (h : next env (.counted c) (x.pending s) = publishStatement env c applied (x.pending s)) :
    outcome ((program env).alone 4 x s) =
      ((approveInTransaction env (x.pending s) c.ballot.id c.ballot.voter applied).toOption).map
        fun t => (⟨tallyApprovals c, tallyRejections c, true⟩, t) := by
  have statement : (program env).statement x s = publishStatement env c applied (x.pending s) := by
    rw [← h, ← hphase]
    rfl
  have checked : approveInTransaction env (x.pending s) c.ballot.id c.ballot.voter applied =
      (if c.prop.kind = applied.kind then
        match applyChange env (x.pending s) c.loc applied with
        | .ok (row, parts) =>
          match insertRevision parts c.loc.id row.version c.ballot.voter .moderation
              (appliedSummary applied) (snapshotWith env parts row) with
          | .ok t => .ok (supersedePendingProposals
              (decideProposal t c.ballot.id .approved c.ballot.voter fun r => r) c.loc.id
              (some c.ballot.id))
          | .error e => .error e.toModeration
        | .error e => .error e
      else .error .invalidState) := by
    by_cases hkind : c.prop.kind = applied.kind
    · simp only [approveInTransaction, votable.found, votable.located, votable.pending,
        votable.current, votable.byOther, hkind, Outcome.orFail, Outcome.ensure, bind, Except.bind,
        ne_eq, not_false_eq_true, and_self, if_true]
      cases applyChange env (x.pending s) c.loc applied with
      | error e => rfl
      | ok r =>
        simp only
        cases insertRevision r.2 c.loc.id r.1.version c.ballot.voter .moderation
          (appliedSummary applied) (snapshotWith env r.2 r.1) <;> rfl
    · simp only [approveInTransaction, votable.found, votable.located, votable.pending,
        votable.current, hkind, Outcome.orFail, Outcome.ensure, bind, Except.bind,
        false_and, if_true, if_false]
  rw [checked]
  simp only [publishStatement] at statement
  split
  · rename_i hkind
    rw [if_pos hkind] at statement
    split
    · rename_i row parts happly
      simp only [happly] at statement
      split
      · rename_i t hrev
        simp only [hrev] at statement
        have published := publishWrite_eq happly hrev
        rw [alone_proceed 3 statement, alone_proceed 2 rfl, alone_proceed 1 rfl,
          alone_commit 0 rfl]
        simp only [outcome, Option.bind_some, Txn.step, returned, Option.map_some,
          Function.comp_apply, published, supersedeWrite_siblings]
        rfl
      · rename_i e hrev
        simp only [hrev] at statement
        rw [alone_abort 3 statement]
        rfl
    · rename_i e happly
      simp only [happly] at statement
      rw [alone_abort 3 statement]
      rfl
  · rename_i hkind
    rw [if_neg hkind] at statement
    rw [alone_abort 3 statement]
    rfl


theorem settle_alone (hphase : x.phase = .counted c)
    (votable : Votable (x.pending s) c.ballot.id c.ballot.voter c.prop c.loc) :
    outcome ((program env).alone 4 x s) =
      ((settleVote env (x.pending s) c.prop c.ballot.voter (tallyApprovals c)
        c.ballot.now).toOption).map
        fun r => (⟨tallyApprovals c, tallyRejections c, r.1⟩, r.2) := by
  have hid : c.prop.id = c.ballot.id := (Table.find_eq_some.mp votable.found).2
  have statement : (program env).statement x s = settleStatement env c (x.pending s) := by
    simp only [Program.statement, program, hphase, next]
  by_cases publish : shouldPublish (tallyApprovals c) = true ∧ c.prop.escalatedAt = none
  · cases merged : merge env c.prop.kind
        (ProposedChange.fromJson env c.prop.kind c.prop.proposed) {} with
    | ok applied =>
      rw [publish_alone applied hphase votable
        (by simp only [next, settleStatement, publish, merged, and_self, if_true])]
      simp only [settleVote, publish, merged, hid, and_self, if_true]
      cases approveInTransaction env (x.pending s) c.ballot.id c.ballot.voter applied <;> rfl
    | error e =>
      simp only [settleStatement, publish, merged, and_self, if_true] at statement
      rw [alone_proceed 3 statement, alone_commit 2 rfl]
      simp only [settleVote, publish, merged, hid, and_self, if_true]
      rfl
  · simp only [settleStatement, publish, if_false] at statement
    rw [alone_proceed 3 statement, alone_commit 2 rfl]
    simp only [settleVote, publish, if_false]
    rfl

/-- A vote past its first read. -/
def located (b : Ballot) (l : LocationId) : VoteTxn :=
  ⟨0, .located b l, [], fun s => s⟩

/-- A vote that holds its location and its proposal. -/
def locked (k : Locked) (l : LocationId) : VoteTxn :=
  ⟨0, .proposalLocked k, [.proposal k.ballot.id, .location l], fun s => s⟩

theorem lock_alone_of_votable {b : Ballot} {prop : ProposalRow} {loc : LocationRow} (n : ℕ)
    (votable : Votable s b.id b.voter prop loc) :
    (program env).alone (n + 3) (.start (0 : ℕ) (.start b)) s =
      (program env).alone n (locked ⟨b, loc, prop⟩ prop.locationId) s := by
  have first : (program env).statement (.start (0 : ℕ) (.start b)) s =
      .proceed (.located b prop.locationId) [] fun s => s := by
    simp [Program.statement, program, next, Txn.start, votable.found]
  have second : (program env).statement (located b prop.locationId) s =
      .proceed (.locationLocked b loc) [.location prop.locationId] fun s => s := by
    simp [Program.statement, program, next, located, lockLocationStatement, votable.located,
      votable.active]
  have third : (program env).statement
      ((located b prop.locationId).step [.location prop.locationId] (.locationLocked b loc)
        fun s => s) s =
      .proceed (.proposalLocked ⟨b, loc, prop⟩) [.proposal b.id] fun s => s := by
    simp [Program.statement, program, next, Txn.step, located, lockProposalStatement,
      votable.found, votable.current, votable.pending, votable.byOther]
  rw [alone_proceed (n + 2) first]
  exact (alone_proceed (n + 1) second).trans (alone_proceed n third)

/-- A vote run alone that gets past its locks passed every check of `lockForVote`. -/
theorem votable_of_alone {b : Ballot} {n : ℕ} {r : Phase × Store}
    (h : (program env).alone (n + 3) (.start (0 : ℕ) (.start b)) s = some r) :
    ∃ prop loc, Votable s b.id b.voter prop loc := by
  simp only [Program.alone, Program.statement, program, next, Txn.start] at h
  cases found : s.proposals.find b.id with
  | none => simp [found, Statement.abort] at h
  | some prop =>
    simp only [found, Statement.proceed, Txn.step, Function.comp_apply, lockLocationStatement] at h
    cases located : s.locations.find prop.locationId with
    | none => simp [located, Statement.abort] at h
    | some loc =>
      simp only [located] at h
      by_cases active : loc.moderationState = .active
      · simp only [active, if_true, lockProposalStatement, found] at h
        by_cases checks : prop.baseVersion = loc.version ∧ prop.status = .pending ∧
            prop.proposerId ≠ some b.voter
        · exact ⟨prop, loc, found, located, active, checks.1, checks.2.1, checks.2.2⟩
        · rw [if_neg checks] at h
          simp [Statement.abort] at h
      · simp [active, Statement.abort] at h

/-- A vote that nothing runs beside returns and commits what `voteOnProposal` does. -/
theorem vote_alone (b : Ballot) :
    outcome ((program env).alone 10 (.start (0 : ℕ) (.start b)) s) =
      (voteOnProposal env s b.id b.voter b.vote b.now).toOption := by
  by_cases h : ∃ prop loc, Votable s b.id b.voter prop loc
  · obtain ⟨prop, loc, votable⟩ := h
    have granted : lockForVote s b.id b.voter = .ok prop := lockForVote_ok.mpr ⟨loc, votable⟩
    rw [lock_alone_of_votable 7 votable]
    cases voter : (s.users.find b.voter).filter eligibleVoter with
    | some u =>
      have eligible : (s.users.find b.voter).any eligibleVoter := by
        obtain ⟨found, eligible⟩ := Option.filter_eq_some_iff.mp voter
        simp [found, eligible]
      have admitted : (program env).statement (locked ⟨b, loc, prop⟩ prop.locationId) s =
          .proceed (.admitted ⟨b, loc, prop⟩) [] fun s => s := by
        simp [Program.statement, program, next, locked, eligible]
      rw [alone_proceed 6 admitted, alone_proceed 5 rfl, alone_proceed 4 rfl,
        settle_alone rfl ⟨votable.found, votable.located, votable.active, votable.current,
          votable.pending, votable.byOther⟩]
      simp only [voteOnProposal, granted, voter, orFail, bind, Except.bind]
      simp only [tallyApprovals, tallyRejections, Txn.step, locked, Function.comp_apply, voteWrite]
      cases settleVote env (upsertVote s b.id b.voter b.vote) prop b.voter
        (countVotes (upsertVote s b.id b.voter b.vote) b.id .approve) b.now <;> rfl
    | none =>
      have ineligible : (s.users.find b.voter).any eligibleVoter = false := by
        cases found : s.users.find b.voter with
        | none => rfl
        | some u => simpa [found] using voter
      have refused : (program env).statement (locked ⟨b, loc, prop⟩ prop.locationId) s =
          .abort [] := by
        simp [Program.statement, program, next, locked, ineligible]
      rw [alone_abort 6 refused]
      simp [voteOnProposal, granted, voter, orFail, bind, Except.bind, outcome, Except.toOption]
  · have stopped : (program env).alone 10 (.start (0 : ℕ) (.start b)) s = none :=
      Option.eq_none_iff_forall_ne_some.mpr fun r hr => h (votable_of_alone hr)
    rw [stopped]
    cases refused : lockForVote s b.id b.voter with
    | ok prop =>
      obtain ⟨loc, votable⟩ := lockForVote_ok.mp refused
      exact absurd ⟨prop, loc, votable⟩ h
    | error e => simp [voteOnProposal, refused, bind, Except.bind, outcome, Except.toOption]

end Alone

end VoteStatements
