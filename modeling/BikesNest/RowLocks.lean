import BikesNest.Operations
import BikesNest.ReadCommitted

/-! The rows that transactions lock, and those that an operation run as one step takes. An
insert takes the key of its new row, since a second insert of that key waits for the first.
The shared locks of foreign keys are left out: they let more runs through, never fewer. -/

namespace RowLocks

open Parking Proposal Schema Publishing Contribution Accounts Operations

inductive Lock where
  | location (id : LocationId)
  | proposal (id : ProposalId)
  | vote (id : ProposalId) (voter : UserId)
  | user (id : UserId)
  | review (id : ℕ)
  deriving DecidableEq

/-- The location of a proposal, as a lock. -/
def locationLock (s : Store) (id : ProposalId) : List Lock :=
  ((s.proposals.find id).map fun p => .location p.locationId).toList

/-- The pending proposals of a location: what `supersede_pending_proposals` locks. -/
def pendingLocks (s : Store) (l : LocationId) : List Lock :=
  (s.proposals.filter fun p => decide (p.locationId = l ∧ p.status = .pending)).map fun p =>
    .proposal p.id

/-- The locks of a publication. -/
def publishLocks (s : Store) (id : ProposalId) : List Lock :=
  .proposal id :: locationLock s id ++
    ((s.proposals.find id).map fun p => pendingLocks s p.locationId).getD []

/-- The rows that name an account and are cleared when it is anonymized. -/
def accountLocks (s : Store) (id : UserId) : List Lock :=
  .user id ::
    ((s.reviews.filter fun r => decide (r.authorId = some id)).map fun r => .review r.id) ++
    ((s.proposals.filter fun p => decide (p.proposerId = some id ∨ p.resolvedBy = some id)).map
      fun p => .proposal p.id) ++
    ((s.votes.filter fun v => decide (v.voterId = id)).map
      fun v => .vote v.proposalId v.voterId) ++
    ((s.locations.filter fun r => decide (r.creatorId = some id)).map fun r => .location r.id)

/-- The rows an operation takes when it runs as one step. -/
def touches (s : Store) : Op → List Lock
  | .create id _ _ => [.location id]
  | .applyEdit id _ _ _ => [.location id]
  | .createProposal id p => [.location p.locationId, .user p.proposerId, .proposal id]
  | .voteOnProposal id voter _ _ => .vote id voter :: publishLocks s id
  | .setParkingState id _ _ _ => .location id :: pendingLocks s id
  | .approveProposal id _ _ => publishLocks s id
  | .rejectProposal id _ _ => [.proposal id]
  | .register id _ => [.user id]
  | .confirmEmail id _ => [.user id]
  | .suspendByAdmin id => [.user id]
  | .restoreByAdmin id => [.user id]
  | .anonymize id => accountLocks s id

end RowLocks
