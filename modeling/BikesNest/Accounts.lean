import BikesNest.Schema

/-! Account transactions as far as they bear on listings and votes: sign-up, confirmation of
an address, suspension, restoration and anonymization in place. Sessions, tokens and mail
are left out, and with them the refusals they cause: a confirmation is admitted here
whenever the account's state admits it. -/

namespace Accounts

open Parking Proposal Schema Outcome

inductive AuthError where
  | conflict
  | lastActiveAdmin
  deriving DecidableEq

inductive PrivacyError where
  | lastAdmin
  deriving DecidableEq

/-- The account and role rows of `register`. -/
def register (s : Store) (id : UserId) (publicName : Bool) : Except AuthError Store := do
  let users ← orFail (s.users.insert ⟨id, .pendingEmailVerification, none, publicName⟩) .conflict
  let roles ← orFail (s.roles.insert ⟨id, .user, none⟩) .conflict
  pure { s with users := users, roles := roles }

def setUser (s : Store) (id : UserId) (f : UserRow → UserRow)
    (hf : ∀ u, (f u).id = u.id) : Store :=
  { s with users := s.users.update (fun u => decide (u.id = id)) f hf }

/-- `confirm_email`: only a pending or an active account. -/
def confirmEmail (s : Store) (id : UserId) (now : Instant) : Store :=
  match s.users.find id with
  | some u =>
    if u.accountState = .pendingEmailVerification ∨ u.accountState = .active then
      setUser s id (fun u => { u with accountState := .active, emailVerifiedAt := some now })
        fun _ => rfl
    else s
  | none => s

/-- `suspend_by_admin`: the last active administrator stays. -/
def suspendByAdmin (s : Store) (id : UserId) : Except AuthError Store :=
  match s.users.find id with
  | none => pure s
  | some u =>
    if u.accountState = .active ∨ u.accountState = .pendingEmailVerification then do
      ensure (¬ (u.accountState = .active ∧ (s.roles.find (id, .admin)).isSome ∧
        s.roles.count (fun r => decide (r.role = .admin ∧ r.userId ≠ id) &&
          (s.users.find r.userId).any fun v => decide (v.accountState = .active)) = 0))
        .lastActiveAdmin
      pure (setUser s id (fun u => { u with accountState := .suspended }) fun _ => rfl)
    else pure s

/-- `restore_by_admin`: back to active, or to pending when the address was never verified. -/
def restoreByAdmin (s : Store) (id : UserId) : Store :=
  match s.users.find id with
  | none => s
  | some u =>
    if u.accountState = .suspended then
      setUser s id (fun u => { u with
        accountState := if u.emailVerifiedAt = none then .pendingEmailVerification
          else .active }) fun _ => rfl
    else s

/-- The statements of `anonymize_guarded` on the relations modelled here. -/
def scrub (s : Store) (id : UserId) : Store :=
  let locations := s.locations.update (fun r => decide (r.creatorId = some id))
    (fun r => { r with creatorId := none }) LocationRow.unattributed_key
  let revisions := s.revisions.update (fun r => decide (r.editorId = some id))
    (fun r => { r with editorId := none }) RevisionRow.unattributed_key
  let proposed := s.proposals.update (fun p => decide (p.proposerId = some id))
    (fun p => { p with proposerId := none }) ProposalRow.unproposed_key
  let proposals := proposed.update (fun p => decide (p.resolvedBy = some id))
    (fun p => { p with resolvedBy := none }) ProposalRow.unresolved_key
  let users := s.users.update (fun u => decide (u.id = id))
    (fun u => { u with
      accountState := .deleted, emailVerifiedAt := none, publicContributionName := false })
    fun _ => rfl
  let granted := (s.roles.delete fun r => decide (r.userId = id)).update
    (fun r => decide (r.grantedBy = some id)) (fun r => { r with grantedBy := none })
    RoleRow.ungranted_key
  let reviews := s.reviews.update (fun r => decide (r.authorId = some id))
    (fun r => { r with authorId := none, publicAuthor := false }) ReviewRow.unattributed_key
  let kept := s.verifications.delete fun v => decide (v.userId = some id ∧ v.signal = .parkedHere)
  let verifications := kept.update (fun v => decide (v.userId = some id))
    (fun v => { v with userId := none }) VerificationRow.unattributed_key
  { s with
    locations := locations
    revisions := revisions
    proposals := proposals
    votes := s.votes.delete fun v => decide (v.voterId = id)
    users := users
    roles := granted
    reviews := reviews
    verifications := verifications }

/-- `anonymize`: one transaction, behind the guard that keeps the last administrator. -/
def anonymize (s : Store) (id : UserId) : Except PrivacyError Store := do
  ensure (¬ ((s.roles.find (id, .admin)).isSome ∧
    s.roles.count (fun r => decide (r.role = .admin)) = 1)) .lastAdmin
  pure (scrub s id)

/-- An account transaction other than anonymization: every table but users and roles stays. -/
structure AccountsOnly (s t : Store) : Prop where
  locations : t.locations = s.locations
  hours : t.hours = s.hours
  security : t.security = s.security
  revisions : t.revisions = s.revisions
  proposals : t.proposals = s.proposals
  votes : t.votes = s.votes
  reviews : t.reviews = s.reviews
  verifications : t.verifications = s.verifications

theorem AccountsOnly.refl (s : Store) : AccountsOnly s s := by constructor <;> rfl

theorem setUser_frame (s : Store) (id : UserId) (f : UserRow → UserRow)
    (hf : ∀ u, (f u).id = u.id) : AccountsOnly s (setUser s id f hf) := by
  constructor <;> rfl

theorem register_ok {s t : Store} {id : UserId} {publicName : Bool} :
    register s id publicName = .ok t ↔
      ∃ users, s.users.insert ⟨id, .pendingEmailVerification, none, publicName⟩ = some users ∧
      ∃ roles, s.roles.insert ⟨id, .user, none⟩ = some roles ∧
        { s with users := users, roles := roles } = t := by
  simp only [register, bind_ok, orFail_ok, pure_ok]

theorem register_frame {s t : Store} {id : UserId} {publicName : Bool}
    (h : register s id publicName = .ok t) : AccountsOnly s t := by
  obtain ⟨users, -, roles, -, rfl⟩ := register_ok.mp h
  constructor <;> rfl

theorem confirmEmail_frame (s : Store) (id : UserId) (now : Instant) :
    AccountsOnly s (confirmEmail s id now) := by
  unfold confirmEmail
  split
  · split
    · exact setUser_frame s id _ _
    · exact .refl s
  · exact .refl s

theorem restoreByAdmin_frame (s : Store) (id : UserId) :
    AccountsOnly s (restoreByAdmin s id) := by
  unfold restoreByAdmin
  split
  · exact .refl s
  · split
    · exact setUser_frame s id _ _
    · exact .refl s

/-- A suspension leaves the store alone or turns one account to `suspended`. -/
theorem suspendByAdmin_ok {s t : Store} {id : UserId} (h : suspendByAdmin s id = .ok t) :
    t = s ∨ t = setUser s id (fun u => { u with accountState := .suspended }) fun _ => rfl := by
  unfold suspendByAdmin at h
  split at h
  · simp only [pure_ok] at h
    exact .inl h.symm
  · split at h
    · simp only [bind_ok, ensure_ok, pure_ok] at h
      obtain ⟨-, -, rfl⟩ := h
      exact .inr rfl
    · simp only [pure_ok] at h
      exact .inl h.symm

theorem suspendByAdmin_frame {s t : Store} {id : UserId} (h : suspendByAdmin s id = .ok t) :
    AccountsOnly s t := by
  rcases suspendByAdmin_ok h with rfl | rfl
  · exact .refl t
  · exact setUser_frame s id _ _

theorem anonymize_ok {s t : Store} {id : UserId} (h : anonymize s id = .ok t) :
    t = scrub s id := by
  simp only [anonymize, bind_ok, ensure_ok, pure_ok] at h
  obtain ⟨-, -, rfl⟩ := h
  rfl

section Scrub

variable (s : Store) (id : UserId)

@[simp] theorem find_scrub_location (k : LocationId) :
    (scrub s id).locations.find k = (s.locations.find k).map fun r =>
      if r.creatorId = some id then { r with creatorId := none } else r := by
  simp [scrub]

@[simp] theorem find_scrub_proposal (k : ProposalId) :
    (scrub s id).proposals.find k = (s.proposals.find k).map fun p => { p with
      proposerId := if p.proposerId = some id then none else p.proposerId
      resolvedBy := if p.resolvedBy = some id then none else p.resolvedBy } := by
  simp only [scrub, Table.find_update, decide_eq_true_eq, Option.map_map]
  congr 1
  funext p
  by_cases hp : p.proposerId = some id <;> by_cases hr : p.resolvedBy = some id <;>
    simp [hp, hr]

@[simp] theorem find_scrub_user (k : UserId) :
    (scrub s id).users.find k = (s.users.find k).map fun u =>
      if u.id = id then { u with
        accountState := .deleted, emailVerifiedAt := none, publicContributionName := false }
      else u := by
  simp [scrub]

theorem scrub_revisions :
    (scrub s id).revisions.rows = s.revisions.rows.map fun r =>
      if r.editorId = some id then { r with editorId := none } else r := by
  simp [scrub, Table.update]

end Scrub

end Accounts
