import BikesNest.AuthOutbox
import BikesNest.Sessions

/-! The account repository: suspension, restoration, roles and the session that a login opens.
As in the outbox each is one transaction that returns the store it commits; `Ok(false)` is the
neutral stop. Audit rows are left out. -/

namespace AccountAdmin

open Parking Schema Credentials Outcome AuthOutbox

/-- The users of the rows that `FOR UPDATE` locks, in storage order. -/
def admins (s : AuthStore) : List UserId :=
  (s.roles.filter fun r => decide (r.role = .admin)).map RoleRow.userId

def isActive (s : AuthStore) (u : UserId) : Bool :=
  (s.users.find u).any fun a => decide (a.accountState = .active)

/-- The count that `suspend_by_admin` asks for. -/
def otherActiveAdmins (s : AuthStore) (u : UserId) : ℕ :=
  s.roles.count fun r => decide (r.role = .admin ∧ r.userId ≠ u) && isActive s r.userId

def suspendByAdmin (s : AuthStore) (u : UserId) (clock : Instant) : Except Halt AuthStore := do
  let user ← orFail (s.users.find u) .neutral
  ensure (canLogIn user.accountState) .neutral
  ensure (user.accountState = .active → u ∈ admins s → otherActiveAdmins s u ≠ 0)
    (.fail .lastActiveAdmin)
  let s := setAccount s u (fun a => { a with
    accountState := .suspended, suspendedAt := some clock }) fun _ => rfl
  let s := revokeSessions s u clock
  pure (retireResetTokens (retireVerificationTokens s u clock) u clock)

def restoreByAdmin (s : AuthStore) (u : UserId) : Except Halt AuthStore := do
  let user ← orFail (s.users.find u) .neutral
  ensure (user.accountState = .suspended) .neutral
  pure (setAccount s u (fun a => { a with
    accountState := if a.emailVerifiedAt = none then .pendingEmailVerification else .active
    suspendedAt := none }) fun _ => rfl)

/-- `grant_role`: a pair that is there already is left alone, and its foreign keys unread. -/
def grantRole (s : AuthStore) (u : UserId) (role : Role) (by' : UserId) :
    Except Halt AuthStore :=
  match s.roles.insert ⟨u, role, some by'⟩ with
  | none => .ok s
  | some roles => do
    ensure ((s.users.find u).isSome ∧ (s.users.find by').isSome) (.fail .internal)
    pure { s with roles := roles }

def revokeRoleGuarded (s : AuthStore) (u : UserId) (role : Role) : Except Halt AuthStore := do
  ensure (¬ (role = .admin ∧ (admins s).length ≤ 1 ∧ u ∈ admins s)) (.fail .refuseAdminSelfRevoke)
  pure { s with roles := s.roles.delete fun r => decide (r.userId = u ∧ r.role = role) }

/-- The insert with which a login ends; a session refers to an account. -/
def openSession (s : AuthStore) (u : UserId) (raw : Digest) (csrf : Sessions.CsrfToken)
    (now clock : Instant) : Except Halt AuthStore := do
  let sessions ← (Sessions.create s.sessions u raw csrf now clock).mapError Halt.fail
  ensure ((s.users.find u).isSome) (.fail .internal)
  pure { s with sessions := sessions }

variable {s s' : AuthStore} {u : UserId} {now clock : Instant}

theorem suspendByAdmin_ok (h : suspendByAdmin s u clock = .ok s') :
    ∃ user, s.users.find u = some user ∧ canLogIn user.accountState = true ∧
      (user.accountState = .active → u ∈ admins s → otherActiveAdmins s u ≠ 0) ∧
      s' = { s with
        users := (setAccount s u (fun a => { a with
          accountState := .suspended, suspendedAt := some clock }) fun _ => rfl).users
        sessions := (revokeSessions s u clock).sessions
        verificationTokens := (retireVerificationTokens s u clock).verificationTokens
        resetTokens := (retireResetTokens s u clock).resetTokens } := by
  simp only [suspendByAdmin, bind_ok, orFail_ok, ensure_ok, pure_ok] at h
  obtain ⟨user, found, _, able, _, others, rfl⟩ := h
  exact ⟨user, found, able, others, rfl⟩

theorem restoreByAdmin_ok (h : restoreByAdmin s u = .ok s') :
    ∃ user, s.users.find u = some user ∧ user.accountState = .suspended ∧
      s' = setAccount s u (fun a => { a with
        accountState := if a.emailVerifiedAt = none then .pendingEmailVerification else .active
        suspendedAt := none }) fun _ => rfl := by
  simp only [restoreByAdmin, bind_ok, orFail_ok, ensure_ok, pure_ok] at h
  obtain ⟨user, found, _, suspended, rfl⟩ := h
  exact ⟨user, found, suspended, rfl⟩

theorem openSession_ok {raw : Digest} {csrf : Sessions.CsrfToken}
    (h : openSession s u raw csrf now clock = .ok s') :
    ∃ sessions, s.sessions.insert ⟨raw, u, Sessions.toBase64url csrf, clock, clock,
        now + Sessions.absoluteCap, none⟩ = some sessions ∧
      (s.users.find u).isSome = true ∧ s' = { s with sessions := sessions } := by
  simp only [openSession, bind_ok, mapError_ok, ensure_ok, pure_ok, Sessions.create,
    orFail_ok] at h
  obtain ⟨sessions, inserted, _, there, rfl⟩ := h
  exact ⟨sessions, inserted, there, rfl⟩

end AccountAdmin
