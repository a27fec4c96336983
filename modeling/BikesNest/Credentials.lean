import BikesNest.Radix
import BikesNest.Schema

/-! The relations of accounts, login methods, sessions, mailed tokens and terms, and the
statements that several repositories share. A token or a session id enters by its SHA-256
digest, which is all the store ever sees of it. Audit rows and mail jobs are left out; what
the admission of a mail checks is in `AuthOutbox`. -/

namespace Credentials

open Parking Schema Outcome

/-- The number that the hexadecimal text of a SHA-256 hash spells. -/
abbrev Digest := ℕ

inductive AuthError where
  | invalidCredentials
  | emailTaken
  | weakPassword
  | invalidEmail
  | tokenInvalid
  | rateLimited
  | refuseAdminSelfRevoke
  | lastActiveAdmin
  | conflict
  | internal
  deriving DecidableEq

inductive PrivacyError where
  | notAuthorized
  | notFound
  | lastAdmin
  | reauthRequired
  | rateLimited
  | invalidToken
  | expired
  | alreadyDownloaded
  | invalidKind
  | invalidField (text : String)
  | conflict
  | unavailable
  | internal
  | retentionIncomplete (failures : List String)
  deriving DecidableEq

def hours (n : ℕ) : Instant := n * 3600000000

def minutes (n : ℕ) : Instant := n * 60000000

def days (n : ℕ) : Instant := n * 86400000000

inductive LocaleCode where
  | ptBr | en
  deriving DecidableEq

/-- `str::split_once`. -/
def splitOnce (sep : Char) : List Char → Option (List Char × List Char)
  | [] => none
  | c :: cs => if c = sep then some ([], cs) else (splitOnce sep cs).map fun p => (c :: p.1, p.2)

theorem splitOnce_eq_some {sep : Char} {cs before after : List Char} :
    splitOnce sep cs = some (before, after) ↔ sep ∉ before ∧ cs = before ++ sep :: after := by
  induction cs generalizing before with
  | nil => simp [splitOnce]
  | cons c cs ih =>
    rw [splitOnce]
    split
    · rename_i same
      subst same
      constructor
      · rintro ⟨⟩
        exact ⟨List.not_mem_nil, rfl⟩
      · rintro ⟨absent, eq⟩
        cases before with
        | nil =>
          cases eq
          rfl
        | cons d before =>
          cases eq
          exact absurd List.mem_cons_self absent
    · rename_i other
      constructor
      · intro h
        obtain ⟨p, found, eq⟩ := Option.map_eq_some_iff.mp h
        cases eq
        obtain ⟨absent, whole⟩ := ih.mp found
        exact ⟨List.not_mem_cons_of_ne_of_not_mem (Ne.symm other) absent, by rw [whole]; rfl⟩
      · rintro ⟨absent, eq⟩
        cases before with
        | nil =>
          cases eq
          exact absurd rfl other
        | cons d before =>
          cases eq
          rw [ih.mpr ⟨fun inside => absent (.tail _ inside), rfl⟩]
          rfl

def emailShaped (cs : List Char) : Bool :=
  match splitOnce '@' cs with
  | some (user, domain) => !user.isEmpty && !domain.isEmpty && domain.contains '.'
  | none => false

structure UserEmail where
  text : String
  shaped : emailShaped text.toList = true
  deriving DecidableEq

/-- `lower` is the lower-case mapping of Unicode, which the database applies in its index. -/
structure Casing where
  lower : String → String

def UserEmail.parse (env : Casing) (raw : String) : Option UserEmail :=
  let normalized := env.lower (trim raw)
  if h : emailShaped normalized.toList = true then some ⟨normalized, h⟩ else none

def eqIgnoreAsciiCase (a b : String) : Bool :=
  decide (a.toList.map Char.toLower = b.toList.map Char.toLower)

structure AccountRow where
  id : UserId
  email : String
  displayName : Option String
  accountState : AccountState
  emailVerifiedAt : Option Instant
  suspendedAt : Option Instant
  deletedAt : Option Instant
  locale : LocaleCode
  publicContributionName : Bool
  publicContributionNameUpdatedAt : Option Instant
  lastActiveAt : Instant
  deriving DecidableEq

inductive Provider where
  | password | google
  deriving DecidableEq

structure IdentityRow where
  userId : UserId
  provider : Provider
  providerSubject : String
  credentialHash : Option String
  deriving DecidableEq

structure SessionRow where
  tokenHash : Digest
  userId : UserId
  csrfToken : String
  createdAt : Instant
  lastSeenAt : Instant
  expiresAt : Instant
  revokedAt : Option Instant
  deriving DecidableEq

structure VerificationTokenRow where
  tokenHash : Digest
  userId : UserId
  email : String
  expiresAt : Instant
  usedAt : Option Instant
  deriving DecidableEq

structure ResetTokenRow where
  tokenHash : Digest
  userId : UserId
  expiresAt : Instant
  usedAt : Option Instant
  deriving DecidableEq

section Keys

/-! A redemption and a revocation leave the key of a row as it is. -/

theorem SessionRow.revoked_key (now : Instant) (r : SessionRow) :
    { r with revokedAt := some now }.tokenHash = r.tokenHash := rfl

theorem VerificationTokenRow.used_key (now : Instant) (t : VerificationTokenRow) :
    { t with usedAt := some now }.tokenHash = t.tokenHash := rfl

theorem ResetTokenRow.used_key (now : Instant) (t : ResetTokenRow) :
    { t with usedAt := some now }.tokenHash = t.tokenHash := rfl

end Keys

inductive PolicyKind where
  | privacy | terms | cookies
  deriving DecidableEq

structure PolicyRow where
  id : ℕ
  kind : PolicyKind
  locale : String
  version : String
  effectiveAt : Instant
  supersededAt : Option Instant
  content : String
  requiresAcknowledgement : Bool
  deriving DecidableEq

inductive AcknowledgementSource where
  | signup | inProduct
  deriving DecidableEq

structure AcknowledgementRow where
  userId : UserId
  policyVersionId : ℕ
  termsVersion : String
  shownLocale : String
  acknowledgedAt : Instant
  source : AcknowledgementSource
  deriving DecidableEq

/-- Keys are the primary keys of the migrations; acknowledgements have their unique pair. The
key of `authentication_identities` is read by nothing here, so its rows are a plain list. -/
structure AuthStore where
  users : Table UserId AccountRow AccountRow.id
  identities : List IdentityRow
  roles : Table (UserId × Role) RoleRow fun r => (r.userId, r.role)
  sessions : Table Digest SessionRow SessionRow.tokenHash
  verificationTokens : Table Digest VerificationTokenRow VerificationTokenRow.tokenHash
  resetTokens : Table Digest ResetTokenRow ResetTokenRow.tokenHash
  policies : Table ℕ PolicyRow PolicyRow.id
  acknowledgements : Table (UserId × String) AcknowledgementRow
    fun a => (a.userId, a.termsVersion)

def empty : AuthStore := ⟨.empty, [], .empty, .empty, .empty, .empty, .empty, .empty⟩

def setAccount (s : AuthStore) (id : UserId) (f : AccountRow → AccountRow)
    (hf : ∀ u, (f u).id = u.id) : AuthStore :=
  { s with users := s.users.update (fun u => decide (u.id = id)) f hf }

section SetAccount

variable (s : AuthStore) (u : UserId) {v : UserId} {f : AccountRow → AccountRow}

theorem find_setAccount {hf : ∀ a, (f a).id = a.id} : (setAccount s u f hf).users.find v =
    (s.users.find v).map fun a => if a.id = u then f a else a := by
  simp [setAccount]

theorem find_setAccount_other (other : v ≠ u) (hf : ∀ a, (f a).id = a.id) :
    (setAccount s u f hf).users.find v = s.users.find v := by
  rw [find_setAccount]
  cases found : s.users.find v with
  | none => rfl
  | some a =>
    have key : a.id = v := (Table.find_eq_some.mp found).2
    rw [Option.map_some, if_neg (by rw [key]; exact other)]

theorem find_setAccount_self (hf : ∀ a, (f a).id = a.id) :
    (setAccount s u f hf).users.find u = (s.users.find u).map f := by
  rw [find_setAccount]
  cases found : s.users.find u with
  | none => rfl
  | some a => simp [(Table.find_eq_some.mp found).2]

end SetAccount

/-- The password login of an account. -/
def IdentityRow.isPasswordOf (u : UserId) (i : IdentityRow) : Bool :=
  decide (i.userId = u ∧ i.provider = .password)

/-- `SELECT credential_hash … WHERE user_id = $1 AND provider = 'password'`. -/
def passwordHash (s : AuthStore) (u : UserId) : Option (Option String) :=
  (s.identities.find? fun i => i.isPasswordOf u).map IdentityRow.credentialHash

/-- `UPDATE authentication_identities SET … WHERE user_id = $1 AND provider = 'password'`. -/
def setPassword (s : AuthStore) (u : UserId) (f : IdentityRow → IdentityRow) : AuthStore :=
  { s with identities := s.identities.map fun i => if i.isPasswordOf u then f i else i }

/-- The unique pair of provider and subject. -/
def subjectTaken (identities : List IdentityRow) (provider : Provider) (subject : String) : Bool :=
  identities.any fun i => decide (i.provider = provider ∧ i.providerSubject = subject)

/-- `find_identity`. -/
def findIdentity (s : AuthStore) (provider : Provider) (subject : String) : Option IdentityRow :=
  s.identities.find? fun i => decide (i.provider = provider ∧ i.providerSubject = subject)

/-- An account as the application sees it; the roles are left out. -/
structure User where
  id : UserId
  email : UserEmail
  accountState : AccountState
  locale : LocaleCode
  deriving DecidableEq

def loadUser (env : Casing) (row : AccountRow) : Except AuthError User :=
  match UserEmail.parse env row.email with
  | none => .error .internal
  | some email => .ok ⟨row.id, email, row.accountState, row.locale⟩

def findById (env : Casing) (s : AuthStore) (u : UserId) : Except AuthError (Option User) :=
  match s.users.find u with
  | none => .ok none
  | some row => some <$> loadUser env row

/-- Addresses are looked up in lower case. -/
def findByEmail (env : Casing) (s : AuthStore) (email : UserEmail) :
    Except AuthError (Option User) :=
  match s.users.rows.find? fun u => decide (env.lower u.email = env.lower email.text) with
  | none => .ok none
  | some row => some <$> loadUser env row

theorem findById_ok {env : Casing} {s : AuthStore} {u : UserId} {user : User}
    (h : findById env s u = .ok (some user)) :
    ∃ row, s.users.find u = some row ∧ UserEmail.parse env row.email = some user.email ∧
      user.id = u ∧ user.accountState = row.accountState ∧ user.locale = row.locale := by
  unfold findById at h
  split at h
  · cases h
  · rename_i row found
    simp only [map_ok, Option.some.injEq, exists_eq_right] at h
    unfold loadUser at h
    split at h
    · cases h
    · rename_i email parsed
      cases h
      exact ⟨row, found, parsed, (Table.find_eq_some.mp found).2, rfl, rfl⟩

def canLogIn : AccountState → Bool
  | .pendingEmailVerification | .active => true
  | .suspended | .deleted => false

/-- `revoke_sessions`. -/
def revokeSessions (s : AuthStore) (u : UserId) (now : Instant) : AuthStore :=
  let sessions := s.sessions.update (fun r => decide (r.userId = u ∧ r.revokedAt = none))
    (fun r => { r with revokedAt := some now }) (SessionRow.revoked_key now)
  { s with sessions := sessions }

/-- `retire_verification_tokens`. -/
def retireVerificationTokens (s : AuthStore) (u : UserId) (now : Instant) : AuthStore :=
  let tokens := s.verificationTokens.update (fun t => decide (t.userId = u ∧ t.usedAt = none))
    (fun t => { t with usedAt := some now }) (VerificationTokenRow.used_key now)
  { s with verificationTokens := tokens }

/-- `UPDATE password_reset_tokens SET used_at = $2 WHERE user_id = $1 AND used_at IS NULL`. -/
def retireResetTokens (s : AuthStore) (u : UserId) (now : Instant) : AuthStore :=
  let tokens := s.resetTokens.update (fun t => decide (t.userId = u ∧ t.usedAt = none))
    (fun t => { t with usedAt := some now }) (ResetTokenRow.used_key now)
  { s with resetTokens := tokens }

/-- A row of the token tables that can still be redeemed. -/
def VerificationTokenRow.live (now : Instant) (t : VerificationTokenRow) : Prop :=
  t.usedAt = none ∧ now < t.expiresAt

def ResetTokenRow.live (now : Instant) (t : ResetTokenRow) : Prop :=
  t.usedAt = none ∧ now < t.expiresAt

instance (now : Instant) (t : VerificationTokenRow) : Decidable (t.live now) :=
  inferInstanceAs (Decidable (_ ∧ _))

instance (now : Instant) (t : ResetTokenRow) : Decidable (t.live now) :=
  inferInstanceAs (Decidable (_ ∧ _))

end Credentials
