import BikesNest.AccountAdmin
import BikesNest.Erasure
import BikesNest.LockModes

/-! The retention job that erases inactive accounts, beside logins, refreshes and purges of
sessions, and grants and revocations of roles. Each runs statement by statement under the locks
it takes; the modes matter, since a foreign key waits for an account that is locked for update
and the refresh of a session does not. What an erasure does to other tables is left out. -/

namespace InactiveAccounts

open Parking Schema Credentials Erasure LockModes AccountAdmin
open ReadCommitted (Txn State initial)

inductive Mode where
  | keyShare | noKeyUpdate | forUpdate
  deriving DecidableEq

def Mode.clash : Mode → Mode → Bool
  | .keyShare, .forUpdate | .forUpdate, .keyShare => true
  | .keyShare, _ | _, .keyShare => false
  | _, _ => true

inductive Lock where
  | account (u : UserId) (mode : Mode)
  | role (u : UserId) (role : Role)
  | session (hash : Digest)
  deriving DecidableEq

def Lock.clash : Lock → Lock → Bool
  | .account u mode, .account v mode' => decide (u = v) && mode.clash mode'
  | .role u r, .role v q => decide (u = v ∧ r = q)
  | .session h, .session h' => decide (h = h')
  | _, _ => false

/-- A moment at which an account was seen: what a session or the account itself records. -/
structure Activity where
  account : UserId
  moment : Instant
  deriving DecidableEq

/-- An erasure by the job, with the store that it met when it committed and all the activity
that had been committed by then. -/
structure Removal where
  account : UserId
  cutoff : Instant
  before : AuthStore
  activity : List Activity

/-- The store, with a record of the activity written so far and of the erasures. -/
structure Board where
  auth : AuthStore
  activity : List Activity
  erased : List Removal

def Board.of (s : AuthStore) : Board where
  auth := s
  activity := s.sessions.rows.map (fun r => ⟨r.userId, r.lastSeenAt⟩) ++
    s.users.rows.map fun a => ⟨a.id, a.lastActiveAt⟩
  erased := []

/-- The account was not privileged, and nothing at or after the cutoff was known of it. -/
def Spared (e : Removal) : Prop :=
  e.before.roles.find (e.account, .admin) = none ∧
    ∀ m ∈ e.activity, m.account = e.account → m.moment < e.cutoff

instance (e : Removal) : Decidable (Spared e) :=
  inferInstanceAs (Decidable (_ ∧ ∀ m ∈ e.activity, _))

/-! The writes. Their conditions were met under locks that are still held, so on the store they
are laid over they are met again. -/

def insertSession (row : SessionRow) (b : Board) : Board :=
  match b.auth.sessions.insert row with
  | some sessions => { b with
      auth := { b.auth with sessions := sessions }
      activity := b.activity ++ [⟨row.userId, row.lastSeenAt⟩] }
  | none => b

def slideSession (raw : Digest) (now : Instant) (b : Board) : Board :=
  match (b.auth.sessions.find raw).filter (Sessions.slides raw now) with
  | some r => { b with
      auth := { b.auth with sessions := Sessions.slide b.auth.sessions raw now }
      activity := b.activity ++ [⟨r.userId, now⟩] }
  | none => b

/-- `UPDATE users SET last_active_at = … WHERE id = … AND last_active_at < …`. -/
def markActive (m : Activity) (b : Board) : Board :=
  match (b.auth.users.find m.account).filter fun a => decide (a.lastActiveAt < m.moment) with
  | some _ => { b with
      auth := setAccount b.auth m.account (fun a => { a with lastActiveAt := m.moment })
        fun _ => rfl
      activity := b.activity ++ [m] }
  | none => b

def dropSessions (hashes : List Digest) (b : Board) : Board :=
  { b with auth := { b.auth with
      sessions := b.auth.sessions.delete fun r => decide (r.tokenHash ∈ hashes) } }

def markAll (ms : List Activity) (b : Board) : Board := ms.foldl (fun b m => markActive m b) b

def insertRole (row : RoleRow) (b : Board) : Board :=
  { b with auth := { b.auth with roles := (b.auth.roles.insert row).getD b.auth.roles } }

def dropRoles (keys : List (UserId × Role)) (b : Board) : Board :=
  { b with auth := { b.auth with
      roles := b.auth.roles.delete fun r => decide ((r.userId, r.role) ∈ keys) } }

/-- The erasure is recorded with what it meets when it commits. -/
def record (u : UserId) (cutoff : Instant) (b : Board) : Board :=
  { b with erased := b.erased ++ [⟨u, cutoff, b.auth, b.activity⟩] }

def scrubAccount (u : UserId) (now : Instant) (b : Board) : Board :=
  { b with auth := setAccount b.auth u (fun a => { a with
      email := anonymizedEmail u, displayName := none, emailVerifiedAt := none
      suspendedAt := none, deletedAt := some now, accountState := .deleted
      publicContributionName := false
      publicContributionNameUpdatedAt := none }) (AccountRow.erased_key u now) }

/-- The cutoff of a run of the job, and what its clock says when it comes to an account. -/
structure Job where
  cutoff : Instant
  clock : UserId → Instant

inductive Phase where
  | login (row : SessionRow)
  | refresh (raw : Digest) (now : Instant)
  | touch (w : Activity)
  | written (w : Activity)
  | purge (now idleCutoff : Instant)
  | fold (latest : List Activity)
  | grant (u : UserId) (role : Role) (granter : UserId)
  | lockAdmins (u : UserId) (role : Role)
  | revoke (u : UserId) (role : Role)
  | hold (u : UserId) (mode : Mode)
  | done
  | scan (job : Job)
  | recheck (job : Job) (candidates : List UserId)
  | lockAccount (job : Job) (u : UserId) (rest : List UserId)
  | guard (job : Job) (u : UserId) (rest : List UserId)
  | scrub (job : Job) (u : UserId) (rest : List UserId)
  | forgetRoles (job : Job) (u : UserId) (rest : List UserId)
  | forgetSessions (job : Job) (u : UserId) (rest : List UserId)
  | erased (job : Job) (u : UserId) (rest : List UserId)

/-- `hold` stands for any other transaction that keeps an account locked for a while. -/
inductive Call where
  | login (row : SessionRow)
  | refresh (raw : Digest) (now : Instant)
  | purgeExpiredSessions (now idleCutoff : Instant)
  | grantRole (u : UserId) (role : Role) (granter : UserId)
  | revokeRoleGuarded (u : UserId) (role : Role)
  | hold (u : UserId) (mode : Mode)
  | anonymizeInactiveAccounts (job : Job)

def entry : Call → Phase
  | .login row => .login row
  | .refresh raw now => .refresh raw now
  | .purgeExpiredSessions now idleCutoff => .purge now idleCutoff
  | .grantRole u role granter => .grant u role granter
  | .revokeRoleGuarded u role => .lockAdmins u role
  | .hold u mode => .hold u mode
  | .anonymizeInactiveAccounts job => .scan job

abbrev Stmt := Statement Board Lock Phase

/-- The insert with which a login ends, up to its foreign key. -/
def loginStatement (row : SessionRow) (v : AuthStore) : Stmt :=
  ⟨[.session row.tokenHash, .account row.userId .keyShare],
    if (v.users.find row.userId).isSome ∧ v.sessions.find row.tokenHash = none then
      .proceed (.touch ⟨row.userId, row.lastSeenAt⟩) (insertSession row)
    else .abort none⟩

/-- The update in `resolve`. -/
def refreshStatement (raw : Digest) (now : Instant) (v : AuthStore) : Stmt :=
  match (v.sessions.find raw).filter (Sessions.slides raw now) with
  | some r => .proceed (.touch ⟨r.userId, now⟩) [.session raw] (slideSession raw now)
  | none => .commit none

/-- The trigger `sessions_touch_user_last_active`: it passes over a row that is locked. -/
def touchStatement (w : Activity) (v : AuthStore) (free : Lock → Bool) : Stmt :=
  if free (.account w.account .forUpdate) = true ∧
      (v.users.find w.account).any fun a => decide (a.lastActiveAt < w.moment) then
    .proceed (.written w) [.account w.account .forUpdate] (markActive w)
  else .proceed (.written w) [] fun b => b

/-- `SELECT user_id, max(last_seen_at) … GROUP BY user_id`. -/
def latest (rows : List SessionRow) : List Activity :=
  (rows.map SessionRow.userId).dedup.filterMap fun u =>
    ((rows.filter fun r => decide (r.userId = u)).map SessionRow.lastSeenAt).max?.map fun seen =>
      ⟨u, seen⟩

def purgeStatement (now idleCutoff : Instant) (v : AuthStore) : Stmt :=
  let rows := v.sessions.filter fun r =>
    decide (r.expiresAt < now ∨ r.lastSeenAt < idleCutoff)
  .proceed (.fold (latest rows)) (rows.map fun r => .session r.tokenHash)
    (dropSessions (rows.map SessionRow.tokenHash))

/-- The accounts that the purge moves forward. -/
def behind (v : AuthStore) (ms : List Activity) : List Activity :=
  ms.filter fun m => (v.users.find m.account).any fun a => decide (a.lastActiveAt < m.moment)

def foldStatement (ms : List Activity) (v : AuthStore) : Stmt :=
  .proceed .done ((behind v ms).map fun m => .account m.account .noKeyUpdate)
    (markAll (behind v ms))

/-- `INSERT INTO user_roles … ON CONFLICT DO NOTHING`, with its two foreign keys. -/
def grantStatement (u : UserId) (role : Role) (granter : UserId) (v : AuthStore) : Stmt :=
  if (v.roles.find (u, role)).isSome then ⟨[.role u role], .commit none⟩
  else
    ⟨[.role u role, .account u .keyShare, .account granter .keyShare],
      if (v.users.find u).isSome ∧ (v.users.find granter).isSome then
        .proceed .done (insertRole ⟨u, role, some granter⟩)
      else .abort none⟩

/-- `SELECT user_id FROM user_roles WHERE role = 'ADMIN' FOR UPDATE`. -/
def adminLocks (v : AuthStore) : List Lock := (admins v).map fun u => .role u .admin

def lockAdminsStatement (u : UserId) (role : Role) (v : AuthStore) : Stmt :=
  ⟨adminLocks v,
    if role = .admin ∧ (admins v).length ≤ 1 ∧ u ∈ admins v then .abort none
    else .proceed (.revoke u role) fun b => b⟩

def revokeStatement (u : UserId) (role : Role) (v : AuthStore) : Stmt :=
  if (v.roles.find (u, role)).isSome then
    .proceed .done [.role u role] (dropRoles [(u, role)])
  else .proceed .done [] fun b => b

/-- The candidates of `anonymize_inactive_accounts`. -/
def candidates (v : AuthStore) (cutoff : Instant) : List UserId :=
  (v.users.filter fun a => decide (a.accountState ≠ .deleted ∧
    v.roles.find (a.id, .admin) = none ∧ a.lastActiveAt < cutoff ∧
    ∀ r ∈ v.sessions.rows, r.userId = a.id → r.lastSeenAt < cutoff)).map AccountRow.id

/-- The row of an account as the recheck wants it. -/
def idle (v : AuthStore) (u : UserId) (cutoff : Instant) : Prop :=
  ∃ a ∈ v.users.find u, a.accountState ≠ .deleted ∧ a.lastActiveAt < cutoff

instance (v : AuthStore) (u : UserId) (cutoff : Instant) : Decidable (idle v u cutoff) :=
  inferInstanceAs (Decidable (∃ a ∈ v.users.find u, _))

/-- The recheck as its snapshot has it; the lock is still to come. -/
def recheckStatement (job : Job) (u : UserId) (rest : List UserId) (v : AuthStore) : Stmt :=
  if stillInactive v u job.cutoff then .proceed (.lockAccount job u rest) [] fun b => b
  else .abort [] (some (.recheck job rest))

/-- `FOR UPDATE OF u`: once the row is locked its own columns are read again, and nothing else. -/
def lockAccountStatement (job : Job) (u : UserId) (rest : List UserId) (v : AuthStore) : Stmt :=
  ⟨[.account u .forUpdate],
    if idle v u job.cutoff then .proceed (.guard job u rest) (record u job.cutoff)
    else .abort (some (.recheck job rest))⟩

/-- `last_admin_locked`; its error ends the job. -/
def guardStatement (job : Job) (u : UserId) (rest : List UserId) (v : AuthStore) : Stmt :=
  ⟨adminLocks v,
    if lastAdmin v u then .abort none else .proceed (.scrub job u rest) fun b => b⟩

def scrubStatement (env : Casing) (job : Job) (u : UserId) (rest : List UserId) (v : AuthStore) :
    Stmt :=
  if shellAddressFree env v u then
    .proceed (.forgetRoles job u rest) [.account u .forUpdate] (scrubAccount u (job.clock u))
  else .abort [] none

def forgetRolesStatement (job : Job) (u : UserId) (rest : List UserId) (v : AuthStore) : Stmt :=
  let keys := (v.roles.filter fun r => decide (r.userId = u)).map fun r => (r.userId, r.role)
  .proceed (.forgetSessions job u rest) (keys.map fun k => .role k.1 k.2) (dropRoles keys)

def forgetSessionsStatement (job : Job) (u : UserId) (rest : List UserId) (v : AuthStore) : Stmt :=
  let hashes := (v.sessions.filter fun r => decide (r.userId = u)).map SessionRow.tokenHash
  .proceed (.erased job u rest) (hashes.map .session) (dropSessions hashes)

def next (env : Casing) (phase : Phase) (b : Board) (free : Lock → Bool) : Stmt :=
  match phase with
  | .login row => loginStatement row b.auth
  | .refresh raw now => refreshStatement raw now b.auth
  | .touch w => touchStatement w b.auth free
  | .written _ => .commit none
  | .purge now idleCutoff => purgeStatement now idleCutoff b.auth
  | .fold ms => foldStatement ms b.auth
  | .grant u role granter => grantStatement u role granter b.auth
  | .lockAdmins u role => lockAdminsStatement u role b.auth
  | .revoke u role => revokeStatement u role b.auth
  | .hold u mode => .proceed .done [.account u mode] fun b => b
  | .done => .commit none
  | .scan job => .commit (some (.recheck job (candidates b.auth job.cutoff)))
  | .recheck _ [] => .commit none
  | .recheck job (u :: rest) => recheckStatement job u rest b.auth
  | .lockAccount job u rest => lockAccountStatement job u rest b.auth
  | .guard job u rest => guardStatement job u rest b.auth
  | .scrub job u rest => scrubStatement env job u rest b.auth
  | .forgetRoles job u rest => forgetRolesStatement job u rest b.auth
  | .forgetSessions job u rest => forgetSessionsStatement job u rest b.auth
  | .erased job _ rest => .commit (some (.recheck job rest))

def program (env : Casing) : Program Board Lock Phase Call where
  clash := Lock.clash
  entry := entry
  next := next env

abbrev Running := Txn Board Lock ℕ Phase
abbrev Retention := State Board Lock ℕ Phase
abbrev RetentionEvent := Event ℕ Call

/-- The account that a transaction has locked to erase it, and the cutoff. -/
def Phase.erasing : Phase → Option Activity
  | .guard job u _ | .scrub job u _ | .forgetRoles job u _ | .forgetSessions job u _
  | .erased job u _ => some ⟨u, job.cutoff⟩
  | _ => none

/-- What the recheck does not see: that the answer of its snapshot is stale when the row is locked,
that an administrator is not the last one, that a session is written behind the lock. -/
def Covered (s : Retention) (x : Running) : Phase → Prop
  | .lockAccount job u _ => idle (x.pending s.committed).auth u job.cutoff →
    stillInactive (x.pending s.committed).auth u job.cutoff
  | .guard _ u _ => ((x.pending s.committed).auth.roles.find (u, .admin)).isSome →
    lastAdmin (x.pending s.committed).auth u
  | .written w => ∀ y ∈ s.running.rows, ∀ e ∈ y.phase.erasing, e.account = w.account →
    w.moment < e.moment
  | _ => True

def Guarded (s : Retention) : RetentionEvent → Prop
  | .advance t => ∀ x ∈ s.running.find t, Covered s x x.phase
  | _ => True

instance (s : Retention) (x : Running) (p : Phase) : Decidable (Covered s x p) :=
  match p with
  | .lockAccount job u _ => inferInstanceAs (Decidable
      (idle (x.pending s.committed).auth u job.cutoff →
        stillInactive (x.pending s.committed).auth u job.cutoff))
  | .guard _ u _ => inferInstanceAs (Decidable
      (((x.pending s.committed).auth.roles.find (u, .admin)).isSome →
        lastAdmin (x.pending s.committed).auth u))
  | .written w => inferInstanceAs (Decidable
      (∀ y ∈ s.running.rows, ∀ e ∈ y.phase.erasing, e.account = w.account →
        w.moment < e.moment))
  | .login _ | .refresh _ _ | .touch _ | .purge _ _ | .fold _ | .grant _ _ _ | .lockAdmins _ _
  | .revoke _ _ | .hold _ _ | .done | .scan _ | .recheck _ _ | .scrub _ _ _
  | .forgetRoles _ _ _ | .forgetSessions _ _ _ | .erased _ _ _ => .isTrue trivial

instance (s : Retention) (e : RetentionEvent) : Decidable (Guarded s e) :=
  match e with
  | .advance t => inferInstanceAs (Decidable (∀ x ∈ s.running.find t, Covered s x x.phase))
  | .begin _ _ | .rollback _ => .isTrue trivial

end InactiveAccounts
