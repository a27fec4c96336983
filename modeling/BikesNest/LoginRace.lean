import BikesNest.CredentialOps
import BikesNest.Interleaving

/-! Logins beside the operations that replace a credential. A login reads the identity, verifies
the password, reads the account and inserts its session, and anything may commit in between;
the insert looks at none of it again. The record beside the store says with what each session
was authenticated. Rate limits and audit rows are left out: a login may be given up at any step. -/

namespace LoginRace

open Parking Schema Credentials Outcome AuthOutbox AccountAdmin CredentialOps Interleaving

/-- What a session was authenticated with: the hash that its password matched, the state of the
account it saw, and how often the account's address had changed before. -/
structure Opening where
  user : UserId
  hash : String
  state : AccountState
  moves : ℕ
  deriving DecidableEq

structure Ledger where
  store : AuthStore
  clock : Instant
  moves : UserId → ℕ
  openings : Digest → Option Opening

structure LoginCall where
  email : UserEmail
  password : String
  session : Digest
  csrf : Sessions.CsrfToken
  now : Instant

/-- The steps of `login` after its rate limits. -/
inductive Phase where
  | findIdentity (call : LoginCall)
  | verify (call : LoginCall) (user : UserId) (hash : String) (moves : ℕ)
  | findUser (call : LoginCall) (user : UserId) (hash : String) (moves : ℕ)
  | create (call : LoginCall) (opening : Opening)

abbrev Reply := Except AuthError Digest

/-- Some microseconds pass before each step and each operation. -/
def Ledger.elapse (l : Ledger) (gap : ℕ) : Ledger := { l with clock := l.clock + gap }

def step (env : Casing) (verify : String → String → Bool) (phase : Phase) (gap : ℕ) (l : Ledger) :
    Ledger × Progress Phase Reply :=
  let l := l.elapse gap
  match phase with
  | .findIdentity call =>
    match findIdentity l.store .password call.email.text with
    | none => (l, .done (.error .invalidCredentials))
    | some identity =>
      match identity.credentialHash with
      | none => (l, .done (.error .invalidCredentials))
      | some hash => (l, .next (.verify call identity.userId hash (l.moves identity.userId)))
  | .verify call user hash moves =>
    if verify call.password hash then (l, .next (.findUser call user hash moves))
    else (l, .done (.error .invalidCredentials))
  | .findUser call user hash moves =>
    match findById env l.store user with
    | .error e => (l, .done (.error e))
    | .ok none => (l, .done (.error .invalidCredentials))
    | .ok (some account) =>
      if canLogIn account.accountState then
        (l, .next (.create call ⟨user, hash, account.accountState, moves⟩))
      else (l, .done (.error .invalidCredentials))
  | .create call opening =>
    match openSession l.store opening.user call.session call.csrf call.now l.clock with
    | .error (.fail e) => (l, .done (.error e))
    | .error .neutral => (l, .done (.error .internal))
    | .ok store =>
      ({ l with
        store := store
        openings := Function.update l.openings call.session (some opening) },
        .done (.ok call.session))

/-- An address that `confirm_email` reports as changed. -/
def recordMove (env : Casing) (l : Ledger) : CredentialOp → UserId → ℕ
  | .confirmEmail token now notice proven =>
    match confirmEmail env l.store token now l.clock notice proven with
    | .ok (outcome, _) =>
      if outcome.emailChanged then Function.update l.moves outcome.userId (l.moves outcome.userId + 1)
      else l.moves
    | .error _ => l.moves
  | _ => l.moves

/-- The session that `change_password` keeps is from then on the session of the new password. -/
def renewKept (l : Ledger) : CredentialOp → Digest → Option Opening
  | .changePassword u expectedHash hash currentSession now notice =>
    match changePassword l.store u expectedHash hash currentSession now l.clock notice with
    | .ok _ => Function.update l.openings currentSession
        ((l.openings currentSession).map fun o => { o with hash := hash })
    | .error _ => l.openings
  | _ => l.openings

def perform (env : Casing) (op : ℕ × CredentialOp) (l : Ledger) : Ledger :=
  let l := l.elapse op.1
  ⟨apply env l.clock l.store op.2, l.clock, recordMove env l op.2, renewKept l op.2⟩

def program (env : Casing) (verify : String → String → Bool) :
    Program Ledger Phase Reply ℕ LoginCall (ℕ × CredentialOp) where
  entry call := .next (.findIdentity call)
  step := step env verify
  apply := perform env

abbrev LoginState := State Ledger ℕ Phase
abbrev LoginEvent := Event ℕ ℕ LoginCall (ℕ × CredentialOp)

/-- Some password login of the account has this hash. -/
def HasPassword (s : AuthStore) (u : UserId) (hash : String) : Prop :=
  ∃ i ∈ s.identities, i.isPasswordOf u = true ∧ i.credentialHash = some hash

/-- The account still has the password and the address. -/
def Held (l : Ledger) (u : UserId) (hash : String) (moves : ℕ) : Prop :=
  HasPassword l.store u hash ∧ l.moves u = moves

/-- The account still has all that the session was authenticated with. -/
def Current (l : Ledger) (o : Opening) : Prop :=
  Held l o.user o.hash o.moves ∧ (l.store.users.find o.user).map (·.accountState) = some o.state

/-- No session outlives the credential it was opened with. -/
def Sound (l : Ledger) : Prop :=
  ∀ r ∈ l.store.sessions.rows, r.revokedAt = none →
    ∃ o ∈ l.openings r.tokenHash, o.user = r.userId ∧ Current l o

/-- What a login has read and its insert relies on. -/
def Relies : Phase → Ledger → Prop
  | .findIdentity _, _ => True
  | .verify _ user hash moves, l => Held l user hash moves
  | .findUser _ user hash moves, l => Held l user hash moves
  | .create _ opening, l => Current l opening

/-- The event changes nothing that a login has read and not yet acted on. -/
def Undisturbed (env : Casing) (verify : String → String → Bool) (s : LoginState)
    (e : LoginEvent) : Prop :=
  ∀ x ∈ s.running.rows, Relies x.phase s.store →
    Relies x.phase (fire (program env verify) s e).store

instance (s : AuthStore) (u : UserId) (hash : String) : Decidable (HasPassword s u hash) :=
  inferInstanceAs (Decidable (∃ i ∈ s.identities, _))

instance (l : Ledger) (u : UserId) (hash : String) (moves : ℕ) : Decidable (Held l u hash moves) :=
  inferInstanceAs (Decidable (_ ∧ _))

instance (l : Ledger) (o : Opening) : Decidable (Current l o) :=
  inferInstanceAs (Decidable (_ ∧ _))

instance (l : Ledger) : Decidable (Sound l) :=
  inferInstanceAs (Decidable (∀ r ∈ l.store.sessions.rows, r.revokedAt = none →
    ∃ o ∈ l.openings r.tokenHash, o.user = r.userId ∧ Current l o))

instance : ∀ (phase : Phase) (l : Ledger), Decidable (Relies phase l)
  | .findIdentity _, _ => .isTrue trivial
  | .verify _ user hash moves, l => inferInstanceAs (Decidable (Held l user hash moves))
  | .findUser _ user hash moves, l => inferInstanceAs (Decidable (Held l user hash moves))
  | .create _ opening, l => inferInstanceAs (Decidable (Current l opening))

instance (env : Casing) (verify : String → String → Bool) (s : LoginState) (e : LoginEvent) :
    Decidable (Undisturbed env verify s e) :=
  inferInstanceAs (Decidable (∀ x ∈ s.running.rows, Relies x.phase s.store →
    Relies x.phase (fire (program env verify) s e).store))

/-! What the operations do to passwords and sessions. -/

section Statements

variable {s s' : AuthStore} {u v : UserId} {hash : String} {now : Instant}

theorem hasPassword_setPassword {f : IdentityRow → IdentityRow}
    (h : s'.identities = (setPassword s u f).identities)
    (same : ∀ i, (f i).userId = i.userId ∧ (f i).provider = i.provider)
    (kept : v = u → ∀ i, (f i).credentialHash = i.credentialHash)
    (has : HasPassword s v hash) : HasPassword s' v hash := by
  obtain ⟨i, hi, own, stored⟩ := has
  refine ⟨if i.isPasswordOf u then f i else i, ?_, ?_⟩
  · rw [h]
    exact List.mem_map.mpr ⟨i, hi, rfl⟩
  · split
    · rename_i target
      have account : v = u := by
        simp only [IdentityRow.isPasswordOf, decide_eq_true_eq] at own target
        exact own.1.symm.trans target.1
      refine ⟨?_, (kept account i).trans stored⟩
      simpa [IdentityRow.isPasswordOf, (same i).1, (same i).2] using own
    · exact ⟨own, stored⟩

/-- The hash that `change_password` writes is there afterwards. -/
theorem hasPassword_swapHash {expected : String} (h : passwordHash s u = some (some expected))
    (eq : s'.identities = (swapHash s u expected hash).identities) : HasPassword s' u hash := by
  obtain ⟨i, found, stored⟩ := Option.map_eq_some_iff.mp h
  have own := List.find?_some found
  refine ⟨{ i with credentialHash := some hash }, ?_, own, rfl⟩
  rw [eq]
  refine List.mem_map.mpr ⟨i, List.mem_of_find?_eq_some found, ?_⟩
  simp only [own, if_true, stored]

theorem mem_revokeOtherSessions {r : SessionRow} {keep : Digest}
    (h : r ∈ (revokeOtherSessions s u keep now).sessions.rows) (free : r.revokedAt = none) :
    r ∈ s.sessions.rows ∧ (r.userId ≠ u ∨ r.tokenHash = keep) := by
  simp only [revokeOtherSessions, ← Table.mem_rows, Table.mem_update] at h
  obtain ⟨q, hq, eq⟩ := h
  by_cases hit : q.userId = u ∧ q.tokenHash ≠ keep ∧ q.revokedAt = none
  · rw [if_pos (by simpa using hit)] at eq
    rw [← eq] at free
    cases free
  · rw [if_neg (by simpa using hit)] at eq
    subst eq
    refine ⟨hq, ?_⟩
    by_contra both
    obtain ⟨own, unlike⟩ := not_or.mp both
    exact hit ⟨not_not.mp own, unlike, free⟩

end Statements

section Ledgers

variable {env : Casing} {verify : String → String → Bool} {l l' : Ledger} {u : UserId}

/-- All accounts but `u` have the passwords, the address and the state they had. -/
structure Apart (l l' : Ledger) (u : UserId) : Prop where
  passwords : ∀ v hash, v ≠ u → HasPassword l.store v hash → HasPassword l'.store v hash
  accounts : ∀ v, v ≠ u → l'.store.users.find v = l.store.users.find v
  moves : ∀ v, v ≠ u → l'.moves v = l.moves v

theorem Apart.current {o : Opening} (h : Apart l l' u) (other : o.user ≠ u)
    (current : Current l o) : Current l' o := by
  refine ⟨⟨h.passwords o.user o.hash other current.1.1, ?_⟩, ?_⟩
  · rw [h.moves o.user other]
    exact current.1.2
  · rw [h.accounts o.user other]
    exact current.2

/-- An operation that revokes the sessions of the one account it touches. -/
theorem sound_revoked (sound : Sound l) (apart : Apart l l' u)
    (sessions : ∀ r ∈ l'.store.sessions.rows, r.revokedAt = none →
      r ∈ l.store.sessions.rows ∧ r.userId ≠ u)
    (openings : l'.openings = l.openings) : Sound l' := by
  intro r hr free
  obtain ⟨before, other⟩ := sessions r hr free
  obtain ⟨o, opened, owner, current⟩ := sound r before free
  refine ⟨o, openings ▸ opened, owner, apart.current ?_ current⟩
  rw [owner]
  exact other

/-- An operation that leaves the sessions and their accounts alone. -/
theorem sound_kept (sound : Sound l) (sessions : l'.store.sessions = l.store.sessions)
    (openings : l'.openings = l.openings) (current : ∀ o, Current l o → Current l' o) :
    Sound l' := by
  intro r hr free
  rw [sessions] at hr
  obtain ⟨o, opened, owner, was⟩ := sound r hr free
  exact ⟨o, openings ▸ opened, owner, current o was⟩

theorem sound_elapse (sound : Sound l) (gap : ℕ) : Sound (l.elapse gap) := sound

theorem current_of_same (store : l'.store = l.store) (moves : l'.moves = l.moves) {o : Opening}
    (current : Current l o) : Current l' o := by
  simp only [Current, Held, store, moves] at current ⊢
  exact current

/-- An operation that stops before its commit. -/
theorem sound_halted (sound : Sound l) (store : l'.store = l.store) (moves : l'.moves = l.moves)
    (openings : l'.openings = l.openings) : Sound l' :=
  sound_kept sound (by rw [store]) openings fun _ current => current_of_same store moves current

theorem register_sound (sound : Sound l) (fresh : UserId) (new : NewAccount) (token : Digest)
    (now : Instant) (message : EmailMessage) (terms : Option TermsAcceptance)
    (store : l'.store = commit l.store (register env l.store fresh new token now l.clock message
      terms)) (moves : l'.moves = l.moves) (openings : l'.openings = l.openings) : Sound l' := by
  cases h : register env l.store fresh new token now l.clock message terms with
  | error e => exact sound_halted sound (by rw [store, h]; rfl) moves openings
  | ok p =>
    obtain ⟨m, s'⟩ := p
    have store : l'.store = s' := by rw [store, h]; rfl
    rw [register] at h
    split at h
    · obtain ⟨user, tokens, -, -, -, -, -, eq⟩ := registerAgain_ok h
      have elsewhere : Elsewhere l.store s' user.id :=
        elsewhere_registerAgain new.passwordHash new.displayName (by rw [eq]) (by rw [eq])
      refine sound_revoked (u := user.id) sound ⟨?_, ?_, fun v _ => by rw [moves]⟩ ?_ openings
      · intro v hash other has
        rw [store]
        refine hasPassword_setPassword (f := fun i =>
          { i with credentialHash := some new.passwordHash }) (by rw [eq]; rfl)
          (fun _ => ⟨rfl, rfl⟩) (fun same => absurd same other) has
      · rw [store]
        exact elsewhere.accounts
      · intro r hr free
        rw [store, eq] at hr
        exact mem_revokeSessions hr free
    · obtain ⟨users, roles, tokens, _, added, -, -, -, -, -, eq⟩ := registerNew_ok h
      have vacant : l.store.users.find fresh = none := (Table.insert_eq_some.mp added).1
      have apart : Apart l l' fresh := by
        refine ⟨?_, ?_, fun v _ => by rw [moves]⟩
        · intro v hash _ has
          obtain ⟨i, hi, own, stored⟩ := has
          rw [store, eq]
          exact ⟨i, List.mem_append_left _ hi, own, stored⟩
        · intro v other
          rw [store, eq, Table.find_insert added, if_neg]
          exact fun same => other same.symm
      refine sound_kept sound (by rw [store, eq]) openings ?_
      intro o current
      refine apart.current ?_ current
      intro same
      have there := current.2
      rw [same, vacant] at there
      cases there

/-- A confirmation ends the sessions of its account, unless it confirms an address that the
active account has already. -/
theorem confirmEmail_sound (sound : Sound l) (token : Digest) (now : Instant)
    (notice : EmailMessage) (proven : Option String)
    (store : l'.store = commit l.store (confirmEmail env l.store token now l.clock notice proven))
    (moves : l'.moves = recordMove env l (.confirmEmail token now notice proven))
    (openings : l'.openings = l.openings) : Sound l' := by
  cases h : confirmEmail env l.store token now l.clock notice proven with
  | error e =>
    refine sound_halted sound (by rw [store, h]; rfl) ?_ openings
    rw [moves, recordMove, h]
  | ok p =>
    obtain ⟨r, s'⟩ := p
    have store : l'.store = s' := by rw [store, h]; rfl
    obtain ⟨row, user, email, found, -, account, able, ready, -, -, eq⟩ := confirmEmail_ok h
    obtain ⟨target, changed⟩ := confirmEmail_outcome h found account
    have passwords : ∀ v hash, HasPassword l.store v hash → HasPassword l'.store v hash := by
      intro v hash has
      rw [store]
      exact hasPassword_setPassword (f := fun i => { i with providerSubject := email.text })
        (by rw [eq]; rfl) (fun _ => ⟨rfl, rfl⟩) (fun _ _ => rfl) has
    have elsewhere : Elsewhere l.store s' user.id :=
      elsewhere_confirmed email.text (by rw [eq]) (by rw [eq])
    rw [recordMove, h] at moves
    simp only [target, changed] at moves
    by_cases ends : eqIgnoreAsciiCase user.email row.email = false ∨
        user.accountState = .pendingEmailVerification
    · refine sound_revoked (u := user.id) sound ⟨fun v hash _ => passwords v hash, ?_, ?_⟩ ?_
        openings
      · rw [store]
        exact elsewhere.accounts
      · intro v other
        rw [moves]
        split
        · exact Function.update_of_ne other _ _
        · rfl
      · intro q hq free
        rw [store, eq] at hq
        simp only [if_pos ends] at hq
        exact mem_revokeSessions hq free
    · obtain ⟨same, verified⟩ := not_or.mp ends
      have still : l'.moves = l.moves := by
        rw [moves, if_neg (by simpa using same)]
      refine sound_kept sound (by rw [store, eq]; exact if_neg ends) openings ?_
      intro o current
      refine ⟨⟨passwords o.user o.hash current.1.1, by rw [still]; exact current.1.2⟩, ?_⟩
      rw [store]
      by_cases own : o.user = user.id
      · have active : user.accountState = .active := by
          cases state : user.accountState with
          | active => rfl
          | pendingEmailVerification => exact absurd state verified
          | suspended => rw [state] at able; cases able
          | deleted => rw [state] at able; cases able
        have before : l.store.users.find user.id = some user := by
          rw [(Table.find_eq_some.mp account).2]
          exact account
        have after : s'.users.find user.id = some { user with
            email := email.text, emailVerifiedAt := some now, accountState := .active } := by
          rw [eq]
          refine (find_setAccount_self l.store user.id (by intro; rfl)).trans ?_
          rw [before]
          rfl
        have was := current.2
        rw [own, before] at was
        rw [own, after]
        simpa [active] using was
      · rw [elsewhere.accounts o.user own]
        exact current.2

theorem completePasswordReset_sound (sound : Sound l) (token : Digest) (hash : String)
    (now : Instant) (notice : EmailMessage)
    (store : l'.store = commit l.store (completePasswordReset l.store token hash now l.clock notice))
    (moves : l'.moves = l.moves) (openings : l'.openings = l.openings) : Sound l' := by
  cases h : completePasswordReset l.store token hash now l.clock notice with
  | error e => exact sound_halted sound (by rw [store, h]; rfl) moves openings
  | ok p =>
    obtain ⟨m, s'⟩ := p
    have store : l'.store = s' := by rw [store, h]; rfl
    obtain ⟨row, user, -, -, -, -, -, eq⟩ := completePasswordReset_ok h
    refine sound_revoked (u := user.id) sound ⟨?_, fun v _ => by rw [store, eq],
      fun v _ => by rw [moves]⟩ ?_ openings
    · intro v other' other has
      rw [store]
      exact hasPassword_setPassword (f := fun i => { i with credentialHash := some hash })
        (by rw [eq]; rfl) (fun _ => ⟨rfl, rfl⟩) (fun same => absurd same other) has
    · intro r hr free
      rw [store, eq] at hr
      exact mem_revokeSessions hr free

/-- A change of password ends all sessions but one, which is renewed. -/
theorem changePassword_sound (sound : Sound l) (u : UserId) (expected hash : String)
    (session : Digest) (now : Instant) (notice : EmailMessage)
    (store : l'.store = commit l.store (changePassword l.store u expected hash session now l.clock
      notice)) (moves : l'.moves = l.moves)
    (openings : l'.openings = renewKept l (.changePassword u expected hash session now notice)) :
    Sound l' := by
  cases h : changePassword l.store u expected hash session now l.clock notice with
  | error e =>
    refine sound_halted sound (by rw [store, h]; rfl) moves ?_
    rw [openings, renewKept, h]
  | ok p =>
    obtain ⟨m, s'⟩ := p
    have store : l'.store = s' := by rw [store, h]; rfl
    obtain ⟨user, -, -, stored, stands, eq⟩ := changePassword_ok h
    obtain ⟨kept, standing, keeper, -⟩ := stands
    have apart : Apart l l' u := by
      refine ⟨?_, fun v _ => by rw [store, eq], fun v _ => by rw [moves]⟩
      intro v other' other has
      rw [store]
      refine hasPassword_setPassword (f := fun i => if i.credentialHash = some expected then
        { i with credentialHash := some hash } else i) (by rw [eq]; rfl) ?_
        (fun same => absurd same other) has
      intro i
      split <;> exact ⟨rfl, rfl⟩
    have openings : l'.openings = Function.update l.openings session
        ((l.openings session).map fun o => { o with hash := hash }) := by
      rw [openings, renewKept, h]
    intro r hr free
    rw [store, eq] at hr
    obtain ⟨before, which⟩ := mem_revokeOtherSessions hr free
    obtain ⟨o, opened, owner, current⟩ := sound r before free
    by_cases keep : r.tokenHash = session
    · obtain rfl : r = kept :=
        Table.eq_of_key_eq before (Table.find_eq_some.mp standing).1
          (keep.trans (Table.find_eq_some.mp standing).2.symm)
      refine ⟨{ o with hash := hash }, ?_, owner, ⟨⟨?_, ?_⟩, ?_⟩⟩
      · rw [openings, keep, Function.update_self, ← keep, Option.mem_def.mp opened]
        rfl
      · rw [owner, keeper, store]
        exact hasPassword_swapHash stored (by rw [eq])
      · rw [moves]
        exact current.1.2
      · rw [store, eq]
        exact current.2
    · have other : r.userId ≠ u := which.resolve_right keep
      refine ⟨o, ?_, owner, apart.current (by rw [owner]; exact other) current⟩
      rw [openings, Function.update_of_ne keep]
      exact opened

theorem suspendByAdmin_sound (sound : Sound l) (u : UserId)
    (store : l'.store = (suspendByAdmin l.store u l.clock).toOption.getD l.store)
    (moves : l'.moves = l.moves) (openings : l'.openings = l.openings) : Sound l' := by
  cases h : suspendByAdmin l.store u l.clock with
  | error e => exact sound_halted sound (by rw [store, h]; rfl) moves openings
  | ok s' =>
    have store : l'.store = s' := by rw [store, h]; rfl
    obtain ⟨user, -, -, -, eq⟩ := suspendByAdmin_ok h
    have elsewhere : Elsewhere l.store s' u := elsewhere_suspended l.clock (by rw [eq]) (by rw [eq])
    refine sound_revoked (u := u) sound ⟨?_, ?_, fun v _ => by rw [moves]⟩ ?_ openings
    · intro v hash _ has
      rw [store, eq]
      exact has
    · rw [store]
      exact elsewhere.accounts
    · intro r hr free
      rw [store, eq] at hr
      exact mem_revokeSessions hr free

/-- No operation leaves a session behind that it should have ended. -/
theorem perform_sound (sound : Sound l) (op : ℕ × CredentialOp) : Sound (perform env op l) := by
  obtain ⟨gap, op⟩ := op
  have sound : Sound (l.elapse gap) := sound_elapse sound gap
  cases op with
  | register fresh new token now message terms =>
    exact register_sound sound fresh new token now message terms rfl rfl rfl
  | issueVerification u email token now expected message =>
    refine commit_rec (P := fun s => Sound ⟨s, (l.elapse gap).clock, l.moves, l.openings⟩) sound ?_
    intro m s' h
    obtain ⟨user, tokens, -, -, -, -, rfl⟩ := issueVerification_ok h
    exact sound
  | issueReset u token now message =>
    refine commit_rec (P := fun s => Sound ⟨s, (l.elapse gap).clock, l.moves, l.openings⟩) sound ?_
    intro m s' h
    obtain ⟨user, tokens, -, -, -, rfl⟩ := issueReset_ok h
    exact sound
  | confirmEmail token now notice proven =>
    exact confirmEmail_sound sound token now notice proven rfl rfl rfl
  | completePasswordReset token hash now notice =>
    exact completePasswordReset_sound sound token hash now notice rfl rfl rfl
  | changePassword u expected hash session now notice =>
    exact changePassword_sound sound u expected hash session now notice rfl rfl rfl
  | suspendByAdmin u => exact suspendByAdmin_sound sound u rfl rfl rfl

/-- What a step of a login leaves to the next is true when it is read. -/
theorem step_relies {phase next : Phase} {gap : ℕ} (relies : Relies phase l)
    (h : step env verify phase gap l = (l', .next next)) : Relies next l' := by
  cases phase with
  | findIdentity call =>
    simp only [step] at h
    split at h
    · cases h
    · rename_i identity found
      split at h
      · cases h
      · rename_i hash stored
        cases h
        have here := List.find?_some found
        simp only [decide_eq_true_eq] at here
        refine ⟨⟨identity, List.mem_of_find?_eq_some found, ?_, stored⟩, rfl⟩
        simp [IdentityRow.isPasswordOf, here.1]
  | verify call user hash moves =>
    simp only [step] at h
    split at h
    · cases h
      exact relies
    · cases h
  | findUser call user hash moves =>
    simp only [step] at h
    split at h
    · cases h
    · cases h
    · rename_i account loaded
      obtain ⟨row, found, -, -, state, -⟩ := findById_ok loaded
      split at h
      · cases h
        refine ⟨relies, ?_⟩
        rw [found, state]
        rfl
      · cases h
  | create call opening =>
    simp only [step] at h
    split at h <;> cases h

/-- The insert at the end of a login records a session that is current. -/
theorem step_sound {phase : Phase} (sound : Sound l) (relies : Relies phase l) (gap : ℕ) :
    Sound (step env verify phase gap l).1 := by
  have sound : Sound (l.elapse gap) := sound_elapse sound gap
  cases phase with
  | findIdentity call =>
    simp only [step]
    split
    · exact sound
    · split <;> exact sound
  | verify call user hash moves =>
    simp only [step]
    split <;> exact sound
  | findUser call user hash moves =>
    simp only [step]
    split
    · exact sound
    · exact sound
    · split <;> exact sound
  | create call opening =>
    simp only [step]
    split
    · exact sound
    · exact sound
    · rename_i store created
      obtain ⟨sessions, inserted, -, rfl⟩ := openSession_ok created
      intro r hr free
      rcases (Table.mem_insert inserted).mp hr with before | rfl
      · obtain ⟨o, opened, owner, current⟩ := sound r before free
        refine ⟨o, ?_, owner, current⟩
        have other : r.tokenHash ≠ call.session := by
          intro same
          have taken := Table.find_of_mem before
          rw [same, (Table.insert_eq_some.mp inserted).1] at taken
          cases taken
        simp only [Function.update_of_ne other]
        exact opened
      · refine ⟨opening, ?_, rfl, relies⟩
        simp

end Ledgers

/-! Runs. -/

theorem fire_sound {env : Casing} {verify : String → String → Bool} {s : LoginState}
    (relies : Asserts Relies s) (sound : Sound s.store) (e : LoginEvent) :
    Sound (fire (program env verify) s e).store := by
  refine fire_preserves_store sound relies e ?_ ?_
  · intro phase gap relies
    exact step_sound sound relies gap
  · intro op
    exact perform_sound sound op

/-- Over every run of logins and credential operations in which nothing commits a change to what
a login has read before it inserts its session, every session still has the credential that it
was opened with, in every state of the run. -/
theorem sessions_end_with_their_credential (env : Casing) (verify : String → String → Bool)
    (l : Ledger) (sound : Sound l) (events : List LoginEvent)
    (undisturbed : Along (program env verify) (Undisturbed env verify) (initial l) events) :
    Along (program env verify) (fun s e => Sound (fire (program env verify) s e).store)
      (initial l) events := by
  refine along_of_invariant (I := fun s => Asserts Relies s ∧ Sound s.store) ?_ ?_
    ⟨initial_asserts Relies l, sound⟩ undisturbed
  · rintro s e ⟨relies, sound⟩ undisturbed
    refine ⟨fire_preserves_asserts relies e ?_ ?_ ?_, fire_sound relies sound e⟩
    · intro call phase started
      cases started
      trivial
    · intro phase gap l' next relies stepped
      exact step_relies relies stepped
    · intro x hx relies
      exact undisturbed x hx relies
  · rintro s e ⟨relies, sound⟩ _
    exact fire_sound relies sound e

/-- A hash that shows its password. -/
def sameText (password hash : String) : Bool := decide (password = hash)

/-- Ada's account, before any session. -/
def sampleLedger : Ledger :=
  ⟨activation.foldl (apply asciiCasing 0) empty, 0, fun _ => 0, fun _ => none⟩

def sampleLogin : LoginCall := ⟨sampleEmail, "first hash", 7, 5#256, 0⟩

/-- Ada asks for a reset link and sets another password with it. -/
def passwordReset : List LoginEvent :=
  [.other (1, .issueReset 1 21 0 ⟨"ada@bikes.org", 1, .en, .resetPassword none⟩),
    .other (1, .completePasswordReset 21 "second hash" 0
      ⟨"ada@bikes.org", 1, .en, .passwordChanged⟩)]

/-- A login, then the reset. -/
def loginFirst : List LoginEvent :=
  [.begin 0 sampleLogin, .advance 0 1, .advance 0 1, .advance 0 1, .advance 0 1] ++ passwordReset

theorem loginFirst_sound :
    Sound sampleLedger ∧ Along (program asciiCasing sameText)
      (fun s e => Sound (fire (program asciiCasing sameText) s e).store) (initial sampleLedger)
      loginFirst :=
  ⟨by decide +kernel, sessions_end_with_their_credential asciiCasing sameText sampleLedger
    (by decide +kernel) loginFirst (by decide +kernel)⟩

/-- The reset commits while a login has verified the old password and not yet inserted its
session. -/
def resetAmidLogin : List LoginEvent :=
  [.begin 0 sampleLogin, .advance 0 1, .advance 0 1] ++ passwordReset ++
    [.advance 0 1, .advance 0 1]

theorem resetAmidLogin_unsound :
    Sound sampleLedger ∧
      let after := (Interleaving.run (program asciiCasing sameText) (initial sampleLedger)
        resetAmidLogin).store
      passwordHash after.store 1 = some (some "second hash") ∧
        (after.store.sessions.find 7).map (fun r => (r.userId, r.revokedAt)) = some (1, none) ∧
        (after.openings 7).map (·.hash) = some "first hash" ∧ ¬ Sound after := by
  decide +kernel

end LoginRace
