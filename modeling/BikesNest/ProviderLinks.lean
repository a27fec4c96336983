import BikesNest.LoginRace

/-! The provider's callback beside the password flow. A callback finds the account of an identity,
or the account of its verified address, and then opens a session; anything may commit between two
of its steps. The record beside the store counts the passwords that an account has had, through
which addresses each was proved, and what identities were linked. Rate limits and audit rows are
left out: a call may be given up at any step. -/

namespace ProviderLinks

open Parking Schema Credentials Outcome AuthOutbox AccountAdmin CredentialOps Interleaving
open LoginRace (LoginCall Opening HasPassword)

/-- What the provider asserts of who signs in. -/
structure ProviderIdentity where
  provider : Provider
  subject : String
  email : UserEmail
  emailVerified : Bool
  deriving DecidableEq

/-- Which password of the account, and which mailbox, a linked identity met. -/
structure Link where
  user : UserId
  edition : ℕ
  mailbox : String
  deriving DecidableEq

/-- `editions` counts the passwords of an account. A reset token is `mailed` to a mailbox, and
`proofs` holds the mailboxes that a password was proved through. -/
structure Record where
  store : AuthStore
  clock : Instant
  editions : UserId → ℕ
  proofs : UserId → ℕ → List String
  mailed : Digest → String
  openings : Digest → Option Opening
  links : List Link

def Record.elapse (r : Record) (gap : ℕ) : Record := { r with clock := r.clock + gap }

/-- What a login sees; the changes that it counts are here those of the password. -/
def Record.ledger (r : Record) : LoginRace.Ledger := ⟨r.store, r.clock, r.editions, r.openings⟩

/-- A callback whose code was exchanged; `fresh` is the id that the sequence of the table gives. -/
structure CallbackCall where
  identity : ProviderIdentity
  fresh : UserId
  session : Digest
  csrf : Sessions.CsrfToken
  now : Instant

inductive CallbackPhase where
  | findIdentity (call : CallbackCall)
  | findUser (call : CallbackCall) (u : UserId)
  | findByEmail (call : CallbackCall)
  | link (call : CallbackCall) (existing : User)
  | create (call : CallbackCall)
  | linkNew (call : CallbackCall)
  | markVerified (call : CallbackCall)
  | signIn (call : CallbackCall) (user : User)

inductive Call where
  | login (call : LoginCall)
  | callback (call : CallbackCall)

inductive Phase where
  | login (phase : LoginRace.Phase)
  | callback (phase : CallbackPhase)

inductive CallError where
  | auth (e : AuthError)
  | providerFailed
  deriving DecidableEq

abbrev Reply := Except CallError Digest

/-- `link_identity`: an identity that is there already is left alone, and its foreign key unread. -/
def linkIdentity (s : AuthStore) (u : UserId) (provider : Provider) (subject : String)
    (hash : Option String) : Except AuthError AuthStore :=
  if subjectTaken s.identities provider subject then .ok s
  else do
    ensure ((s.users.find u).isSome) .internal
    pure { s with identities := s.identities ++ [⟨u, provider, subject, hash⟩] }

/-- `create`, with the id that the sequence of the table gives. -/
def create (env : Casing) (s : AuthStore) (fresh : UserId) (new : NewAccount) (clock : Instant) :
    Except AuthError AuthStore := do
  ensure (addressTaken env s new.email.text = false) .conflict
  let users ← orFail (s.users.insert ⟨fresh, new.email.text, new.displayName, new.state, none,
    none, none, new.locale, true, none, clock⟩) .conflict
  ensure (new.passwordHash ≠ "" → subjectTaken s.identities .password new.email.text = false)
    .conflict
  let identities := if new.passwordHash = "" then s.identities
    else s.identities ++ [⟨fresh, .password, new.email.text, some new.passwordHash⟩]
  let roles ← orFail (s.roles.insert ⟨fresh, .user, none⟩) .conflict
  pure { s with users := users, identities := identities, roles := roles }

def markEmailVerified (s : AuthStore) (u : UserId) (now : Instant) : AuthStore :=
  setAccount s u (fun a => { a with emailVerifiedAt := some now }) fun _ => rfl

/-- The account that a callback creates where it finds none. -/
def CallbackCall.account (call : CallbackCall) : NewAccount where
  email := call.identity.email
  displayName := none
  passwordHash := ""
  state := if call.identity.emailVerified then .active else .pendingEmailVerification
  locale := .ptBr

/-- The store after `link_identity`, and the link if the address is verified and a row was
inserted. -/
def Record.linked (env : Casing) (r : Record) (call : CallbackCall) (u : UserId)
    (store : AuthStore) : Record :=
  let inserted := !subjectTaken r.store.identities call.identity.provider call.identity.subject
  { r with
    store := store
    links := if call.identity.emailVerified && inserted
      then ⟨u, r.editions u, env.lower call.identity.email.text⟩ :: r.links else r.links }

def callbackStep (env : Casing) (phase : CallbackPhase) (gap : ℕ) (r : Record) :
    Record × Progress CallbackPhase Reply :=
  let r := r.elapse gap
  match phase with
  | .findIdentity call =>
    match findIdentity r.store call.identity.provider call.identity.subject with
    | some row => (r, .next (.findUser call row.userId))
    | none =>
      if call.identity.emailVerified then (r, .next (.findByEmail call))
      else (r, .next (.create call))
  | .findUser call u =>
    match findById env r.store u with
    | .error e => (r, .done (.error (.auth e)))
    | .ok none => (r, .done (.error .providerFailed))
    | .ok (some user) => (r, .next (.signIn call user))
  | .findByEmail call =>
    match findByEmail env r.store call.identity.email with
    | .error e => (r, .done (.error (.auth e)))
    | .ok none => (r, .next (.create call))
    | .ok (some existing) => (r, .next (.link call existing))
  | .link call existing =>
    match linkIdentity r.store existing.id call.identity.provider call.identity.subject none with
    | .error e => (r, .done (.error (.auth e)))
    | .ok store => (r.linked env call existing.id store, .next (.signIn call existing))
  | .create call =>
    match create env r.store call.fresh call.account r.clock with
    | .error e => (r, .done (.error (.auth e)))
    | .ok store => ({ r with store := store }, .next (.linkNew call))
  | .linkNew call =>
    match linkIdentity r.store call.fresh call.identity.provider call.identity.subject none with
    | .error e => (r, .done (.error (.auth e)))
    | .ok store =>
      let r := r.linked env call call.fresh store
      if call.identity.emailVerified then (r, .next (.markVerified call))
      else (r, .next (.findUser call call.fresh))
  | .markVerified call =>
    ({ r with store := markEmailVerified r.store call.fresh call.now },
      .next (.findUser call call.fresh))
  -- `sign_in`: the state is the one that the account had when it was read
  | .signIn call user =>
    if canLogIn user.accountState then
      match openSession r.store user.id call.session call.csrf call.now r.clock with
      | .error (.fail e) => (r, .done (.error (.auth e)))
      | .error .neutral => (r, .done (.error (.auth .internal)))
      | .ok store =>
        ({ r with
          store := store
          openings := Function.update r.openings call.session none }, .done (.ok call.session))
    else (r, .done (.error (.auth .invalidCredentials)))

def loginStep (env : Casing) (verify : String → String → Bool) (phase : LoginRace.Phase) (gap : ℕ)
    (r : Record) : Record × Progress LoginRace.Phase LoginRace.Reply :=
  let (l, progress) := LoginRace.step env verify phase gap r.ledger
  ({ r with store := l.store, clock := l.clock, openings := l.openings }, progress)

def step (env : Casing) (verify : String → String → Bool) (phase : Phase) (gap : ℕ) (r : Record) :
    Record × Progress Phase Reply :=
  match phase with
  | .login phase =>
    match loginStep env verify phase gap r with
    | (r, .next phase) => (r, .next (.login phase))
    | (r, .done reply) => (r, .done (reply.mapError .auth))
  | .callback phase =>
    match callbackStep env phase gap r with
    | (r, .next phase) => (r, .next (.callback phase))
    | (r, .done reply) => (r, .done reply)

/-- What an operation says about the passwords of an account: a new one, proved through some
mailboxes already, or a proof of the one it has. -/
inductive Evidence where
  | wrote (u : UserId) (through : List String)
  | proved (u : UserId) (mailbox : String)

/-- A reset proves the password that it writes, and an activation the one that it was given. A
change of password is made by who knows the password before it. -/
def evidence (env : Casing) (r : Record) : CredentialOp → Option Evidence
  | .register fresh new token now message terms =>
    match register env r.store fresh new token now r.clock message terms with
    | .ok (m, _) => some (.wrote m.accountId [])
    | .error _ => none
  | .confirmEmail token now notice proven =>
    match confirmEmail env r.store token now r.clock notice proven,
      r.store.verificationTokens.find token with
    | .ok (outcome, _), some row =>
      if (r.store.users.find outcome.userId).any fun a =>
          decide (a.accountState = .pendingEmailVerification)
      then some (.proved outcome.userId (env.lower row.email)) else none
    | _, _ => none
  | .completePasswordReset token hash now notice =>
    match completePasswordReset r.store token hash now r.clock notice with
    | .ok (m, _) => some (.wrote m.accountId [r.mailed token])
    | .error _ => none
  | .changePassword u expectedHash hash currentSession now notice =>
    match changePassword r.store u expectedHash hash currentSession now r.clock notice with
    | .ok _ => some (.wrote u (r.proofs u (r.editions u)))
    | .error _ => none
  | .issueVerification .. | .issueReset .. | .suspendByAdmin _ => none

def Record.note (r : Record) : Option Evidence → Record
  | some (.wrote u through) => { r with
      editions := Function.update r.editions u (r.editions u + 1)
      proofs := Function.update r.proofs u
        (Function.update (r.proofs u) (r.editions u + 1) through) }
  | some (.proved u mailbox) => { r with
      proofs := Function.update r.proofs u
        (Function.update (r.proofs u) (r.editions u) (mailbox :: r.proofs u (r.editions u))) }
  | none => r

/-- The mailbox that a reset token goes to. -/
def mailReset (env : Casing) (r : Record) : CredentialOp → Digest → String
  | .issueReset u token now message =>
    match issueReset r.store u token now r.clock message with
    | .ok _ => Function.update r.mailed token (env.lower message.recipient)
    | .error _ => r.mailed
  | _ => r.mailed

/-- The session that `change_password` keeps is from then on a session of the new password. -/
def renewKept (r : Record) : CredentialOp → Digest → Option Opening
  | .changePassword u expectedHash hash currentSession now notice =>
    match changePassword r.store u expectedHash hash currentSession now r.clock notice with
    | .ok _ => Function.update r.openings currentSession
        ((r.openings currentSession).map fun o => { o with
          hash := hash
          moves := r.editions u + 1 })
    | .error _ => r.openings
  | _ => r.openings

inductive AccountOp where
  | credential (op : CredentialOp)
  | restoreByAdmin (u : UserId)

/-- The record after an operation on credentials. -/
def Record.apply (env : Casing) (r : Record) (op : CredentialOp) : Record :=
  { r.note (evidence env r op) with
    store := CredentialOps.apply env r.clock r.store op
    mailed := mailReset env r op
    openings := renewKept r op }

def perform (env : Casing) (op : ℕ × AccountOp) (r : Record) : Record :=
  let r := r.elapse op.1
  match op.2 with
  | .credential op => r.apply env op
  | .restoreByAdmin u => { r with store := (restoreByAdmin r.store u).toOption.getD r.store }

def program (env : Casing) (verify : String → String → Bool) :
    Program Record Phase Reply ℕ Call (ℕ × AccountOp) where
  entry
    | .login call => .next (.login (.findIdentity call))
    | .callback call => .next (.callback (.findIdentity call))
  step := step env verify
  apply := perform env

abbrev LinkState := State Record ℕ Phase
abbrev LinkEvent := Event ℕ ℕ Call (ℕ × AccountOp)

/-- Before the first registration. -/
def start (clock : Instant) : Record :=
  ⟨empty, clock, fun _ => 0, fun _ _ => [], fun _ => "", fun _ => none, []⟩

/-- Of each linked account: no session is open that was opened with a password stored before the
link, and no such password is there to log in with, but a password that was proved through the
mailbox. -/
def Barred (r : Record) : Prop :=
  ∀ k ∈ r.links,
    (∀ q ∈ r.store.sessions.rows, q.userId = k.user → q.revokedAt = none →
      ∀ o ∈ r.openings q.tokenHash, o.moves ≤ k.edition → k.mailbox ∈ r.proofs k.user o.moves) ∧
    ∀ hash, HasPassword r.store k.user hash → r.editions k.user ≤ k.edition →
      k.mailbox ∈ r.proofs k.user (r.editions k.user)

/-- The account has no password to log in with. -/
def Passwordless (s : AuthStore) (u : UserId) : Prop :=
  ∀ i ∈ s.identities, i.isPasswordOf u = true → i.credentialHash = none

/-- The account has no password, or has proved it through the mailbox. -/
def Vouched (r : Record) (u : UserId) (mailbox : String) : Prop :=
  Passwordless r.store u ∨ mailbox ∈ r.proofs u (r.editions u)

/-- The account has a password, and it is the one of that edition. -/
def Stands (r : Record) (u : UserId) (edition : ℕ) : Prop :=
  ¬ Passwordless r.store u ∧ edition = r.editions u

/-- A login goes on with the password that the account has. -/
def Relies : Phase → Record → Prop
  | .login (.verify _ u _ edition), r | .login (.findUser _ u _ edition), r => Stands r u edition
  | .login (.create _ opening), r => Stands r opening.user opening.moves
  | .login (.findIdentity _), _ | .callback _, _ => True

/-- An identity is linked to an account whose password, if any, was proved through its mailbox,
and no password is replaced while a login with it is under way. -/
structure Careful (env : Casing) (verify : String → String → Bool) (s : LinkState)
    (e : LinkEvent) : Prop where
  vouched : ∀ k ∈ (fire (program env verify) s e).store.links, k ∉ s.store.links →
    Vouched s.store k.user k.mailbox
  undisturbed : ∀ x ∈ s.running.rows, Relies x.phase s.store →
    Relies x.phase (fire (program env verify) s e).store

/-- Sessions that a password opened are sessions of the password that the account has. -/
def Sound (r : Record) : Prop :=
  ∀ q ∈ r.store.sessions.rows, q.revokedAt = none → ∀ o ∈ r.openings q.tokenHash,
    Stands r q.userId o.moves ∧ (r.store.users.find q.userId).isSome

/-- Until its password is replaced, a linked account is vouched for. -/
def Linked (r : Record) : Prop :=
  ∀ k ∈ r.links, k.edition ≤ r.editions k.user ∧
    (r.editions k.user = k.edition → Vouched r k.user k.mailbox)

/-- What an event can do, where it writes a password of `w` at most. -/
structure Effect (r r' : Record) (w : Option UserId) : Prop where
  editions : ∀ v, r'.editions v = r.editions v + if w = some v then 1 else 0
  proofs : ∀ v, w ≠ some v → ∀ n m, m ∈ r.proofs v n → m ∈ r'.proofs v n
  users : ∀ v, (r.store.users.find v).isSome → (r'.store.users.find v).isSome
  passwords : ∀ v, Passwordless r'.store v → Passwordless r.store v
  passwordless : ∀ v, w ≠ some v → Passwordless r.store v → Passwordless r'.store v
  sessions : ∀ q ∈ r'.store.sessions.rows, q.revokedAt = none → ∀ o ∈ r'.openings q.tokenHash,
    (q ∈ r.store.sessions.rows ∧ o ∈ r.openings q.tokenHash ∧ w ≠ some q.userId) ∨
      (Stands r' q.userId o.moves ∧ (r'.store.users.find q.userId).isSome)
  links : ∀ k ∈ r'.links, k ∈ r.links ∨ k.edition = r.editions k.user

section Effects

variable {r r' : Record} {w : Option UserId}

theorem Effect.elapsed {gap : ℕ} (h : Effect (r.elapse gap) r' w) : Effect r r' w :=
  ⟨h.editions, h.proofs, h.users, h.passwords, h.passwordless, h.sessions, h.links⟩

theorem Effect.same_edition (h : Effect r r' w) {v : UserId} (other : w ≠ some v) :
    r'.editions v = r.editions v := by
  rw [h.editions v, if_neg other, Nat.add_zero]

theorem Effect.sound (h : Effect r r' w) (sound : Sound r) : Sound r' := by
  intro q hq free o opened
  rcases h.sessions q hq free o opened with ⟨before, was, other⟩ | now
  · obtain ⟨⟨has, edition⟩, there⟩ := sound q before free o was
    refine ⟨⟨fun none => has (h.passwords _ none), ?_⟩, h.users _ there⟩
    rw [h.same_edition other]
    exact edition
  · exact now

theorem Effect.vouched (h : Effect r r' w) {v : UserId} {mailbox : String} (other : w ≠ some v)
    (vouched : Vouched r v mailbox) : Vouched r' v mailbox := by
  rcases vouched with none | proved
  · exact .inl (h.passwordless v other none)
  · refine .inr ?_
    rw [h.same_edition other]
    exact h.proofs v other _ _ proved

theorem Effect.linked (h : Effect r r' w) (linked : Linked r)
    (vouched : ∀ k ∈ r'.links, k ∉ r.links → Vouched r k.user k.mailbox) : Linked r' := by
  intro k hk
  have before : k.edition ≤ r.editions k.user ∧
      (r.editions k.user = k.edition → Vouched r k.user k.mailbox) := by
    by_cases old : k ∈ r.links
    · exact linked k old
    · exact ⟨((h.links k hk).resolve_left old).le, fun _ => vouched k hk old⟩
  by_cases wrote : w = some k.user
  · have more := h.editions k.user
    rw [if_pos wrote] at more
    refine ⟨by omega, fun same => ?_⟩
    omega
  · rw [h.same_edition wrote]
    exact ⟨before.1, fun same => h.vouched wrote (before.2 same)⟩

/-- The invariants bar what they should. -/
theorem barred_of (sound : Sound r) (linked : Linked r) : Barred r := by
  intro k hk
  obtain ⟨past, vouched⟩ := linked k hk
  constructor
  · intro q hq owner free o opened earlier
    obtain ⟨⟨has, edition⟩, -⟩ := sound q hq free o opened
    rw [owner] at has edition
    rw [edition]
    exact (vouched (by omega)).resolve_left has
  · rintro hash ⟨i, hi, own, stored⟩ earlier
    refine (vouched (by omega)).resolve_left fun none => ?_
    rw [none i hi own] at stored
    cases stored

end Effects

section Passwords

variable {s s' : AuthStore} {u v : UserId}

/-- An update of password logins that empties none. -/
theorem passwordless_of_setPassword {f : IdentityRow → IdentityRow}
    (h : s'.identities = (setPassword s u f).identities)
    (same : ∀ i, (f i).userId = i.userId ∧ (f i).provider = i.provider)
    (kept : ∀ i, (f i).credentialHash = none → i.credentialHash = none)
    (none : Passwordless s' v) : Passwordless s v := by
  intro i hi own
  have after := none (if i.isPasswordOf u then f i else i) (h ▸ List.mem_map.mpr ⟨i, hi, rfl⟩)
  split at after
  · refine kept i (after ?_)
    simpa [IdentityRow.isPasswordOf, (same i).1, (same i).2] using own
  · exact after own

/-- An update of password logins that gives `v` none. -/
theorem passwordless_setPassword {f : IdentityRow → IdentityRow}
    (h : s'.identities = (setPassword s u f).identities)
    (same : ∀ i, (f i).userId = i.userId ∧ (f i).provider = i.provider)
    (kept : v = u → ∀ i, i.credentialHash = none → (f i).credentialHash = none)
    (none : Passwordless s v) : Passwordless s' v := by
  intro j hj own
  rw [h] at hj
  obtain ⟨i, hi, rfl⟩ := List.mem_map.mp hj
  split at own
  · rename_i target
    have was : i.isPasswordOf v = true := by
      simpa [IdentityRow.isPasswordOf, (same i).1, (same i).2] using own
    have account : v = u := by
      simp only [IdentityRow.isPasswordOf, decide_eq_true_eq] at was target
      exact was.1.symm.trans target.1
    rw [if_pos target]
    exact kept account i (none i hi was)
  · rename_i target
    rw [if_neg target]
    exact none i hi own

theorem passwordless_append {j : IdentityRow} (h : s'.identities = s.identities ++ [j])
    (absent : j.userId = v → j.credentialHash = none) (none : Passwordless s v) :
    Passwordless s' v := by
  intro i hi own
  rw [h, List.mem_append, List.mem_singleton] at hi
  rcases hi with hi | rfl
  · exact none i hi own
  · simp only [IdentityRow.isPasswordOf, decide_eq_true_eq] at own
    exact absent own.1

theorem passwordless_of_append {j : IdentityRow} (h : s'.identities = s.identities ++ [j])
    (none : Passwordless s' v) : Passwordless s v :=
  fun i hi => none i (h ▸ List.mem_append_left _ hi)

theorem passwordless_same (h : s'.identities = s.identities) :
    Passwordless s' v ↔ Passwordless s v := by
  simp only [Passwordless, h]

end Passwords

section Operations

variable {env : Casing} {r r' : Record}

/-- An event that touches no password. -/
theorem effect_quiet (editions : r'.editions = r.editions)
    (proofs : ∀ v n m, m ∈ r.proofs v n → m ∈ r'.proofs v n)
    (users : ∀ v, (r.store.users.find v).isSome → (r'.store.users.find v).isSome)
    (passwords : ∀ v, Passwordless r'.store v ↔ Passwordless r.store v)
    (sessions : ∀ q ∈ r'.store.sessions.rows, q.revokedAt = none → q ∈ r.store.sessions.rows)
    (openings : r'.openings = r.openings) (links : r'.links = r.links) : Effect r r' none where
  editions v := by rw [editions, if_neg (by simp), Nat.add_zero]
  proofs v _ := proofs v
  users := users
  passwords v := (passwords v).mp
  passwordless v _ := (passwords v).mpr
  sessions q hq free o opened := .inl ⟨sessions q hq free, openings ▸ opened, by simp⟩
  links k hk := .inl (links ▸ hk)

theorem note_links (e : Option Evidence) : (r.note e).links = r.links := by
  cases e with
  | none => rfl
  | some e => cases e <;> rfl

theorem Effect.refl (r : Record) : Effect r r none :=
  effect_quiet rfl (fun _ _ _ => id) (fun _ => id) (fun _ => Iff.rfl) (fun _ hq _ => hq) rfl rfl

/-- An operation that writes the password of `u` and ends the account's sessions, but for those
that are renewed. -/
theorem effect_wrote {u : UserId} {through : List String} {s' : AuthStore}
    {mailed : Digest → String} {openings : Digest → Option Opening}
    (users : ∀ v, (r.store.users.find v).isSome → (s'.users.find v).isSome)
    (passwords : ∀ v, Passwordless s' v → Passwordless r.store v)
    (passwordless : ∀ v, v ≠ u → Passwordless r.store v → Passwordless s' v)
    (sessions : ∀ q ∈ s'.sessions.rows, q.revokedAt = none → ∀ o ∈ openings q.tokenHash,
      (q ∈ r.store.sessions.rows ∧ o ∈ r.openings q.tokenHash ∧ q.userId ≠ u) ∨
        (q.userId = u ∧ o.moves = r.editions u + 1 ∧ ¬ Passwordless s' u ∧
          (s'.users.find u).isSome)) :
    Effect r { r.note (some (.wrote u through)) with
      store := s'
      mailed := mailed
      openings := openings } (some u) where
  editions v := by
    simp only [Record.note, Option.some.injEq]
    by_cases own : u = v
    · subst own
      simp
    · rw [Function.update_of_ne fun same => own same.symm, if_neg own, Nat.add_zero]
  proofs v other n m hm := by
    have unlike : v ≠ u := fun same => other (by rw [same])
    simp only [Record.note, Function.update_of_ne unlike]
    exact hm
  users := users
  passwords := passwords
  passwordless v other := passwordless v fun same => other (by rw [same])
  sessions q hq free o opened := by
    rcases sessions q hq free o opened with ⟨before, was, other⟩ | ⟨rfl, edition, has, there⟩
    · exact .inl ⟨before, was, fun same => other (Option.some.inj same).symm⟩
    · refine .inr ⟨⟨has, ?_⟩, there⟩
      simp only [Record.note, Function.update_self]
      exact edition
  links k hk := .inl hk

theorem register_effect (sound : Sound r) (fresh : UserId) (new : NewAccount) (token : Digest)
    (now : Instant) (message : EmailMessage) (terms : Option TermsAcceptance) :
    ∃ w, Effect r (r.apply env (.register fresh new token now message terms)) w := by
  have users := fun v => apply_account env r.clock (.register fresh new token now message terms)
    (s := r.store) (v := v)
  simp only [Record.apply, evidence, mailReset, renewKept, CredentialOps.apply] at users ⊢
  cases h : register env r.store fresh new token now r.clock message terms with
  | error e => exact ⟨none, Effect.refl r⟩
  | ok p =>
    obtain ⟨m, s'⟩ := p
    simp only [h, commit] at users ⊢
    refine ⟨some m.accountId, ?_⟩
    rw [register] at h
    split at h
    · obtain ⟨user, tokens, there, -, -, -, -, eq⟩ := registerAgain_ok h
      rw [registerAgain_accountId h there]
      have same : ∀ i : IdentityRow, i.userId = i.userId ∧ i.provider = i.provider :=
        fun _ => ⟨rfl, rfl⟩
      have identities : s'.identities = (setPassword r.store user.id fun i =>
          { i with credentialHash := some new.passwordHash }).identities := by rw [eq]; rfl
      refine effect_wrote users ?_ ?_ ?_
      · exact fun v => passwordless_of_setPassword identities same fun _ none => by cases none
      · exact fun v other => passwordless_setPassword identities same fun own => absurd own other
      · intro q hq free o opened
        rw [eq] at hq
        obtain ⟨before, other⟩ := mem_revokeSessions hq free
        exact .inl ⟨before, opened, other⟩
    · obtain ⟨accounts, roles, tokens, _, added, -, -, -, -, -, eq⟩ := registerNew_ok h
      rw [registerNew_accountId h]
      have vacant : r.store.users.find fresh = none := (Table.insert_eq_some.mp added).1
      have identities : s'.identities = r.store.identities ++
          [⟨fresh, .password, new.email.text, some new.passwordHash⟩] := by rw [eq]
      refine effect_wrote users (fun v => passwordless_of_append identities) ?_ ?_
      · exact fun v other => passwordless_append identities fun own => absurd own.symm other
      · intro q hq free o opened
        rw [eq] at hq
        refine .inl ⟨hq, opened, ?_⟩
        rintro own
        have there := (sound q hq free o opened).2
        rw [own, vacant] at there
        cases there

theorem completePasswordReset_effect (token : Digest) (hash : String) (now : Instant)
    (notice : EmailMessage) :
    ∃ w, Effect r (r.apply env (.completePasswordReset token hash now notice)) w := by
  have users := fun v => apply_account env r.clock (.completePasswordReset token hash now notice)
    (s := r.store) (v := v)
  simp only [Record.apply, evidence, mailReset, renewKept, CredentialOps.apply] at users ⊢
  cases h : completePasswordReset r.store token hash now r.clock notice with
  | error e => exact ⟨none, Effect.refl r⟩
  | ok p =>
    obtain ⟨m, s'⟩ := p
    simp only [h, commit] at users ⊢
    refine ⟨some m.accountId, ?_⟩
    obtain ⟨row, user, found, -, account, -, -, eq⟩ := completePasswordReset_ok h
    rw [completePasswordReset_accountId h found account]
    have same : ∀ i : IdentityRow, i.userId = i.userId ∧ i.provider = i.provider :=
      fun _ => ⟨rfl, rfl⟩
    have identities : s'.identities = (setPassword r.store user.id fun i =>
        { i with credentialHash := some hash }).identities := by rw [eq]; rfl
    refine effect_wrote users ?_ ?_ ?_
    · exact fun v => passwordless_of_setPassword identities same fun _ none => by cases none
    · exact fun v other => passwordless_setPassword identities same fun own => absurd own other
    · intro q hq free o opened
      rw [eq] at hq
      obtain ⟨before, other⟩ := mem_revokeSessions hq free
      exact .inl ⟨before, opened, other⟩

/-- A change of password ends all sessions but one, which is renewed. -/
theorem changePassword_effect (u : UserId) (expected hash : String) (session : Digest)
    (now : Instant) (notice : EmailMessage) :
    ∃ w, Effect r (r.apply env (.changePassword u expected hash session now notice)) w := by
  have users := fun v => apply_account env r.clock
    (.changePassword u expected hash session now notice) (s := r.store) (v := v)
  simp only [Record.apply, evidence, mailReset, renewKept, CredentialOps.apply] at users ⊢
  cases h : changePassword r.store u expected hash session now r.clock notice with
  | error e => exact ⟨none, Effect.refl r⟩
  | ok p =>
    obtain ⟨m, s'⟩ := p
    simp only [h, commit] at users ⊢
    refine ⟨some u, ?_⟩
    obtain ⟨user, account, -, stored, ⟨kept, standing, keeper, -⟩, eq⟩ := changePassword_ok h
    let f : IdentityRow → IdentityRow := fun i =>
      if i.credentialHash = some expected then { i with credentialHash := some hash } else i
    have same : ∀ i, (f i).userId = i.userId ∧ (f i).provider = i.provider := by
      intro i
      simp only [f]
      split <;> exact ⟨rfl, rfl⟩
    have identities : s'.identities = (setPassword r.store u f).identities := by rw [eq]; rfl
    have has : ¬ Passwordless s' u := by
      have written : HasPassword s' u hash := LoginRace.hasPassword_swapHash stored (by rw [eq])
      obtain ⟨i, hi, own, written⟩ := written
      intro none
      rw [none i hi own] at written
      cases written
    refine effect_wrote users ?_ ?_ ?_
    · refine fun v => passwordless_of_setPassword identities same fun i none => ?_
      simp only [f] at none
      split at none
      · cases none
      · exact none
    · exact fun v other => passwordless_setPassword identities same fun own => absurd own other
    · intro q hq free o opened
      rw [eq] at hq
      obtain ⟨before, which⟩ := LoginRace.mem_revokeOtherSessions hq free
      by_cases keep : q.tokenHash = session
      · obtain rfl : q = kept :=
          Table.eq_of_key_eq before (Table.find_eq_some.mp standing).1
            (keep.trans (Table.find_eq_some.mp standing).2.symm)
        rw [keep, Function.update_self] at opened
        obtain ⟨old, -, rfl⟩ := Option.map_eq_some_iff.mp opened
        exact .inr ⟨keeper, rfl, has, users u (by rw [account]; rfl)⟩
      · rw [Function.update_of_ne keep] at opened
        exact .inl ⟨before, opened, which.resolve_right keep⟩

/-- A confirmation writes no password; it may prove one. -/
theorem confirmEmail_effect (token : Digest) (now : Instant) (notice : EmailMessage)
    (proven : Option String) :
    Effect r (r.apply env (.confirmEmail token now notice proven)) none := by
  have users := fun v => apply_account env r.clock (.confirmEmail token now notice proven)
    (s := r.store) (v := v)
  have noted : (r.note (evidence env r (.confirmEmail token now notice proven))).editions =
        r.editions ∧
      ∀ v n m, m ∈ r.proofs v n →
        m ∈ (r.note (evidence env r (.confirmEmail token now notice proven))).proofs v n := by
    simp only [evidence]
    split
    · rename_i outcome _ row _ _
      split
      · refine ⟨rfl, fun v n m hm => ?_⟩
        simp only [Record.note]
        by_cases own : v = outcome.userId
        · subst own
          rw [Function.update_self]
          by_cases now : n = r.editions outcome.userId
          · subst now
            rw [Function.update_self]
            exact List.mem_cons_of_mem _ hm
          · rwa [Function.update_of_ne now]
        · rwa [Function.update_of_ne own]
      · exact ⟨rfl, fun _ _ _ => id⟩
    · exact ⟨rfl, fun _ _ _ => id⟩
  refine effect_quiet noted.1 noted.2 users ?_ ?_ rfl (note_links _)
  · refine commit_rec (P := fun s' => ∀ v, Passwordless s' v ↔ Passwordless r.store v)
      (fun _ => Iff.rfl) ?_
    intro outcome s' h v
    obtain ⟨row, user, email, -, -, -, -, -, -, -, eq⟩ := confirmEmail_ok h
    have same : ∀ i : IdentityRow, i.userId = i.userId ∧ i.provider = i.provider :=
      fun _ => ⟨rfl, rfl⟩
    have identities : s'.identities = (setPassword r.store user.id fun i =>
        { i with providerSubject := email.text }).identities := by rw [eq]; rfl
    exact ⟨passwordless_of_setPassword identities same fun _ => id,
      passwordless_setPassword identities same fun _ _ => id⟩
  · refine commit_rec (P := fun s' => ∀ q ∈ s'.sessions.rows, q.revokedAt = none →
      q ∈ r.store.sessions.rows) (fun _ hq _ => hq) ?_
    intro outcome s' h q hq free
    obtain ⟨row, user, email, -, -, -, -, -, -, -, eq⟩ := confirmEmail_ok h
    rw [eq] at hq
    simp only at hq
    split at hq
    · exact (mem_revokeSessions hq free).1
    · exact hq

theorem suspendByAdmin_effect (u : UserId) : Effect r (r.apply env (.suspendByAdmin u)) none := by
  have users := fun v => apply_account env r.clock (.suspendByAdmin u) (s := r.store) (v := v)
  refine effect_quiet rfl (fun _ _ _ => id) users ?_ ?_ rfl rfl
  · refine getD_rec (P := fun s' => ∀ v, Passwordless s' v ↔ Passwordless r.store v)
      (fun _ => Iff.rfl) ?_
    intro s' h v
    obtain ⟨user, -, -, -, eq⟩ := suspendByAdmin_ok h
    exact passwordless_same (by rw [eq])
  · refine getD_rec (P := fun s' => ∀ q ∈ s'.sessions.rows, q.revokedAt = none →
      q ∈ r.store.sessions.rows) (fun _ hq _ => hq) ?_
    intro s' h q hq free
    obtain ⟨user, -, -, -, eq⟩ := suspendByAdmin_ok h
    rw [eq] at hq
    exact (mem_revokeSessions hq free).1

/-- An operation writes the password of one account at most. -/
theorem perform_effect (sound : Sound r) (op : ℕ × AccountOp) :
    ∃ w, Effect r (perform env op r) w := by
  obtain ⟨gap, op⟩ := op
  suffices moved : ∃ w, Effect (r.elapse gap) (perform env (gap, op) r) w by
    obtain ⟨w, effect⟩ := moved
    exact ⟨w, effect.elapsed⟩
  have sound : Sound (r.elapse gap) := sound
  cases op with
  | credential op =>
    have users := fun v => apply_account env (r.elapse gap).clock op (s := (r.elapse gap).store)
      (v := v)
    cases op with
    | register fresh new token now message terms =>
      exact register_effect sound fresh new token now message terms
    | issueVerification u email token now expected message =>
      refine ⟨none, effect_quiet rfl (fun _ _ _ => id) users ?_ ?_ rfl rfl⟩
      · refine commit_rec (P := fun s' => ∀ v, Passwordless s' v ↔ Passwordless r.store v)
          (fun _ => Iff.rfl) ?_
        intro m s' h v
        obtain ⟨user, tokens, -, -, -, -, rfl⟩ := issueVerification_ok h
        exact Iff.rfl
      · refine commit_rec (P := fun s' => ∀ q ∈ s'.sessions.rows, q.revokedAt = none →
          q ∈ r.store.sessions.rows) (fun _ hq _ => hq) ?_
        intro m s' h q hq _
        obtain ⟨user, tokens, -, -, -, -, rfl⟩ := issueVerification_ok h
        exact hq
    | issueReset u token now message =>
      refine ⟨none, effect_quiet rfl (fun _ _ _ => id) users ?_ ?_ rfl rfl⟩
      · refine commit_rec (P := fun s' => ∀ v, Passwordless s' v ↔ Passwordless r.store v)
          (fun _ => Iff.rfl) ?_
        intro m s' h v
        obtain ⟨user, tokens, -, -, -, rfl⟩ := issueReset_ok h
        exact Iff.rfl
      · refine commit_rec (P := fun s' => ∀ q ∈ s'.sessions.rows, q.revokedAt = none →
          q ∈ r.store.sessions.rows) (fun _ hq _ => hq) ?_
        intro m s' h q hq _
        obtain ⟨user, tokens, -, -, -, rfl⟩ := issueReset_ok h
        exact hq
    | confirmEmail token now notice proven =>
      exact ⟨none, confirmEmail_effect token now notice proven⟩
    | completePasswordReset token hash now notice =>
      exact completePasswordReset_effect token hash now notice
    | changePassword u expected hash session now notice =>
      exact changePassword_effect u expected hash session now notice
    | suspendByAdmin u => exact ⟨none, suspendByAdmin_effect u⟩
  | restoreByAdmin u =>
    refine ⟨none, ?_⟩
    refine getD_rec (P := fun s' => Effect (r.elapse gap) { r.elapse gap with store := s' } none)
      (Effect.refl (r.elapse gap)) ?_
    intro s' h
    obtain ⟨user, -, -, rfl⟩ := restoreByAdmin_ok h
    refine effect_quiet rfl (fun _ _ _ => id) ?_ (fun _ => Iff.rfl) (fun _ hq _ => hq) rfl rfl
    intro v there
    rw [find_setAccount, Option.isSome_map]
    exact there

end Operations

section Steps

variable {env : Casing} {verify : String → String → Bool} {r r' : Record}

/-- A session that is inserted where none was. -/
theorem effect_opened {u : UserId} {raw : Digest} {csrf : Sessions.CsrfToken}
    {now clock : Instant} {store : AuthStore} {opening : Option Opening}
    (h : openSession r.store u raw csrf now clock = .ok store)
    (stands : ∀ o ∈ opening, Stands r u o.moves) :
    Effect r { r with
      store := store
      clock := clock
      openings := Function.update r.openings raw opening } none := by
  obtain ⟨sessions, inserted, there, rfl⟩ := openSession_ok h
  refine ⟨fun v => by simp, fun _ _ _ _ => id, fun _ => id, fun _ => id, fun _ _ => id, ?_,
    fun k hk => .inl hk⟩
  intro q hq free o opened
  have opened : o ∈ Function.update r.openings raw opening q.tokenHash := opened
  rcases (Table.mem_insert inserted).mp hq with before | rfl
  · have other : q.tokenHash ≠ raw := by
      intro same
      have taken := Table.find_of_mem before
      rw [same, (Table.insert_eq_some.mp inserted).1] at taken
      cases taken
    rw [Function.update_of_ne other] at opened
    exact .inl ⟨before, opened, by simp⟩
  · rw [Function.update_self] at opened
    exact .inr ⟨stands o opened, there⟩

theorem effect_clock (clock : Instant) : Effect r { r with clock := clock } none :=
  effect_quiet rfl (fun _ _ _ => id) (fun _ => id) (fun _ => Iff.rfl) (fun _ hq _ => hq) rfl rfl

theorem login_effect {phase : LoginRace.Phase} (relies : Relies (.login phase) r) (gap : ℕ) :
    Effect r (loginStep env verify phase gap r).1 none := by
  have still : Effect r (r.elapse gap) none := effect_clock _
  cases phase with
  | findIdentity call =>
    simp only [loginStep, LoginRace.step]
    split
    · exact still
    · split <;> exact still
  | verify call user hash edition =>
    simp only [loginStep, LoginRace.step]
    split <;> exact still
  | findUser call user hash edition =>
    simp only [loginStep, LoginRace.step]
    split
    · exact still
    · exact still
    · split <;> exact still
  | create call opening =>
    simp only [loginStep, LoginRace.step]
    split
    · exact still
    · exact still
    · rename_i store created
      refine effect_opened created ?_
      rintro o ⟨⟩
      exact relies

/-- What a login reads stands when it is read. -/
theorem login_relies {phase next : LoginRace.Phase} {gap : ℕ} (relies : Relies (.login phase) r)
    (h : loginStep env verify phase gap r = (r', .next next)) : Relies (.login next) r' := by
  cases phase with
  | findIdentity call =>
    simp only [loginStep, LoginRace.step] at h
    split at h
    · cases h
    · rename_i identity found
      split at h
      · cases h
      · rename_i hash stored
        cases h
        have here := List.find?_some found
        simp only [decide_eq_true_eq] at here
        refine ⟨fun none => ?_, rfl⟩
        have empty := none identity (List.mem_of_find?_eq_some found)
          (by simp [IdentityRow.isPasswordOf, here.1])
        rw [stored] at empty
        cases empty
  | verify call user hash edition =>
    simp only [loginStep, LoginRace.step] at h
    split at h
    · cases h
      exact relies
    · cases h
  | findUser call user hash edition =>
    simp only [loginStep, LoginRace.step] at h
    split at h
    · cases h
    · cases h
    · split at h
      · cases h
        exact relies
      · cases h
  | create call opening =>
    simp only [loginStep, LoginRace.step] at h
    split at h <;> cases h

theorem linkIdentity_effect {call : CallbackCall} {u : UserId} {store : AuthStore}
    (h : linkIdentity r.store u call.identity.provider call.identity.subject none = .ok store) :
    Effect r (r.linked env call u store) none := by
  have links : ∀ k ∈ (r.linked env call u store).links, k ∈ r.links ∨ k.edition = r.editions k.user := by
    intro k hk
    simp only [Record.linked] at hk
    split at hk
    · rcases List.mem_cons.mp hk with rfl | old
      · exact .inr rfl
      · exact .inl old
    · exact .inl hk
  have passwords : ∀ v, Passwordless store v ↔ Passwordless r.store v := by
    intro v
    unfold linkIdentity at h
    split at h
    · cases h
      exact Iff.rfl
    · simp only [bind_ok, ensure_ok, pure_ok] at h
      obtain ⟨_, -, rfl⟩ := h
      exact ⟨passwordless_of_append rfl, passwordless_append rfl fun _ => rfl⟩
  have same : store.users = r.store.users ∧ store.sessions = r.store.sessions := by
    unfold linkIdentity at h
    split at h
    · cases h
      exact ⟨rfl, rfl⟩
    · simp only [bind_ok, ensure_ok, pure_ok] at h
      obtain ⟨_, -, rfl⟩ := h
      exact ⟨rfl, rfl⟩
  refine ⟨fun v => by simp [Record.linked], fun _ _ _ _ => id, ?_, fun v => (passwords v).mp,
    fun v _ => (passwords v).mpr, ?_, links⟩
  · intro v there
    simp only [Record.linked, same.1]
    exact there
  · intro q hq free o opened
    simp only [Record.linked, same.2] at hq
    exact .inl ⟨hq, opened, by simp⟩

/-- An account that a callback creates has no password. -/
theorem create_effect {call : CallbackCall} {clock : Instant} {store : AuthStore}
    (h : create env r.store call.fresh call.account clock = .ok store) :
    Effect r { r with store := store } none := by
  simp only [create, CallbackCall.account, bind_ok, orFail_ok, pure_ok, if_true] at h
  obtain ⟨_, -, users, added, _, -, roles, -, rfl⟩ := h
  refine effect_quiet rfl (fun _ _ _ => id) ?_ (fun _ => Iff.rfl) (fun _ hq _ => hq) rfl rfl
  intro v there
  obtain ⟨a, found⟩ := Option.isSome_iff_exists.mp there
  exact Option.isSome_iff_exists.mpr ⟨a, Table.find_insert_of_find added found⟩

theorem callback_effect (phase : CallbackPhase) (gap : ℕ) :
    Effect r (callbackStep env phase gap r).1 none := by
  have still : Effect r (r.elapse gap) none := effect_clock _
  cases phase with
  | findIdentity call =>
    simp only [callbackStep]
    split
    · exact still
    · split <;> exact still
  | findUser call u =>
    simp only [callbackStep]
    split <;> exact still
  | findByEmail call =>
    simp only [callbackStep]
    split <;> exact still
  | link call existing =>
    simp only [callbackStep]
    split
    · exact still
    · rename_i store linked
      exact (linkIdentity_effect (r := r.elapse gap) linked).elapsed
  | create call =>
    simp only [callbackStep]
    split
    · exact still
    · rename_i store created
      exact (create_effect (r := r.elapse gap) created).elapsed
  | linkNew call =>
    simp only [callbackStep]
    split
    · exact still
    · rename_i store linked
      have effect : Effect r ((r.elapse gap).linked env call call.fresh store) none :=
        (linkIdentity_effect linked).elapsed
      split <;> exact effect
  | markVerified call =>
    refine effect_quiet rfl (fun _ _ _ => id) ?_ (fun _ => Iff.rfl) (fun _ hq _ => hq) rfl rfl
    intro v there
    simp only [callbackStep, markEmailVerified]
    rw [find_setAccount, Option.isSome_map]
    exact there
  | signIn call user =>
    simp only [callbackStep]
    split
    · split
      · exact still
      · exact still
      · rename_i store created
        refine effect_opened created ?_
        rintro o ⟨⟩
    · exact still

theorem step_effect {phase : Phase} (relies : Relies phase r) (gap : ℕ) :
    Effect r (step env verify phase gap r).1 none := by
  cases phase with
  | login phase =>
    have effect : Effect r (loginStep env verify phase gap r).1 none := login_effect relies gap
    simp only [step]
    split
    · rename_i stepped
      rwa [stepped] at effect
    · rename_i stepped
      rwa [stepped] at effect
  | callback phase =>
    have effect : Effect r (callbackStep env phase gap r).1 none := callback_effect phase gap
    simp only [step]
    split
    · rename_i stepped
      rwa [stepped] at effect
    · rename_i stepped
      rwa [stepped] at effect

theorem step_relies {phase next : Phase} {gap : ℕ} (relies : Relies phase r)
    (h : step env verify phase gap r = (r', .next next)) : Relies next r' := by
  cases phase with
  | login phase =>
    simp only [step] at h
    split at h
    · rename_i stepped
      cases h
      exact login_relies relies stepped
    · cases h
  | callback phase =>
    simp only [step] at h
    split at h
    · cases h
      trivial
    · cases h

end Steps

/-! Runs. -/

/-- An event writes the password of one account at most. -/
theorem fire_effect {env : Casing} {verify : String → String → Bool} {s : LinkState}
    (relies : Asserts Relies s) (sound : Sound s.store) (e : LinkEvent) :
    ∃ w, Effect s.store (fire (program env verify) s e).store w := by
  refine fire_preserves_store (I := fun r => ∃ w, Effect s.store r w) ⟨none, Effect.refl s.store⟩
    relies e ?_ ?_
  · intro phase gap relies
    exact ⟨none, step_effect relies gap⟩
  · intro op
    exact perform_effect sound op

/-- In every state of every run of registrations, logins, mailed proofs and callbacks in which no
account is linked whose password was not proved through its mailbox, and no password is replaced
while a login with it is under way: the linked accounts are barred to unproved passwords. -/
theorem provider_link_bars_unproved (env : Casing) (verify : String → String → Bool)
    (clock : Instant) (events : List LinkEvent)
    (careful : Along (program env verify) (Careful env verify) (initial (start clock)) events) :
    Barred (Interleaving.run (program env verify) (initial (start clock)) events).store := by
  have first : Sound (start clock) ∧ Linked (start clock) := by
    constructor
    · intro q _ _ o opened
      cases opened
    · rintro k ⟨⟩
  have kept : ∀ (s : LinkState) (e : LinkEvent),
      (Asserts Relies s ∧ Sound s.store ∧ Linked s.store) → Careful env verify s e →
        Asserts Relies (fire (program env verify) s e) ∧
          Sound (fire (program env verify) s e).store ∧
          Linked (fire (program env verify) s e).store := by
    rintro s e ⟨relies, sound, linked⟩ careful
    obtain ⟨w, effect⟩ := fire_effect (s := s) relies sound e
    refine ⟨fire_preserves_asserts relies e ?_ ?_ ?_, effect.sound sound,
      effect.linked linked careful.vouched⟩
    · intro call phase started
      cases call <;> cases started <;> trivial
    · intro phase gap r' next relies stepped
      exact step_relies relies stepped
    · intro x hx relies
      exact careful.undisturbed x hx relies
  obtain ⟨-, sound, linked⟩ :=
    run_invariant kept ⟨initial_asserts Relies (start clock), first⟩ careful
  exact barred_of sound linked

def adaIdentity : ProviderIdentity := ⟨.google, "ada at google", sampleEmail, true⟩

/-- A password login of Ada's address, with the steps that it takes. -/
def logIn (t : ℕ) (password : String) (session : Digest) : List LinkEvent :=
  .begin t (.login ⟨sampleEmail, password, session, 5#256, 0⟩) :: List.replicate 4 (.advance t 1)

/-- Ada comes back from the provider. -/
def signInAsAda (t : ℕ) (session : Digest) : List LinkEvent :=
  .begin t (.callback ⟨adaIdentity, 2, session, 5#256, 0⟩) :: List.replicate 4 (.advance t 1)

/-- Ada registers, logs in, proves her password and is linked. -/
def provedAndLinked : List LinkEvent :=
  activation.map (fun op => .other (1, .credential op)) ++ logIn 0 "first hash" 7 ++ signInAsAda 1 8

/-- A stranger registers Ada's address and logs in. Then Ada is linked, and the stranger logs in
again. -/
def preRegistered : List LinkEvent :=
  [.other (1, .credential (.register 1 sampleAccount 11 0
    ⟨"ada@bikes.org", 0, .en, .verifyEmail none⟩ none))] ++
    logIn 0 "first hash" 7 ++ signInAsAda 1 8 ++ logIn 2 "first hash" 9

instance (s : AuthStore) (u : UserId) : Decidable (Passwordless s u) :=
  inferInstanceAs (Decidable (∀ i ∈ s.identities, _))

instance (r : Record) (u : UserId) (mailbox : String) : Decidable (Vouched r u mailbox) :=
  inferInstanceAs (Decidable (_ ∨ _))

instance (r : Record) (u : UserId) (edition : ℕ) : Decidable (Stands r u edition) :=
  inferInstanceAs (Decidable (_ ∧ _))

instance : ∀ (phase : Phase) (r : Record), Decidable (Relies phase r)
  | .login (.verify _ u _ edition), r => inferInstanceAs (Decidable (Stands r u edition))
  | .login (.findUser _ u _ edition), r => inferInstanceAs (Decidable (Stands r u edition))
  | .login (.create _ opening), r =>
    inferInstanceAs (Decidable (Stands r opening.user opening.moves))
  | .login (.findIdentity _), _ => .isTrue trivial
  | .callback _, _ => .isTrue trivial

instance (env : Casing) (verify : String → String → Bool) (s : LinkState) (e : LinkEvent) :
    Decidable (Careful env verify s e) :=
  decidable_of_iff
    ((∀ k ∈ (fire (program env verify) s e).store.links, k ∉ s.store.links →
      Vouched s.store k.user k.mailbox) ∧ ∀ x ∈ s.running.rows, Relies x.phase s.store →
        Relies x.phase (fire (program env verify) s e).store)
    ⟨fun h => ⟨h.1, h.2⟩, fun h => ⟨h.vouched, h.undisturbed⟩⟩

theorem provider_link_bars_proved :
    let after := (Interleaving.run (program asciiCasing LoginRace.sameText) (initial (start 0))
      provedAndLinked).store
    after.links = [⟨1, 1, "ada@bikes.org"⟩] ∧ Barred after :=
  ⟨by decide +kernel, provider_link_bars_unproved asciiCasing LoginRace.sameText 0 provedAndLinked
    (by decide +kernel)⟩

/-- The stranger's session outlives the link, and the stranger's password opens another one. -/
theorem preRegistered_not_barred :
    let after := (Interleaving.run (program asciiCasing LoginRace.sameText) (initial (start 0))
      preRegistered).store
    after.links = [⟨1, 1, "ada@bikes.org"⟩] ∧ after.proofs 1 1 = [] ∧
      (after.store.sessions.find 7).map (fun q => (q.userId, q.revokedAt)) = some (1, none) ∧
      (after.openings 7).map (·.moves) = some 1 ∧
      (after.store.sessions.find 9).map (fun q => (q.userId, q.revokedAt)) = some (1, none) ∧
      (after.openings 9).map (·.moves) = some 1 ∧ ¬ Barred after := by
  intro after
  have links : after.links = [⟨1, 1, "ada@bikes.org"⟩] := by decide +kernel
  have unproved : after.proofs 1 1 = [] := by decide +kernel
  have edition : after.editions 1 = 1 := by decide +kernel
  have password : HasPassword after.store 1 "first hash" := by decide +kernel
  refine ⟨links, unproved, by decide +kernel, by decide +kernel, by decide +kernel,
    by decide +kernel, ?_⟩
  intro barred
  have proved := (barred ⟨1, 1, "ada@bikes.org"⟩ (by rw [links]; exact List.mem_singleton_self _)).2
    "first hash" password edition.le
  rw [edition, unproved] at proved
  cases proved

end ProviderLinks
