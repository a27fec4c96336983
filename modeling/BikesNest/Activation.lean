import BikesNest.CredentialOps
import BikesNest.Interleaving

/-! Activation beside registrations, resends and resets of the same address. A call of
`verify_email` reads the token, the account and its password hash, verifies the password and
only then confirms, and anything may commit in between. The journal beside the store says when
passwords were written and verification links minted. Rate limits and audit rows are left out:
a call may be given up at any step. -/

namespace Activation

open Parking Schema Credentials Outcome AuthOutbox AccountAdmin CredentialOps Interleaving

/-- A password is only verified against a hash that was made from it. -/
structure PasswordHasher where
  hash : String → String → String
  verify : String → String → Bool
  sound : ∀ password stored, verify password stored = true → ∃ salt, stored = hash salt password

inductive Mark where
  | wrote (u : UserId)
  | minted (token : Digest)
  deriving DecidableEq

structure Chronicle where
  store : AuthStore
  clock : Instant
  journal : List Mark

def isConfirmation : CredentialOp → Bool
  | .confirmEmail .. => true
  | _ => false

/-- The operations beside the calls of `verify_email`, which alone confirm. -/
inductive AccountOp where
  | credential (op : CredentialOp) (direct : isConfirmation op = false)
  | restoreByAdmin (u : UserId)
  | openSession (u : UserId) (raw : Digest) (csrf : Sessions.CsrfToken) (now : Instant)

/-- The passwords that an operation writes, and then the verification link that it mints. The
mail of a transition names the account. -/
def marks (env : Casing) (s : AuthStore) (clock : Instant) : CredentialOp → List Mark
  | .register fresh new token now message terms =>
    match register env s fresh new token now clock message terms with
    | .ok (m, _) => [.wrote m.accountId, .minted token]
    | .error _ => []
  | .issueVerification u email token now expected message =>
    match issueVerification s u email token now clock expected message with
    | .ok _ => [.minted token]
    | .error _ => []
  | .completePasswordReset token hash now notice =>
    match completePasswordReset s token hash now clock notice with
    | .ok (m, _) => [.wrote m.accountId]
    | .error _ => []
  | .changePassword u expectedHash hash currentSession now notice =>
    match changePassword s u expectedHash hash currentSession now clock notice with
    | .ok _ => [.wrote u]
    | .error _ => []
  | .issueReset .. | .confirmEmail .. | .suspendByAdmin _ => []

def Chronicle.elapse (l : Chronicle) (gap : ℕ) : Chronicle := { l with clock := l.clock + gap }

def perform (env : Casing) (op : ℕ × AccountOp) (l : Chronicle) : Chronicle :=
  let l := l.elapse op.1
  match op.2 with
  | .credential op _ =>
    ⟨apply env l.clock l.store op, l.clock, l.journal ++ marks env l.store l.clock op⟩
  | .restoreByAdmin u => { l with store := (restoreByAdmin l.store u).toOption.getD l.store }
  | .openSession u raw csrf now =>
    { l with store := (openSession l.store u raw csrf now l.clock).toOption.getD l.store }

structure VerifyCall where
  token : Digest
  password : Option String
  now : Instant

/-- The steps of `verify_email`. -/
inductive Phase where
  | findVerification (call : VerifyCall)
  | findUser (call : VerifyCall) (u : UserId)
  | findIdentity (call : VerifyCall) (user : User)
  | prove (call : VerifyCall) (user : User) (hash : String)
  | confirm (call : VerifyCall) (user : User) (proven : Option String)

abbrev Reply := Except AuthError Unit

/-- `find_verification` judges expiry by the application's time. -/
def findVerification (s : AuthStore) (token : Digest) (now : Instant) : Option UserId :=
  ((s.verificationTokens.find token).filter fun t => decide (t.live now)).map (·.userId)

def securityNotice (user : User) : EmailMessage :=
  ⟨user.email.text, user.id, user.locale, .emailAddressChanged⟩

def VerifyCall.secret (call : VerifyCall) : String := call.password.getD ""

def step (env : Casing) (hasher : PasswordHasher) (phase : Phase) (gap : ℕ) (l : Chronicle) :
    Chronicle × Progress Phase Reply :=
  let l := l.elapse gap
  match phase with
  | .findVerification call =>
    match findVerification l.store call.token call.now with
    | none => (l, .done (.error .tokenInvalid))
    | some u => (l, .next (.findUser call u))
  | .findUser call u =>
    match findById env l.store u with
    | .error e => (l, .done (.error e))
    | .ok none => (l, .done (.error .tokenInvalid))
    | .ok (some user) =>
      match user.accountState with
      | .pendingEmailVerification => (l, .next (.findIdentity call user))
      | .active => (l, .next (.confirm call user none))
      | .suspended | .deleted => (l, .done (.error .tokenInvalid))
  | .findIdentity call user =>
    match (((findIdentity l.store .password user.email.text).filter
        fun i => decide (i.userId = user.id)).bind IdentityRow.credentialHash).filter
        fun h => decide (h ≠ "") with
    | none => (l, .done (.error .invalidCredentials))
    | some hash => (l, .next (.prove call user hash))
  | .prove call user hash =>
    if hasher.verify call.secret hash then (l, .next (.confirm call user (some hash)))
    else (l, .done (.error .invalidCredentials))
  | .confirm call user proven =>
    match confirmEmail env l.store call.token call.now l.clock (securityNotice user) proven with
    | .ok (_, store) => ({ l with store := store }, .done (.ok ()))
    | .error .neutral => (l, .done (.error .tokenInvalid))
    | .error (.fail .conflict) => (l, .done (.error .emailTaken))
    | .error (.fail e) => (l, .done (.error e))

def program (env : Casing) (hasher : PasswordHasher) :
    Program Chronicle Phase Reply ℕ VerifyCall (ℕ × AccountOp) where
  entry call := .next (.findVerification call)
  step := step env hasher
  apply := perform env

abbrev VerifyState := State Chronicle ℕ Phase
abbrev VerifyEvent := Event ℕ ℕ VerifyCall (ℕ × AccountOp)

def stateOf (s : AuthStore) (u : UserId) : Option AccountState :=
  (s.users.find u).map (·.accountState)

/-- The link was minted, and the account's password was not written since. -/
def MintedSince (journal : List Mark) (u : UserId) (token : Digest) : Prop :=
  ∃ before after, journal = before ++ .minted token :: after ∧ .wrote u ∉ after

/-- The event moves the account from pending to active. -/
def Activates (env : Casing) (hasher : PasswordHasher) (s : VerifyState) (e : VerifyEvent)
    (u : UserId) : Prop :=
  stateOf s.store.store u = some .pendingEmailVerification ∧
    stateOf (fire (program env hasher) s e).store.store u = some .active

/-- The event is the confirming step of a call whose link is younger than the password, and
whose caller knows that password; it ends every session of the account. -/
def Earned (env : Casing) (hasher : PasswordHasher) (s : VerifyState) (e : VerifyEvent)
    (u : UserId) : Prop :=
  ∃ t gap call user stored row, e = .advance t gap ∧
    (s.running.find t).map (·.phase) = some (.confirm call user (some stored)) ∧
    s.store.store.verificationTokens.find call.token = some row ∧ row.userId = u ∧
    MintedSince s.store.journal u call.token ∧
    passwordHash s.store.store u = some (some stored) ∧
    (∃ salt, stored = hasher.hash salt call.secret) ∧
    ∀ r ∈ (fire (program env hasher) s e).store.store.sessions.rows, r.userId = u →
      r.revokedAt ≠ none

/-- The journal accounts for the links of `u`: those that can still be used were minted after
the password was last written. -/
def Accounted (u : UserId) (l : Chronicle) : Prop :=
  ∀ d t, l.store.verificationTokens.find d = some t → t.userId = u →
    (l.store.users.find u).isSome ∧ (t.usedAt = none → MintedSince l.journal u d)

/-- What a call has proved when it comes to confirm. -/
def Proved (hasher : PasswordHasher) (phase : Phase) (_ : Chronicle) : Prop :=
  match phase with
  | .confirm call _ (some stored) => hasher.verify call.secret stored = true
  | _ => True

section Marks

variable {journal marks : List Mark} {u : UserId} {d : Digest}

theorem mintedSince_append (h : MintedSince journal u d) (unwritten : .wrote u ∉ marks) :
    MintedSince (journal ++ marks) u d := by
  obtain ⟨before, after, rfl, since⟩ := h
  refine ⟨before, after ++ marks, by simp, ?_⟩
  rw [List.mem_append, not_or]
  exact ⟨since, unwritten⟩

theorem mintedSince_last (journal marks : List Mark) (u : UserId) (d : Digest) :
    MintedSince (journal ++ (marks ++ [.minted d])) u d :=
  ⟨journal ++ marks, [], by simp, by simp⟩

end Marks

section Steps

variable {env : Casing} {hasher : PasswordHasher} {l l' : Chronicle} {u : UserId}

/-- A link of `u` after an operation is one that was there, used by now or not outdated by the
operation, or it is the one that the operation minted. -/
theorem accounted_of {M : List Mark} (accounted : Accounted u l)
    (journal : l'.journal = l.journal ++ M)
    (persists : (l.store.users.find u).isSome → (l'.store.users.find u).isSome)
    (links : ∀ d t', l'.store.verificationTokens.find d = some t' → t'.userId = u →
      (∃ t, l.store.verificationTokens.find d = some t ∧ t.userId = u ∧
        (t'.usedAt = none → t.usedAt = none ∧ .wrote u ∉ M)) ∨
      ((l'.store.users.find u).isSome ∧ ∃ before, M = before ++ [.minted d])) :
    Accounted u l' := by
  intro d t' found owner
  rcases links d t' found owner with ⟨t, before, was, unused⟩ | ⟨there, first, rfl⟩
  · obtain ⟨there, since⟩ := accounted d t before was
    refine ⟨persists there, fun free => ?_⟩
    obtain ⟨open', unwritten⟩ := unused free
    rw [journal]
    exact mintedSince_append (since open') unwritten
  · refine ⟨there, fun _ => ?_⟩
    rw [journal]
    exact mintedSince_last l.journal first u d

/-- The rows of a retired table: used, or of another account. -/
theorem retired_other {v : UserId} {now : Instant} {t : VerificationTokenRow}
    (free : (VerificationTokenRow.retire v now t).usedAt = none) :
    VerificationTokenRow.retire v now t = t ∧ t.userId ≠ v := by
  unfold VerificationTokenRow.retire at free ⊢
  split at free
  · cases free
  · rename_i kept
    exact ⟨if_neg kept, fun own => kept ⟨own, free⟩⟩

/-- An operation that writes at most the password of `v` and retires the links of `v`. -/
theorem accounted_retired (v : UserId) (now : Instant) {M : List Mark}
    (accounted : Accounted u l) (journal : l'.journal = l.journal ++ M)
    (persists : (l.store.users.find u).isSome → (l'.store.users.find u).isSome)
    (writes : ∀ w, .wrote w ∈ M → w = v)
    (links : ∀ d, l'.store.verificationTokens.find d =
      (l.store.verificationTokens.find d).map (VerificationTokenRow.retire v now)) :
    Accounted u l' := by
  refine accounted_of accounted journal persists ?_
  intro d t' found owner
  rw [links d] at found
  obtain ⟨t, before, rfl⟩ := Option.map_eq_some_iff.mp found
  have same : (VerificationTokenRow.retire v now t).userId = t.userId := by
    unfold VerificationTokenRow.retire
    split <;> rfl
  refine .inl ⟨t, before, same.symm.trans owner, fun free => ?_⟩
  obtain ⟨eq, other⟩ := retired_other free
  refine ⟨by rw [eq] at free; exact free, fun wrote => other ?_⟩
  rw [← same, owner]
  exact writes u wrote

theorem register_accounted (accounted : Accounted u l) (fresh : UserId) (new : NewAccount)
    (token : Digest) (now : Instant) (message : EmailMessage) (terms : Option TermsAcceptance)
    (store : l'.store = commit l.store (register env l.store fresh new token now l.clock message
      terms))
    (journal : l'.journal = l.journal ++
      marks env l.store l.clock (.register fresh new token now message terms)) :
    Accounted u l' := by
  have persists : (l.store.users.find u).isSome → (l'.store.users.find u).isSome := by
    intro was
    rw [store]
    exact apply_account env l.clock (.register fresh new token now message terms) was
  cases h : register env l.store fresh new token now l.clock message terms with
  | error e =>
    simp only [marks, h, List.append_nil] at journal
    rw [h] at store
    intro d t found owner
    rw [store] at found ⊢
    rw [journal]
    exact accounted d t found owner
  | ok p =>
    obtain ⟨m, s'⟩ := p
    rw [h] at store
    simp only [marks, h] at journal
    simp only [commit] at store
    rw [register] at h
    split at h
    · obtain ⟨user, tokens, there, -, -, -, inserted, eq⟩ := registerAgain_ok h
      have account := registerAgain_accountId h there
      have member : user ∈ l.store.users := List.mem_of_find?_eq_some there
      refine accounted_of accounted journal persists ?_
      intro d t' found owner
      rw [store, eq] at found
      simp only [Table.find_insert inserted, find_retireVerificationTokens] at found
      split at found
      · rename_i minted
        cases found
        refine .inr ⟨persists ?_, [.wrote m.accountId], by rw [← minted]; rfl⟩
        rw [← owner, Table.find_of_mem member]
        rfl
      · obtain ⟨t, before, rfl⟩ := Option.map_eq_some_iff.mp found
        have same : (VerificationTokenRow.retire user.id now t).userId = t.userId := by
          unfold VerificationTokenRow.retire
          split <;> rfl
        refine .inl ⟨t, before, same.symm.trans owner, fun free => ?_⟩
        obtain ⟨kept, other⟩ := retired_other free
        refine ⟨by rw [kept] at free; exact free, ?_⟩
        rw [same] at owner
        simp [account, ← owner, other]
    · obtain ⟨users, roles, tokens, _, added, -, -, -, inserted, -, eq⟩ := registerNew_ok h
      have account := registerNew_accountId h
      have vacant : l.store.users.find fresh = none := (Table.insert_eq_some.mp added).1
      refine accounted_of accounted journal persists ?_
      intro d t' found owner
      rw [store, eq] at found
      simp only [Table.find_insert inserted] at found
      split at found
      · rename_i minted
        cases found
        refine .inr ⟨?_, [.wrote m.accountId], by rw [← minted]; rfl⟩
        rw [store, eq, ← owner]
        simp [Table.find_insert added]
      · refine .inl ⟨t', found, owner, fun free => ⟨free, ?_⟩⟩
        have there := (accounted d t' found owner).1
        have other : u ≠ fresh := by
          rintro rfl
          rw [vacant] at there
          cases there
        simp [account, other]

/-- Where nothing is written or minted, the links of `u` stay accounted for. -/
theorem accounted_same (accounted : Accounted u l) (users : l'.store.users = l.store.users)
    (tokens : l'.store.verificationTokens = l.store.verificationTokens)
    (journal : l'.journal = l.journal) : Accounted u l' := by
  intro d t found owner
  rw [tokens] at found
  rw [users, journal]
  exact accounted d t found owner

theorem issueVerification_accounted (accounted : Accounted u l) (v : UserId) (email : String)
    (token : Digest) (now : Instant) (expected : AccountState) (message : EmailMessage)
    (store : l'.store = commit l.store
      (issueVerification l.store v email token now l.clock expected message))
    (journal : l'.journal = l.journal ++
      marks env l.store l.clock (.issueVerification v email token now expected message)) :
    Accounted u l' := by
  cases h : issueVerification l.store v email token now l.clock expected message with
  | error e =>
    simp only [marks, h, List.append_nil] at journal
    rw [h] at store
    exact accounted_same accounted (by rw [store]; rfl) (by rw [store]; rfl) journal
  | ok p =>
    obtain ⟨m, s'⟩ := p
    rw [h] at store
    simp only [marks, h] at journal
    simp only [commit] at store
    obtain ⟨user, tokens, there, -, -, inserted, eq⟩ := issueVerification_ok h
    refine accounted_of accounted journal (by rw [store, eq]; exact id) ?_
    intro d t' found owner
    rw [store, eq] at found
    simp only [Table.find_insert inserted] at found
    split at found
    · rename_i minted
      cases found
      refine .inr ⟨?_, [], by rw [← minted]; rfl⟩
      rw [store, eq, ← owner]
      simp [there]
    · exact .inl ⟨t', found, owner, fun free => ⟨free, by simp⟩⟩

theorem completePasswordReset_accounted (accounted : Accounted u l) (token : Digest)
    (hash : String) (now : Instant) (notice : EmailMessage)
    (store : l'.store = commit l.store
      (completePasswordReset l.store token hash now l.clock notice))
    (journal : l'.journal = l.journal ++
      marks env l.store l.clock (.completePasswordReset token hash now notice)) :
    Accounted u l' := by
  cases h : completePasswordReset l.store token hash now l.clock notice with
  | error e =>
    simp only [marks, h, List.append_nil] at journal
    rw [h] at store
    exact accounted_same accounted (by rw [store]; rfl) (by rw [store]; rfl) journal
  | ok p =>
    obtain ⟨m, s'⟩ := p
    rw [h] at store
    simp only [marks, h] at journal
    simp only [commit] at store
    obtain ⟨row, user, found, -, account, -, -, eq⟩ := completePasswordReset_ok h
    have target := completePasswordReset_accountId h found account
    refine accounted_retired user.id now accounted journal (by rw [store, eq]; exact id) ?_ ?_
    · intro w wrote
      simp only [List.mem_singleton, Mark.wrote.injEq] at wrote
      exact wrote.trans target
    · intro d
      rw [store, eq]
      exact find_retireVerificationTokens l.store user.id now d

theorem changePassword_accounted (accounted : Accounted u l) (v : UserId)
    (expected hash : String) (session : Digest) (now : Instant) (notice : EmailMessage)
    (store : l'.store = commit l.store
      (changePassword l.store v expected hash session now l.clock notice))
    (journal : l'.journal = l.journal ++
      marks env l.store l.clock (.changePassword v expected hash session now notice)) :
    Accounted u l' := by
  cases h : changePassword l.store v expected hash session now l.clock notice with
  | error e =>
    simp only [marks, h, List.append_nil] at journal
    rw [h] at store
    exact accounted_same accounted (by rw [store]; rfl) (by rw [store]; rfl) journal
  | ok p =>
    obtain ⟨m, s'⟩ := p
    rw [h] at store
    simp only [marks, h] at journal
    simp only [commit] at store
    obtain ⟨user, -, -, -, -, eq⟩ := changePassword_ok h
    refine accounted_retired v now accounted journal (by rw [store, eq]; exact id) ?_ ?_
    · intro w wrote
      simpa using wrote
    · intro d
      rw [store, eq]
      exact find_retireVerificationTokens l.store v now d

theorem suspendByAdmin_accounted (accounted : Accounted u l) (v : UserId)
    (store : l'.store = (suspendByAdmin l.store v l.clock).toOption.getD l.store)
    (journal : l'.journal = l.journal ++ marks env l.store l.clock (.suspendByAdmin v)) :
    Accounted u l' := by
  have persists : (l.store.users.find u).isSome → (l'.store.users.find u).isSome := by
    intro was
    rw [store]
    exact apply_account env l.clock (.suspendByAdmin v) was
  simp only [marks, List.append_nil] at journal
  cases h : suspendByAdmin l.store v l.clock with
  | error e =>
    rw [h] at store
    exact accounted_same accounted (by rw [store]; rfl) (by rw [store]; rfl) journal
  | ok s' =>
    rw [h] at store
    obtain ⟨user, -, -, -, eq⟩ := suspendByAdmin_ok h
    refine accounted_retired (M := []) v l.clock accounted
      (by rw [journal, List.append_nil]) persists (by simp) ?_
    intro d
    rw [store]
    simp only [Except.toOption, Option.getD_some, eq]
    exact find_retireVerificationTokens l.store v l.clock d

theorem perform_accounted (accounted : Accounted u l) (op : ℕ × AccountOp) :
    Accounted u (perform env op l) := by
  obtain ⟨gap, op⟩ := op
  have accounted : Accounted u (l.elapse gap) := accounted
  cases op with
  | credential op direct =>
    cases op with
    | register fresh new token now message terms =>
      exact register_accounted accounted fresh new token now message terms rfl rfl
    | issueVerification v email token now expected message =>
      exact issueVerification_accounted accounted v email token now expected message rfl rfl
    | issueReset v token now message =>
      refine commit_rec (P := fun s => Accounted u ⟨s, (l.elapse gap).clock, l.journal ++ []⟩)
        (by rw [List.append_nil]; exact accounted) ?_
      intro m s' h
      obtain ⟨user, tokens, -, -, -, rfl⟩ := issueReset_ok h
      rw [List.append_nil]
      exact accounted
    | confirmEmail token now notice proven => cases direct
    | completePasswordReset token hash now notice =>
      exact completePasswordReset_accounted accounted token hash now notice rfl rfl
    | changePassword v expected hash session now notice =>
      exact changePassword_accounted accounted v expected hash session now notice rfl rfl
    | suspendByAdmin v => exact suspendByAdmin_accounted accounted v rfl rfl
  | restoreByAdmin v =>
    refine getD_rec (P := fun s => Accounted u { l.elapse gap with store := s }) accounted ?_
    intro s' h
    obtain ⟨user, -, -, rfl⟩ := restoreByAdmin_ok h
    intro d t found owner
    obtain ⟨there, since⟩ := accounted d t found owner
    refine ⟨?_, since⟩
    rw [find_setAccount, Option.isSome_map]
    exact there
  | openSession v raw csrf now =>
    refine getD_rec (P := fun s => Accounted u { l.elapse gap with store := s }) accounted ?_
    intro s' h
    obtain ⟨sessions, -, -, rfl⟩ := openSession_ok h
    exact accounted

/-- The steps of `verify_email` mint nothing and write no password. -/
theorem step_accounted (accounted : Accounted u l) (phase : Phase) (gap : ℕ) :
    Accounted u (step env hasher phase gap l).1 := by
  have accounted : Accounted u (l.elapse gap) := accounted
  cases phase with
  | findVerification call =>
    simp only [step]
    split <;> exact accounted
  | findUser call v =>
    simp only [step]
    split
    · exact accounted
    · exact accounted
    · split <;> exact accounted
  | findIdentity call user =>
    simp only [step]
    split <;> exact accounted
  | prove call user hash =>
    simp only [step]
    split <;> exact accounted
  | confirm call user proven =>
    simp only [step]
    split
    · rename_i outcome store confirmed
      have persists : (l.store.users.find u).isSome → (store.users.find u).isSome := by
        intro was
        have after := apply_account env (l.elapse gap).clock
          (.confirmEmail call.token call.now (securityNotice user) proven) (s := l.store) was
        simp only [apply] at after
        rw [show confirmEmail env l.store call.token call.now (l.elapse gap).clock
          (securityNotice user) proven = .ok (outcome, store) from confirmed] at after
        exact after
      obtain ⟨row, account, email, -, -, -, -, -, -, -, rfl⟩ := confirmEmail_ok confirmed
      refine accounted_of (l := l.elapse gap) (M := []) accounted (by simp) persists ?_
      intro d t' found owner
      simp only [find_retireVerificationTokens, consumeVerification, Table.find_update,
        Option.map_map] at found
      obtain ⟨t, before, rfl⟩ := Option.map_eq_some_iff.mp found
      refine .inl ⟨t, before, ?_, fun free => ⟨?_, by simp⟩⟩
      · rw [← owner]
        simp only [Function.comp, VerificationTokenRow.retire]
        split <;> split <;> rfl
      · obtain ⟨same, -⟩ := retired_other free
        simp only [Function.comp] at free
        rw [same] at free
        beta_reduce at free
        split at free
        · cases free
        · exact free
    all_goals exact accounted

theorem stateOf_other {s s' : AuthStore} {v : UserId} (h : Elsewhere s s' v) (other : u ≠ v) :
    stateOf s' u = stateOf s u := by
  rw [stateOf, stateOf, h.accounts u other]

/-- Only a confirmation makes a pending account active. -/
theorem direct_pending (op : CredentialOp) (direct : isConfirmation op = false) (clock : Instant)
    {s : AuthStore} (pending : stateOf s u = some .pendingEmailVerification) :
    stateOf (apply env clock s op) u ≠ some .active := by
  have still : stateOf s u ≠ some .active := by simp [pending]
  cases op with
  | register fresh new token now message terms =>
    refine commit_rec (P := fun s => stateOf s u ≠ some .active) still ?_
    intro m s' h
    rw [register] at h
    split at h
    · obtain ⟨user, tokens, -, -, -, -, -, eq⟩ := registerAgain_ok h
      have same : stateOf s' u = stateOf s u := by
        rw [stateOf, eq]
        simp only [setAccount, Table.find_update, Option.map_map, stateOf]
        congr 1
        funext a
        simp only [Function.comp]
        split <;> rfl
      rw [same]
      exact still
    · obtain ⟨users, roles, tokens, _, added, -, -, -, -, -, rfl⟩ := registerNew_ok h
      have other : u ≠ fresh := by
        rintro rfl
        rw [stateOf, (Table.insert_eq_some.mp added).1] at pending
        cases pending
      rw [stateOf_other (elsewhere_registerNew added rfl rfl) other]
      exact still
  | issueVerification v email token now expected message =>
    refine commit_rec (P := fun s => stateOf s u ≠ some .active) still ?_
    intro m s' h
    obtain ⟨user, tokens, -, -, -, -, rfl⟩ := issueVerification_ok h
    exact still
  | issueReset v token now message =>
    refine commit_rec (P := fun s => stateOf s u ≠ some .active) still ?_
    intro m s' h
    obtain ⟨user, tokens, -, -, -, rfl⟩ := issueReset_ok h
    exact still
  | confirmEmail token now notice proven => cases direct
  | completePasswordReset token hash now notice =>
    refine commit_rec (P := fun s => stateOf s u ≠ some .active) still ?_
    intro m s' h
    obtain ⟨row, user, -, -, -, -, -, rfl⟩ := completePasswordReset_ok h
    exact still
  | changePassword v expected hash session now notice =>
    refine commit_rec (P := fun s => stateOf s u ≠ some .active) still ?_
    intro m s' h
    obtain ⟨user, -, -, -, -, rfl⟩ := changePassword_ok h
    exact still
  | suspendByAdmin v =>
    refine getD_rec (P := fun s => stateOf s u ≠ some .active) still ?_
    intro s' h
    obtain ⟨user, found, -, -, eq⟩ := suspendByAdmin_ok h
    by_cases own : u = v
    · subst own
      rw [stateOf, eq]
      simp [setAccount, found, (Table.find_eq_some.mp found).2]
    · rw [stateOf_other (elsewhere_suspended clock (by rw [eq]) (by rw [eq])) own]
      exact still

theorem restore_pending {s : AuthStore} (v : UserId)
    (pending : stateOf s u = some .pendingEmailVerification) :
    stateOf ((restoreByAdmin s v).toOption.getD s) u ≠ some .active := by
  have still : stateOf s u ≠ some .active := by simp [pending]
  refine getD_rec (P := fun s => stateOf s u ≠ some .active) still ?_
  intro s' h
  obtain ⟨user, found, suspended, rfl⟩ := restoreByAdmin_ok h
  by_cases own : u = v
  · subst own
    rw [stateOf, found, Option.map_some, suspended] at pending
    cases pending
  · rw [stateOf, find_setAccount_other s v own (by intro; rfl)]
    exact still

/-- What a confirmation went through when it activated `u`. -/
theorem confirmEmail_activates {s s' : AuthStore} {token : Digest} {now clock : Instant}
    {notice : EmailMessage} {proven : Option String} {r : EmailConfirmationOutcome}
    (h : confirmEmail env s token now clock notice proven = .ok (r, s'))
    (pending : stateOf s u = some .pendingEmailVerification)
    (active : stateOf s' u = some .active) :
    ∃ row stored, s.verificationTokens.find token = some row ∧ row.userId = u ∧
      row.usedAt = none ∧ proven = some stored ∧ passwordHash s u = some (some stored) ∧
      ∀ q ∈ s'.sessions.rows, q.userId = u → q.revokedAt ≠ none := by
  obtain ⟨row, user, email, found, live, account, -, -, proof, -, eq⟩ := confirmEmail_ok h
  have key : user.id = row.userId := (Table.find_eq_some.mp account).2
  have own : u = user.id := by
    by_contra other
    have elsewhere : Elsewhere s s' user.id :=
      elsewhere_confirmed email.text (by rw [eq]) (by rw [eq])
    rw [stateOf_other elsewhere other, pending] at active
    cases active
  have state : user.accountState = .pendingEmailVerification := by
    rw [stateOf, own, key, account] at pending
    simpa using pending
  obtain ⟨given, matches'⟩ := proof state
  obtain ⟨stored, rfl⟩ := Option.isSome_iff_exists.mp given
  refine ⟨row, stored, found, (own.trans key).symm, live.1, rfl, ?_, ?_⟩
  · rw [own]
    exact Option.join_eq_some_iff.mp matches'
  · intro q hq owner free
    rw [eq] at hq
    simp only [state, or_true, if_true] at hq
    exact (mem_revokeSessions hq free).2 (owner.trans own)

end Steps

/-- In a store that a call's step leaves alone, nothing becomes active. -/
theorem step_activates {env : Casing} {hasher : PasswordHasher} {phase : Phase} {gap : ℕ}
    {l : Chronicle} {u : UserId}
    (pending : stateOf l.store u = some .pendingEmailVerification)
    (active : stateOf (step env hasher phase gap l).1.store u = some .active) :
    ∃ call user proven r s', phase = .confirm call user proven ∧
      confirmEmail env l.store call.token call.now (l.clock + gap) (securityNotice user) proven =
        .ok (r, s') ∧ (step env hasher phase gap l).1.store = s' := by
  have still : stateOf (l.elapse gap).store u ≠ some .active := by
    rw [show (l.elapse gap).store = l.store from rfl, pending]
    simp
  cases phase with
  | findVerification call =>
    simp only [step] at active
    split at active <;> exact absurd active still
  | findUser call v =>
    simp only [step] at active
    split at active
    · exact absurd active still
    · exact absurd active still
    · split at active <;> exact absurd active still
  | findIdentity call user =>
    simp only [step] at active
    split at active <;> exact absurd active still
  | prove call user hash =>
    simp only [step] at active
    split at active <;> exact absurd active still
  | confirm call user proven =>
    simp only [step] at active ⊢
    split at active
    · rename_i r s' confirmed
      exact ⟨call, user, proven, r, s', rfl, confirmed, rfl⟩
    all_goals exact absurd active still

theorem step_proved {env : Casing} {hasher : PasswordHasher} {phase next : Phase} {gap : ℕ}
    {l l' : Chronicle} (h : step env hasher phase gap l = (l', .next next)) :
    Proved hasher next l' := by
  cases phase with
  | findVerification call =>
    simp only [step] at h
    split at h <;> cases h
    trivial
  | findUser call v =>
    simp only [step] at h
    split at h
    · cases h
    · cases h
    · split at h <;> cases h <;> trivial
  | findIdentity call user =>
    simp only [step] at h
    split at h <;> cases h
    trivial
  | prove call user hash =>
    simp only [step] at h
    split at h
    · rename_i verified
      cases h
      exact verified
    · cases h
  | confirm call user proven =>
    simp only [step] at h
    split at h <;> cases h

/-! Runs. -/

theorem fire_accounted {env : Casing} {hasher : PasswordHasher} {s : VerifyState} {u : UserId}
    (proved : Asserts (Proved hasher) s) (accounted : Accounted u s.store) (e : VerifyEvent) :
    Accounted u (fire (program env hasher) s e).store := by
  refine fire_preserves_store accounted proved e ?_ ?_
  · intro phase gap _
    exact step_accounted accounted phase gap
  · intro op
    exact perform_accounted accounted op

/-- An activation is earned in every state that the invariants admit. -/
theorem activates_earned {env : Casing} {hasher : PasswordHasher} {s : VerifyState} {u : UserId}
    (proved : Asserts (Proved hasher) s) (accounted : Accounted u s.store) {e : VerifyEvent}
    (h : Activates env hasher s e u) : Earned env hasher s e u := by
  obtain ⟨pending, active⟩ := h
  have still : stateOf s.store.store u ≠ some .active := by simp [pending]
  cases e with
  | begin t call =>
    simp only [fire, program] at active
    split at active <;> exact absurd active still
  | advance t gap =>
    simp only [fire] at active
    split at active
    · rename_i x found
      rw [settle_store] at active
      obtain ⟨call, user, proven, r, s', phase, confirmed, store⟩ := step_activates pending active
      have active : stateOf s' u = some .active := store ▸ active
      obtain ⟨row, stored, link, owner, unused, rfl, current, ended⟩ :=
        confirmEmail_activates confirmed pending active
      have verified : hasher.verify call.secret stored = true := by
        have here := proved x (Table.find_eq_some.mp found).1
        rw [phase] at here
        exact here
      refine ⟨t, gap, call, user, stored, row, rfl, ?_, link, owner, ?_, current,
        hasher.sound call.secret stored verified, ?_⟩
      · rw [found, Option.map_some, phase]
      · exact (accounted call.token row link owner).2 unused
      · have after : (fire (program env hasher) s (.advance t gap)).store.store = s' := by
          simp only [fire, found, settle_store]
          exact store
        rw [after]
        exact ended
    · exact absurd active still
  | drop t => exact absurd active still
  | other op =>
    exfalso
    obtain ⟨gap, op⟩ := op
    cases op with
    | credential op direct => exact direct_pending op direct _ pending active
    | restoreByAdmin v => exact restore_pending v pending active
    | openSession v raw csrf now =>
      refine getD_rec (P := fun s => stateOf s u ≠ some .active) still ?_ active
      intro s' h
      obtain ⟨sessions, -, -, rfl⟩ := openSession_ok h
      exact still

/-- Over every run from a store with no link of `u`: when the account `u` becomes active, it is
by the confirming step of a call with a link minted after the last write of the account's
password, whose caller knows the password that the account has at that step; and that step ends
every session of the account. -/
theorem activation_is_earned (env : Casing) (hasher : PasswordHasher) (s : AuthStore)
    (clock : Instant) (u : UserId) (unlinked : ∀ t ∈ s.verificationTokens.rows, t.userId ≠ u)
    (events : List VerifyEvent) :
    Along (program env hasher)
      (fun s e => Activates env hasher s e u → Earned env hasher s e u)
      (initial ⟨s, clock, []⟩) events := by
  have start : Accounted u ⟨s, clock, []⟩ := by
    intro d t found owner
    exact absurd owner (unlinked t (Table.find_eq_some.mp found).1)
  refine along_of_invariant (I := fun s => Asserts (Proved hasher) s ∧ Accounted u s.store) ?_ ?_
    ⟨initial_asserts _ _, start⟩ (along_true _ events)
  · rintro s e ⟨proved, accounted⟩ -
    refine ⟨fire_preserves_asserts proved e ?_ ?_ ?_, fire_accounted proved accounted e⟩
    · intro call phase started
      cases started
      trivial
    · intro phase gap l' next _ stepped
      exact step_proved stepped
    · intro x _ proved
      exact proved
  · rintro s e ⟨proved, accounted⟩ - activates
    exact activates_earned proved accounted activates

/-- A hash that shows its salt and its password. -/
def sampleHasher : PasswordHasher where
  hash salt password := salt ++ password
  verify password stored := decide (stored = "salt:" ++ password)
  sound password stored h := ⟨"salt:", by simpa using h⟩

def signUp (token : Digest) (hash : String) : VerifyEvent :=
  .other (1, .credential (.register 1 { sampleAccount with passwordHash := hash } token 0
    ⟨"ada@bikes.org", 0, .en, .verifyEmail none⟩ none) rfl)

/-- A stranger registers Ada's address and opens a session, Ada registers it again, and follows
her own link with her own password. -/
def preRegistered : List VerifyEvent :=
  [signUp 11 "salt:stranger", .other (1, .openSession 1 7 5#256 0), signUp 12 "salt:ada",
    .begin 0 ⟨12, some "ada", 0⟩, .advance 0 1, .advance 0 1, .advance 0 1, .advance 0 1,
    .advance 0 1]

theorem preRegistered_earned :
    Along (program asciiCasing sampleHasher)
        (fun s e => Activates asciiCasing sampleHasher s e 1 →
          Earned asciiCasing sampleHasher s e 1)
        (initial ⟨empty, 0, []⟩) preRegistered ∧
      stateOf (Interleaving.run (program asciiCasing sampleHasher) (initial ⟨empty, 0, []⟩)
        preRegistered).store.store 1 = some .active :=
  ⟨activation_is_earned asciiCasing sampleHasher empty 0 1 (by simp [Credentials.empty, Table.empty])
    preRegistered, by decide +kernel⟩

end Activation
