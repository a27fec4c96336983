import BikesNest.AccountAdmin

/-! The seven transitions that touch the credentials of an account or the links mailed to it,
as one vocabulary, and what each of them can do: which account it touches, that it never
revives or drops a token, and that it retires the links it should. -/

namespace CredentialOps

open Parking Schema Credentials Outcome AuthOutbox AccountAdmin

inductive CredentialOp where
  | register (fresh : UserId) (new : NewAccount) (token : Digest) (now : Instant)
      (message : EmailMessage) (terms : Option TermsAcceptance)
  | issueVerification (u : UserId) (email : String) (token : Digest) (now : Instant)
      (expected : AccountState) (message : EmailMessage)
  | issueReset (u : UserId) (token : Digest) (now : Instant) (message : EmailMessage)
  | confirmEmail (token : Digest) (now : Instant) (notice : EmailMessage) (proven : Option String)
  | completePasswordReset (token : Digest) (hash : String) (now : Instant) (notice : EmailMessage)
  | changePassword (u : UserId) (expectedHash hash : String) (currentSession : Digest)
      (now : Instant) (notice : EmailMessage)
  | suspendByAdmin (u : UserId)

/-- The store after an operation at the database's time `clock`. -/
def apply (env : Casing) (clock : Instant) (s : AuthStore) : CredentialOp → AuthStore
  | .register fresh new token now message terms =>
    commit s (register env s fresh new token now clock message terms)
  | .issueVerification u email token now expected message =>
    commit s (issueVerification s u email token now clock expected message)
  | .issueReset u token now message => commit s (issueReset s u token now clock message)
  | .confirmEmail token now notice proven =>
    commit s (confirmEmail env s token now clock notice proven)
  | .completePasswordReset token hash now notice =>
    commit s (completePasswordReset s token hash now clock notice)
  | .changePassword u expectedHash hash currentSession now notice =>
    commit s (changePassword s u expectedHash hash currentSession now clock notice)
  | .suspendByAdmin u => (suspendByAdmin s u clock).toOption.getD s

/-- What holds of the store before a transition and of any store it commits. -/
theorem commit_rec {α : Type} {P : AuthStore → Prop} {s : AuthStore}
    {t : Except Halt (α × AuthStore)} (still : P s) (moved : ∀ a s', t = .ok (a, s') → P s') :
    P (commit s t) := by
  cases t with
  | error e => exact still
  | ok p => exact moved p.1 p.2 rfl

theorem getD_rec {P : AuthStore → Prop} {s : AuthStore} {t : Except Halt AuthStore} (still : P s)
    (moved : ∀ s', t = .ok s' → P s') : P (t.toOption.getD s) := by
  cases t with
  | error e => exact still
  | ok s' => exact moved s' rfl

/-! The statements, one at a time. -/

section Statements

variable (s : AuthStore) (u v : UserId) (now clock : Instant)

def VerificationTokenRow.retire (t : VerificationTokenRow) : VerificationTokenRow :=
  if t.userId = u ∧ t.usedAt = none then { t with usedAt := some now } else t

@[simp] theorem find_retireVerificationTokens (d : Digest) :
    (retireVerificationTokens s u now).verificationTokens.find d =
      (s.verificationTokens.find d).map (VerificationTokenRow.retire u now) := by
  simp only [retireVerificationTokens, Table.find_update, decide_eq_true_eq]
  rfl

def ResetTokenRow.retire (t : ResetTokenRow) : ResetTokenRow :=
  if t.userId = u ∧ t.usedAt = none then { t with usedAt := some now } else t

@[simp] theorem find_retireResetTokens (d : Digest) :
    (retireResetTokens s u now).resetTokens.find d =
      (s.resetTokens.find d).map (ResetTokenRow.retire u now) := by
  simp only [retireResetTokens, Table.find_update, decide_eq_true_eq]
  rfl

variable {s u now} in
/-- What is left unrevoked belongs to others. -/
theorem mem_revokeSessions {r : SessionRow} (h : r ∈ (revokeSessions s u now).sessions.rows)
    (free : r.revokedAt = none) : r ∈ s.sessions.rows ∧ r.userId ≠ u := by
  simp only [revokeSessions, ← Table.mem_rows, Table.mem_update] at h
  obtain ⟨q, hq, eq⟩ := h
  by_cases hit : q.userId = u ∧ q.revokedAt = none
  · rw [if_pos (by simpa using hit)] at eq
    rw [← eq] at free
    cases free
  · rw [if_neg (by simpa using hit)] at eq
    subst eq
    exact ⟨hq, fun own => hit ⟨own, free⟩⟩

variable {s u v} in
/-- An update of one account's password login leaves the other accounts' logins alone. -/
theorem passwordHash_setPassword_other {f : IdentityRow → IdentityRow}
    (same : ∀ i, (f i).userId = i.userId ∧ (f i).provider = i.provider) (other : v ≠ u) :
    passwordHash (setPassword s u f) v = passwordHash s v := by
  simp only [passwordHash, setPassword]
  induction s.identities with
  | nil => rfl
  | cons i rest ih =>
    have test : ∀ j : IdentityRow, (if j.isPasswordOf u then f j else j).isPasswordOf v =
        j.isPasswordOf v := by
      intro j
      split
      · simp [IdentityRow.isPasswordOf, (same j).1, (same j).2]
      · rfl
    simp only [List.map_cons, List.find?_cons, test]
    cases own : i.isPasswordOf v with
    | true =>
      have unlike : i.isPasswordOf u = false := by
        simp only [IdentityRow.isPasswordOf, decide_eq_true_eq, decide_eq_false_iff_not] at own ⊢
        rintro ⟨rfl, -⟩
        exact other own.1.symm
      simp [unlike]
    | false => simpa using ih

variable {s u} in
/-- An update of the password login that keeps the hash keeps what `SELECT` finds. -/
theorem passwordHash_setPassword_same {f : IdentityRow → IdentityRow}
    (same : ∀ i, (f i).userId = i.userId ∧ (f i).provider = i.provider ∧
      (f i).credentialHash = i.credentialHash) :
    passwordHash (setPassword s u f) u = passwordHash s u := by
  simp only [passwordHash, setPassword]
  induction s.identities with
  | nil => rfl
  | cons i rest ih =>
    cases own : i.isPasswordOf u with
    | true =>
      have still : (f i).isPasswordOf u = true := by
        simpa [IdentityRow.isPasswordOf, (same i).1, (same i).2.1] using own
      simp [own, still, (same i).2.2]
    | false => simpa [own] using ih

variable {s u} in
theorem passwordHash_setCredentialHash {hash : String} (there : passwordRows s u ≠ 0) :
    passwordHash (setCredentialHash s u hash) u = some (some hash) := by
  simp only [passwordRows, passwordHash, setCredentialHash, setPassword] at there ⊢
  generalize s.identities = identities at there ⊢
  induction identities with
  | nil => simp at there
  | cons i rest ih =>
    cases own : i.isPasswordOf u with
    | true =>
      have still : IdentityRow.isPasswordOf u { i with credentialHash := some hash } = true := own
      simp [own, still]
    | false =>
      simp only [List.countP_cons, own] at there
      simpa [own] using ih there

end Statements

/-! What an operation can do to accounts and tokens. -/

/-- Only the account `u` differs, in its row or its password. -/
structure Elsewhere (s s' : AuthStore) (u : UserId) : Prop where
  accounts : ∀ v, v ≠ u → s'.users.find v = s.users.find v
  hashes : ∀ v, v ≠ u → passwordHash s' v = passwordHash s v

/-- The password hash of an account, its address and whether it is suspended. -/
def credentials (s : AuthStore) (u : UserId) : Option (Option String) × Option (String × Bool) :=
  (passwordHash s u,
    (s.users.find u).map fun a => (a.email, decide (a.accountState = .suspended)))

theorem Elsewhere.credentials_eq {s s' : AuthStore} {u v : UserId} (h : Elsewhere s s' u)
    (other : v ≠ u) : credentials s' v = credentials s v := by
  simp only [credentials, h.accounts v other, h.hashes v other]

/-- A verification token across an operation: it is used for good, and used at the latest when
the credentials of its account change. -/
structure VerificationFollows (s s' : AuthStore) (t t' : VerificationTokenRow) : Prop where
  user : t'.userId = t.userId
  used : t.usedAt ≠ none → t'.usedAt ≠ none
  spent : (s.users.find t.userId).isSome → credentials s' t.userId ≠ credentials s t.userId →
    t'.usedAt ≠ none

theorem VerificationFollows.same {s s' : AuthStore} {t : VerificationTokenRow}
    (h : credentials s' t.userId = credentials s t.userId) : VerificationFollows s s' t t :=
  ⟨rfl, id, fun _ differs => absurd h differs⟩

/-- An operation that retires the links of the one account it touches. -/
theorem VerificationFollows.retired {s s' : AuthStore} {u : UserId} {t : VerificationTokenRow}
    (h : Elsewhere s s' u) (now : Instant) :
    VerificationFollows s s' t (VerificationTokenRow.retire u now t) := by
  have user : (VerificationTokenRow.retire u now t).userId = t.userId := by
    unfold VerificationTokenRow.retire
    split <;> rfl
  have used : t.usedAt ≠ none ∨ t.userId = u →
      (VerificationTokenRow.retire u now t).usedAt ≠ none := by
    intro or
    unfold VerificationTokenRow.retire
    split
    · simp
    · rename_i kept
      rcases or with used | own
      · exact used
      · exact fun free => kept ⟨own, free⟩
  refine ⟨user, fun h => used (.inl h), fun _ differs => used (.inr ?_)⟩
  by_contra other
  exact differs (h.credentials_eq other)

section Operations

variable {env : Casing} {s s' : AuthStore} {u : UserId} {now clock : Instant} {covered : Prop}

/-- The identity rows of the password logins, with one account's changed. -/
theorem hashes_elsewhere (f : IdentityRow → IdentityRow)
    (h : s'.identities = (setPassword s u f).identities)
    (same : ∀ i, (f i).userId = i.userId ∧ (f i).provider = i.provider) {v : UserId}
    (other : v ≠ u) : passwordHash s' v = passwordHash s v := by
  rw [passwordHash, h]
  exact passwordHash_setPassword_other same other

theorem elsewhere_registerAgain (hash : String) (name : Option String)
    (users : s'.users = (setAccount s u (fun a => { a with displayName := name })
      fun _ => rfl).users)
    (identities : s'.identities = (setCredentialHash s u hash).identities) :
    Elsewhere s s' u := by
  constructor
  · intro v other
    rw [users]
    exact find_setAccount_other s u other (by intro; rfl)
  · intro v other
    exact hashes_elsewhere _ identities (fun _ => ⟨rfl, rfl⟩) other

theorem elsewhere_registerNew {a : AccountRow} {i : IdentityRow}
    (users : s.users.insert a = some s'.users) (identities : s'.identities = s.identities ++ [i])
    (own : i.userId = a.id) : Elsewhere s s' a.id := by
  constructor
  · intro v other
    rw [Table.find_insert users, if_neg]
    exact fun same => other same.symm
  · intro v other
    have unlike : i.isPasswordOf v = false := by
      simp only [IdentityRow.isPasswordOf, decide_eq_false_iff_not, own]
      exact fun same => other same.1.symm
    simp [passwordHash, identities, List.find?_append, unlike]

theorem elsewhere_confirmed (email : String)
    (users : s'.users = (switchAddress s u email now).users)
    (identities : s'.identities = (switchAddress s u email now).identities) :
    Elsewhere s s' u := by
  constructor
  · intro v other
    rw [users]
    exact find_setAccount_other s u other (by intro; rfl)
  · intro v other
    exact hashes_elsewhere (fun i => { i with providerSubject := email }) identities
      (fun _ => ⟨rfl, rfl⟩) other

theorem elsewhere_setCredentialHash (hash : String) (users : s'.users = s.users)
    (identities : s'.identities = (setCredentialHash s u hash).identities) :
    Elsewhere s s' u := by
  constructor
  · intro v _
    rw [users]
  · intro v other
    exact hashes_elsewhere _ identities (fun _ => ⟨rfl, rfl⟩) other

theorem elsewhere_swapHash (expected hash : String) (users : s'.users = s.users)
    (identities : s'.identities = (swapHash s u expected hash).identities) :
    Elsewhere s s' u := by
  constructor
  · intro v _
    rw [users]
  · intro v other
    refine hashes_elsewhere _ identities ?_ other
    intro i
    split <;> exact ⟨rfl, rfl⟩

theorem elsewhere_suspended (clock : Instant) (users : s'.users = (setAccount s u (fun a => { a with
      accountState := .suspended, suspendedAt := some clock }) fun _ => rfl).users)
    (identities : s'.identities = s.identities) : Elsewhere s s' u := by
  constructor
  · intro v other
    rw [users]
    exact find_setAccount_other s u other (by intro; rfl)
  · intro v _
    rw [passwordHash, passwordHash, identities]

/-- The rows of a token that an operation redeems, then retires with the others. -/
theorem VerificationFollows.redeemed {t : VerificationTokenRow} (token : Digest)
    (now clock : Instant) (h : Elsewhere s s' u) :
    VerificationFollows s s' t (VerificationTokenRow.retire u now
      (if t.tokenHash = token ∧ t.userId = u ∧ t.live (max now clock)
        then { t with usedAt := some now } else t)) := by
  split
  · have own : (VerificationTokenRow.retire u now { t with usedAt := some now }) =
        { t with usedAt := some now } := by simp [VerificationTokenRow.retire]
    rw [own]
    exact ⟨rfl, fun _ => by simp, fun _ _ => by simp⟩
  · exact .retired h now

/-- The row of a verification token in a later store. -/
def VerificationKept (s : AuthStore) (d : Digest) (t : VerificationTokenRow) (s' : AuthStore) :
    Prop :=
  ∃ t', s'.verificationTokens.find d = some t' ∧ VerificationFollows s s' t t'

/-- Across an operation every verification token is followed. -/
theorem apply_verification (env : Casing) (clock : Instant) (op : CredentialOp) {s : AuthStore}
    {d : Digest} {t : VerificationTokenRow} (found : s.verificationTokens.find d = some t) :
    VerificationKept s d t (apply env clock s op) := by
  have still : VerificationKept s d t s := ⟨t, found, .same rfl⟩
  cases op with
  | register fresh new token now message terms =>
    refine commit_rec (P := VerificationKept s d t) still ?_
    intro m s' h
    rw [register] at h
    split at h
    · obtain ⟨user, tokens, -, -, -, -, inserted, eq⟩ := registerAgain_ok h
      have elsewhere : Elsewhere s s' user.id :=
        elsewhere_registerAgain new.passwordHash new.displayName (by rw [eq]) (by rw [eq])
      refine ⟨_, ?_, .retired elsewhere now⟩
      rw [eq]
      refine Table.find_insert_of_find inserted ?_
      rw [find_retireVerificationTokens, found, Option.map_some]
    · obtain ⟨users, roles, tokens, _, added, -, -, -, inserted, -, rfl⟩ := registerNew_ok h
      have vacant : s.users.find fresh = none := (Table.insert_eq_some.mp added).1
      refine ⟨t, Table.find_insert_of_find inserted found, rfl, id, ?_⟩
      intro there differs
      have other : t.userId ≠ fresh := by
        rintro rfl
        simp [vacant] at there
      exact absurd ((elsewhere_registerNew added rfl rfl).credentials_eq other) differs
  | issueVerification u email token now expected message =>
    refine commit_rec (P := VerificationKept s d t) still ?_
    intro m s' h
    obtain ⟨user, tokens, -, -, -, inserted, rfl⟩ := issueVerification_ok h
    exact ⟨t, Table.find_insert_of_find inserted found, .same rfl⟩
  | issueReset u token now message =>
    refine commit_rec (P := VerificationKept s d t) still ?_
    intro m s' h
    obtain ⟨user, tokens, -, -, -, rfl⟩ := issueReset_ok h
    exact ⟨t, found, .same rfl⟩
  | confirmEmail token now notice proven =>
    refine commit_rec (P := VerificationKept s d t) still ?_
    intro r s' h
    obtain ⟨row, user, email, -, -, -, -, -, -, -, eq⟩ := confirmEmail_ok h
    have elsewhere : Elsewhere s s' user.id :=
      elsewhere_confirmed email.text (by rw [eq]) (by rw [eq])
    refine ⟨_, ?_, .redeemed token now clock elsewhere⟩
    rw [eq, find_retireVerificationTokens]
    simp [consumeVerification, found]
  | completePasswordReset token hash now notice =>
    refine commit_rec (P := VerificationKept s d t) still ?_
    intro m s' h
    obtain ⟨row, user, -, -, -, -, -, eq⟩ := completePasswordReset_ok h
    have elsewhere : Elsewhere s s' user.id :=
      elsewhere_setCredentialHash hash (by rw [eq]) (by rw [eq])
    refine ⟨_, ?_, .retired elsewhere now⟩
    rw [eq, find_retireVerificationTokens, found, Option.map_some]
  | changePassword u expected hash session now notice =>
    refine commit_rec (P := VerificationKept s d t) still ?_
    intro m s' h
    obtain ⟨user, -, -, -, -, eq⟩ := changePassword_ok h
    have elsewhere : Elsewhere s s' u :=
      elsewhere_swapHash expected hash (by rw [eq]) (by rw [eq])
    refine ⟨_, ?_, .retired elsewhere now⟩
    rw [eq, find_retireVerificationTokens, found, Option.map_some]
  | suspendByAdmin u =>
    refine getD_rec (P := VerificationKept s d t) still ?_
    intro s' h
    obtain ⟨user, -, -, -, eq⟩ := suspendByAdmin_ok h
    have elsewhere : Elsewhere s s' u := elsewhere_suspended clock (by rw [eq]) (by rw [eq])
    refine ⟨_, ?_, .retired elsewhere clock⟩
    rw [eq, find_retireVerificationTokens, found, Option.map_some]

/-- No operation removes an account. -/
theorem apply_account (env : Casing) (clock : Instant) (op : CredentialOp) {s : AuthStore}
    {v : UserId} (there : (s.users.find v).isSome) :
    ((apply env clock s op).users.find v).isSome := by
  have still := there
  have updated : ∀ (u : UserId) (f : AccountRow → AccountRow) (hf : ∀ a, (f a).id = a.id),
      ((setAccount s u f hf).users.find v).isSome := by
    intro u f hf
    rw [find_setAccount, Option.isSome_map]
    exact there
  cases op with
  | register fresh new token now message terms =>
    refine commit_rec (P := fun s' => (s'.users.find v).isSome) still ?_
    intro m s' h
    rw [register] at h
    split at h
    · obtain ⟨user, tokens, -, -, -, -, -, rfl⟩ := registerAgain_ok h
      exact updated user.id _ (by intro; rfl)
    · obtain ⟨users, roles, tokens, _, added, -, -, -, -, -, rfl⟩ := registerNew_ok h
      obtain ⟨a, found⟩ := Option.isSome_iff_exists.mp there
      exact Option.isSome_iff_exists.mpr ⟨a, Table.find_insert_of_find added found⟩
  | issueVerification u email token now expected message =>
    refine commit_rec (P := fun s' => (s'.users.find v).isSome) still ?_
    intro m s' h
    obtain ⟨user, tokens, -, -, -, -, rfl⟩ := issueVerification_ok h
    exact there
  | issueReset u token now message =>
    refine commit_rec (P := fun s' => (s'.users.find v).isSome) still ?_
    intro m s' h
    obtain ⟨user, tokens, -, -, -, rfl⟩ := issueReset_ok h
    exact there
  | confirmEmail token now notice proven =>
    refine commit_rec (P := fun s' => (s'.users.find v).isSome) still ?_
    intro r s' h
    obtain ⟨row, user, email, -, -, -, -, -, -, -, rfl⟩ := confirmEmail_ok h
    exact updated user.id _ (by intro; rfl)
  | completePasswordReset token hash now notice =>
    refine commit_rec (P := fun s' => (s'.users.find v).isSome) still ?_
    intro m s' h
    obtain ⟨row, user, -, -, -, -, -, rfl⟩ := completePasswordReset_ok h
    exact there
  | changePassword u expected hash session now notice =>
    refine commit_rec (P := fun s' => (s'.users.find v).isSome) still ?_
    intro m s' h
    obtain ⟨user, -, -, -, -, rfl⟩ := changePassword_ok h
    exact there
  | suspendByAdmin u =>
    refine getD_rec (P := fun s' => (s'.users.find v).isSome) still ?_
    intro s' h
    obtain ⟨user, -, -, -, rfl⟩ := suspendByAdmin_ok h
    exact updated u _ (by intro; rfl)

/-! Reset tokens; two of the operations do not retire them. -/

def NoLiveReset (s : AuthStore) (u : UserId) (clock : Instant) : Prop :=
  ∀ t ∈ s.resetTokens.rows, t.userId = u → ¬ t.live clock

/-- Where an operation would change the password or the address of an account and leave its
reset tokens alone, there is none to be left. -/
def Covered (env : Casing) (clock : Instant) (s : AuthStore) : CredentialOp → Prop
  | .register _ new _ _ _ _ =>
    ∀ user ∈ s.users.rows.find? fun a => decide (a.email = new.email.text),
      user.accountState = .pendingEmailVerification →
      passwordHash s user.id ≠ some (some new.passwordHash) → NoLiveReset s user.id clock
  | .confirmEmail token _ _ _ =>
    ∀ row ∈ s.verificationTokens.find token, ∀ user ∈ s.users.find row.userId,
      ∀ email ∈ UserEmail.parse env row.email, email.text ≠ user.email →
        NoLiveReset s user.id clock
  | _ => True

/-- A reset token across an operation: it is used for good and, if the operation is covered, not
live when the credentials of its account change. -/
structure ResetFollows (covered : Prop) (s s' : AuthStore) (clock : Instant)
    (t t' : ResetTokenRow) : Prop where
  user : t'.userId = t.userId
  expires : t'.expiresAt = t.expiresAt
  used : t.usedAt ≠ none → t'.usedAt ≠ none
  spent : covered → (s.users.find t.userId).isSome → credentials s' t.userId ≠ credentials s t.userId →
    ¬ t'.live clock

theorem ResetFollows.same {t : ResetTokenRow}
    (h : covered → credentials s' t.userId ≠ credentials s t.userId → ¬ t.live clock) :
    ResetFollows covered s s' clock t t :=
  ⟨rfl, rfl, id, fun hc _ => h hc⟩

theorem ResetFollows.retired {t : ResetTokenRow} (h : Elsewhere s s' u) (now : Instant) :
    ResetFollows covered s s' clock t (ResetTokenRow.retire u now t) := by
  have row : (ResetTokenRow.retire u now t).userId = t.userId ∧
      (ResetTokenRow.retire u now t).expiresAt = t.expiresAt := by
    unfold ResetTokenRow.retire
    split <;> exact ⟨rfl, rfl⟩
  have used : t.usedAt ≠ none ∨ t.userId = u → (ResetTokenRow.retire u now t).usedAt ≠ none := by
    intro or
    unfold ResetTokenRow.retire
    split
    · simp
    · rename_i kept
      rcases or with used | own
      · exact used
      · exact fun free => kept ⟨own, free⟩
  refine ⟨row.1, row.2, fun h => used (.inl h), fun _ _ differs live => used (.inr ?_) live.1⟩
  by_contra other
  exact differs (h.credentials_eq other)

theorem ResetFollows.redeemed {t : ResetTokenRow} (token : Digest) (now : Instant)
    (h : Elsewhere s s' u) :
    ResetFollows covered s s' clock t (ResetTokenRow.retire u now
      (if t.tokenHash = token ∧ t.userId = u ∧ t.live (max now clock)
        then { t with usedAt := some now } else t)) := by
  split
  · have own : (ResetTokenRow.retire u now { t with usedAt := some now }) =
        { t with usedAt := some now } := by simp [ResetTokenRow.retire]
    rw [own]
    exact ⟨rfl, rfl, fun _ => by simp, fun _ _ _ live => by simp [ResetTokenRow.live] at live⟩
  · exact .retired h now

/-- The row of a reset token in a later store. -/
def ResetKept (covered : Prop) (s : AuthStore) (clock : Instant) (d : Digest) (t : ResetTokenRow)
    (s' : AuthStore) : Prop :=
  ∃ t', s'.resetTokens.find d = some t' ∧ ResetFollows covered s s' clock t t'

/-- A registration of a pending address changes no more than the hash. -/
theorem credentials_registerAgain {new : NewAccount} {token : Digest} {message m : EmailMessage}
    {terms : Option TermsAcceptance} {user : AccountRow}
    (h : registerAgain s new token now clock message terms = .ok (m, s'))
    (found : (s.users.rows.find? fun a => decide (a.email = new.email.text)) = some user)
    (same : passwordHash s user.id = some (some new.passwordHash)) (v : UserId) :
    credentials s' v = credentials s v := by
  obtain ⟨user', tokens, found', -, -, single, -, eq⟩ := registerAgain_ok h
  obtain rfl : user = user' := Option.some.inj (found.symm.trans found')
  by_cases own : v = user.id
  · subst own
    have hash : passwordHash s' user.id = some (some new.passwordHash) := by
      rw [passwordHash, eq]
      exact passwordHash_setCredentialHash (by omega)
    have account : s'.users.find user.id = (s.users.find user.id).map fun a =>
        { a with displayName := new.displayName } := by
      rw [eq]
      exact find_setAccount_self s user.id (by intro; rfl)
    simp only [credentials, hash, same, account, Option.map_map]
    rfl
  · have elsewhere : Elsewhere s s' user.id :=
      elsewhere_registerAgain new.passwordHash new.displayName (by rw [eq]) (by rw [eq])
    exact elsewhere.credentials_eq own

/-- A confirmation changes no more than the address. -/
theorem credentials_confirmed {token : Digest} {notice : EmailMessage} {proven : Option String}
    {r : EmailConfirmationOutcome} {row : VerificationTokenRow} {user : AccountRow}
    {email : UserEmail} (h : confirmEmail env s token now clock notice proven = .ok (r, s'))
    (found : s.verificationTokens.find token = some row)
    (account : s.users.find row.userId = some user)
    (parsed : UserEmail.parse env row.email = some email) (same : email.text = user.email)
    (v : UserId) : credentials s' v = credentials s v := by
  obtain ⟨row', user', email', found', -, account', able, -, -, parsed', eq⟩ := confirmEmail_ok h
  obtain rfl : row = row' := Option.some.inj (found.symm.trans found')
  obtain rfl : user = user' := Option.some.inj (account.symm.trans account')
  obtain rfl : email = email' := Option.some.inj (parsed.symm.trans parsed')
  by_cases own : v = user.id
  · subst own
    have before : s.users.find user.id = some user := by
      rw [(Table.find_eq_some.mp account).2]
      exact account
    have unsuspended : user.accountState ≠ .suspended := by
      intro state
      rw [state] at able
      cases able
    have hash : passwordHash s' user.id = passwordHash s user.id := by
      rw [passwordHash, eq]
      exact passwordHash_setPassword_same (s := s)
        (f := fun i => { i with providerSubject := email.text }) fun _ => ⟨rfl, rfl, rfl⟩
    have row' : s'.users.find user.id = some { user with
        email := email.text, emailVerifiedAt := some now, accountState := .active } := by
      rw [eq]
      refine (find_setAccount_self s user.id (by intro; rfl)).trans ?_
      rw [before]
      rfl
    simp [credentials, hash, row', before, same, unsuspended]
  · have elsewhere : Elsewhere s s' user.id :=
      elsewhere_confirmed email.text (by rw [eq]) (by rw [eq])
    exact elsewhere.credentials_eq own

/-- Across an operation every reset token is followed. -/
theorem apply_reset (env : Casing) (clock : Instant) (op : CredentialOp) {s : AuthStore}
    {d : Digest} {t : ResetTokenRow} (found : s.resetTokens.find d = some t) :
    ResetKept (Covered env clock s op) s clock d t (apply env clock s op) := by
  have still : ∀ covered, ResetKept covered s clock d t s :=
    fun _ => ⟨t, found, .same fun _ differs => absurd rfl differs⟩
  have member : t ∈ s.resetTokens.rows := (Table.find_eq_some.mp found).1
  cases op with
  | register fresh new token now message terms =>
    refine commit_rec (P := ResetKept _ s clock d t) (still _) ?_
    intro m s' h
    rw [register] at h
    split at h
    · obtain ⟨user, tokens, there, -, pending, -, -, eq⟩ := registerAgain_ok h
      refine ⟨t, by rw [eq]; exact found, .same fun covered differs => ?_⟩
      have changed : passwordHash s user.id ≠ some (some new.passwordHash) :=
        fun same => differs (credentials_registerAgain h there same t.userId)
      refine covered user there pending changed t member ?_
      have elsewhere : Elsewhere s s' user.id :=
        elsewhere_registerAgain new.passwordHash new.displayName (by rw [eq]) (by rw [eq])
      by_contra other
      exact differs (elsewhere.credentials_eq other)
    · obtain ⟨users, roles, tokens, _, added, -, -, -, -, -, rfl⟩ := registerNew_ok h
      have vacant : s.users.find fresh = none := (Table.insert_eq_some.mp added).1
      refine ⟨t, found, rfl, rfl, id, ?_⟩
      intro _ there differs
      have other : t.userId ≠ fresh := by
        rintro rfl
        simp [vacant] at there
      exact absurd ((elsewhere_registerNew added rfl rfl).credentials_eq other) differs
  | issueVerification u email token now expected message =>
    refine commit_rec (P := ResetKept _ s clock d t) (still _) ?_
    intro m s' h
    obtain ⟨user, tokens, -, -, -, -, rfl⟩ := issueVerification_ok h
    exact ⟨t, found, .same fun _ differs => absurd rfl differs⟩
  | issueReset u token now message =>
    refine commit_rec (P := ResetKept _ s clock d t) (still _) ?_
    intro m s' h
    obtain ⟨user, tokens, -, -, inserted, rfl⟩ := issueReset_ok h
    exact ⟨t, Table.find_insert_of_find inserted found, .same fun _ differs => absurd rfl differs⟩
  | confirmEmail token now notice proven =>
    refine commit_rec (P := ResetKept _ s clock d t) (still _) ?_
    intro r s' h
    obtain ⟨row, user, email, there, -, account, -, -, -, parsed, eq⟩ := confirmEmail_ok h
    refine ⟨t, by rw [eq]; exact found, .same fun covered differs => ?_⟩
    have changed : email.text ≠ user.email :=
      fun same => differs (credentials_confirmed h there account parsed same t.userId)
    refine covered row there user account email parsed changed t member ?_
    have elsewhere : Elsewhere s s' user.id :=
      elsewhere_confirmed email.text (by rw [eq]) (by rw [eq])
    by_contra other
    exact differs (elsewhere.credentials_eq other)
  | completePasswordReset token hash now notice =>
    refine commit_rec (P := ResetKept _ s clock d t) (still _) ?_
    intro m s' h
    obtain ⟨row, user, -, -, -, -, -, eq⟩ := completePasswordReset_ok h
    have elsewhere : Elsewhere s s' user.id :=
      elsewhere_setCredentialHash hash (by rw [eq]) (by rw [eq])
    refine ⟨_, ?_, .redeemed token now elsewhere⟩
    rw [eq, find_retireResetTokens]
    simp [consumeReset, found]
  | changePassword u expected hash session now notice =>
    refine commit_rec (P := ResetKept _ s clock d t) (still _) ?_
    intro m s' h
    obtain ⟨user, -, -, -, -, eq⟩ := changePassword_ok h
    have elsewhere : Elsewhere s s' u :=
      elsewhere_swapHash expected hash (by rw [eq]) (by rw [eq])
    refine ⟨_, ?_, .retired elsewhere now⟩
    rw [eq, find_retireResetTokens, found, Option.map_some]
  | suspendByAdmin u =>
    refine getD_rec (P := ResetKept _ s clock d t) (still _) ?_
    intro s' h
    obtain ⟨user, -, -, -, eq⟩ := suspendByAdmin_ok h
    have elsewhere : Elsewhere s s' u := elsewhere_suspended clock (by rw [eq]) (by rw [eq])
    refine ⟨_, ?_, .retired elsewhere clock⟩
    rw [eq, find_retireResetTokens, found, Option.map_some]

end Operations

/-- Case folding for addresses in ASCII. -/
def asciiCasing : Casing := ⟨fun s => String.ofList (s.toList.map Char.toLower)⟩

/-- The identities of two sample accounts. -/
theorem two_distinct : [1, 2].Nodup := by decide

def sampleEmail : UserEmail := ⟨"ada@bikes.org", by decide⟩

def sampleAccount : NewAccount :=
  ⟨sampleEmail, none, "first hash", .pendingEmailVerification, .en⟩

/-- Ada signs up and activates her account. -/
def activation : List CredentialOp :=
  [.register 1 sampleAccount 11 0 ⟨"ada@bikes.org", 0, .en, .verifyEmail none⟩ none,
    .confirmEmail 11 0 ⟨"ada@bikes.org", 1, .en, .emailAddressChanged⟩ (some "first hash")]

end CredentialOps
