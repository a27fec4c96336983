import BikesNest.MailDelivery

/-! What goes to the mail provider, and what is left in the queue. A handler has the row of its
account from its first query on, so the transitions of that account wait, and what they would
change is as the handler's last query saw it; every terminal statement of the queue empties the
mails it ends. -/

namespace DeliverySafety

open Parking Schema Credentials Outcome Erasure AuthOutbox AccountAdmin CredentialOps Jobs Runs
  MailDelivery

/-! The rows of the queue. -/

structure RowLawful (j : QueuedJob) : Prop where
  scrubbed : j.kind = "email.send" → isTerminal j.state →
    j.payload = .obj [] ∧ j.mailRecipientHash = none
  /-- A mail lies under the key of the token that it was admitted with. -/
  bound : ∀ u p h, j.mailAccountId = some u → j.mailPurpose = some p → j.mailTokenHash = some h →
    j.idempotencyKey = some (idempotencyKey p h)

def JobsLawful (jobs : JobTable) : Prop := ∀ j ∈ jobs, RowLawful j

variable {jobs jobs' : JobTable} {j : QueuedJob} {clock now : Instant}

theorem not_terminal {s : JobState} (h : s = .pending ∨ s = .running) : ¬ isTerminal s := by
  rcases h with rfl | rfl <;> simp [isTerminal]

/-- A row that is not terminal has nothing to hide, whatever else was written to it. -/
theorem lawful_unfinished {j' : QueuedJob} (h : RowLawful j)
    (state : j'.state = .pending ∨ j'.state = .running)
    (same : j'.mailAccountId = j.mailAccountId ∧ j'.mailPurpose = j.mailPurpose ∧
      j'.mailTokenHash = j.mailTokenHash ∧ j'.idempotencyKey = j.idempotencyKey) :
    RowLawful j' := by
  obtain ⟨account, purpose, token, key⟩ := same
  refine ⟨fun _ terminal => absurd terminal (not_terminal state), ?_⟩
  rw [account, purpose, token, key]
  exact h.bound

theorem lawful_claim (owner : String) (ttl : ℕ) (h : RowLawful j) :
    RowLawful (j.claim owner ttl clock) :=
  lawful_unfinished h (.inr rfl) ⟨rfl, rfl, rfl, rfl⟩

theorem lawful_cancel (error : String) (h : RowLawful j) :
    RowLawful (QueuedJob.cancel error now j) :=
  ⟨fun _ _ => ⟨rfl, rfl⟩, h.bound⟩

theorem lawful_deadLetter (error : String) (h : RowLawful j) :
    RowLawful (j.deadLetter error clock) := by
  refine ⟨fun mail _ => ?_, h.bound⟩
  have isMail : j.isMail = true := decide_eq_true mail
  exact ⟨if_pos isMail, if_pos isMail⟩

theorem lawful_finalize (cron : Cron) (wall : Instant) (h : RowLawful j) :
    RowLawful (j.finalize cron wall clock) := by
  unfold QueuedJob.finalize
  split
  · exact lawful_unfinished h (.inl rfl) ⟨rfl, rfl, rfl, rfl⟩
  · exact lawful_deadLetter _ h

theorem lawful_outcome (o : Jobs.Outcome) (h : RowLawful j) : RowLawful (o.apply clock j) := by
  cases o with
  | finishSuccess next finishedAt =>
    cases next with
    | none =>
      refine ⟨fun mail _ => ?_, h.bound⟩
      have isMail : j.isMail = true := decide_eq_true mail
      exact ⟨if_pos isMail, if_pos isMail⟩
    | some next => exact lawful_unfinished h (.inl rfl) ⟨rfl, rfl, rfl, rfl⟩
  | retry error runAt => exact lawful_unfinished h (.inl rfl) ⟨rfl, rfl, rfl, rfl⟩
  | rescheduleAfterFailure error next =>
    exact lawful_unfinished h (.inl rfl) ⟨rfl, rfl, rfl, rfl⟩
  | fail error => exact lawful_deadLetter error h

theorem lawful_newJob (id : ℕ) (kind : String) (payload : Json) (runAt : Instant)
    (schedule : Option Json) (maxAttempts : ℤ) (key : Option String) :
    RowLawful (newJob id kind payload runAt schedule maxAttempts key) :=
  ⟨fun _ terminal => absurd terminal (not_terminal (.inl rfl)), fun _ _ _ none => nomatch none⟩

theorem lawful_update (h : JobsLawful jobs) {p : QueuedJob → Bool} {f : QueuedJob → QueuedJob}
    (hf : ∀ j, (f j).id = j.id) (keeps : ∀ j, RowLawful j → RowLawful (f j)) :
    JobsLawful (jobs.update p f hf) := by
  intro q hq
  obtain ⟨j, hj, rfl⟩ := Table.mem_update.mp hq
  split
  · exact keeps j (h j hj)
  · exact h j hj

theorem lawful_grant (h : JobsLawful jobs) (p : QueuedJob → Bool) (owner : String) (ttl : ℕ) :
    JobsLawful (grant jobs p owner ttl clock).1 :=
  lawful_update h (by intro; rfl) fun _ => lawful_claim owner ttl

theorem lawful_insert (h : JobsLawful jobs) {row : QueuedJob} {inserted : Bool}
    (new : RowLawful row) (done : insertUnlessKeyed jobs row = .ok (jobs', inserted)) :
    JobsLawful jobs' := by
  rcases insertUnlessKeyed_ok done with ⟨rfl, -⟩ | ⟨-, added, -⟩
  · exact h
  · intro j hj
    rcases (Table.mem_insert added).mp hj with hj | rfl
    · exact h j hj
    · exact new

/-- A statement that can fail leaves a lawful table, as it does when it succeeds. -/
theorem lawful_stored {α : Type} (h : JobsLawful jobs) {t : Except JobRepoError (JobTable × α)}
    (moved : ∀ jobs' a, t = .ok (jobs', a) → JobsLawful jobs') :
    JobsLawful ((t.toOption.map Prod.fst).getD jobs) := by
  cases t with
  | error e => exact h
  | ok p => exact moved p.1 p.2 rfl

theorem lawful_repair {cron : Cron} {a : Registration} {outcome : RegistrationOutcome}
    (h : JobsLawful jobs) (done : repair cron jobs a = .ok (jobs', outcome)) :
    JobsLawful jobs' := by
  obtain ⟨-, j, -, -, -, -, repairs⟩ := repair_ok done
  cases repairs with
  | running => exact h
  | healthy => exact h
  | scheduled => exact lawful_update h (by intro; rfl) fun j hj => ⟨hj.scrubbed, hj.bound⟩
  | revived =>
    exact lawful_update h (by intro; rfl) fun j hj =>
      lawful_unfinished hj (.inl rfl) ⟨rfl, rfl, rfl, rfl⟩

theorem queue_lawful (cron : Cron) (h : JobsLawful jobs) (op : QueueOp) :
    JobsLawful (op.apply cron clock jobs) := by
  cases op with
  | enqueue id kind payload runAt maxAttempts key =>
    refine lawful_stored h fun jobs' inserted done => ?_
    simp only [Jobs.enqueue, bind_ok] at done
    obtain ⟨_, -, done⟩ := done
    exact lawful_insert h (lawful_newJob ..) done
  | reserve id a =>
    refine lawful_stored h fun jobs' inserted done => ?_
    simp only [Jobs.reserve, bind_ok] at done
    obtain ⟨_, -, _, -, done⟩ := done
    exact lawful_insert h (lawful_newJob ..) done
  | repair a => exact lawful_stored h fun jobs' outcome done => lawful_repair h done
  | finalize kinds locked wall =>
    exact lawful_update h (finalize_id cron wall clock) fun j => lawful_finalize cron wall
  | claim batch owner ttl kinds locked read => exact lawful_grant h _ owner ttl
  | claimId id owner ttl => exact lawful_grant h _ owner ttl
  | heartbeat id owner ttl =>
    simp only [QueueOp.apply]
    cases done : Jobs.heartbeat jobs id owner ttl clock with
    | error e => exact h
    | ok jobs' =>
      obtain ⟨-, rfl⟩ := writeOwned_ok.mp done
      exact lawful_update h (by intro; rfl) fun j hj => ⟨hj.scrubbed, hj.bound⟩
  | outcome id owner o =>
    simp only [QueueOp.apply]
    cases done : o.write jobs id owner clock with
    | error e => exact h
    | ok jobs' =>
      obtain ⟨-, rfl⟩ := Jobs.Outcome.write_ok done
      exact lawful_update h (o.apply_id clock) fun j => lawful_outcome o
  | gc cutoff => exact fun j hj => h j (Table.mem_delete.mp hj).1

theorem cancelMail_lawful (h : JobsLawful jobs) (p : QueuedJob → Bool) (error : String) :
    JobsLawful (cancelMail jobs p error now) :=
  lawful_update h (by intro; rfl) fun _ => lawful_cancel error

theorem retireSpent_lawful (env : Casing) (s : AuthStore) (h : JobsLawful jobs)
    (op : CredentialOp) : JobsLawful (retireSpent env clock s jobs op) := by
  unfold retireSpent
  split
  · split
    · exact cancelMail_lawful h _ _
    · exact h
  · exact h

theorem admitMail_lawful {c : Codec} {m : Mailing} {e : Envelope} (h : JobsLawful jobs)
    (done : admitMail c clock jobs m e = some jobs') : JobsLawful jobs' := by
  unfold admitMail at done
  simp only at done
  split at done
  · rename_i added
    cases done
    refine lawful_insert h ?_ added
    refine ⟨fun _ terminal => absurd terminal (not_terminal (.inl rfl)), ?_⟩
    rintro u p t ⟨⟩ ⟨⟩ token
    obtain ⟨⟨t', expires⟩, given, rfl⟩ := Option.map_eq_some_iff.mp token
    have own : (m.mail e).reference = t' := by simp [Mailing.mail, given]
    exact own ▸ rfl
  · cases done

/-- The row of a mail was admitted with the token of the mail. -/
theorem idempotencyKey_inj {p : String} {h h' : Digest}
    (same : idempotencyKey p h = idempotencyKey p h') : h = h' :=
  Nat.repr_injective ((String.append_right_inj _).mp same)

theorem metadata_reference {m : Mail} {d : Metadata} {h : Digest} (lawful : JobsLawful jobs)
    (found : metadata jobs m = some d) (token : d.tokenHash = some h) : h = m.reference := by
  rcases Option.or_eq_some_iff.mp found with row | ⟨-, link⟩
  · obtain ⟨j, hj, rfl⟩ := Option.map_eq_some_iff.mp row
    have holds := List.find?_some hj
    simp only [Bool.and_eq_true, decide_eq_true_eq] at holds
    obtain ⟨-, key, account, purpose⟩ := holds
    have own := (lawful j (List.mem_of_find?_eq_some hj)).bound _ _ _ account purpose token
    exact (idempotencyKey_inj (Option.some.inj (key.symm.trans own))).symm
  · obtain ⟨r, hr, rfl⟩ := Option.map_eq_some_iff.mp link
    cases token
    unfold Mail.tokenHash at hr
    split at hr
    · exact (Option.some.inj hr).symm
    · exact (Option.some.inj hr).symm
    · exact (Option.some.inj hr).symm
    · cases hr
    · cases hr

/-! A transition leaves the accounts and the tokens of others as they are. -/

structure Beside (s s' : AuthStore) (u : UserId) : Prop where
  accounts : ∀ v, v ≠ u → s'.users.find v = s.users.find v
  verifications : ∀ d t, s.verificationTokens.find d = some t → t.userId ≠ u →
    s'.verificationTokens.find d = some t
  resets : ∀ d t, s.resetTokens.find d = some t → t.userId ≠ u → s'.resetTokens.find d = some t

variable {s s' : AuthStore} {u : UserId} {env : Casing}

theorem Beside.of_rows (accounts : ∀ v, v ≠ u → s'.users.find v = s.users.find v)
    (verifications : s'.verificationTokens = s.verificationTokens)
    (resets : s'.resetTokens = s.resetTokens) : Beside s s' u :=
  ⟨accounts, fun _ _ found _ => verifications ▸ found, fun _ _ found _ => resets ▸ found⟩

theorem retired_verification {d : Digest} {t : VerificationTokenRow}
    (found : s.verificationTokens.find d = some t) (other : t.userId ≠ u) :
    (retireVerificationTokens s u now).verificationTokens.find d = some t := by
  rw [find_retireVerificationTokens, found, Option.map_some, VerificationTokenRow.retire,
    if_neg fun own => other own.1]

theorem retired_reset {d : Digest} {t : ResetTokenRow} (found : s.resetTokens.find d = some t)
    (other : t.userId ≠ u) : (retireResetTokens s u now).resetTokens.find d = some t := by
  rw [find_retireResetTokens, found, Option.map_some, ResetTokenRow.retire,
    if_neg fun own => other own.1]

theorem consumed_verification {d token : Digest} {t : VerificationTokenRow}
    (found : s.verificationTokens.find d = some t) (other : t.userId ≠ u) :
    (consumeVerification s token u now clock).verificationTokens.find d = some t := by
  simp [consumeVerification, found, other]

theorem consumed_reset {d token : Digest} {t : ResetTokenRow}
    (found : s.resetTokens.find d = some t) (other : t.userId ≠ u) :
    (consumeReset s token u now clock).resetTokens.find d = some t := by
  simp [consumeReset, found, other]

theorem register_beside {fresh : UserId} {new : NewAccount} {token : Digest}
    {message m : EmailMessage} {terms : Option TermsAcceptance}
    (h : register env s fresh new token now clock message terms = .ok (m, s')) :
    ∃ v ∈ account env s (.register fresh new token now message terms), Beside s s' v := by
  unfold register at h
  unfold account
  split at h
  · rename_i taken
    obtain ⟨user, tokens, found, -, -, -, inserted, rfl⟩ := registerAgain_ok h
    refine ⟨user.id, by simp [taken, registered, found], ?_, ?_, fun _ _ found _ => found⟩
    · intro v other
      exact find_setAccount_other s user.id other (by intro; rfl)
    · intro d t found other
      exact Table.find_insert_of_find inserted (retired_verification found other)
  · rename_i vacant
    obtain ⟨users, roles, tokens, _, added, -, -, -, inserted, -, rfl⟩ := registerNew_ok h
    refine ⟨fresh, by simp [vacant], ?_, ?_, fun _ _ found _ => found⟩
    · intro v other
      rw [Table.find_insert added, if_neg (Ne.symm other)]
    · intro d t found _
      exact Table.find_insert_of_find inserted found

theorem confirmEmail_beside {token : Digest} {notice : EmailMessage} {proven : Option String}
    {r : EmailConfirmationOutcome}
    (h : confirmEmail env s token now clock notice proven = .ok (r, s')) :
    ∃ v ∈ account env s (.confirmEmail token now notice proven), Beside s s' v := by
  obtain ⟨row, user, email, found, -, holder, -, -, -, -, rfl⟩ := confirmEmail_ok h
  have own : user.id = row.userId := (Table.find_eq_some.mp holder).2
  refine ⟨user.id, by simp [account, found, own], ?_, ?_, fun _ _ found _ => found⟩
  · intro v other
    exact find_setAccount_other s user.id other (by intro; rfl)
  · intro d t found other
    exact retired_verification (consumed_verification found other) other

theorem completePasswordReset_beside {token : Digest} {hash : String} {notice m : EmailMessage}
    (h : completePasswordReset s token hash now clock notice = .ok (m, s')) :
    ∃ v ∈ account env s (.completePasswordReset token hash now notice), Beside s s' v := by
  obtain ⟨row, user, found, -, holder, -, -, rfl⟩ := completePasswordReset_ok h
  have own : user.id = row.userId := (Table.find_eq_some.mp holder).2
  refine ⟨user.id, by simp [account, found, own], fun _ _ => rfl, ?_, ?_⟩
  · intro d t found other
    exact retired_verification found other
  · intro d t found other
    exact retired_reset (consumed_reset found other) other

theorem transact_beside {op : CredentialOp} {m : Option Mailing}
    (h : transact env clock s op = .ok (m, s')) :
    ∃ v ∈ account env s op, Beside s s' v := by
  cases op with
  | register fresh new token now message terms =>
    obtain ⟨⟨m', s''⟩, done, eq⟩ := map_ok.mp h
    cases eq
    exact register_beside done
  | issueVerification u email token now expected message =>
    obtain ⟨⟨m', s''⟩, done, eq⟩ := map_ok.mp h
    cases eq
    obtain ⟨user, tokens, -, -, -, inserted, rfl⟩ := issueVerification_ok done
    exact ⟨u, rfl, fun _ _ => rfl, fun _ _ found _ => Table.find_insert_of_find inserted found,
      fun _ _ found _ => found⟩
  | issueReset u token now message =>
    obtain ⟨⟨m', s''⟩, done, eq⟩ := map_ok.mp h
    cases eq
    obtain ⟨user, tokens, -, -, inserted, rfl⟩ := issueReset_ok done
    exact ⟨u, rfl, fun _ _ => rfl, fun _ _ found _ => found,
      fun _ _ found _ => Table.find_insert_of_find inserted found⟩
  | confirmEmail token now notice proven =>
    obtain ⟨⟨o, s''⟩, done, eq⟩ := map_ok.mp h
    cases eq
    exact confirmEmail_beside done
  | completePasswordReset token hash now notice =>
    obtain ⟨⟨m', s''⟩, done, eq⟩ := map_ok.mp h
    cases eq
    exact completePasswordReset_beside done
  | changePassword u expected hash session now notice =>
    obtain ⟨⟨m', s''⟩, done, eq⟩ := map_ok.mp h
    cases eq
    obtain ⟨user, -, -, -, -, rfl⟩ := changePassword_ok done
    exact ⟨u, rfl, fun _ _ => rfl, fun _ _ found other => retired_verification found other,
      fun _ _ found other => retired_reset found other⟩
  | suspendByAdmin u =>
    obtain ⟨s'', done, eq⟩ := map_ok.mp h
    cases eq
    obtain ⟨user, -, -, -, rfl⟩ := suspendByAdmin_ok done
    exact ⟨u, rfl, fun v other => find_setAccount_other s u other (by intro; rfl),
      fun _ _ found other => retired_verification found other,
      fun _ _ found other => retired_reset found other⟩

theorem restoreByAdmin_beside (h : AccountAdmin.restoreByAdmin s u = .ok s') : Beside s s' u := by
  obtain ⟨user, -, -, rfl⟩ := restoreByAdmin_ok h
  exact .of_rows (fun v other => find_setAccount_other s u other (by intro; rfl)) rfl rfl

theorem eraseAccount_beside (s : AuthStore) (u : UserId) (now : Instant) :
    Beside s (eraseAccount s u now) u := by
  refine ⟨fun v other => find_setAccount_other s u other (by intro; rfl), ?_, ?_⟩
  · intro d t found other
    refine (Table.find_delete ..).trans ?_
    simp [setAccount, found, other]
  · intro d t found other
    refine (Table.find_delete ..).trans ?_
    simp [setAccount, found, other]

/-! What an attempt knows while it has the row of its account. -/

/-- From `w` to `w'` nothing was written that an attempt on `u` relies on, but for a purge of
tokens that had expired. -/
structure Held (w w' : World) (u : UserId) : Prop where
  account : w'.auth.users.find u = w.auth.users.find u
  verifications : ∀ d t, w.auth.verificationTokens.find d = some t → t.userId = u →
    w'.auth.verificationTokens.find d = some t ∨ ∃ now ∈ w'.purges, t.expiresAt < now
  resets : ∀ d t, w.auth.resetTokens.find d = some t → t.userId = u →
    w'.auth.resetTokens.find d = some t ∨ ∃ now ∈ w'.purges, t.expiresAt < now
  purges : ∀ now ∈ w.purges, now ∈ w'.purges
  time : w.now ≤ w'.now

variable {w w' : World} {x y : Attempt} {m : Mail} {checkedAt : Instant}

theorem Held.of_auth (auth : w'.auth = w.auth) (purges : w'.purges = w.purges)
    (time : w.now ≤ w'.now) (u : UserId) : Held w w' u :=
  ⟨by rw [auth], fun _ _ found _ => .inl (auth ▸ found), fun _ _ found _ => .inl (auth ▸ found),
    fun _ past => purges ▸ past, time⟩

theorem Held.of_beside (h : Beside w.auth w'.auth u) (purges : w'.purges = w.purges)
    (now : w'.now = w.now) {v : UserId} (other : v ≠ u) : Held w w' v :=
  ⟨h.accounts v other, fun d t found own => .inl (h.verifications d t found (own ▸ other)),
    fun d t found own => .inl (h.resets d t found (own ▸ other)), fun _ past => purges ▸ past,
    now.ge⟩

theorem checked_held (h : Checked w.auth w.purges m checkedAt) (held : Held w w' m.accountId) :
    Checked w'.auth w'.purges m checkedAt := by
  have past : ∀ expires, (∃ now ∈ w.purges, expires < now) → ∃ now ∈ w'.purges, expires < now :=
    fun expires ⟨now, purged, after⟩ => ⟨now, held.purges now purged, after⟩
  obtain ⟨⟨a, ha, allows⟩, stands⟩ := h
  refine ⟨⟨a, held.account ▸ ha, allows⟩, ?_⟩
  have verification : ∀ {d t}, t.userId = m.accountId →
      (w.auth.verificationTokens.find d = some t ∨ ∃ now ∈ w.purges, t.expiresAt < now) →
      w'.auth.verificationTokens.find d = some t ∨ ∃ now ∈ w'.purges, t.expiresAt < now :=
    fun own there => there.elim (held.verifications _ _ · own) fun gone => .inr (past _ gone)
  have reset : ∀ {d t}, t.userId = m.accountId →
      (w.auth.resetTokens.find d = some t ∨ ∃ now ∈ w.purges, t.expiresAt < now) →
      w'.auth.resetTokens.find d = some t ∨ ∃ now ∈ w'.purges, t.expiresAt < now :=
    fun own there => there.elim (held.resets _ _ · own) fun gone => .inr (past _ gone)
  unfold TokenStands at stands ⊢
  cases kind : m.kind <;> simp only [kind] at stands ⊢
  case verifyEmail | confirmEmailChange =>
    obtain ⟨t, hash, own, email, unused, unexpired, there⟩ := stands
    exact ⟨t, hash, own, email, unused, unexpired, verification own there⟩
  case resetPassword =>
    obtain ⟨⟨t, hash, own, unused, unexpired, there⟩, address⟩ := stands
    exact ⟨⟨t, hash, own, unused, unexpired, reset own there⟩, by rwa [held.account]⟩

/-- The account as the attempt read it. -/
def Reads (w : World) (u : UserId) (read : Option (AccountState × String)) : Prop :=
  ∀ p ∈ read, ∃ a ∈ w.auth.users.find u, p = (a.accountState, a.email)

def Asserts (w : World) (x : Attempt) : Prop :=
  match x.phase with
  | .accepted | .handed => True
  | .locked read => Reads w x.mail.accountId read
  | .looked read found => Reads w x.mail.accountId read ∧
      ∀ d ∈ found, ∀ h ∈ d.tokenHash, h = x.mail.reference
  | .passed checkedAt => x.mail.tokenHash ≠ none →
      checkedAt ≤ w.now ∧ Checked w.auth w.purges x.mail checkedAt

theorem reads_held {read : Option (AccountState × String)} (h : Reads w u read)
    (held : read.isSome → Held w w' u) : Reads w' u read := by
  intro p hp
  obtain ⟨a, ha, eq⟩ := h p hp
  have still := (held (Option.isSome_of_mem hp)).account
  exact ⟨a, still ▸ ha, eq⟩

theorem asserts_held (h : Asserts w x)
    (held : x.phase.locking = true → Held w w' x.mail.accountId) : Asserts w' x := by
  unfold Asserts at h ⊢
  cases phase : x.phase with
  | accepted => trivial
  | handed => trivial
  | locked read =>
    rw [phase] at h held
    exact reads_held h held
  | looked read found =>
    rw [phase] at h held
    exact ⟨reads_held h.1 held, h.2⟩
  | passed checkedAt =>
    rw [phase] at h held
    intro token
    obtain ⟨before, checked⟩ := h token
    exact ⟨before.trans (held rfl).time, checked_held checked (held rfl)⟩

theorem verificationStands_spec {hash : Digest}
    (stands : verificationStands s m hash clock = true) :
    ∃ t, s.verificationTokens.find hash = some t ∧ t.userId = m.accountId ∧
      t.email = m.recipient ∧ t.live clock := by
  obtain ⟨t, found, holds⟩ := (Option.any_eq_true _ _).mp stands
  exact ⟨t, found, of_decide_eq_true holds⟩

theorem resetStands_spec {hash : Digest} (stands : resetStands s m hash clock = true) :
    ∃ t, s.resetTokens.find hash = some t ∧ t.userId = m.accountId ∧ t.live clock ∧
      ∃ a ∈ s.users.find m.accountId, a.email = m.recipient := by
  obtain ⟨t, found, holds⟩ := (Option.any_eq_true _ _).mp stands
  obtain ⟨own, holder⟩ := Bool.and_eq_true_iff.mp holds
  obtain ⟨account, live⟩ := of_decide_eq_true own
  obtain ⟨a, ha, email⟩ := (Option.any_eq_true _ _).mp holder
  exact ⟨t, found, account, live, a, account ▸ ha, of_decide_eq_true email⟩

/-- What the last query of the handler asks, of a mail with a token. -/
theorem eligible_spec {c : Codec} {audited : Bool} {read : Option (AccountState × String)}
    {found : Option Metadata} (passes : eligible c s clock audited m read found = true)
    (token : m.tokenHash ≠ none) : ∃ state email, read = some (state, email) ∧
      stateAllows m.kind state = true ∧ ∃ d hash, found = some d ∧ d.tokenHash = some hash ∧
        match m.kind with
        | .resetPassword _ => resetStands s m hash clock = true
        | _ => verificationStands s m hash clock = true := by
  unfold eligible at passes
  unfold Mail.tokenHash at token
  simp only at passes
  split at passes
  · rename_i kind
    simp only [Bool.and_eq_true] at passes
    obtain ⟨⟨allows, -⟩, stands⟩ := passes
    rw [kind]
    exact ⟨_, _, rfl, allows, _, _, rfl, rfl, stands⟩
  · rename_i kind
    simp only [Bool.and_eq_true] at passes
    obtain ⟨-, stands⟩ := passes
    rw [kind]
    exact ⟨_, _, rfl, rfl, _, _, rfl, rfl, stands⟩
  · rename_i kind
    simp only [Bool.and_eq_true] at passes
    obtain ⟨⟨allows, -⟩, stands⟩ := passes
    rw [kind]
    exact ⟨_, _, rfl, allows, _, _, rfl, rfl, stands⟩
  · rename_i kind
    simp [kind] at token
  · rename_i kind
    simp [kind] at token
  · cases passes

/-- The last query of the handler, with what it read before. -/
theorem checked_of_eligible {c : Codec} {audited : Bool}
    {read : Option (AccountState × String)} {found : Option Metadata}
    (reads : Reads w m.accountId read) (own : ∀ d ∈ found, ∀ h ∈ d.tokenHash, h = m.reference)
    (passes : eligible c w.auth w.now audited m read found = true) (token : m.tokenHash ≠ none) :
    Checked w.auth w.purges m w.now := by
  obtain ⟨state, email, rfl, allows, d, hash, rfl, given, stands⟩ := eligible_spec passes token
  obtain rfl : hash = m.reference := own d rfl hash given
  obtain ⟨a, ha, eq⟩ := reads _ rfl
  cases eq
  refine ⟨⟨a, ha, allows⟩, ?_⟩
  unfold TokenStands
  cases kind : m.kind <;> simp only [kind] at stands ⊢
  case verifyEmail | confirmEmailChange =>
    obtain ⟨t, there, account, address, unused, unexpired⟩ := verificationStands_spec stands
    exact ⟨t, (Table.find_eq_some.mp there).2, account, address, unused, unexpired, .inl there⟩
  case resetPassword =>
    obtain ⟨t, there, account, ⟨unused, unexpired⟩, address⟩ := resetStands_spec stands
    exact ⟨⟨t, (Table.find_eq_some.mp there).2, account, unused, unexpired, .inl there⟩, address⟩

/-! The world. -/

structure Safe (w : World) : Prop where
  jobs : JobsLawful w.jobs
  attempts : ∀ x ∈ w.attempts, Asserts w x
  sent : ∀ x ∈ w.sent, x.mail.tokenHash ≠ none → x.Bound

theorem safe_start (auth : AuthStore) (now : Instant) : Safe (start auth now) where
  jobs := fun j hj => absurd hj (Table.not_mem_empty j)
  attempts := fun x hx => absurd hx (Table.not_mem_empty x)
  sent := nofun

/-- A statement of another transaction. -/
theorem Safe.held (safe : Safe w) (attempts : w'.attempts = w.attempts) (sent : w'.sent = w.sent)
    (jobs : JobsLawful w'.jobs)
    (held : ∀ x ∈ w.attempts, x.phase.locking = true → Held w w' x.mail.accountId) : Safe w' where
  jobs := jobs
  attempts := by
    rw [attempts]
    exact fun x hx => asserts_held (safe.attempts x hx) (held x hx)
  sent := sent ▸ safe.sent

theorem free_other (free : w.free u = true) (hx : x ∈ w.attempts)
    (locking : x.phase.locking = true) : x.mail.accountId ≠ u := by
  intro own
  have apart := List.all_eq_true.mp free x hx
  simp [own, locking] at apart

/-- A transition of `u`, whose row no handler has. -/
theorem Safe.beside (safe : Safe w) (free : w.free u = true) (auth : Beside w.auth w'.auth u)
    (jobs : JobsLawful w'.jobs) (attempts : w'.attempts = w.attempts) (sent : w'.sent = w.sent)
    (purges : w'.purges = w.purges) (now : w'.now = w.now) : Safe w' :=
  safe.held attempts sent jobs fun _ hx locking =>
    .of_beside auth purges now (free_other free hx locking)

theorem Safe.move (safe : Safe w) (x : Attempt) {phase : Phase}
    (asserts : ∀ y ∈ w.attempts, y.id = x.id → Asserts w { y with phase := phase }) :
    Safe (w.move x phase) where
  jobs := safe.jobs
  attempts := by
    intro z hz
    simp only [World.move, Table.mem_update] at hz
    obtain ⟨y, hy, rfl⟩ := hz
    split
    · rename_i hit
      exact asserts y hy (of_decide_eq_true hit)
    · exact safe.attempts y hy
  sent := safe.sent

theorem Safe.leave (safe : Safe w) (t : ℕ) : Safe (w.leave t) where
  jobs := safe.jobs
  attempts := fun x hx => safe.attempts x (Table.mem_delete.mp hx).1
  sent := safe.sent

theorem Safe.record (safe : Safe w) (x : Attempt) (checkedAt : Instant)
    (checked : x.mail.tokenHash ≠ none →
      checkedAt ≤ w.now ∧ Checked w.auth w.purges x.mail checkedAt) :
    Safe (w.record x checkedAt) where
  jobs := safe.jobs
  attempts := safe.attempts
  sent := by
    intro y hy
    rcases List.mem_append.mp hy with hy | hy
    · exact safe.sent y hy
    · obtain rfl := List.mem_singleton.mp hy
      exact checked

theorem advance_safe (c : Codec) (safe : Safe w) (hx : x ∈ w.attempts) (audited : Bool) :
    Safe (advance c w x audited) := by
  have own : ∀ y ∈ w.attempts, y.id = x.id → y = x := fun y hy => Table.eq_of_key_eq hy hx
  have asserts := safe.attempts x hx
  unfold advance
  cases phase : x.phase with
  | accepted =>
    simp only
    split
    · refine safe.move x fun y hy same => ?_
      obtain rfl := own y hy same
      rintro p hp
      obtain ⟨a, ha, rfl⟩ := Option.map_eq_some_iff.mp hp
      exact ⟨a, ha, rfl⟩
    · exact safe
  | locked read =>
    refine safe.move x fun y hy same => ?_
    obtain rfl := own y hy same
    rw [Asserts, phase] at asserts
    exact ⟨asserts, fun d found h => metadata_reference safe.jobs found⟩
  | looked read found =>
    rw [Asserts, phase] at asserts
    simp only
    split
    · rename_i passes
      refine safe.move x fun y hy same => ?_
      obtain rfl := own y hy same
      intro token
      exact ⟨le_rfl, checked_of_eligible asserts.1 asserts.2 passes token⟩
    · exact safe.leave x.id
  | passed checkedAt =>
    rw [Asserts, phase] at asserts
    exact (safe.record x checkedAt asserts).move x fun _ _ _ => trivial
  | handed => exact safe

theorem transition_safe (env : Setting) (safe : Safe w) (op : CredentialOp) (e : Envelope)
    (free : (account env.casing w.auth op).all w.free = true) :
    Safe (w.transition env op e) := by
  unfold World.transition
  split
  · exact safe
  · rename_i auth done
    obtain ⟨u, hu, beside⟩ : ∃ u ∈ account env.casing w.auth op, Beside w.auth auth u :=
      transact_beside done
    rw [hu] at free
    exact safe.beside free beside safe.jobs rfl rfl rfl rfl
  · rename_i m auth done
    obtain ⟨u, hu, beside⟩ : ∃ u ∈ account env.casing w.auth op, Beside w.auth auth u :=
      transact_beside done
    rw [hu] at free
    split
    · rename_i jobs admitted
      have jobs := admitMail_lawful (retireSpent_lawful env.casing w.auth safe.jobs op) admitted
      exact safe.beside free beside jobs rfl rfl rfl rfl
    · exact safe

/-- A purge takes no token that had not expired. -/
theorem purge_safe (safe : Safe w) (purposes : List String) (now : Instant)
    {verifications : Table Digest VerificationTokenRow VerificationTokenRow.tokenHash}
    {resets : Table Digest ResetTokenRow ResetTokenRow.tokenHash}
    (kept : ∀ d t, w.auth.verificationTokens.find d = some t →
      verifications.find d = some t ∨ t.expiresAt < now)
    (keptResets : ∀ d t, w.auth.resetTokens.find d = some t →
      resets.find d = some t ∨ t.expiresAt < now) :
    Safe (w.purge purposes now
      { w.auth with verificationTokens := verifications, resetTokens := resets }) := by
  have purged : now ∈ w.purges ++ [now] := by simp
  refine safe.held rfl rfl (cancelMail_lawful safe.jobs _ _) fun x hx locking => ?_
  refine ⟨rfl, fun d t found _ => ?_, fun d t found _ => ?_,
    fun past hp => List.mem_append_left _ hp, le_rfl⟩
  · exact (kept d t found).imp id fun after => ⟨now, purged, after⟩
  · exact (keptResets d t found).imp id fun after => ⟨now, purged, after⟩

theorem step_safe (env : Setting) (safe : Safe w) (e : Event) : Safe (step env w e) := by
  cases e with
  | elapse gap =>
    refine safe.held rfl rfl safe.jobs fun x _ _ => .of_auth (by rfl) (by rfl) ?_ _
    simp [step]
  | queue op =>
    exact safe.held rfl rfl (queue_lawful env.cron safe.jobs op) fun x _ _ =>
      .of_auth (by rfl) (by rfl) (by rfl) _
  | credential op e =>
    simp only [step]
    split
    · rename_i free
      exact transition_safe env safe op e free
    · exact safe
  | restoreByAdmin u =>
    simp only [step]
    split
    · rename_i free
      cases done : AccountAdmin.restoreByAdmin w.auth u with
      | error _ => exact safe
      | ok auth => exact safe.beside free (restoreByAdmin_beside done) safe.jobs rfl rfl rfl rfl
    · exact safe
  | anonymize u now inactiveBefore =>
    simp only [step]
    split
    · rename_i free
      exact safe.beside free.1 (eraseAccount_beside w.auth u now)
        (cancelMail_lawful safe.jobs _ _) rfl rfl rfl rfl
    · exact safe
  | purgeVerificationTokens now =>
    refine purge_safe safe _ now (fun d t found => ?_) fun d t found => .inl found
    rw [Table.find_delete, found]
    by_cases after : t.expiresAt < now
    · exact .inr after
    · exact .inl (by simp [after])
  | purgeResetTokens now =>
    refine purge_safe safe _ now (fun d t found => .inl found) fun d t found => ?_
    rw [Table.find_delete, found]
    by_cases after : t.expiresAt < now
    · exact .inr after
    · exact .inl (by simp [after])
  | begin t payload =>
    simp only [step]
    split
    · exact safe
    · split
      · rename_i mail _ attempts added
        refine ⟨safe.jobs, fun x hx => ?_, safe.sent⟩
        rcases (Table.mem_insert added).mp hx with hx | rfl
        · exact asserts_held (safe.attempts x hx) fun _ => .of_auth (by rfl) (by rfl) (by rfl) _
        · trivial
      · exact safe
  | advance t audited =>
    simp only [step]
    split
    · rename_i x found
      exact advance_safe env.codec safe (Table.find_eq_some.mp found).1 audited
    · exact safe
  | leave t => exact safe.leave t

theorem run_safe (env : Setting) (auth : AuthStore) (now : Instant) (events : List Event) :
    Safe (run (step env) (start auth now) events) :=
  run_invariant (I := Safe) (fun _ e safe _ => step_safe env safe e) (safe_start auth now)
    (along_true _ events)

def sampleMail : Mail := ⟨⟨"ada@bikes.org", 1, .en, .verifyEmail none⟩, 11⟩

/-- The payload of a mail is its recipient here. -/
def sampleSetting : Setting where
  casing := asciiCasing
  cron := fun _ _ => none
  codec := ⟨fun m => .str m.recipient, fun payload =>
    if payload = .str "ada@bikes.org" then some sampleMail else none, String.length⟩

/-- A worker claims the mail of Ada's sign-up just before its link expires, and calls its provider
just after. -/
def calledLate : List Event :=
  [.credential (.register 1 sampleAccount 11 0 ⟨"ada@bikes.org", 0, .en, .verifyEmail none⟩ none)
      ⟨1, 0, 0, 5⟩,
    .elapse ((hours 24).toNat - 1), .queue (.claim 8 "worker" 600 none (fun _ => false) 0),
    .begin 1 (.str "ada@bikes.org"), .advance 1 false, .advance 1 false, .advance 1 false,
    .elapse 1, .advance 1 false]

end DeliverySafety
