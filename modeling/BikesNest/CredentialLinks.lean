import BikesNest.CredentialOps

/-! Over whole runs: a mailed link is redeemed once at most, and is dead once the password, the
address or the suspension of its account has changed. Reset links outlive two of these changes;
the condition `CoveredEvent` says when none is there to do so. -/

namespace CredentialLinks

open Parking Schema Credentials Outcome AuthOutbox AccountAdmin CredentialOps Runs

inductive Op where
  | credential (op : CredentialOp)
  | openSession (u : UserId) (raw : Digest) (csrf : Sessions.CsrfToken) (now : Instant)

/-- An operation some time after the one before it. -/
structure Event where
  gap : ℕ
  op : Op

structure World where
  store : AuthStore
  clock : Instant

def step (env : Casing) (w : World) (e : Event) : World :=
  let clock := w.clock + e.gap
  match e.op with
  | .credential op => ⟨apply env clock w.store op, clock⟩
  | .openSession u raw csrf now =>
    ⟨(openSession w.store u raw csrf now clock).toOption.getD w.store, clock⟩

def CoveredEvent (env : Casing) (w : World) (e : Event) : Prop :=
  match e.op with
  | .credential op => Covered env (w.clock + e.gap) w.store op
  | .openSession .. => True

/-- The event is a confirmation with the token `d`, and it goes through. -/
def RedeemsVerification (env : Casing) (w : World) (e : Event) (d : Digest) : Prop :=
  ∃ now notice proven r, e.op = .credential (.confirmEmail d now notice proven) ∧
    confirmEmail env w.store d now (w.clock + e.gap) notice proven = .ok r

/-- The event is a password reset with the token `d`, and it goes through. -/
def RedeemsReset (w : World) (e : Event) (d : Digest) : Prop :=
  ∃ hash now notice r, e.op = .credential (.completePasswordReset d hash now notice) ∧
    completePasswordReset w.store d hash now (w.clock + e.gap) notice = .ok r

def DeadVerification (w : World) (d : Digest) : Prop :=
  ∃ t, w.store.verificationTokens.find d = some t ∧ t.usedAt ≠ none

def DeadReset (w : World) (d : Digest) : Prop :=
  ∃ t, w.store.resetTokens.find d = some t ∧ ¬ t.live w.clock

variable {env : Casing} {w : World} {e : Event} {d : Digest}

theorem confirmEmail_dead (dead : DeadVerification w d) (now clock : Instant)
    (notice : EmailMessage) (proven : Option String) :
    confirmEmail env w.store d now clock notice proven = .error .neutral := by
  obtain ⟨t, found, used⟩ := dead
  simp [confirmEmail, found, VerificationTokenRow.live, used, Option.filter, orFail, bind,
    Except.bind]

theorem completePasswordReset_dead (dead : DeadReset w d) (gap : ℕ) (hash : String)
    (now : Instant) (notice : EmailMessage) :
    completePasswordReset w.store d hash now (w.clock + gap) notice = .error .neutral := by
  obtain ⟨t, found, dead⟩ := dead
  have late : ¬ t.live (max now (w.clock + gap)) := by
    intro live
    refine dead ⟨live.1, lt_of_le_of_lt ?_ live.2⟩
    exact le_max_of_le_right (le_add_of_nonneg_right (Int.natCast_nonneg gap))
  simp [completePasswordReset, found, late, Option.filter, orFail, bind, Except.bind]

theorem step_clock (w : World) (e : Event) : (step env w e).clock = w.clock + e.gap := by
  unfold step
  split <;> rfl

theorem step_account {u : UserId} (there : (w.store.users.find u).isSome) (e : Event) :
    ((step env w e).store.users.find u).isSome := by
  obtain ⟨gap, op⟩ := e
  cases op with
  | credential op => exact apply_account env _ op there
  | openSession v raw csrf now =>
    refine getD_rec (P := fun s => (s.users.find u).isSome) there ?_
    intro s' h
    obtain ⟨sessions, -, -, rfl⟩ := openSession_ok h
    exact there

theorem step_verification {t : VerificationTokenRow}
    (found : w.store.verificationTokens.find d = some t) (e : Event) :
    VerificationKept w.store d t (step env w e).store := by
  obtain ⟨gap, op⟩ := e
  cases op with
  | credential op => exact apply_verification env _ op found
  | openSession v raw csrf now =>
    refine getD_rec (P := VerificationKept w.store d t) ⟨t, found, .same rfl⟩ ?_
    intro s' h
    obtain ⟨sessions, -, -, rfl⟩ := openSession_ok h
    exact ⟨t, found, .same rfl⟩

theorem step_reset {t : ResetTokenRow} (found : w.store.resetTokens.find d = some t) (e : Event) :
    ResetKept (CoveredEvent env w e) w.store (w.clock + e.gap) d t (step env w e).store := by
  obtain ⟨gap, op⟩ := e
  cases op with
  | credential op => exact apply_reset env _ op found
  | openSession v raw csrf now =>
    refine getD_rec (P := ResetKept _ w.store (w.clock + gap) d t)
      ⟨t, found, .same fun _ differs => absurd rfl differs⟩ ?_
    intro s' h
    obtain ⟨sessions, -, -, rfl⟩ := openSession_ok h
    exact ⟨t, found, .same fun _ differs => absurd rfl differs⟩

theorem step_deadVerification (dead : DeadVerification w d) (e : Event) :
    DeadVerification (step env w e) d := by
  obtain ⟨t, found, used⟩ := dead
  obtain ⟨t', found', follows⟩ : VerificationKept w.store d t (step env w e).store :=
    step_verification found e
  exact ⟨t', found', follows.used used⟩

theorem step_deadReset (dead : DeadReset w d) (e : Event) : DeadReset (step env w e) d := by
  obtain ⟨t, found, dead⟩ := dead
  obtain ⟨t', found', follows⟩ : ResetKept (CoveredEvent env w e) w.store (w.clock + e.gap) d t
    (step env w e).store := step_reset found e
  refine ⟨t', found', fun live => dead ⟨?_, ?_⟩⟩
  · by_contra used
    exact follows.used used live.1
  · have later := live.2
    rw [follows.expires, step_clock] at later
    have gap : (0 : ℤ) ≤ e.gap := by omega
    linarith

theorem run_deadVerification (dead : DeadVerification w d) (events : List Event) :
    DeadVerification (run (step env) w events) d :=
  run_invariant (I := fun w => DeadVerification w d)
    (fun _ e dead _ => step_deadVerification dead e) dead (along_true w events)

theorem run_deadReset (dead : DeadReset w d) (events : List Event) :
    DeadReset (run (step env) w events) d :=
  run_invariant (I := fun w => DeadReset w d) (fun _ e dead _ => step_deadReset dead e) dead
    (along_true w events)

/-- A token that an event redeems is dead after it. -/
theorem redeemed_deadVerification (h : RedeemsVerification env w e d) :
    DeadVerification (step env w e) d := by
  obtain ⟨now, notice, proven, ⟨r, s'⟩, op, done⟩ := h
  have store : (step env w e).store = s' := by
    simp only [step, op, apply, done, commit]
  obtain ⟨row, user, email, found, live, account, -, -, -, -, eq⟩ := confirmEmail_ok done
  have key : row.tokenHash = d := (Table.find_eq_some.mp found).2
  have owner : row.userId = user.id := (Table.find_eq_some.mp account).2.symm
  refine ⟨{ row with usedAt := some now }, ?_, by simp⟩
  rw [store, eq, find_retireVerificationTokens]
  simp [consumeVerification, found, key, owner, live, VerificationTokenRow.retire]

theorem redeemed_deadReset (h : RedeemsReset w e d) : DeadReset (step env w e) d := by
  obtain ⟨hash, now, notice, ⟨m, s'⟩, op, done⟩ := h
  have store : (step env w e).store = s' := by
    simp only [step, op, apply, done, commit]
  obtain ⟨row, user, found, live, account, -, -, eq⟩ := completePasswordReset_ok done
  have key : row.tokenHash = d := (Table.find_eq_some.mp found).2
  have owner : row.userId = user.id := (Table.find_eq_some.mp account).2.symm
  refine ⟨{ row with usedAt := some now }, ?_, by simp [ResetTokenRow.live]⟩
  rw [store, eq, find_retireResetTokens]
  simp [consumeReset, found, key, owner, live, ResetTokenRow.retire]

theorem dead_not_redeemed (dead : DeadVerification w d) : ¬ RedeemsVerification env w e d := by
  rintro ⟨now, notice, proven, r, -, done⟩
  rw [confirmEmail_dead dead] at done
  cases done

theorem deadReset_not_redeemed (dead : DeadReset w d) : ¬ RedeemsReset w e d := by
  rintro ⟨hash, now, notice, r, -, done⟩
  rw [completePasswordReset_dead dead] at done
  cases done

/-- What a run keeps of a verification token of the account `u`: it is there, and it is used or
the account has the credentials it had. -/
def VerificationBound (d : Digest) (u : UserId) (s : AuthStore) (w : World) : Prop :=
  (w.store.users.find u).isSome ∧ ∃ t, w.store.verificationTokens.find d = some t ∧
    t.userId = u ∧ (t.usedAt ≠ none ∨ credentials w.store u = credentials s u)

theorem step_verificationBound {u : UserId} {s : AuthStore} (h : VerificationBound d u s w)
    (e : Event) : VerificationBound d u s (step env w e) := by
  obtain ⟨there, t, found, rfl, state⟩ := h
  obtain ⟨t', found', follows⟩ : VerificationKept w.store d t (step env w e).store :=
    step_verification found e
  refine ⟨step_account there e, t', found', follows.user, ?_⟩
  rcases state with used | same
  · exact .inl (follows.used used)
  · by_cases kept : credentials (step env w e).store t.userId = credentials w.store t.userId
    · exact .inr (kept.trans same)
    · exact .inl (follows.spent there kept)

def ResetBound (d : Digest) (u : UserId) (s : AuthStore) (w : World) : Prop :=
  (w.store.users.find u).isSome ∧ ∃ t, w.store.resetTokens.find d = some t ∧
    t.userId = u ∧ (¬ t.live w.clock ∨ credentials w.store u = credentials s u)

theorem step_resetBound {u : UserId} {s : AuthStore} (h : ResetBound d u s w) {e : Event}
    (covered : CoveredEvent env w e) : ResetBound d u s (step env w e) := by
  obtain ⟨there, t, found, rfl, state⟩ := h
  obtain ⟨t', found', follows⟩ : ResetKept (CoveredEvent env w e) w.store (w.clock + e.gap) d t
    (step env w e).store := step_reset found e
  refine ⟨step_account there e, t', found', follows.user, ?_⟩
  rcases state with dead | same
  · obtain ⟨t'', found'', dead'⟩ : DeadReset (step env w e) d :=
      step_deadReset ⟨t, found, dead⟩ e
    obtain rfl : t' = t'' := Option.some.inj (found'.symm.trans found'')
    exact .inl dead'
  · by_cases kept : credentials (step env w e).store t.userId = credentials w.store t.userId
    · exact .inr (kept.trans same)
    · left
      rw [step_clock]
      exact follows.spent covered there kept

/-- After any run `before`, a token is redeemed once at most. A verification token is dead as
soon as the credentials of its account differ from those it was found under, and a reset token
too if the events in `between` are covered: whatever comes in `after`, using it then changes
nothing. -/
theorem links_die_with_their_state (env : Casing) (w : World)
    (before between after : List Event) :
    let issued := run (step env) w before
    let changed := run (step env) issued between
    let later := run (step env) changed after
    (∀ d e e', RedeemsVerification env issued e d →
      ¬ RedeemsVerification env (run (step env) w (before ++ e :: between)) e' d) ∧
    (∀ d e e', RedeemsReset issued e d →
      ¬ RedeemsReset (run (step env) w (before ++ e :: between)) e' d) ∧
    (∀ d t, issued.store.verificationTokens.find d = some t →
      (issued.store.users.find t.userId).isSome →
      credentials changed.store t.userId ≠ credentials issued.store t.userId →
      ∀ gap now notice proven,
        (step env later ⟨gap, .credential (.confirmEmail d now notice proven)⟩).store =
          later.store) ∧
    (Along (step env) (CoveredEvent env) issued between →
      ∀ d t, issued.store.resetTokens.find d = some t →
        (issued.store.users.find t.userId).isSome →
        credentials changed.store t.userId ≠ credentials issued.store t.userId →
        ∀ gap hash now notice,
          (step env later ⟨gap, .credential (.completePasswordReset d hash now notice)⟩).store =
            later.store) := by
  intro issued changed later
  have resumed : ∀ e, run (step env) w (before ++ e :: between) =
      run (step env) (step env issued e) between := by
    intro e
    rw [run_append]
    rfl
  refine ⟨?_, ?_, ?_, ?_⟩
  · intro d e e' redeemed
    rw [resumed]
    exact dead_not_redeemed (run_deadVerification (redeemed_deadVerification redeemed) between)
  · intro d e e' redeemed
    rw [resumed]
    exact deadReset_not_redeemed (run_deadReset (redeemed_deadReset redeemed) between)
  · intro d t found there differs gap now notice proven
    have bound : VerificationBound d t.userId issued.store changed :=
      run_invariant (I := VerificationBound d t.userId issued.store)
        (fun _ e h _ => step_verificationBound h e) ⟨there, t, found, rfl, .inr rfl⟩
        (along_true issued between)
    obtain ⟨-, t', found', -, used | same⟩ := bound
    · have dead : DeadVerification later d := run_deadVerification ⟨t', found', used⟩ after
      show commit later.store (confirmEmail env later.store d now _ notice proven) = later.store
      rw [confirmEmail_dead dead]
      rfl
    · exact absurd same differs
  · intro covered d t found there differs gap hash now notice
    have bound : ResetBound d t.userId issued.store changed :=
      run_invariant (I := ResetBound d t.userId issued.store)
        (fun _ e h covered => step_resetBound h covered) ⟨there, t, found, rfl, .inr rfl⟩ covered
    obtain ⟨-, t', found', -, dead | same⟩ := bound
    · have dead : DeadReset later d := run_deadReset ⟨t', found', dead⟩ after
      show commit later.store (completePasswordReset later.store d hash now (later.clock + gap)
        notice) = later.store
      rw [completePasswordReset_dead dead]
      rfl
    · exact absurd same differs

def credential (op : CredentialOp) : Event := ⟨1, .credential op⟩

/-- Ada asks for a reset link, and for a link that makes another address hers. -/
def linked : List Event :=
  activation.map credential ++ [credential (.issueReset 1 21 0 ⟨"ada@bikes.org", 1, .en, .resetPassword none⟩),
    credential (.issueVerification 1 "ada@racks.org" 12 0 .active
      ⟨"ada@racks.org", 1, .en, .confirmEmailChange none⟩)]

def start : World := ⟨empty, 0⟩

/-- A suspension kills both links. -/
theorem suspension_kills_links :
    let later := run (step asciiCasing) start (linked ++ [credential (.suspendByAdmin 1)])
    (∀ gap now notice proven, (step asciiCasing later
      ⟨gap, .credential (.confirmEmail 12 now notice proven)⟩).store = later.store) ∧
    ∀ gap hash now notice, (step asciiCasing later
      ⟨gap, .credential (.completePasswordReset 21 hash now notice)⟩).store = later.store := by
  have covered : Along (step asciiCasing) (CoveredEvent asciiCasing)
      (run (step asciiCasing) start linked) [credential (.suspendByAdmin 1)] :=
    ⟨trivial, trivial⟩
  obtain ⟨-, -, verification, reset⟩ := links_die_with_their_state asciiCasing start linked
    [credential (.suspendByAdmin 1)] []
  intro later
  constructor
  · exact verification 12 ⟨12, 1, "ada@racks.org", hours 24, none⟩ (by decide +kernel)
      (by decide +kernel) (by decide +kernel)
  · exact reset covered 21 ⟨21, 1, hours 1, none⟩ (by decide +kernel) (by decide +kernel)
      (by decide +kernel)

/-- The reset link that went to the old address still sets the password after the address has
changed. -/
theorem reset_link_survives_address_change :
    let issued := run (step asciiCasing) start linked
    let changed := step asciiCasing issued (credential (.confirmEmail 12 0
      ⟨"ada@bikes.org", 1, .en, .emailAddressChanged⟩ none))
    let redeemed := step asciiCasing changed (credential (.completePasswordReset 21 "second hash" 0
      ⟨"ada@racks.org", 1, .en, .passwordChanged⟩))
    issued.store.resetTokens.find 21 = some ⟨21, 1, hours 1, none⟩ ∧
      (issued.store.users.find 1).map (·.email) = some "ada@bikes.org" ∧
      (changed.store.users.find 1).map (·.email) = some "ada@racks.org" ∧
      passwordHash changed.store 1 = some (some "first hash") ∧
      passwordHash redeemed.store 1 = some (some "second hash") := by
  decide +kernel

end CredentialLinks
