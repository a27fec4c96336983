import BikesNest.CredentialOps
import BikesNest.Policies
import BikesNest.Runs

/-! The acceptance of the terms that a registration names, between releases of new terms: what a
committing registration was checked against, and the acknowledgement it leaves. -/

namespace TermsProof

open Parking Credentials AuthOutbox Policies Runs CredentialOps

inductive TermsEvent where
  | register (fresh : UserId) (new : NewAccount) (token : Digest) (now clock : Instant)
      (message : EmailMessage) (terms : Option TermsAcceptance)
  | release (numbered : List (ℕ × SeedPolicyDocument))

def publish (s : AuthStore) (numbered : List (ℕ × SeedPolicyDocument)) : AuthStore :=
  match seedPolicyRelease s.policies numbered with
  | .ok policies => { s with policies := policies }
  | .error _ => s

def apply (env : Casing) (s : AuthStore) : TermsEvent → AuthStore
  | .register fresh new token now clock message terms =>
    commit s (register env s fresh new token now clock message terms)
  | .release numbered => publish s numbered

variable {env : Casing} {s s' : AuthStore} {new : NewAccount} {token : Digest}
  {now clock : Instant} {message m : EmailMessage} {fresh : UserId}

theorem register_policies {terms : Option TermsAcceptance}
    (h : register env s fresh new token now clock message terms = .ok (m, s')) :
    s'.policies = s.policies := by
  unfold register at h
  split at h
  · obtain ⟨_, _, -, -, -, -, -, rfl⟩ := registerAgain_ok h
    rfl
  · obtain ⟨_, _, _, _, -, -, -, -, -, -, rfl⟩ := registerNew_ok h
    rfl

theorem publish_scheduled {numbered : List (ℕ × SeedPolicyDocument)}
    (scheduled : Scheduled s.policies) : Scheduled (publish s numbered).policies := by
  unfold publish
  split
  · rename_i policies released
    exact seedPolicyRelease_keeps scheduled released
  · exact scheduled

theorem publish_acknowledgements {numbered : List (ℕ × SeedPolicyDocument)} :
    (publish s numbered).acknowledgements = s.acknowledgements := by
  unfold publish
  split <;> rfl

theorem apply_scheduled (s : AuthStore) (e : TermsEvent) (scheduled : Scheduled s.policies) :
    Scheduled (apply env s e).policies := by
  cases e with
  | register fresh new token now clock message terms =>
    refine commit_rec (P := fun s' => Scheduled s'.policies) scheduled ?_
    intro m s' h
    exact register_policies h ▸ scheduled
  | release numbered => exact publish_scheduled scheduled

/-- A re-registration of an address leaves the acknowledgements alone. -/
theorem registerAgain_acknowledgements {terms : Option TermsAcceptance}
    (h : registerAgain s new token now clock message terms = .ok (m, s')) :
    s'.acknowledgements = s.acknowledgements := by
  obtain ⟨_, _, -, -, -, -, -, rfl⟩ := registerAgain_ok h
  rfl

/-- An acknowledgement that is there stays there. -/
theorem register_acknowledgement {terms : Option TermsAcceptance} {k : UserId × String}
    {row : AcknowledgementRow} (there : s.acknowledgements.find k = some row)
    (h : register env s fresh new token now clock message terms = .ok (m, s')) :
    s'.acknowledgements.find k = some row := by
  unfold register at h
  split at h
  · exact registerAgain_acknowledgements h ▸ there
  · obtain ⟨_, _, _, acknowledgements, -, -, -, -, -, recorded, rfl⟩ := registerNew_ok h
    cases terms with
    | none => exact recorded ▸ there
    | some t => exact Table.find_insert_of_find recorded there

theorem apply_acknowledgement (s : AuthStore) (e : TermsEvent) {k : UserId × String}
    {row : AcknowledgementRow} (there : s.acknowledgements.find k = some row) :
    (apply env s e).acknowledgements.find k = some row := by
  cases e with
  | register fresh new token now clock message terms =>
    refine commit_rec (P := fun s' => s'.acknowledgements.find k = some row) there ?_
    intro m s' h
    exact register_acknowledgement there h
  | release numbered => exact publish_acknowledgements (s := s) ▸ there

theorem run_acknowledgement (events : List TermsEvent) {k : UserId × String}
    {row : AcknowledgementRow} (there : s.acknowledgements.find k = some row) :
    (run (apply env) s events).acknowledgements.find k = some row :=
  run_invariant (I := fun s => s.acknowledgements.find k = some row)
    (fun s e there _ => apply_acknowledgement s e there) there (along_true s events)

/-- The terms that a registration holds to are the ones that the reader serves. -/
theorem termsHold_current {t : TermsAcceptance} (scheduled : Scheduled s.policies)
    (holds : TermsHold s (some t) clock) :
    ∃ p, current s.policies .terms t.shownLocale clock = some p ∧
      p.id = t.policyVersionId ∧ p.version = t.version := by
  obtain ⟨p, found, kind, key, version, locale, force⟩ := holds t rfl
  refine ⟨p, ?_, key, version⟩
  rw [← kind, ← locale]
  exact scheduled.current_eq (Table.find_eq_some.mp found).1 force

theorem register_termsHold {terms : Option TermsAcceptance}
    (h : register env s fresh new token now clock message terms = .ok (m, s')) :
    TermsHold s terms clock := by
  unfold register at h
  split at h
  · obtain ⟨_, _, -, holds, -⟩ := registerAgain_ok h
    exact holds
  · obtain ⟨_, _, _, _, -, holds, -⟩ := registerNew_ok h
    exact holds

/-- What a first registration acknowledges. -/
theorem registerNew_acknowledgement {t : TermsAcceptance}
    (h : registerNew s fresh new token now clock message (some t) = .ok (m, s')) :
    s'.acknowledgements.find (m.accountId, t.version) =
      some ⟨m.accountId, t.policyVersionId, t.version, t.shownLocale, clock, .signup⟩ := by
  rw [registerNew_accountId h]
  obtain ⟨_, _, _, acknowledgements, -, -, -, -, -, recorded, rfl⟩ := registerNew_ok h
  exact (Table.find_insert recorded _).trans (if_pos rfl)

/-- In every interleaving of registrations and releases, a registration that commits names the
terms in force, a first one leaves its acknowledgement for good, and one that replaces a pending
credential leaves the acknowledgements as they were. -/
theorem acceptance_names_current_terms (env : Casing) (s : AuthStore)
    (scheduled : Scheduled s.policies) (before after : List TermsEvent) (fresh : UserId)
    (new : NewAccount) (token : Digest) (now clock : Instant) (message m : EmailMessage)
    (t : TermsAcceptance) (s' : AuthStore)
    (committed : register env (run (apply env) s before) fresh new token now clock message
      (some t) = .ok (m, s')) :
    (∃ p, current (run (apply env) s before).policies .terms t.shownLocale clock = some p ∧
      p.id = t.policyVersionId ∧ p.version = t.version) ∧
    (addressTaken env (run (apply env) s before) new.email.text = false →
      (run (apply env) s' after).acknowledgements.find (m.accountId, t.version) =
        some ⟨m.accountId, t.policyVersionId, t.version, t.shownLocale, clock, .signup⟩) ∧
    (addressTaken env (run (apply env) s before) new.email.text = true →
      s'.acknowledgements = (run (apply env) s before).acknowledgements) := by
  have held : Scheduled (run (apply env) s before).policies :=
    run_invariant (I := fun s => Scheduled s.policies)
      (fun s e scheduled _ => apply_scheduled s e scheduled) scheduled (along_true s before)
  refine ⟨termsHold_current held (register_termsHold committed), ?_, ?_⟩
  · intro free
    rw [register, if_neg (by simp [free])] at committed
    exact run_acknowledgement after (registerNew_acknowledgement committed)
  · intro taken
    rw [register, if_pos taken] at committed
    exact registerAgain_acknowledgements committed

/-- A release of all the pages under one version, at a whole microsecond. -/
def sampleRelease (first : ℕ) (version : String) (effectiveAt : Instant) :
    List (ℕ × SeedPolicyDocument) :=
  [(first, ⟨.privacy, "pt-BR", version, ofTimestamp effectiveAt, "", false⟩),
    (first + 1, ⟨.privacy, "en", version, ofTimestamp effectiveAt, "", false⟩),
    (first + 2, ⟨.terms, "pt-BR", version, ofTimestamp effectiveAt, "", false⟩),
    (first + 3, ⟨.terms, "en", version, ofTimestamp effectiveAt, "", false⟩),
    (first + 4, ⟨.cookies, "pt-BR", version, ofTimestamp effectiveAt, "", false⟩),
    (first + 5, ⟨.cookies, "en", version, ofTimestamp effectiveAt, "", false⟩)]

def sampleMessage : EmailMessage := ⟨"ada@bikes.org", 0, .en, .verifyEmail none⟩

/-- Ada's first registration, under the first terms. -/
def signup : TermsEvent :=
  .register 1 sampleAccount 11 5 5 sampleMessage (some ⟨4, "2026.1", "en"⟩)

theorem acceptance_names_current_terms_signup :
    ∃ m s', register asciiCasing (run (apply asciiCasing) empty
        [.release (sampleRelease 1 "2026.1" 0)]) 1 sampleAccount 11 5 5 sampleMessage
        (some ⟨4, "2026.1", "en"⟩) = .ok (m, s') ∧
      (run (apply asciiCasing) s' [.release (sampleRelease 7 "2026.2" 10)]).acknowledgements.find
        (m.accountId, "2026.1") = some ⟨m.accountId, 4, "2026.1", "en", 5, .signup⟩ := by
  obtain ⟨⟨m, s'⟩, registered⟩ := Option.isSome_iff_exists.mp (show ((register asciiCasing
    (run (apply asciiCasing) empty [.release (sampleRelease 1 "2026.1" 0)]) 1 sampleAccount 11 5 5
      sampleMessage (some ⟨4, "2026.1", "en"⟩)).toOption).isSome = true by decide +kernel)
  have committed := Outcome.toOption_eq_some.mp registered
  refine ⟨m, s', committed, ?_⟩
  exact (acceptance_names_current_terms _ _ scheduled_empty [.release (sampleRelease 1 "2026.1" 0)]
    [.release (sampleRelease 7 "2026.2" 10)] _ _ _ _ _ _ _ ⟨4, "2026.1", "en"⟩ _ committed).2.1
    (by decide +kernel)

/-- Ada tries again under the second terms: her credential is replaced, the acceptance of the
second terms is written nowhere. -/
theorem second_acceptance_unrecorded :
    (register asciiCasing (run (apply asciiCasing) empty
        [.release (sampleRelease 1 "2026.1" 0), signup, .release (sampleRelease 7 "2026.2" 10)])
      2 { sampleAccount with passwordHash := "second hash" } 12 15 15 sampleMessage
      (some ⟨10, "2026.2", "en"⟩)).toOption.map (fun r =>
        (r.1.accountId, passwordHash r.2 1, r.2.acknowledgements.find (1, "2026.2"))) =
      some (1, some (some "second hash"), none) := by
  decide +kernel

end TermsProof
