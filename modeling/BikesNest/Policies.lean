import BikesNest.Credentials

/-! The versioned legal pages: how a release of six documents goes in, and which document the
reader serves. Both are one transaction under the lock of the releases. The process counts time
in nanoseconds and the table in microseconds, both from the epoch of the table. -/

namespace Policies

open Parking Schema Credentials Outcome

abbrev PolicyTable := Table ℕ PolicyRow PolicyRow.id

abbrev Nanos := ℤ

/-- What the driver sends of a time: the part under a microsecond is cut off. -/
def toTimestamp (t : Nanos) : Instant := t.tdiv 1000

/-- The time that the driver reads back. -/
def ofTimestamp (t : Instant) : Nanos := t * 1000

/-- The timestamps that the database has. -/
def timestampOk (t : Instant) : Bool :=
  decide (-211813488000000000 ≤ t ∧ t < 9223371331200000000)

structure SeedPolicyDocument where
  kind : PolicyKind
  locale : String
  version : String
  effectiveAt : Nanos
  content : String
  requiresAcknowledgement : Bool
  deriving DecidableEq

def policyLocales : List String := ["pt-BR", "en"]

/-- The rows of one page in one language. -/
def ofSeries (kind : PolicyKind) (locale : String) (p : PolicyRow) : Bool :=
  decide (p.kind = kind ∧ p.locale = locale)

/-- The rows that a document takes over from. -/
def SeedPolicyDocument.follows (d : SeedPolicyDocument) (p : PolicyRow) : Bool :=
  ofSeries d.kind d.locale p && p.supersededAt.isNone

def SeedPolicyDocument.row (d : SeedPolicyDocument) (id : ℕ) : PolicyRow :=
  ⟨id, d.kind, d.locale, d.version, toTimestamp d.effectiveAt, none, d.content,
    d.requiresAcknowledgement⟩

/-- `preserve_policy_version_identity` -/
def admitsUpdate (old new : PolicyRow) : Bool :=
  decide (new.id = old.id ∧ new.kind = old.kind ∧ new.locale = old.locale ∧
    new.version = old.version ∧ new.effectiveAt = old.effectiveAt ∧ new.content = old.content ∧
    new.requiresAcknowledgement = old.requiresAcknowledgement ∧ old.supersededAt = none) &&
  new.supersededAt.any fun e => decide (old.effectiveAt < e)

/-- What is open in the series of a document ends where the document begins. -/
def SeedPolicyDocument.close (d : SeedPolicyDocument) (p : PolicyRow) : PolicyRow :=
  { p with supersededAt := some (toTimestamp d.effectiveAt) }

/-- The guard of one turn of the loop that publishes a release. -/
def guardOrder (policies : PolicyTable) (d : SeedPolicyDocument) : Except PrivacyError Unit :=
  ensure (policies.count d.follows ≤ 1 ∧ ∀ p ∈ policies.rows, ofSeries d.kind d.locale p →
    ofTimestamp p.effectiveAt < d.effectiveAt) .conflict

def supersede (policies : PolicyTable) (d : SeedPolicyDocument) :
    Except PrivacyError PolicyTable := do
  ensure (timestampOk (toTimestamp d.effectiveAt)) .internal
  ensure (∀ p ∈ policies.rows, d.follows p → admitsUpdate p (d.close p)) .internal
  pure (policies.update d.follows d.close fun _ => rfl)

def insertPolicy (policies : PolicyTable) (id : ℕ) (d : SeedPolicyDocument) :
    Except PrivacyError PolicyTable := do
  ensure (textOk d.content) .internal
  ensure (d.requiresAcknowledgement = true → d.kind = .terms)
    (.invalidField "policy_version_ack_terms_only")
  ensure (∀ p ∈ policies.rows, ofSeries d.kind d.locale p →
    p.version ≠ d.version ∧ p.effectiveAt ≠ toTimestamp d.effectiveAt) .conflict
  orFail (policies.insert (d.row id)) .conflict

/-- One turn of the loop that publishes a release. -/
def install (policies : PolicyTable) (numbered : ℕ × SeedPolicyDocument) :
    Except PrivacyError PolicyTable := do
  let (id, d) := numbered
  guardOrder policies d
  let policies ← supersede policies d
  insertPolicy policies id d

/-- What a release has to be before the table is looked at. -/
def checkRelease (documents : List SeedPolicyDocument) : Except PrivacyError Unit := do
  ensure (documents.length = 6)
    (.invalidField "a policy release must contain all six kind/locale documents")
  ensure (∀ first ∈ documents.head?, ∀ d ∈ documents, d.version = first.version ∧
      d.effectiveAt = first.effectiveAt ∧ (d.requiresAcknowledgement = true → d.kind = .terms))
    (.invalidField "incoherent policy release")
  ensure (∀ kind ∈ [PolicyKind.privacy, .terms, .cookies], ∀ locale ∈ policyLocales,
      documents.countP (fun d => decide (d.kind = kind ∧ d.locale = locale)) = 1)
    (.invalidField "duplicate or missing policy kind/locale")
  let material : List Bool := (documents.filter fun d => decide (d.kind = .terms)).map
    SeedPolicyDocument.requiresAcknowledgement
  ensure (material.length = 2 ∧ material[0]? = (material[1]? : Option Bool))
    (.invalidField "terms material flag must match across locales")

/-- The row under the version of a document. -/
def existing (policies : PolicyTable) (d : SeedPolicyDocument) : Option PolicyRow :=
  policies.rows.find? fun p => ofSeries d.kind d.locale p && decide (p.version = d.version)

def SeedPolicyDocument.Agrees (d : SeedPolicyDocument) (p : PolicyRow) : Prop :=
  ofTimestamp p.effectiveAt = d.effectiveAt ∧ p.content = d.content ∧
    p.requiresAcknowledgement = d.requiresAcknowledgement

instance (d : SeedPolicyDocument) (p : PolicyRow) : Decidable (d.Agrees p) :=
  inferInstanceAs (Decidable (_ ∧ _ ∧ _))

/-- Each document comes with the id that the sequence of the table gives it. -/
def seedPolicyRelease (policies : PolicyTable) (numbered : List (ℕ × SeedPolicyDocument)) :
    Except PrivacyError PolicyTable := do
  let documents := numbered.map Prod.snd
  checkRelease documents
  ensure (∀ d ∈ documents, textOk d.version) .internal
  ensure (∀ d ∈ documents, ∀ p ∈ existing policies d, d.Agrees p) .conflict
  let replayed := documents.countP fun d => (existing policies d).isSome
  if replayed = documents.length then pure policies
  else do
    ensure (replayed = 0) .conflict
    numbered.foldlM install policies

def PolicyRow.inForce (p : PolicyRow) (clock : Instant) : Prop :=
  p.effectiveAt ≤ clock ∧ ∀ e ∈ p.supersededAt, clock < e

instance (p : PolicyRow) (clock : Instant) : Decidable (PolicyRow.inForce p clock) :=
  inferInstanceAs (Decidable (_ ∧ ∀ e ∈ p.supersededAt, clock < e))

/-- The documents of a series that are in force, the latest first. -/
def inForce (policies : PolicyTable) (kind : PolicyKind) (locale : String) (clock : Instant) :
    List PolicyRow :=
  (policies.rows.filter fun p => ofSeries kind locale p && decide (PolicyRow.inForce p clock))
    |>.insertionSort fun p q => q.effectiveAt ≤ p.effectiveAt

/-- The document that the reader serves. -/
def current (policies : PolicyTable) (kind : PolicyKind) (locale : String) (clock : Instant) :
    Option PolicyRow :=
  (inForce policies kind locale clock).head?

/-! Every release takes over from the one before it, so the documents of a series are in force
one after the other. -/

def SameSeries (p q : PolicyRow) : Prop := p.kind = q.kind ∧ p.locale = q.locale

theorem ofSeries_iff {kind : PolicyKind} {locale : String} {p : PolicyRow} :
    ofSeries kind locale p = true ↔ p.kind = kind ∧ p.locale = locale := by
  simp [ofSeries]

/-- `p` was superseded by the time `q` took effect. -/
def PolicyRow.before (p q : PolicyRow) : Prop := ∃ e ∈ p.supersededAt, e ≤ q.effectiveAt

structure Scheduled (policies : PolicyTable) : Prop where
  /-- Whatever superseded a document is there. -/
  successor : ∀ p ∈ policies, ∀ e ∈ p.supersededAt,
    ∃ q ∈ policies, SameSeries p q ∧ e ≤ q.effectiveAt
  successive : ∀ p ∈ policies, ∀ q ∈ policies, SameSeries p q → p.id ≠ q.id →
    PolicyRow.before p q ∨ PolicyRow.before q p

theorem scheduled_empty : Scheduled .empty :=
  ⟨fun p hp => absurd hp (Table.not_mem_empty p), fun p hp => absurd hp (Table.not_mem_empty p)⟩

/-- Two documents of one series are never in force at once. -/
theorem Scheduled.unique {policies : PolicyTable} {clock : Instant} {p q : PolicyRow}
    (scheduled : Scheduled policies) (hp : p ∈ policies) (hq : q ∈ policies)
    (same : SameSeries p q) (pForce : PolicyRow.inForce p clock)
    (qForce : PolicyRow.inForce q clock) : p = q := by
  by_contra different
  have apart : p.id ≠ q.id := fun h => different (Table.eq_of_key_eq hp hq h)
  rcases scheduled.successive p hp q hq same apart with ⟨e, he, ended⟩ | ⟨e, he, ended⟩
  · exact absurd (pForce.2 e he) (not_lt.mpr (ended.trans qForce.1))
  · exact absurd (qForce.2 e he) (not_lt.mpr (ended.trans pForce.1))

theorem mem_inForce {policies : PolicyTable} {kind : PolicyKind} {locale : String}
    {clock : Instant} {p : PolicyRow} : p ∈ inForce policies kind locale clock ↔
      p ∈ policies ∧ (p.kind = kind ∧ p.locale = locale) ∧ PolicyRow.inForce p clock := by
  rw [inForce, (List.perm_insertionSort _ _).mem_iff]
  simp [ofSeries_iff, Table.mem_rows]

/-- The reader serves the document in force. -/
theorem Scheduled.current_eq {policies : PolicyTable} {clock : Instant} {p : PolicyRow}
    (scheduled : Scheduled policies) (hp : p ∈ policies) (force : PolicyRow.inForce p clock) :
    current policies p.kind p.locale clock = some p := by
  have present := mem_inForce.mpr ⟨hp, ⟨rfl, rfl⟩, force⟩
  unfold current
  cases served : inForce policies p.kind p.locale clock with
  | nil =>
    rw [served] at present
    cases present
  | cons q rest =>
    obtain ⟨hq, same, qForce⟩ := mem_inForce.mp (served ▸ List.mem_cons_self)
    rw [List.head?_cons, scheduled.unique hq hp same qForce force]

/-- What a document makes of the rows that are there. -/
def SeedPolicyDocument.retire (d : SeedPolicyDocument) (p : PolicyRow) : PolicyRow :=
  if d.follows p then d.close p else p

variable {policies policies' : PolicyTable} {d : SeedPolicyDocument} {id : ℕ} {p q : PolicyRow}

theorem retire_fields : (d.retire p).id = p.id ∧ (d.retire p).kind = p.kind ∧
    (d.retire p).locale = p.locale ∧ (d.retire p).effectiveAt = p.effectiveAt := by
  unfold SeedPolicyDocument.retire
  split <;> exact ⟨rfl, rfl, rfl, rfl⟩

theorem retire_supersededAt {e : Instant} : e ∈ (d.retire p).supersededAt ↔
    e ∈ p.supersededAt ∨ p.supersededAt = none ∧ p.kind = d.kind ∧ p.locale = d.locale ∧
      e = toTimestamp d.effectiveAt := by
  unfold SeedPolicyDocument.retire SeedPolicyDocument.follows
  cases ended : p.supersededAt with
  | none =>
    by_cases series : ofSeries d.kind d.locale p = true
    · obtain ⟨kind, locale⟩ := ofSeries_iff.mp series
      simp [series, SeedPolicyDocument.close, kind, locale, eq_comm]
    · have other := mt ofSeries_iff.mpr series
      simp only [series, Bool.false_and, Bool.false_eq_true, if_false, ended, Option.not_mem_none,
        false_or, true_and, false_iff]
      exact fun ⟨kind, locale, _⟩ => other ⟨kind, locale⟩
  | some e' => simp [ended]

theorem le_tdiv {m n : ℤ} (h : m * 1000 ≤ n) : m ≤ n.tdiv 1000 := by
  rw [Int.tdiv_eq_ediv, show Int.sign 1000 = 1 from rfl]
  split <;> omega

/-- The cut keeps the order of the times. -/
theorem le_toTimestamp {t : Instant} {n : Nanos} (h : ofTimestamp t < n) : t ≤ toTimestamp n :=
  le_tdiv h.le

theorem guardOrder_ok : guardOrder policies d = .ok () ↔ policies.count d.follows ≤ 1 ∧
    ∀ p ∈ policies, p.kind = d.kind → p.locale = d.locale →
      ofTimestamp p.effectiveAt < d.effectiveAt := by
  simp only [guardOrder, ensure_ok, ofSeries_iff, and_imp, Table.mem_rows]

theorem supersede_ok : supersede policies d = .ok policies' ↔
    timestampOk (toTimestamp d.effectiveAt) = true ∧
      (∀ p ∈ policies, d.follows p = true → admitsUpdate p (d.close p) = true) ∧
      policies.update d.follows d.close (fun _ => rfl) = policies' := by
  simp only [supersede, bind_ok, ensure_ok, pure_ok, exists_const, Table.mem_rows]

theorem insertPolicy_ok : insertPolicy policies id d = .ok policies' ↔
    textOk d.content = true ∧ (d.requiresAcknowledgement = true → d.kind = .terms) ∧
      (∀ p ∈ policies, p.kind = d.kind → p.locale = d.locale →
        p.version ≠ d.version ∧ p.effectiveAt ≠ toTimestamp d.effectiveAt) ∧
      policies.insert (d.row id) = some policies' := by
  simp only [insertPolicy, bind_ok, ensure_ok, orFail_ok, exists_const, ofSeries_iff, and_imp,
    Table.mem_rows]

theorem mem_supersede : q ∈ policies.update d.follows d.close (fun _ => rfl) ↔
    ∃ p ∈ policies, d.retire p = q := Table.mem_update

theorem install_ok (h : install policies (id, d) = .ok policies') :
    (∀ p ∈ policies, p.kind = d.kind → p.locale = d.locale →
      p.effectiveAt ≤ toTimestamp d.effectiveAt) ∧
      ∀ q, q ∈ policies' ↔ (∃ p ∈ policies, d.retire p = q) ∨ q = d.row id := by
  simp only [install, bind_ok] at h
  obtain ⟨⟨⟩, guarded, closed, superseded, inserted⟩ := h
  obtain ⟨-, -, rfl⟩ := supersede_ok.mp superseded
  obtain ⟨-, -, -, inserted⟩ := insertPolicy_ok.mp inserted
  constructor
  · intro p hp kind locale
    exact le_toTimestamp ((guardOrder_ok.mp guarded).2 p hp kind locale)
  · intro q
    rw [Table.mem_insert inserted, mem_supersede]

/-- An older document of the series ends before the new one begins. -/
theorem retire_before (scheduled : Scheduled policies) (hp : p ∈ policies)
    (later : ∀ p ∈ policies, p.kind = d.kind → p.locale = d.locale →
      p.effectiveAt ≤ toTimestamp d.effectiveAt)
    (same : SameSeries (d.retire p) (d.row id)) : PolicyRow.before (d.retire p) (d.row id) := by
  obtain ⟨-, kind, locale, -⟩ := retire_fields (d := d) (p := p)
  have series : p.kind = d.kind ∧ p.locale = d.locale :=
    ⟨kind.symm.trans same.1, locale.symm.trans same.2⟩
  cases ended : p.supersededAt with
  | none =>
    exact ⟨toTimestamp d.effectiveAt,
      retire_supersededAt.mpr (.inr ⟨ended, series.1, series.2, rfl⟩), le_rfl⟩
  | some e =>
    obtain ⟨q, hq, near, le⟩ := scheduled.successor p hp e ended
    have first := later q hq (near.1.symm.trans series.1) (near.2.symm.trans series.2)
    exact ⟨e, retire_supersededAt.mpr (.inl ended), le.trans first⟩

theorem install_keeps {numbered : ℕ × SeedPolicyDocument} (scheduled : Scheduled policies)
    (h : install policies numbered = .ok policies') : Scheduled policies' := by
  obtain ⟨id, d⟩ := numbered
  obtain ⟨later, rows⟩ := install_ok h
  constructor
  · intro q hq e he
    rcases (rows q).mp hq with ⟨p, hp, rfl⟩ | rfl
    · obtain ⟨-, kind, locale, -⟩ := retire_fields (d := d) (p := p)
      rcases retire_supersededAt.mp he with old | ⟨-, ofKind, ofLocale, rfl⟩
      · obtain ⟨r, hr, same, le⟩ := scheduled.successor p hp e old
        obtain ⟨-, kind', locale', effective⟩ := retire_fields (d := d) (p := r)
        exact ⟨d.retire r, (rows _).mpr (.inl ⟨r, hr, rfl⟩),
          ⟨by rw [kind, kind', same.1], by rw [locale, locale', same.2]⟩, effective ▸ le⟩
      · exact ⟨d.row id, (rows _).mpr (.inr rfl),
          ⟨kind.trans ofKind, locale.trans ofLocale⟩, le_rfl⟩
    · cases he
  · intro q hq q' hq' same apart
    rcases (rows q).mp hq with ⟨p, hp, rfl⟩ | rfl <;>
      rcases (rows q').mp hq' with ⟨p', hp', rfl⟩ | rfl
    · obtain ⟨key, kind, locale, effective⟩ := retire_fields (d := d) (p := p)
      obtain ⟨key', kind', locale', effective'⟩ := retire_fields (d := d) (p := p')
      have near : SameSeries p p' := ⟨kind ▸ kind' ▸ same.1, locale ▸ locale' ▸ same.2⟩
      rcases scheduled.successive p hp p' hp' near (by rwa [key, key'] at apart) with
        ⟨e, he, le⟩ | ⟨e, he, le⟩
      · exact .inl ⟨e, retire_supersededAt.mpr (.inl he), effective' ▸ le⟩
      · exact .inr ⟨e, retire_supersededAt.mpr (.inl he), effective ▸ le⟩
    · exact .inl (retire_before scheduled hp later same)
    · exact .inr (retire_before scheduled hp' later ⟨same.1.symm, same.2.symm⟩)
    · exact absurd rfl apart

theorem install_all_keeps {numbered : List (ℕ × SeedPolicyDocument)}
    (scheduled : Scheduled policies) (h : numbered.foldlM install policies = .ok policies') :
    Scheduled policies' := by
  induction numbered generalizing policies with
  | nil =>
    cases h
    exact scheduled
  | cons d numbered ih =>
    rw [List.foldlM_cons, bind_ok] at h
    obtain ⟨middle, first, rest⟩ := h
    exact ih (install_keeps scheduled first) rest

theorem seedPolicyRelease_keeps {numbered : List (ℕ × SeedPolicyDocument)}
    (scheduled : Scheduled policies) (h : seedPolicyRelease policies numbered = .ok policies') :
    Scheduled policies' := by
  simp only [seedPolicyRelease, bind_ok, ensure_ok] at h
  obtain ⟨_, -, _, -, _, -, h⟩ := h
  split at h
  · cases h
    exact scheduled
  · rw [bind_ok] at h
    obtain ⟨_, -, installed⟩ := h
    exact install_all_keeps scheduled installed

end Policies
