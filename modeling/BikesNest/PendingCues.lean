import BikesNest.Publishability
import BikesNest.SnapshotFidelity
import BikesNest.Summary

/-! Whether the cues of `pending_proposal_summary` are the fields that pending proposals would
change. The query compares JSON texts while publishing goes through decoding and the column
types, so the two agree when payloads and new listings are written in canonical form, and a
move or an existence proposal changes what its cue names. -/

namespace PendingCues

open Parking Proposal Schema Publishing Contribution Accounts Operations Effects Lifecycle
  Publishability SnapshotFidelity Summary

/-- The fields a cue can name. -/
inductive Field where
  | name | address | description | parkingType | cost | hours
  | security (code : String) (known : code ∈ securityFeatureCodes)
  | point | timezone | existence

def Field.label : Field → String
  | .name => "name"
  | .address => "address"
  | .description => "description"
  | .parkingType => "type"
  | .cost => "cost"
  | .hours => "hours"
  | .security code _ => code
  | .point => "point"
  | .timezone => "timezone"
  | .existence => "existence"

def costColumns (r : LocationRow) : CostKind × Option ℤ × Option String × Option PricingUnit :=
  (r.costKind, r.priceCents, r.priceCurrency, r.priceUnit)

/-- The location has the same stored value of the field in both stores. -/
def SameValue (s t : Store) (l : LocationId) : Field → Prop
  | .name => (t.locations.find l).map (·.name) = (s.locations.find l).map (·.name)
  | .address => (t.locations.find l).map (·.address) = (s.locations.find l).map (·.address)
  | .description =>
    (t.locations.find l).map (·.description) = (s.locations.find l).map (·.description)
  | .parkingType =>
    (t.locations.find l).map (·.parkingType) = (s.locations.find l).map (·.parkingType)
  | .cost => (t.locations.find l).map costColumns = (s.locations.find l).map costColumns
  | .hours =>
    (t.locations.find l).map (·.hoursUnknown) = (s.locations.find l).map (·.hoursUnknown) ∧
      (hoursOf t l).Perm (hoursOf s l)
  | .security code _ => t.security.find (l, code) = s.security.find (l, code)
  | .point => (t.locations.find l).map (fun r => (r.lat, r.lon)) =
      (s.locations.find l).map fun r => (r.lat, r.lon)
  | .timezone => (t.locations.find l).map (·.timezone) = (s.locations.find l).map (·.timezone)
  | .existence =>
    (t.locations.find l).map (·.moderationState) = (s.locations.find l).map (·.moderationState)

instance (s t : Store) (l : LocationId) : DecidablePred (SameValue s t l)
  | .name | .address | .description | .parkingType | .cost | .point | .timezone | .existence
  | .security _ _ => inferInstanceAs (Decidable (_ = _))
  | .hours => inferInstanceAs (Decidable (_ ∧ List.Perm _ _))

/-- The store after publishing the proposal as it stands, when that succeeds. -/
def publishUnchanged (env : Env) (s : Store) (p : ProposalRow) : Option Store := do
  let loc ← s.locations.find p.locationId
  let applied ←
    (merge env p.kind (ProposedChange.fromJson env p.kind p.proposed) {}).toOption
  let (_, t) ← (applyChange env s loc applied).toOption
  some t

/-- Publishing the proposal as it stands would change the stored value of the field. -/
def Alters (env : Env) (s : Store) (p : ProposalRow) (f : Field) : Prop :=
  ∃ t ∈ publishUnchanged env s p, ¬ SameValue s t p.locationId f

instance (env : Env) (s : Store) (p : ProposalRow) (f : Field) : Decidable (Alters env s p f) :=
  inferInstanceAs (Decidable (∃ t ∈ publishUnchanged env s p, ¬ SameValue s t p.locationId f))

/-- An edit written as `ParkingEdit::to_json` writes it, with hours the table can hold that
read back as given, no two of a day opening at the same time, in order. -/
structure CanonicalEdit (env : Env) (raw : Json) (edit : ParkingEdit) : Prop where
  rendered : ∀ k ∈ ["name", "address", "description", "type", "cost", "hours", "security"],
    raw.get k = (toJson env edit).get k
  readsBack : ∀ row ∈ edit.hours.rows, ReadsBack env row
  inDay : ∀ row ∈ edit.hours.rows,
    (storedKey env row).2.1 ≤ lastTime ∧ (storedKey env row).2.2 ≤ lastTime
  ordered : edit.hours.rows.Pairwise fun a b =>
    a.1 < b.1 ∨ (a.1 = b.1 ∧ (storedKey env a).2.1 < (storedKey env b).2.1)

/-- A payload whose cues are the changes it means: an edit in canonical form, a move that can
be published and changes both the point and the time zone, or a removal. -/
def NoticedPayload (env : Env) (loc : LocationRow) (raw : Json) : ProposalKind → Prop
  | .editDetails => ∀ edit, Proposal.fromJson env raw = some edit → CanonicalEdit env raw edit
  | .moveLocation => ∃ x y tz,
      merge env .moveLocation (ProposedChange.fromJson env .moveLocation raw) {} =
        .ok (.moveLocation x y tz) ∧ (x, y) ≠ (loc.lat, loc.lon) ∧ tz.name ≠ loc.timezone
  | .changeExistence =>
      ProposedChange.fromJson env .changeExistence raw = .changeExistence false

/-- What the operations of a run must meet: new listings in canonical form, no direct edit,
payloads as above, and approvals that go through the service's merge. -/
def CanonicalInput (env : Env) (s : Store) : Op → Prop
  | .create id new creator => FaithfulInput env (.create id new creator)
  | .applyEdit _ _ _ _ => False
  | .createProposal _ n => ∀ loc, s.locations.find n.locationId = some loc →
      NoticedPayload env loc n.proposed n.kind
  | .approveProposal id _ applied => ∀ p, s.proposals.find id = some p →
      ∃ adjusted, merge env p.kind (ProposedChange.fromJson env p.kind p.proposed) adjusted = .ok applied
  | _ => True

theorem CanonicalInput.faithful {env : Env} {s : Store} {op : Op}
    (h : CanonicalInput env s op) : FaithfulInput env op := by
  cases op with
  | create id new creator => exact h
  | applyEdit id expectedVersion edit editor => exact h.elim
  | _ => trivial

theorem CanonicalInput.retires {env : Env} {s : Store} {op : Op}
    (h : CanonicalInput env s op) : retiresPending op = true := by
  cases op with
  | applyEdit id expectedVersion edit editor => exact h.elim
  | _ => rfl

/-- Stored times that the driver reads and would write back unchanged. -/
def StableRow (env : Env) (r : HoursRow) : Prop :=
  env.timeToSql (env.timeOfSql r.opensAt) = r.opensAt ∧
    env.timeToSql (env.timeOfSql r.closesAt) = r.closesAt

theorem stable_of_readsBack {env : Env} (lawful : env.Lawful) {row : ℕ × TimeRange}
    (h : ReadsBack env row) (id : LocationId) : StableRow env (hoursRow env id row) := by
  obtain ⟨hopens, hcloses⟩ := h
  simp only [StableRow, hoursRow, hopens, hcloses]
  by_cases hd : row.2.allDay
  · simp only [storedRange, hd, if_true, TimeRange.allDayRange] at hopens hcloses ⊢
    rw [lawful.midnight_survives] at hopens
    rw [lawful.lastSecond_survives] at hcloses
    rw [hopens, hcloses]
    exact ⟨rfl, rfl⟩
  · simp [storedRange, hd]

/-- What a run of canonical operations keeps, beside the faithful snapshots. -/
structure CuesInvariant (env : Env) (s : Store) : Prop where
  faithful : Faithful env s
  fresh : Versioned.Fresh (view s)
  stable : ∀ l, ∀ r ∈ hoursOf s l, StableRow env r
  costs : ∀ l r, s.locations.find l = some r → ∃ cost, costColumns r = costParts cost
  readable : ∀ i p, s.proposals.find i = some p →
    ProposedChange.fromJson env p.kind p.proposed ≠ .unknown
  noticed : ∀ i p, s.proposals.find i = some p → p.status = .pending →
    ∀ loc, s.locations.find p.locationId = some loc → NoticedPayload env loc p.proposed p.kind

theorem merge_editDetails {env : Env} {kind : ProposalKind} {raw : Json}
    {adjusted : ProposalOverride} {edit : ParkingEdit}
    (h : merge env kind (ProposedChange.fromJson env kind raw) adjusted = .ok (.editDetails edit)) :
    kind = .editDetails ∧ Proposal.fromJson env raw = some edit := by
  have hk : kind = .editDetails := (merge_kind h).symm
  subst hk
  refine ⟨rfl, ?_⟩
  cases hc : ProposedChange.fromJson env .editDetails raw with
  | editDetails e =>
    rw [hc] at h
    simp only [merge, Except.ok.injEq, ProposalApplication.editDetails.injEq] at h
    rw [← h]
    exact (fromJson_editDetails.mp hc).2
  | _ =>
    rw [hc] at h
    cases h

theorem changedRow_costs {loc row : LocationRow} {applied : ProposalApplication}
    (h : changedRow loc applied = some row) (hloc : ∃ cost, costColumns loc = costParts cost) :
    ∃ cost, costColumns row = costParts cost := by
  cases applied with
  | editDetails edit =>
    simp only [changedRow, Option.ite_none_right_eq_some, Option.some.injEq] at h
    rw [← h.2]
    exact ⟨edit.cost, rfl⟩
  | moveLocation lat lon timezone =>
    simp only [changedRow, Option.some.injEq] at h
    rw [← h]
    exact hloc
  | changeExistence present =>
    simp only [changedRow, Option.some.injEq] at h
    rw [← h]
    exact hloc

/-- A location whose version does not move keeps its row, but for the creator. -/
theorem location_kept {env : Env} {s t : Store} {op : Op} (h : perform env s op = .ok t)
    {l : LocationId} {loc loc' : LocationRow} (hs : s.locations.find l = some loc)
    (ht : t.locations.find l = some loc') (version : loc'.version = loc.version) :
    ∃ creator, loc' = { loc with creatorId := creator } := by
  have rewritten : ∀ {row snapshot}, Rewrites s t row snapshot →
      (l = row.id → row.version ≠ loc.version) →
      ∃ creator, loc' = { loc with creatorId := creator } := by
    intro row snapshot hr hv
    rw [hr.location] at ht
    split at ht
    · rename_i hl
      cases ht
      exact absurd version (hv hl)
    · rw [hs] at ht
      cases ht
      exact ⟨loc.creatorId, rfl⟩
  have published : ∀ {s' id moderator applied prop loc₀ row parts},
      Published env s' t id moderator applied prop loc₀ row parts →
      s'.locations = s.locations → l = row.id → row.version ≠ loc.version := by
    intro s' id moderator applied prop loc₀ row parts hp hsame hl
    have hid : row.id = loc₀.id := changedRow_id hp.changed
    have hloc := hp.located
    rw [hsame, ← hp.location_id, ← hid, ← hl, hs] at hloc
    cases hloc
    rw [changedRow_version hp.changed]
    omega
  cases perform_effect h with
  | kept hk =>
    obtain ⟨forget, hf⟩ := hk.location l
    rw [hf, hs] at ht
    cases ht
    exact ⟨forget loc, rfl⟩
  | created tz parts hc =>
    refine rewritten (created_rewrites hc) fun hl => ?_
    have hnone : s.locations.find _ = none := (Table.insert_eq_some.mp hc.inserted).1
    rw [hl, hnone] at hs
    cases hs
  | edited loc₀ row point tz parts he =>
    refine rewritten (edited_rewrites he) fun hl => ?_
    have hid : row.id = _ := (changedRow_id he.changed).trans (Table.find_eq_some.mp he.found).2
    have hloc := he.found
    rw [← hid, ← hl, hs] at hloc
    cases hloc
    rw [changedRow_version he.changed]
    omega
  | moderated old hm =>
    refine rewritten (moderated_rewrites hm) fun hl => ?_
    have hid : old.id = _ := (Table.find_eq_some.mp hm.found).2
    have hloc := hm.found
    rw [← hid, ← (show l = old.id from hl), hs] at hloc
    cases hloc
    simp [moderatedRow]
  | approved prop loc₀ row parts hp =>
    exact rewritten (published_rewrites hp) (published hp rfl)
  | @voted id voter vote _ applied prop loc₀ row parts hm hp =>
    have hr := published_rewrites hp
    exact rewritten ⟨hr.location, hr.revision, hr.hours, hr.security⟩ (published hp rfl)

theorem NoticedPayload.forget {env : Env} {loc : LocationRow} {raw : Json} {kind : ProposalKind}
    (h : NoticedPayload env loc raw kind) (creator : Option UserId) :
    NoticedPayload env { loc with creatorId := creator } raw kind := by
  cases kind with
  | editDetails => exact h
  | moveLocation => exact h
  | changeExistence => exact h

/-- The location of a pending proposal is active at the proposal's base. -/
theorem fresh_location {s : Store} (fresh : Versioned.Fresh (view s)) {i : ProposalId}
    {p : ProposalRow} (hp : s.proposals.find i = some p) (pending : p.status = .pending) :
    ∃ loc, s.locations.find p.locationId = some loc ∧ loc.version = p.baseVersion ∧
      loc.moderationState = .active := by
  have hdoc := fresh i (ticketOf p) (by simp [view, hp]) (by simp [ticketOf, pending, statusOf])
  obtain ⟨loc, hloc, hversion, hlive⟩ := location_of_doc hdoc
  exact ⟨loc, hloc, hversion, by simpa using hlive⟩

theorem perform_noticed {env : Env} {s t : Store} {op : Op} (h : perform env s op = .ok t)
    (input : CanonicalInput env s op) (inv : CuesInvariant env s)
    (fresh : Versioned.Fresh (view t)) {i : ProposalId} {q : ProposalRow}
    (hq : t.proposals.find i = some q) (pending : q.status = .pending) {loc' : LocationRow}
    (hloc' : t.locations.find q.locationId = some loc') :
    NoticedPayload env loc' q.proposed q.kind := by
  rcases proposal_origin h hq with ⟨p, hp, same⟩ | ⟨n, loc, author, rfl, hs, rfl⟩
  · have hpending : p.status = .pending := by
      obtain ⟨hmem, hid⟩ := Table.find_eq_some.mp hq
      rcases status_move h hmem with ⟨hnone, -⟩ | ⟨p', hp', hid', -, -, hstatus, -⟩
      · rw [hid, hp] at hnone
        cases hnone
      · have hpp : p' = p :=
          Table.eq_of_key_eq hp' (Table.find_eq_some.mp hp).1 (hid'.trans same.id.symm)
        rw [← hpp]
        rcases hstatus with hst | ⟨hst, -⟩
        · exact hst.trans pending
        · exact hst
    obtain ⟨loc, hloc, hversion, -⟩ := fresh_location inv.fresh hp hpending
    obtain ⟨loc₁, hloc₁, hversion₁, -⟩ := fresh_location fresh hq pending
    rw [hloc'] at hloc₁
    cases hloc₁
    rw [same.locationId] at hloc
    obtain ⟨creator, rfl⟩ := location_kept h hloc hloc'
      (by rw [hversion, hversion₁, same.baseVersion])
    rw [← same.proposed, ← same.kind]
    exact (inv.noticed i p hp hpending loc (same.locationId ▸ hloc)).forget creator
  · rw [hs.outcome] at hloc'
    exact input loc' hloc'

/-- The hours of every location stay readable: those written come from a canonical listing or
from a canonical payload. -/
theorem published_stable {env : Env} (lawful : env.Lawful) {s t : Store} {id : ProposalId}
    {moderator : UserId} {applied : ProposalApplication} {prop : ProposalRow}
    {loc row : LocationRow} {parts : Store}
    (h : Published env s t id moderator applied prop loc row parts)
    (readsBack : ∀ edit, applied = .editDetails edit →
      ∀ row ∈ edit.hours.rows, ReadsBack env row)
    (stable : ∀ l, ∀ r ∈ hoursOf s l, StableRow env r) :
    ∀ l, ∀ r ∈ hoursOf t l, StableRow env r := by
  intro l r hr
  rw [hoursOf_congr h.hours] at hr
  rcases writeParts_cases h.written with ⟨-, rfl⟩ | ⟨edit, filled, he, hf, rfl⟩
  · exact stable l r hr
  · rw [hoursOf_writeSecurity, hoursOf_writeHours hf] at hr
    split at hr
    · obtain ⟨range, hrange, rfl⟩ := List.mem_map.mp hr
      exact stable_of_readsBack lawful (readsBack edit he range hrange) _
    · exact stable l r hr

theorem noticed_readsBack {env : Env} {s : Store} (inv : CuesInvariant env s) {id : ProposalId}
    {prop : ProposalRow} {loc : LocationRow} (found : s.proposals.find id = some prop)
    (pending : prop.status = .pending)
    (located : s.locations.find prop.locationId = some loc) {adjusted : ProposalOverride}
    {applied : ProposalApplication}
    (merged : merge env prop.kind (ProposedChange.fromJson env prop.kind prop.proposed) adjusted =
      .ok applied) :
    ∀ edit, applied = .editDetails edit → ∀ row ∈ edit.hours.rows, ReadsBack env row := by
  rintro edit rfl
  obtain ⟨hk, hd⟩ := merge_editDetails merged
  have hn := inv.noticed id prop found pending loc located
  rw [hk] at hn
  exact (hn edit hd).readsBack

theorem perform_cuesInvariant {env : Env} (lawful : env.Lawful) {s t : Store} {op : Op}
    (h : perform env s op = .ok t) (input : CanonicalInput env s op)
    (inv : CuesInvariant env s) : CuesInvariant env t := by
  have faithful := perform_faithful lawful h input.faithful inv.faithful
  have fresh : Versioned.Fresh (view t) := by
    obtain ⟨e, he, hkeep, hv⟩ := perform_refines h
    rw [hv]
    exact Versioned.step_preserves_fresh he (hkeep input.retires) inv.fresh
  have noticed : ∀ i p, t.proposals.find i = some p → p.status = .pending →
      ∀ loc, t.locations.find p.locationId = some loc →
        NoticedPayload env loc p.proposed p.kind :=
    fun i q hq hp loc hloc => perform_noticed h input inv fresh hq hp hloc
  have readable : ∀ i p, t.proposals.find i = some p →
      ProposedChange.fromJson env p.kind p.proposed ≠ .unknown := by
    intro i q hq
    rcases proposal_origin h hq with ⟨p, hp, same⟩ | ⟨n, loc, author, -, hs, rfl⟩
    · rw [← same.kind, ← same.proposed]
      exact inv.readable i p hp
    · exact hs.readable
  have costs_rewrite : ∀ {row snapshot}, Rewrites s t row snapshot →
      (∃ cost, costColumns row = costParts cost) →
      ∀ l r, t.locations.find l = some r → ∃ cost, costColumns r = costParts cost := by
    intro row snapshot hr hrow l r hl
    rw [hr.location] at hl
    split at hl
    · cases hl
      exact hrow
    · exact inv.costs l r hl
  cases perform_effect h with
  | kept hk =>
    refine ⟨faithful, fresh, ?_, ?_, readable, noticed⟩
    · intro l r hr
      rw [hoursOf_congr hk.hours] at hr
      exact inv.stable l r hr
    · intro l r hr
      obtain ⟨forget, hf⟩ := hk.location l
      rw [hf, Option.map_eq_some_iff] at hr
      obtain ⟨old, hold, rfl⟩ := hr
      exact inv.costs l old hold
  | created tz parts hc =>
    refine ⟨faithful, fresh, ?_, costs_rewrite (created_rewrites hc) ⟨_, rfl⟩, readable, noticed⟩
    intro l r hr
    rw [hoursOf_congr hc.parts_eq.1, hoursOf_writeHours hc.written] at hr
    split at hr
    · obtain ⟨range, hrange, rfl⟩ := List.mem_map.mp hr
      exact stable_of_readsBack lawful (input.2.2.1.1 range hrange) _
    · exact inv.stable l r hr
  | edited loc row point tz parts he => exact input.elim
  | moderated old hm =>
    refine ⟨faithful, fresh, ?_, costs_rewrite (moderated_rewrites hm) ?_, readable, noticed⟩
    · intro l r hr
      have hours : t.hours = s.hours := by
        rw [hm.outcome]
        rfl
      rw [hoursOf_congr hours] at hr
      exact inv.stable l r hr
    · exact inv.costs _ old hm.found
  | approved prop loc row parts hp =>
    obtain ⟨adjusted, merged⟩ := input prop hp.found
    refine ⟨faithful, fresh, published_stable lawful hp ?_ inv.stable,
      costs_rewrite (published_rewrites hp) ?_, readable, noticed⟩
    · exact noticed_readsBack inv hp.found hp.pending hp.located merged
    · exact changedRow_costs hp.changed (inv.costs _ loc hp.located)
  | @voted id voter vote _ applied prop loc row parts merged hp =>
    have hr := published_rewrites hp
    refine ⟨faithful, fresh, published_stable lawful hp ?_ inv.stable,
      costs_rewrite ⟨hr.location, hr.revision, hr.hours, hr.security⟩ ?_, readable, noticed⟩
    · exact noticed_readsBack inv hp.found hp.pending hp.located merged
    · exact changedRow_costs hp.changed (inv.costs _ loc hp.located)

theorem reachable_cuesInvariant {env : Env} (lawful : env.Lawful) {ops : List Op}
    (input : Along env (CanonicalInput env) Schema.empty ops) :
    CuesInvariant env (run env Schema.empty ops) := by
  refine run_invariant (P := CuesInvariant env) ?_ input ?_
  · exact fun s t op inv hop h => perform_cuesInvariant lawful h hop inv
  · refine ⟨⟨by simp [Schema.empty], by simp [Schema.empty]⟩,
      view_empty ▸ Versioned.initial_fresh, ?_, by simp [Schema.empty], by simp [Schema.empty],
      by simp [Schema.empty]⟩
    intro l r hr
    cases hr

/-- The newest snapshot is that of the revision numbered with the location's version. -/
theorem currentSnapshot_describes {env : Env} {ops : List Op}
    (faithful : Faithful env (run env Schema.empty ops)) {l : LocationId} {loc : LocationRow}
    (hloc : (run env Schema.empty ops).locations.find l = some loc) :
    ∃ c, currentSnapshot env (run env Schema.empty ops) l = some c ∧
      Describes env (run env Schema.empty ops) loc c := by
  have hist := (reachable_invariant env ops).history l
  generalize run env Schema.empty ops = s at *
  obtain ⟨rev, hrev, hd⟩ := faithful.described l loc hloc
  obtain ⟨hmem, hkey⟩ := Table.find_eq_some.mp hrev
  simp only [Prod.mk.injEq] at hkey
  have hin : rev ∈ s.revisions.filter fun r => decide (r.locationId = l) :=
    Table.mem_filter.mpr ⟨hmem, by simp [hkey.1]⟩
  cases hm : (s.revisions.filter fun r => decide (r.locationId = l)).argmax
      RevisionRow.version with
  | none =>
    rw [List.argmax_eq_none] at hm
    rw [hm] at hin
    cases hin
  | some m =>
    have hmmem := List.argmax_mem hm
    obtain ⟨hm₁, hm₂⟩ := Table.mem_filter.mp hmmem
    have hle : rev.version ≤ m.version := List.le_of_mem_argmax hin hm
    have hrec : m.version ∈ (view s).history l := List.mem_map.mpr ⟨m, hmmem, rfl⟩
    rw [hist] at hrec
    simp only [view, hloc, Option.map_some, Option.elim_some, docOf, List.mem_range'_1] at hrec
    have heq : m = rev := by
      refine Table.eq_of_key_eq hm₁ hmem ?_
      have hml : m.locationId = l := by simpa using hm₂
      simp only [Prod.mk.injEq]
      exact ⟨hml.trans hkey.1.symm, by omega⟩
    refine ⟨rev.snapshot, ?_, hd⟩
    simp [currentSnapshot, hloc, latestSnapshot, hm, heq]

section Snapshot

variable {env : Env} {s : Store} {loc : LocationRow} {c : Json}

/-- The fields of a describing snapshot, as the query reads them. -/
structure Described (env : Env) (s : Store) (loc : LocationRow) (c : Json)
    (rows : List HoursRow) (security : List Json) : Prop where
  name : c.get "name" = some (.str loc.name)
  address : c.get "address" = some (.str loc.address)
  description : c.get "description" = some (optStr loc.description)
  parkingType : c.get "type" = some (.str loc.parkingType.asCode)
  cost : c.get "cost" =
    some (costColumnsJson loc.costKind loc.priceCents loc.priceCurrency loc.priceUnit)
  hours : c.get "hours" = some (.obj [("rows", .arr (rows.map (hoursRowJson env))),
    ("unknown", .bool loc.hoursUnknown)])
  entries : c.get "security" = some (.arr security)
  stored : rows.Perm (hoursOf s loc.id)
  sorted : rows.Pairwise hoursBefore
  features : security.Perm ((readSecurity s loc.id).map securityRowJson)

theorem describes_fields (h : Describes env s loc c) :
    ∃ rows security, Described env s loc c rows security := by
  obtain ⟨rows, security, stored, sorted, features, rfl⟩ := h
  exact ⟨rows, security, by simp [snapshotObject, Json.get], by simp [snapshotObject, Json.get],
    by simp [snapshotObject, Json.get], by simp [snapshotObject, Json.get],
    by simp [snapshotObject, Json.get], by simp [snapshotObject, Json.get],
    by simp [snapshotObject, Json.get], stored, sorted, features⟩

/-- The snapshot's entry for a feature is the stored row's. -/
theorem Described.currentEntry {rows : List HoursRow} {security : List Json}
    (h : Described env s loc c rows security) {item : Json} {code : String}
    (hitem : entryCode item = some code) :
    currentEntry c item = (s.security.find (loc.id, code)).map securityRowJson := by
  have entry : ∀ j ∈ security, ∃ r, s.security.find (loc.id, r.featureCode) = some r ∧
      j = securityRowJson r ∧ entryCode j = some r.featureCode := by
    intro j hj
    obtain ⟨r, hr, rfl⟩ := List.mem_map.mp (h.features.mem_iff.mp hj)
    obtain ⟨hr, hl⟩ := Table.mem_filter.mp hr
    have hl : r.locationId = loc.id := by simpa using hl
    exact ⟨r, Table.find_eq_some.mpr ⟨hr, by rw [hl]⟩, rfl, rfl⟩
  simp only [Summary.currentEntry, elements, h.entries, Option.bind_some, Json.asArray,
    Option.getD_some, hitem]
  cases hf : s.security.find (loc.id, code) with
  | none =>
    rw [Option.map_none, List.find?_eq_none]
    intro j hj hcode
    obtain ⟨r, hr, -, he⟩ := entry j hj
    rw [he] at hcode
    obtain rfl : r.featureCode = code := by simpa using hcode
    rw [hf] at hr
    cases hr
  | some r =>
    rw [Option.map_some]
    obtain ⟨hr, hkey⟩ := Table.find_eq_some.mp hf
    simp only [Prod.mk.injEq] at hkey
    have hin : securityRowJson r ∈ security := by
      refine h.features.mem_iff.mpr (List.mem_map_of_mem ?_)
      exact Table.mem_filter.mpr ⟨hr, by simp [hkey.1]⟩
    cases hfind : security.find? (fun j => (entryCode j).isSome &&
        decide (entryCode j = some code)) with
    | none =>
      have hno := List.find?_eq_none.mp hfind _ hin
      have hcode : entryCode (securityRowJson r) = some r.featureCode := rfl
      simp [hcode, hkey.2] at hno
    | some j =>
      obtain ⟨r', hr', rfl, he⟩ := entry j (List.mem_of_find?_eq_some hfind)
      have hsome := List.find?_some hfind
      rw [he] at hsome
      have hcode : r'.featureCode = code := by simpa using hsome
      rw [hcode, hf] at hr'
      cases hr'
      rfl

end Snapshot

theorem numeric_str (s : String) : (Json.str s).numeric = .str s := rfl

theorem numeric_optStr (d : Option String) : (optStr d).numeric = optStr d := by
  cases d <;> rfl

theorem optStr_injective {a b : Option String} (h : optStr a = optStr b) : a = b := by
  cases a <;> cases b <;> simp_all [optStr]

theorem asCode_injective {a b : ParkingType} (h : a.asCode = b.asCode) : a = b := by
  cases a <;> cases b <;> first | rfl | simp [ParkingType.asCode] at h

theorem numeric_int_injective {a b : ℤ}
    (h : (Json.num (.int a)).numeric = (Json.num (.int b)).numeric) : a = b := by
  simp only [Json.numeric, Json.num.injEq, Number.float.injEq] at h
  exact_mod_cast h

theorem unitCode_injective {a b : PricingUnit} (h : a.asCode = b.asCode) : a = b := by
  cases a <;> cases b <;> first | rfl | simp [PricingUnit.asCode] at h

/-- Costs with the same snapshot value have the same columns. -/
theorem costJson_injective {a b : Cost} (h : (costJson a).numeric = (costJson b).numeric) :
    costParts a = costParts b := by
  cases a with
  | free =>
    cases b with
    | free => rfl
    | unknown => simp [costJson, Json.numeric, Json.numericFields, Cost.kind, CostKind.asCode] at h
    | paid price =>
      cases price <;>
        simp [costJson, Json.numeric, Json.numericFields, Cost.kind, CostKind.asCode] at h
  | unknown =>
    cases b with
    | free => simp [costJson, Json.numeric, Json.numericFields, Cost.kind, CostKind.asCode] at h
    | unknown => rfl
    | paid price =>
      cases price <;>
        simp [costJson, Json.numeric, Json.numericFields, Cost.kind, CostKind.asCode] at h
  | paid price =>
    cases b with
    | free =>
      cases price <;>
        simp [costJson, Json.numeric, Json.numericFields, Cost.kind, CostKind.asCode] at h
    | unknown =>
      cases price <;>
        simp [costJson, Json.numeric, Json.numericFields, Cost.kind, CostKind.asCode] at h
    | paid price' =>
      cases price with
      | none =>
        cases price' with
        | none => rfl
        | some q => simp [costJson, Json.numeric, Json.numericFields] at h
      | some p =>
        cases price' with
        | none => simp [costJson, Json.numeric, Json.numericFields] at h
        | some q =>
          simp only [costJson, Json.numeric, Json.numericFields, Json.obj.injEq,
            List.cons.injEq, Prod.mk.injEq, true_and, and_true, Json.num.injEq,
            Number.float.injEq, Json.str.injEq] at h
          obtain ⟨hcents, hcurrency, hunit⟩ := h
          have hcents : p.cents = q.cents := by exact_mod_cast hcents
          simp [costParts, hcents, hcurrency, unitCode_injective hunit]

theorem hoursRowJson_injective {env : Env} (lawful : env.Lawful) {r q : HoursRow}
    (hr : StableRow env r) (hq : StableRow env q) (location : r.locationId = q.locationId)
    (h : (hoursRowJson env r).numeric = (hoursRowJson env q).numeric) : r = q := by
  simp only [hoursRowJson, Json.numeric, Json.numericItems, Json.arr.injEq, List.cons.injEq,
    and_true, Json.num.injEq, Number.float.injEq, Json.str.injEq, Json.bool.injEq] at h
  obtain ⟨hday, hopens, hcloses, hall⟩ := h
  have hday : r.dayOfWeek = q.dayOfWeek := by exact_mod_cast hday
  have hopens := lawful.render_injective hopens
  have hcloses := lawful.render_injective hcloses
  have h₁ : r.opensAt = q.opensAt := by rw [← hr.1, hopens, hq.1]
  have h₂ : r.closesAt = q.closesAt := by rw [← hr.2, hcloses, hq.2]
  cases r
  cases q
  simp_all

theorem map_injective_on {α β : Type} {f : α → β} {xs ys : List α}
    (inj : ∀ x ∈ xs, ∀ y ∈ ys, f x = f y → x = y) (h : xs.map f = ys.map f) : xs = ys := by
  induction xs generalizing ys with
  | nil =>
    cases ys with
    | nil => rfl
    | cons y ys => simp at h
  | cons x xs ih =>
    cases ys with
    | nil => simp at h
    | cons y ys =>
      simp only [List.map_cons, List.cons.injEq] at h
      have hxy := inj x List.mem_cons_self y List.mem_cons_self h.1
      have htail := ih (fun a ha b hb => inj a (List.mem_cons_of_mem _ ha) b
        (List.mem_cons_of_mem _ hb)) h.2
      rw [hxy, htail]

/-- Strictly ordered rows are the only ordered arrangement of themselves. -/
theorem ordered_unique {env : Env} {l : LocationId} {given : List (ℕ × TimeRange)}
    (ordered : given.Pairwise fun a b =>
      a.1 < b.1 ∨ (a.1 = b.1 ∧ (storedKey env a).2.1 < (storedKey env b).2.1))
    {rows : List HoursRow} (sorted : rows.Pairwise hoursBefore)
    (perm : (given.map (hoursRow env l)).Perm rows) : given.map (hoursRow env l) = rows := by
  have sorted' : (given.map (hoursRow env l)).Pairwise hoursBefore := by
    rw [List.pairwise_map]
    refine ordered.imp fun {a b} hab => ?_
    simp only [hoursBefore, hoursRow]
    simp only [storedKey] at hab
    omega
  have keys : ((given.map (hoursRow env l)).map fun r => (r.dayOfWeek, r.opensAt)).Nodup := by
    rw [List.map_map, List.Nodup, List.pairwise_map]
    refine ordered.imp fun {a b} hab => ?_
    simp only [Function.comp_apply, hoursRow, ne_eq, Prod.mk.injEq, not_and]
    simp only [storedKey] at hab
    omega
  refine List.Perm.eq_of_pairwise ?_ sorted' sorted perm
  intro a b ha hb hab hba
  refine List.inj_on_of_nodup_map keys ha (perm.mem_iff.mpr hb) ?_
  simp only [hoursBefore] at hab hba
  simp only [Prod.mk.injEq]
  omega

/-- The hours of a canonical payload equal the snapshot's exactly when publishing it would
leave the hours as they are. -/
theorem hours_same_iff {env : Env} (lawful : env.Lawful) {s : Store} {loc : LocationRow}
    {c raw : Json} {rows : List HoursRow} {security : List Json} {edit : ParkingEdit}
    (described : Described env s loc c rows security) (canonical : CanonicalEdit env raw edit)
    (stable : ∀ r ∈ hoursOf s loc.id, StableRow env r) :
    (hoursJson env edit.hours.isUnknown edit.hours.rows).numeric =
      (Json.obj [("rows", .arr (rows.map (hoursRowJson env))),
        ("unknown", .bool loc.hoursUnknown)]).numeric ↔
      edit.hours.isUnknown = loc.hoursUnknown ∧
        (edit.hours.rows.map (hoursRow env loc.id)).Perm (hoursOf s loc.id) := by
  have rendered : edit.hours.rows.map (timeRangeJson env) =
      (edit.hours.rows.map (hoursRow env loc.id)).map (hoursRowJson env) := by
    rw [List.map_map]
    exact List.map_congr_left fun row hr =>
      timeRangeJson_readsBack loc.id (canonical.readsBack row hr)
  simp only [hoursJson, rendered, Json.numeric, Json.numericFields, Json.numericItems_eq_map,
    Json.obj.injEq, List.cons.injEq, Prod.mk.injEq, true_and, and_true, Json.arr.injEq,
    Json.bool.injEq]
  rw [and_comm]
  refine and_congr_right fun _ => ?_
  constructor
  · intro h
    have heq : edit.hours.rows.map (hoursRow env loc.id) = rows := by
      refine map_injective_on (f := Json.numeric ∘ hoursRowJson env) ?_
        (by simpa only [List.map_map, Function.comp_assoc] using h)
      intro r hr q hq hjson
      obtain ⟨range, hrange, rfl⟩ := List.mem_map.mp hr
      have hq := described.stored.mem_iff.mp hq
      have hlocation : q.locationId = loc.id := by
        simpa using (Table.mem_filter.mp hq).2
      exact hoursRowJson_injective lawful
        (stable_of_readsBack lawful (canonical.readsBack range hrange) loc.id)
        (stable q hq) hlocation.symm hjson
    rw [heq]
    exact described.stored
  · intro h
    rw [ordered_unique canonical.ordered described.sorted (h.trans described.stored.symm)]

/-- What publishing a canonical edit leaves behind. -/
theorem publish_edit {env : Env} (lawful : env.Lawful) {s : Store} {p : ProposalRow}
    {loc : LocationRow} {edit : ParkingEdit} (sound : Sound s)
    (found : s.proposals.find p.id = some p)
    (located : s.locations.find p.locationId = some loc)
    (active : loc.moderationState = .active) (kind : p.kind = .editDetails)
    (decoded : Proposal.fromJson env p.proposed = some edit)
    (canonical : CanonicalEdit env p.proposed edit) :
    ∃ row t, changedRow loc (.editDetails edit) = some row ∧
      publishUnchanged env s p = some t ∧ t.locations.find p.locationId = some row ∧
      hoursOf t p.locationId = edit.hours.rows.map (hoursRow env p.locationId) ∧
      ∀ code ∈ securityFeatureCodes, t.security.find (p.locationId, code) =
        some ⟨p.locationId, code, stateSmallint (securityStateOf edit.security code)⟩ := by
  have hm : merge env p.kind (ProposedChange.fromJson env p.kind p.proposed) {} =
      .ok (.editDetails edit) := by
    rw [fromJson_editDetails.mpr ⟨kind, decoded⟩, kind]
    rfl
  have hid : loc.id = p.locationId := (Table.find_eq_some.mp located).2
  have keys : (edit.hours.rows.map (storedKey env)).Nodup := by
    rw [List.Nodup, List.pairwise_map]
    refine canonical.ordered.imp fun {a b} hab heq => ?_
    simp only [storedKey, Prod.mk.injEq] at hab heq
    omega
  have succeeds : ∃ row t, applyChange env s loc (.editDetails edit) = .ok (row, t) := by
    refine applyChange_succeeds.mpr ⟨merged_admissible lawful (merge_unchanged hm)
      (sound.payload _ _ found) (sound.location _ _ located) active, ?_⟩
    rintro _ ⟨⟩
    obtain ⟨h, -, hh⟩ := (fromJson_decoded decoded).hours
    exact ⟨⟨canonical.inDay, keys⟩, hoursFromJson_days hh⟩
  obtain ⟨row, t, happly⟩ := succeeds
  obtain ⟨changed, -, hparts⟩ := applyChange_ok.mp happly
  have hrow : row.id = p.locationId := (changedRow_id changed).trans hid
  refine ⟨row, t, changed, ?_, ?_, ?_⟩
  · simp [publishUnchanged, located, hm, happly, Except.toOption]
  · rw [location_of_set (writeParts_frame hparts).locations (hrow ▸ located), if_pos hrow.symm]
  · rcases writeParts_cases hparts with ⟨hk, -⟩ | ⟨_, filled, ⟨⟩, hf, rfl⟩
    · exact absurd rfl hk
    · rw [hid] at hf ⊢
      refine ⟨?_, fun code hcode => ?_⟩
      · rw [hoursOf_writeSecurity, hoursOf_writeHours hf, if_pos rfl]
      · rw [find_writeSecurity, if_pos ⟨rfl, hcode⟩]

theorem mem_fieldCues {c : Json} {p : ProposalRow} {k : String} {i : ProposalId} :
    (k, i) ∈ fieldCues c p ↔ p.kind = .editDetails ∧ i = p.id ∧ k ∈ editFields ∧
      Json.isDistinctFrom (p.proposed.get k) (c.get k) = true := by
  simp only [fieldCues]
  split
  · rename_i hk
    simp only [List.mem_map, List.mem_filter, Prod.mk.injEq]
    constructor
    · rintro ⟨k', ⟨hmem, hd⟩, rfl, rfl⟩
      exact ⟨hk, rfl, hmem, hd⟩
    · rintro ⟨-, rfl, hmem, hd⟩
      exact ⟨k, ⟨hmem, hd⟩, rfl, rfl⟩
  · rename_i hk
    simp [hk]

theorem mem_securityCues {env : Env} {c : Json} {p : ProposalRow} {edit : ParkingEdit}
    (kind : p.kind = .editDetails) (canonical : CanonicalEdit env p.proposed edit) {k : String}
    {i : ProposalId} :
    (k, i) ∈ securityCues c p ↔ i = p.id ∧ k ∈ securityFeatureCodes ∧
      Json.isDistinctFrom (some (securityJson k (securityStateOf edit.security k)))
        (currentEntry c (securityJson k (securityStateOf edit.security k))) = true := by
  have items : elements (p.proposed.get "security") = securityFeatureCodes.map fun code =>
      securityJson code (securityStateOf edit.security code) := by
    rw [canonical.rendered "security" (by simp)]
    simp [toJson, Json.get, elements, Json.asArray]
  have code : ∀ k st, entryCode (securityJson k st) = some k := fun _ _ => rfl
  simp only [securityCues, kind, if_true, items, List.mem_filterMap, List.mem_map]
  constructor
  · rintro ⟨_, ⟨code', hcode, rfl⟩, hd⟩
    split at hd
    · rename_i hdist
      rw [code] at hd
      cases hd
      exact ⟨rfl, hcode, hdist⟩
    · cases hd
  · rintro ⟨rfl, hk, hd⟩
    exact ⟨_, ⟨k, hk, rfl⟩, by rw [if_pos hd, code]; rfl⟩


/-- Row values an edit writes. -/
theorem changedRow_edit {loc row : LocationRow} {edit : ParkingEdit}
    (h : changedRow loc (.editDetails edit) = some row) :
    row.name = trim edit.name ∧ row.address = trim edit.address ∧
      row.description = edit.description ∧ row.parkingType = edit.parkingType ∧
      costColumns row = costParts edit.cost ∧ row.hoursUnknown = edit.hours.isUnknown ∧
      row.lat = loc.lat ∧ row.lon = loc.lon ∧ row.timezone = loc.timezone ∧
      row.moderationState = loc.moderationState := by
  simp only [changedRow, Option.ite_none_right_eq_some, Option.some.injEq] at h
  rw [← h.2]
  exact ⟨rfl, rfl, rfl, rfl, rfl, rfl, rfl, rfl, rfl, rfl⟩

/-- A stored security row has the entry of a state exactly when it has the state. -/
theorem securityEntry_eq_iff {s : Store} {l : LocationId} {code : String}
    (state : SecurityState) :
    (some (securityJson code state)).map Json.numeric =
        ((s.security.find (l, code)).map securityRowJson).map Json.numeric ↔
      some ⟨l, code, stateSmallint state⟩ = s.security.find (l, code) := by
  cases hr : s.security.find (l, code) with
  | none => simp
  | some r =>
    have hkey := (Table.find_eq_some.mp hr).2
    simp only [Prod.mk.injEq] at hkey
    obtain ⟨rfl, rfl⟩ := hkey
    simp only [Option.map_some, Option.some.injEq, securityJson, securityRowJson, Json.numeric,
      Json.numericItems, Json.arr.injEq, List.cons.injEq, true_and, and_true, Json.num.injEq,
      Number.float.injEq, Int.cast_inj]
    constructor
    · intro h
      cases r
      simp_all
    · intro h
      rw [← h]

/-- The cues of an edit name columns and features only. -/
theorem editCue_label {env : Env} {c : Json} {p : ProposalRow} {edit : ParkingEdit}
    (kind : p.kind = .editDetails) (canonical : CanonicalEdit env p.proposed edit) {k : String}
    {i : ProposalId} (h : (k, i) ∈ cuesOf (some c) p) :
    k ∈ editFields ++ securityFeatureCodes := by
  simp only [cuesOf, moveCues, existenceCues, kind, Option.elim_some, reduceCtorEq, if_false,
    List.append_nil, List.mem_append, mem_fieldCues, mem_securityCues kind canonical] at h
  rw [List.mem_append]
  rcases h with h | h
  · exact .inl h.2.2.1
  · exact .inr h.2.1

/-- For a canonical edit, the cues are the fields that publishing it would change. -/
theorem edit_cue_iff {env : Env} (lawful : env.Lawful) {s : Store} {p : ProposalRow}
    {loc : LocationRow} {edit : ParkingEdit} {c : Json} (sound : Sound s)
    (inv : CuesInvariant env s) (found : s.proposals.find p.id = some p)
    (located : s.locations.find p.locationId = some loc)
    (active : loc.moderationState = .active) (kind : p.kind = .editDetails)
    (decoded : Proposal.fromJson env p.proposed = some edit)
    (canonical : CanonicalEdit env p.proposed edit) (describes : Describes env s loc c)
    (f : Field) : (f.label, p.id) ∈ cuesOf (some c) p ↔ Alters env s p f := by
  have hid : loc.id = p.locationId := (Table.find_eq_some.mp located).2
  obtain ⟨rows, security, described⟩ := describes_fields describes
  obtain ⟨row, t, changed, published, hrow, hhours, hsecurity⟩ :=
    publish_edit lawful sound found located active kind decoded canonical
  obtain ⟨hname, haddress, hdescription, htype, hcost, hunknown, hlat, hlon, hzone, hstate⟩ :=
    changedRow_edit changed
  have alters : Alters env s p f ↔ ¬ SameValue s t p.locationId f := by
    simp [Alters, published]
  have rendered : ∀ k ∈ ["name", "address", "description", "type", "cost", "hours", "security"],
      p.proposed.get k = (toJson env edit).get k := canonical.rendered
  have apart : ∀ k ∈ editFields, k ∉ securityFeatureCodes := by decide
  -- the cue of one of the six columns, as a comparison of the two JSON values
  have column : ∀ k ∈ editFields, ((k, p.id) ∈ cuesOf (some c) p ↔
      ((toJson env edit).get k).map Json.numeric ≠ (c.get k).map Json.numeric) := by
    intro k hk
    have hk' : k ∈ ["name", "address", "description", "type", "cost", "hours", "security"] := by
      simp only [editFields, List.mem_cons, List.not_mem_nil, or_false] at hk ⊢
      tauto
    simp only [cuesOf, moveCues, existenceCues, kind, Option.elim_some, reduceCtorEq, if_false,
      List.append_nil, List.mem_append, mem_fieldCues, mem_securityCues kind canonical,
      apart k hk, false_and, and_false, or_false, hk, true_and, rendered k hk',
      Json.isDistinctFrom_eq_true]
  rw [alters]
  cases f with
  | name =>
    rw [Field.label, column "name" (by decide), described.name]
    simp [toJson, Json.get, Json.numeric, SameValue, hrow, located, hname]
  | address =>
    rw [Field.label, column "address" (by decide), described.address]
    simp [toJson, Json.get, Json.numeric, SameValue, hrow, located, haddress]
  | description =>
    rw [Field.label, column "description" (by decide), described.description]
    have value : (toJson env edit).get "description" = some (optStr edit.description) := by
      simp [toJson, Json.get]
    simp only [value, Option.map_some, numeric_optStr, SameValue, hrow, located, hdescription,
      ne_eq, Option.some.injEq]
    exact not_congr ⟨optStr_injective, fun h => by rw [h]⟩
  | parkingType =>
    rw [Field.label, column "type" (by decide), described.parkingType]
    have value : (toJson env edit).get "type" = some (.str edit.parkingType.asCode) := by
      simp [toJson, Json.get]
    simp only [value, Option.map_some, numeric_str, SameValue, hrow, located, htype, ne_eq,
      Option.some.injEq, Json.str.injEq]
    exact not_congr ⟨asCode_injective, fun h => by rw [h]⟩
  | cost =>
    rw [Field.label, column "cost" (by decide), described.cost]
    have value : (toJson env edit).get "cost" = some (costJson edit.cost) := by
      simp [toJson, Json.get]
    obtain ⟨old, hold⟩ := inv.costs _ loc located
    have stored : costColumnsJson loc.costKind loc.priceCents loc.priceCurrency loc.priceUnit =
        costJson old := by
      simp only [costColumns] at hold
      rw [costJson_columns, ← hold]
    simp only [value, stored, Option.map_some, SameValue, hrow, located, hcost, hold, ne_eq,
      Option.some.injEq]
    refine not_congr ⟨costJson_injective, fun h => ?_⟩
    rw [costJson_columns, costJson_columns, h]
  | hours =>
    rw [Field.label, column "hours" (by decide), described.hours]
    have value : (toJson env edit).get "hours" =
        some (hoursJson env edit.hours.isUnknown edit.hours.rows) := by
      simp [toJson, Json.get]
    simp only [value, Option.map_some, ne_eq, Option.some.injEq,
      hours_same_iff lawful described canonical (inv.stable loc.id), SameValue, hrow, located,
      hunknown, hhours, hid]
  | security code known =>
    have fields : code ∉ editFields := fun h => apart code h known
    have entry := described.currentEntry
      (show entryCode (securityJson code (securityStateOf edit.security code)) = some code from rfl)
    simp only [Field.label, cuesOf, moveCues, existenceCues, kind, Option.elim_some, reduceCtorEq,
      if_false, List.append_nil, List.mem_append, mem_fieldCues, mem_securityCues kind canonical,
      fields, false_and, and_false, false_or, known, true_and, Json.isDistinctFrom_eq_true, entry,
      SameValue, hsecurity code known, hid]
    exact not_congr (securityEntry_eq_iff _)
  | point =>
    refine iff_of_false (fun h => ?_) (not_not.mpr ?_)
    · exact absurd (editCue_label kind canonical h) (by decide)
    · simp [SameValue, hrow, located, hlat, hlon]
  | timezone =>
    refine iff_of_false (fun h => ?_) (not_not.mpr ?_)
    · exact absurd (editCue_label kind canonical h) (by decide)
    · simp [SameValue, hrow, located, hzone]
  | existence =>
    refine iff_of_false (fun h => ?_) (not_not.mpr ?_)
    · exact absurd (editCue_label kind canonical h) (by decide)
    · simp [SameValue, hrow, located, hstate]

/-- Publishing anything but an edit writes the location's row and nothing else. -/
theorem publish_row {env : Env} {s : Store} {p : ProposalRow} {loc row : LocationRow}
    {applied : ProposalApplication} (located : s.locations.find p.locationId = some loc)
    (merged : merge env p.kind (ProposedChange.fromJson env p.kind p.proposed) {} = .ok applied)
    (changed : changedRow loc applied = some row) (check : checkLocation row = .ok ())
    (other : applied.kind ≠ .editDetails) :
    ∃ t, publishUnchanged env s p = some t ∧ t.locations.find p.locationId = some row ∧
      hoursOf t p.locationId = hoursOf s p.locationId ∧
      ∀ code, t.security.find (p.locationId, code) = s.security.find (p.locationId, code) := by
  have hid : row.id = p.locationId :=
    (changedRow_id changed).trans (Table.find_eq_some.mp located).2
  have happly : applyChange env s loc applied = .ok (row, setLocation s row) := by
    refine applyChange_ok.mpr ⟨changed, check, ?_⟩
    cases applied with
    | editDetails edit => exact absurd rfl other
    | moveLocation lat lon timezone => rfl
    | changeExistence present => rfl
  refine ⟨setLocation s row, ?_, ?_, rfl, fun _ => rfl⟩
  · simp [publishUnchanged, located, merged, happly, Except.toOption]
  · rw [find_setLocation, if_pos hid.symm, located]
    rfl

/-- A move that changes point and time zone has exactly these two cues. -/
theorem move_cue_iff {env : Env} (lawful : env.Lawful) {s : Store} {p : ProposalRow}
    {loc : LocationRow} {c : Json} (sound : Sound s) (found : s.proposals.find p.id = some p)
    (located : s.locations.find p.locationId = some loc)
    (active : loc.moderationState = .active) (kind : p.kind = .moveLocation)
    (noticed : NoticedPayload env loc p.proposed .moveLocation) (f : Field) :
    (f.label, p.id) ∈ cuesOf (some c) p ↔ Alters env s p f := by
  obtain ⟨x, y, tz, hm, hpoint, hzone⟩ := noticed
  rw [← kind] at hm
  have hmerged := merge_unchanged hm
  obtain ⟨row, changed, check⟩ := merged_admissible lawful hmerged
    (sound.payload _ _ found) (sound.location _ _ located) active
  obtain ⟨t, published, hrow, hhours, hsecurity⟩ :=
    publish_row located hm changed check (by simp [ProposalApplication.kind])
  simp only [changedRow, Option.some.injEq] at changed
  subst changed
  have zone : (p.proposed.get "timezone").isSome := by
    rw [kind] at hmerged
    cases hmerged with
    | moveLocation _ _ text name _ _ _ _ zone _ _ => rw [zone]; rfl
  have cue : (f.label, p.id) ∈ cuesOf (some c) p ↔ f.label = "point" ∨ f.label = "timezone" := by
    simp [cuesOf, fieldCues, securityCues, moveCues, existenceCues, kind, zone]
  have alters : Alters env s p f ↔ ¬ SameValue s t p.locationId f := by
    simp [Alters, published]
  have codes : ∀ code ∈ securityFeatureCodes, ¬ (code = "point" ∨ code = "timezone") := by decide
  rw [cue, alters]
  cases f with
  | point =>
    refine iff_of_true (.inl rfl) ?_
    simp only [SameValue, hrow, located, Option.map_some, Option.some.injEq]
    exact hpoint
  | timezone =>
    refine iff_of_true (.inr rfl) ?_
    simp only [SameValue, hrow, located, Option.map_some, Option.some.injEq]
    exact hzone
  | security code known => exact iff_of_false (codes code known) (not_not.mpr (hsecurity code))
  | hours =>
    refine iff_of_false (by decide) (not_not.mpr ⟨?_, by rw [hhours]⟩)
    simp [hrow, located]
  | name | address | description | parkingType | cost | existence =>
    refine iff_of_false (by decide) (not_not.mpr ?_)
    simp [SameValue, hrow, located, costColumns]

/-- A removal of an active location has the one cue it is listed with. -/
theorem existence_cue_iff {env : Env} (lawful : env.Lawful) {s : Store} {p : ProposalRow}
    {loc : LocationRow} {c : Json} (sound : Sound s) (found : s.proposals.find p.id = some p)
    (located : s.locations.find p.locationId = some loc)
    (active : loc.moderationState = .active) (kind : p.kind = .changeExistence)
    (noticed : NoticedPayload env loc p.proposed .changeExistence) (f : Field) :
    (f.label, p.id) ∈ cuesOf (some c) p ↔ Alters env s p f := by
  have hm : merge env p.kind (ProposedChange.fromJson env p.kind p.proposed) {} =
      .ok (.changeExistence false) := by
    rw [kind, show ProposedChange.fromJson env .changeExistence p.proposed = _ from noticed]
    rfl
  obtain ⟨row, changed, check⟩ := merged_admissible lawful (merge_unchanged hm)
    (sound.payload _ _ found) (sound.location _ _ located) active
  obtain ⟨t, published, hrow, hhours, hsecurity⟩ :=
    publish_row located hm changed check (by simp [ProposalApplication.kind])
  simp only [changedRow, Option.some.injEq] at changed
  subst changed
  have cue : (f.label, p.id) ∈ cuesOf (some c) p ↔ f.label = "existence" := by
    simp [cuesOf, fieldCues, securityCues, moveCues, existenceCues, kind]
  have alters : Alters env s p f ↔ ¬ SameValue s t p.locationId f := by
    simp [Alters, published]
  have codes : ∀ code ∈ securityFeatureCodes, code ≠ "existence" := by decide
  rw [cue, alters]
  cases f with
  | existence =>
    refine iff_of_true rfl ?_
    simp [SameValue, hrow, located, active]
  | security code known => exact iff_of_false (codes code known) (not_not.mpr (hsecurity code))
  | hours =>
    refine iff_of_false (by decide) (not_not.mpr ⟨?_, by rw [hhours]⟩)
    simp [hrow, located]
  | name | address | description | parkingType | cost | point | timezone =>
    refine iff_of_false (by decide) (not_not.mpr ?_)
    simp [SameValue, hrow, located, costColumns]

/-- Proposals of the location that wait for a decision and would change the field. -/
def Changing (env : Env) (s : Store) (l : LocationId) (f : Field) (p : ProposalRow) : Prop :=
  p ∈ s.proposals ∧ p.locationId = l ∧ p.status = .pending ∧ Alters env s p f

theorem cuesOf_id {c : Option Json} {p : ProposalRow} {k : String} {i : ProposalId}
    (h : (k, i) ∈ cuesOf c p) : i = p.id := by
  simp only [cuesOf, List.mem_append] at h
  rcases h with (h | h) | h
  · cases c with
    | none => cases h
    | some c =>
      rcases List.mem_append.mp h with h | h
      · exact (mem_fieldCues.mp h).2.1
      · simp only [securityCues] at h
        split at h
        · obtain ⟨item, -, hi⟩ := List.mem_filterMap.mp h
          split at hi
          · obtain ⟨code, -, he⟩ := Option.map_eq_some_iff.mp hi
            exact (Prod.mk.inj he).2.symm
          · cases hi
        · cases h
  · simp only [moveCues] at h
    split at h
    · rcases List.mem_cons.mp h with h | h
      · exact (Prod.mk.inj h).2
      · split at h <;> simp_all
    · cases h
  · simp only [existenceCues] at h
    split at h <;> simp_all

/-- In every run of canonical operations: a field has a cue exactly when some pending
proposal of the location would change its stored value, and the cue carries the greatest
such proposal. -/
theorem cues_match_changes (env : Env) (lawful : env.Lawful) (ops : List Op)
    (input : Along env (CanonicalInput env) Schema.empty ops) (l : LocationId) (f : Field) :
    ((∃ i, (f.label, i) ∈
        (pendingProposalSummary env (run env Schema.empty ops) l).fields) ↔
      ∃ p, Changing env (run env Schema.empty ops) l f p) ∧
    ∀ i, (f.label, i) ∈ (pendingProposalSummary env (run env Schema.empty ops) l).fields →
      IsGreatest {j | ∃ p, Changing env (run env Schema.empty ops) l f p ∧ p.id = j} i := by
  have inv := reachable_cuesInvariant lawful input
  have sound := reachable_sound env ops
  have snapshot := fun (l : LocationId) (loc : LocationRow)
    (h : (run env Schema.empty ops).locations.find l = some loc) =>
    currentSnapshot_describes inv.faithful h
  generalize run env Schema.empty ops = s at *
  have cue : ∀ i, (f.label, i) ∈ cues env s l ↔ ∃ p, Changing env s l f p ∧ p.id = i := by
    intro i
    have one : ∀ p ∈ s.proposals, p.locationId = l → p.status = .pending →
        ((f.label, p.id) ∈ cuesOf (currentSnapshot env s l) p ↔ Alters env s p f) := by
      rintro p hp rfl hpending
      have found := Table.find_of_mem hp
      obtain ⟨loc, located, -, active⟩ := fresh_location inv.fresh found hpending
      obtain ⟨c, hc, describes⟩ := snapshot p.locationId loc located
      have noticed := inv.noticed p.id p found hpending loc located
      rw [hc]
      cases kind : p.kind with
      | editDetails =>
        rw [kind] at noticed
        have readable := inv.readable p.id p found
        rw [kind] at readable
        cases decoded : Proposal.fromJson env p.proposed with
        | none => simp [ProposedChange.fromJson, decoded] at readable
        | some edit =>
          exact edit_cue_iff lawful sound inv found located active kind decoded
            (noticed edit decoded) describes f
      | moveLocation =>
        rw [kind] at noticed
        exact move_cue_iff lawful sound found located active kind noticed f
      | changeExistence =>
        rw [kind] at noticed
        exact existence_cue_iff lawful sound found located active kind noticed f
    simp only [cues, List.mem_flatMap, pendingOf, Table.mem_filter, decide_eq_true_eq]
    constructor
    · rintro ⟨p, ⟨hp, hl, hpending⟩, hcue⟩
      obtain rfl := cuesOf_id hcue
      exact ⟨p, ⟨hp, hl, hpending, (one p hp hl hpending).mp hcue⟩, rfl⟩
    · rintro ⟨p, ⟨hp, hl, hpending, halters⟩, rfl⟩
      exact ⟨p, ⟨hp, hl, hpending⟩, (one p hp hl hpending).mpr halters⟩
  refine ⟨?_, ?_⟩
  · simp only [pendingProposalSummary, exists_groupMax, cue]
    constructor
    · rintro ⟨_, p, hp, rfl⟩
      exact ⟨p, hp⟩
    · rintro ⟨p, hp⟩
      exact ⟨p.id, p, hp, rfl⟩
  · intro i hi
    obtain ⟨hmem, hmax⟩ := mem_groupMax.mp hi
    exact ⟨(cue i).mp hmem, fun j hj => hmax j ((cue j).mpr hj)⟩

theorem sampleEdit_cues :
    ((∃ i, ("name", i) ∈ (pendingProposalSummary Clock.env
        (run Clock.env Schema.empty (sampleStart sampleEdit)) 1).fields) ↔
      ∃ p, Changing Clock.env (run Clock.env Schema.empty (sampleStart sampleEdit)) 1 .name p) ∧
    ∀ i, ("name", i) ∈ (pendingProposalSummary Clock.env
        (run Clock.env Schema.empty (sampleStart sampleEdit)) 1).fields →
      IsGreatest {j | ∃ p, Changing Clock.env
        (run Clock.env Schema.empty (sampleStart sampleEdit)) 1 .name p ∧ p.id = j} i := by
  have decoded : Proposal.fromJson Clock.env (toJson Clock.env sampleEdit) = some sampleEdit := by
    decide
  have noticed : ∀ edit, Proposal.fromJson Clock.env (toJson Clock.env sampleEdit) = some edit →
      CanonicalEdit Clock.env (toJson Clock.env sampleEdit) edit := by
    intro edit h
    cases decoded.symm.trans h
    exact ⟨fun _ _ => rfl, by decide, by decide, by decide⟩
  exact cues_match_changes Clock.env Clock.env_lawful (sampleStart sampleEdit)
    ⟨trivial, trivial, ⟨by decide, by decide, by decide, by decide⟩, fun _ _ => noticed, trivial⟩
    1 .name

/-- An edit that renames a partly stated rack and repeats the one stated feature. -/
def partlyStatedRename : ParkingEdit := { sampleEdit with security := [⟨"cctv", .yes⟩] }

def partlyStatedStart : List Op :=
  enlist 1 ++ [.create 1 partlyStated 1, .createProposal 1 (proposeEdit partlyStatedRename)]

/-- The rename is listed as a change of a feature it leaves alone: the snapshot of a partly
stated rack lacks the entry that the payload repeats. -/
theorem partlyStated_false_cue :
    ¬ (∀ (ops : List Op) (l : LocationId) (f : Field),
      (∃ i, (f.label, i) ∈
          (pendingProposalSummary Clock.env (run Clock.env Schema.empty ops) l).fields) ↔
        ∃ p, Changing Clock.env (run Clock.env Schema.empty ops) l f p) := by
  intro h
  have listed : ("indoor", 1) ∈ (pendingProposalSummary Clock.env
      (run Clock.env Schema.empty partlyStatedStart) 1).fields := by decide +kernel
  obtain ⟨p, hp, -, -, halters⟩ :=
    (h partlyStatedStart 1 (.security "indoor" (by decide))).mp ⟨1, listed⟩
  have rows : (run Clock.env Schema.empty partlyStatedStart).proposals.rows =
      [newProposalRow 1 (proposeEdit partlyStatedRename) true] := by decide +kernel
  have unchanged : ¬ Alters Clock.env (run Clock.env Schema.empty partlyStatedStart)
      (newProposalRow 1 (proposeEdit partlyStatedRename) true)
      (.security "indoor" (by decide)) := by decide +kernel
  rw [Table.mem_rows, rows, List.mem_singleton] at hp
  rw [hp] at halters
  exact unchanged halters

end PendingCues
