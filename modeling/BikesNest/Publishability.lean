import BikesNest.Effects
import BikesNest.Lifecycle

/-! Whether an accepted proposal can be published. Acceptance is decided by the payload's
decoder, publication by the constraints of the tables it is written to. The two agree but
for the opening hours: their decoder admits rows that share a stored key, or a time that
lies beyond the column. -/

namespace Publishability

open Parking Proposal Schema Publishing Contribution Accounts Operations Effects Lifecycle

/-- A row that passes its checks and whose texts can go into a snapshot. -/
structure Admissible (r : LocationRow) : Prop where
  checked : checkLocation r = .ok ()
  currency : ∀ c ∈ r.priceCurrency, textOk c = true

theorem Admissible.forget {r : LocationRow} (h : Admissible r) (creator : Option UserId) :
    Admissible { r with creatorId := creator } := by
  obtain ⟨checked, currency⟩ := h
  rw [checkLocation_ok] at checked
  exact ⟨checkLocation_ok.mpr checked, currency⟩

theorem currency_text (c : CurrencyCode) : textOk c.text = true := by
  simp only [textOk, Bool.not_eq_true', List.contains_eq_mem, decide_eq_false_iff_not]
  intro h
  have := List.all_eq_true.mp c.valid.2 _ h
  simp [Char.isUpper] at this

theorem costParts_currency (cost : Cost) : ∀ c ∈ (costParts cost).2.2.1, textOk c = true := by
  intro c hc
  cases cost with
  | paid price =>
    cases price with
    | none => cases hc
    | some p =>
      simp only [costParts, Option.mem_def, Option.some.injEq] at hc
      rw [← hc]
      exact currency_text p.currency
  | free => cases hc
  | unknown => cases hc

/-- What publishing relies on: stored rows are admissible, security rows carry known texts
and payloads hold no zero character. -/
structure Sound (s : Store) : Prop where
  location : ∀ l r, s.locations.find l = some r → Admissible r
  security : ∀ k r, s.security.find k = some r → textOk r.featureCode = true
  payload : ∀ i p, s.proposals.find i = some p → p.proposed.storable = true

theorem Kept.location_admissible {s t : Store} (h : Kept s t)
    (sound : ∀ l r, s.locations.find l = some r → Admissible r) :
    ∀ l r, t.locations.find l = some r → Admissible r := by
  intro l r hr
  obtain ⟨forget, hf⟩ := h.location l
  rw [hf, Option.map_eq_some_iff] at hr
  obtain ⟨r', hr', rfl⟩ := hr
  exact (sound l r' hr').forget _

theorem changedRow_currency {loc row : LocationRow} {applied : ProposalApplication}
    (h : changedRow loc applied = some row) (hloc : ∀ c ∈ loc.priceCurrency, textOk c = true) :
    ∀ c ∈ row.priceCurrency, textOk c = true := by
  cases applied with
  | editDetails edit =>
    simp only [changedRow, Option.ite_none_right_eq_some, Option.some.injEq] at h
    rw [← h.2]
    exact costParts_currency edit.cost
  | moveLocation lat lon timezone =>
    simp only [changedRow, Option.some.injEq] at h
    rw [← h]
    exact hloc
  | changeExistence present =>
    simp only [changedRow, Option.some.injEq] at h
    rw [← h]
    exact hloc

/-- Overwriting one row with an admissible one keeps every row admissible. -/
theorem admissible_setLocation {s t : Store} {row : LocationRow}
    (h : t.locations = (setLocation s row).locations) (hrow : Admissible row)
    (sound : ∀ l r, s.locations.find l = some r → Admissible r) :
    ∀ l r, t.locations.find l = some r → Admissible r := by
  intro l r hr
  rw [h, find_setLocation] at hr
  split at hr
  · obtain ⟨_, -, rfl⟩ := Option.map_eq_some_iff.mp hr
    exact hrow
  · exact sound l r hr

theorem security_write {s t : Store} {id : LocationId} {security : List SecurityFeature}
    (h : t.security = (writeSecurity s id security).security)
    (sound : ∀ k r, s.security.find k = some r → textOk r.featureCode = true) :
    ∀ k r, t.security.find k = some r → textOk r.featureCode = true := by
  intro k r hr
  have known : ∀ code ∈ securityFeatureCodes, textOk code = true := by decide
  rw [h, find_writeSecurity] at hr
  split at hr
  · rename_i hk
    cases hr
    exact known _ hk.2
  · exact sound k r hr

theorem security_parts {env : Env} {s t : Store} {id : LocationId}
    {applied : ProposalApplication} (h : writeParts env s id applied = .ok t)
    (sound : ∀ k r, s.security.find k = some r → textOk r.featureCode = true) :
    ∀ k r, t.security.find k = some r → textOk r.featureCode = true := by
  rcases writeParts_cases h with ⟨-, rfl⟩ | ⟨edit, filled, -, hf, rfl⟩
  · exact sound
  · obtain ⟨-, -, rows, -, rfl⟩ := writeHours_ok.mp hf
    exact security_write (s := { s with hours := rows }) rfl sound

theorem moderatedRow_admissible {old : LocationRow} {target : ModerationState}
    (h : Admissible old) : Admissible (moderatedRow old target) := by
  obtain ⟨checked, currency⟩ := h
  rw [checkLocation_ok] at checked
  exact ⟨checkLocation_ok.mpr checked, currency⟩

theorem published_sound {env : Env} {s t : Store} {id : ProposalId} {moderator : UserId}
    {applied : ProposalApplication} {prop : ProposalRow} {loc row : LocationRow} {parts : Store}
    (h : Published env s t id moderator applied prop loc row parts)
    (location : ∀ l r, s.locations.find l = some r → Admissible r)
    (security : ∀ k r, s.security.find k = some r → textOk r.featureCode = true) :
    (∀ l r, t.locations.find l = some r → Admissible r) ∧
      ∀ k r, t.security.find k = some r → textOk r.featureCode = true := by
  refine ⟨admissible_setLocation h.locations ⟨h.admissible, ?_⟩ location, ?_⟩
  · exact changedRow_currency h.changed (location _ _ h.located).currency
  · rw [h.security]
    exact security_parts h.written security

theorem perform_sound {env : Env} {s t : Store} {op : Op} (h : perform env s op = .ok t)
    (sound : Sound s) : Sound t := by
  have payload : ∀ i p, t.proposals.find i = some p → p.proposed.storable = true := by
    intro i q hq
    rcases proposal_origin h hq with ⟨p, hp, same⟩ | ⟨n, loc, author, -, hs, rfl⟩
    · rw [← same.proposed]
      exact sound.payload i p hp
    · exact hs.storable
  obtain ⟨location, security, -⟩ := sound
  cases perform_effect h with
  | kept hk => exact ⟨Kept.location_admissible hk location, hk.security ▸ security, payload⟩
  | created tz parts hc =>
    refine ⟨?_, ?_, payload⟩
    · intro l r hr
      rw [Table.find_insert hc.inserted] at hr
      split at hr
      · cases hr
        exact ⟨hc.admissible, costParts_currency _⟩
      · exact location l r hr
    · obtain ⟨-, -, rows, -, hparts⟩ := writeHours_ok.mp hc.written
      refine security_write (s := parts) (by rw [hc.outcome]) ?_
      rw [← hparts]
      exact security
  | edited loc row point tz parts he =>
    refine ⟨?_, ?_, payload⟩
    · refine admissible_setLocation he.frame.1 ⟨he.admissible, ?_⟩ location
      exact changedRow_currency he.changed (location _ _ he.found).currency
    · obtain ⟨-, -, rows, -, hparts⟩ := writeHours_ok.mp he.written
      refine security_write (s := parts) (by rw [he.outcome]) ?_
      rw [← hparts]
      exact security
  | moderated old hm =>
    refine ⟨?_, ?_, payload⟩
    · exact admissible_setLocation hm.locations
        (moderatedRow_admissible (location _ _ hm.found)) location
    · rw [hm.outcome]
      exact security
  | approved prop loc row parts hp =>
    obtain ⟨hl, hs⟩ := published_sound hp location security
    exact ⟨hl, hs, payload⟩
  | voted applied prop loc row parts hm hp =>
    obtain ⟨hl, hs⟩ := published_sound hp location security
    exact ⟨hl, hs, payload⟩

theorem reachable_sound (env : Env) (ops : List Op) : Sound (run env Schema.empty ops) := by
  refine run_invariant (P := Sound) ?_ (along_true _ ops) ?_
  · exact fun s t op sound _ h => perform_sound h sound
  · constructor <;> simp [Schema.empty]

/-- The key of a stored hours row within its location. -/
def storedKey (env : Env) (row : ℕ × TimeRange) : ℕ × ℕ × ℕ :=
  (row.1, env.timeToSql (storedRange row.2).opensAt, env.timeToSql (storedRange row.2).closesAt)

/-- Opening hours the table can hold: their stored times lie within the day, and no two rows
share day and stored bounds. -/
def StorableHours (env : Env) (hours : OpeningHours) : Prop :=
  (∀ row ∈ hours.rows, (storedKey env row).2.1 ≤ lastTime ∧ (storedKey env row).2.2 ≤ lastTime) ∧
    (hours.rows.map (storedKey env)).Nodup

instance (env : Env) (hours : OpeningHours) : Decidable (StorableHours env hours) :=
  inferInstanceAs (Decidable (_ ∧ _))

theorem writeHours_succeeds {env : Env} {s : Store} {id : LocationId} {hours : OpeningHours} :
    (∃ t, writeHours env s id hours = .ok t) ↔
      StorableHours env hours ∧ ∀ row ∈ hours.rows, 1 ≤ row.1 ∧ row.1 ≤ 7 := by
  have free : ∀ r ∈ hours.rows.map (hoursRow env id),
      (s.hours.delete fun r => decide (r.locationId = id)).find
        (r.locationId, r.dayOfWeek, r.opensAt, r.closesAt) = none := by
    intro r hr
    obtain ⟨row, -, rfl⟩ := List.mem_map.mp hr
    rw [Table.find_eq_none]
    intro q hq hk
    have hid := (Table.mem_delete.mp hq).2
    simp only [decide_eq_false_iff_not] at hid
    exact hid (congrArg Prod.fst hk)
  have keys : ((hours.rows.map (hoursRow env id)).map
      fun r => (r.locationId, r.dayOfWeek, r.opensAt, r.closesAt)) =
      (hours.rows.map (storedKey env)).map (Prod.mk id) := by
    rw [List.map_map, List.map_map]
    rfl
  have inject : Function.Injective (Prod.mk id : ℕ × ℕ × ℕ → LocationId × ℕ × ℕ × ℕ) :=
    fun a b h => (Prod.mk.inj h).2
  constructor
  · rintro ⟨t, ht⟩
    obtain ⟨hday, hweek, filled, hins, -⟩ := writeHours_ok.mp ht
    have hn := (Table.insertAll_eq_some.mp hins).2.1
    rw [keys, List.nodup_map_iff inject] at hn
    exact ⟨⟨fun row hr => hday _ (List.mem_map_of_mem hr), hn⟩,
      fun row hr => hweek _ (List.mem_map_of_mem hr)⟩
  · rintro ⟨⟨hday, hn⟩, hweek⟩
    obtain ⟨filled, hins⟩ := Table.insertAll_isSome.mpr
      ⟨by rw [keys, List.nodup_map_iff inject]; exact hn, free⟩
    refine ⟨{ s with hours := filled }, writeHours_ok.mpr ⟨?_, ?_, filled, hins, rfl⟩⟩
    · intro r hr
      obtain ⟨row, hrow, rfl⟩ := List.mem_map.mp hr
      exact hday row hrow
    · intro r hr
      obtain ⟨row, hrow, rfl⟩ := List.mem_map.mp hr
      exact hweek row hrow

/-- When the write part of an approval succeeds, whatever the store it runs on. -/
theorem applyChange_succeeds {env : Env} {s : Store} {loc : LocationRow}
    {applied : ProposalApplication} :
    (∃ row t, applyChange env s loc applied = .ok (row, t)) ↔
      (∃ row, changedRow loc applied = some row ∧ checkLocation row = .ok ()) ∧
      ∀ edit, applied = .editDetails edit →
        StorableHours env edit.hours ∧ ∀ row ∈ edit.hours.rows, 1 ≤ row.1 ∧ row.1 ≤ 7 := by
  simp only [applyChange_ok]
  constructor
  · rintro ⟨row, t, hchanged, hcheck, hparts⟩
    refine ⟨⟨row, hchanged, hcheck⟩, ?_⟩
    rintro edit rfl
    rcases writeParts_cases hparts with ⟨hk, -⟩ | ⟨edit', filled, he, hf, -⟩
    · exact absurd rfl hk
    · cases he
      exact writeHours_succeeds.mp ⟨filled, hf⟩
  · rintro ⟨⟨row, hchanged, hcheck⟩, hhours⟩
    cases applied with
    | editDetails edit =>
      have succeeds : ∃ filled, writeHours env (setLocation s row) loc.id edit.hours =
          .ok filled := writeHours_succeeds.mpr (hhours edit rfl)
      obtain ⟨filled, hf⟩ := succeeds
      exact ⟨row, writeSecurity filled loc.id edit.security, hchanged, hcheck,
        by simp [writeParts, hf, Except.mapError]⟩
    | moveLocation lat lon timezone => exact ⟨row, _, hchanged, hcheck, rfl⟩
    | changeExistence present => exact ⟨row, _, hchanged, hcheck, rfl⟩

theorem textOk_of_storable {s : String} (h : (Json.str s).storable = true) : textOk s = true := h

theorem textOk_trim {s : String} (h : textOk s = true) : textOk (trim s) = true := by
  simp only [textOk, Bool.not_eq_true', List.contains_eq_mem, decide_eq_false_iff_not] at h ⊢
  exact fun hm => h (mem_of_mem_trim hm)

theorem costParts_shape (cost : Cost) :
    (costParts cost).1 = .paid ∨ (costParts cost).2 = (none, none, none) := by
  cases cost with
  | paid price => cases price <;> exact .inl rfl
  | free => exact .inr rfl
  | unknown => exact .inr rfl

theorem costParts_cents {raw : Json} {env : Env} {edit : ParkingEdit}
    (h : Decoded env raw edit) : ∀ c ∈ (costParts edit.cost).2.1, 0 ≤ c := by
  obtain ⟨j, price, kind, -, hprice, -, hcost⟩ := h.cost
  intro c hc
  rcases (fromKindAndPrice_eq hcost).2 with he | he | he
  · rw [he] at hc
    cases hc
  · rw [he] at hc
    cases price with
    | none => cases hc
    | some p =>
      simp only [costParts, Option.mem_def, Option.some.injEq] at hc
      rw [← hc]
      exact priceFromJson_nonneg hprice
  · rw [he] at hc
    cases hc

/-- An unchanged payload always yields a row the location's checks admit. -/
theorem merged_admissible {env : Env} (lawful : env.Lawful) {raw : Json}
    {kind : ProposalKind} {applied : ProposalApplication}
    (merged : MergedPayload env raw kind applied) (storable : raw.storable = true)
    {loc : LocationRow} (hloc : Admissible loc) (active : loc.moderationState = .active) :
    ∃ row, changedRow loc applied = some row ∧ checkLocation row = .ok () := by
  obtain ⟨⟨hname, haddress, hdescription, hzone⟩, hshape, hcents⟩ :=
    checkLocation_ok.mp hloc.checked
  cases merged with
  | editDetails edit hd =>
    have dec := fromJson_decoded hd
    simp only [changedRow, active, if_true]
    refine ⟨_, rfl, checkLocation_ok.mpr ⟨⟨?_, ?_, ?_, hzone⟩, ?_, costParts_cents dec⟩⟩
    · obtain ⟨s, hs, he⟩ := dec.name
      rw [he, trim_trim]
      exact textOk_trim (Json.storable_get storable hs)
    · obtain ⟨s, hs, he⟩ := dec.address
      rw [he, trim_trim]
      exact textOk_trim (Json.storable_get storable hs)
    · obtain ⟨d, hs, he⟩ := dec.description
      have hd := Json.storable_get storable hs
      rw [descriptionFromJson_eq he] at hd
      cases hc : edit.description with
      | none => rfl
      | some s =>
        rw [hc] at hd
        exact hd
    · rcases costParts_shape edit.cost with h | h
      · exact .inl h
      · exact .inr (by simp [h])
  | moveLocation x y text name tz hx hy hrange zone trimmed known =>
    refine ⟨_, rfl, checkLocation_ok.mpr ⟨⟨hname, haddress, hdescription, ?_⟩, hshape, hcents⟩⟩
    rw [lawful.parseTz_name name tz known, trimmed]
    exact textOk_trim (Json.storable_get storable zone)
  | changeExistence present hp =>
    exact ⟨_, rfl, checkLocation_ok.mpr ⟨⟨hname, haddress, hdescription, hzone⟩, hshape, hcents⟩⟩

theorem storable_snapshotObject {name address : String} {description : Option String}
    {parkingType : String} {cost : Json} {lat lon : ℚ} {timezone : String} {hours : Json}
    {security : List Json} {state : String} :
    (snapshotObject name address description parkingType cost lat lon timezone hours security
      state).storable = true ↔
      textOk name = true ∧ textOk address = true ∧ description.all textOk = true ∧
      textOk parkingType = true ∧ cost.storable = true ∧ textOk timezone = true ∧
      hours.storable = true ∧ Json.storableItems security = true ∧ textOk state = true := by
  have hd : (optStr description).storable = description.all textOk := by
    cases description <;> rfl
  have keys : ∀ k ∈ ["address", "cost", "description", "hours", "moderation_state", "name",
      "point", "lat", "lon", "security", "timezone", "type"],
      (!k.toList.contains '\x00') = true := by decide
  simp only [List.forall_mem_cons] at keys
  obtain ⟨k₁, k₂, k₃, k₄, k₅, k₆, k₇, k₈, k₉, k₁₀, k₁₁, k₁₂, -⟩ := keys
  simp only [snapshotObject, Json.storable, Json.storableFields, k₁, k₂, k₃, k₄, k₅, k₆, k₇, k₈,
    k₉, k₁₀, k₁₁, k₁₂, hd, Bool.true_and, Bool.and_true, Bool.and_eq_true]
  simp only [textOk]
  tauto

theorem storableItems_iff {js : List Json} :
    Json.storableItems js = true ↔ ∀ j ∈ js, j.storable = true := by
  induction js with
  | nil => simp [Json.storableItems]
  | cons j js ih => simp [Json.storableItems, ih]

theorem storable_costColumns {kind : CostKind} {cents : Option ℤ} {currency : Option String}
    {unit : Option PricingUnit} (h : ∀ c ∈ currency, textOk c = true) :
    (costColumnsJson kind cents currency unit).storable = true := by
  unfold costColumnsJson
  split
  · rename_i c cur u
    have hcur := h cur rfl
    simp only [Json.storable, Json.storableFields]
    simp only [textOk] at hcur
    cases u <;> rw [hcur] <;> decide
  · cases kind <;> decide

theorem storable_hoursRows {env : Env} (lawful : env.Lawful) (rows : List HoursRow) (b : Bool) :
    (Json.obj [("rows", .arr (rows.map (hoursRowJson env))), ("unknown", .bool b)]).storable =
      true := by
  have items : Json.storableItems (rows.map (hoursRowJson env)) = true := by
    rw [storableItems_iff]
    intro j hj
    obtain ⟨r, -, rfl⟩ := List.mem_map.mp hj
    simp only [hoursRowJson, Json.storable, Json.storableItems, lawful.render_text]
    rfl
  have keys : (!"rows".toList.contains '\x00') = true ∧ (!"unknown".toList.contains '\x00') = true :=
    by decide
  simp only [Json.storable, Json.storableFields, items, keys.1, keys.2, Bool.and_true]

/-- A snapshot read back from sound rows can be stored. -/
theorem storable_snapshotWith {env : Env} (lawful : env.Lawful) {s : Store} {row : LocationRow}
    (hrow : Admissible row)
    (security : ∀ k r, s.security.find k = some r → textOk r.featureCode = true) :
    (snapshotWith env s row).storable = true := by
  obtain ⟨⟨hname, haddress, hdescription, hzone⟩, -, -⟩ := checkLocation_ok.mp hrow.checked
  refine storable_snapshotObject.mpr ⟨hname, haddress, hdescription, ?_,
    storable_costColumns hrow.currency, hzone, storable_hoursRows lawful _ _, ?_, ?_⟩
  · cases row.parkingType <;> decide
  · rw [storableItems_iff]
    intro j hj
    obtain ⟨r, hr, rfl⟩ := List.mem_map.mp hj
    have hcode := security _ r (Table.find_of_mem (Table.mem_filter.mp hr).1)
    simp only [textOk] at hcode
    simp only [securityRowJson, Json.storable, Json.storableItems, hcode, Bool.and_true]
  · cases row.moderationState <;> decide

/-- The next revision number of a location is free. -/
theorem next_revision_free {env : Env} {ops : List Op} {l : LocationId} {loc : LocationRow}
    (h : (run env Schema.empty ops).locations.find l = some loc) :
    (run env Schema.empty ops).revisions.find (l, loc.version + 1) = none := by
  have hist := (reachable_invariant env ops).history l
  rw [Table.find_eq_none]
  intro r hr hk
  simp only [Prod.mk.injEq] at hk
  have hm : loc.version + 1 ∈ recorded (run env Schema.empty ops) l := by
    refine List.mem_map.mpr ⟨r, ?_, hk.2⟩
    exact Table.mem_filter.mpr ⟨hr, by simp [hk.1]⟩
  have hd : (view (run env Schema.empty ops)).doc l = some (docOf loc) := by
    simp [view, h]
  rw [hd] at hist
  change loc.version + 1 ∈ (view (run env Schema.empty ops)).history l at hm
  rw [hist] at hm
  simp [docOf, List.mem_range'] at hm
  omega

/-- Publishing `p` as it stands is never refused: the write part succeeds, and so every vote
of an eligible account other than the proposer commits; with six approvals it publishes the
proposal, or leaves it pending and handed to a moderator. -/
structure Publishable (env : Env) (s : Store) (p : ProposalRow) (loc : LocationRow) : Prop where
  written : ∀ applied,
    merge env p.kind (ProposedChange.fromJson env p.kind p.proposed) {} = .ok applied →
    ∃ row t, applyChange env s loc applied = .ok (row, t)
  voted : ∀ voter u vote now, s.users.find voter = some u → eligibleVoter u = true →
    p.proposerId ≠ some voter →
    ∃ totals t, voteOnProposal env s p.id voter vote now = .ok (totals, t) ∧
      (shouldPublish totals.approvals = true → totals.published = true ∨
        ∃ q, t.proposals.find p.id = some q ∧ q.status = .pending ∧ q.escalatedAt.isSome)

/-- An approval whose write part succeeds is carried out. -/
theorem approve_of_written {env : Env} (lawful : env.Lawful) {s : Store} (sound : Sound s)
    {p : ProposalRow} {loc : LocationRow} {applied : ProposalApplication} {id : ProposalId}
    {moderator : UserId} (found : s.proposals.find id = some p)
    (located : s.locations.find p.locationId = some loc) (pending : p.status = .pending)
    (current : p.baseVersion = loc.version) (kind : p.kind = applied.kind)
    (byOther : p.proposerId ≠ some moderator) (user : (s.users.find moderator).isSome)
    (free : s.revisions.find (p.locationId, loc.version + 1) = none)
    (written : ∃ row t, applyChange env s loc applied = .ok (row, t)) :
    ∃ t, approveInTransaction env s id moderator applied = .ok t := by
  have hid := (Table.find_eq_some.mp located).2
  obtain ⟨row, parts, happly⟩ := written
  obtain ⟨changed, check, hparts⟩ := applyChange_ok.mp happly
  have hrow : Admissible row :=
    ⟨check, changedRow_currency changed (sound.location _ _ located).currency⟩
  have hstore := storable_snapshotWith lawful hrow (security_parts hparts sound.security)
  obtain ⟨revisions, hins⟩ := Table.insert_isSome (t := s.revisions) (r := ⟨loc.id, row.version,
    some moderator, .moderation, appliedSummary applied, snapshotWith env parts row⟩).mpr
    (by simp only [hid, changedRow_version changed]; exact free)
  exact ⟨supersedePendingProposals (decideProposal { parts with revisions := revisions } id
      .approved moderator fun r => r) loc.id (some id),
    approve_ok.mpr ⟨p, loc, row, parts, found, located, pending, current, kind, byOther, changed,
      check, hparts, hstore, user, hins, rfl⟩⟩

theorem approve_succeeds {env : Env} (lawful : env.Lawful) {ops : List Op} {p : ProposalRow}
    {loc : LocationRow} {applied : ProposalApplication} {id : ProposalId} {voter : UserId}
    (vote : ProposalVote) (hv : Votable (run env Schema.empty ops) id voter p loc)
    (hu : ((run env Schema.empty ops).users.find voter).isSome)
    (hm : merge env p.kind (ProposedChange.fromJson env p.kind p.proposed) {} = .ok applied)
    (written : ∃ row t, applyChange env (run env Schema.empty ops) loc applied = .ok (row, t)) :
    ∃ t, approveInTransaction env (upsertVote (run env Schema.empty ops) id voter vote) id voter
      applied = .ok t := by
  obtain ⟨location, security, payload⟩ := reachable_sound env ops
  have sound : Sound (upsertVote (run env Schema.empty ops) id voter vote) :=
    ⟨location, security, payload⟩
  exact approve_of_written lawful sound hv.found hv.located hv.pending hv.current
    (merge_kind hm).symm hv.byOther hu (next_revision_free hv.located)
    (applyChange_succeeds.mpr (applyChange_succeeds.mp written))

/-- A committed vote that reached six approvals published the proposal or left it pending and
escalated. -/
theorem settled_outcome {env : Env} {s t : Store} {p : ProposalRow} {loc : LocationRow}
    {voter : UserId} {vote : ProposalVote} {approvals : ℕ} {now : Instant} {published : Bool}
    (hv : Votable s p.id voter p loc)
    (h : settleVote env (upsertVote s p.id voter vote) p voter approvals now =
      .ok (published, t)) (hpub : shouldPublish approvals = true) :
    published = true ∨
      ∃ q, t.proposals.find p.id = some q ∧ q.status = .pending ∧ q.escalatedAt.isSome := by
  rcases settleVote_cases h with ⟨rfl, -⟩ | ⟨-, ⟨-, hesc⟩, -, rfl⟩ | ⟨-, hnot, rfl⟩
  · exact .inl rfl
  · refine .inr ⟨{ p with escalatedAt := some now }, ?_, hv.pending, rfl⟩
    simp only [escalate, upsertVote, Table.find_update, hv.found]
    simp [hesc]
  · refine .inr ⟨p, hv.found, hv.pending, ?_⟩
    rw [Option.isSome_iff_ne_none]
    exact fun hesc => hnot ⟨hpub, hesc⟩

/-- For every pending proposal of every reachable state whose location is active at the
proposal's base: it can be published as it stands exactly when the opening hours of its
payload can be stored. -/
theorem publishable_iff_storable_hours (env : Env) (lawful : env.Lawful) (ops : List Op)
    (p : ProposalRow) (found : p ∈ (run env Schema.empty ops).proposals)
    (pending : p.status = .pending) (loc : LocationRow)
    (located : (run env Schema.empty ops).locations.find p.locationId = some loc)
    (active : loc.moderationState = .active) (current : p.baseVersion = loc.version) :
    Publishable env (run env Schema.empty ops) p loc ↔
      ∀ edit, ProposedChange.fromJson env p.kind p.proposed = .editDetails edit →
        StorableHours env edit.hours := by
  have sound := reachable_sound env ops
  constructor
  · intro h edit hedit
    obtain ⟨hk, -⟩ := fromJson_editDetails.mp hedit
    have hm : merge env p.kind (ProposedChange.fromJson env p.kind p.proposed) {} =
        .ok (.editDetails edit) := by
      rw [hedit, hk]
      rfl
    exact ((applyChange_succeeds.mp (h.written _ hm)).2 edit rfl).1
  · intro hhours
    have written : ∀ applied,
        merge env p.kind (ProposedChange.fromJson env p.kind p.proposed) {} = .ok applied →
        ∃ row t, applyChange env (run env Schema.empty ops) loc applied = .ok (row, t) := by
      intro applied hm
      refine applyChange_succeeds.mpr ⟨?_, ?_⟩
      · exact merged_admissible lawful (merge_unchanged hm)
          (sound.payload _ _ (Table.find_of_mem found)) (sound.location _ _ located) active
      · rintro edit rfl
        have hk := merge_kind hm
        have hu := merge_unchanged hm
        rw [← hk] at hu
        cases hu with
        | editDetails _ hd =>
          refine ⟨hhours edit (fromJson_editDetails.mpr ⟨hk.symm, hd⟩), ?_⟩
          obtain ⟨h, -, hh⟩ := (fromJson_decoded hd).hours
          exact hoursFromJson_days hh
    refine ⟨written, ?_⟩
    intro voter u vote now hu he hother
    have hv : Votable (run env Schema.empty ops) p.id voter p loc :=
      ⟨Table.find_of_mem found, located, active, current, pending, hother⟩
    obtain ⟨published, t, hsettle⟩ := settleVote_succeeds
      (countVotes (upsertVote (run env Schema.empty ops) p.id voter vote) p.id .approve) now
      fun applied hm => approve_succeeds lawful vote hv (by rw [hu]; rfl) hm
        (written applied hm)
    exact ⟨⟨_, _, published⟩, t,
      voteOnProposal_ok.mpr ⟨p, loc, u, hv, hu, he, rfl, rfl, hsettle⟩,
      settled_outcome hv hsettle⟩

theorem sampleProposal_publishable :
    Publishable Clock.env (run Clock.env Schema.empty (sampleStart sampleEdit))
      (newProposalRow 1 (proposeEdit sampleEdit) true)
      (newRow 1 sampleRack ⟨"Europe/Berlin"⟩ 1) := by
  refine (publishable_iff_storable_hours Clock.env Clock.env_lawful (sampleStart sampleEdit)
    (newProposalRow 1 (proposeEdit sampleEdit) true) (Table.mem_rows.mpr (by decide)) rfl
    (newRow 1 sampleRack ⟨"Europe/Berlin"⟩ 1) rfl rfl rfl).mpr ?_
  intro edit h
  obtain rfl : sampleEdit = edit := by
    have : ProposedChange.fromJson Clock.env .editDetails (toJson Clock.env sampleEdit) =
        .editDetails sampleEdit := by decide
    exact ProposedChange.editDetails.inj (this.symm.trans h)
  decide

/-- The same opening hours given twice for a Monday. -/
def doubledHours : ParkingEdit :=
  let hours : TimeRange := ⟨⟨28800, 0, by decide⟩, ⟨64800, 0, by decide⟩, false⟩
  { sampleEdit with hours := .weekly [(1, hours), (1, hours)] }

/-- Five approvals of the doubled hours, and a sixth account that has not voted yet. -/
def doubledVotes : List Op :=
  sampleStart doubledHours ++ approvals [2, 3, 4, 5, 6] ++ enlist 7

/-- The doubled row is accepted and stays pending on an active location at its base; five
approvals stand, and the sixth is rolled back with the publication it would cause. -/
theorem doubledHours_roll_back :
    ¬ (∀ (ops : List Op) (p : ProposalRow) (loc : LocationRow),
      (run Clock.env Schema.empty ops).proposals.find p.id = some p → p.status = .pending →
      (run Clock.env Schema.empty ops).locations.find p.locationId = some loc →
      loc.moderationState = .active → p.baseVersion = loc.version →
      ∀ voter u, (run Clock.env Schema.empty ops).users.find voter = some u →
        eligibleVoter u = true → p.proposerId ≠ some voter →
        ∃ r, voteOnProposal Clock.env (run Clock.env Schema.empty ops) p.id voter .approve 0 =
          .ok r) := by
  intro h
  obtain ⟨r, hr⟩ := h doubledVotes (newProposalRow 1 (proposeEdit doubledHours) true)
    (newRow 1 sampleRack ⟨"Europe/Berlin"⟩ 1) (by decide +kernel) rfl (by decide +kernel) rfl rfl
    7 ⟨7, .active, some 0, true⟩ (by decide +kernel) rfl (by decide)
  have hfail : (voteOnProposal Clock.env (run Clock.env Schema.empty doubledVotes) 1 7
      .approve 0).isOk = false := by decide +kernel
  change voteOnProposal Clock.env (run Clock.env Schema.empty doubledVotes) 1 7 .approve 0 =
    .ok r at hr
  rw [hr] at hfail
  cases hfail

end Publishability
