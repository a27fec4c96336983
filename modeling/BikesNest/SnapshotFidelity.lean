import BikesNest.Effects
import BikesNest.Lifecycle

/-! Whether the newest revision of a location describes its rows. The moderation repository
reads the snapshot back from the rows, so it always does; `create` and `apply_edit` build it
from the request, and there it does when the request is in the form the store keeps. -/

namespace SnapshotFidelity

open Parking Proposal Schema Publishing Contribution Accounts Operations Effects Lifecycle

/-- The snapshot holds the columns of the row, the location's hours rows in the canonical
order and the time format of the column, and exactly its security rows. -/
def Describes (env : Env) (s : Store) (loc : LocationRow) (snapshot : Json) : Prop :=
  ∃ (rows : List HoursRow) (security : List Json),
    rows.Perm (hoursOf s loc.id) ∧ rows.Pairwise hoursBefore ∧
    security.Perm ((readSecurity s loc.id).map securityRowJson) ∧
    snapshot = snapshotObject loc.name loc.address loc.description loc.parkingType.asCode
      (costColumnsJson loc.costKind loc.priceCents loc.priceCurrency loc.priceUnit)
      loc.lat loc.lon loc.timezone
      (.obj [("rows", .arr (rows.map (hoursRowJson env))), ("unknown", .bool loc.hoursUnknown)])
      security loc.moderationState.asCode

instance : Std.Total hoursBefore where
  total a b := by
    simp only [hoursBefore]
    omega

instance : IsTrans HoursRow hoursBefore where
  trans a b c := by
    simp only [hoursBefore]
    omega

theorem describes_snapshotWith (env : Env) (s : Store) (row : LocationRow) :
    Describes env s row (snapshotWith env s row) :=
  ⟨readHours s row.id, _, List.perm_insertionSort _ _, List.pairwise_insertionSort _ _, .refl _,
    rfl⟩

/-- A row whose stored bounds read back as the bounds given. -/
def ReadsBack (env : Env) (row : ℕ × TimeRange) : Prop :=
  env.timeOfSql (env.timeToSql (storedRange row.2).opensAt) = row.2.opensAt ∧
    env.timeOfSql (env.timeToSql (storedRange row.2).closesAt) = row.2.closesAt

instance (env : Env) (row : ℕ × TimeRange) : Decidable (ReadsBack env row) :=
  inferInstanceAs (Decidable (_ ∧ _))

/-- Opening hours in the form the store keeps: every row reads back, all-day rows with the
canonical bounds among them, and the rows are in the order of day and opening time. -/
def CanonicalHours (env : Env) (hours : OpeningHours) : Prop :=
  (∀ row ∈ hours.rows, ReadsBack env row) ∧
    (hours.rows.map (hoursRow env 0)).Pairwise hoursBefore

instance (env : Env) (hours : OpeningHours) : Decidable (CanonicalHours env hours) :=
  inferInstanceAs (Decidable (_ ∧ _))

/-- Every known feature once, in any order, and no other. -/
def CompleteSecurity (security : List SecurityFeature) : Prop :=
  (security.map SecurityFeature.code).Perm securityFeatureCodes

instance (security : List SecurityFeature) : Decidable (CompleteSecurity security) :=
  inferInstanceAs (Decidable (List.Perm _ _))

/-- A request whose snapshot will describe the rows it writes. -/
def FaithfulInput (env : Env) : Op → Prop
  | .create _ new _ => trim new.name = new.name ∧ trim new.address = new.address ∧
      CanonicalHours env new.hours ∧ CompleteSecurity new.security
  | .applyEdit _ _ edit _ => CanonicalHours env edit.hours ∧ CompleteSecurity edit.security
  | _ => True

theorem costJson_columns (cost : Cost) :
    costJson cost = costColumnsJson (costParts cost).1 (costParts cost).2.1
      (costParts cost).2.2.1 (costParts cost).2.2.2 := by
  cases cost with
  | paid price => cases price <;> rfl
  | free => rfl
  | unknown => rfl

theorem timeRangeJson_readsBack {env : Env} {row : ℕ × TimeRange} (id : LocationId)
    (h : ReadsBack env row) : timeRangeJson env row = hoursRowJson env (hoursRow env id row) := by
  simp only [timeRangeJson, hoursRowJson, hoursRow, h.1, h.2]

theorem hoursBefore_hoursRow (env : Env) (id : LocationId) (rows : List (ℕ × TimeRange))
    (h : (rows.map (hoursRow env 0)).Pairwise hoursBefore) :
    (rows.map (hoursRow env id)).Pairwise hoursBefore := by
  rw [List.pairwise_map] at h ⊢
  exact h

theorem hoursJson_canonical {env : Env} {hours : OpeningHours} (id : LocationId)
    (h : CanonicalHours env hours) :
    hoursJson env hours.isUnknown hours.rows =
      .obj [("rows", .arr ((hours.rows.map (hoursRow env id)).map (hoursRowJson env))),
        ("unknown", .bool hours.isUnknown)] := by
  have rows : hours.rows.map (timeRangeJson env) =
      (hours.rows.map (hoursRow env id)).map (hoursRowJson env) := by
    rw [List.map_map]
    exact List.map_congr_left fun row hr => timeRangeJson_readsBack id (h.1 row hr)
  rw [hoursJson, rows]

theorem nodup_securityFeatureCodes : securityFeatureCodes.Nodup := by decide

/-- In a complete list every entry has the state the list gives its code. -/
theorem securityStateOf_mem {security : List SecurityFeature} (h : CompleteSecurity security)
    {f : SecurityFeature} (hf : f ∈ security) : securityStateOf security f.code = f.state := by
  have nodup : (security.map SecurityFeature.code).Nodup :=
    h.nodup_iff.mpr nodup_securityFeatureCodes
  cases hfind : security.find? (fun g => decide (g.code = f.code)) with
  | none =>
    have := List.find?_eq_none.mp hfind f hf
    simp at this
  | some g =>
    have hg : g.code = f.code := by simpa using List.find?_some hfind
    have hgf := List.inj_on_of_nodup_map nodup (List.mem_of_find?_eq_some hfind) hf hg
    simp [securityStateOf, hfind, hgf]

/-- Security rows of a location that has just been written, whatever was there before. -/
theorem readSecurity_write {s t : Store} {id : LocationId} {security : List SecurityFeature}
    (known : ∀ k r, s.security.find k = some r → r.featureCode ∈ securityFeatureCodes)
    (h : t.security = (writeSecurity s id security).security) :
    (readSecurity t id).Perm (securityFeatureCodes.map fun code =>
      ⟨id, code, stateSmallint (securityStateOf security code)⟩) := by
  have hrows : t.security.rows.Nodup := List.Nodup.of_map _ t.security.distinct
  refine (List.perm_ext_iff_of_nodup (hrows.filter _) ?_).mpr ?_
  · exact nodup_securityFeatureCodes.map fun a b hab => (SecurityRow.mk.inj hab).2.1
  · intro r
    have hfind := find_writeSecurity s id security (r.locationId, r.featureCode)
    rw [← h] at hfind
    constructor
    · intro hr
      obtain ⟨hr, hl⟩ := Table.mem_filter.mp hr
      have hl : r.locationId = id := by simpa using hl
      have hr := Table.find_of_mem hr
      have hcode : r.featureCode ∈ securityFeatureCodes := by
        by_contra hn
        rw [if_neg fun hc => hn hc.2, hr] at hfind
        exact hn (known _ r hfind.symm)
      rw [if_pos ⟨hl, hcode⟩, hr] at hfind
      exact List.mem_map.mpr ⟨r.featureCode, hcode, (Option.some.inj hfind).symm⟩
    · intro hr
      obtain ⟨code, hcode, rfl⟩ := List.mem_map.mp hr
      rw [if_pos ⟨rfl, hcode⟩] at hfind
      exact Table.mem_filter.mpr ⟨(Table.find_eq_some.mp hfind).1, by simp⟩

theorem security_entries {s t : Store} {id : LocationId} {security : List SecurityFeature}
    (known : ∀ k r, s.security.find k = some r → r.featureCode ∈ securityFeatureCodes)
    (h : t.security = (writeSecurity s id security).security)
    (complete : CompleteSecurity security) :
    (security.map fun f => securityJson f.code f.state).Perm
      ((readSecurity t id).map securityRowJson) := by
  have entries : (security.map fun f => securityJson f.code f.state) =
      (security.map SecurityFeature.code).map fun code =>
        securityJson code (securityStateOf security code) := by
    rw [List.map_map]
    refine List.map_congr_left fun f hf => ?_
    simp only [Function.comp_apply, securityStateOf_mem complete hf]
  have stored := (readSecurity_write known h).map securityRowJson
  rw [List.map_map] at stored
  rw [entries]
  exact (complete.map _).trans stored.symm

theorem created_describes {env : Env} {s t : Store} {id : LocationId} {new : NewParkingLocation}
    {creator : UserId} {tz : Tz} {parts : Store}
    (h : Created env s t id new creator tz parts)
    (faithful : FaithfulInput env (.create id new creator))
    (known : ∀ k r, s.security.find k = some r → r.featureCode ∈ securityFeatureCodes) :
    Describes env t (newRow id new tz creator) (newSnapshot env new tz) := by
  obtain ⟨hname, haddress, hhours, hsecurity⟩ := faithful
  obtain ⟨hours, security, same⟩ := h.parts_eq
  refine ⟨new.hours.rows.map (hoursRow env id), _, ?_,
    hoursBefore_hoursRow env id _ hhours.2,
    security_entries (s := parts) (same ▸ known) security hsecurity, ?_⟩
  · change (new.hours.rows.map (hoursRow env id)).Perm (hoursOf t id)
    rw [hoursOf_congr hours, hoursOf_writeHours h.written, if_pos rfl]
  · simp only [newSnapshot, snapshotOf, newRow, hoursJson_canonical id hhours, costJson_columns,
      hname, haddress]

theorem edited_describes {env : Env} (lawful : env.Lawful) {s t : Store} {id : LocationId}
    {expectedVersion : ℕ} {edit : ParkingEdit} {editor : UserId} {loc row : LocationRow}
    {point : GeoPoint} {tz : Tz} {parts : Store}
    (h : Edited env s t id expectedVersion edit editor loc row point tz parts)
    (faithful : FaithfulInput env (.applyEdit id expectedVersion edit editor))
    (known : ∀ k r, s.security.find k = some r → r.featureCode ∈ securityFeatureCodes) :
    Describes env t row (editSnapshot env row edit point tz) := by
  obtain ⟨hhours, hsecurity⟩ := faithful
  obtain ⟨hours, security, same⟩ := h.parts_eq
  have hid : row.id = id := (changedRow_id h.changed).trans (Table.find_eq_some.mp h.found).2
  have hpoint : point.lat = row.lat ∧ point.lon = row.lon := by
    have hp := h.pointed
    simp only [GeoPoint.new] at hp
    split at hp
    · cases hp
      exact ⟨rfl, rfl⟩
    · cases hp
  have hzone := lawful.parseTz_name _ _ h.zoned
  have hcolumns : costJson edit.cost =
      costColumnsJson row.costKind row.priceCents row.priceCurrency row.priceUnit ∧
      row.hoursUnknown = edit.hours.isUnknown := by
    have hc := h.changed
    simp only [changedRow, Option.ite_none_right_eq_some, Option.some.injEq] at hc
    rw [← hc.2]
    exact ⟨costJson_columns edit.cost, rfl⟩
  refine ⟨edit.hours.rows.map (hoursRow env id), _, ?_,
    hoursBefore_hoursRow env id _ hhours.2,
    security_entries (s := parts) (same ▸ known) (hid ▸ security) hsecurity, ?_⟩
  · rw [hid, hoursOf_congr hours, hoursOf_writeHours h.written, if_pos rfl]
  · simp only [editSnapshot, snapshotOf, hoursJson_canonical id hhours, hcolumns.1, hcolumns.2,
      hpoint.1, hpoint.2, hzone]

/-- Every security row carries a known code, and the revision numbered with a location's
version describes the location. -/
structure Faithful (env : Env) (s : Store) : Prop where
  known : ∀ k r, s.security.find k = some r → r.featureCode ∈ securityFeatureCodes
  described : ∀ l loc, s.locations.find l = some loc →
    ∃ rev, s.revisions.find (l, loc.version) = some rev ∧ Describes env s loc rev.snapshot

/-- A description reads the row and the location's own hours and security rows. -/
theorem Describes.transfer {env : Env} {s t : Store} {loc : LocationRow} {snapshot : Json}
    (h : Describes env s loc snapshot) (creator : Option UserId)
    (hours : hoursOf t loc.id = hoursOf s loc.id)
    (security : (readSecurity t loc.id).Perm (readSecurity s loc.id)) :
    Describes env t { loc with creatorId := creator } snapshot := by
  obtain ⟨rows, entries, hrows, hsorted, hentries, rfl⟩ := h
  refine ⟨rows, entries, ?_, hsorted, ?_, rfl⟩
  · change rows.Perm (hoursOf t loc.id)
    rw [hours]
    exact hrows
  · exact hentries.trans (security.symm.map _)

theorem readSecurity_perm {s t : Store} {l : LocationId}
    (h : ∀ code, t.security.find (l, code) = s.security.find (l, code)) :
    (readSecurity t l).Perm (readSecurity s l) := by
  have hs : s.security.rows.Nodup := List.Nodup.of_map _ s.security.distinct
  have ht : t.security.rows.Nodup := List.Nodup.of_map _ t.security.distinct
  refine (List.perm_ext_iff_of_nodup (ht.filter _) (hs.filter _)).mpr fun r => ?_
  have mem : ∀ u : Store, r ∈ u.security.filter (fun r => decide (r.locationId = l)) ↔
      u.security.find (l, r.featureCode) = some r ∧ r.locationId = l := by
    intro u
    rw [Table.mem_filter, decide_eq_true_eq, Table.find_eq_some]
    constructor
    · rintro ⟨hr, rfl⟩
      exact ⟨⟨hr, rfl⟩, rfl⟩
    · rintro ⟨⟨hr, -⟩, hl⟩
      exact ⟨hr, hl⟩
  change r ∈ t.security.filter _ ↔ r ∈ s.security.filter _
  rw [mem, mem, h]

theorem Faithful.rewrites {env : Env} {s t : Store} {row : LocationRow} {snapshot : Json}
    (faithful : Faithful env s) (h : Rewrites s t row snapshot)
    (describes : Describes env t row snapshot)
    (known : ∀ k r, t.security.find k = some r → r.featureCode ∈ securityFeatureCodes) :
    Faithful env t := by
  refine ⟨known, fun l loc hloc => ?_⟩
  obtain ⟨rev, hsnap, hrev⟩ := h.revision
  rw [h.location] at hloc
  by_cases hl : l = row.id
  · rw [if_pos hl] at hloc
    cases hloc
    exact ⟨rev, by rw [hrev, if_pos (by rw [hl])], hsnap ▸ describes⟩
  · rw [if_neg hl] at hloc
    obtain ⟨old, hold, hd⟩ := faithful.described l loc hloc
    obtain rfl : loc.id = l := (Table.find_eq_some.mp hloc).2
    refine ⟨old, ?_, ?_⟩
    · rw [hrev, if_neg fun hk => hl (Prod.mk.inj hk).1, hold]
    · exact hd.transfer loc.creatorId (h.hours _ hl)
        (readSecurity_perm fun code => h.security _ code hl)

theorem Faithful.kept {env : Env} {s t : Store} (faithful : Faithful env s) (h : Kept s t) :
    Faithful env t := by
  refine ⟨h.security ▸ faithful.known, fun l loc hloc => ?_⟩
  obtain ⟨forget, hf⟩ := h.location l
  rw [hf, Option.map_eq_some_iff] at hloc
  obtain ⟨old, hold, rfl⟩ := hloc
  obtain ⟨rev, hrev, hd⟩ := faithful.described l old hold
  have hsnap := h.snapshot (l, old.version)
  rw [hrev, Option.map_some, Option.map_eq_some_iff] at hsnap
  obtain ⟨rev', hrev', he⟩ := hsnap
  refine ⟨rev', hrev', he ▸ hd.transfer (forget old) ?_ ?_⟩
  · exact hoursOf_congr h.hours _
  · simp only [readSecurity, h.security]
    exact .refl _

theorem known_write {s : Store} {id : LocationId} {security : List SecurityFeature}
    (known : ∀ k r, s.security.find k = some r → r.featureCode ∈ securityFeatureCodes) :
    ∀ k r, (writeSecurity s id security).security.find k = some r →
      r.featureCode ∈ securityFeatureCodes := by
  intro k r hr
  rw [find_writeSecurity] at hr
  split at hr
  · rename_i hk
    cases hr
    exact hk.2
  · exact known k r hr

theorem known_published {env : Env} {s t : Store} {id : ProposalId} {moderator : UserId}
    {applied : ProposalApplication} {prop : ProposalRow} {loc row : LocationRow} {parts : Store}
    (h : Published env s t id moderator applied prop loc row parts)
    (known : ∀ k r, s.security.find k = some r → r.featureCode ∈ securityFeatureCodes) :
    ∀ k r, t.security.find k = some r → r.featureCode ∈ securityFeatureCodes := by
  rw [h.security]
  rcases writeParts_cases h.written with ⟨-, rfl⟩ | ⟨edit, filled, -, hf, rfl⟩
  · exact known
  · obtain ⟨-, -, rows, -, hfilled⟩ := writeHours_ok.mp hf
    have same : filled.security = s.security := by
      rw [← hfilled]
      rfl
    exact known_write (same ▸ known)

theorem perform_faithful {env : Env} (lawful : env.Lawful) {s t : Store} {op : Op}
    (h : perform env s op = .ok t) (input : FaithfulInput env op) (faithful : Faithful env s) :
    Faithful env t := by
  cases perform_effect h with
  | kept hk => exact faithful.kept hk
  | created tz parts hc =>
    obtain ⟨-, security, same⟩ := hc.parts_eq
    refine faithful.rewrites (created_rewrites hc)
      (created_describes hc input faithful.known) ?_
    rw [security]
    exact known_write (same ▸ faithful.known)
  | edited loc row point tz parts he =>
    obtain ⟨-, security, same⟩ := he.parts_eq
    refine faithful.rewrites (edited_rewrites he)
      (edited_describes lawful he input faithful.known) ?_
    rw [security]
    exact known_write (same ▸ faithful.known)
  | moderated old hm =>
    have security : t.security = s.security := by
      rw [hm.outcome]
      rfl
    exact faithful.rewrites (moderated_rewrites hm) (describes_snapshotWith env t _)
      (security ▸ faithful.known)
  | approved prop loc row parts hp =>
    exact faithful.rewrites (published_rewrites hp) (describes_snapshotWith env t row)
      (known_published hp faithful.known)
  | @voted id voter vote _ applied prop loc row parts hm hp =>
    have voted := faithful.kept (kept_upsertVote s id voter vote)
    exact voted.rewrites (published_rewrites hp) (describes_snapshotWith env t row)
      (known_published hp voted.known)

/-- In every run whose requests are in the form the store keeps, the highest revision of
every location describes it. -/
theorem newest_revision_describes (env : Env) (lawful : env.Lawful) (ops : List Op)
    (input : ∀ op ∈ ops, FaithfulInput env op) (loc : LocationRow)
    (found : loc ∈ (run env Schema.empty ops).locations) :
    ∃ rev ∈ (run env Schema.empty ops).revisions, rev.locationId = loc.id ∧
      (∀ r ∈ (run env Schema.empty ops).revisions, r.locationId = loc.id →
        r.version ≤ rev.version) ∧
      Describes env (run env Schema.empty ops) loc rev.snapshot := by
  have faithful : Faithful env (run env Schema.empty ops) := by
    refine run_invariant (P := Faithful env) ?_ (along_of_forall input _) ?_
    · exact fun s t op hs hop h => perform_faithful lawful h hop hs
    · constructor <;> simp [Schema.empty]
  obtain ⟨rev, hrev, hd⟩ := faithful.described loc.id loc (Table.find_of_mem found)
  obtain ⟨hmem, hk⟩ := Table.find_eq_some.mp hrev
  simp only [Prod.mk.injEq] at hk
  refine ⟨rev, hmem, hk.1, ?_, hd⟩
  intro r hr hl
  have hist := (reachable_invariant env ops).history loc.id
  have hm : r.version ∈ recorded (run env Schema.empty ops) loc.id :=
    List.mem_map.mpr ⟨r, Table.mem_filter.mpr ⟨hr, by simp [hl]⟩, rfl⟩
  change r.version ∈ (view (run env Schema.empty ops)).history loc.id at hm
  rw [hist] at hm
  simp only [view, Table.find_of_mem found, Option.map_some, Option.elim_some, docOf,
    List.mem_range'_1] at hm
  omega

theorem sampleRack_described :
    ∃ rev ∈ (run Clock.env Schema.empty (sampleStart sampleEdit)).revisions,
      rev.locationId = 1 ∧
      (∀ r ∈ (run Clock.env Schema.empty (sampleStart sampleEdit)).revisions,
        r.locationId = 1 → r.version ≤ rev.version) ∧
      Describes Clock.env (run Clock.env Schema.empty (sampleStart sampleEdit))
        (newRow 1 sampleRack ⟨"Europe/Berlin"⟩ 1) rev.snapshot :=
  newest_revision_describes Clock.env Clock.env_lawful (sampleStart sampleEdit)
    (by
      intro op hop
      simp only [sampleStart, enlist, List.cons_append, List.nil_append, List.mem_cons,
        List.not_mem_nil, or_false] at hop
      rcases hop with rfl | rfl | rfl | rfl
      · trivial
      · trivial
      · exact ⟨by decide, by decide, by decide, by decide⟩
      · trivial)
    (newRow 1 sampleRack ⟨"Europe/Berlin"⟩ 1) (Table.mem_rows.mpr (by decide +kernel))

/-- A rack of which only one feature is stated. -/
def partlyStated : NewParkingLocation := { sampleRack with security := [⟨"cctv", .yes⟩] }

/-- `create` accepts a partial list of features, stores all eight, and records the one it was
given: the newest revision does not describe the rows. -/
theorem partlyStated_not_described :
    ¬ (∀ (ops : List Op) (loc : LocationRow), loc ∈ (run Clock.env Schema.empty ops).locations →
      ∃ rev ∈ (run Clock.env Schema.empty ops).revisions, rev.locationId = loc.id ∧
        (∀ r ∈ (run Clock.env Schema.empty ops).revisions, r.locationId = loc.id →
          r.version ≤ rev.version) ∧
        Describes Clock.env (run Clock.env Schema.empty ops) loc rev.snapshot) := by
  intro h
  obtain ⟨rev, hrev, -, -, rows, security, -, -, hperm, hsnap⟩ :=
    h (enlist 1 ++ [.create 1 partlyStated 1]) (newRow 1 partlyStated ⟨"Europe/Berlin"⟩ 1)
      (Table.mem_rows.mpr (by decide +kernel))
  have stored : (run Clock.env Schema.empty (enlist 1 ++ [.create 1 partlyStated 1])).revisions.rows
      = [⟨1, 1, some 1, .create, "added", newSnapshot Clock.env partlyStated ⟨"Europe/Berlin"⟩⟩] := by
    decide +kernel
  have count : (readSecurity (run Clock.env Schema.empty
      (enlist 1 ++ [.create 1 partlyStated 1])) 1).length = 8 := by
    decide +kernel
  have hlength := hperm.length_eq
  rw [List.length_map] at hlength
  change security.length = (readSecurity (run Clock.env Schema.empty
      (enlist 1 ++ [.create 1 partlyStated 1])) 1).length at hlength
  rw [Table.mem_rows, stored, List.mem_singleton] at hrev
  rw [hrev] at hsnap
  have entries := congrArg (Json.get "security") hsnap
  simp only [newSnapshot, snapshotOf, snapshotObject, Json.get] at entries
  simp [partlyStated] at entries
  rw [← entries, count] at hlength
  simp at hlength

end SnapshotFidelity
