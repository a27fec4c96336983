import BikesNest.Community
import BikesNest.Publishability
import BikesNest.ReadBack

/-! Whether a listing that was created can be edited. Creation asks for a name and an address, the
edit of the listing also for their lengths and that of the description. -/

namespace EditableListings

open Parking Proposal Schema Outcome Contribution Operations Details Community PayloadCodec
  ReadBack Publishability

/-- `ParkingEdit::from_location`. -/
def fromLocation (location : ParkingLocation) : ParkingEdit :=
  ⟨location.name, location.address, location.description, location.parkingType, location.cost,
    location.hours, location.security⟩

/-- The lengths that an edit may have. -/
def Short (new : NewParkingLocation) : Prop :=
  (trim new.name).toList.length ≤ 200 ∧ (trim new.address).toList.length ≤ 500 ∧
    ∀ d ∈ new.description, d.toList.length ≤ 5000

/-- A price is a 64-bit number. -/
def Priced (cost : Cost) : Prop := ∀ p, cost = .paid (some p) → p.cents < 2 ^ 63

/-- A time zone is found under its own name. -/
def Zoned (env : Env) (timezone : Option Tz) : Prop :=
  ∀ tz ∈ timezone, env.parseTz tz.name = some tz

/-- An edit by a user who may submit one, as the listing stands. -/
def unchanged (env : Env) (id : LocationId) (proposer : UserId) (parking : ParkingLocation) :
    NewProposal :=
  ⟨id, proposer, parking.version, .editDetails, toJson env (fromLocation parking)⟩

theorem validateNameAddress_ok {name address : String} {u : Unit} :
    validateNameAddress name address = .ok u ↔ trim name ≠ "" ∧ trim address ≠ "" := by
  simp only [validateNameAddress, bind_ok, ensure_ok, exists_and_left, exists_const]

section Created

variable {env : Env} {s t : Store} {id : LocationId} {new : NewParkingLocation} {creator : UserId}

theorem created_location {tz : Tz} {parts : Store}
    (h : Created env s t id new creator tz parts) :
    t.locations.find id = some (newRow id new tz creator) := by
  rw [Table.find_insert h.inserted]
  simp [newRow]

/-- A listing that was created is read back. -/
theorem created_reads {tz : Tz} {parts : Store} (h : Created env s t id new creator tz parts)
    (known : KnownSecurity s) (zoned : Zoned env new.timezone)
    (named : trim new.name ≠ "" ∧ trim new.address ≠ "") :
    ∃ parking, Reads env (newRow id new tz creator) (Schema.readHours t id)
      (Schema.readSecurity t id) parking := by
  obtain ⟨-, security, same⟩ := h.parts_eq
  have knownParts : KnownSecurity parts := fun k r hr => known k r (same ▸ hr)
  obtain ⟨features, featured, -⟩ := features_written knownParts security
  obtain ⟨price, priced, costed⟩ :=
    priceOf_columns (newRow id new tz creator) new.cost rfl
  refine ⟨⟨id, trim (trim new.name), trim (trim new.address), new.description, new.parkingType,
    new.cost, new.point, tz, openingOf env (newRow id new tz creator) (Schema.readHours t id),
    features, .active, ⟨none, 0, fun _ => rfl⟩, none, 1, ?_, ?_⟩, ?_⟩
  · rw [trim_trim]
    exact named.1
  · rw [trim_trim]
    exact named.2
  · refine ⟨rfl, rfl, rfl, rfl, rfl, ⟨price, priced, costed⟩, ?_, zoned tz h.zoned, rfl, featured,
      rfl, ?_, rfl, rfl⟩
    · simp [newRow, GeoPoint.new, new.point.valid]
    · simp [newRow, Rating.new]

/-- The edit of a listing that was created is within the limits exactly when its lengths are. -/
theorem within_iff_short {tz : Tz} {parts : Store} (h : Created env s t id new creator tz parts)
    (priced : Priced new.cost) {parking : ParkingLocation}
    (read : Reads env (newRow id new tz creator) (Schema.readHours t id)
      (Schema.readSecurity t id) parking) :
    Within (fromLocation parking) ↔ Short new := by
  have name : trim parking.name = trim new.name := by
    rw [read.name]
    simp [newRow, trim_trim]
  have address : trim parking.address = trim new.address := by
    rw [read.address]
    simp [newRow, trim_trim]
  have description : parking.description = new.description := read.description
  have cost : parking.cost = new.cost := by
    obtain ⟨price, hp, hc⟩ := read.cost
    obtain ⟨price', hp', hc'⟩ :=
      priceOf_columns (newRow id new tz creator) new.cost rfl
    rw [hp, Except.ok.injEq] at hp'
    subst hp'
    exact Option.some.inj (hc.symm.trans hc')
  constructor
  · intro within
    have short := within.named.2
    have shortAddress := within.addressed.2
    simp only [fromLocation, name, address] at short shortAddress
    exact ⟨short, shortAddress, fun d hd => within.described d (description.trans hd)⟩
  · rintro ⟨short, shortAddress, described⟩
    refine ⟨?_, ?_, ?_, ?_, ?_⟩
    · refine ⟨?_, by simpa [fromLocation, name] using short⟩
      simp only [fromLocation]
      rw [read.name, trim_trim, ← read.name]
      exact parking.named
    · refine ⟨?_, by simpa [fromLocation, address] using shortAddress⟩
      simp only [fromLocation]
      rw [read.address, trim_trim, ← read.address]
      exact parking.addressed
    · intro d hd
      exact described d (description ▸ hd)
    · intro p paid
      have listed : new.cost = .paid (some p) := cost ▸ paid
      refine ⟨?_, priced p listed⟩
      have checked := (checkLocation_ok.mp h.admissible).2.2
      exact checked p.cents (by simp [newRow, listed, costParts])
    · have hours : parking.hours =
          openingOf env (newRow id new tz creator) (Schema.readHours t id) := read.hours
      obtain ⟨kept, -, -⟩ := h.parts_eq
      have stored : writeHours env { s with locations := t.locations }
        (newRow id new tz creator).id new.hours = .ok parts := h.written
      obtain ⟨-, -, dated⟩ := HoursForm.kept_rows stored rfl
      simp only [fromLocation, hours, readHours_congr kept]
      exact dated

/-- A listing that was created, as it is read back. -/
theorem created_details {ops : List Op} (created : create env (run env empty ops) id new creator = .ok t)
    (accepted : validateNameAddress new.name new.address = .ok ()) (priced : Priced new.cost)
    (zoned : Zoned env new.timezone) :
    ∃ parking, details env t id = .ok (some parking) ∧ parking.version = 1 ∧
      (Within (fromLocation parking) ↔ Short new) := by
  obtain ⟨tz, parts, h⟩ := create_ok created
  obtain ⟨parking, read⟩ :=
    created_reads h (reachable_known env ops) zoned (validateNameAddress_ok.mp accepted)
  exact ⟨parking, details_some.mpr ⟨_, created_location h, read⟩, read.version,
    within_iff_short h priced read⟩

end Created

section Storable

theorem storable_obj {fields : List (String × Json)} :
    (Json.obj fields).storable = true ↔
      ∀ f ∈ fields, textOk f.1 = true ∧ f.2.storable = true := by
  rw [Json.storable]
  induction fields with
  | nil => simp [Json.storableFields]
  | cons field fields ih =>
    obtain ⟨k, j⟩ := field
    rw [Json.storableFields, Bool.and_eq_true, Bool.and_eq_true, ih, List.forall_mem_cons]
    rfl

theorem storable_arr {items : List Json} :
    (Json.arr items).storable = true ↔ ∀ j ∈ items, j.storable = true := by
  rw [Json.storable, storableItems_iff]

variable {env : Env} (lawful : env.Lawful)
include lawful

theorem storable_hoursJson (isUnknown : Bool) (rows : List (ℕ × TimeRange)) :
    (hoursJson env isUnknown rows).storable = true := by
  rw [hoursJson, storable_obj]
  simp only [List.forall_mem_cons]
  refine ⟨⟨by decide, ?_⟩, ⟨by decide, rfl⟩, by simp⟩
  rw [storable_arr]
  intro j hj
  obtain ⟨r, -, rfl⟩ := List.mem_map.mp hj
  simp only [timeRangeJson, Json.storable, Json.storableItems, lawful.render_text]
  rfl

/-- The payload of an edit is stored when its texts can be. -/
theorem storable_toJson {e : ParkingEdit} (name : textOk e.name = true)
    (address : textOk e.address = true) (description : e.description.all textOk = true) :
    (toJson env e).storable = true := by
  rw [toJson, storable_obj]
  simp only [List.forall_mem_cons]
  refine ⟨⟨by decide, textOk_trim address⟩, ⟨by decide, ?_⟩, ⟨by decide, ?_⟩,
    ⟨by decide, storable_hoursJson lawful _ _⟩, ⟨by decide, textOk_trim name⟩, ⟨by decide, ?_⟩,
    ⟨by decide, ?_⟩, by simp⟩
  · rw [SnapshotFidelity.costJson_columns]
    exact storable_costColumns (costParts_currency e.cost)
  · cases stated : e.description with
    | none => rfl
    | some d =>
      rw [stated] at description
      exact description
  · rw [storable_arr]
    intro j hj
    obtain ⟨code, hc, rfl⟩ := List.mem_map.mp hj
    have known : ∀ code ∈ securityFeatureCodes, (!code.toList.contains '\x00') = true := by decide
    simp only [securityJson, Json.storable, Json.storableItems, known code hc, Bool.and_true]
  · cases e.parkingType <;> decide

end Storable

/-- A listing that was created can be edited as it stands, by the checks of the service and by
those of the repository, exactly when its name, its address and its description are not too long. -/
theorem created_editable_iff (env : Env) (lawful : env.Lawful) (ops : List Op) {id : LocationId}
    {new : NewParkingLocation} {creator : UserId} {t : Store}
    (accepted : validateNameAddress new.name new.address = .ok ()) (priced : Priced new.cost)
    (zoned : Zoned env new.timezone)
    (created : create env (run env empty ops) id new creator = .ok t) :
    ∃ parking, details env t id = .ok (some parking) ∧
      ((Proposal.fromJson env (toJson env (fromLocation parking))).isSome ↔ Short new) ∧
      ∀ (user : UserId) (author : UserRow) (proposal : ProposalId),
        t.users.find user = some author → eligibleVoter author = true →
        t.proposals.find proposal = none →
          ((∃ w, prepare env user parking (.applyParkingEdit proposal id parking.version
            (fromLocation parking)) = .ok w) ↔ Short new) ∧
          ((∃ u, createProposal env t proposal (unchanged env id user parking) = .ok u) ↔
            Short new) := by
  obtain ⟨parking, there, first, within⟩ := created_details created accepted priced zoned
  obtain ⟨row, found, read⟩ := details_some.mp there
  have encodable := (encodable_iff lawful).trans within
  refine ⟨parking, there, encodable, fun user author proposal authored eligible free => ⟨?_, ?_⟩⟩
  · rw [← encodable]
    simp only [prepare, bind_ok, ensure_ok, pure_ok, exists_and_left, exists_const, true_and,
      exists_eq', and_true]
  · obtain ⟨tz, parts, h⟩ := create_ok created
    obtain rfl : newRow id new tz creator = row :=
      Option.some.inj ((created_location h).symm.trans found)
    have texts := (checkLocation_ok.mp h.admissible).1
    have storable : (toJson env (fromLocation parking)).storable = true := by
      refine storable_toJson lawful ?_ ?_ ?_
      · rw [fromLocation, read.name]
        exact textOk_trim texts.1
      · rw [fromLocation, read.address]
        exact textOk_trim texts.2.1
      · rw [fromLocation, read.description]
        exact texts.2.2.1
    rw [← encodable]
    constructor
    · rintro ⟨u, submitted⟩
      obtain ⟨_, _, done⟩ := createProposal_ok.mp submitted
      have readable := done.readable
      simp only [unchanged, ProposedChange.fromJson] at readable
      cases decoded : Proposal.fromJson env (toJson env (fromLocation parking)) with
      | none => simp [decoded] at readable
      | some e => rfl
    · intro decodable
      obtain ⟨e, decoded⟩ := Option.isSome_iff_exists.mp decodable
      obtain ⟨proposals, inserted⟩ := Table.insert_isSome.mpr
        (show t.proposals.find (newProposalRow proposal (unchanged env id user parking)
          author.publicContributionName).id = none from free)
      refine ⟨{ t with proposals := proposals }, createProposal_ok.mpr ⟨_, author, found, rfl, ?_, ?_,
        authored, eligible, storable, inserted, rfl⟩⟩
      · exact read.version.symm
      · simp [unchanged, ProposedChange.fromJson, decoded]

/-- A rack with a name of so many letters. -/
def rackNamed (letters : ℕ) : NewParkingLocation :=
  { sampleRack with name := String.ofList (List.replicate letters 'a') }

section Rack

variable (letters : ℕ)

theorem rackNamed_plain : ∀ c ∈ (rackNamed letters).name.toList, c = 'a' := by
  intro c hc
  rw [rackNamed, String.toList_ofList] at hc
  exact List.eq_of_mem_replicate hc

theorem trim_rackNamed : trim (rackNamed letters).name = (rackNamed letters).name := by
  apply trim_eq_self
  intro c hc
  rw [rackNamed_plain letters c hc]
  rfl

theorem length_rackNamed : (trim (rackNamed letters).name).toList.length = letters := by
  rw [trim_rackNamed, rackNamed, String.toList_ofList, List.length_replicate]

theorem rackNamed_text : textOk (rackNamed letters).name = true := by
  rw [textOk, Bool.not_eq_true', List.contains_eq_mem, decide_eq_false_iff_not]
  intro zero
  have letter := rackNamed_plain letters _ zero
  revert letter
  decide

theorem rackNamed_zoned : Zoned Clock.env (rackNamed letters).timezone := by
  rintro tz ⟨⟩
  rfl

theorem rackNamed_priced : Priced (rackNamed letters).cost := by
  rintro p ⟨⟩

theorem rackNamed_accepted (named : 0 < letters) :
    validateNameAddress (rackNamed letters).name (rackNamed letters).address = .ok () := by
  have address : trim sampleRack.address ≠ "" := by decide
  refine validateNameAddress_ok.mpr ⟨?_, address⟩
  intro blank
  have none := length_rackNamed letters
  rw [blank] at none
  exact named.ne none

theorem short_rackNamed : Short (rackNamed letters) ↔ letters ≤ 200 := by
  have address : (trim sampleRack.address).toList.length ≤ 500 := by decide
  rw [Short, length_rackNamed]
  constructor
  · exact fun short => short.1
  · intro few
    exact ⟨few, address, by rintro d ⟨⟩⟩

/-- Creation takes a name of any length. -/
theorem rackNamed_created : ∃ t,
    create Clock.env (run Clock.env empty (enlist 1)) 1 (rackNamed letters) 1 = .ok t := by
  have text := rackNamed_text letters
  have address : textOk sampleRack.address = true := by decide
  have zone : textOk "Europe/Berlin" = true := by decide
  have codes : textOk sampleRack.parkingType.asCode = true := by decide
  have cost : (costJson sampleRack.cost).storable = true := by decide
  have listed : Json.storableItems (sampleRack.security.map fun f => securityJson f.code f.state) =
      true := by decide
  have checked : checkLocation (newRow 1 (rackNamed letters) ⟨"Europe/Berlin"⟩ 1) = .ok () :=
    checkLocation_ok.mpr ⟨⟨textOk_trim text, textOk_trim address, rfl, zone⟩,
      .inr ⟨rfl, rfl, rfl⟩, by rintro c ⟨⟩⟩
  have storable : (newSnapshot Clock.env (rackNamed letters) ⟨"Europe/Berlin"⟩).storable = true :=
    storable_snapshotObject.mpr ⟨text, address, rfl, codes, cost, zone,
      storable_hoursJson Clock.env_lawful _ _, listed, by decide⟩
  have user : ((run Clock.env empty (enlist 1)).users.find 1).isSome := by decide
  generalize hs : run Clock.env empty (enlist 1) = s at user
  have nowhere : s.locations.find 1 = none := by rw [← hs]; rfl
  have unrecorded : s.revisions.find (1, 1) = none := by rw [← hs]; rfl
  obtain ⟨locations, inserted⟩ := Table.insert_isSome.mpr
    (show s.locations.find (newRow 1 (rackNamed letters) ⟨"Europe/Berlin"⟩ 1).id = none from nowhere)
  obtain ⟨parts, written⟩ : ∃ parts, writeHours Clock.env { s with locations := locations } 1
      (rackNamed letters).hours = .ok parts :=
    writeHours_succeeds.mpr ⟨⟨by rintro r ⟨⟩, .nil⟩, by rintro r ⟨⟩⟩
  obtain ⟨-, -, filled, -, same⟩ := writeHours_ok.mp written
  subst same
  obtain ⟨revisions, recorded⟩ := Table.insert_isSome.mpr
    (show s.revisions.find ((fun r : RevisionRow => (r.locationId, r.version)) ⟨1, 1, some 1, .create,
      "added", newSnapshot Clock.env (rackNamed letters) ⟨"Europe/Berlin"⟩⟩) = none from unrecorded)
  simp only [create, bind_ok, orFail_ok, mapError_ok, requireUser_ok]
  exact ⟨_, _, rfl, (), checked, (), user, locations, inserted, _, written,
    insertRevision_ok.mpr ⟨storable, user, revisions, recorded, rfl⟩⟩

end Rack

theorem created_editable_iff_rack : ∃ t parking,
    create Clock.env (run Clock.env empty (enlist 1)) 1 (rackNamed 200) 1 = .ok t ∧
    details Clock.env t 1 = .ok (some parking) ∧
    (Proposal.fromJson Clock.env (toJson Clock.env (fromLocation parking))).isSome := by
  obtain ⟨t, created⟩ := rackNamed_created 200
  obtain ⟨parking, there, editable, -⟩ := created_editable_iff Clock.env Clock.env_lawful (enlist 1)
    (rackNamed_accepted 200 (by decide)) (rackNamed_priced 200) (rackNamed_zoned 200) created
  exact ⟨t, parking, created, there, editable.mpr ((short_rackNamed 200).mpr le_rfl)⟩

/-- A rack with a name of 201 letters is created, and its edit form is refused as it stands. -/
theorem longName_not_editable : ∃ t parking,
    validateNameAddress (rackNamed 201).name (rackNamed 201).address = .ok () ∧
    create Clock.env (run Clock.env empty (enlist 1)) 1 (rackNamed 201) 1 = .ok t ∧
    details Clock.env t 1 = .ok (some parking) ∧
    ¬ (Proposal.fromJson Clock.env (toJson Clock.env (fromLocation parking))).isSome := by
  obtain ⟨t, created⟩ := rackNamed_created 201
  have accepted := rackNamed_accepted 201 (by decide)
  have long : ¬ Short (rackNamed 201) := fun short =>
    absurd ((short_rackNamed 201).mp short) (by decide)
  obtain ⟨parking, there, -, within⟩ :=
    created_details created accepted (rackNamed_priced 201) (rackNamed_zoned 201)
  rw [← within, ← encodable_iff Clock.env_lawful] at long
  exact ⟨t, parking, accepted, created, there, long⟩

end EditableListings
