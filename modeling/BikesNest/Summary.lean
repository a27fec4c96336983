import BikesNest.Schema

/-! The public summary of a listing's pending proposals: for each field that a pending
proposal seems to change, the newest such proposal. The query compares the stored payload
with the newest snapshot, JSON against JSON. -/

namespace Summary

open Parking Proposal Schema

/-- The snapshot of the location's highest revision. -/
def latestSnapshot (s : Store) (l : LocationId) : Option Json :=
  ((s.revisions.filter fun r => decide (r.locationId = l)).argmax RevisionRow.version).map
    RevisionRow.snapshot

/-- The fallback for a location without revisions, built by the database from its rows. -/
def rowSnapshot (env : Env) (s : Store) (loc : LocationRow) : Json :=
  snapshotObject loc.name loc.address loc.description loc.parkingType.asCode
    (.obj ((loc.priceCents.map fun c => ("cents", Json.num (.int c))).toList ++
      (loc.priceCurrency.map fun c => ("currency", Json.str c)).toList ++
      [("kind", .str loc.costKind.asCode)] ++
      (loc.priceUnit.map fun u => ("unit", Json.str u.asCode)).toList))
    loc.lat loc.lon loc.timezone
    (.obj [("rows", .arr ((readHours s loc.id).map fun r =>
        .arr [.num (.int r.dayOfWeek), .str (env.timeText r.opensAt),
          .str (env.timeText r.closesAt), .bool r.allDay])),
      ("unknown", .bool loc.hoursUnknown)])
    (((readSecurity s loc.id).insertionSort fun a b => a.featureCode ≤ b.featureCode).map
      securityRowJson)
    loc.moderationState.asCode

def currentSnapshot (env : Env) (s : Store) (l : LocationId) : Option Json :=
  (s.locations.find l).map fun loc => (latestSnapshot s l).getD (rowSnapshot env s loc)

def pendingOf (s : Store) (l : LocationId) : List ProposalRow :=
  s.proposals.filter fun p => decide (p.locationId = l ∧ p.status = .pending)

def editFields : List String := ["name", "address", "description", "type", "cost", "hours"]

/-- `jsonb_array_elements`; no rows for an absent value. -/
def elements (j : Option Json) : List Json := (j.bind Json.asArray).getD []

/-- `item->>0` of a `[code, state]` pair. -/
def entryCode (item : Json) : Option String := (item.item 0).bind Json.asStr

def fieldCues (snapshot : Json) (p : ProposalRow) : List (String × ProposalId) :=
  if p.kind = .editDetails then
    (editFields.filter fun k => Json.isDistinctFrom (p.proposed.get k) (snapshot.get k)).map
      fun k => (k, p.id)
  else []

def currentEntry (snapshot item : Json) : Option Json :=
  (elements (snapshot.get "security")).find? fun c =>
    (entryCode c).isSome && decide (entryCode c = entryCode item)

def securityCues (snapshot : Json) (p : ProposalRow) : List (String × ProposalId) :=
  if p.kind = .editDetails then
    (elements (p.proposed.get "security")).filterMap fun item =>
      if Json.isDistinctFrom (some item) (currentEntry snapshot item) then
        (entryCode item).map fun code => (code, p.id)
      else none
  else []

def moveCues (p : ProposalRow) : List (String × ProposalId) :=
  if p.kind = .moveLocation then
    ("point", p.id) :: if (p.proposed.get "timezone").isSome then [("timezone", p.id)] else []
  else []

def existenceCues (p : ProposalRow) : List (String × ProposalId) :=
  if p.kind = .changeExistence then [("existence", p.id)] else []

/-- The cues of one proposal; those of an edit need a current snapshot. -/
def cuesOf (snapshot : Option Json) (p : ProposalRow) : List (String × ProposalId) :=
  snapshot.elim [] (fun c => fieldCues c p ++ securityCues c p) ++ moveCues p ++ existenceCues p

def cues (env : Env) (s : Store) (l : LocationId) : List (String × ProposalId) :=
  (pendingOf s l).flatMap (cuesOf (currentSnapshot env s l))

/-- `SELECT field, max(id) … GROUP BY field ORDER BY field`. -/
def groupMax (cs : List (String × ProposalId)) : List (String × ProposalId) :=
  ((cs.map Prod.fst).dedup.insertionSort (· ≤ ·)).map fun f =>
    (f, ((cs.filter fun c => decide (c.1 = f)).map Prod.snd).foldr max 0)

structure PendingProposalSummary where
  total : ℕ
  fields : List (String × ProposalId)
  deriving DecidableEq

/-- `pending_proposal_summary`. -/
def pendingProposalSummary (env : Env) (s : Store) (l : LocationId) : PendingProposalSummary :=
  ⟨(pendingOf s l).length, groupMax (cues env s l)⟩

theorem foldr_max_eq {is : List ℕ} {i : ℕ} (h : is ≠ []) :
    is.foldr max 0 = i ↔ i ∈ is ∧ ∀ j ∈ is, j ≤ i := by
  have bound : ∀ (is : List ℕ), ∀ j ∈ is, j ≤ is.foldr max 0 := by
    intro is
    induction is with
    | nil => simp
    | cons a is ih =>
      intro j hj
      rcases List.mem_cons.mp hj with rfl | hj
      · exact le_max_left _ _
      · exact (ih j hj).trans (le_max_right _ _)
  have attained : ∀ (is : List ℕ), is ≠ [] → is.foldr max 0 ∈ is := by
    intro is
    induction is with
    | nil => simp
    | cons a is ih =>
      intro _
      by_cases hn : is = []
      · simp [hn]
      · rcases max_choice a (is.foldr max 0) with hm | hm
        · simp [hm]
        · rw [List.foldr_cons, hm]
          exact List.mem_cons_of_mem _ (ih hn)
  constructor
  · rintro rfl
    exact ⟨attained is h, bound is⟩
  · rintro ⟨hi, hmax⟩
    exact le_antisymm (hmax _ (attained is h)) (bound is i hi)

/-- A grouped cue is a cue with the greatest proposal of its field. -/
theorem mem_groupMax {cs : List (String × ProposalId)} {f : String} {i : ProposalId} :
    (f, i) ∈ groupMax cs ↔ (f, i) ∈ cs ∧ ∀ j, (f, j) ∈ cs → j ≤ i := by
  have ids : ∀ j, j ∈ (cs.filter fun c => decide (c.1 = f)).map Prod.snd ↔ (f, j) ∈ cs := by
    intro j
    constructor
    · intro hj
      obtain ⟨⟨g, k⟩, hc, rfl⟩ := List.mem_map.mp hj
      obtain ⟨hmem, hg⟩ := List.mem_filter.mp hc
      obtain rfl : g = f := by simpa using hg
      exact hmem
    · intro hj
      exact List.mem_map.mpr ⟨(f, j), List.mem_filter.mpr ⟨hj, by simp⟩, rfl⟩
  simp only [groupMax, List.mem_map, Prod.mk.injEq]
  constructor
  · rintro ⟨g, hg, rfl, hi⟩
    rw [List.mem_insertionSort, List.mem_dedup, List.mem_map] at hg
    obtain ⟨⟨g', k⟩, hc, rfl⟩ := hg
    have hne : (cs.filter fun c => decide (c.1 = g')).map Prod.snd ≠ [] :=
      List.ne_nil_of_mem ((ids k).mpr hc)
    obtain ⟨hm, hmax⟩ := (foldr_max_eq hne).mp hi
    exact ⟨(ids i).mp hm, fun j hj => hmax j ((ids j).mpr hj)⟩
  · rintro ⟨hi, hmax⟩
    refine ⟨f, ?_, rfl, ?_⟩
    · rw [List.mem_insertionSort, List.mem_dedup]
      exact List.mem_map.mpr ⟨(f, i), hi, rfl⟩
    · have hne : (cs.filter fun c => decide (c.1 = f)).map Prod.snd ≠ [] :=
        List.ne_nil_of_mem ((ids i).mpr hi)
      exact (foldr_max_eq hne).mpr ⟨(ids i).mpr hi, fun j hj => hmax j ((ids j).mp hj)⟩

theorem exists_groupMax {cs : List (String × ProposalId)} {f : String} :
    (∃ i, (f, i) ∈ groupMax cs) ↔ ∃ i, (f, i) ∈ cs := by
  constructor
  · rintro ⟨i, hi⟩
    exact ⟨i, (mem_groupMax.mp hi).1⟩
  · rintro ⟨i, hi⟩
    refine ⟨_, List.mem_map.mpr ⟨f, ?_, rfl⟩⟩
    rw [List.mem_insertionSort, List.mem_dedup]
    exact List.mem_map.mpr ⟨(f, i), hi, rfl⟩

end Summary
