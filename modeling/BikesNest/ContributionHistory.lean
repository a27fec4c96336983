import BikesNest.Keyset
import BikesNest.Photos
import BikesNest.Schema
import BikesNest.TimeLinks

/-! The contributions of an account, newest first. Eight tables are read by one query, whose rows
get an identity `pk * 10 + tag` of their own, so that a page can end at any of them. -/

namespace ContributionHistory

open Parking Proposal Schema Photos RowOrder Keyset TimeLinks

structure Listing where
  id : LocationId
  creatorId : Option UserId
  name : String
  createdAt : Instant

structure Revision where
  id : ℕ
  locationId : LocationId
  editorId : Option UserId
  changeKind : ChangeKind
  createdAt : Instant

structure ParkingProposal where
  id : ProposalId
  locationId : LocationId
  proposerId : Option UserId
  status : ProposalStatus
  createdAt : Instant

structure Review where
  id : ℕ
  locationId : LocationId
  authorId : Option UserId
  createdAt : Instant

inductive VerificationKind where
  | existence | attribute | parkedHere
  deriving DecidableEq

structure Verification where
  id : ℕ
  locationId : LocationId
  userId : Option UserId
  kind : VerificationKind
  createdAt : Instant

structure Favorite where
  userId : UserId
  locationId : LocationId
  createdAt : Instant

/-- The columns that the query reads. -/
structure HistoryDb where
  listings : Table LocationId Listing Listing.id
  revisions : Table ℕ Revision Revision.id
  proposals : Table ProposalId ParkingProposal ParkingProposal.id
  reviews : Table ℕ Review Review.id
  verifications : Table ℕ Verification Verification.id
  favorites : Table (UserId × LocationId) Favorite fun f => (f.userId, f.locationId)
  photos : PhotoKind → PhotoTable

/-- A row of a branch before its identity is encoded; the join of a listing may find none. -/
structure Source where
  kind : String
  state : String
  target : Option String
  happened : Instant
  pk : ℕ

structure ContributionItem where
  kind : String
  target : String
  state : String
  happened : Instant
  id : ℕ
  deriving DecidableEq

section Query

variable (db : HistoryDb) (user : UserId)

def listingName (l : LocationId) : Option String := (db.listings.find l).map Listing.name

/-- `lower(pp.status)`. -/
def lowerStatus : ProposalStatus → String
  | .pending => "pending"
  | .approved => "approved"
  | .rejected => "rejected"
  | .superseded => "superseded"

def added : List Source :=
  (db.listings.filter fun pl => decide (pl.creatorId = some user)).map fun pl =>
    ⟨"added", "active", some pl.name, pl.createdAt, pl.id⟩

def edited : List Source :=
  (db.revisions.filter fun pr => decide (pr.editorId = some user ∧ pr.changeKind = .edit)).map
    fun pr => ⟨"edited", "history", listingName db pr.locationId, pr.createdAt, pr.id⟩

def proposed : List Source :=
  (db.proposals.filter fun pp => decide (pp.proposerId = some user)).map fun pp =>
    ⟨"proposed", lowerStatus pp.status, listingName db pp.locationId, pp.createdAt, pp.id⟩

def reviewed : List Source :=
  (db.reviews.filter fun r => decide (r.authorId = some user)).map fun r =>
    ⟨"reviewed", "active", listingName db r.locationId, r.createdAt, r.id⟩

def verified : List Source :=
  (db.verifications.filter fun v => decide (v.userId = some user)).map fun v =>
    ⟨if v.kind = .parkedHere then "parked_here" else "verified", "active",
      listingName db v.locationId, v.createdAt, v.id⟩

/-- A favourite has no key of its own: it takes that of the listing. -/
def favorited : List Source :=
  (db.favorites.filter fun f => decide (f.userId = user)).map fun f =>
    ⟨"favorited", "active", listingName db f.locationId, f.createdAt, f.locationId⟩

/-- The uploads that wait for a moderator, with the join from the photo to the listing. -/
def pendingPhotos (kind : PhotoKind) (target : ℕ → Option String) : List Source :=
  ((db.photos kind).filter fun p =>
    decide (p.uploaderId = some user ∧ p.moderationState = .pendingReview)).map fun p =>
      ⟨"photo.pending", "pending", target p.parentId, p.createdAt, p.id⟩

def parkingPhotos : List Source := pendingPhotos db user .parking (listingName db)

def reviewPhotos : List Source :=
  pendingPhotos db user .review fun id =>
    (db.reviews.find id).bind fun r => listingName db r.locationId

/-- The branches of the union, each with its tag. -/
def branches : List (ℕ × List Source) :=
  [(1, added db user), (2, edited db user), (3, proposed db user), (4, reviewed db user),
    (5, verified db user), (6, favorited db user), (7, parkingPhotos db user),
    (8, reviewPhotos db user)]

/-- A row of the union; an inner join drops a row without its listing. -/
def toItem (tag : ℕ) (s : Source) : Option ContributionItem :=
  s.target.map fun target => ⟨s.kind, target, s.state, s.happened, s.pk * 10 + tag⟩

/-- `events`. -/
def events : List ContributionItem :=
  (branches db user).flatMap fun b => b.2.filterMap (toItem b.1)

/-- `(at, id)`. -/
def ContributionItem.position (e : ContributionItem) : ℤ ×ₗ ℤ := toLex (e.happened, (e.id : ℤ))

/-- `ORDER BY at DESC, id DESC`. -/
def newest (e : ContributionItem) : (ℤ ×ₗ ℤ)ᵒᵈ := OrderDual.toDual e.position

/-- `limit.clamp(1, 200)`. -/
def pageSize (limit : ℤ) : ℕ := (max 1 (min limit 200)).toNat

/-- `history`. -/
def history (o : OrderBy newest) (after : Option (Instant × ℤ)) (limit : ℤ) :
    List ContributionItem :=
  pageOf o (events db user) (after.map fun c => OrderDual.toDual (toLex c)) (pageSize limit)

/-- The link to the items after one. -/
def nextUrl (lib : Libraries) (last : ContributionItem) : List Char × ℤ :=
  (urlencodingRfc3339 lib last.happened, (last.id : ℤ))

def defaultPageLimit : ℤ := 50

/-- `account_contributions`. -/
def accountContributions (lib : Libraries) (o : OrderBy newest) (link : Option (List Char × ℤ)) :
    Page ContributionItem (List Char × ℤ) :=
  let history := history db user o (link.bind (parseAfter lib)) defaultPageLimit
  ⟨history, if (history.length : ℤ) = defaultPageLimit then history.getLast?.map (nextUrl lib)
    else none⟩

/-- The same page with another limit. -/
def contributionsPage (lib : Libraries) (o : OrderBy newest) (limit : ℤ)
    (link : Option (List Char × ℤ)) : Page ContributionItem (List Char × ℤ) :=
  let history := history db user o (link.bind (parseAfter lib)) limit
  ⟨history, if history.length = pageSize limit then history.getLast?.map (nextUrl lib) else none⟩

/-- The pages met by following the links from the first one; `limits` are those of the pages. -/
def historyWalk (lib : Libraries) (o : OrderBy newest) (limits : ℕ → ℤ) (fuel : ℕ) :
    Option (List (Page ContributionItem (List Char × ℤ))) :=
  walk Page.next (fun i => contributionsPage db user lib o (limits i)) fuel 0 none

end Query

section Identities

variable {db : HistoryDb} {user : UserId}

/-- The keys of a branch are those of the rows that it filters. -/
theorem sources_nodup {κ ρ : Type*} {key : ρ → κ} (t : Table κ ρ key) (keep : ρ → Bool)
    (source : ρ → Source) (pk : κ → ℕ) (keyed : ∀ r, (source r).pk = pk (key r))
    (injective : ∀ r ∈ t, ∀ q ∈ t, keep r = true → keep q = true → pk (key r) = pk (key q) →
      key r = key q) : (((t.filter keep).map source).map Source.pk).Nodup := by
  rw [List.map_map, List.Nodup, List.pairwise_map]
  have distinct : ((t.rows.filter keep).map key).Nodup :=
    (List.filter_sublist.map key).nodup t.distinct
  rw [List.Nodup, List.pairwise_map] at distinct
  refine distinct.imp_of_mem ?_
  intro r q hr hq different same
  obtain ⟨hr, kept⟩ := Table.mem_filter.mp hr
  obtain ⟨hq, kept'⟩ := Table.mem_filter.mp hq
  apply different
  apply injective r hr q hq kept kept'
  rw [← keyed r, ← keyed q]
  exact same

/-- A table with an identity column keeps its keys apart. -/
theorem identities_nodup {ρ : Type*} {key : ρ → ℕ} (t : Table ℕ ρ key) (keep : ρ → Bool)
    (source : ρ → Source) (keyed : ∀ r, (source r).pk = key r) :
    (((t.filter keep).map source).map Source.pk).Nodup :=
  sources_nodup t keep source (fun k => k) keyed fun _ _ _ _ _ _ same => same

theorem branch_nodup : ∀ b ∈ branches db user, (b.2.map Source.pk).Nodup := by
  intro b hb
  simp only [branches, List.mem_cons, List.not_mem_nil, or_false] at hb
  rcases hb with rfl | rfl | rfl | rfl | rfl | rfl | rfl | rfl
  · exact identities_nodup db.listings _ _ fun _ => rfl
  · exact identities_nodup db.revisions _ _ fun _ => rfl
  · exact identities_nodup db.proposals _ _ fun _ => rfl
  · exact identities_nodup db.reviews _ _ fun _ => rfl
  · exact identities_nodup db.verifications _ _ fun _ => rfl
  · apply sources_nodup db.favorites _ _ Prod.snd fun _ => rfl
    -- one account has one favourite of a listing
    intro r _ q _ own own' same
    exact Prod.ext ((of_decide_eq_true own).trans (of_decide_eq_true own').symm) same
  · exact identities_nodup (db.photos .parking) _ _ fun _ => rfl
  · exact identities_nodup (db.photos .review) _ _ fun _ => rfl

theorem tags_distinct : ((branches db user).map Prod.fst).Nodup := by
  simp [branches]

theorem tag_bounds : ∀ b ∈ branches db user, 0 < b.1 ∧ b.1 < 9 := by
  simp [branches]

theorem toItem_id {tag : ℕ} {s : Source} {e : ContributionItem} (h : toItem tag s = some e) :
    e.id = s.pk * 10 + tag := by
  obtain ⟨target, -, rfl⟩ := Option.map_eq_some_iff.mp h
  rfl

theorem mem_events {e : ContributionItem} : e ∈ events db user ↔
    ∃ b ∈ branches db user, ∃ s ∈ b.2, toItem b.1 s = some e := by
  simp [events]

/-- The identities of a branch leave its tag when divided by ten. -/
theorem branch_ids (b : ℕ × List Source) :
    ((b.2.filterMap (toItem b.1)).map ContributionItem.id).Sublist
      (b.2.map fun s => s.pk * 10 + b.1) :=
  keys_filterMap (fun _ _ => toItem_id) b.2

/-- No two events share their identity. -/
theorem ids_distinct : ((events db user).map ContributionItem.id).Nodup := by
  rw [events, List.map_flatMap, List.nodup_flatMap]
  constructor
  · intro b hb
    apply (branch_ids b).nodup
    have keys := branch_nodup b hb
    rw [List.Nodup, List.pairwise_map] at keys ⊢
    exact keys.imp fun different same => different (by omega)
  · have tags : (branches db user).Pairwise fun b c => b.1 ≠ c.1 :=
      List.pairwise_map.mp tags_distinct
    refine tags.imp_of_mem ?_
    intro b c hb hc different
    rw [Function.onFun, List.disjoint_left]
    intro n inB inC
    obtain ⟨s, -, rfl⟩ := List.mem_map.mp ((branch_ids b).subset inB)
    obtain ⟨q, -, same⟩ := List.mem_map.mp ((branch_ids c).subset inC)
    have := tag_bounds b hb
    have := tag_bounds c hc
    omega

/-- The identities of the source rows are positive and far below the end of a `bigint`. -/
def InRange (db : HistoryDb) (user : UserId) : Prop :=
  ∀ b ∈ branches db user, ∀ s ∈ b.2, 0 < s.pk ∧ s.pk < 2 ^ 63 / 10

theorem id_bounds (range : InRange db user) {e : ContributionItem} (he : e ∈ events db user) :
    0 < e.id ∧ e.id < 2 ^ 63 := by
  obtain ⟨b, hb, s, hs, h⟩ := mem_events.mp he
  have := range b hb s hs
  have := tag_bounds b hb
  rw [toItem_id h]
  omega

end Identities

section Walk

variable {db : HistoryDb} {user : UserId} {lib : Libraries} {o : OrderBy newest}

/-- The page of `account_contributions` is the one with its limit. -/
theorem accountContributions_eq (link : Option (List Char × ℤ)) :
    accountContributions db user lib o link =
      contributionsPage db user lib o defaultPageLimit link := by
  have size : pageSize defaultPageLimit = 50 := by decide
  rw [accountContributions, contributionsPage, size, defaultPageLimit]
  norm_cast

theorem pageSize_pos (limit : ℤ) : 0 < pageSize limit := by
  rw [pageSize]
  omega

/-- The event that a link stands for. -/
def linkPosition (lib : Libraries) (link : Option (List Char × ℤ)) : Option (ℤ ×ₗ ℤ)ᵒᵈ :=
  (link.bind (parseAfter lib)).map fun c => OrderDual.toDual (toLex c)

theorem contributionsPage_eq (limit : ℤ) (link : Option (List Char × ℤ)) :
    contributionsPage db user lib o limit link =
      fullPage o (events db user) (linkPosition lib) (nextUrl lib) (pageSize limit) link := rfl

theorem newest_distinct : ((events db user).map newest).Nodup := by
  have ids := @ids_distinct db user
  rw [List.Nodup, List.pairwise_map] at ids ⊢
  refine ids.imp fun different same => different ?_
  have := congrArg (fun k => (ofLex (OrderDual.ofDual k)).2) same
  exact Int.ofNat_inj.mp this

/-- The link after an event leads to it when its year has four digits. -/
theorem linkPosition_nextUrl (laws : lib.Lawful {t | ∃ e ∈ events db user, e.happened = t})
    {e : ContributionItem} (he : e ∈ events db user) (positive : 0 < e.id) :
    linkPosition lib (some (nextUrl lib e)) =
      if Representable e.happened then some (newest e) else none := by
  have positive : 0 < (e.id : ℤ) := by exact_mod_cast positive
  rw [linkPosition, Option.bind_some, nextUrl, parseAfter_link laws ⟨e, he, rfl⟩]
  by_cases inside : Representable e.happened
  · simp only [inside, positive, and_self, if_true, Option.map_some]
    rfl
  · simp [inside]

/-- Events are told apart by their identities, so that (at, id) orders them strictly. -/
theorem position_trichotomy {a b : ContributionItem} (ha : a ∈ events db user)
    (hb : b ∈ events db user) (different : a ≠ b) :
    a.position < b.position ∨ b.position < a.position := by
  apply lt_or_gt_of_ne
  intro same
  have ids : a.id = b.id := Int.ofNat_inj.mp (congrArg (fun p => (ofLex p).2) same)
  exact different (List.inj_on_of_nodup_map ids_distinct ha hb ids)

/-- The synthetic identities are distinct and make (at, id) a strict order of the events, and
following the links, with any limits, shows every event once, newest first, as long as their
years have four digits. -/
theorem contribution_history_complete
    (laws : lib.Lawful {t | ∃ e ∈ events db user, e.happened = t}) (range : InRange db user)
    (years : ∀ e ∈ events db user, Representable e.happened) (limits : ℕ → ℤ) :
    ((events db user).map ContributionItem.id).Nodup ∧
    (∀ e ∈ events db user, 0 < e.id ∧ e.id < 2 ^ 63) ∧
    (∀ a ∈ events db user, ∀ b ∈ events db user, a ≠ b →
      a.position < b.position ∨ b.position < a.position) ∧
    ∃ fuel pages, historyWalk db user lib o limits fuel = some pages ∧
      (pages.flatMap Page.items).Perm (events db user) ∧
      (pages.flatMap Page.items).Pairwise fun a b => b.position < a.position := by
  refine ⟨ids_distinct, fun e he => id_bounds range he, ?_, ?_⟩
  · intro a ha b hb different
    exact position_trichotomy ha hb different
  · have leads : ∀ e ∈ events db user,
        linkPosition lib (some (nextUrl lib e)) = some (newest e) := by
      intro e he
      rw [linkPosition_nextUrl laws he (id_bounds range he).1, if_pos (years e he)]
    have reads : ∀ i link, Reads o (events db user) Eq (linkPosition lib) Page.items Page.next link
        (pageSize (limits i) - 1) (contributionsPage db user lib o (limits i) link) := by
      intro i link
      exact fullPage_reads (pageSize_pos _) leads
    have enough : (remaining newest (events db user) (linkPosition lib none)).length <
        (events db user).length + 1 :=
      Nat.lt_succ_of_le (remaining_length_le _ _)
    obtain ⟨pages, result, shown⟩ := walk_rows newest_distinct reads enough 0
    rw [List.forall₂_eq_eq_eq] at shown
    have whole : remaining newest (events db user) (linkPosition lib none) = events db user :=
      remaining_none _
    rw [whole] at shown
    refine ⟨_, pages, result, shown ▸ o.perm _, ?_⟩
    rw [← shown]
    exact (sort_strict o newest_distinct).imp fun lt => OrderDual.toDual_lt_toDual.mp lt

/-- With one limit for all pages, the events are shown once exactly when no page ends at a year of
more than four digits. -/
theorem historyWalk_complete_iff (laws : lib.Lawful {t | ∃ e ∈ events db user, e.happened = t})
    (range : InRange db user) (limit : ℤ) :
    (∃ fuel pages, historyWalk db user lib o (fun _ => limit) fuel = some pages ∧
      (pages.flatMap Page.items).Perm (events db user)) ↔
        ∀ e ∈ events db user, Kept newest (events db user) (pageSize limit)
          (fun k => Representable (ofLex (OrderDual.ofDual k)).1) (newest e) := by
  refine fullWalk_complete_iff ?_ (pageSize_pos limit) ?_ rfl
  · intro e he inside
    exact (linkPosition_nextUrl laws he (id_bounds range he).1).trans (if_pos inside)
  · intro e he outside
    exact (linkPosition_nextUrl laws he (id_bounds range he).1).trans (if_neg outside)

end Walk

section Samples

/-- An account that added two listings at once. -/
def sampleDb (added : Instant) : HistoryDb where
  listings := ⟨[⟨1, some 7, "Rack", added⟩, ⟨2, some 7, "Locker", added⟩], by simp⟩
  revisions := .empty
  proposals := .empty
  reviews := .empty
  verifications := .empty
  favorites := .empty
  photos _ := .empty

theorem events_sampleDb (added : Instant) : events (sampleDb added) 7 =
    [⟨"added", "Rack", "active", added, 11⟩, ⟨"added", "Locker", "active", added, 21⟩] := rfl

theorem happened_sampleDb {added : Instant} {e : ContributionItem}
    (he : e ∈ events (sampleDb added) 7) : e.happened = added := by
  rw [events_sampleDb] at he
  simp only [List.mem_cons, List.not_mem_nil, or_false] at he
  rcases he with rfl | rfl <;> rfl

theorem inRange_sampleDb (added : Instant) : InRange (sampleDb added) 7 := by
  have sources : ∀ b ∈ branches (sampleDb added) 7, ∀ s ∈ b.2, s.pk = 1 ∨ s.pk = 2 := by
    intro b hb s hs
    have : s ∈ (branches (sampleDb added) 7).flatMap Prod.snd := List.mem_flatMap.mpr ⟨b, hb, hs⟩
    have listed : (branches (sampleDb added) 7).flatMap Prod.snd =
        [⟨"added", "active", some "Rack", added, 1⟩, ⟨"added", "active", some "Locker", added, 2⟩] :=
      rfl
    rw [listed] at this
    simp only [List.mem_cons, List.not_mem_nil, or_false] at this
    rcases this with rfl | rfl
    · exact Or.inl rfl
    · exact Or.inr rfl
  intro b hb s hs
  have := sources b hb s hs
  omega

theorem lawful_sampleDb {added : Instant} {text : String}
    (plain : text ≠ "" ∧ ∀ c ∈ text.toList, c ∈ alphabet) :
    (tableLibraries [(added, text)]).Lawful
      {t | ∃ e ∈ events (sampleDb added) 7, e.happened = t} := by
  have laws : (tableLibraries [(added, text)]).Lawful {t | t ∈ [added]} :=
    tableLibraries_lawful (by simpa using plain) (by simp) (by simp)
  refine laws.mono ?_
  rintro t ⟨e, he, rfl⟩
  exact List.mem_singleton.mpr (happened_sampleDb he)

/-- Monday, 5 January 2026, 9:00. -/
def monday : Instant := 1767603600000000

theorem monday_plain : "2026-01-05T09:00:00+00:00" ≠ "" ∧
    ∀ c ∈ "2026-01-05T09:00:00+00:00".toList, c ∈ alphabet := by
  simp [alphabet]

/-- The history of that account, read with one event a page. -/
theorem monday_history : ((events (sampleDb monday) 7).map ContributionItem.id).Nodup ∧
    (∀ e ∈ events (sampleDb monday) 7, 0 < e.id ∧ e.id < 2 ^ 63) ∧
    (∀ a ∈ events (sampleDb monday) 7, ∀ b ∈ events (sampleDb monday) 7, a ≠ b →
      a.position < b.position ∨ b.position < a.position) ∧
    ∃ fuel pages, historyWalk (sampleDb monday) 7
        (tableLibraries [(monday, "2026-01-05T09:00:00+00:00")]) (stable newest) (fun _ => 1) fuel =
          some pages ∧
      (pages.flatMap Page.items).Perm (events (sampleDb monday) 7) ∧
      (pages.flatMap Page.items).Pairwise fun a b => b.position < a.position :=
  contribution_history_complete (lawful_sampleDb monday_plain) (inRange_sampleDb monday)
    (fun e he => by rw [happened_sampleDb he]; decide) _

/-- The first instant of the year 10000. -/
def lateYear : Instant := 253402300800000000

theorem lateYear_plain : "+10000-01-01T00:00:00+00:00" ≠ "" ∧
    ∀ c ∈ "+10000-01-01T00:00:00+00:00".toList, c ∈ alphabet := by
  simp [alphabet]

/-- A year of five digits is refused in a link, and the history starts over. -/
theorem late_history_repeats : ∃ (db : HistoryDb) (user : UserId) (lib : Libraries)
    (limits : ℕ → ℤ), lib.Lawful {t | ∃ e ∈ events db user, e.happened = t} ∧ InRange db user ∧
      ¬ ∃ fuel pages, historyWalk db user lib (stable newest) limits fuel = some pages ∧
        (pages.flatMap Page.items).Perm (events db user) := by
  have laws := @lawful_sampleDb lateYear _ lateYear_plain
  refine ⟨sampleDb lateYear, 7, _, fun _ => 1, laws, inRange_sampleDb lateYear, ?_⟩
  rw [historyWalk_complete_iff laws (inRange_sampleDb lateYear)]
  intro kept
  have late : (⟨"added", "Rack", "active", lateYear, 11⟩ : ContributionItem) ∈
      events (sampleDb lateYear) 7 := by
    rw [events_sampleDb]
    exact List.mem_cons_self
  have inside : Representable lateYear := (kept _ late).linked (one_dvd _)
  exact absurd inside (by decide)

end Samples

end ContributionHistory
