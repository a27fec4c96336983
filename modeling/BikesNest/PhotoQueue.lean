import BikesNest.Keyset
import BikesNest.Photos
import BikesNest.TimeLinks

/-! The queue of photos that wait for a moderator. Two tables with identities of their own share
one cursor, the time of the upload and the identity, which two photos can share. -/

namespace PhotoQueue

open Parking Photos RowOrder Keyset TimeLinks

/-- What the queue reads. Foreign keys lead from each photo to its listing, and identities
start at one. -/
structure QueueDb where
  photos : PhotoKind → PhotoTable
  locationName : LocationId → Option String
  reviewLocation : ℕ → Option LocationId
  located : ∀ p ∈ photos .parking, (locationName p.parentId).isSome
  reviewed : ∀ p ∈ photos .review, ((reviewLocation p.parentId).bind locationName).isSome
  positive : ∀ kind, ∀ p ∈ photos kind, 0 < p.id

structure PendingPhoto where
  id : ℕ
  kind : PhotoKind
  parentId : LocationId
  parentName : String
  storageKey : String
  thumbnailKey : Option String
  alt : Option String
  width : ℕ
  height : ℕ
  uploaderId : Option UserId
  createdAt : Instant
  deriving DecidableEq

def pendingPhoto (kind : PhotoKind) (p : StoredPhoto) (alt : Option String) (l : LocationId)
    (name : String) : PendingPhoto where
  id := p.id
  kind := kind
  parentId := l
  parentName := name
  storageKey := p.storageKey
  thumbnailKey := p.thumbnailKey
  alt := alt
  width := p.width
  height := p.height
  uploaderId := p.uploaderId
  createdAt := p.createdAt

def isPending (p : StoredPhoto) : Bool := decide (p.moderationState = .pendingReview)

/-- The joins of a branch; they drop a photo without a listing. -/
def joined (db : QueueDb) : PhotoKind → StoredPhoto → Option PendingPhoto
  | .parking, p => (db.locationName p.parentId).map (pendingPhoto .parking p p.alt p.parentId)
  | .review, p => (db.reviewLocation p.parentId).bind fun l =>
      (db.locationName l).map (pendingPhoto .review p none l)

def branch (db : QueueDb) (kind : PhotoKind) : List PendingPhoto :=
  ((db.photos kind).filter isPending).filterMap (joined db kind)

/-- `UNION ALL`. -/
def pending (db : QueueDb) : List PendingPhoto := branch db .parking ++ branch db .review

/-- `(created_at, id)`. -/
def PendingPhoto.position (p : PendingPhoto) : ℤ ×ₗ ℤ := toLex (p.createdAt, (p.id : ℤ))

/-- `list_pending`. -/
def listPending (o : OrderBy PendingPhoto.position) (db : QueueDb) (after : Option (Instant × ℤ))
    (limit : ℤ) : List PendingPhoto :=
  pageOf o (pending db) (after.map toLex) (max 1 (min limit 200)).toNat

def defaultPageLimit : ℤ := 50

/-- The link to the photos after a row. -/
def nextUrl (lib : Libraries) (last : PendingPhoto) : List Char × ℤ :=
  (urlencodingRfc3339 lib last.createdAt, (last.id : ℤ))

/-- `moderation_photos`: a full page may have more. -/
def moderationPhotos (lib : Libraries) (o : OrderBy PendingPhoto.position) (db : QueueDb)
    (link : Option (List Char × ℤ)) : Page PendingPhoto (List Char × ℤ) :=
  let photos := listPending o db (link.bind (parseAfter lib)) defaultPageLimit
  ⟨photos, if (photos.length : ℤ) = defaultPageLimit then photos.getLast?.map (nextUrl lib)
    else none⟩

/-- The pages met by following the next links from the first page. -/
def queueWalk (lib : Libraries) (o : OrderBy PendingPhoto.position) (db : QueueDb) (fuel : ℕ) :
    Option (List (Page PendingPhoto (List Char × ℤ))) :=
  walk Page.next (fun _ => moderationPhotos lib o db) fuel 0 none

section Queue

variable {db : QueueDb} {kind : PhotoKind} {p : StoredPhoto}

theorem joined_copies {item : PendingPhoto} (h : joined db kind p = some item) :
    item.kind = kind ∧ item.id = p.id ∧ item.createdAt = p.createdAt := by
  cases kind with
  | parking =>
    obtain ⟨name, -, rfl⟩ := Option.map_eq_some_iff.mp h
    exact ⟨rfl, rfl, rfl⟩
  | review =>
    obtain ⟨l, -, h⟩ := Option.bind_eq_some_iff.mp h
    obtain ⟨name, -, rfl⟩ := Option.map_eq_some_iff.mp h
    exact ⟨rfl, rfl, rfl⟩

theorem joined_isSome (hp : p ∈ db.photos kind) : ∃ item, joined db kind p = some item := by
  cases kind with
  | parking =>
    obtain ⟨name, hname⟩ := Option.isSome_iff_exists.mp (db.located p hp)
    exact ⟨_, by rw [joined, hname]; rfl⟩
  | review =>
    obtain ⟨name, hname⟩ := Option.isSome_iff_exists.mp (db.reviewed p hp)
    obtain ⟨l, hl, hname⟩ := Option.bind_eq_some_iff.mp hname
    exact ⟨_, by rw [joined, hl, Option.bind_some, hname]; rfl⟩

theorem mem_branch {item : PendingPhoto} : item ∈ branch db kind ↔
    ∃ p ∈ db.photos kind, p.moderationState = .pendingReview ∧ joined db kind p = some item := by
  simp [branch, isPending, and_assoc]

theorem kind_of_branch {item : PendingPhoto} (h : item ∈ branch db kind) : item.kind = kind := by
  obtain ⟨p, -, -, h⟩ := mem_branch.mp h
  exact (joined_copies h).1

theorem mem_pending_iff {item : PendingPhoto} : item ∈ pending db ↔ item ∈ branch db item.kind := by
  rw [pending, List.mem_append]
  constructor
  · rintro (h | h)
    · rwa [kind_of_branch h]
    · rwa [kind_of_branch h]
  · intro h
    cases kind : item.kind with
    | parking => exact Or.inl (kind ▸ h)
    | review => exact Or.inr (kind ▸ h)

/-- Every pending photo is an item of the queue, and nothing else is. -/
theorem exists_item_iff {id : ℕ} : (∃ item ∈ pending db, item.kind = kind ∧ item.id = id) ↔
    ∃ p ∈ db.photos kind, p.id = id ∧ p.moderationState = .pendingReview := by
  constructor
  · rintro ⟨item, hitem, rfl, rfl⟩
    obtain ⟨p, hp, state, h⟩ := mem_branch.mp (mem_pending_iff.mp hitem)
    exact ⟨p, hp, (joined_copies h).2.1.symm, state⟩
  · rintro ⟨p, hp, rfl, state⟩
    obtain ⟨item, h⟩ := joined_isSome hp
    obtain ⟨same, id, -⟩ := joined_copies h
    refine ⟨item, mem_pending_iff.mpr ?_, same, id⟩
    rw [same]
    exact mem_branch.mpr ⟨p, hp, state, h⟩

theorem positive_of_pending {item : PendingPhoto} (h : item ∈ pending db) : 0 < item.id := by
  obtain ⟨p, hp, -, copied⟩ := mem_branch.mp (mem_pending_iff.mp h)
  rw [(joined_copies copied).2.1]
  exact db.positive _ p hp

theorem branch_nodup : ((branch db kind).map PendingPhoto.id).Nodup := by
  have ids : ((branch db kind).map PendingPhoto.id).Sublist
      (((db.photos kind).filter isPending).map fun p => p.id) :=
    keys_filterMap (fun _ _ copied => (joined_copies copied).2.1) _
  exact (ids.trans (List.filter_sublist.map _)).nodup (db.photos kind).distinct

/-- No photo is there twice. -/
theorem pending_nodup : ((pending db).map fun item => (item.kind, item.id)).Nodup := by
  have each : ∀ k, ((branch db k).map fun item => (item.kind, item.id)).Nodup := by
    intro k
    exact List.Nodup.of_map Prod.snd (by simpa [Function.comp_def] using branch_nodup)
  rw [pending, List.map_append, List.nodup_append]
  refine ⟨each .parking, each .review, ?_⟩
  rintro a ha b hb rfl
  obtain ⟨x, hx, rfl⟩ := List.mem_map.mp ha
  obtain ⟨y, hy, same⟩ := List.mem_map.mp hb
  have kinds := (Prod.mk.inj same).1
  rw [kind_of_branch hx, kind_of_branch hy] at kinds
  cases kinds

end Queue

section Walk

variable {lib : Libraries} (o : OrderBy PendingPhoto.position) (db : QueueDb)

/-- The row that a link stands for. -/
def linkPosition (lib : Libraries) (link : Option (List Char × ℤ)) : Option (ℤ ×ₗ ℤ) :=
  (link.bind (parseAfter lib)).map toLex

theorem moderationPhotos_eq (link : Option (List Char × ℤ)) :
    moderationPhotos lib o db link =
      fullPage o (pending db) (linkPosition lib) (nextUrl lib) 50 link := by
  have size : (max 1 (min defaultPageLimit 200)).toNat = 50 := by decide
  rw [moderationPhotos, fullPage, listPending, size, defaultPageLimit, linkPosition]
  norm_cast

/-- The link after a photo leads to it when its year has four digits. -/
theorem linkPosition_nextUrl (laws : lib.Lawful {t | ∃ item ∈ pending db, item.createdAt = t})
    {item : PendingPhoto} (h : item ∈ pending db) : linkPosition lib (some (nextUrl lib item)) =
      if Representable item.createdAt then some item.position else none := by
  have positive : 0 < (item.id : ℤ) := by exact_mod_cast positive_of_pending h
  rw [linkPosition, Option.bind_some, nextUrl, parseAfter_link laws ⟨item, h, rfl⟩]
  by_cases inside : Representable item.createdAt
  · simp only [inside, positive, and_self, if_true, Option.map_some]
    rfl
  · simp [inside]

/-- A photo is kept when those of its time and identity lie on one page of the queue, and when
the link of a page that they end can be read. -/
def QueueKept (db : QueueDb) (item : PendingPhoto) : Prop :=
  Kept PendingPhoto.position (pending db) 50 (fun k => Representable (ofLex k).1) item.position

theorem queueWalk_complete_iff (laws : lib.Lawful {t | ∃ item ∈ pending db, item.createdAt = t}) :
    (∃ fuel pages, queueWalk lib o db fuel = some pages ∧
      (pages.flatMap Page.items).Perm (pending db)) ↔ ∀ item ∈ pending db, QueueKept db item := by
  have same : ∀ fuel, queueWalk lib o db fuel =
      fullWalk o (pending db) (linkPosition lib) (nextUrl lib) 50 fuel none := by
    intro fuel
    rw [queueWalk, fullWalk]
    congr
    funext _ link
    exact moderationPhotos_eq o db link
  simp only [same]
  refine fullWalk_complete_iff ?_ (by decide) ?_ rfl
  · intro item h inside
    rw [linkPosition_nextUrl db laws h]
    exact if_pos inside
  · intro item h outside
    rw [linkPosition_nextUrl db laws h]
    exact if_neg outside

/-- Following the next links shows every pending photo once exactly when no photos of one time
and identity are parted by the end of a page, and no page ends at a time whose year has more
than four digits. -/
theorem photo_queue_complete_iff
    (laws : lib.Lawful {t | ∃ item ∈ pending db, item.createdAt = t}) :
    (∃ fuel pages, queueWalk lib o db fuel = some pages ∧
        (pages.flatMap Page.items).Perm (pending db)) ↔
      ∀ item ∈ pending db,
        (below PendingPhoto.position (pending db) item.position / 50 =
          (upTo PendingPhoto.position (pending db) item.position - 1) / 50) ∧
        (50 ∣ upTo PendingPhoto.position (pending db) item.position →
          Representable item.createdAt) := by
  rw [queueWalk_complete_iff o db laws]
  refine forall₂_congr fun item _ => ?_
  constructor
  · intro kept
    exact ⟨kept.together, kept.linked⟩
  · rintro ⟨together, linked⟩
    exact ⟨together, linked⟩

end Walk

section Tie

def uploadTime : Instant := 1767603600000000

def uploaded (id : ℕ) : StoredPhoto :=
  newPhoto id ⟨.parking, 4, 7, none, "uploads/x/full.jpg", "uploads/x/thumb.jpg", 1600, 1200⟩
    uploadTime

/-- Fifty photos of a listing and one of a review, of the same time; the last two share their
identity too. -/
def tieDb : QueueDb where
  photos
    | .parking => ⟨(List.range 50).map fun i => uploaded (i + 1), by decide⟩
    | .review => ⟨[uploaded 50], by decide⟩
  locationName _ := some "Rack"
  reviewLocation _ := some 4
  located _ _ := rfl
  reviewed _ _ := rfl
  positive := by
    intro kind p hp
    cases kind with
    | parking =>
      obtain ⟨i, -, rfl⟩ := List.mem_map.mp hp
      exact Nat.succ_pos i
    | review =>
      obtain rfl := List.mem_singleton.mp hp
      decide

def uploadLibraries : Libraries := tableLibraries [(uploadTime, "2026-01-05T09:00:00+00:00")]

theorem uploadLibraries_lawful :
    uploadLibraries.Lawful {t | ∃ item ∈ pending tieDb, item.createdAt = t} := by
  have laws : uploadLibraries.Lawful {t | t ∈ [uploadTime]} :=
    tableLibraries_lawful (by simp [alphabet]) (by decide) (by decide)
  refine laws.mono ?_
  rintro t ⟨item, h, rfl⟩
  obtain ⟨p, hp, -, copied⟩ := mem_branch.mp (mem_pending_iff.mp h)
  rw [(joined_copies copied).2.2]
  have stored : ∀ kind, ∀ q ∈ tieDb.photos kind, q.createdAt = uploadTime := by
    intro kind q hq
    cases kind with
    | parking =>
      obtain ⟨i, -, rfl⟩ := List.mem_map.mp hq
      rfl
    | review =>
      obtain rfl := List.mem_singleton.mp hq
      rfl
  exact List.mem_singleton.mpr (stored _ p hp)

/-- The queue of those photos, whose pages are cut between the two. -/
theorem tie_queue : (∃ fuel pages, queueWalk uploadLibraries (stable _) tieDb fuel = some pages ∧
        (pages.flatMap Page.items).Perm (pending tieDb)) ↔
      ∀ item ∈ pending tieDb,
        (below PendingPhoto.position (pending tieDb) item.position / 50 =
          (upTo PendingPhoto.position (pending tieDb) item.position - 1) / 50) ∧
        (50 ∣ upTo PendingPhoto.position (pending tieDb) item.position →
          Representable item.createdAt) :=
  photo_queue_complete_iff (stable _) tieDb uploadLibraries_lawful

/-- No walk shows both photos that share their time and identity. -/
theorem tied_photo_lost : ¬ ∃ fuel pages,
    queueWalk uploadLibraries (stable _) tieDb fuel = some pages ∧
      (pages.flatMap Page.items).Perm (pending tieDb) := by
  rw [queueWalk_complete_iff (stable _) tieDb uploadLibraries_lawful]
  intro kept
  have tie : pendingPhoto .review (uploaded 50) none 4 "Rack" ∈ pending tieDb := by
    decide
  have together := (kept _ tie).together
  revert together
  decide +kernel

end Tie

end PhotoQueue
