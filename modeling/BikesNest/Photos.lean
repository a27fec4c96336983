import BikesNest.Erasure

/-! Photos: a row of one of two tables, and up to two objects of the object store, which shares no
transaction with the database. -/

namespace Photos

open Parking

inductive PhotoKind where
  | parking | review
  deriving DecidableEq

/-- A row of `parking_photo` or of `review_photo`; the latter has no caption. -/
structure StoredPhoto extends Erasure.PhotoRow where
  parentId : ℕ
  storageKey : String
  thumbnailKey : Option String
  alt : Option String
  width : ℕ
  height : ℕ
  rejectionReason : Option String
  position : ℕ
  createdAt : Instant
  deriving DecidableEq

abbrev PhotoTable := Table ℕ StoredPhoto fun p => p.id

structure StoredObject where
  key : String
  lastModified : Instant
  deriving DecidableEq

abbrev ObjectStore := Table String StoredObject StoredObject.key

structure PhotoDb where
  photos : PhotoKind → PhotoTable
  objects : ObjectStore

def emptyDb : PhotoDb := ⟨fun _ => .empty, .empty⟩

def PhotoDb.setPhotos (db : PhotoDb) (kind : PhotoKind) (t : PhotoTable) : PhotoDb :=
  { db with photos := Function.update db.photos kind t }

theorem photos_setPhotos (db : PhotoDb) (kind k : PhotoKind) (t : PhotoTable) :
    (db.setPhotos kind t).photos k = if k = kind then t else db.photos k := by
  by_cases same : k = kind
  · subst same
    simp [PhotoDb.setPhotos]
  · simp [PhotoDb.setPhotos, same]

@[simp] theorem objects_setPhotos (db : PhotoDb) (kind : PhotoKind) (t : PhotoTable) :
    (db.setPhotos kind t).objects = db.objects := rfl

/-- The keys that a row names. -/
def StoredPhoto.keys (p : StoredPhoto) : List String := p.storageKey :: p.thumbnailKey.toList

/-! The object store. -/

/-- `put` overwrites. -/
def putObject (objects : ObjectStore) (key : String) (now : Instant) : ObjectStore where
  rows := ⟨key, now⟩ :: objects.rows.filter fun o => decide (o.key ≠ key)
  distinct := by
    rw [List.map_cons, List.nodup_cons]
    constructor
    · intro h
      obtain ⟨o, ho, same⟩ := List.mem_map.mp h
      simp [same] at ho
    · exact (List.filter_sublist.map StoredObject.key).nodup objects.distinct

/-- A missing object is no error. -/
def deleteObject (objects : ObjectStore) (key : String) : ObjectStore :=
  objects.delete fun o => decide (o.key = key)

def present (objects : ObjectStore) (key : String) : Prop := ∃ o ∈ objects, o.key = key

def objectExists (objects : ObjectStore) (key : String) : Bool := (objects.find key).isSome

theorem objectExists_iff {objects : ObjectStore} {key : String} :
    objectExists objects key = true ↔ present objects key := by
  rw [objectExists, Option.isSome_iff_exists]
  exact exists_congr fun o => Table.find_eq_some

@[simp] theorem present_put {objects : ObjectStore} {key k : String} {now : Instant} :
    present (putObject objects key now) k ↔ k = key ∨ present objects k := by
  simp only [present, Table.mem_rows, putObject, List.mem_cons, List.mem_filter,
    decide_eq_true_eq]
  constructor
  · rintro ⟨o, rfl | ⟨ho, -⟩, rfl⟩
    · exact Or.inl rfl
    · exact Or.inr ⟨o, ho, rfl⟩
  · rintro (rfl | ⟨o, ho, rfl⟩)
    · exact ⟨_, Or.inl rfl, rfl⟩
    · by_cases same : o.key = key
      · exact ⟨_, Or.inl rfl, same.symm⟩
      · exact ⟨o, Or.inr ⟨ho, same⟩, rfl⟩

@[simp] theorem present_delete {objects : ObjectStore} {key k : String} :
    present (deleteObject objects key) k ↔ k ≠ key ∧ present objects k := by
  simp only [present, deleteObject, Table.mem_delete, decide_eq_false_iff_not]
  constructor
  · rintro ⟨o, ⟨ho, different⟩, rfl⟩
    exact ⟨different, o, ho, rfl⟩
  · rintro ⟨different, o, ho, rfl⟩
    exact ⟨o, ⟨ho, different⟩, rfl⟩

@[simp] theorem not_present_empty {k : String} : ¬ present .empty k := by
  rintro ⟨o, ho, -⟩
  exact Table.not_mem_empty o ho

/-- How a request to the object store ends. One whose answer is lost has taken effect, and the
caller gets an error. -/
inductive Answer where
  | done | refused | lost
  deriving DecidableEq

def Answer.isError : Answer → Bool
  | .done => false
  | _ => true

def putAnswered (objects : ObjectStore) (key : String) (now : Instant) : Answer → ObjectStore
  | .refused => objects
  | _ => putObject objects key now

def deleteAnswered (objects : ObjectStore) (key : String) : Answer → ObjectStore
  | .refused => objects
  | _ => deleteObject objects key

theorem present_putAnswered {objects : ObjectStore} {key k : String} {now : Instant}
    {answer : Answer} : present (putAnswered objects key now answer) k ↔
      present objects k ∨ k = key ∧ answer ≠ .refused := by
  cases answer with
  | refused => simp [putAnswered]
  | _ => simp [putAnswered, or_comm]

theorem present_deleteAnswered {objects : ObjectStore} {key k : String} {answer : Answer} :
    present (deleteAnswered objects key answer) k ↔
      present objects k ∧ (k = key → answer = .refused) := by
  cases answer with
  | refused => simp [deleteAnswered]
  | _ => simp [deleteAnswered, and_comm]

/-! The rows. -/

structure NewPendingPhoto where
  kind : PhotoKind
  parentId : ℕ
  uploaderId : UserId
  alt : Option String
  storageKey : String
  thumbnailKey : String
  width : ℕ
  height : ℕ

/-- The row of an upload. -/
def newPhoto (id : ℕ) (new : NewPendingPhoto) (now : Instant) : StoredPhoto where
  id := id
  uploaderId := some new.uploaderId
  moderationState := .pendingReview
  reviewedBy := none
  reviewedAt := none
  parentId := new.parentId
  storageKey := new.storageKey
  thumbnailKey := some new.thumbnailKey
  alt := new.alt
  width := new.width
  height := new.height
  rejectionReason := none
  position := 0
  createdAt := now

/-- `insert_pending`: one insert, complete. -/
def insertPending (db : PhotoDb) (id : ℕ) (new : NewPendingPhoto) (now : Instant) :
    Option PhotoDb :=
  ((db.photos new.kind).insert (newPhoto id new now)).map (db.setPhotos new.kind)

/-- `UPDATE … WHERE id = $1 AND moderation_state = …`; no row is an error. -/
def moderate (db : PhotoDb) (kind : PhotoKind) (id : ℕ) (expected : Erasure.PhotoState)
    (f : StoredPhoto → StoredPhoto) (hf : ∀ p, (f p).id = p.id) : Option PhotoDb :=
  match (db.photos kind).find id with
  | some p =>
    if p.moderationState = expected then
      some (db.setPhotos kind ((db.photos kind).update (fun q => decide (q.id = id)) f hf))
    else none
  | none => none

/-- The gallery's next position. -/
def nextPosition (t : PhotoTable) (parentId : ℕ) : ℕ :=
  ((t.filter fun q => decide (q.parentId = parentId)).map StoredPhoto.position).foldl max 0 + 1

/-- `approve`. -/
def approve (db : PhotoDb) (kind : PhotoKind) (id : ℕ) (moderator : UserId) (now : Instant) :
    Option PhotoDb :=
  moderate db kind id .pendingReview (fun p =>
    { p with
      moderationState := .approved
      reviewedBy := some moderator
      reviewedAt := some now
      position := nextPosition (db.photos kind) p.parentId }) fun _ => rfl

/-- `reject`. -/
def reject (db : PhotoDb) (kind : PhotoKind) (id : ℕ) (moderator : UserId) (reason : String)
    (now : Instant) : Option PhotoDb :=
  moderate db kind id .pendingReview (fun p =>
    { p with
      moderationState := .rejected
      rejectionReason := some reason
      reviewedBy := some moderator
      reviewedAt := some now }) fun _ => rfl

/-- `hide_photo`. -/
def hide (db : PhotoDb) (kind : PhotoKind) (id : ℕ) (moderator : UserId) (now : Instant) :
    Option PhotoDb :=
  moderate db kind id .approved (fun p =>
    { p with
      moderationState := .hidden
      reviewedBy := some moderator
      reviewedAt := some now }) fun _ => rfl

/-- `restore_photo`. -/
def restore (db : PhotoDb) (kind : PhotoKind) (id : ℕ) (moderator : UserId) (now : Instant) :
    Option PhotoDb :=
  moderate db kind id .hidden (fun p =>
    { p with
      moderationState := .approved
      reviewedBy := some moderator
      reviewedAt := some now }) fun _ => rfl

/-- `DELETE FROM … WHERE id = $1`. -/
def deletePhoto (db : PhotoDb) (kind : PhotoKind) (id : ℕ) : PhotoDb :=
  db.setPhotos kind ((db.photos kind).delete fun p => decide (p.id = id))

section Rows

variable {db db' : PhotoDb} {kind k : PhotoKind} {id i : ℕ}

/-- A successful change of state met the expected state, and changed that row only. -/
theorem moderate_eq_some {expected : Erasure.PhotoState} {f : StoredPhoto → StoredPhoto}
    {hf : ∀ p, (f p).id = p.id} (h : moderate db kind id expected f hf = some db') :
    ∃ p, (db.photos kind).find id = some p ∧ p.moderationState = expected ∧
      db'.objects = db.objects ∧
      ∀ k i, (db'.photos k).find i =
        if k = kind ∧ i = id then some (f p) else (db.photos k).find i := by
  unfold moderate at h
  split at h
  · rename_i p found
    split_ifs at h with state
    cases h
    refine ⟨p, found, state, rfl, ?_⟩
    intro k i
    rw [photos_setPhotos]
    by_cases same : k = kind
    · subst same
      rw [if_pos rfl, Table.find_update]
      by_cases here : i = id
      · subst here
        simp [found, (Table.find_eq_some.mp found).2]
      · cases other : (db.photos k).find i with
        | none => simp [here]
        | some q => simp [here, (Table.find_eq_some.mp other).2]
    · simp [same]
  · cases h

/-- A change of state that is expected is made. -/
theorem moderate_of_state {expected : Erasure.PhotoState} {f : StoredPhoto → StoredPhoto}
    {hf : ∀ p, (f p).id = p.id} {p : StoredPhoto} (found : (db.photos kind).find id = some p)
    (state : p.moderationState = expected) : ∃ db', moderate db kind id expected f hf = some db' := by
  refine ⟨db.setPhotos kind ((db.photos kind).update (fun q => decide (q.id = id)) f hf), ?_⟩
  simp only [moderate, found]
  exact if_pos state

theorem find_deletePhoto : ((deletePhoto db kind id).photos k).find i =
    if k = kind ∧ i = id then none else (db.photos k).find i := by
  rw [deletePhoto, photos_setPhotos]
  by_cases same : k = kind
  · subst same
    rw [if_pos rfl, Table.find_delete]
    cases found : (db.photos k).find i with
    | none => simp
    | some p =>
      obtain ⟨-, rfl⟩ := Table.find_eq_some.mp found
      by_cases here : p.id = id
      · simp [here]
      · simp [here]
  · simp [same]

theorem find_insertPending {new : NewPendingPhoto} {now : Instant}
    (h : insertPending db id new now = some db') :
    db'.objects = db.objects ∧ (db.photos new.kind).find id = none ∧
      ∀ k i, (db'.photos k).find i =
        if k = new.kind ∧ i = id then some (newPhoto id new now) else (db.photos k).find i := by
  obtain ⟨t, inserted, rfl⟩ := Option.map_eq_some_iff.mp h
  refine ⟨rfl, (Table.insert_eq_some.mp inserted).1, ?_⟩
  intro k i
  rw [photos_setPhotos]
  by_cases same : k = new.kind
  · subst same
    rw [if_pos rfl, Table.find_insert inserted]
    by_cases here : i = id
    · subst here
      exact (if_pos rfl).trans (if_pos ⟨rfl, rfl⟩).symm
    · exact (if_neg fun h => here h.symm).trans (if_neg fun h => here h.2).symm
  · simp [same]

end Rows

end Photos
