import BikesNest.Keyset
import BikesNest.PhotoReconcile

/-! Uploads, and the sweep that deletes the objects of uploads that no photo names. An upload
stores both objects before it inserts the row; the sweep lists the store page by page and asks the
database, once for each page, which of the old keys are named. -/

namespace PhotoUploads

open Parking Photos Interleaving

/-- `MAX_ALT_LEN`. -/
def maxAltLen : ℕ := 500

/-- `LIST_PAGE_KEYS`. -/
def listPageKeys : ℕ := 1000

/-- `UPLOAD_PREFIX`. -/
def uploadPrefix : String := "uploads/"

structure Policy where
  maxBytes : ℕ
  /-- Twenty-four hours by default. -/
  uploadOrphanTtl : ℤ

inductive UploadError where
  | notVerified
  | rateLimited
  | tooLarge
  | unsupportedFormat
  | undecodable
  | tooManyPixels
  | conflict
  | unavailable
  | photo (error : PhotoReconcile.PhotoError)
  deriving DecidableEq

abbrev Reply := Except UploadError ℕ

/-- An upload, with the answers of the rate limiter and of the image processor, and the random
identity that its keys are made of. -/
structure Upload where
  kind : PhotoKind
  parentId : ℕ
  userId : UserId
  isVerified : Bool
  userAllowed : Bool
  ipAllowed : Bool
  bytes : ℕ
  alt : Option String
  processed : Except UploadError (ℕ × ℕ)
  uploadId : String

def fullKey (uploadId : String) : String := uploadPrefix ++ uploadId ++ "/full.jpg"

def thumbKey (uploadId : String) : String := uploadPrefix ++ uploadId ++ "/thumb.jpg"

/-- `normalize_alt`. -/
def normalizeAlt : Option String → Except UploadError (Option String)
  | none => .ok none
  | some raw =>
    if trim raw = "" then .ok none
    else if maxAltLen < (trim raw).length then
      .error (.photo (.invalidField "caption too long"))
    else .ok (some (trim raw))

/-- What an upload does before it stores anything. -/
def prepare (policy : Policy) (u : Upload) : Except UploadError NewPendingPhoto :=
  if u.isVerified = false then .error .notVerified
  else if u.userAllowed = false then .error .rateLimited
  else if u.ipAllowed = false then .error .rateLimited
  else if policy.maxBytes < u.bytes then .error .tooLarge
  else do
    let alt ← normalizeAlt u.alt
    let (width, height) ← u.processed
    return ⟨u.kind, u.parentId, u.userId, alt, fullKey u.uploadId, thumbKey u.uploadId, width,
      height⟩

/-! The listing of the store. -/

structure ObjectPage where
  objects : List StoredObject
  next : Option String

def startsWith (under key : String) : Prop := under.toList <+: key.toList

instance (under key : String) : Decidable (startsWith under key) :=
  inferInstanceAs (Decidable (under.toList <+: key.toList))

/-- The listing gives times in whole seconds. -/
def wholeSecond (t : Instant) : Instant := t / 1000000 * 1000000

/-- The keys from a position on, in ascending order. -/
def listing (objects : ObjectStore) (under : String) (after : Option String) :
    List StoredObject :=
  (RowOrder.stable StoredObject.key).sort
    (Keyset.remaining StoredObject.key
      (objects.filter fun o => decide (startsWith under o.key)) after)

/-- `list`: a page of the keys, and where it ends when there are more. -/
def list (objects : ObjectStore) (under : String) (after : Option String) : ObjectPage where
  objects := ((listing objects under after).take listPageKeys).map fun o =>
    { o with lastModified := wholeSecond o.lastModified }
  next :=
    if listPageKeys < (listing objects under after).length then
      ((listing objects under after).take listPageKeys).getLast?.map StoredObject.key
    else none

/-- Some row, in whatever state, names the key. -/
def referenced (db : PhotoDb) (key : String) : Bool :=
  ((db.photos .parking).rows ++ (db.photos .review).rows).any fun p => decide (key ∈ p.keys)

inductive Phase where
  | moderation (phase : PhotoReconcile.Phase)
  | putFull (new : NewPendingPhoto)
  | putThumb (new : NewPendingPhoto)
  | insert (new : NewPendingPhoto)
  | undoThumb (new : NewPendingPhoto) (error : UploadError)
  | undoFull (key : String) (error : UploadError)
  | listUploads (cutoff : Instant) (after : Option String) (purged : ℕ)
  | probe (cutoff : Instant) (aged : List String) (next : Option String) (purged : ℕ)
  | purge (cutoff : Instant) (key : String) (rest : List String) (next : Option String)
      (purged : ℕ)

inductive Call where
  | moderation (call : PhotoReconcile.Call)
  | uploadPhoto (upload : Upload)
  | purgeOrphanUploads (now : Instant)

/-- The answer is that of the object store or, where a statement needs one, that of the database:
a statement that fails has no effect. The identity is the next one of the table. -/
structure Input extends PhotoReconcile.Input where
  id : ℕ

def liftReply : PhotoReconcile.Reply → Reply
  | .ok n => .ok n
  | .error e => .error (.photo e)

def liftProgress : Progress PhotoReconcile.Phase PhotoReconcile.Reply → Progress Phase Reply
  | .next phase => .next (.moderation phase)
  | .done reply => .done (liftReply reply)

def entry (policy : Policy) : Call → Progress Phase Reply
  | .moderation call => liftProgress (PhotoReconcile.entry call)
  | .uploadPhoto upload =>
    match prepare policy upload with
    | .ok new => .next (.putFull new)
    | .error e => .done (.error e)
  | .purgeOrphanUploads now => .next (.listUploads (now - policy.uploadOrphanTtl) none 0)

/-- The next key of the page, or the next page. -/
def resumePurge (cutoff : Instant) (next : Option String) (purged : ℕ) :
    List String → Progress Phase Reply
  | key :: rest => .next (.purge cutoff key rest next purged)
  | [] =>
    match next with
    | some key => .next (.listUploads cutoff (some key) purged)
    | none => .done (.ok purged)

/-- The keys of a page that are old enough. -/
def agedKeys (page : ObjectPage) (cutoff : Instant) : List String :=
  (page.objects.filter fun o => decide (o.lastModified < cutoff)).map StoredObject.key

/-- One statement of a call, or one request to the object store. -/
def step (phase : Phase) (input : Input) (db : PhotoDb) : PhotoDb × Progress Phase Reply :=
  match phase with
  | .moderation phase =>
    let r := PhotoReconcile.step phase input.toInput db
    (r.1, liftProgress r.2)
  | .putFull new =>
    ({ db with objects := putAnswered db.objects new.storageKey input.now input.answer },
      if input.answer.isError then .done (.error (.photo .storage)) else .next (.putThumb new))
  | .putThumb new =>
    ({ db with objects := putAnswered db.objects new.thumbnailKey input.now input.answer },
      if input.answer.isError then .next (.undoFull new.storageKey (.photo .storage))
      else .next (.insert new))
  | .insert new =>
    if input.answer.isError then (db, .next (.undoThumb new .unavailable))
    else
      match insertPending db input.id new input.now with
      | some db' => (db', .done (.ok input.id))
      | none => (db, .next (.undoThumb new .conflict))
  | .undoThumb new error =>
    ({ db with objects := deleteAnswered db.objects new.thumbnailKey input.answer },
      .next (.undoFull new.storageKey error))
  | .undoFull key error =>
    ({ db with objects := deleteAnswered db.objects key input.answer }, .done (.error error))
  | .listUploads cutoff after purged =>
    if input.answer.isError then (db, .done (.error (.photo .storage)))
    else
      let page := list db.objects uploadPrefix after
      (db, .next (.probe cutoff (agedKeys page cutoff) page.next purged))
  | .probe cutoff aged next purged =>
    -- an empty batch asks nothing
    if input.answer.isError ∧ aged ≠ [] then (db, .done (.error .unavailable))
    else (db, resumePurge cutoff next purged (aged.filter fun key => !referenced db key))
  | .purge cutoff key rest next purged =>
    ({ db with objects := deleteAnswered db.objects key input.answer },
      if input.answer.isError then .done (.error (.photo .storage))
      else resumePurge cutoff next (purged + 1) rest)

def program (policy : Policy) :
    Program PhotoDb Phase Reply Input Call PhotoReconcile.PhotoOp :=
  ⟨entry policy, step, PhotoReconcile.apply⟩

/-- A call with nothing beside it, by the inputs of its steps; it stops where they end. -/
inductive Event where
  | call (call : Call) (inputs : List Input)
  | other (op : PhotoReconcile.PhotoOp)

def callAlone (policy : Policy) (db : PhotoDb) (call : Call) (inputs : List Input) :
    PhotoDb × Progress Phase Reply :=
  alone (program policy) inputs (db, entry policy call)

def exec (policy : Policy) (db : PhotoDb) : Event → PhotoDb
  | .call call inputs => (callAlone policy db call inputs).1
  | .other op => PhotoReconcile.apply op db

section Listing

variable {objects : ObjectStore} {under : String} {after : Option String} {o : StoredObject}

theorem mem_listing : o ∈ listing objects under after ↔
    o ∈ objects ∧ startsWith under o.key ∧ ∀ k ∈ after, k < o.key := by
  rw [listing, RowOrder.mem_sort, Keyset.mem_remaining, Table.mem_filter, decide_eq_true_eq,
    and_assoc]

theorem listing_strict : (listing objects under after).Pairwise fun a b => a.key < b.key := by
  apply RowOrder.sort_strict
  apply Keyset.remaining_distinct
  exact (List.filter_sublist.map StoredObject.key).nodup objects.distinct

/-- The link of a page is its last key, and there is one when more keys follow. -/
theorem list_next {k : String} : k ∈ (list objects under after).next ↔
    listPageKeys < (listing objects under after).length ∧
      ∃ last, (listing objects under after)[999]? = some last ∧ last.key = k := by
  rw [list, Option.mem_def, Option.ite_none_right_eq_some]
  refine and_congr_right fun more => ?_
  have there : 999 < (listing objects under after).length := Nat.lt_of_succ_lt more
  rw [List.getLast?_take, if_neg (by decide), show listPageKeys - 1 = 999 from rfl,
    List.getElem?_eq_getElem there, Option.some_or, Option.map_eq_some_iff]

/-- The page has the key, or its link stands before it. -/
theorem listing_covers (ho : o ∈ listing objects under after) :
    o ∈ (listing objects under after).take listPageKeys ∨
      ∃ k ∈ (list objects under after).next, k < o.key := by
  rw [← List.take_append_drop listPageKeys (listing objects under after), List.mem_append] at ho
  rcases ho with here | later
  · exact Or.inl here
  · right
    have more : listPageKeys < (listing objects under after).length := by
      have := List.length_pos_of_mem later
      rw [List.length_drop] at this
      omega
    have last := List.getElem?_eq_getElem (Nat.lt_of_succ_lt more)
    exact ⟨_, list_next.mpr ⟨more, _, last, rfl⟩,
      Keyset.unsplit_of_strict listing_strict last o later⟩

theorem mem_agedKeys {key : String} {cutoff : Instant} :
    key ∈ agedKeys (list objects under after) cutoff ↔
      ∃ o ∈ (listing objects under after).take listPageKeys,
        wholeSecond o.lastModified < cutoff ∧ o.key = key := by
  simp only [agedKeys, list, List.mem_map, List.mem_filter, decide_eq_true_eq]
  constructor
  · rintro ⟨-, ⟨⟨o, ho, rfl⟩, old⟩, rfl⟩
    exact ⟨o, ho, old, rfl⟩
  · rintro ⟨o, ho, old, rfl⟩
    exact ⟨_, ⟨⟨o, ho, rfl⟩, old⟩, rfl⟩

end Listing

section Purge

variable {policy : Policy} {start db : PhotoDb} {cutoff : Instant}

/-- An object that the sweep is to delete. -/
def Orphan (db : PhotoDb) (cutoff : Instant) (o : StoredObject) : Prop :=
  startsWith uploadPrefix o.key ∧ wholeSecond o.lastModified < cutoff ∧
    referenced db o.key = false

/-- Of the objects at the start of a sweep only orphans are gone, and the orphans that are left
are to come. -/
structure Purged (start : PhotoDb) (cutoff : Instant) (toCome : String → Prop) (db : PhotoDb) :
    Prop where
  photos : db.photos = start.photos
  left : ∀ o ∈ db.objects, o ∈ start.objects ∧ (Orphan start cutoff o → toCome o.key)
  kept : ∀ o ∈ start.objects, ¬ Orphan start cutoff o → o ∈ db.objects

def Beyond (next : Option String) (key : String) : Prop := ∃ k ∈ next, k < key

/-- Where a sweep stands, and what is to come there. -/
def Purging (start : PhotoDb) (cutoff : Instant) : PhotoDb × Progress Phase Reply → Prop
  | (db, .next (.listUploads c after _)) =>
    c = cutoff ∧ Purged start cutoff (fun key => ∀ k ∈ after, k < key) db
  | (db, .next (.probe c aged next _)) =>
    c = cutoff ∧ Purged start cutoff (fun key => key ∈ aged ∨ Beyond next key) db ∧
      ∀ o ∈ start.objects, o.key ∈ aged →
        startsWith uploadPrefix o.key ∧ wholeSecond o.lastModified < cutoff
  | (db, .next (.purge c key rest next _)) =>
    c = cutoff ∧ Purged start cutoff (fun k => k ∈ key :: rest ∨ Beyond next k) db ∧
      ∀ o ∈ start.objects, o.key ∈ key :: rest → Orphan start cutoff o
  | (db, .done (.ok _)) => Purged start cutoff (fun _ => False) db
  | (_, .done (.error _)) => True
  | _ => False

theorem Purged.mono {toCome toCome' : String → Prop} (h : Purged start cutoff toCome db)
    (weaker : ∀ o ∈ db.objects, Orphan start cutoff o → toCome o.key → toCome' o.key) :
    Purged start cutoff toCome' db where
  photos := h.photos
  left o ho := ⟨(h.left o ho).1, fun orphan => weaker o ho orphan ((h.left o ho).2 orphan)⟩
  kept := h.kept

theorem Purged.referenced {toCome : String → Prop} (h : Purged start cutoff toCome db)
    (key : String) : referenced db key = PhotoUploads.referenced start key := by
  rw [PhotoUploads.referenced, h.photos]
  rfl

theorem purging_resume {next : Option String} {keys : List String} {purged : ℕ}
    (h : Purged start cutoff (fun k => k ∈ keys ∨ Beyond next k) db)
    (orphans : ∀ o ∈ start.objects, o.key ∈ keys → Orphan start cutoff o) :
    Purging start cutoff (db, resumePurge cutoff next purged keys) := by
  cases keys with
  | cons key rest => exact ⟨rfl, h, orphans⟩
  | nil =>
    cases next with
    | some k => exact ⟨rfl, h.mono fun o _ _ coming => by simpa [Beyond] using coming⟩
    | none => exact h.mono fun o _ _ coming => by simp [Beyond] at coming

theorem purging_step (phase : Phase) (input : Input)
    (h : Purging start cutoff (db, .next phase)) :
    Purging start cutoff (step phase input db) := by
  cases phase with
  | listUploads c after purged =>
    obtain ⟨rfl, h⟩ := h
    simp only [step]
    split_ifs with failed
    · trivial
    · refine ⟨rfl, h.mono fun o ho orphan coming => ?_, ?_⟩
      · rcases listing_covers (mem_listing.mpr ⟨ho, orphan.1, coming⟩) with here | later
        · exact Or.inl (mem_agedKeys.mpr ⟨o, here, orphan.2.1, rfl⟩)
        · exact Or.inr later
      · intro o ho aged
        obtain ⟨o', ho', old, same⟩ := mem_agedKeys.mp aged
        obtain ⟨there, upload, -⟩ := mem_listing.mp (List.mem_of_mem_take ho')
        obtain rfl := Table.eq_of_key_eq (h.left o' there).1 ho same
        exact ⟨upload, old⟩
  | probe c aged next purged =>
    obtain ⟨rfl, h, old⟩ := h
    simp only [step]
    split_ifs with failed
    · trivial
    · apply purging_resume
      · refine h.mono fun o _ orphan coming => coming.imp_left fun here => ?_
        rw [List.mem_filter, h.referenced, orphan.2.2]
        exact ⟨here, rfl⟩
      · intro o ho here
        rw [List.mem_filter, h.referenced] at here
        obtain ⟨upload, aged⟩ := old o ho here.1
        exact ⟨upload, aged, by simpa using here.2⟩
  | purge c key rest next purged =>
    obtain ⟨rfl, h, orphans⟩ := h
    simp only [step]
    split_ifs with failed
    · trivial
    · have deleted : deleteAnswered db.objects key input.answer = deleteObject db.objects key := by
        cases answer : input.answer with
        | done => rfl
        | refused => exact absurd rfl (answer ▸ failed)
        | lost => rfl
      rw [deleted]
      apply purging_resume
      · refine ⟨h.photos, fun o ho => ?_, fun o ho other => ?_⟩
        · obtain ⟨ho, different⟩ := Table.mem_delete.mp ho
          refine ⟨(h.left o ho).1, fun orphan => ?_⟩
          refine ((h.left o ho).2 orphan).imp_left fun here => ?_
          exact (List.mem_cons.mp here).resolve_left (by simpa using different)
        · refine Table.mem_delete.mpr ⟨h.kept o ho other, ?_⟩
          have different : o.key ≠ key := fun same =>
            other (orphans o ho (same ▸ List.mem_cons_self))
          simpa using different
      · exact fun o ho here => orphans o ho (List.mem_cons_of_mem key here)
  | _ => exact h.elim

/-- A sweep that succeeds has deleted the orphans, and nothing else. -/
theorem purge_exact {now : Instant} {inputs : List Input} {n : ℕ}
    (h : callAlone policy start (.purgeOrphanUploads now) inputs = (db, .done (.ok n))) :
    db.photos = start.photos ∧ ∀ o, o ∈ db.objects ↔
      o ∈ start.objects ∧ ¬ Orphan start (now - policy.uploadOrphanTtl) o := by
  have begins : Purging start (now - policy.uploadOrphanTtl)
      (start, entry policy (.purgeOrphanUploads now)) := by
    refine ⟨rfl, rfl, fun o ho => ⟨ho, fun _ k none => ?_⟩, fun o ho _ => ho⟩
    cases none
  have ends := alone_preserves (P := program policy)
    (fun _ phase input => purging_step phase input) inputs begins
  rw [callAlone] at h
  rw [h] at ends
  refine ⟨ends.photos, fun o => ⟨fun ho => ends.left o ho, fun ⟨ho, kept⟩ => ends.kept o ho kept⟩⟩

/-- With nothing refused, the keys of a page are deleted one after the other. -/
theorem purge_keys_return (policy : Policy) (cutoff : Instant) (keys : List String)
    (db : PhotoDb) (next : Option String) (purged : ℕ) : ∃ inputs db' n,
      alone (program policy) inputs (db, resumePurge cutoff next purged keys) =
        (db', resumePurge cutoff next n []) ∧ ∀ o ∈ db'.objects, o ∈ db.objects := by
  induction keys generalizing db purged with
  | nil => exact ⟨[], db, purged, rfl, fun o ho => ho⟩
  | cons key rest ih =>
    obtain ⟨inputs, db', n, returns, less⟩ :=
      ih { db with objects := deleteObject db.objects key } (purged + 1)
    refine ⟨⟨⟨0, .done⟩, 0⟩ :: inputs, db', n, returns, fun o ho => ?_⟩
    exact (Table.mem_delete.mp (less o ho)).1

/-- The link of a page leaves fewer keys, whatever has been deleted. -/
theorem listing_shorter {objects objects' : ObjectStore} {under : String} {after : Option String}
    {k : String} (less : ∀ o ∈ objects', o ∈ objects)
    (hk : k ∈ (list objects under after).next) :
    (listing objects' under (some k)).length < (listing objects under after).length := by
  obtain ⟨more, last, hlast, rfl⟩ := list_next.mp hk
  have sorted : (listing objects under after).Pairwise fun a b => a.key ≤ b.key :=
    listing_strict.imp fun lt => le_of_lt lt
  have strict : (listing objects' under (some last.key)).Nodup :=
    listing_strict.imp fun lt same => absurd (same ▸ lt) (lt_irrefl _)
  have rest : listing objects' under (some last.key) ⊆
      (listing objects under after).drop listPageKeys := by
    intro o ho
    obtain ⟨there, upload, later⟩ := mem_listing.mp ho
    have beyond := later last.key rfl
    have before := (mem_listing.mp (List.mem_of_getElem? hlast)).2.2
    have member : o ∈ listing objects under after :=
      mem_listing.mpr ⟨less o there, upload, fun k hk => lt_trans (before k hk) beyond⟩
    rw [← List.take_append_drop listPageKeys (listing objects under after),
      List.mem_append] at member
    refine member.resolve_left fun early => ?_
    exact absurd beyond (not_lt_of_ge (Keyset.take_le sorted hlast o early))
  have := (strict.subperm rest).length_le
  rw [List.length_drop] at this
  simp only [listPageKeys] at this more
  omega

/-- A page of the sweep, with nothing refused. -/
theorem purge_page_returns (policy : Policy) (db : PhotoDb) (cutoff : Instant)
    (after : Option String) (purged : ℕ) : ∃ inputs db' n,
      alone (program policy) inputs (db, .next (.listUploads cutoff after purged)) =
        (db', resumePurge cutoff (list db.objects uploadPrefix after).next n []) ∧
      ∀ o ∈ db'.objects, o ∈ db.objects := by
  let page := list db.objects uploadPrefix after
  let keys := (agedKeys page cutoff).filter fun key => !referenced db key
  obtain ⟨inputs, db', n, returns, less⟩ :=
    purge_keys_return policy cutoff keys db page.next purged
  refine ⟨⟨⟨0, .done⟩, 0⟩ :: ⟨⟨0, .done⟩, 0⟩ :: inputs, db', n, ?_, less⟩
  rw [← returns]
  simp [alone, program, step, Answer.isError, keys, page]

/-- A sweep to which the store and the database answer comes to its end. -/
theorem purge_returns (policy : Policy) (db : PhotoDb) (now : Instant) : ∃ inputs db' n,
    callAlone policy db (.purgeOrphanUploads now) inputs = (db', .done (.ok n)) := by
  have pages : ∀ left (db : PhotoDb) after purged,
      (listing db.objects uploadPrefix after).length < left → ∃ inputs db' n,
        alone (program policy) inputs
          (db, .next (.listUploads (now - policy.uploadOrphanTtl) after purged)) =
            (db', .done (.ok n)) := by
    intro left
    induction left with
    | zero =>
      intro db after purged none
      omega
    | succ left ih =>
      intro db after purged enough
      obtain ⟨inputs, db', n, page, less⟩ :=
        purge_page_returns policy db (now - policy.uploadOrphanTtl) after purged
      cases next : (list db.objects uploadPrefix after).next with
      | none => exact ⟨inputs, db', n, by rw [page, next]; rfl⟩
      | some k =>
        have shorter := listing_shorter less next
        obtain ⟨more, db'', m, rest⟩ := ih db' (some k) n (by omega)
        exact ⟨inputs ++ more, db'', m, by rw [alone_append, page, next]; exact rest⟩
  exact pages _ db none 0 (Nat.lt_succ_self _)

end Purge

end PhotoUploads
