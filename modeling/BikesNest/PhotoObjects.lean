import BikesNest.PhotoUploads
import BikesNest.Runs

/-! The rows of photos and the objects they name, which share no transaction: in every run of
uploads, decisions and sweeps the photos that are not rejected have their objects. -/

namespace PhotoObjects

open Parking Photos Interleaving PhotoUploads
open PhotoReconcile (PhotoId stateOf)

def row (db : PhotoDb) (photo : PhotoId) : Option StoredPhoto := (db.photos photo.1).find photo.2

/-- A row that is not rejected names the key. -/
def Live (db : PhotoDb) (key : String) : Prop :=
  ∃ photo, ∃ p ∈ row db photo, p.moderationState ≠ .rejected ∧ key ∈ p.keys

/-- The object of a rejected row is still there. -/
def Leftover (db : PhotoDb) (key : String) : Prop :=
  present db.objects key ∧ ∃ photo, ∃ p ∈ row db photo, p.moderationState = .rejected ∧ key ∈ p.keys

def IsUpload (key : String) : Prop := startsWith uploadPrefix key

structure InStep (db : PhotoDb) : Prop where
  stored : ∀ key, Live db key → present db.objects key
  apart : ∀ {photo photo' p p' key}, row db photo = some p → row db photo' = some p' →
    key ∈ p.keys → key ∈ p'.keys → photo = photo'
  uploads : ∀ {photo p}, row db photo = some p → ∃ id, p.keys = [fullKey id, thumbKey id]

/-- No row names the keys of the upload. -/
structure Unnamed (db : PhotoDb) (new : NewPendingPhoto) : Prop where
  full : referenced db new.storageKey = false
  thumb : referenced db new.thumbnailKey = false
  minted : ∃ id, new.storageKey = fullKey id ∧ new.thumbnailKey = thumbKey id

/-- What a call relies on between two steps. -/
def Holds (db : PhotoDb) : Phase → Prop
  | .putFull new => Unnamed db new
  | .putThumb new => Unnamed db new ∧ present db.objects new.storageKey
  | .insert new =>
    Unnamed db new ∧ present db.objects new.storageKey ∧ present db.objects new.thumbnailKey
  | .undoThumb new _ => ¬ Live db new.storageKey ∧ ¬ Live db new.thumbnailKey
  | .undoFull key _ => ¬ Live db key
  | .purge _ key rest _ _ => ∀ k ∈ key :: rest, ¬ Live db k
  | .moderation (.deleteFull full thumb) => ∀ k ∈ full :: thumb.toList, ¬ Live db k
  | .moderation (.deleteThumb thumb) => ¬ Live db thumb
  | _ => True

/-- Where a call stands, all is in step. -/
def Sound (r : PhotoDb × Progress Phase Reply) : Prop :=
  InStep r.1 ∧ ∀ phase, r.2 = .next phase → Holds r.1 phase

theorem isUpload_append (uploadId name : String) : IsUpload (uploadPrefix ++ uploadId ++ name) := by
  simp [IsUpload, startsWith]

/-- The names of the two objects end differently. -/
theorem fullKey_ne_thumbKey (a b : String) : fullKey a ≠ thumbKey b := by
  intro same
  have ends := congrArg (fun s => s.toList.reverse) same
  simp [fullKey, thumbKey] at ends

section Steps

variable {db db' : PhotoDb}

theorem referenced_iff {key : String} :
    referenced db key = true ↔ ∃ photo, ∃ p ∈ row db photo, key ∈ p.keys := by
  rw [referenced, List.any_eq_true]
  constructor
  · rintro ⟨p, hp, named⟩
    rcases List.mem_append.mp hp with hp | hp
    · exact ⟨(.parking, p.id), p, Table.find_of_mem hp, by simpa using named⟩
    · exact ⟨(.review, p.id), p, Table.find_of_mem hp, by simpa using named⟩
  · rintro ⟨⟨kind, id⟩, p, found, named⟩
    have member := (Table.find_eq_some.mp found).1
    refine ⟨p, List.mem_append.mpr ?_, by simpa using named⟩
    cases kind with
    | parking => exact Or.inl member
    | review => exact Or.inr member

theorem not_live_of_unreferenced {key : String} (h : referenced db key = false) : ¬ Live db key := by
  rintro ⟨photo, p, found, -, named⟩
  rw [referenced_iff.mpr ⟨photo, p, found, named⟩] at h
  cases h

/-- The rows are those of `db`, with their keys, and what was rejected still is. -/
def Follows (db db' : PhotoDb) : Prop :=
  ∀ photo p', row db' photo = some p' → ∃ p, row db photo = some p ∧ p'.keys = p.keys ∧
    (p.moderationState = .rejected → p'.moderationState = .rejected)

theorem Follows.live (h : Follows db db') {key : String} : Live db' key → Live db key := by
  rintro ⟨photo, p', found, state, named⟩
  obtain ⟨p, found, keys, rejected⟩ := h photo p' found
  exact ⟨photo, p, found, fun r => state (rejected r), keys ▸ named⟩

theorem Follows.of_photos (h : db'.photos = db.photos) : Follows db db' := by
  intro photo p found
  refine ⟨p, ?_, rfl, id⟩
  rwa [row, h] at found

theorem Follows.moderate {kind : PhotoKind} {id : ℕ} {expected : Erasure.PhotoState}
    {f : StoredPhoto → StoredPhoto} {hf : ∀ p, (f p).id = p.id}
    (h : moderate db kind id expected f hf = some db') (other : expected ≠ .rejected)
    (keys : ∀ p, (f p).keys = p.keys) : Follows db db' := by
  obtain ⟨p, found, state, -, rows⟩ := moderate_eq_some h
  rintro ⟨k, i⟩ p' found'
  rw [row, rows] at found'
  split_ifs at found' with here
  · obtain ⟨rfl, rfl⟩ := here
    obtain rfl := Option.some.inj found'
    exact ⟨p, found, keys p, fun rejected => absurd (state.symm.trans rejected) other⟩
  · exact ⟨p', found', rfl, fun rejected => rejected⟩

theorem InStep.isUpload (h : InStep db) {photo : PhotoId} {p : StoredPhoto} {key : String}
    (found : row db photo = some p) (named : key ∈ p.keys) : IsUpload key := by
  obtain ⟨uploadId, keys⟩ := h.uploads found
  rw [keys, List.mem_pair] at named
  rcases named with rfl | rfl
  · exact isUpload_append _ _
  · exact isUpload_append _ _

/-- What was in step stays so when the rows follow and the objects of live rows stay. -/
theorem InStep.of_follows (h : InStep db) (rows : Follows db db')
    (objects : ∀ key, Live db' key → present db.objects key → present db'.objects key) :
    InStep db' where
  stored key live := objects key live (h.stored key (rows.live live))
  apart := by
    intro photo photo' p p' key found found' named named'
    obtain ⟨q, old, keys, -⟩ := rows photo p found
    obtain ⟨q', old', keys', -⟩ := rows photo' p' found'
    exact h.apart old old' (keys ▸ named) (keys' ▸ named')
  uploads := by
    intro photo p found
    obtain ⟨q, old, keys, -⟩ := rows photo p found
    exact keys ▸ h.uploads old

theorem present_answered {objects : ObjectStore} {key : String} {now : Instant} {answer : Answer}
    (answered : ¬ answer.isError = true) : present (putAnswered objects key now answer) key := by
  refine present_putAnswered.mpr (Or.inr ⟨rfl, ?_⟩)
  rintro rfl
  exact answered rfl

theorem InStep.put (h : InStep db) (key : String) (now : Instant) (answer : Answer) :
    InStep { db with objects := putAnswered db.objects key now answer } :=
  h.of_follows (.of_photos rfl) fun _ _ there => present_putAnswered.mpr (Or.inl there)

theorem InStep.delete (h : InStep db) {key : String} (dead : ¬ Live db key) (answer : Answer) :
    InStep { db with objects := deleteAnswered db.objects key answer } := by
  refine h.of_follows (.of_photos rfl) fun k live there => present_deleteAnswered.mpr ⟨there, ?_⟩
  rintro rfl
  exact absurd live dead

/-- The row of an upload, whose objects are there. -/
theorem InStep.insert (h : InStep db) {id : ℕ} {new : NewPendingPhoto} {now : Instant}
    (unnamed : Unnamed db new) (full : present db.objects new.storageKey)
    (thumb : present db.objects new.thumbnailKey) (inserted : insertPending db id new now = some db') :
    InStep db' := by
  obtain ⟨objects, -, rows⟩ := find_insertPending inserted
  have either : ∀ photo p, row db' photo = some p →
      (photo = (new.kind, id) ∧ p = newPhoto id new now) ∨ row db photo = some p := by
    rintro ⟨k, i⟩ p found
    rw [row, rows] at found
    split_ifs at found with here
    · obtain ⟨rfl, rfl⟩ := here
      exact Or.inl ⟨rfl, (Option.some.inj found).symm⟩
    · exact Or.inr found
  have own : ∀ key ∈ (newPhoto id new now).keys, referenced db key = false ∧
      present db.objects key := by
    intro key named
    have : key = new.storageKey ∨ key = new.thumbnailKey := by
      simpa [StoredPhoto.keys, newPhoto] using named
    rcases this with rfl | rfl
    · exact ⟨unnamed.full, full⟩
    · exact ⟨unnamed.thumb, thumb⟩
  have fresh : ∀ {photo p key}, row db photo = some p → key ∈ p.keys →
      key ∈ (newPhoto id new now).keys → False := by
    intro photo p key found named named'
    have := (own key named').1
    rw [referenced_iff.mpr ⟨photo, p, found, named⟩] at this
    cases this
  constructor
  · rintro key ⟨photo, p, found, state, named⟩
    rw [objects]
    rcases either photo p found with ⟨-, rfl⟩ | old
    · exact (own key named).2
    · exact h.stored key ⟨photo, p, old, state, named⟩
  · intro photo photo' p p' key found found' named named'
    rcases either photo p found with ⟨rfl, rfl⟩ | old
    · rcases either photo' p' found' with ⟨rfl, -⟩ | old'
      · rfl
      · exact (fresh old' named' named).elim
    · rcases either photo' p' found' with ⟨-, rfl⟩ | old'
      · exact (fresh old named named').elim
      · exact h.apart old old' named named'
  · intro photo p found
    rcases either photo p found with ⟨-, rfl⟩ | old
    · obtain ⟨uploadId, full, thumb⟩ := unnamed.minted
      exact ⟨uploadId, by simp [StoredPhoto.keys, newPhoto, full, thumb]⟩
    · exact h.uploads old

/-- A call that ends, all in step. -/
theorem sound_done (h : InStep db) (reply : Reply) : Sound (db, .done reply) := by
  refine ⟨h, fun phase more => ?_⟩
  cases more

theorem sound_next (h : InStep db) {phase : Phase} (holds : Holds db phase) :
    Sound (db, .next phase) := by
  refine ⟨h, fun next same => ?_⟩
  cases same
  exact holds

/-- The sweep over the pending rows deletes rows only. -/
theorem sound_resume (h : InStep db) (sweep : PhotoReconcile.Sweep) (kind : PhotoKind)
    (rest : List (ℕ × String)) :
    Sound (db, liftProgress (PhotoReconcile.resume sweep kind rest)) := by
  cases rest with
  | cons r rest => exact sound_next h trivial
  | nil =>
    cases kind with
    | parking => exact sound_next h trivial
    | review => exact sound_done h _

theorem sound_resumePurge (h : InStep db) (cutoff : Instant) (next : Option String) (purged : ℕ)
    {keys : List String} (dead : ∀ key ∈ keys, ¬ Live db key) :
    Sound (db, resumePurge cutoff next purged keys) := by
  cases keys with
  | cons key rest => exact sound_next h dead
  | nil =>
    cases next with
    | some k => exact sound_next h trivial
    | none => exact sound_done h _

/-- The keys of a row that has just been rejected belong to no live row. -/
theorem dead_of_reject (h : InStep db) {photo : PhotoId} {moderator : UserId} {reason : String}
    {now : Instant} {p : StoredPhoto} (found : row db photo = some p)
    (rejected : reject db photo.1 photo.2 moderator reason now = some db') :
    ∀ key ∈ p.keys, ¬ Live db' key := by
  obtain ⟨q, here, -, -, rows⟩ := moderate_eq_some rejected
  obtain rfl : p = q := Option.some.inj (found.symm.trans here)
  rintro key named ⟨photo', p', found', live, named'⟩
  rw [Option.mem_def, row, rows] at found'
  split_ifs at found' with same
  · exact live (Option.some.inj found' ▸ rfl)
  · exact same (Prod.ext_iff.mp (h.apart found' found named' named))

/-- The steps of the moderators' calls. -/
theorem sound_moderation (phase : PhotoReconcile.Phase) (input : Input)
    (h : Sound (db, .next (.moderation phase))) : Sound (step (.moderation phase) input db) := by
  obtain ⟨inStep, holds⟩ := h
  have holds := holds _ rfl
  cases phase with
  | list sweep kind => exact sound_resume inStep _ _ _
  | probe sweep photo key rest =>
    simp only [step, PhotoReconcile.step]
    split_ifs
    · exact sound_done inStep _
    · exact sound_resume inStep _ _ _
    · exact sound_next inStep trivial
  | delete sweep photo rest =>
    have rows : Follows db (deletePhoto db photo.1 photo.2) := by
      intro other p found
      rw [row, find_deletePhoto] at found
      split_ifs at found
      exact ⟨p, found, rfl, fun rejected => rejected⟩
    exact sound_resume (inStep.of_follows rows fun _ _ there => there) _ _ _
  | getApproved photo moderator =>
    simp only [step, PhotoReconcile.step]
    split
    · exact sound_done inStep _
    · exact sound_next inStep trivial
    · exact sound_done inStep _
    · exact sound_done inStep _
  | approve photo moderator =>
    simp only [step, PhotoReconcile.step]
    split
    · rename_i db' approved
      have objects := (moderate_eq_some approved).choose_spec.2.2.1
      refine sound_done (inStep.of_follows (.moderate approved (by decide) fun _ => rfl) ?_) _
      exact fun _ _ there => objects ▸ there
    · exact sound_done inStep _
  | getRejected photo moderator reason =>
    simp only [step, PhotoReconcile.step]
    split
    · exact sound_done inStep _
    · exact sound_next inStep trivial
    · exact sound_done inStep _
    · exact sound_done inStep _
  | reject photo moderator reason =>
    simp only [step, PhotoReconcile.step]
    split
    · rename_i p db' found rejected
      have objects := (moderate_eq_some rejected).choose_spec.2.2.1
      refine sound_next (inStep.of_follows (.moderate rejected (by decide) fun _ => rfl) ?_) ?_
      · exact fun _ _ there => objects ▸ there
      · exact dead_of_reject inStep found rejected
    · exact sound_done inStep _
  | deleteFull full thumb =>
    have deleted := inStep.delete (holds full List.mem_cons_self) input.answer
    cases thumb with
    | some key =>
      refine sound_next deleted fun live => ?_
      exact holds key (by simp) (Follows.live (.of_photos rfl) live)
    | none => exact sound_done deleted _
  | deleteThumb thumb => exact sound_done (inStep.delete holds input.answer) _

/-- One step of a call keeps the rows and the objects in step. -/
theorem sound_step (phase : Phase) (input : Input) (h : Sound (db, .next phase)) :
    Sound (step phase input db) := by
  obtain ⟨inStep, all⟩ := h
  have holds := all _ rfl
  cases phase with
  | moderation phase => exact sound_moderation phase input ⟨inStep, all⟩
  | putFull new =>
    have put := inStep.put new.storageKey input.now input.answer
    simp only [step]
    split_ifs with failed
    · exact sound_done put _
    · exact sound_next put ⟨⟨holds.full, holds.thumb, holds.minted⟩,
        present_answered failed⟩
  | putThumb new =>
    obtain ⟨unnamed, full⟩ := holds
    have put := inStep.put new.thumbnailKey input.now input.answer
    simp only [step]
    split_ifs with failed
    · exact sound_next put (not_live_of_unreferenced unnamed.full)
    · exact sound_next put ⟨⟨unnamed.full, unnamed.thumb, unnamed.minted⟩,
        present_putAnswered.mpr (Or.inl full), present_answered failed⟩
  | insert new =>
    obtain ⟨unnamed, full, thumb⟩ := holds
    have undone : Holds db (.undoThumb new .conflict) :=
      ⟨not_live_of_unreferenced unnamed.full, not_live_of_unreferenced unnamed.thumb⟩
    simp only [step]
    split_ifs
    · exact sound_next inStep undone
    · split
      · rename_i db' inserted
        exact sound_done (inStep.insert unnamed full thumb inserted) _
      · exact sound_next inStep undone
  | undoThumb new error =>
    refine sound_next (inStep.delete holds.2 input.answer) fun live => ?_
    exact holds.1 (Follows.live (.of_photos rfl) live)
  | undoFull key error => exact sound_done (inStep.delete holds input.answer) _
  | listUploads cutoff after purged =>
    simp only [step]
    split_ifs
    · exact sound_done inStep _
    · exact sound_next inStep trivial
  | probe cutoff aged next purged =>
    simp only [step]
    split_ifs
    · exact sound_done inStep _
    · refine sound_resumePurge inStep _ _ _ fun key here => ?_
      have unnamed : referenced db key = false := by simpa using (List.mem_filter.mp here).2
      exact not_live_of_unreferenced unnamed
  | purge cutoff key rest next purged =>
    have deleted := inStep.delete (holds key List.mem_cons_self) input.answer
    simp only [step]
    split_ifs
    · exact sound_done deleted _
    · refine sound_resumePurge deleted _ _ _ fun k here live => ?_
      exact holds k (List.mem_cons_of_mem key here) (Follows.live (.of_photos rfl) live)

end Steps

section Runs

variable {policy : Policy} {db : PhotoDb}

/-- The keys of an upload are new: nothing in the store has them, and no row. -/
def Fresh (db : PhotoDb) : Event → Prop
  | .call (.uploadPhoto u) _ => ∀ key ∈ [fullKey u.uploadId, thumbKey u.uploadId],
      ¬ present db.objects key ∧ referenced db key = false
  | _ => True

theorem prepare_keys {u : Upload} {new : NewPendingPhoto} (h : prepare policy u = .ok new) :
    new.storageKey = fullKey u.uploadId ∧ new.thumbnailKey = thumbKey u.uploadId := by
  unfold prepare at h
  split_ifs at h
  cases alt : normalizeAlt u.alt with
  | error e =>
    rw [alt] at h
    cases h
  | ok alt' =>
    cases processed : u.processed with
    | error e =>
      rw [alt, processed] at h
      cases h
    | ok size =>
      rw [alt, processed] at h
      cases h
      exact ⟨rfl, rfl⟩

/-- A call starts in step. -/
theorem sound_entry (h : InStep db) (call : Call) (inputs : List Input)
    (fresh : Fresh db (.call call inputs)) : Sound (db, entry policy call) := by
  cases call with
  | moderation call =>
    cases call with
    | reconcilePendingPhotos now => exact sound_next h trivial
    | approvePhoto photo moderator => exact sound_next h trivial
    | rejectPhoto photo moderator reason =>
      simp only [entry, PhotoReconcile.entry]
      split_ifs
      · exact sound_done h _
      · exact sound_next h trivial
  | uploadPhoto u =>
    simp only [entry]
    split
    · rename_i new prepared
      obtain ⟨full, thumb⟩ := prepare_keys prepared
      refine sound_next h ⟨?_, ?_, _, full, thumb⟩
      · rw [full]
        exact (fresh _ (by simp)).2
      · rw [thumb]
        exact (fresh _ (by simp)).2
    · exact sound_done h _
  | purgeOrphanUploads now => exact sound_next h trivial

/-- One whole call, or what there is of it, keeps all in step. -/
theorem inStep_exec (h : InStep db) (e : Event) (fresh : Fresh db e) :
    InStep (exec policy db e) := by
  cases e with
  | call call inputs =>
    have start : Sound (db, entry policy call) := sound_entry h call inputs fresh
    have sound := alone_preserves (P := program policy)
      (fun db phase input => sound_step phase input) inputs start
    exact sound.1
  | other op =>
    have kept : ∀ {kind id expected f hf db'}, moderate db kind id expected f hf = some db' →
        expected ≠ .rejected → (∀ p, (f p).keys = p.keys) → InStep db' := by
      intro kind id expected f hf db' moderated other keys
      have objects := (moderate_eq_some moderated).choose_spec.2.2.1
      exact h.of_follows (.moderate moderated other keys) fun _ _ there => objects ▸ there
    cases op with
    | hidePhoto photo moderator now =>
      simp only [exec, PhotoReconcile.apply]
      cases hidden : hide db photo.1 photo.2 moderator now with
      | none => exact h
      | some db' => exact kept hidden (by decide) fun _ => rfl
    | restorePhoto photo moderator now =>
      simp only [exec, PhotoReconcile.apply]
      cases restored : restore db photo.1 photo.2 moderator now with
      | none => exact h
      | some db' => exact kept restored (by decide) fun _ => rfl

theorem inStep_empty : InStep emptyDb := by
  have none : ∀ photo, row emptyDb photo = none := fun _ => rfl
  constructor
  · rintro key ⟨photo, p, found, -⟩
    rw [none] at found
    cases found
  · intro photo photo' p p' key found
    rw [none] at found
    cases found
  · intro photo p found
    rw [none] at found
    cases found

end Runs

section Clean

variable {policy : Policy} {db db' : PhotoDb}

/-- No rejected row has an object. -/
def Clean (db : PhotoDb) : Prop := ∀ key, ¬ Leftover db key

/-- The objects of the uploads are those of the rows that are not rejected. -/
def Exact (db : PhotoDb) : Prop := ∀ key, IsUpload key ∧ present db.objects key ↔ Live db key

/-- After a sweep over objects that are all old enough, the store holds the objects of the live
rows exactly when it held none of a rejected row before. -/
theorem purge_exact_iff (h : InStep db) {now : Instant} {inputs : List Input} {n : ℕ}
    (purged : callAlone policy db (.purgeOrphanUploads now) inputs = (db', .done (.ok n)))
    (old : ∀ o ∈ db.objects, IsUpload o.key → o.lastModified < now - policy.uploadOrphanTtl) :
    Exact db' ↔ Clean db := by
  obtain ⟨photos, objects⟩ := purge_exact purged
  have rows : ∀ photo, row db' photo = row db photo := fun photo => by rw [row, row, photos]
  have live : ∀ key, Live db' key ↔ Live db key := fun key => by simp only [Live, rows]
  have stays : ∀ key, IsUpload key → (present db'.objects key ↔
      present db.objects key ∧ referenced db key = true) := by
    intro key upload
    constructor
    · rintro ⟨o, ho, rfl⟩
      obtain ⟨there, kept⟩ := (objects o).mp ho
      refine ⟨⟨o, there, rfl⟩, ?_⟩
      by_contra unnamed
      refine kept ⟨upload, lt_of_le_of_lt ?_ (old o there upload), by simpa using unnamed⟩
      exact Int.ediv_mul_le o.lastModified (by decide)
    · rintro ⟨⟨o, there, rfl⟩, named⟩
      refine ⟨o, (objects o).mpr ⟨there, fun orphan => ?_⟩, rfl⟩
      have unnamed := orphan.2.2
      rw [named] at unnamed
      cases unnamed
  constructor
  · rintro exact' key ⟨there, photo, p, found, rejected, named⟩
    have upload := h.isUpload found named
    have kept := (stays key upload).mpr ⟨there, referenced_iff.mpr ⟨photo, p, found, named⟩⟩
    obtain ⟨photo', p', found', state, named'⟩ := (live key).mp ((exact' key).mp ⟨upload, kept⟩)
    obtain rfl := h.apart found found' named named'
    obtain rfl : p = p' := Option.some.inj (found.symm.trans found')
    exact state rejected
  · intro clean key
    rw [live]
    constructor
    · rintro ⟨upload, kept⟩
      obtain ⟨there, named⟩ := (stays key upload).mp kept
      obtain ⟨photo, p, found, named⟩ := referenced_iff.mp named
      exact ⟨photo, p, found, fun rejected => clean key ⟨there, photo, p, found, rejected, named⟩,
        named⟩
    · intro living
      have there := h.stored key living
      obtain ⟨photo, p, found, -, named⟩ := living
      have upload := h.isUpload found named
      exact ⟨upload, (stays key upload).mpr ⟨there, referenced_iff.mpr ⟨photo, p, found, named⟩⟩⟩

/-- The phases of a rejection. -/
def Rejects : Phase → Prop
  | .moderation (.getRejected _ _ _) => True
  | .moderation (.reject _ _ _) => True
  | .moderation (.deleteFull _ _) => True
  | .moderation (.deleteThumb _) => True
  | _ => False

/-- No photo is newly rejected, and no named object is new. -/
theorem Clean.of_rows (h : Clean db)
    (rows : ∀ photo p', row db' photo = some p' → p'.moderationState = .rejected →
      row db photo = some p')
    (objects : ∀ key, referenced db key = true → present db'.objects key → present db.objects key) :
    Clean db' := by
  rintro key ⟨there, photo, p, found, rejected, named⟩
  have old := rows photo p found rejected
  exact h key ⟨objects key (referenced_iff.mpr ⟨photo, p, old, named⟩) there, photo, p, old,
    rejected, named⟩

theorem Clean.delete (h : Clean db) (key : String) (answer : Answer) :
    Clean { db with objects := deleteAnswered db.objects key answer } :=
  h.of_rows (fun _ _ found _ => found) fun _ _ there => (present_deleteAnswered.mp there).1

theorem Clean.put (h : Clean db) {key : String} (unnamed : referenced db key = false)
    (now : Instant) (answer : Answer) :
    Clean { db with objects := putAnswered db.objects key now answer } := by
  refine h.of_rows (fun _ _ found _ => found) fun k named there => ?_
  rcases present_putAnswered.mp there with there | ⟨rfl, -⟩
  · exact there
  · rw [named] at unnamed
    cases unnamed

/-- A change to a state that is not `REJECTED`. -/
theorem Clean.moderate (h : Clean db) {kind : PhotoKind} {id : ℕ} {expected : Erasure.PhotoState}
    {f : StoredPhoto → StoredPhoto} {hf : ∀ p, (f p).id = p.id}
    (moderated : moderate db kind id expected f hf = some db')
    (other : ∀ p, (f p).moderationState ≠ .rejected) : Clean db' := by
  obtain ⟨p, -, -, objects, rows⟩ := moderate_eq_some moderated
  refine h.of_rows ?_ fun _ _ there => objects ▸ there
  rintro ⟨k, i⟩ p' found rejected
  rw [row, rows] at found
  split_ifs at found with here
  · exact absurd (Option.some.inj found ▸ rejected) (other p)
  · exact found

/-- Where a call stands that rejects nothing, no rejected row has an object. -/
def Tidy (r : PhotoDb × Progress Phase Reply) : Prop :=
  Clean r.1 ∧ ∀ phase, r.2 = .next phase → ¬ Rejects phase

theorem tidy_done (h : Clean db) (reply : Reply) : Tidy (db, .done reply) := by
  refine ⟨h, fun phase more => ?_⟩
  cases more

theorem tidy_next (h : Clean db) {phase : Phase} (other : ¬ Rejects phase) :
    Tidy (db, .next phase) := by
  refine ⟨h, fun next same => ?_⟩
  cases same
  exact other

theorem tidy_resume (h : Clean db) (sweep : PhotoReconcile.Sweep) (kind : PhotoKind)
    (rest : List (ℕ × String)) :
    Tidy (db, liftProgress (PhotoReconcile.resume sweep kind rest)) := by
  cases rest with
  | cons r rest => exact tidy_next h id
  | nil =>
    cases kind with
    | parking => exact tidy_next h id
    | review => exact tidy_done h _

theorem tidy_resumePurge (h : Clean db) (cutoff : Instant) (next : Option String) (purged : ℕ)
    (keys : List String) : Tidy (db, resumePurge cutoff next purged keys) := by
  cases keys with
  | cons key rest => exact tidy_next h id
  | nil =>
    cases next with
    | some k => exact tidy_next h id
    | none => exact tidy_done h _

/-- The steps of the moderators' calls that reject nothing. -/
theorem tidy_moderation (phase : PhotoReconcile.Phase) (input : Input) (h : Clean db)
    (other : ¬ Rejects (.moderation phase)) : Tidy (step (.moderation phase) input db) := by
  cases phase with
  | list sweep kind => exact tidy_resume h _ _ _
  | probe sweep photo key rest =>
    simp only [step, PhotoReconcile.step]
    split_ifs
    · exact tidy_done h _
    · exact tidy_resume h _ _ _
    · exact tidy_next h id
  | delete sweep photo rest =>
    have left : Clean (deletePhoto db photo.1 photo.2) := by
      refine h.of_rows ?_ fun _ _ there => there
      intro other p found _
      rw [row, find_deletePhoto] at found
      split_ifs at found
      exact found
    exact tidy_resume left _ _ _
  | getApproved photo moderator =>
    simp only [step, PhotoReconcile.step]
    split
    · exact tidy_done h _
    · exact tidy_next h id
    · exact tidy_done h _
    · exact tidy_done h _
  | approve photo moderator =>
    simp only [step, PhotoReconcile.step]
    split
    · rename_i db' approved
      exact tidy_done (h.moderate approved fun _ => by simp) _
    · exact tidy_done h _
  | _ => exact absurd trivial other

/-- One step of a call that rejects nothing leaves no rejected row with an object. -/
theorem tidy_step (phase : Phase) (input : Input) (sound : Sound (db, .next phase))
    (h : Tidy (db, .next phase)) : Tidy (step phase input db) := by
  obtain ⟨clean, other⟩ := h
  have holds := sound.2 _ rfl
  cases phase with
  | moderation phase => exact tidy_moderation phase input clean (other _ rfl)
  | putFull new =>
    have put := clean.put holds.full input.now input.answer
    simp only [step]
    split_ifs
    · exact tidy_done put _
    · exact tidy_next put id
  | putThumb new =>
    have put := clean.put holds.1.thumb input.now input.answer
    simp only [step]
    split_ifs
    · exact tidy_next put id
    · exact tidy_next put id
  | insert new =>
    simp only [step]
    split_ifs
    · exact tidy_next clean id
    · split
      · rename_i db' inserted
        obtain ⟨objects, -, rows⟩ := find_insertPending inserted
        refine tidy_done (clean.of_rows ?_ fun _ _ there => objects ▸ there) _
        rintro ⟨k, i⟩ p found rejected
        rw [row, rows] at found
        split_ifs at found with here
        · obtain rfl := Option.some.inj found
          cases rejected
        · exact found
      · exact tidy_next clean id
  | undoThumb new error => exact tidy_next (clean.delete _ _) id
  | undoFull key error => exact tidy_done (clean.delete _ _) _
  | listUploads cutoff after purged =>
    simp only [step]
    split_ifs
    · exact tidy_done clean _
    · exact tidy_next clean id
  | probe cutoff aged next purged =>
    simp only [step]
    split_ifs
    · exact tidy_done clean _
    · exact tidy_resumePurge clean _ _ _ _
  | purge cutoff key rest next purged =>
    have deleted := clean.delete key input.answer
    simp only [step]
    split_ifs
    · exact tidy_done deleted _
    · exact tidy_resumePurge deleted _ _ _ _

/-- A rejection that is made gets to its deletes, and they take effect. -/
def Effective (db : PhotoDb) : Event → Prop
  | .call (.moderation (.rejectPhoto photo _ reason)) inputs =>
    trim reason ≠ "" → stateOf db photo = some .pendingReview →
      ∀ get update rest, inputs = get :: update :: rest →
        ∃ full thumb more, rest = full :: thumb :: more ∧ full.answer ≠ .refused ∧
          thumb.answer ≠ .refused
  | _ => True

/-- What a rejection of a pending photo does to the rows. -/
theorem reject_of_pending {photo : PhotoId} (pending : stateOf db photo = some .pendingReview)
    (moderator : UserId) (reason : String) (now : Instant) :
    ∃ p db', row db photo = some p ∧ reject db photo.1 photo.2 moderator reason now = some db' ∧
      db'.objects = db.objects ∧
      (∃ q, row db' photo = some q ∧ q.moderationState = .rejected ∧ q.keys = p.keys) ∧
      ∀ other, other ≠ photo → row db' other = row db other := by
  obtain ⟨p, found, state⟩ := Option.map_eq_some_iff.mp pending
  obtain ⟨db', rejected⟩ : ∃ db', reject db photo.1 photo.2 moderator reason now = some db' :=
    moderate_of_state found state
  obtain ⟨q, here, -, objects, rows⟩ := moderate_eq_some rejected
  obtain rfl : p = q := Option.some.inj (found.symm.trans here)
  refine ⟨p, db', found, rejected, objects, ⟨_, (rows _ _).trans (if_pos ⟨rfl, rfl⟩), rfl, rfl⟩, ?_⟩
  intro other different
  exact (rows _ _).trans (if_neg fun same => different (Prod.ext_iff.mpr same))

/-- The steps of a rejection of a pending photo that come after its update. -/
theorem callAlone_reject {photo : PhotoId} {moderator : UserId} {reason : String}
    (given : trim reason ≠ "") (pending : stateOf db photo = some .pendingReview)
    {p : StoredPhoto} (found : row db photo = some p) {get update : Input}
    (rejected : reject db photo.1 photo.2 moderator (trim reason) update.now = some db')
    (rest : List Input) :
    callAlone policy db (.moderation (.rejectPhoto photo moderator reason)) (get :: update :: rest) =
      alone (program policy) rest
        (db', .next (.moderation (.deleteFull p.storageKey p.thumbnailKey))) := by
  have same : (db.photos photo.1).find photo.2 = some p := found
  simp only [callAlone, entry, PhotoReconcile.entry, if_neg given, liftProgress, alone, program,
    step, PhotoReconcile.step, pending, same, rejected]

/-- A call that rejects no photo leaves the store as it is. -/
theorem callAlone_idle {photo : PhotoId} {moderator : UserId} {reason : String}
    {inputs : List Input}
    (idle : trim reason ≠ "" → stateOf db photo = some .pendingReview →
      ∀ get update rest, inputs ≠ get :: update :: rest) :
    (callAlone policy db (.moderation (.rejectPhoto photo moderator reason)) inputs).1 = db := by
  simp only [callAlone, entry, PhotoReconcile.entry]
  split_ifs with blank
  · exact congrArg Prod.fst (alone_done inputs db _)
  · rcases inputs with _ | ⟨get, inputs⟩
    · rfl
    · simp only [liftProgress, alone, program, step, PhotoReconcile.step]
      split
      · exact congrArg Prod.fst (alone_done inputs db _)
      · rename_i pending
        rcases inputs with _ | ⟨update, rest⟩
        · rfl
        · exact absurd rfl (idle blank pending get update rest)
      · exact congrArg Prod.fst (alone_done inputs db _)
      · exact congrArg Prod.fst (alone_done inputs db _)

/-- The deletes of a rejection: each of the two keys is gone when its request was made and took
effect. -/
theorem alone_deletes (policy : Policy) {full thumb : String} (different : full ≠ thumb)
    (there : present db.objects full ∧ present db.objects thumb) (rest : List Input) :
    let after := (alone (program policy) rest
      (db, .next (.moderation (.deleteFull full (some thumb))))).1
    after.photos = db.photos ∧ (∀ key, present after.objects key → present db.objects key) ∧
      (¬ present after.objects full ↔ ∃ first more, rest = first :: more ∧ first.answer ≠ .refused) ∧
      (¬ present after.objects thumb ↔
        ∃ first second more, rest = first :: second :: more ∧ second.answer ≠ .refused) := by
  rcases rest with _ | ⟨first, _ | ⟨second, more⟩⟩
  · refine ⟨rfl, fun _ h => h, ?_, ?_⟩
    · simpa [alone] using there.1
    · simpa [alone] using there.2
  · refine ⟨rfl, fun _ h => (present_deleteAnswered.mp h).1, ?_, ?_⟩
    · simp [alone, program, step, PhotoReconcile.step, present_deleteAnswered, there.1]
    · simp [alone, program, step, PhotoReconcile.step, present_deleteAnswered, there.2,
        different.symm]
  · have ended : (alone (program policy) (first :: second :: more)
        (db, .next (.moderation (.deleteFull full (some thumb))))).1 =
          { db with
            objects := deleteAnswered (deleteAnswered db.objects full first.answer) thumb
              second.answer } := congrArg Prod.fst (alone_done more _ _)
    simp only [ended]
    refine ⟨trivial, fun _ h => (present_deleteAnswered.mp (present_deleteAnswered.mp h).1).1, ?_, ?_⟩
    · simp [present_deleteAnswered, there.1, different]
    · simp [present_deleteAnswered, there.2, different.symm]

/-- A rejection leaves no object behind exactly when its deletes take effect. -/
theorem clean_reject_iff (h : InStep db) (clean : Clean db) {photo : PhotoId} {moderator : UserId}
    {reason : String} {inputs : List Input} :
    Clean (callAlone policy db (.moderation (.rejectPhoto photo moderator reason)) inputs).1 ↔
      Effective db (.call (.moderation (.rejectPhoto photo moderator reason)) inputs) := by
  by_cases made : trim reason ≠ "" ∧ stateOf db photo = some .pendingReview ∧
      ∃ get update rest, inputs = get :: update :: rest
  · obtain ⟨given, pending, get, update, rest, rfl⟩ := made
    obtain ⟨p, db', found, rejected, objects, ⟨q, here, state, same⟩, others⟩ :=
      reject_of_pending pending moderator (trim reason) update.now
    obtain ⟨uploadId, keys⟩ := h.uploads found
    obtain ⟨full, thumb⟩ : p.storageKey = fullKey uploadId ∧
        p.thumbnailKey = some (thumbKey uploadId) := by
      simpa [StoredPhoto.keys, Option.toList_eq_singleton_iff] using keys
    have live : ∀ key ∈ p.keys, present db'.objects key := by
      intro key named
      rw [objects]
      refine h.stored key ⟨photo, p, found, ?_, named⟩
      obtain ⟨_, there, pending⟩ := Option.map_eq_some_iff.mp pending
      obtain rfl := Option.some.inj (found.symm.trans there)
      rw [pending]
      decide
    rw [callAlone_reject given pending found rejected, full, thumb]
    obtain ⟨photos, less, fullGone, thumbGone⟩ := alone_deletes policy
      (fullKey_ne_thumbKey uploadId uploadId)
      ⟨live _ (by simp [keys]), live _ (by simp [keys])⟩ rest
    have rows : ∀ other, row (alone (program policy) rest (db', .next (.moderation
        (.deleteFull (fullKey uploadId) (some (thumbKey uploadId)))))).1 other = row db' other :=
      fun other => by rw [row, row, photos]
    constructor
    · intro after _ _ get' update' rest' split
      obtain ⟨rfl, rfl, rfl⟩ : get = get' ∧ update = update' ∧ rest = rest' := by
        simpa using split
      have left : ∀ key ∈ q.keys, ¬ present _ key := fun key named there =>
        after key ⟨there, photo, q, (rows photo).trans here, state, named⟩
      obtain ⟨first, more, rfl, firstDone⟩ := fullGone.mp (left _ (by simp [same, keys]))
      obtain ⟨_, second, more', split, secondDone⟩ := thumbGone.mp (left _ (by simp [same, keys]))
      obtain ⟨rfl, rfl⟩ := List.cons.inj split
      exact ⟨first, second, more', rfl, firstDone, secondDone⟩
    · intro effective
      obtain ⟨first, second, more, rfl, firstDone, secondDone⟩ :=
        effective given pending get update rest rfl
      rintro key ⟨there, other, p', found', rejected', named⟩
      rw [Option.mem_def, rows] at found'
      by_cases own : other = photo
      · subst own
        obtain rfl := Option.some.inj (here.symm.trans found')
        rw [same, keys, List.mem_pair] at named
        rcases named with rfl | rfl
        · exact fullGone.mpr ⟨first, _, rfl, firstDone⟩ there
        · exact thumbGone.mpr ⟨first, second, _, rfl, secondDone⟩ there
      · rw [others other own] at found'
        exact clean key ⟨objects ▸ less key there, other, p', found', rejected', named⟩
  · have idle : trim reason ≠ "" → stateOf db photo = some .pendingReview →
        ∀ get update rest, inputs ≠ get :: update :: rest :=
      fun given pending get update rest split => made ⟨given, pending, get, update, rest, split⟩
    rw [callAlone_idle idle]
    exact iff_of_true clean fun given pending get update rest split =>
      absurd split (idle given pending get update rest)

theorem tidy_entry (h : Clean db) {call : Call} (other : ∀ photo moderator reason,
    call ≠ .moderation (.rejectPhoto photo moderator reason)) : Tidy (db, entry policy call) := by
  cases call with
  | moderation call =>
    cases call with
    | reconcilePendingPhotos now => exact tidy_next h id
    | approvePhoto photo moderator => exact tidy_next h id
    | rejectPhoto photo moderator reason => exact absurd rfl (other photo moderator reason)
  | uploadPhoto u =>
    simp only [entry]
    split
    · exact tidy_next h id
    · exact tidy_done h _
  | purgeOrphanUploads now => exact tidy_next h id

/-- A call leaves no object of a rejected row exactly when its rejections take effect. -/
theorem clean_exec_iff (h : InStep db) (clean : Clean db) (e : Event) (fresh : Fresh db e) :
    Clean (exec policy db e) ↔ Effective db e := by
  cases e with
  | call call inputs =>
    by_cases rejects : ∃ photo moderator reason,
        call = .moderation (.rejectPhoto photo moderator reason)
    · obtain ⟨photo, moderator, reason, rfl⟩ := rejects
      exact clean_reject_iff h clean
    · push Not at rejects
      have start : Sound (db, entry policy call) ∧ Tidy (db, entry policy call) :=
        ⟨sound_entry h call inputs fresh, tidy_entry clean rejects⟩
      have ends := alone_preserves (P := program policy) (S := fun r => Sound r ∧ Tidy r)
        (fun db phase input hs => ⟨sound_step phase input hs.1, tidy_step phase input hs.1 hs.2⟩)
        inputs start
      refine iff_of_true ends.2.1 ?_
      unfold Effective
      split
      · rename_i split
        cases split
        exact absurd rfl (rejects _ _ _)
      · trivial
  | other op =>
    refine iff_of_true ?_ trivial
    cases op with
    | hidePhoto photo moderator now =>
      simp only [exec, PhotoReconcile.apply]
      cases hidden : hide db photo.1 photo.2 moderator now with
      | none => exact clean
      | some db' => exact clean.moderate hidden fun _ => by simp
    | restorePhoto photo moderator now =>
      simp only [exec, PhotoReconcile.apply]
      cases restored : restore db photo.1 photo.2 moderator now with
      | none => exact clean
      | some db' => exact clean.moderate restored fun _ => by simp

end Clean

section Whole

theorem clean_empty : Clean emptyDb := by
  rintro key ⟨there, -⟩
  exact not_present_empty there

theorem run_inStep (policy : Policy) {events : List Event}
    (fresh : Runs.Along (exec policy) Fresh emptyDb events) :
    InStep (Runs.run (exec policy) emptyDb events) :=
  Runs.run_invariant (I := InStep) (fun _ e h fresh => inStep_exec h e fresh) inStep_empty fresh

/-- In every run whose uploads take new keys the live rows have their objects. After a sweep over
objects that are all old enough the store holds just these exactly when no rejected row had an
object before it: so it is as long as the deletes of every rejection take effect, and no longer. -/
theorem photo_objects_in_step (policy : Policy) (events : List Event)
    (fresh : Runs.Along (exec policy) Fresh emptyDb events) :
    let db := Runs.run (exec policy) emptyDb events
    (∀ key, Live db key → present db.objects key) ∧
    (∀ now inputs db' n,
      callAlone policy db (.purgeOrphanUploads now) inputs = (db', .done (.ok n)) →
      (∀ o ∈ db.objects, IsUpload o.key → o.lastModified < now - policy.uploadOrphanTtl) →
      (Exact db' ↔ Clean db)) ∧
    (Runs.Along (exec policy) Effective emptyDb events → Clean db) ∧
    ∀ e, Fresh db e → Clean db → (Clean (exec policy db e) ↔ Effective db e) := by
  have inStep := run_inStep policy fresh
  refine ⟨inStep.stored, ?_, ?_, ?_⟩
  · intro now inputs db' n purged old
    exact purge_exact_iff inStep purged old
  · intro effective
    have both := Runs.along_and fresh effective
    have kept := Runs.run_invariant (I := fun db => InStep db ∧ Clean db)
      (fun db e h both => ⟨inStep_exec h.1 e both.1, (clean_exec_iff h.1 h.2 e both.1).mpr both.2⟩)
      ⟨inStep_empty, clean_empty⟩ both
    exact kept.2
  · intro e fresh clean
    exact clean_exec_iff inStep clean e fresh

end Whole

section Samples

def policy : Policy := ⟨10485760, 86400000000⟩

/-- A verified user's upload, at the start of the clock. -/
def upload : Upload :=
  ⟨.parking, 4, 7, true, true, true, 2048, some "the rack", .ok (1600, 1200), "0f"⟩

def input (answer : Answer) : Input := ⟨⟨0, answer⟩, 1⟩

def uploaded : Event := .call (.uploadPhoto upload) [input .done, input .done, input .done]

/-- The store refuses to delete the photo that is rejected. -/
def rejected : Event :=
  .call (.moderation (.rejectPhoto (.parking, 1) 9 "a face"))
    [input .done, input .done, input .refused, input .refused]

theorem uploaded_fresh : Runs.Along (exec policy) Fresh emptyDb [uploaded, rejected] := by
  refine ⟨fun key _ => ⟨not_present_empty, rfl⟩, trivial, trivial⟩

/-- An upload leaves the photo in step. -/
theorem uploaded_in_step :
    let db := Runs.run (exec policy) emptyDb [uploaded]
    (∀ key, Live db key → present db.objects key) ∧
    (∀ now inputs db' n,
      callAlone policy db (.purgeOrphanUploads now) inputs = (db', .done (.ok n)) →
      (∀ o ∈ db.objects, IsUpload o.key → o.lastModified < now - policy.uploadOrphanTtl) →
      (Exact db' ↔ Clean db)) ∧
    (Runs.Along (exec policy) Effective emptyDb [uploaded] → Clean db) ∧
    ∀ e, Fresh db e → Clean db → (Clean (exec policy db e) ↔ Effective db e) :=
  photo_objects_in_step policy [uploaded] ⟨uploaded_fresh.1, trivial⟩

/-- The bytes of the rejected photo outlive a sweep over a store in which everything is old. -/
theorem rejected_bytes_kept : ∃ (events : List Event) (now : Instant) (inputs : List Input)
    (db' : PhotoDb) (n : ℕ),
    let db := Runs.run (exec policy) emptyDb events
    Runs.Along (exec policy) Fresh emptyDb events ∧
    callAlone policy db (.purgeOrphanUploads now) inputs = (db', .done (.ok n)) ∧
    (∀ o ∈ db.objects, IsUpload o.key → o.lastModified < now - policy.uploadOrphanTtl) ∧
    ¬ Exact db' := by
  let db := Runs.run (exec policy) emptyDb [uploaded, rejected]
  obtain ⟨inputs, db', n, purged⟩ := purge_returns policy db 90000000000
  have old : ∀ o ∈ db.objects, IsUpload o.key →
      o.lastModified < 90000000000 - policy.uploadOrphanTtl := by
    have : ∀ o ∈ db.objects.rows, o.lastModified < 90000000000 - policy.uploadOrphanTtl := by decide
    exact fun o ho _ => this o ho
  refine ⟨[uploaded, rejected], 90000000000, inputs, db', n, uploaded_fresh, purged, old, ?_⟩
  rw [purge_exact_iff (run_inStep policy uploaded_fresh) purged old]
  intro clean
  have there : objectExists db.objects "uploads/0f/full.jpg" = true := by decide
  have decided : (row db (.parking, 1)).map (fun p => (p.moderationState, p.keys)) =
      some (.rejected, ["uploads/0f/full.jpg", "uploads/0f/thumb.jpg"]) := by decide
  obtain ⟨p, found, same⟩ := Option.map_eq_some_iff.mp decided
  obtain ⟨state, keys⟩ := Prod.mk.inj same
  exact clean "uploads/0f/full.jpg" ⟨objectExists_iff.mp there, (.parking, 1), p, found, state,
    by simp [keys]⟩

end Samples

end PhotoObjects
