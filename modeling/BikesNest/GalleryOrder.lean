import BikesNest.Photos
import BikesNest.ReadCommitted

/-! The order of a gallery under concurrent approvals. An approval is a transaction of four
statements: it reads the photo's target, locks the target's row, reads the greatest position and
writes the photo. Uploads and the other decisions are one statement each, behind the lock of the
photo's row. The log beside the store says which approvals have committed, the latest first. -/

namespace GalleryOrder

open Parking Photos ReadCommitted

structure Placed where
  kind : PhotoKind
  id : ℕ
  parentId : ℕ
  position : ℕ
  deriving DecidableEq

structure Gallery where
  db : PhotoDb
  approvals : List Placed

/-- The row of a target, and the row of a photo. -/
inductive Lock where
  | target (kind : PhotoKind) (parentId : ℕ)
  | photo (kind : PhotoKind) (id : ℕ)
  deriving DecidableEq

structure Approval where
  kind : PhotoKind
  id : ℕ
  moderator : UserId
  now : Instant

/-- `readPosition` is the snapshot of the last statement; its row may have to be waited for. -/
inductive Phase where
  | readPhoto (call : Approval)
  | readParent (call : Approval)
  | lockParent (call : Approval) (parentId : ℕ)
  | readPosition (call : Approval) (parentId : ℕ)
  | update (call : Approval) (parentId position : ℕ)
  | commit

/-- What the last statement of an approval writes. -/
def place (call : Approval) (parentId position : ℕ) (g : Gallery) : Gallery :=
  match moderate g.db call.kind call.id .pendingReview (fun p =>
      { p with
        moderationState := .approved
        reviewedBy := some call.moderator
        reviewedAt := some call.now
        position := position }) fun _ => rfl with
  | some db => ⟨db, ⟨call.kind, call.id, parentId, position⟩ :: g.approvals⟩
  | none => g

/-- The statements of `approve_photo`, the first of which is the service's own look at the
photo. -/
def statement (phase : Phase) (g : Gallery) : Statement Gallery Lock Phase :=
  match phase with
  | .readPhoto call =>
    match (g.db.photos call.kind).find call.id with
    | some p =>
      if p.moderationState = .pendingReview then .proceed (.readParent call) [] fun g => g
      else .abort []
    | none => .abort []
  | .readParent call =>
    match (g.db.photos call.kind).find call.id with
    | some p => .proceed (.lockParent call p.parentId) [] fun g => g
    | none => .abort []
  | .lockParent call parentId =>
    .proceed (.readPosition call parentId) [.target call.kind parentId] fun g => g
  | .readPosition call parentId =>
    .proceed (.update call parentId (nextPosition (g.db.photos call.kind) parentId)) [] fun g => g
  | .update call parentId position =>
    match (g.db.photos call.kind).find call.id with
    | some p =>
      if p.moderationState = .pendingReview then
        .proceed .commit [.photo call.kind call.id] (place call parentId position)
      else .abort [.photo call.kind call.id]
    | none => .abort []
  | .commit => ⟨[], .commit⟩

/-- The operations of one statement. -/
inductive PhotoOp where
  | insertPending (id : ℕ) (new : NewPendingPhoto) (now : Instant)
  | reject (kind : PhotoKind) (id : ℕ) (moderator : UserId) (reason : String) (now : Instant)
  | hide (kind : PhotoKind) (id : ℕ) (moderator : UserId) (now : Instant)
  | restore (kind : PhotoKind) (id : ℕ) (moderator : UserId) (now : Instant)

def PhotoOp.lock : PhotoOp → Lock
  | .insertPending id new _ => .photo new.kind id
  | .reject kind id _ _ _ => .photo kind id
  | .hide kind id _ _ => .photo kind id
  | .restore kind id _ _ => .photo kind id

def PhotoOp.exec (db : PhotoDb) : PhotoOp → Option PhotoDb
  | .insertPending id new now => Photos.insertPending db id new now
  | .reject kind id moderator reason now => Photos.reject db kind id moderator reason now
  | .hide kind id moderator now => Photos.hide db kind id moderator now
  | .restore kind id moderator now => Photos.restore db kind id moderator now

def program : Program Gallery Lock Phase Approval PhotoOp where
  entry := .readPhoto
  next := statement
  touches op _ := [op.lock]
  apply op g := { g with db := (op.exec g.db).getD g.db }

abbrev GalleryState := State Gallery Lock ℕ Phase

abbrev GalleryEvent := Event ℕ Approval PhotoOp

/-- A photo that was approved at some time: it is shown, or hidden again. -/
def Shown (p : StoredPhoto) : Prop :=
  p.moderationState = .approved ∨ p.moderationState = .hidden

instance (p : StoredPhoto) : Decidable (Shown p) := inferInstanceAs (Decidable (_ ∨ _))

/-- The log holds the photos ever approved, at the positions that they still have, and within a
target these grow with every approval. -/
structure InOrder (g : Gallery) : Prop where
  logged : ∀ kind id p, (g.db.photos kind).find id = some p → Shown p →
    ⟨kind, id, p.parentId, p.position⟩ ∈ g.approvals
  kept : ∀ a ∈ g.approvals, ∃ p, (g.db.photos a.kind).find a.id = some p ∧ Shown p ∧
    p.parentId = a.parentId ∧ p.position = a.position
  ascending : g.approvals.Pairwise fun later earlier =>
    later.kind = earlier.kind → later.parentId = earlier.parentId →
      earlier.position < later.position

/-- Two photos of a target that were ever approved stand at different positions. -/
theorem InOrder.distinct {g : Gallery} (order : InOrder g) {kind : PhotoKind} {i j : ℕ}
    {p q : StoredPhoto} (hp : (g.db.photos kind).find i = some p)
    (hq : (g.db.photos kind).find j = some q) (shownP : Shown p) (shownQ : Shown q)
    (target : p.parentId = q.parentId) (other : i ≠ j) : p.position ≠ q.position := by
  have first := order.logged kind i p hp shownP
  have second := order.logged kind j q hq shownQ
  intro same
  have apart : (⟨kind, i, p.parentId, p.position⟩ : Placed) ≠ ⟨kind, j, q.parentId, q.position⟩ := by
    simp [other]
  let Apart : Placed → Placed → Prop := fun a b =>
    a.kind = b.kind → a.parentId = b.parentId → a.position ≠ b.position
  have symm : Std.Symm Apart := ⟨fun a b h kind parent => (h kind.symm parent.symm).symm⟩
  have pairs : g.approvals.Pairwise Apart := order.ascending.imp fun {a b} h kind parent =>
    (h kind parent).ne'
  exact pairs.forall first second apart rfl target same

theorem le_foldl_max (xs : List ℕ) (n : ℕ) :
    n ≤ xs.foldl max n ∧ ∀ x ∈ xs, x ≤ xs.foldl max n := by
  induction xs generalizing n with
  | nil => simp
  | cons x xs ih =>
    obtain ⟨start, each⟩ := ih (max n x)
    rw [List.foldl_cons]
    refine ⟨le_trans (le_max_left n x) start, fun y hy => ?_⟩
    rcases List.mem_cons.mp hy with rfl | hy
    · exact le_trans (le_max_right n y) start
    · exact each y hy

/-- The next position is greater than every position of the target. -/
theorem position_lt_next {t : PhotoTable} {p : StoredPhoto} (hp : p ∈ t) :
    p.position < nextPosition t p.parentId := by
  have counted : p.position ∈ (t.filter fun q => decide (q.parentId = p.parentId)).map
      StoredPhoto.position :=
    List.mem_map.mpr ⟨p, Table.mem_filter.mpr ⟨hp, decide_eq_true rfl⟩, rfl⟩
  have bound := (le_foldl_max _ 0).2 _ counted
  unfold nextPosition
  omega

/-! What the transactions rely on. -/

/-- No photo disappears or changes its target, and no approval is taken back. -/
structure Evolves (g g' : Gallery) : Prop where
  photos : ∀ kind id p, (g.db.photos kind).find id = some p →
    ∃ p', (g'.db.photos kind).find id = some p' ∧ p'.parentId = p.parentId
  approvals : g.approvals <:+ g'.approvals

theorem Evolves.refl (g : Gallery) : Evolves g g := ⟨fun _ _ p found => ⟨p, found, rfl⟩, List.suffix_rfl⟩

theorem Evolves.trans (a b c : Gallery) (hab : Evolves a b) (hbc : Evolves b c) : Evolves a c := by
  refine ⟨fun kind id p found => ?_, hab.approvals.trans hbc.approvals⟩
  obtain ⟨q, there, same⟩ := hab.photos kind id p found
  obtain ⟨r, last, still⟩ := hbc.photos kind id q there
  exact ⟨r, last, still.trans same⟩

/-- Behind the lock of a target no photo of it moves to a greater position, and behind the lock of
a photo its row stays as it is. -/
def Keeps : Lock → Gallery → Gallery → Prop
  | .target kind parentId, g, g' => ∀ p' ∈ g'.db.photos kind, p'.parentId = parentId →
    p'.position = 0 ∨ ∃ p ∈ g.db.photos kind, p.parentId = parentId ∧ p.position = p'.position
  | .photo kind id, g, g' => (g'.db.photos kind).find id = (g.db.photos kind).find id

/-- The photo belongs to the target. -/
def Belongs (call : Approval) (parentId : ℕ) (g : Gallery) : Prop :=
  ∃ p, (g.db.photos call.kind).find call.id = some p ∧ p.parentId = parentId

/-- The position is beyond those of the target. -/
def Beyond (call : Approval) (parentId position : ℕ) (g : Gallery) : Prop :=
  0 < position ∧ ∀ p ∈ g.db.photos call.kind, p.parentId = parentId → p.position < position

/-- What an approval knows in each of its phases. -/
def Knows (x : Txn Gallery Lock ℕ Phase) (g : Gallery) : Prop :=
  match x.phase with
  | .readPhoto _ => x.Untouched
  | .readParent _ => x.Untouched
  | .lockParent call parentId => x.Untouched ∧ Belongs call parentId g
  | .readPosition call parentId =>
    x.Untouched ∧ Belongs call parentId g ∧ .target call.kind parentId ∈ x.held
  | .update call parentId position =>
    x.Untouched ∧ Belongs call parentId g ∧ .target call.kind parentId ∈ x.held ∧
      Beyond call parentId position g
  | .commit => ∃ call parentId position, x.pending = place call parentId position ∧
      .target call.kind parentId ∈ x.held ∧ .photo call.kind call.id ∈ x.held ∧
      Beyond call parentId position g ∧
      ∃ p, (g.db.photos call.kind).find call.id = some p ∧ p.parentId = parentId ∧
        p.moderationState = .pendingReview

section Rely

variable {g g' : Gallery} {call : Approval} {parentId position : ℕ}

theorem Belongs.stable (h : Belongs call parentId g) (evolves : Evolves g g') :
    Belongs call parentId g' := by
  obtain ⟨p, found, parent⟩ := h
  obtain ⟨p', found', same⟩ := evolves.photos call.kind call.id p found
  exact ⟨p', found', same.trans parent⟩

theorem Beyond.stable (h : Beyond call parentId position g)
    (keeps : Keeps (.target call.kind parentId) g g') : Beyond call parentId position g' := by
  obtain ⟨positive, below⟩ := h
  refine ⟨positive, fun p' hp' parent => ?_⟩
  rcases keeps p' hp' parent with zero | ⟨p, hp, parent, same⟩
  · rw [zero]
    exact positive
  · rw [← same]
    exact below p hp parent

theorem knows_stable {x : Txn Gallery Lock ℕ Phase} (knows : Knows x g) (evolves : Evolves g g')
    (keeps : ∀ k ∈ x.held, Keeps k g g') : Knows x g' := by
  obtain ⟨id, phase, held, pending⟩ := x
  cases phase with
  | readPhoto call => exact knows
  | readParent call => exact knows
  | lockParent call parentId => exact ⟨knows.1, knows.2.stable evolves⟩
  | readPosition call parentId => exact ⟨knows.1, knows.2.1.stable evolves, knows.2.2⟩
  | update call parentId position =>
    obtain ⟨untouched, belongs, locked, beyond⟩ := knows
    exact ⟨untouched, belongs.stable evolves, locked, beyond.stable (keeps _ locked)⟩
  | commit =>
    obtain ⟨call, parentId, position, write, target, photo, beyond, p, found, row⟩ := knows
    have same : (g'.db.photos call.kind).find call.id = (g.db.photos call.kind).find call.id :=
      keeps _ photo
    exact ⟨call, parentId, position, write, target, photo, beyond.stable (keeps _ target), p,
      same.trans found, row⟩

end Rely

/-- What the write of an approval does to a photo that is still pending. -/
theorem place_pending {g : Gallery} {call : Approval} (parentId position : ℕ) {p : StoredPhoto}
    (found : (g.db.photos call.kind).find call.id = some p)
    (pending : p.moderationState = .pendingReview) :
    (place call parentId position g).approvals =
        ⟨call.kind, call.id, parentId, position⟩ :: g.approvals ∧
      ∀ kind id, ((place call parentId position g).db.photos kind).find id =
        if kind = call.kind ∧ id = call.id then
          some { p with
            moderationState := .approved
            reviewedBy := some call.moderator
            reviewedAt := some call.now
            position := position }
        else (g.db.photos kind).find id := by
  unfold place
  split
  · rename_i db moderated
    obtain ⟨q, found', -, -, rows⟩ := moderate_eq_some moderated
    obtain rfl := Option.some.inj (found.symm.trans found')
    exact ⟨rfl, rows⟩
  · rename_i refused
    obtain ⟨db, moderated⟩ := moderate_of_state found pending
    rw [moderated] at refused
    cases refused

/-- What an operation does: a new photo, pending and at no position, or a row whose target,
position and approval stay. -/
theorem exec_eq_some {op : PhotoOp} {db db' : PhotoDb} (h : op.exec db = some db') :
    ∃ kind id p', op.lock = .photo kind id ∧
      (∀ k i, (db'.photos k).find i =
        if k = kind ∧ i = id then some p' else (db.photos k).find i) ∧
      (((db.photos kind).find id = none ∧ p'.position = 0 ∧ ¬ Shown p') ∨
        ∃ p, (db.photos kind).find id = some p ∧ p'.parentId = p.parentId ∧
          p'.position = p.position ∧ (Shown p' ↔ Shown p)) := by
  cases op with
  | insertPending id new now =>
    obtain ⟨-, fresh, rows⟩ := find_insertPending h
    exact ⟨new.kind, id, newPhoto id new now, rfl, rows, .inl ⟨fresh, rfl, by simp [Shown, newPhoto]⟩⟩
  | reject kind id moderator reason now =>
    obtain ⟨p, found, state, -, rows⟩ := moderate_eq_some h
    exact ⟨kind, id, _, rfl, rows, .inr ⟨p, found, rfl, rfl, by simp [Shown, state]⟩⟩
  | hide kind id moderator now =>
    obtain ⟨p, found, state, -, rows⟩ := moderate_eq_some h
    exact ⟨kind, id, _, rfl, rows, .inr ⟨p, found, rfl, rfl, by simp [Shown, state]⟩⟩
  | restore kind id moderator now =>
    obtain ⟨p, found, state, -, rows⟩ := moderate_eq_some h
    exact ⟨kind, id, _, rfl, rows, .inr ⟨p, found, rfl, rfl, by simp [Shown, state]⟩⟩

section Guarantee

variable {g : Gallery}

theorem inOrder_exec (order : InOrder g) {op : PhotoOp} {db : PhotoDb}
    (h : op.exec g.db = some db) : InOrder { g with db := db } := by
  obtain ⟨kind, id, p', -, rows, change⟩ := exec_eq_some h
  refine ⟨fun k i p found shown => ?_, fun a ha => ?_, order.ascending⟩
  · have found : (db.photos k).find i = some p := found
    rw [rows] at found
    split at found
    · rename_i here
      obtain ⟨rfl, rfl⟩ := here
      obtain rfl := Option.some.inj found
      rcases change with ⟨-, -, hidden⟩ | ⟨q, before, parent, position, same⟩
      · exact absurd shown hidden
      · rw [parent, position]
        exact order.logged k i q before (same.mp shown)
    · exact order.logged k i p found shown
  · obtain ⟨p, found, shown, parent, position⟩ := order.kept a ha
    change ∃ p, (db.photos a.kind).find a.id = some p ∧ _
    rw [rows]
    split
    · rename_i here
      obtain ⟨rfl, rfl⟩ := here
      rcases change with ⟨fresh, -, -⟩ | ⟨q, before, parent', position', same⟩
      · rw [fresh] at found
        cases found
      · obtain rfl := Option.some.inj (found.symm.trans before)
        exact ⟨p', rfl, same.mpr shown, parent'.trans parent, position'.trans position⟩
    · exact ⟨p, found, shown, parent, position⟩

theorem evolves_exec {op : PhotoOp} {db : PhotoDb} (h : op.exec g.db = some db) :
    Evolves g { g with db := db } := by
  obtain ⟨kind, id, p', -, rows, change⟩ := exec_eq_some h
  refine ⟨fun k i p found => ?_, List.suffix_rfl⟩
  change ∃ p', (db.photos k).find i = some p' ∧ _
  rw [rows]
  split
  · rename_i here
    obtain ⟨rfl, rfl⟩ := here
    rcases change with ⟨fresh, -, -⟩ | ⟨q, before, parent, -, -⟩
    · rw [fresh] at found
      cases found
    · obtain rfl := Option.some.inj (found.symm.trans before)
      exact ⟨p', rfl, parent⟩
  · exact ⟨p, found, rfl⟩

theorem keeps_exec {op : PhotoOp} {db : PhotoDb} (h : op.exec g.db = some db) {k : Lock}
    (other : k ≠ op.lock) : Keeps k g { g with db := db } := by
  obtain ⟨kind, id, p', lock, rows, change⟩ := exec_eq_some h
  cases k with
  | target k parentId =>
    intro p hp parent
    have found : (db.photos k).find p.id = some p := Table.find_of_mem hp
    rw [rows] at found
    split at found
    · rename_i here
      obtain ⟨rfl, rfl⟩ := here
      obtain rfl := Option.some.inj found
      rcases change with ⟨-, zero, -⟩ | ⟨q, before, parent', position, -⟩
      · exact .inl zero
      · exact .inr ⟨q, (Table.find_eq_some.mp before).1, parent'.symm.trans parent, position.symm⟩
    · exact .inr ⟨p, (Table.find_eq_some.mp found).1, parent, rfl⟩
  | photo k i =>
    change (db.photos k).find i = _
    rw [rows, if_neg]
    rintro ⟨rfl, rfl⟩
    exact other lock.symm

variable {call : Approval} {parentId position : ℕ} {p : StoredPhoto}
  (found : (g.db.photos call.kind).find call.id = some p) (parent : p.parentId = parentId)
  (pending : p.moderationState = .pendingReview)
include found parent pending

theorem inOrder_place (order : InOrder g) (beyond : Beyond call parentId position g) :
    InOrder (place call parentId position g) := by
  obtain ⟨log, rows⟩ := place_pending parentId position found pending
  refine ⟨fun k i q here shown => ?_, fun a ha => ?_, ?_⟩
  · rw [log, List.mem_cons]
    rw [rows] at here
    split at here
    · rename_i same
      obtain ⟨rfl, rfl⟩ := same
      obtain rfl := Option.some.inj here
      left
      rw [parent]
    · exact .inr (order.logged k i q here shown)
  · rw [log, List.mem_cons] at ha
    rw [rows]
    rcases ha with rfl | ha
    · rw [if_pos ⟨rfl, rfl⟩]
      exact ⟨_, rfl, .inl rfl, parent, rfl⟩
    · obtain ⟨q, there, shown, rest⟩ := order.kept a ha
      rw [if_neg]
      · exact ⟨q, there, shown, rest⟩
      · rintro ⟨kind, id⟩
        rw [kind, id, found] at there
        obtain rfl := Option.some.inj there
        simp [Shown, pending] at shown
  · rw [log, List.pairwise_cons]
    refine ⟨fun a ha kind target => ?_, order.ascending⟩
    obtain ⟨q, there, -, parent', position'⟩ := order.kept a ha
    have kind : call.kind = a.kind := kind
    rw [← kind] at there
    have below := beyond.2 q (Table.find_eq_some.mp there).1 (parent'.trans target.symm)
    rwa [position'] at below

omit parent in
theorem evolves_place : Evolves g (place call parentId position g) := by
  obtain ⟨log, rows⟩ := place_pending parentId position found pending
  refine ⟨fun k i q there => ?_, log ▸ List.suffix_cons _ _⟩
  rw [rows]
  split
  · rename_i same
    obtain ⟨rfl, rfl⟩ := same
    obtain rfl := Option.some.inj (found.symm.trans there)
    exact ⟨_, rfl, rfl⟩
  · exact ⟨q, there, rfl⟩

theorem keeps_place {k : Lock} (target : k ≠ .target call.kind parentId)
    (photo : k ≠ .photo call.kind call.id) : Keeps k g (place call parentId position g) := by
  obtain ⟨-, rows⟩ := place_pending parentId position found pending
  cases k with
  | target k par =>
    intro q hq parent'
    have there := Table.find_of_mem hq
    rw [rows] at there
    split at there
    · rename_i same
      obtain rfl := Option.some.inj there
      exact absurd (by rw [same.1, ← parent', ← parent]) target
    · exact .inr ⟨q, (Table.find_eq_some.mp there).1, parent', rfl⟩
  | photo k i =>
    change ((place call parentId position g).db.photos k).find i = _
    rw [rows, if_neg]
    rintro ⟨rfl, rfl⟩
    exact photo rfl

end Guarantee

/-- A change of state looks at the one row it changes. -/
theorem moderate_congr {db : PhotoDb} {kind : PhotoKind} {id : ℕ} {expected : Erasure.PhotoState}
    {f f' : StoredPhoto → StoredPhoto} {hf : ∀ p, (f p).id = p.id} {hf' : ∀ p, (f' p).id = p.id}
    (same : ∀ p ∈ db.photos kind, p.id = id → f p = f' p) :
    moderate db kind id expected f hf = moderate db kind id expected f' hf' := by
  have tables : (db.photos kind).update (fun q => decide (q.id = id)) f hf =
      (db.photos kind).update (fun q => decide (q.id = id)) f' hf' := by
    refine Table.ext (List.map_congr_left fun p hp => ?_)
    by_cases here : p.id = id
    · simp [here, same p hp here]
    · simp [here]
  unfold moderate
  rw [tables]

/-- With nothing beside it an approval commits what `approve` gives. -/
theorem approve_alone (t : ℕ) (call : Approval) (g : Gallery) :
    (program.alone 6 (.start t (.readPhoto call)) g).map (fun r => r.2.db) =
      Photos.approve g.db call.kind call.id call.moderator call.now := by
  cases found : (g.db.photos call.kind).find call.id with
  | none =>
    simp [Program.alone, Program.statement, program, statement, Txn.start, Statement.abort,
      Photos.approve, moderate, found]
  | some p =>
    by_cases state : p.moderationState = .pendingReview
    · have placed : Photos.approve g.db call.kind call.id call.moderator call.now =
          some (place call p.parentId (nextPosition (g.db.photos call.kind) p.parentId) g).db := by
        have only : ∀ q ∈ g.db.photos call.kind, q.id = call.id → q = p := fun q hq same =>
          Option.some.inj ((Table.find_of_mem hq).symm.trans (same ▸ found))
        obtain ⟨db, moderated⟩ : ∃ db, moderate g.db call.kind call.id .pendingReview (fun q =>
            { q with
              moderationState := .approved
              reviewedBy := some call.moderator
              reviewedAt := some call.now
              position := nextPosition (g.db.photos call.kind) p.parentId }) (fun _ => rfl) =
            some db := moderate_of_state found state
        have same : Photos.approve g.db call.kind call.id call.moderator call.now = some db :=
          (moderate_congr fun q hq here => by rw [only q hq here]).trans moderated
        simp only [same, place, moderated]
      rw [placed]
      simp [Program.alone, Program.statement, program, statement, Txn.start, Statement.proceed,
        Txn.step, found, state]
    · simp [Program.alone, Program.statement, program, statement, Txn.start, Statement.abort,
        Photos.approve, moderate, found, state]

/-- A phase goes on with what the next one knows. -/
theorem knows_proceed {g : Gallery} {x : Txn Gallery Lock ℕ Phase} {locks : List Lock} {next : Phase}
    {write : Gallery → Gallery} (knows : Knows x g)
    (h : program.statement x g = ⟨locks, .proceed next write⟩) : Knows (x.step locks next write) g := by
  obtain ⟨id, phase, held, pending⟩ := x
  cases phase with
  | readPhoto call =>
    have untouched : pending = fun g => g := knows
    subst untouched
    simp only [Program.statement, program, statement] at h
    split at h
    · split_ifs at h
      · obtain ⟨rfl, rfl, rfl⟩ := Statement.proceed_inj h
        rfl
      · exact absurd h Statement.abort_ne_proceed
    · exact absurd h Statement.abort_ne_proceed
  | readParent call =>
    have untouched : pending = fun g => g := knows
    subst untouched
    simp only [Program.statement, program, statement] at h
    split at h
    · rename_i p found
      obtain ⟨rfl, rfl, rfl⟩ := Statement.proceed_inj h
      exact ⟨rfl, p, found, rfl⟩
    · exact absurd h Statement.abort_ne_proceed
  | lockParent call parentId =>
    obtain ⟨untouched, belongs⟩ := knows
    have untouched : pending = fun g => g := untouched
    subst untouched
    obtain ⟨rfl, rfl, rfl⟩ := Statement.proceed_inj h
    exact ⟨rfl, belongs, List.mem_cons_self⟩
  | readPosition call parentId =>
    obtain ⟨untouched, belongs, locked⟩ := knows
    have untouched : pending = fun g => g := untouched
    subst untouched
    obtain ⟨rfl, rfl, rfl⟩ := Statement.proceed_inj h
    refine ⟨rfl, belongs, locked, Nat.succ_pos _, fun p hp parent => ?_⟩
    rw [← parent]
    exact position_lt_next hp
  | update call parentId position =>
    obtain ⟨untouched, ⟨q, there, parent⟩, locked, beyond⟩ := knows
    have untouched : pending = fun g => g := untouched
    subst untouched
    simp only [Program.statement, program, statement, there] at h
    split_ifs at h with state
    · obtain ⟨rfl, rfl, rfl⟩ := Statement.proceed_inj h
      exact ⟨call, parentId, position, rfl, List.mem_cons_of_mem _ locked, List.mem_cons_self,
        beyond, q, there, parent, state⟩
    · exact absurd h Statement.abort_ne_proceed
  | commit =>
    simp [Program.statement, program, statement] at h

theorem statement_commit {phase : Phase} {g : Gallery} {locks : List Lock}
    (h : statement phase g = ⟨locks, .commit⟩) : phase = .commit := by
  cases phase with
  | commit => rfl
  | readPhoto call =>
    simp only [statement] at h
    split at h
    · split_ifs at h
      · exact absurd h Statement.proceed_ne_commit
      · exact absurd h Statement.abort_ne_commit
    · exact absurd h Statement.abort_ne_commit
  | readParent call =>
    simp only [statement] at h
    split at h
    · exact absurd h Statement.proceed_ne_commit
    · exact absurd h Statement.abort_ne_commit
  | lockParent call parentId => exact absurd h Statement.proceed_ne_commit
  | readPosition call parentId => exact absurd h Statement.proceed_ne_commit
  | update call parentId position =>
    simp only [statement] at h
    split at h
    · split_ifs at h
      · exact absurd h Statement.proceed_ne_commit
      · exact absurd h Statement.abort_ne_commit
    · exact absurd h Statement.abort_ne_commit

theorem outline : Outline program InOrder Knows Evolves Keeps where
  entry _ _ _ _ := rfl
  proceed _ _ _ _ _ _ knows h := knows_proceed knows h
  commit g x locks order knows h := by
    have last := statement_commit h
    obtain ⟨id, phase, held, pending⟩ := x
    obtain rfl : phase = .commit := last
    obtain ⟨call, parentId, position, write, target, photo, beyond, p, found, parent, state⟩ := knows
    simp only at write
    subst write
    refine ⟨inOrder_place found parent state order beyond, evolves_place found state, fun k free => ?_⟩
    apply keeps_place found parent state
    · rintro rfl
      exact free target
    · rintro rfl
      exact free photo
  atomic g op order := by
    change InOrder { g with db := (op.exec g.db).getD g.db } ∧
      Evolves g { g with db := (op.exec g.db).getD g.db } ∧ ∀ k, k ∉ [op.lock] →
        Keeps k g { g with db := (op.exec g.db).getD g.db }
    cases h : op.exec g.db with
    | none =>
      refine ⟨order, .refl g, fun k _ => ?_⟩
      cases k with
      | target kind parentId => exact fun p hp parent => .inr ⟨p, hp, parent, rfl⟩
      | photo kind id => rfl
    | some db =>
      refine ⟨inOrder_exec order h, evolves_exec h, fun k other => keeps_exec h fun same => ?_⟩
      exact other (List.mem_singleton.mpr same)
  stable _ _ _ _ _ knows evolves keeps := knows_stable knows evolves keeps

/-- After every run the photos ever approved stand at distinct positions within their targets, in
the order of their approvals, and no later event takes an approval or its position back. -/
theorem gallery_in_order {g : Gallery} (start : InOrder g) (events more : List GalleryEvent) :
    InOrder (run program (initial g : GalleryState) events).committed ∧
    (∀ kind i j p q,
      ((run program (initial g : GalleryState) events).committed.db.photos kind).find i = some p →
      ((run program (initial g : GalleryState) events).committed.db.photos kind).find j = some q →
      Shown p → Shown q → p.parentId = q.parentId → i ≠ j → p.position ≠ q.position) ∧
    (run program (initial g : GalleryState) events).committed.approvals <:+
      (run program (initial g : GalleryState) (events ++ more)).committed.approvals := by
  have sound : Sound InOrder Knows (run program (initial g : GalleryState) events) :=
    run_preserves_sound outline (initial_sound start) events
  refine ⟨sound.committed, fun kind i j p q hp hq shownP shownQ target other =>
    sound.committed.distinct hp hq shownP shownQ target other, ?_⟩
  rw [run_append]
  exact (run_evolves outline Evolves.refl Evolves.trans sound more).approvals

theorem empty_in_order : InOrder ⟨emptyDb, []⟩ where
  logged kind id p found := by cases found
  kept a ha := by cases ha
  ascending := .nil

/-- An upload to the listing 7. -/
def upload (id : ℕ) : GalleryEvent :=
  .atomic (.insertPending id ⟨.parking, 7, 1, none, "full", "thumb", 800, 600⟩ 0)

/-- Two moderators approve two photos of a listing at once, the second waiting for the first at the
listing's row; then the first photo is hidden and restored. -/
def twoModerators : List GalleryEvent :=
  [upload 1, upload 2, .begin 1 ⟨.parking, 1, 8, 0⟩, .begin 2 ⟨.parking, 2, 9, 0⟩,
    .advance 1, .advance 2, .advance 1, .advance 2, .advance 1, .advance 2, .advance 1,
    .advance 1, .advance 1, .advance 2, .advance 2, .advance 2, .advance 2,
    .atomic (.hide .parking 1 8 1), .atomic (.restore .parking 1 8 2)]

theorem twoModerators_in_order :
    (run program (initial ⟨emptyDb, []⟩ : GalleryState) twoModerators).committed.approvals =
        [⟨.parking, 2, 7, 2⟩, ⟨.parking, 1, 7, 1⟩] ∧
      InOrder (run program (initial ⟨emptyDb, []⟩ : GalleryState) twoModerators).committed :=
  ⟨by decide +kernel, (gallery_in_order empty_in_order twoModerators []).1⟩

end GalleryOrder
