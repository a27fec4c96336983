import BikesNest.Keyset
import BikesNest.Reviews

/-! The pages of a listing's reviews. They come in the order of (created_at, id), but the cursor
compares the identity alone; the time is that of the start of the transaction that wrote the
review, and the identity is drawn when the lock of the listing has been awaited. -/

namespace ReviewPages

open Parking Schema Reviews RowOrder Keyset

/-- A body as `ReviewBody::new` makes it. -/
structure PostedBody extends ReviewBody where
  trimmed : trim text = text
  deriving DecidableEq

/-- The arguments of `upsert_review`. -/
structure Upsert where
  locationId : LocationId
  author : UserId
  rating : StarRating
  body : PostedBody
  deriving DecidableEq

structure StoredReview where
  id : ℕ
  locationId : LocationId
  authorId : Option UserId
  rating : StarRating
  body : PostedBody
  publicAuthor : Bool
  moderationState : ReviewState
  createdAt : Instant
  updatedAt : Instant
  deriving DecidableEq

abbrev ReviewTable := Table ℕ StoredReview StoredReview.id

/-! The transactions that write reviews. Those of a listing queue up for its lock. -/

section Writers

/-- Where a transaction stands: it has begun, it has the lock of the listing, that of its author
too, or it has written its row. -/
inductive Phase where
  | began
  | located
  | authored (publicAuthor : Bool)
  | written (row : StoredReview)

structure Txn where
  id : ℕ
  call : Upsert
  startedAt : Instant
  phase : Phase

def Txn.holdsLocation (x : Txn) (l : LocationId) : Bool :=
  match x.phase with
  | .began => false
  | _ => decide (x.call.locationId = l)

def Txn.holdsAuthor (x : Txn) (u : UserId) : Bool :=
  match x.phase with
  | .began => false
  | .located => false
  | _ => decide (x.call.author = u)

/-- `lastId` is what the sequence drew last, also for rows that were never committed. -/
structure State where
  now : Instant
  lastId : ℕ
  reviews : ReviewTable
  running : Table ℕ Txn Txn.id

def initial : State := ⟨0, 0, .empty, .empty⟩

/-- The listing and the author of a call exist. `publicAuthor` is what the account of the author
says when it is locked; `setReviewState` is a moderator's transaction, which takes the lock of the
listing as well. -/
inductive Event where
  | tick (gap : ℕ)
  | begin (t : ℕ) (call : Upsert)
  | lockLocation (t : ℕ)
  | lockAuthor (t : ℕ) (publicAuthor : Bool)
  | upsert (t : ℕ)
  | commit (t : ℕ)
  | rollback (t : ℕ)
  | setReviewState (id : ℕ) (source target : ReviewState)

def State.enter (s : State) (t : ℕ) (phase : Phase) : State :=
  let running := s.running.update (fun x => decide (x.id = t))
    (fun x => { x with phase := phase }) fun _ => rfl
  { s with running := running }

def State.release (s : State) (t : ℕ) : State :=
  { s with running := s.running.delete fun x => decide (x.id = t) }

/-- The review of an author on a listing. -/
def ownReview (reviews : ReviewTable) (call : Upsert) : Option StoredReview :=
  (reviews.filter fun r =>
    decide (r.locationId = call.locationId ∧ r.authorId = some call.author)).head?

/-- The row of `INSERT … ON CONFLICT DO UPDATE`; `now()` is the start of the transaction. -/
def upsertedRow (s : State) (x : Txn) (publicAuthor : Bool) : StoredReview :=
  match ownReview s.reviews x.call with
  | some r => { r with rating := x.call.rating, body := x.call.body, updatedAt := x.startedAt }
  | none => {
      id := s.lastId + 1
      locationId := x.call.locationId
      authorId := some x.call.author
      rating := x.call.rating
      body := x.call.body
      publicAuthor := publicAuthor
      moderationState := .active
      createdAt := x.startedAt
      updatedAt := x.startedAt }

/-- A committed row takes the place of the one it updates. -/
def putReview (reviews : ReviewTable) (row : StoredReview) : ReviewTable :=
  ((reviews.delete fun r => decide (r.id = row.id)).insert row).getD reviews

/-- One event. A statement whose lock is taken waits: the event changes nothing. -/
def fire (s : State) : Event → State
  | .tick gap => { s with now := s.now + gap }
  | .begin t call =>
    match s.running.insert ⟨t, call, s.now, .began⟩ with
    | some running => { s with running := running }
    | none => s
  | .lockLocation t =>
    match s.running.find t with
    | some ⟨_, call, _, .began⟩ =>
      if s.running.rows.any fun x => x.holdsLocation call.locationId then s
      else s.enter t .located
    | _ => s
  | .lockAuthor t publicAuthor =>
    match s.running.find t with
    | some ⟨_, call, _, .located⟩ =>
      if s.running.rows.any fun x => x.holdsAuthor call.author then s
      else s.enter t (.authored publicAuthor)
    | _ => s
  | .upsert t =>
    match s.running.find t with
    | some ⟨id, call, startedAt, .authored publicAuthor⟩ =>
      -- the identity is drawn whether or not the row is new
      { s.enter t (.written (upsertedRow s ⟨id, call, startedAt, .authored publicAuthor⟩
          publicAuthor)) with lastId := s.lastId + 1 }
    | _ => s
  | .commit t =>
    match s.running.find t with
    | some ⟨_, _, _, .written row⟩ => { s.release t with reviews := putReview s.reviews row }
    | _ => s
  | .rollback t => s.release t
  | .setReviewState id source target =>
    match s.reviews.find id with
    | some r =>
      if s.running.rows.any fun x => x.holdsLocation r.locationId then s
      else
        let reviews := s.reviews.update
          (fun q => decide (q.id = id ∧ q.moderationState = source))
          (fun q => { q with moderationState := target, updatedAt := s.now }) fun _ => rfl
        { s with reviews := reviews }
    | none => s

def run (events : List Event) : State := events.foldl fire initial

end Writers

structure Review where
  id : ℕ
  locationId : LocationId
  author : Option UserId
  publicAuthorName : Option String
  rating : StarRating
  body : ReviewBody
  createdAt : Instant
  updatedAt : Instant
  deriving DecidableEq

/-- `names` is the name that an account shows, if it does. -/
def publicAuthorName (names : UserId → Option String) (r : StoredReview) : Option String :=
  if r.publicAuthor then r.authorId.bind names else none

/-- `review_from_row`. -/
def reviewFromRow (names : UserId → Option String) (r : StoredReview) : Option Review := do
  let rating ← StarRating.new r.rating.value
  let body ← ReviewBody.new r.body.text
  pure {
    id := r.id
    locationId := r.locationId
    author := r.authorId
    publicAuthorName := publicAuthorName names r
    rating := rating
    body := body
    createdAt := r.createdAt
    updatedAt := r.updatedAt }

/-- The reviews that a listing shows. -/
def activeAt (reviews : ReviewTable) (l : LocationId) : List StoredReview :=
  reviews.filter fun r => decide (r.locationId = l ∧ r.moderationState = .active)

/-- `created_at DESC, id DESC`. -/
def newest (r : StoredReview) : (ℤ ×ₗ ℤ)ᵒᵈ := OrderDual.toDual (toLex (r.createdAt, (r.id : ℤ)))

section Pages

variable (o : OrderBy newest) (names : UserId → Option String) (reviews : ReviewTable)
  (l : LocationId)

/-- `list_active`. -/
def listActive (afterId : Option ℤ) (limit : ℤ) : Option (List Review) :=
  let limit := (max 1 (min limit 200)).toNat
  let rows := (activeAt reviews l).filter fun r => decide (∀ after ∈ afterId, (r.id : ℤ) < after)
  ((o.sort rows).take limit).mapM (reviewFromRow names)

/-- A page of `list_active`, followed by its last identity. -/
def listPage (limit : ℤ) (afterId : Option ℤ) : Option (Page Review ℤ) := do
  let reviews ← listActive o names reviews l afterId limit
  pure ⟨reviews, reviews.getLast?.map fun r => (r.id : ℤ)⟩

/-- The reviews of `community_details_page`, with the link of the page they are shown on. -/
def detailsPage (limit : ℤ) (afterId : Option ℤ) : Option (Page Review ℤ) := do
  let pageLimit := max 1 (min limit 50)
  let reviews ← listActive o names reviews l afterId (pageLimit + 1)
  let hasMore := decide (pageLimit < reviews.length)
  let reviews := reviews.take pageLimit.toNat
  pure ⟨reviews, if hasMore then reviews.getLast?.map fun r => (r.id : ℤ) else none⟩

end Pages

def nextLink (page : Option (Page Review ℤ)) : Option ℤ := page.bind Page.next

def shownReviews : Option (Page Review ℤ) → List Review
  | some page => page.items
  | none => []

/-- A review as a page shows it. -/
def asShown (names : UserId → Option String) (r : StoredReview) : Review where
  id := r.id
  locationId := r.locationId
  author := r.authorId
  publicAuthorName := publicAuthorName names r
  rating := r.rating
  body := r.body.toReviewBody
  createdAt := r.createdAt
  updatedAt := r.updatedAt

/-- Following the last identities from the first page shows every active review once. -/
def Complete (names : UserId → Option String) (reviews : ReviewTable) (l : LocationId)
    (read : Option ℤ → Option (Page Review ℤ)) : Prop :=
  ∃ fuel pages, walk nextLink (fun _ => read) fuel 0 none = some pages ∧
    (pages.flatMap shownReviews).Perm ((activeAt reviews l).map (asShown names))

/-- The other reviews are older than `r` exactly when their identity is lower. -/
def Aligned (reviews : ReviewTable) (l : LocationId) (r : StoredReview) : Prop :=
  ∀ q ∈ activeAt reviews l, newest r < newest q ↔ q.id < r.id

/-- A page of `size` reviews ends with `r`, and another one is read after it; `ended` says of the
number of reviews left at the start of a page that it is the last. -/
def EndsAt (reviews : ReviewTable) (l : LocationId) (ended : ℕ → Bool) (size : ℕ)
    (r : StoredReview) : Prop :=
  EndsPage newest (activeAt reviews l) ended size (newest r)

/-- The reader of `list_active` goes on until a page is empty. -/
def listEnded (left : ℕ) : Bool := decide (left = 0)

def listSize (limit : ℤ) : ℕ := (max 1 (min limit 200)).toNat

/-- The page of a listing looks one review ahead. -/
def detailsEnded (size left : ℕ) : Bool := decide (left ≤ size)

def detailsSize (limit : ℤ) : ℕ := (max 1 (min limit 50)).toNat

section Reading

variable {names : UserId → Option String}

theorem starRating_new (rating : StarRating) : StarRating.new rating.value = some rating :=
  dif_pos rating.valid

theorem reviewBody_new (body : PostedBody) : ReviewBody.new body.text = some body.toReviewBody := by
  have valid : 1 ≤ (trim body.text).length ∧ (trim body.text).length ≤ 2000 := by
    rw [body.trimmed]
    exact body.valid
  rw [ReviewBody.new, dif_pos valid]
  congr
  exact body.trimmed

/-- A stored review is read without an error. -/
theorem reviewFromRow_eq (r : StoredReview) :
    reviewFromRow names r = some (asShown names r) := by
  rw [reviewFromRow, starRating_new, reviewBody_new]
  rfl

theorem mapM_reviewFromRow (rows : List StoredReview) :
    rows.mapM (reviewFromRow names) = some (rows.map (asShown names)) := by
  induction rows with
  | nil => rfl
  | cons r rows ih =>
    rw [List.mapM_cons, reviewFromRow_eq, ih]
    rfl

end Reading

section Walks

variable {o : OrderBy newest} {names : UserId → Option String} {reviews : ReviewTable}
  {l : LocationId}

/-- The cursor's column; a page goes on with lower identities. -/
def idColumn (r : StoredReview) : ℤᵒᵈ := OrderDual.toDual (r.id : ℤ)

theorem newest_distinct : ((activeAt reviews l).map newest).Nodup := by
  have ids : ((activeAt reviews l).map StoredReview.id).Nodup :=
    (List.filter_sublist.map StoredReview.id).nodup reviews.distinct
  rw [List.Nodup, List.pairwise_map] at ids ⊢
  refine ids.imp fun different same => different ?_
  have := congrArg (fun k => (ofLex (OrderDual.ofDual k)).2) same
  exact Int.ofNat_inj.mp this

theorem listActive_eq (afterId : Option ℤ) (limit : ℤ) :
    listActive o names reviews l afterId limit =
      some (((o.sort (remaining idColumn (activeAt reviews l)
        (afterId.map OrderDual.toDual))).take (listSize limit)).map (asShown names)) := by
  have rows : (activeAt reviews l).filter (fun r => decide (∀ after ∈ afterId, (r.id : ℤ) < after)) =
      remaining idColumn (activeAt reviews l) (afterId.map OrderDual.toDual) := by
    rw [remaining]
    apply List.filter_congr
    intro r _
    cases afterId with
    | none => rfl
    | some after =>
      apply decide_eq_decide.mpr
      simp only [Option.mem_some_iff, forall_eq', Option.map_some]
      exact OrderDual.toDual_lt_toDual.symm
  simp only [listActive]
  rw [rows, mapM_reviewFromRow]
  rfl

/-- A page of rows as the reader gets it. -/
def served (names : UserId → Option String) (page : Page StoredReview ℤᵒᵈ) :
    Option (Page Review ℤ) :=
  some ⟨page.items.map (asShown names), page.next.map OrderDual.ofDual⟩

theorem last_asShown (rows : List StoredReview) :
    ((rows.map (asShown names)).getLast?.map fun r => (r.id : ℤ)) =
      (rows.getLast?.map idColumn).map OrderDual.ofDual := by
  rw [List.getLast?_map, Option.map_map, Option.map_map]
  rfl

theorem same_link (after : Option ℤᵒᵈ) :
    after.map (OrderDual.toDual ∘ OrderDual.ofDual) = after := by
  cases after <;> rfl

theorem listPage_eq (limit : ℤ) (after : Option ℤᵒᵈ) :
    listPage o names reviews l limit (after.map OrderDual.ofDual) =
      served names (columnPage o idColumn (activeAt reviews l) listEnded (listSize limit) after) := by
  set left := o.sort (remaining idColumn (activeAt reviews l) after) with hleft
  have page : listPage o names reviews l limit (after.map OrderDual.ofDual) =
      some ⟨(left.take (listSize limit)).map (asShown names),
        ((left.take (listSize limit)).getLast?.map idColumn).map OrderDual.ofDual⟩ := by
    rw [listPage, listActive_eq, ← last_asShown, Option.map_map]
    rw [same_link]
    rfl
  rw [page, served, columnPage, ← hleft]
  by_cases none : left = []
  · simp [none]
  · have goes : listEnded left.length = false := by
      simpa [listEnded] using none
    simp only [goes, if_neg Bool.false_ne_true]

theorem detailsPage_eq (limit : ℤ) (after : Option ℤᵒᵈ) :
    detailsPage o names reviews l limit (after.map OrderDual.ofDual) =
      served names (columnPage o idColumn (activeAt reviews l) (detailsEnded (detailsSize limit))
        (detailsSize limit) after) := by
  set left := o.sort (remaining idColumn (activeAt reviews l) after) with hleft
  have ahead : listSize (max 1 (min limit 50) + 1) = detailsSize limit + 1 := by
    rw [listSize, detailsSize]
    omega
  have size : ((detailsSize limit : ℕ) : ℤ) = max 1 (min limit 50) := by
    rw [detailsSize]
    omega
  have cut : ((left.take (detailsSize limit + 1)).map (asShown names)).take (detailsSize limit) =
      (left.take (detailsSize limit)).map (asShown names) := by
    rw [← List.map_take, List.take_take, Nat.min_eq_left (Nat.le_succ _)]
  have more : (max 1 (min limit 50) <
      ((left.take (detailsSize limit + 1)).map (asShown names)).length) ↔
        ¬ left.length ≤ detailsSize limit := by
    rw [← size, List.length_map, List.length_take]
    omega
  have found : listActive o names reviews l (after.map OrderDual.ofDual)
      (max 1 (min limit 50) + 1) =
        some ((left.take (detailsSize limit + 1)).map (asShown names)) := by
    rw [listActive_eq, Option.map_map, same_link, ahead]
  rw [detailsPage, found, served, columnPage, ← hleft]
  simp only [Option.bind_eq_bind, Option.bind_some, ← size, Int.toNat_natCast, cut, last_asShown]
  by_cases stopped : left.length ≤ detailsSize limit
  · simp [detailsEnded, stopped]
  · simp [detailsEnded, stopped]

variable {ended : ℕ → Bool} {size : ℕ} {read : Option ℤ → Option (Page Review ℤ)}

/-- Pages of rows decide whether the pages of a reader are complete. -/
theorem complete_iff (serves : ∀ after : Option ℤᵒᵈ, read (after.map OrderDual.ofDual) =
      served names (columnPage o idColumn (activeAt reviews l) ended size after)) :
    Complete names reviews l read ↔ ∃ fuel pages,
      columnWalk o idColumn (activeAt reviews l) ended size fuel 0 none = some pages ∧
        (pages.flatMap Page.items).Perm (activeAt reviews l) := by
  have links : ∀ page : Page StoredReview ℤᵒᵈ,
      nextLink (served names page) = page.next.map OrderDual.ofDual := fun _ => rfl
  have walks : ∀ fuel, walk nextLink (fun _ => read) fuel 0 none =
      (columnWalk o idColumn (activeAt reviews l) ended size fuel 0 none).map
        (List.map (served names)) := fun fuel =>
    walk_map (served names) OrderDual.ofDual links (fun _ => serves) fuel 0 none
  have items : ∀ pages : List (Page StoredReview ℤᵒᵈ),
      (pages.map (served names)).flatMap shownReviews =
        (pages.flatMap Page.items).map (asShown names) := by
    intro pages
    rw [List.flatMap_map, List.map_flatMap]
    rfl
  constructor
  · rintro ⟨fuel, _, walked, all⟩
    rw [walks] at walked
    obtain ⟨pages, result, rfl⟩ := Option.map_eq_some_iff.mp walked
    refine ⟨fuel, pages, result, ?_⟩
    rw [items] at all
    have ids := all.map Review.id
    rw [List.map_map, List.map_map] at ids
    refine Table.perm_of_keys reviews ?_ ?_ ids
    · intro r hr
      exact (Table.mem_filter.mp (mem_remaining.mp (shown_remaining result r hr)).1).1
    · intro r hr
      exact (Table.mem_filter.mp hr).1
  · rintro ⟨fuel, pages, result, all⟩
    refine ⟨fuel, pages.map (served names), ?_, ?_⟩
    · rw [walks, result, Option.map_some]
    · rw [items]
      exact all.map _

theorem parts_iff (r : StoredReview) :
    Parts newest idColumn (activeAt reviews l) r ↔ Aligned reviews l r := by
  refine forall₂_congr fun q _ => iff_congr Iff.rfl ?_
  exact OrderDual.toDual_lt_toDual.trans Int.ofNat_lt

theorem list_complete_iff (limit : ℤ) : Complete names reviews l (listPage o names reviews l limit) ↔
    ∀ r ∈ activeAt reviews l, EndsAt reviews l listEnded (listSize limit) r →
      Aligned reviews l r := by
  have positive : 0 < listSize limit := by
    rw [listSize]
    omega
  have stops : ∀ n, listEnded n = true → n ≤ listSize limit := by
    intro n ended
    have : n = 0 := of_decide_eq_true ended
    omega
  rw [complete_iff (listPage_eq limit), columnWalk_complete_iff newest_distinct positive stops]
  exact forall₃_congr fun r _ _ => parts_iff r

theorem details_complete_iff (limit : ℤ) :
    Complete names reviews l (detailsPage o names reviews l limit) ↔
      ∀ r ∈ activeAt reviews l,
        EndsAt reviews l (detailsEnded (detailsSize limit)) (detailsSize limit) r →
          Aligned reviews l r := by
  have positive : 0 < detailsSize limit := by
    rw [detailsSize]
    omega
  have stops : ∀ n, detailsEnded (detailsSize limit) n = true → n ≤ detailsSize limit :=
    fun n ended => of_decide_eq_true ended
  rw [complete_iff (detailsPage_eq limit), columnWalk_complete_iff newest_distinct positive stops]
  exact forall₃_congr fun r _ _ => parts_iff r

end Walks

/-- Whatever the writers did, the pages of a listing are complete exactly when every review that
ends a page, after which another is read, has lower identities among the older reviews only. -/
theorem review_pages_complete_iff (o : OrderBy newest) (names : UserId → Option String)
    (events : List Event) (l : LocationId) (limit : ℤ) :
    (Complete names (run events).reviews l (listPage o names (run events).reviews l limit) ↔
      ∀ r ∈ activeAt (run events).reviews l,
        EndsAt (run events).reviews l listEnded (listSize limit) r →
          Aligned (run events).reviews l r) ∧
    (Complete names (run events).reviews l (detailsPage o names (run events).reviews l limit) ↔
      ∀ r ∈ activeAt (run events).reviews l,
        EndsAt (run events).reviews l (detailsEnded (detailsSize limit)) (detailsSize limit) r →
          Aligned (run events).reviews l r) :=
  ⟨list_complete_iff limit, details_complete_iff limit⟩

section Overtaken

def posted : PostedBody := ⟨⟨"Sturdy racks", by decide⟩, by decide⟩

def firstReview : Upsert := ⟨4, 7, ⟨4, StarRating.four⟩, posted⟩

def secondReview : Upsert := ⟨4, 8, ⟨5, StarRating.five⟩, posted⟩

/-- The second writer begins a moment later, and gets the lock of the listing first. -/
def overtaken : List Event :=
  [.begin 1 firstReview, .tick 1000, .begin 2 secondReview,
    .lockLocation 2, .lockAuthor 2 false, .upsert 2, .commit 2,
    .lockLocation 1, .lockAuthor 1 false, .upsert 1, .commit 1]

/-- The review of the second writer: the newer one, with the lower identity. -/
def overtaker : StoredReview := ⟨1, 4, some 8, ⟨5, StarRating.five⟩, posted, false, .active, 1000, 1000⟩

/-- The review of the first writer. -/
def waiter : StoredReview := ⟨2, 4, some 7, ⟨4, StarRating.four⟩, posted, false, .active, 0, 0⟩

theorem overtaken_reviews : activeAt (run overtaken).reviews 4 = [overtaker, waiter] := by decide

theorem overtaker_not_aligned : ¬ Aligned (run overtaken).reviews 4 overtaker := by
  rw [Aligned, overtaken_reviews]
  decide

/-- With one review a page, the one with the higher identity is on no page. -/
theorem overtaken_review_lost : ∃ (events : List Event) (l : LocationId) (limit : ℤ),
    ¬ Complete (fun _ => none) (run events).reviews l
      (listPage (stable newest) (fun _ => none) (run events).reviews l limit) ∧
    ¬ Complete (fun _ => none) (run events).reviews l
      (detailsPage (stable newest) (fun _ => none) (run events).reviews l limit) := by
  have member : overtaker ∈ activeAt (run overtaken).reviews 4 := by
    rw [overtaken_reviews]
    exact List.mem_cons_self
  refine ⟨overtaken, 4, 1, ?_, ?_⟩
  · rw [list_complete_iff]
    intro aligned
    refine overtaker_not_aligned (aligned overtaker member ?_)
    rw [EndsAt, EndsPage, overtaken_reviews]
    decide
  · rw [details_complete_iff]
    intro aligned
    refine overtaker_not_aligned (aligned overtaker member ?_)
    rw [EndsAt, EndsPage, overtaken_reviews]
    decide

end Overtaken

end ReviewPages
