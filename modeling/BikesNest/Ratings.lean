import BikesNest.Effects
import BikesNest.Reviews

/-! The rating columns of a location against its active reviews, over every interleaving of
the review transactions. What carries the proof is the location's lock: whoever changes a
review's rating or state holds it from before the change until the aggregate is committed. -/

namespace Ratings

open Parking Proposal Schema Publishing Contribution Accounts Operations Effects
open ReadCommitted RowLocks Rounding Reviews

/-- What a review contributes to an aggregate; its author and its text do not matter. -/
@[ext] structure Facts where
  id : ℕ
  locationId : LocationId
  rating : ℕ
  state : ReviewState
  deriving DecidableEq

def factsOf (r : ReviewRow) : Facts := ⟨r.id, r.locationId, r.rating, r.moderationState⟩

def allFacts (s : Store) : List Facts := s.reviews.rows.map factsOf

def factsAt (s : Store) (l : LocationId) : List Facts :=
  (allFacts s).filter fun f => decide (f.locationId = l)

/-- The rating columns of a location. -/
def ratingColumns (s : Store) (l : LocationId) : Option (Option ℕ × ℕ) :=
  (s.locations.find l).map fun r => (r.ratingAvg, r.ratingCount)

theorem activeRatings_eq (s : Store) (l : LocationId) :
    activeRatings s l =
      ((factsAt s l).filter fun f => decide (f.state = .active)).map Facts.rating := by
  simp only [activeRatings, factsAt, allFacts, Table.filter, List.filter_map, List.filter_filter,
    List.map_map]
  congr 1
  refine List.filter_congr fun r _ => ?_
  by_cases hl : r.locationId = l <;> simp [factsOf, hl]

theorem activeRatings_congr {s t : Store} {l : LocationId} (h : factsAt t l = factsAt s l) :
    activeRatings t l = activeRatings s l := by
  rw [activeRatings_eq, activeRatings_eq, h]

theorem factsAt_congr {s t : Store} (h : allFacts t = allFacts s) (l : LocationId) :
    factsAt t l = factsAt s l := by
  rw [factsAt, factsAt, h]

theorem find_facts (s : Store) (n : ℕ) :
    (s.reviews.find n).map factsOf = (allFacts s).find? fun f => decide (f.id = n) := by
  simp only [allFacts, List.find?_map]
  rfl

theorem find_facts_congr {s t : Store} (h : allFacts t = allFacts s) (n : ℕ) :
    (t.reviews.find n).map factsOf = (s.reviews.find n).map factsOf := by
  rw [find_facts, find_facts, h]

/-- Every review has its location, and every location the aggregate of its reviews. -/
structure Rated (s : Store) : Prop where
  located : ∀ r ∈ s.reviews, (s.locations.find r.locationId).isSome
  aggregated : ∀ l c, ratingColumns s l = some c →
    c = (averageHundredths (activeRatings s l), (activeRatings s l).length)
  counted : ∀ l, (activeRatings s l).length ≤ maxInteger

theorem initial_rated : Rated Schema.empty := by
  refine ⟨?_, ?_, ?_⟩
  · intro r hr
    exact absurd hr (Table.not_mem_empty r)
  · intro l c hc
    cases hc
  · intro l
    exact Nat.zero_le _

/-- Reviews stay, at their location. -/
def Evolves (s t : Store) : Prop :=
  ∀ n r, s.reviews.find n = some r → ∃ q, t.reviews.find n = some q ∧ q.locationId = r.locationId

/-- A location's lock protects its reviews and its aggregate, a review's lock the review. -/
def Keeps (k : Lock) (s t : Store) : Prop :=
  match k with
  | .location l => factsAt t l = factsAt s l ∧ ratingColumns t l = ratingColumns s l
  | .review n => (t.reviews.find n).map factsOf = (s.reviews.find n).map factsOf
  | _ => True

theorem evolves_of_facts {s t : Store}
    (h : ∀ n, (t.reviews.find n).map factsOf = (s.reviews.find n).map factsOf) :
    Evolves s t := by
  intro n r hr
  have hn := h n
  rw [hr, Option.map_some, Option.map_eq_some_iff] at hn
  obtain ⟨q, hq, hf⟩ := hn
  exact ⟨q, hq, congrArg Facts.locationId hf⟩

/-! What the other operations do: reviews keep their facts, and a rating column is the one it
was or that of a new location. -/

section Atomic

variable {env : Env} {s t : Store}

theorem columns_kept (h : Kept s t) (l : LocationId) :
    ratingColumns t l = ratingColumns s l := by
  obtain ⟨forget, hf⟩ := h.location l
  rw [ratingColumns, ratingColumns, hf, Option.map_map]
  rfl

theorem columns_rewrites {row old : LocationRow} {snapshot : Json}
    (h : Rewrites s t row snapshot) (found : s.locations.find row.id = some old)
    (same : (row.ratingAvg, row.ratingCount) = (old.ratingAvg, old.ratingCount))
    (l : LocationId) : ratingColumns t l = ratingColumns s l := by
  rw [ratingColumns, ratingColumns, h.location]
  by_cases hl : l = row.id
  · rw [if_pos hl, hl, found, Option.map_some, Option.map_some, same]
  · rw [if_neg hl]

theorem changedRow_rating {loc row : LocationRow} {applied : ProposalApplication}
    (h : changedRow loc applied = some row) :
    (row.ratingAvg, row.ratingCount) = (loc.ratingAvg, loc.ratingCount) := by
  cases applied with
  | editDetails edit =>
    simp only [changedRow, Option.ite_none_right_eq_some, Option.some.injEq] at h
    rw [← h.2]
  | moveLocation lat lon timezone => simp only [changedRow, Option.some.injEq] at h; rw [← h]
  | changeExistence present => simp only [changedRow, Option.some.injEq] at h; rw [← h]

theorem columns_published {id : ProposalId} {moderator : UserId} {applied : ProposalApplication}
    {prop : ProposalRow} {loc row : LocationRow} {parts : Store}
    (h : Published env s t id moderator applied prop loc row parts) (l : LocationId) :
    ratingColumns t l = ratingColumns s l := by
  refine columns_rewrites (published_rewrites h) ?_ (changedRow_rating h.changed) l
  rw [changedRow_id h.changed, h.location_id]
  exact h.located

/-- A rating column changes only where a location is new. -/
theorem columns_perform {op : Op} (h : perform env s op = .ok t) (l : LocationId) :
    ratingColumns t l = ratingColumns s l ∨
      (s.locations.find l = none ∧ .location l ∈ touches s op ∧
        ratingColumns t l = some (none, 0)) := by
  cases perform_effect h with
  | kept hk => exact .inl (columns_kept hk l)
  | created tz parts hc =>
    rename_i id new creator
    have location := (created_rewrites hc).location l
    by_cases hl : l = (newRow id new tz creator).id
    · rw [if_pos hl] at location
      refine .inr ⟨?_, by simp [touches, hl, newRow], by rw [ratingColumns, location]; rfl⟩
      rw [hl]
      exact (Table.insert_eq_some.mp hc.inserted).1
    · rw [if_neg hl] at location
      exact .inl (by rw [ratingColumns, ratingColumns, location])
  | edited loc row point tz parts he =>
    have hid := changedRow_id he.changed
    refine .inl (columns_rewrites (edited_rewrites he) ?_ (changedRow_rating he.changed) l)
    rw [hid, (Table.find_eq_some.mp he.found).2]
    exact he.found
  | moderated old hm =>
    have found : s.locations.find old.id = some old := by
      rw [(Table.find_eq_some.mp hm.found).2]
      exact hm.found
    exact .inl (columns_rewrites (moderated_rewrites hm) found rfl l)
  | approved prop loc row parts hp => exact .inl (columns_published hp l)
  | voted applied prop loc row parts merged hp => exact .inl (columns_published hp l)

theorem facts_scrub (s : Store) (u : UserId) : allFacts (scrub s u) = allFacts s := by
  simp only [allFacts, scrub, Table.update, List.map_map]
  refine List.map_congr_left fun r _ => ?_
  by_cases hr : r.authorId = some u <;> simp [factsOf, hr]

/-- No operation of the other repositories changes what a review contributes. -/
theorem facts_perform {op : Op} (h : perform env s op = .ok t) : allFacts t = allFacts s := by
  rcases reviews_perform h with same | ⟨id, -, rfl⟩
  · rw [allFacts, allFacts, same]
  · exact facts_scrub s id

theorem rated_of_same (hs : Rated s) (facts : allFacts t = allFacts s)
    (columns : ∀ l, ratingColumns t l = ratingColumns s l ∨
      (s.locations.find l = none ∧ ratingColumns t l = some (none, 0))) : Rated t := by
  have ratings : ∀ l, activeRatings t l = activeRatings s l := fun l =>
    activeRatings_congr (factsAt_congr facts l)
  refine ⟨?_, ?_, ?_⟩
  · intro r hr
    have hfact : factsOf r ∈ allFacts s := facts ▸ List.mem_map_of_mem hr
    obtain ⟨q, hq, hf⟩ := List.mem_map.mp hfact
    have hsome := hs.located q hq
    have hl : q.locationId = r.locationId := congrArg Facts.locationId hf
    rw [hl] at hsome
    rcases columns r.locationId with hc | ⟨hn, -⟩
    · have := congrArg Option.isSome hc
      simp only [ratingColumns, Option.isSome_map] at this
      rw [this]
      exact hsome
    · rw [hn] at hsome
      cases hsome
  · intro l c hc
    rw [ratings]
    rcases columns l with hsame | ⟨hn, hnew⟩
    · exact hs.aggregated l c (hsame ▸ hc)
    · -- a new location has no reviews yet
      have none : activeRatings s l = [] := by
        simp only [activeRatings, Table.filter, List.map_eq_nil_iff, List.filter_eq_nil_iff]
        intro r hr hl
        simp only [decide_eq_true_eq] at hl
        have := hs.located r hr
        rw [hl.1, hn] at this
        cases this
      rw [none]
      rw [hnew] at hc
      exact (Option.some.inj hc).symm
  · intro l
    rw [ratings]
    exact hs.counted l

theorem atomic_rated (env : Env) (hs : Rated s) (op : Op) :
    Rated (exec env s op) ∧ Evolves s (exec env s op) ∧
      ∀ k, k ∉ touches s op → Keeps k s (exec env s op) := by
  cases hp : perform env s op with
  | error e =>
    rw [exec_error hp]
    refine ⟨hs, evolves_of_facts fun _ => rfl, fun k _ => ?_⟩
    cases k <;> simp [Keeps]
  | ok t =>
    rw [exec_ok hp]
    have facts := facts_perform hp
    have columns := columns_perform hp
    refine ⟨rated_of_same hs facts fun l => ?_, evolves_of_facts (find_facts_congr facts),
      fun k hk => ?_⟩
    · exact (columns l).imp id fun h => ⟨h.1, h.2.2⟩
    · cases k with
      | location l =>
        refine ⟨factsAt_congr facts l, (columns l).resolve_right fun h => hk h.2.1⟩
      | review n => exact find_facts_congr facts n
      | proposal | vote | user => trivial

end Atomic

/-! The one review a transaction writes: a new row, or a change that leaves its location. -/

inductive Write where
  | insert (row : ReviewRow)
  | change (id : ℕ) (f : ReviewRow → ReviewRow) (g : Facts → Facts)
      (hid : ∀ r, (f r).id = r.id) (hlocation : ∀ r, (f r).locationId = r.locationId)
      (hfacts : ∀ r, factsOf (f r) = g (factsOf r))

namespace Write

def id : Write → ℕ
  | insert row => row.id
  | change id _ _ _ _ _ => id

def apply : Write → Store → Store
  | insert row => insertReview row
  | change id f _ hid _ _ => changeReview id f hid

/-- The review belongs to `l`, and a new one is free to be inserted. -/
def Targets (w : Write) (l : LocationId) (s : Store) : Prop :=
  match w with
  | insert row => row.locationId = l ∧ s.reviews.find row.id = none
  | change id _ _ _ _ _ => ∃ r, s.reviews.find id = some r ∧ r.locationId = l

/-- What the write does to the facts of its location. -/
def onFacts : Write → List Facts → List Facts
  | insert row, facts => facts ++ [factsOf row]
  | change id _ g _ _ _, facts => facts.map fun a => if a.id = id then g a else a

@[simp] theorem apply_locations (w : Write) (s : Store) : (w.apply s).locations = s.locations := by
  cases w <;> rfl

variable {w : Write} {l : LocationId} {s t : Store}

theorem rows_insert {row : ReviewRow} (free : s.reviews.find row.id = none) :
    (insertReview row s).reviews.rows = s.reviews.rows ++ [row] := by
  obtain ⟨u, hu⟩ := Table.insert_isSome.mpr free
  simp only [insertReview, hu, Option.getD_some]
  exact (Table.insert_eq_some.mp hu).2

theorem factsAt_change {id : ℕ} {f : ReviewRow → ReviewRow} {g : Facts → Facts}
    (hid : ∀ r, (f r).id = r.id) (hlocation : ∀ r, (f r).locationId = r.locationId)
    (hfacts : ∀ r, factsOf (f r) = g (factsOf r)) (l : LocationId) :
    factsAt (changeReview id f hid s) l =
      (factsAt s l).map fun a => if a.id = id then g a else a := by
  simp only [factsAt, allFacts, changeReview, Table.update, List.filter_map, List.map_map]
  have kept : s.reviews.rows.filter ((fun a => decide (a.locationId = l)) ∘ factsOf ∘
      fun r => if decide (r.id = id) = true then f r else r) =
      s.reviews.rows.filter ((fun a => decide (a.locationId = l)) ∘ factsOf) := by
    refine List.filter_congr fun r _ => ?_
    by_cases hr : r.id = id
    · simp [hr, factsOf, hlocation]
    · simp only [Function.comp_apply, hr, decide_false, Bool.false_eq_true, if_false]
  rw [kept]
  refine List.map_congr_left fun r _ => ?_
  by_cases hr : r.id = id
  · have : (factsOf r).id = id := hr
    simp [hr, this, hfacts]
  · have : (factsOf r).id ≠ id := hr
    simp [hr, this]

theorem factsAt_target (h : w.Targets l s) : factsAt (w.apply s) l = w.onFacts (factsAt s l) := by
  cases w with
  | insert row =>
    simp only [apply, onFacts, factsAt, allFacts, rows_insert h.2, List.map_append,
      List.map_cons, List.map_nil, List.filter_append]
    congr 1
    simp [factsOf, h.1]
  | change id f g hid hlocation hfacts => exact factsAt_change hid hlocation hfacts l

theorem factsAt_other (h : w.Targets l s) {l' : LocationId} (hl : l' ≠ l) :
    factsAt (w.apply s) l' = factsAt s l' := by
  cases w with
  | insert row =>
    have other : (factsOf row).locationId ≠ l' := fun he => hl (he.symm.trans h.1)
    simp only [apply, factsAt, allFacts, rows_insert h.2, List.map_append, List.map_cons,
      List.map_nil, List.filter_append]
    simp [other]
  | change id f g hid hlocation hfacts =>
    rw [apply, factsAt_change hid hlocation hfacts l']
    obtain ⟨r, hr, hloc⟩ := h
    -- the changed review is the only one with its identity, and it is at `l`
    have absent : ∀ a ∈ factsAt s l', a.id ≠ id := by
      intro a ha hai
      simp only [factsAt, allFacts, List.mem_filter, List.mem_map, decide_eq_true_eq] at ha
      obtain ⟨⟨q, hq, rfl⟩, hql⟩ := ha
      have hfind : s.reviews.find id = some q := Table.find_eq_some.mpr ⟨hq, hai⟩
      obtain rfl : r = q := Option.some.inj (hr.symm.trans hfind)
      exact hl (hql.symm.trans hloc)
    conv_rhs => rw [← List.map_id (factsAt s l')]
    refine List.map_congr_left fun a ha => ?_
    simp [absent a ha]

theorem find_other {n : ℕ} (hn : n ≠ w.id) (h : w.Targets l s) :
    (w.apply s).reviews.find n = s.reviews.find n := by
  cases w with
  | insert row =>
    obtain ⟨u, hu⟩ := Table.insert_isSome.mpr h.2
    simp only [apply, insertReview, hu, Option.getD_some, Table.find_insert hu]
    exact if_neg fun he => hn he.symm
  | change id f g hid hlocation hfacts =>
    simp only [apply, changeReview, Table.find_update, decide_eq_true_eq]
    cases hq : s.reviews.find n with
    | none => rfl
    | some r =>
      have hr : r.id ≠ id := by
        rw [(Table.find_eq_some.mp hq).2]
        exact hn
      simp [hr]

theorem evolves (h : w.Targets l s) : Evolves s (w.apply s) := by
  intro n r hr
  by_cases hn : n = w.id
  · cases w with
    | insert row =>
      have hfree : s.reviews.find row.id = none := h.2
      rw [show n = row.id from hn, hfree] at hr
      cases hr
    | change id f g hid hlocation hfacts =>
      have hid' : r.id = id := (Table.find_eq_some.mp hr).2.trans hn
      refine ⟨f r, ?_, hlocation r⟩
      simp [apply, changeReview, hr, hid']
  · exact ⟨r, (find_other hn h).trans hr, rfl⟩

theorem located (h : w.Targets l s) (known : (s.locations.find l).isSome) (hs : Rated s) :
    ∀ r ∈ (w.apply s).reviews, (s.locations.find r.locationId).isSome := by
  intro r hr
  cases w with
  | insert row =>
    have hrows : r ∈ (insertReview row s).reviews.rows := hr
    rw [rows_insert h.2] at hrows
    rcases List.mem_append.mp hrows with hr | hr
    · exact hs.located r hr
    · obtain rfl := List.mem_singleton.mp hr
      rw [h.1]
      exact known
  | change id f g hid hlocation hfacts =>
    simp only [apply, changeReview, Table.mem_update] at hr
    obtain ⟨q, hq, rfl⟩ := hr
    have hsome := hs.located q hq
    split
    · rw [hlocation]
      exact hsome
    · exact hsome

end Write

abbrev ReviewTxn := Txn Store Lock ℕ Phase

/-- Writes that no aggregate sees, whatever they are laid over. -/
def Harmless (write : Store → Store) : Prop :=
  ∀ s, allFacts (write s) = allFacts s ∧ ∀ l, ratingColumns (write s) l = ratingColumns s l

/-- The transaction writes one review of `l`, under the locks of both. -/
structure Writing (x : ReviewTxn) (s : Store) (w : Write) (l : LocationId) : Prop where
  location : .location l ∈ x.held
  review : .review w.id ∈ x.held
  known : (s.locations.find l).isSome
  targets : w.Targets l s

/-- What each phase may assume of its own writes and of the committed store. -/
def Assertion (x : ReviewTxn) (s : Store) : Prop :=
  match x.phase with
  | .lockLocation _ | .readReview _ _ _ | .scrubAccount _ => x.Untouched
  | .lockAuthor d | .upsert d _ =>
    x.Untouched ∧ .location d.locationId ∈ x.held ∧ (s.locations.find d.locationId).isSome
  | .lockReviewed id _ _ l => x.Untouched ∧ ∃ r, s.reviews.find id = some r ∧ r.locationId = l
  | .flip id _ _ l =>
    x.Untouched ∧ .location l ∈ x.held ∧ ∃ r, s.reviews.find id = some r ∧ r.locationId = l
  | .recompute l => ∃ w, Writing x s w l ∧ x.pending = w.apply
  | .rated => ∃ w l ratings, Writing x s w l ∧ RatingFits ratings ∧
      activeRatings (w.apply s) l = ratings ∧ x.pending = fun s => setRating l ratings (w.apply s)
  | .scrubReviews _ | .scrubLocations _ | .scrubbed => Harmless x.pending

theorem known_of_keeps {s t : Store} {l : LocationId} (h : Keeps (.location l) s t)
    (known : (s.locations.find l).isSome) : (t.locations.find l).isSome := by
  have := congrArg Option.isSome h.2
  simp only [ratingColumns, Option.isSome_map] at this
  rw [this]
  exact known

theorem reviewed_of_evolves {s t : Store} {id : ℕ} {l : LocationId} (h : Evolves s t)
    (found : ∃ r, s.reviews.find id = some r ∧ r.locationId = l) :
    ∃ r, t.reviews.find id = some r ∧ r.locationId = l := by
  obtain ⟨r, hr, hl⟩ := found
  obtain ⟨q, hq, hql⟩ := h id r hr
  exact ⟨q, hq, hql.trans hl⟩

theorem Writing.stable {x : ReviewTxn} {s t : Store} {w : Write} {l : LocationId}
    (h : Writing x s w l) (evolves : Evolves s t) (keeps : ∀ k ∈ x.held, Keeps k s t) :
    Writing x t w l := by
  refine ⟨h.location, h.review, known_of_keeps (keeps _ h.location) h.known, ?_⟩
  have targets := h.targets
  cases w with
  | insert row =>
    refine ⟨targets.1, ?_⟩
    have same : (t.reviews.find row.id).map factsOf = (s.reviews.find row.id).map factsOf :=
      keeps _ h.review
    rw [targets.2] at same
    simpa using same
  | change id f g hid hlocation hfacts => exact reviewed_of_evolves evolves targets

theorem stable {s t : Store} {x : ReviewTxn} (h : Assertion x s) (evolves : Evolves s t)
    (keeps : ∀ k ∈ x.held, Keeps k s t) : Assertion x t := by
  unfold Assertion at h ⊢
  split at h
  · exact h
  · exact h
  · exact h
  · exact ⟨h.1, h.2.1, known_of_keeps (keeps _ h.2.1) h.2.2⟩
  · exact ⟨h.1, h.2.1, known_of_keeps (keeps _ h.2.1) h.2.2⟩
  · exact ⟨h.1, reviewed_of_evolves evolves h.2⟩
  · exact ⟨h.1, h.2.1, reviewed_of_evolves evolves h.2.2⟩
  · obtain ⟨w, hw, hp⟩ := h
    exact ⟨w, hw.stable evolves keeps, hp⟩
  · obtain ⟨w, l, ratings, hw, hfits, hratings, hp⟩ := h
    have hw' := hw.stable evolves keeps
    refine ⟨w, l, ratings, hw', hfits, ?_, hp⟩
    rw [← hratings]
    refine activeRatings_congr ?_
    rw [Write.factsAt_target hw'.targets, Write.factsAt_target hw.targets,
      (keeps _ hw.location).1]
  · exact h
  · exact h
  · exact h

/-- The aggregate is committed together with the review it was computed from. -/
theorem commit_rated {s : Store} {x : ReviewTxn} {w : Write} {l : LocationId}
    {ratings : List ℕ} (hs : Rated s) (hw : Writing x s w l) (hfits : RatingFits ratings)
    (hratings : activeRatings (w.apply s) l = ratings) :
    Rated (setRating l ratings (w.apply s)) ∧ Evolves s (setRating l ratings (w.apply s)) ∧
      ∀ k, k ∉ x.held → Keeps k s (setRating l ratings (w.apply s)) := by
  have columns : ∀ l', l' ≠ l →
      ratingColumns (setRating l ratings (w.apply s)) l' = ratingColumns s l' := by
    intro l' hl
    simp only [ratingColumns, setRating, Table.find_update, Write.apply_locations]
    cases hr : s.locations.find l' with
    | none => rfl
    | some r =>
      have hne : r.id ≠ l := by
        rw [(Table.find_eq_some.mp hr).2]
        exact hl
      simp [hne]
  have facts : ∀ l', factsAt (setRating l ratings (w.apply s)) l' = factsAt (w.apply s) l' :=
    fun _ => rfl
  have others : ∀ l', l' ≠ l → activeRatings (setRating l ratings (w.apply s)) l' =
      activeRatings s l' := fun l' hl =>
    activeRatings_congr ((facts l').trans (Write.factsAt_other hw.targets hl))
  have own : activeRatings (setRating l ratings (w.apply s)) l = ratings :=
    (activeRatings_congr (facts l)).trans hratings
  refine ⟨⟨?_, ?_, ?_⟩, Write.evolves hw.targets, ?_⟩
  · intro r hr
    have := Write.located hw.targets hw.known hs r hr
    simpa [setRating] using this
  · intro l' c hc
    by_cases hl : l' = l
    · subst hl
      rw [own]
      obtain ⟨row, hrow⟩ := Option.isSome_iff_exists.mp hw.known
      simp only [ratingColumns, setRating, Table.find_update, Write.apply_locations, hrow,
        (Table.find_eq_some.mp hrow).2, Option.map_some, decide_true, if_true,
        Option.some.injEq] at hc
      exact hc.symm
    · rw [others l' hl]
      exact hs.aggregated l' c (columns l' hl ▸ hc)
  · intro l'
    by_cases hl : l' = l
    · subst hl
      rw [own]
      exact hfits.1
    · rw [others l' hl]
      exact hs.counted l'
  · intro k hk
    cases k with
    | location l' =>
      have hl : l' ≠ l := fun he => hk (he ▸ hw.location)
      exact ⟨(facts l').trans (Write.factsAt_other hw.targets hl), columns l' hl⟩
    | review n =>
      have hn : n ≠ w.id := fun he => hk (he ▸ hw.review)
      exact congrArg (Option.map factsOf) (Write.find_other hn hw.targets)
    | proposal | vote | user => trivial

theorem commit_harmless {s : Store} {write : Store → Store} (hs : Rated s)
    (h : Harmless write) :
    Rated (write s) ∧ Evolves s (write s) ∧ ∀ k, Keeps k s (write s) := by
  obtain ⟨facts, columns⟩ := h s
  refine ⟨rated_of_same hs facts fun l => .inl (columns l),
    evolves_of_facts (find_facts_congr facts), fun k => ?_⟩
  cases k with
  | location l => exact ⟨factsAt_congr facts l, columns l⟩
  | review n => exact find_facts_congr facts n
  | proposal | vote | user => trivial

theorem upsert_proceed {d : Draft} {publicAuthor : Bool} {s : Store} {x : ReviewTxn}
    {next : Phase} {locks : List Lock} {write : Store → Store}
    (h : upsertStatement d publicAuthor s = ⟨locks, .proceed next write⟩)
    (fresh : x.Untouched) (held : .location d.locationId ∈ x.held)
    (known : (s.locations.find d.locationId).isSome) :
    Assertion (x.step locks next write) s := by
  unfold upsertStatement at h
  split at h
  · split at h
    · rename_i r hr
      obtain ⟨rfl, rfl, rfl⟩ := Statement.proceed_inj h
      have hmem := List.mem_of_mem_head? hr
      simp only [Table.mem_filter, decide_eq_true_eq] at hmem
      refine ⟨.change r.id (fun q => { q with rating := d.rating.value, body := d.body.text })
        (fun a => { a with rating := d.rating.value }) (fun _ => rfl) (fun _ => rfl)
        (fun _ => rfl), ⟨?_, ?_, known, ?_⟩, ?_⟩
      · exact List.mem_append_right _ held
      · exact List.mem_append_left _ (List.mem_singleton.mpr rfl)
      · exact ⟨r, Table.find_of_mem hmem.1, hmem.2.1⟩
      · exact fresh.step _ _ _
    · split at h
      · rename_i hfree
        obtain ⟨rfl, rfl, rfl⟩ := Statement.proceed_inj h
        refine ⟨.insert ⟨d.id, d.locationId, some d.author, d.rating.value, d.body.text,
          publicAuthor, .active⟩, ⟨?_, ?_, known, ⟨rfl, hfree⟩⟩, ?_⟩
        · exact List.mem_append_right _ held
        · exact List.mem_append_left _ (List.mem_singleton.mpr rfl)
        · exact fresh.step _ _ _
      · exact absurd h Statement.abort_ne_proceed
  · exact absurd h Statement.abort_ne_proceed

theorem flip_proceed {id : ℕ} {source target : ReviewState} {l : LocationId} {s : Store}
    {x : ReviewTxn} {next : Phase} {locks : List Lock} {write : Store → Store}
    (h : flipStatement id source target l s = ⟨locks, .proceed next write⟩) (hs : Rated s)
    (fresh : x.Untouched) (held : .location l ∈ x.held)
    (reviewed : ∃ r, s.reviews.find id = some r ∧ r.locationId = l) :
    Assertion (x.step locks next write) s := by
  simp only [flipStatement, Statement.mk.injEq] at h
  obtain ⟨rfl, h⟩ := h
  split at h
  · simp only [Action.proceed.injEq] at h
    obtain ⟨rfl, rfl⟩ := h
    obtain ⟨r, hr, rfl⟩ := reviewed
    refine ⟨.change id (fun q => { q with moderationState := target })
      (fun a => { a with state := target }) (fun _ => rfl) (fun _ => rfl) (fun _ => rfl),
      ⟨?_, ?_, hs.located r (Table.find_eq_some.mp hr).1, ⟨r, hr, rfl⟩⟩, ?_⟩
    · exact List.mem_append_right _ held
    · exact List.mem_append_left _ (List.mem_singleton.mpr rfl)
    · exact fresh.step _ _ _
  · cases h

theorem recompute_proceed {l : LocationId} {s : Store} {x : ReviewTxn} {w : Write}
    {next : Phase} {locks : List Lock} {write : Store → Store}
    (h : recomputeStatement l (w.apply s) = ⟨locks, .proceed next write⟩)
    (hw : Writing x s w l) (hp : x.pending = w.apply) :
    Assertion (x.step locks next write) s := by
  simp only [recomputeStatement, Statement.mk.injEq] at h
  obtain ⟨rfl, h⟩ := h
  split at h
  · rename_i hfits
    simp only [Action.proceed.injEq] at h
    obtain ⟨rfl, rfl⟩ := h
    refine ⟨w, l, activeRatings (w.apply s) l, ⟨?_, ?_, hw.known, hw.targets⟩, hfits, rfl, ?_⟩
    · exact List.mem_append_right _ hw.location
    · exact List.mem_append_right _ hw.review
    · simp only [Txn.step, hp]
      rfl
  · cases h

theorem harmless_account (u : UserId) : Harmless fun s => { s with
    users := (scrub s u).users
    roles := (scrub s u).roles } :=
  fun _ => ⟨rfl, fun _ => rfl⟩

theorem harmless_reviews (ids : List ℕ) : Harmless fun s => { s with
    reviews := s.reviews.update (fun r => decide (r.id ∈ ids))
      (fun r => { r with authorId := none, publicAuthor := false }) fun _ => rfl } := by
  refine fun s => ⟨?_, fun _ => rfl⟩
  simp only [allFacts, Table.update, List.map_map]
  refine List.map_congr_left fun r _ => ?_
  by_cases hr : r.id ∈ ids <;> simp [factsOf, hr]

theorem harmless_locations (ids : List LocationId) : Harmless fun s => { s with
    locations := s.locations.update (fun r => decide (r.id ∈ ids))
      (fun r => { r with creatorId := none }) fun _ => rfl } := by
  refine fun s => ⟨rfl, fun l => ?_⟩
  simp only [ratingColumns, Table.find_update, Option.map_map]
  congr 1
  funext r
  by_cases hr : r.id ∈ ids <;> simp [hr]

theorem Harmless.comp {f g : Store → Store} (hf : Harmless f) (hg : Harmless g) :
    Harmless (f ∘ g) :=
  fun s => ⟨(hf (g s)).1.trans (hg s).1, fun l => ((hf (g s)).2 l).trans ((hg s).2 l)⟩

theorem harmless_id : Harmless fun s => s := fun _ => ⟨rfl, fun _ => rfl⟩

/-- Each statement takes its transaction from one assertion to the next. -/
theorem proceed_assertion {s : Store} {x : ReviewTxn} {locks : List Lock} {phase : Phase}
    {write : Store → Store} (hs : Rated s) (hx : Assertion x s)
    (h : next x.phase (x.pending s) = ⟨locks, .proceed phase write⟩) :
    Assertion (x.step locks phase write) s := by
  unfold Assertion at hx
  split at hx
  · rename_i d hphase
    simp only [hphase, next, Txn.Untouched.view hx] at h
    split at h
    · rename_i known
      obtain ⟨rfl, rfl, rfl⟩ := Statement.proceed_inj h
      exact ⟨Txn.Untouched.step hx _ _ _, by simp [Txn.step], known⟩
    · exact absurd h Statement.abort_ne_proceed
  · rename_i id source target hphase
    simp only [hphase, next, Txn.Untouched.view hx] at h
    split at h
    · rename_i r hr
      obtain ⟨rfl, rfl, rfl⟩ := Statement.proceed_inj h
      exact ⟨Txn.Untouched.step hx _ _ _, r, hr, rfl⟩
    · exact absurd h Statement.abort_ne_proceed
  · rename_i u hphase
    simp only [hphase, next, scrubAccountStatement] at h
    split at h
    · exact absurd h Statement.abort_ne_proceed
    · obtain ⟨rfl, rfl, rfl⟩ := Statement.proceed_inj h
      have pending : x.pending = fun s => s := hx
      exact (harmless_account u).comp (pending ▸ harmless_id)
  · rename_i d hphase
    obtain ⟨fresh, held, known⟩ := hx
    simp only [hphase, next] at h
    split at h
    · obtain ⟨rfl, rfl, rfl⟩ := Statement.proceed_inj h
      exact ⟨fresh.step _ _ _, by simp [Txn.step, held], known⟩
    · exact absurd h Statement.abort_ne_proceed
  · rename_i d publicAuthor hphase
    obtain ⟨fresh, held, known⟩ := hx
    simp only [hphase, next, fresh.view] at h
    exact upsert_proceed h fresh held known
  · rename_i id source target l hphase
    obtain ⟨fresh, reviewed⟩ := hx
    simp only [hphase, next] at h
    obtain ⟨rfl, rfl, rfl⟩ := Statement.proceed_inj h
    exact ⟨fresh.step _ _ _, by simp [Txn.step], reviewed⟩
  · rename_i id source target l hphase
    obtain ⟨fresh, held, reviewed⟩ := hx
    simp only [hphase, next, fresh.view] at h
    exact flip_proceed h hs fresh held reviewed
  · rename_i l hphase
    obtain ⟨w, hw, hp⟩ := hx
    simp only [hphase, next, hp] at h
    exact recompute_proceed h hw hp
  · rename_i hphase
    simp [hphase, next] at h
  · rename_i u hphase
    simp only [hphase, next, scrubReviewsStatement] at h
    obtain ⟨rfl, rfl, rfl⟩ := Statement.proceed_inj h
    exact (harmless_reviews _).comp hx
  · rename_i u hphase
    simp only [hphase, next, scrubLocationsStatement] at h
    obtain ⟨rfl, rfl, rfl⟩ := Statement.proceed_inj h
    exact (harmless_locations _).comp hx
  · rename_i hphase
    simp [hphase, next] at h

/-- Only the last phases commit. -/
theorem commit_phase {phase : Phase} {v : Store} {locks : List Lock}
    (h : next phase v = ⟨locks, .commit⟩) : phase = .rated ∨ phase = .scrubbed := by
  cases phase with
  | rated => exact .inl rfl
  | scrubbed => exact .inr rfl
  | upsert d publicAuthor =>
    simp only [next, upsertStatement] at h
    split at h
    · split at h
      · exact absurd h Statement.proceed_ne_commit
      · split at h
        · exact absurd h Statement.proceed_ne_commit
        · exact absurd h Statement.abort_ne_commit
    · exact absurd h Statement.abort_ne_commit
  | flip id source target l =>
    simp only [next, flipStatement, Statement.mk.injEq] at h
    split at h <;> simp at h
  | recompute l =>
    simp only [next, recomputeStatement, Statement.mk.injEq] at h
    split at h <;> simp at h
  | scrubReviews u => exact absurd h Statement.proceed_ne_commit
  | scrubLocations u => exact absurd h Statement.proceed_ne_commit
  | lockReviewed id source target l => exact absurd h Statement.proceed_ne_commit
  | lockLocation | lockAuthor | readReview | scrubAccount =>
    simp only [next, scrubAccountStatement] at h
    split at h <;> simp [Statement.proceed, Statement.abort] at h

theorem commit_assertion {s : Store} {x : ReviewTxn} {locks : List Lock} (hs : Rated s)
    (hx : Assertion x s) (h : next x.phase (x.pending s) = ⟨locks, .commit⟩) :
    Rated (x.pending s) ∧ Evolves s (x.pending s) ∧
      ∀ k, k ∉ x.held → Keeps k s (x.pending s) := by
  rcases commit_phase h with hphase | hphase
  · simp only [Assertion, hphase] at hx
    obtain ⟨w, l, ratings, hw, hfits, hratings, hp⟩ := hx
    rw [hp]
    exact commit_rated hs hw hfits hratings
  · simp only [Assertion, hphase] at hx
    obtain ⟨rated, evolves, keeps⟩ := commit_harmless hs hx
    exact ⟨rated, evolves, fun k _ => keeps k⟩

theorem outline (env : Env) : Outline (τ := ℕ) (program env) Rated Assertion Evolves Keeps where
  entry s t call _ := by cases call <;> rfl
  proceed s x locks next write hs hx h := proceed_assertion hs hx h
  commit s x locks hs hx h := commit_assertion hs hx h
  atomic s op hs := atomic_rated env hs op
  stable s t x _ _ hx evolves keeps := stable hx evolves keeps

/-- The value of a `NUMERIC(3,2)` column. -/
def hundredths (a : ℕ) : ℚ := (a : ℚ) / 100

/-- The exact average. -/
def mean (ratings : List ℕ) : ℚ := (ratings.sum : ℚ) / ratings.length

/-- Rounded to two decimals. -/
def roundTo2 (q : ℚ) : ℚ := (round (100 * q) : ℚ) / 100

/-- With at most an `INTEGER` of reviews, the sixteen decimals of the stored quotient never
carry it over a half that the exact average stays below. -/
theorem averageHundredths_eq {ratings : List ℕ} (h : ratings.length ≤ maxInteger) :
    (averageHundredths ratings).map hundredths =
      if ratings = [] then none else some (roundTo2 (mean ratings)) := by
  by_cases hnil : ratings = []
  · simp [averageHundredths, hnil]
  · have hpos : 0 < ratings.length := List.length_pos_iff.mpr hnil
    have scale : ratings.sum * 10 ^ 16 = 100 * ratings.sum * (2 * (5 * 10 ^ 13)) := by ring
    have stored : roundDiv (roundDiv (ratings.sum * 10 ^ 16) ratings.length) (10 ^ 14) =
        roundDiv (100 * ratings.sum) ratings.length := by
      rw [scale, show (10 : ℕ) ^ 14 = 2 * (5 * 10 ^ 13) by norm_num]
      refine roundDiv_roundDiv hpos ?_
      calc ratings.length ≤ maxInteger := h
        _ < 2 * (5 * 10 ^ 13) := by norm_num [maxInteger]
    have exact : (100 : ℚ) * mean ratings = ((100 * ratings.sum : ℕ) : ℚ) / ratings.length := by
      rw [mean]
      push_cast
      ring
    rw [averageHundredths, if_neg hnil, if_neg hnil, stored, Option.map_some, roundTo2, exact,
      ← roundDiv_eq_round hpos, hundredths, Int.cast_natCast]

theorem reachable_rated (env : Env) (events : List (Event ℕ Call Op)) :
    Rated (ReadCommitted.run (program env) (initial Schema.empty) events).committed :=
  (run_preserves_sound (outline env) (initial_sound initial_rated) events).committed

/-- In every committed state of every interleaving, a location counts its active reviews and
shows their exact average to two decimals. -/
theorem rating_matches_reviews (env : Env) (events : List (Event ℕ Call Op)) (l : LocationId)
    (row : LocationRow)
    (h : (ReadCommitted.run (program env) (initial Schema.empty)
      events).committed.locations.find l = some row) :
    let ratings := activeRatings
      (ReadCommitted.run (program env) (initial Schema.empty) events).committed l
    row.ratingCount = ratings.length ∧
      row.ratingAvg.map hundredths =
        if ratings = [] then none else some (roundTo2 (mean ratings)) := by
  intro ratings
  have rated := reachable_rated env events
  have columns := rated.aggregated l (row.ratingAvg, row.ratingCount) (by simp [ratingColumns, h])
  simp only [Prod.mk.injEq] at columns
  refine ⟨columns.2, ?_⟩
  rw [columns.1]
  exact averageHundredths_eq (rated.counted l)

theorem sampleBody_valid : 1 ≤ "Dry and well lit".length ∧ "Dry and well lit".length ≤ 2000 := by
  decide

def sampleDraft (id : ℕ) (author : UserId) (rating : StarRating) : Draft :=
  ⟨id, 1, author, rating, ⟨"Dry and well lit", sampleBody_valid⟩⟩

/-- Two users review location 1 at once; the second waits for the first's location lock. -/
def sampleReviews : List (Event ℕ Call Op) :=
  (enlist 1 ++ enlist 2 ++ [Op.create 1 sampleRack 1]).map .atomic ++
    [.begin 1 (.upsertReview (sampleDraft 1 1 ⟨5, StarRating.five⟩)),
      .begin 2 (.upsertReview (sampleDraft 2 2 ⟨4, StarRating.four⟩)),
      .advance 1, .advance 2, .advance 1, .advance 1, .advance 2, .advance 1, .advance 1,
      .advance 2, .advance 2, .advance 2, .advance 2, .advance 2]

theorem sampleReviews_rated :
    ∃ row, (ReadCommitted.run (program Clock.env) (initial Schema.empty)
        sampleReviews).committed.locations.find 1 = some row ∧
      row.ratingCount = 2 ∧ row.ratingAvg.map hundredths =
        some (roundTo2 (mean [5, 4])) := by
  have ratings : activeRatings (ReadCommitted.run (program Clock.env) (initial Schema.empty)
      sampleReviews).committed 1 = [5, 4] := by decide +kernel
  have some : ((ReadCommitted.run (program Clock.env) (initial Schema.empty)
      sampleReviews).committed.locations.find 1).isSome := by decide +kernel
  obtain ⟨row, hrow⟩ := Option.isSome_iff_exists.mp some
  have h := rating_matches_reviews Clock.env sampleReviews 1 row hrow
  simp only [ratings] at h
  exact ⟨row, hrow, h.1, h.2⟩

end Ratings
