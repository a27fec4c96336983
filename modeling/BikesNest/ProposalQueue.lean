import BikesNest.Effects
import BikesNest.Keyset
import BikesNest.Lifecycle
import BikesNest.TimeLinks

/-! The queue of pending proposals. The sort key is (not escalated, id), but a link carries the
identity alone: what else the cursor is made of is looked up when the page is read, so that an
escalation of the cursor's row moves it while the moderator reads. -/

namespace ProposalQueue

open Parking Proposal Schema Publishing Contribution Accounts Operations Effects Lifecycle
open RowOrder Keyset TimeLinks

structure QueuedProposal where
  id : ProposalId
  locationId : LocationId
  locationName : String
  locationAddress : String
  proposerId : Option UserId
  baseVersion : ℕ
  locationVersion : ℕ
  kind : ProposalKind
  change : ProposedChange
  reason : Option String
  currentLat : ℚ
  currentLon : ℚ
  currentTimezone : String
  currentState : ModerationState
  currentSnapshot : Json
  status : ProposalStatus
  escalatedAt : Option Instant

/-- A row of the queue, with its listing. -/
abbrev QueueRow := ProposalRow × LocationRow

/-- `map_proposal`, with the subquery of the snapshot. -/
def mapProposal (env : Env) (s : Store) (r : QueueRow) : QueuedProposal :=
  let payload := ProposalPayload.fromJson env r.1.kind r.1.proposed
  { id := r.1.id
    locationId := r.1.locationId
    locationName := r.2.name
    locationAddress := r.2.address
    proposerId := r.1.proposerId
    baseVersion := r.1.baseVersion
    locationVersion := r.2.version
    kind := r.1.kind
    change := payload.change
    reason := payload.reason
    currentLat := r.2.lat
    currentLon := r.2.lon
    currentTimezone := r.2.timezone
    currentState := r.2.moderationState
    currentSnapshot := ((s.revisions.find (r.2.id, r.2.version)).map
      RevisionRow.snapshot).getD (.obj [])
    status := r.1.status
    escalatedAt := r.1.escalatedAt }

def isPending (p : ProposalRow) : Bool := decide (p.status = .pending)

/-- `JOIN parking_location`. -/
def joined (s : Store) (p : ProposalRow) : Option QueueRow :=
  (s.locations.find p.locationId).map fun l => (p, l)

def queued (s : Store) : List QueueRow := (s.proposals.filter isPending).filterMap (joined s)

/-- `(p.escalated_at IS NULL, p.id)`; false comes first. -/
def rowPosition (p : ProposalRow) : Bool ×ₗ ℤ := toLex (decide (p.escalatedAt = none), (p.id : ℤ))

def position (r : QueueRow) : Bool ×ₗ ℤ := rowPosition r.1

/-- The right side of the keyset predicate; an unknown row counts as not escalated. -/
def cursorPosition (s : Store) (afterId : ℤ) : Bool ×ₗ ℤ :=
  let cursor := s.proposals.rows.find? fun c => decide ((c.id : ℤ) = afterId)
  toLex ((cursor.map fun c => decide (c.escalatedAt = none)).getD true, afterId)

/-- `limit.clamp(1, 200)`. -/
def pageSize (limit : ℤ) : ℕ := (max 1 (min limit 200)).toNat

/-- `list_pending_proposals`. No two rows share a position, so that their order is settled. -/
def listPendingProposals (env : Env) (s : Store) (afterId : Option ℤ) (limit : ℤ) :
    List QueuedProposal :=
  (pageOf (stable position) (queued s) (afterId.map (cursorPosition s)) (pageSize limit)).map
    (mapProposal env s)

def defaultPageLimit : ℤ := 50

/-- `moderation_proposals`: a full page may have more. -/
def moderationProposals (env : Env) (s : Store) (link : Option ℤ) : Page QueuedProposal ℤ :=
  let proposals := listPendingProposals env s (link.bind parseAfterId) defaultPageLimit
  ⟨proposals, if (proposals.length : ℤ) = defaultPageLimit then
    proposals.getLast?.map fun last => (last.id : ℤ) else none⟩

/-- The same page with another limit. -/
def proposalsPage (env : Env) (s : Store) (limit : ℤ) (link : Option ℤ) : Page QueuedProposal ℤ :=
  let proposals := listPendingProposals env s (link.bind parseAfterId) limit
  ⟨proposals, if proposals.length = pageSize limit then
    proposals.getLast?.map fun last => (last.id : ℤ) else none⟩

/-! A moderator reads page after page while operations commit. -/

/-- The operations before the `i`-th page. -/
def opsBefore (start : List Op) (between : ℕ → List Op) : ℕ → List Op
  | 0 => start
  | i + 1 => opsBefore start between i ++ between i

/-- The store that the `i`-th page reads. -/
def storeAt (env : Env) (start : List Op) (between : ℕ → List Op) (i : ℕ) : Store :=
  run env Schema.empty (opsBefore start between i)

/-- The pages met by following the links; `limits` are those of the pages. -/
def queueWalk (env : Env) (start : List Op) (between : ℕ → List Op) (limits : ℕ → ℤ) (fuel : ℕ) :
    Option (List (Page QueuedProposal ℤ)) :=
  walk Page.next (fun i => proposalsPage env (storeAt env start between i) (limits i)) fuel 0 none

/-- The identity column draws positive numbers. -/
def Drawn : Op → Prop
  | .createProposal id _ => 0 < id
  | _ => True

instance : DecidablePred Drawn := fun op => by
  cases op <;> unfold Drawn <;> infer_instance

/-- The proposal is pending, and escalated or not. -/
def Waits (s : Store) (id : ProposalId) (escalated : Bool) : Prop :=
  ∃ p, s.proposals.find id = some p ∧ p.status = .pending ∧ p.escalatedAt.isSome = escalated

/-- Escalated proposals come before the others, and lower identities first. -/
def Before (a b : QueuedProposal) : Prop :=
  (a.escalatedAt.isSome = true ∧ b.escalatedAt.isSome = false) ∨
    (a.escalatedAt.isSome = b.escalatedAt.isSome ∧ a.id < b.id)

/-! What operations do to the rows of the queue: none goes, and none is less escalated. -/

section Forward

/-- Proposals stay, and an escalation is for good. -/
def Forward (s t : Store) : Prop :=
  ∀ i p, s.proposals.find i = some p →
    ∃ q, t.proposals.find i = some q ∧ (p.escalatedAt.isSome → q.escalatedAt.isSome)

variable {env : Env} {s t : Store}

theorem Forward.refl (s : Store) : Forward s s := fun _ p hp => ⟨p, hp, id⟩

theorem Forward.trans {r : Store} (h : Forward r s) (k : Forward s t) : Forward r t := by
  intro i p hp
  obtain ⟨q, hq, first⟩ := h i p hp
  obtain ⟨x, hx, second⟩ := k i q hq
  exact ⟨x, hx, fun e => second (first e)⟩

theorem Forward.of_eq (h : t.proposals = s.proposals) : Forward s t :=
  fun _ p hp => ⟨p, h ▸ hp, id⟩

theorem Forward.of_map {f : ProposalId → ProposalRow → ProposalRow}
    (h : ∀ i, t.proposals.find i = (s.proposals.find i).map (f i))
    (hf : ∀ i p, p.escalatedAt.isSome → (f i p).escalatedAt.isSome) : Forward s t := by
  intro i p hp
  exact ⟨f i p, by rw [h, hp, Option.map_some], hf i p⟩

theorem forward_published {id : ProposalId} {moderator : UserId} {applied : ProposalApplication}
    {prop : ProposalRow} {loc row : LocationRow} {parts : Store}
    (h : Published env s t id moderator applied prop loc row parts) : Forward s t := by
  refine .of_map h.find_proposal fun i p escalated => ?_
  split
  · exact escalated
  · split <;> exact escalated

theorem forward_vote {id : ProposalId} {voter : UserId} {vote : ProposalVote} {now : Instant}
    {totals : ProposalVoteTotals}
    (h : voteOnProposal env s id voter vote now = .ok (totals, t)) : Forward s t := by
  obtain ⟨prop, loc, u, hv, -, -, -, -, hs⟩ := voteOnProposal_ok.mp h
  rcases settleVote_cases hs with ⟨-, -, applied, hm, happ⟩ | ⟨-, -, -, rfl⟩ | ⟨-, -, rfl⟩
  · obtain ⟨prop', loc', row, parts, hp⟩ := approve_ok.mp happ
    have published := forward_published hp
    exact published
  · refine .of_map (f := fun _ p => if p.id = prop.id ∧ p.escalatedAt = none then
      { p with escalatedAt := some now } else p) (fun i => ?_) fun i p escalated => ?_
    · simp [escalate, upsertVote]
    · split
      · rfl
      · exact escalated
  · exact .of_eq rfl

theorem perform_forward {op : Op} (h : perform env s op = .ok t) : Forward s t := by
  cases op with
  | create id new creator =>
    simp only [perform, Outcome.mapError_ok] at h
    obtain ⟨tz, parts, hc⟩ := create_ok h
    exact .of_eq hc.frame.1
  | applyEdit id expectedVersion edit editor =>
    simp only [perform, Outcome.mapError_ok] at h
    obtain ⟨loc, row, point, tz, parts, he⟩ := applyEdit_ok h
    exact .of_eq he.frame.2.1
  | createProposal id n =>
    simp only [perform, Outcome.mapError_ok] at h
    obtain ⟨loc, author, hs⟩ := createProposal_ok.mp h
    intro i p hp
    refine ⟨p, ?_, fun escalated => escalated⟩
    have other : ¬ id = i := by
      rintro rfl
      have absent : s.proposals.find id = none := (Table.insert_eq_some.mp hs.inserted).1
      rw [hp] at absent
      cases absent
    rw [Table.find_insert hs.inserted]
    exact (if_neg other).trans hp
  | voteOnProposal id voter vote now =>
    simp only [perform, Outcome.mapError_ok] at h
    obtain ⟨⟨totals, t'⟩, hv, rfl⟩ := Outcome.map_ok.mp h
    exact forward_vote hv
  | setParkingState id sources target moderator =>
    simp only [perform, Outcome.mapError_ok] at h
    obtain ⟨old, hm⟩ := setParkingState_ok.mp h
    rw [hm.outcome]
    refine .of_map (find_supersede _ id none) fun i p escalated => ?_
    split <;> exact escalated
  | approveProposal id moderator applied =>
    simp only [perform, Outcome.mapError_ok] at h
    obtain ⟨prop, loc, row, parts, hp⟩ := approve_ok.mp h
    exact forward_published hp
  | rejectProposal id moderator reason =>
    simp only [perform, Outcome.mapError_ok] at h
    obtain ⟨-, prop, -, -, -, rfl⟩ := rejectProposal_ok.mp h
    refine .of_map (find_decide s id _ _ _) fun i p escalated => ?_
    split <;> exact escalated
  | register id publicName =>
    simp only [perform, Outcome.mapError_ok] at h
    exact .of_eq (register_frame h).proposals
  | confirmEmail id now =>
    simp only [perform, Except.ok.injEq] at h
    exact .of_eq (h ▸ (confirmEmail_frame s id now).proposals)
  | suspendByAdmin id =>
    simp only [perform, Outcome.mapError_ok] at h
    exact .of_eq (suspendByAdmin_frame h).proposals
  | restoreByAdmin id =>
    simp only [perform, Except.ok.injEq] at h
    exact .of_eq (h ▸ (restoreByAdmin_frame s id).proposals)
  | anonymize id =>
    simp only [perform, Outcome.mapError_ok] at h
    rw [anonymize_ok h]
    exact .of_map (find_scrub_proposal s id) fun i p escalated => escalated

theorem run_forward (ops : List Op) : Forward s (run env s ops) := by
  refine run_invariant (P := fun t => Forward s t) ?_ (along_true s ops) (.refl s)
  intro t u op first _ h
  exact first.trans (perform_forward h)

end Forward

section Rows

variable {env : Env} {s t : Store}

theorem mem_queued {r : QueueRow} : r ∈ queued s ↔
    r.1 ∈ s.proposals ∧ r.1.status = .pending ∧ s.locations.find r.1.locationId = some r.2 := by
  obtain ⟨p, l⟩ := r
  simp only [queued, List.mem_filterMap, Table.mem_filter, isPending, decide_eq_true_eq, joined,
    Option.map_eq_some_iff, Prod.mk.injEq]
  constructor
  · rintro ⟨p, ⟨hp, pending⟩, l, hl, rfl, rfl⟩
    exact ⟨hp, pending, hl⟩
  · rintro ⟨hp, pending, hl⟩
    exact ⟨p, ⟨hp, pending⟩, l, hl, rfl, rfl⟩

theorem joined_fst {p : ProposalRow} {r : QueueRow} (h : joined s p = some r) : r.1 = p := by
  obtain ⟨l, -, rfl⟩ := Option.map_eq_some_iff.mp h
  rfl

theorem queued_ids_distinct : ((queued s).map fun r => r.1.id).Nodup := by
  have ids : ((queued s).map fun r => r.1.id).Sublist
      ((s.proposals.filter isPending).map ProposalRow.id) :=
    keys_filterMap (fun _ _ h => congrArg ProposalRow.id (joined_fst h)) _
  exact (ids.trans (List.filter_sublist.map _)).nodup s.proposals.distinct

theorem queued_distinct : ((queued s).map position).Nodup := by
  have ids := @queued_ids_distinct s
  rw [List.Nodup, List.pairwise_map] at ids ⊢
  refine ids.imp fun different same => different ?_
  exact Int.ofNat_inj.mp (congrArg (fun k => (ofLex k).2) same)

/-- Every pending proposal has its listing, so that the join drops none. -/
def Located (s : Store) : Prop :=
  ∀ p ∈ s.proposals, (s.locations.find p.locationId).isSome

theorem queued_ids (located : Located s) :
    (queued s).map (fun r => r.1.id) = (s.proposals.filter isPending).map ProposalRow.id := by
  have rows : ∀ ps : List ProposalRow, (∀ p ∈ ps, (s.locations.find p.locationId).isSome) →
      (ps.filterMap (joined s)).map (fun r => r.1.id) = ps.map ProposalRow.id := by
    intro ps
    induction ps with
    | nil =>
      intro _
      rfl
    | cons p ps ih =>
      intro known
      obtain ⟨l, hl⟩ := Option.isSome_iff_exists.mp (known p List.mem_cons_self)
      have found : joined s p = some (p, l) := by rw [joined, hl, Option.map_some]
      rw [List.filterMap_cons_some found, List.map_cons, List.map_cons,
        ih fun q hq => known q (List.mem_cons_of_mem p hq)]
  exact rows _ fun p hp => located p (Table.mem_filter.mp hp).1

/-- The cursor of a row is its position. -/
theorem cursorPosition_row {p : ProposalRow} (hp : p ∈ s.proposals) :
    cursorPosition s p.id = rowPosition p := by
  have found : s.proposals.rows.find? (fun c => decide ((c.id : ℤ) = p.id)) = some p := by
    have := Table.find_of_mem hp
    simpa only [Table.find, Int.ofNat_inj] using this
  rw [cursorPosition, found]
  rfl

/-- Later the cursor of a row stands where the row stood, or before. -/
theorem cursorPosition_forward (h : Forward s t) {p : ProposalRow} (hp : p ∈ s.proposals) :
    cursorPosition t p.id ≤ rowPosition p := by
  obtain ⟨q, hq, escalated⟩ := h p.id p (Table.find_of_mem hp)
  obtain ⟨member, same⟩ := Table.find_eq_some.mp hq
  rw [← same, cursorPosition_row member, rowPosition, rowPosition, same]
  by_cases still : q.escalatedAt = none
  · have before : p.escalatedAt = none := by
      cases hesc : p.escalatedAt with
      | none => rfl
      | some time =>
        have := escalated (by rw [hesc]; rfl)
        rw [still] at this
        cases this
    rw [still, before]
  · rw [Prod.Lex.toLex_le_toLex]
    by_cases before : p.escalatedAt = none
    · left
      simp [still, before]
    · right
      simp [still, before]

end Rows

section Pages

variable {env : Env} {s : Store}

theorem pageSize_pos (limit : ℤ) : 0 < pageSize limit := by
  rw [pageSize]
  omega

/-- The page of `moderation_proposals` is the one with its limit. -/
theorem moderationProposals_eq (link : Option ℤ) :
    moderationProposals env s link = proposalsPage env s defaultPageLimit link := by
  have size : pageSize defaultPageLimit = 50 := by decide
  rw [moderationProposals, proposalsPage, size, defaultPageLimit]
  norm_cast

def linkPosition (s : Store) (link : Option ℤ) : Option (Bool ×ₗ ℤ) :=
  (link.bind parseAfterId).map (cursorPosition s)

def rowLink (r : QueueRow) : ℤ := r.1.id

/-- The rows behind a page. -/
def rowPage (s : Store) (limit : ℤ) (link : Option ℤ) : Page QueueRow ℤ :=
  fullPage (stable position) (queued s) (linkPosition s) rowLink (pageSize limit) link

theorem proposalsPage_eq (limit : ℤ) (link : Option ℤ) : proposalsPage env s limit link =
    ⟨(rowPage s limit link).items.map (mapProposal env s), (rowPage s limit link).next⟩ := by
  have last : ∀ rows : List QueueRow,
      ((rows.map (mapProposal env s)).getLast?.map fun p => (p.id : ℤ)) =
        rows.getLast?.map rowLink := by
    intro rows
    rw [List.getLast?_map, Option.map_map]
    rfl
  rw [proposalsPage, listPendingProposals, last, List.length_map]
  rfl

/-- A link to a row leads to it. -/
theorem linkPosition_row {r : QueueRow} (hr : r ∈ queued s) (positive : 0 < r.1.id) :
    linkPosition s (some (rowLink r)) = some (position r) := by
  have positive : 0 < (r.1.id : ℤ) := by exact_mod_cast positive
  rw [linkPosition, Option.bind_some, rowLink, parseAfterId, if_pos positive, Option.map_some,
    cursorPosition_row (mem_queued.mp hr).1]
  rfl

/-- A proposal with this identity is on the page. -/
def Shown (id : ProposalId) (page : Page QueuedProposal ℤ) : Prop :=
  ∃ p ∈ page.items, p.id = id

theorem shown_of_row {limit : ℤ} {link : Option ℤ} {r : QueueRow}
    (hr : r ∈ (rowPage s limit link).items) : Shown r.1.id (proposalsPage env s limit link) := by
  rw [proposalsPage_eq]
  exact ⟨mapProposal env s r, List.mem_map_of_mem hr, rfl⟩

end Pages

section Walk

variable {env : Env} {start : List Op} {between : ℕ → List Op} {limits : ℕ → ℤ}

theorem run_located (ops : List Op) : Located (run env Schema.empty ops) := by
  intro p hp
  obtain ⟨d, hd⟩ := reachable_grounded env ops p.id (ticketOf p) (ticket_of_mem hp)
  obtain ⟨loc, found, -⟩ := location_of_doc hd
  exact Option.isSome_iff_exists.mpr ⟨loc, found⟩

theorem run_positive {ops : List Op} (drawn : ∀ op ∈ ops, Drawn op) :
    ∀ p ∈ (run env Schema.empty ops).proposals, 0 < p.id := by
  refine run_invariant (P := fun s => ∀ p ∈ s.proposals, 0 < p.id) ?_ (along_of_forall drawn _) ?_
  · intro s t op positive hop h q hq
    rcases proposal_origin h (Table.find_of_mem hq) with ⟨p, hp, -⟩ | ⟨n, loc, author, rfl, -, -⟩
    · obtain ⟨member, same⟩ := Table.find_eq_some.mp hp
      rw [← same]
      exact positive p member
    · exact hop
  · intro p hp
    exact absurd hp (Table.not_mem_empty p)

/-- All the identities of the run are drawn. -/
def AllDrawn (start : List Op) (between : ℕ → List Op) : Prop :=
  (∀ op ∈ start, Drawn op) ∧ ∀ i, ∀ op ∈ between i, Drawn op

theorem opsBefore_drawn (drawn : AllDrawn start between) (i : ℕ) :
    ∀ op ∈ opsBefore start between i, Drawn op := by
  induction i with
  | zero => exact drawn.1
  | succ i ih =>
    intro op hop
    rcases List.mem_append.mp hop with early | late
    · exact ih op early
    · exact drawn.2 i op late

theorem storeAt_forward (i : ℕ) :
    Forward (storeAt env start between i) (storeAt env start between (i + 1)) := by
  have later : storeAt env start between (i + 1) =
      run env (storeAt env start between i) (between i) := run_append _ _ _
  rw [later]
  exact run_forward (between i)

theorem storeAt_settled {n : ℕ} (stopped : ∀ i, n ≤ i → between i = []) {i : ℕ} (hi : n ≤ i) :
    storeAt env start between i = storeAt env start between n := by
  induction i, hi using Nat.le_induction with
  | base => rfl
  | succ i hi ih =>
    rw [← ih, storeAt, storeAt, opsBefore, stopped i hi, List.append_nil]

/-- The row of a proposal that waits stands at a place that does not depend on the store. -/
theorem row_of_waits {s : Store} {id : ProposalId} {escalated : Bool} (located : Located s)
    (h : Waits s id escalated) :
    ∃ r ∈ queued s, r.1.id = id ∧ position r = toLex (!escalated, (id : ℤ)) := by
  obtain ⟨p, hp, pending, rfl⟩ := h
  obtain ⟨member, rfl⟩ := Table.find_eq_some.mp hp
  obtain ⟨l, hl⟩ := Option.isSome_iff_exists.mp (located p member)
  refine ⟨(p, l), mem_queued.mpr ⟨member, pending, hl⟩, rfl, ?_⟩
  rw [position, rowPosition]
  cases p.escalatedAt <;> rfl

/-- The reader has not passed the place. -/
def Ahead (env : Env) (start : List Op) (between : ℕ → List Op) (k : Bool ×ₗ ℤ) (i : ℕ)
    (link : Option ℤ) : Prop :=
  ∀ c ∈ linkPosition (storeAt env start between i) link, c < k

/-- What waits ahead of the last page is on it. -/
theorem met_at_last {s : Store} {limit : ℤ} {link : Option ℤ} {r : QueueRow} (hr : r ∈ queued s)
    (ahead : ∀ c ∈ linkPosition s link, c < position r)
    (last : (proposalsPage env s limit link).next = none) :
    Shown r.1.id (proposalsPage env s limit link) := by
  rw [proposalsPage_eq] at last
  have short := fullPage_ended (pageSize_pos limit) last
  have all : (rowPage s limit link).items =
      (stable position).sort (remaining position (queued s) (linkPosition s link)) :=
    List.take_of_length_le (by rw [length_sort]; omega)
  refine shown_of_row ?_
  rw [all]
  exact (mem_sort (stable position)).mpr (mem_remaining.mpr ⟨hr, ahead⟩)

/-- What waits ahead of a full page is on it, or behind its last row. -/
theorem met_or_behind {s : Store} {limit following : ℤ} {link : Option ℤ} {r : QueueRow}
    (hr : r ∈ queued s) (ahead : ∀ c ∈ linkPosition s link, c < position r)
    (more : (proposalsPage env s limit link).next = some following) :
    Shown r.1.id (proposalsPage env s limit link) ∨
      ∃ x ∈ queued s, following = rowLink x ∧ position x < position r := by
  rw [proposalsPage_eq] at more
  have positive := pageSize_pos limit
  obtain ⟨x, last, rfl⟩ := fullPage_continued positive more
  set left := (stable position).sort (remaining position (queued s) (linkPosition s link)) with hleft
  have waiting : r ∈ left := (mem_sort _).mpr (mem_remaining.mpr ⟨hr, ahead⟩)
  rw [← List.take_append_drop (pageSize limit) left, List.mem_append] at waiting
  rcases waiting with early | late
  · exact Or.inl (shown_of_row early)
  · right
    have strict : left.Pairwise fun a b => position a < position b :=
      sort_strict _ (remaining_distinct queued_distinct _)
    have size : pageSize limit - 1 + 1 = pageSize limit := by omega
    have member : x ∈ queued s :=
      (mem_remaining.mp ((mem_sort _).mp (List.mem_of_getElem? last))).1
    exact ⟨x, member, rfl, unsplit_of_strict strict last r (size.symm ▸ late)⟩

/-- A proposal that waits at every read is on some page. -/
theorem waiting_met (drawn : AllDrawn start between) {fuel : ℕ}
    {pages : List (Page QueuedProposal ℤ)}
    (walked : queueWalk env start between limits fuel = some pages) {id : ProposalId}
    {escalated : Bool}
    (waits : ∀ i < pages.length, Waits (storeAt env start between i) id escalated) :
    ∃ page ∈ pages, Shown id page := by
  have located : ∀ i, Located (storeAt env start between i) := fun i => run_located _
  refine @walk_meets (Page QueuedProposal ℤ) ℤ Page.next
    (fun i => proposalsPage env (storeAt env start between i) (limits i)) (Shown id)
    (Ahead env start between (toLex (!escalated, (id : ℤ))))
    (fun i => Waits (storeAt env start between i) id escalated) ?_ ?_ fuel 0 none pages ?_ walked ?_
  · intro i link there ahead last
    obtain ⟨r, hr, rfl, place⟩ := row_of_waits (located i) there
    exact met_at_last hr (fun c hc => place ▸ ahead c hc) last
  · intro i link following there ahead more
    obtain ⟨r, hr, rfl, place⟩ := row_of_waits (located i) there
    rcases met_or_behind hr (fun c hc => place ▸ ahead c hc) more with shown | ⟨x, hx, rfl, lt⟩
    · exact Or.inl shown
    · right
      have member := (mem_queued.mp hx).1
      have positive : 0 < (x.1.id : ℤ) := by
        exact_mod_cast run_positive (opsBefore_drawn drawn i) x.1 member
      intro c hc
      rw [linkPosition, Option.bind_some, rowLink, parseAfterId, if_pos positive,
        Option.map_some, Option.mem_some_iff] at hc
      -- the cursor's row may have been escalated since
      rw [← hc, ← place]
      exact lt_of_le_of_lt (cursorPosition_forward (storeAt_forward i) member) lt
  · intro c hc
    cases hc
  · intro j hj
    rw [Nat.zero_add]
    exact waits j hj

section Settled

variable {s : Store} (located : Located s) (positive : ∀ p ∈ s.proposals, 0 < p.id)

include positive in
/-- On a store that does not change, every walk ends and shows what was left, in its order. -/
theorem settled_walk (i : ℕ) (link : Option ℤ) : ∃ fuel pages,
    walk Page.next (fun i => proposalsPage env s (limits i)) fuel i link = some pages ∧
      pages.flatMap Page.items = ((stable position).sort
        (remaining position (queued s) (linkPosition s link))).map (mapProposal env s) := by
  have leads : ∀ r ∈ queued s, linkPosition s (some (rowLink r)) = some (position r) :=
    fun r hr => linkPosition_row hr (positive r.1 (mem_queued.mp hr).1)
  have reads : ∀ i link, Reads (stable position) (queued s)
      (fun r p => mapProposal env s r = p) (linkPosition s) Page.items Page.next link
        (pageSize (limits i) - 1) (proposalsPage env s (limits i) link) := by
    intro i link
    have rows := @fullPage_reads _ _ _ _ _ (stable position) (queued s) _ rowLink
      (pageSize (limits i)) link (pageSize_pos _) leads
    rw [proposalsPage_eq]
    refine ⟨?_, rows.last, rows.more⟩
    have shown := rows.shown
    rw [List.forall₂_eq_eq_eq] at shown
    rw [shown]
    exact List.forall₂_map_right_iff.mpr (List.forall₂_same.mpr fun _ _ => rfl)
  obtain ⟨pages, result, shown⟩ := walk_rows queued_distinct reads
    (Nat.lt_succ_self (remaining position (queued s) (linkPosition s link)).length) i
  refine ⟨_, pages, result, ?_⟩
  have items := List.forall₂_map_left_iff.mpr shown
  rw [List.forall₂_eq_eq_eq] at items
  exact items.symm

include located positive in
theorem settled_queue : ∃ fuel pages,
    walk Page.next (fun i => proposalsPage env s (limits i)) fuel 0 none = some pages ∧
      ((pages.flatMap Page.items).map QueuedProposal.id).Perm
        ((s.proposals.filter isPending).map ProposalRow.id) ∧
      (pages.flatMap Page.items).Pairwise Before := by
  obtain ⟨fuel, pages, result, items⟩ := @settled_walk env limits s positive 0 none
  have whole : remaining position (queued s) (linkPosition s none) = queued s := remaining_none _
  rw [whole] at items
  refine ⟨fuel, pages, result, ?_, ?_⟩
  · rw [items, List.map_map, ← queued_ids located]
    exact ((stable position).perm (queued s)).map _
  · rw [items, List.pairwise_map]
    refine (sort_strict _ queued_distinct).imp ?_
    intro a b lt
    rw [position, position, rowPosition, rowPosition, Prod.Lex.toLex_lt_toLex] at lt
    have flags : ∀ r : QueueRow, decide (r.1.escalatedAt = none) = !r.1.escalatedAt.isSome := by
      intro r
      cases r.1.escalatedAt <;> rfl
    simp only [flags, Bool.lt_iff, Bool.not_eq_false', Bool.not_eq_true', Bool.not_inj_iff,
      Int.ofNat_lt] at lt
    exact lt

end Settled

/-- While operations commit between the pages, a proposal that waits at every read, escalated or
not, is on some page; the walk ends once the operations stop; and on a store that does not change
it shows every pending proposal once, the escalated ones first and each group by identity. -/
theorem proposal_queue_hides_nothing (env : Env) (start : List Op) (between : ℕ → List Op)
    (limits : ℕ → ℤ) (drawn : AllDrawn start between) :
    (∀ fuel pages, queueWalk env start between limits fuel = some pages →
      ∀ id escalated, (∀ i < pages.length, Waits (storeAt env start between i) id escalated) →
        ∃ page ∈ pages, Shown id page) ∧
    (∀ n, (∀ i, n ≤ i → between i = []) →
      ∃ fuel pages, queueWalk env start between limits fuel = some pages) ∧
    ((∀ i, between i = []) →
      ∃ fuel pages, queueWalk env start between limits fuel = some pages ∧
        ((pages.flatMap Page.items).map QueuedProposal.id).Perm
          (((run env Schema.empty start).proposals.filter isPending).map ProposalRow.id) ∧
        (pages.flatMap Page.items).Pairwise Before) := by
  have positive : ∀ i, ∀ p ∈ (storeAt env start between i).proposals, 0 < p.id :=
    fun i => run_positive (opsBefore_drawn drawn i)
  refine ⟨?_, ?_, ?_⟩
  · intro fuel pages walked id escalated waits
    exact waiting_met drawn walked waits
  · intro n stopped
    refine walk_ends ?_ n 0 none (Nat.zero_add n)
    intro link
    obtain ⟨fuel, pages, result, -⟩ := @settled_walk env limits _ (positive n) n link
    refine ⟨fuel, pages, ?_⟩
    rw [← result]
    refine walk_of_reads (fun j hj => ?_) fuel link
    rw [storeAt_settled stopped hj]
  · intro unchanged
    have same : ∀ i, storeAt env start between i = run env Schema.empty start :=
      fun i => storeAt_settled (fun i _ => unchanged i) (Nat.zero_le i)
    simp only [queueWalk, same]
    exact settled_queue (run_located start) (positive 0)

end Walk

section Sample

/-- A proposal is submitted while a moderator reads. -/
def sampleBetween : ℕ → List Op
  | 0 => sampleStart sampleEdit
  | _ => []

/-- A queue that grows after its first page has been read. -/
theorem sampleBetween_hides_nothing :
    (∀ fuel pages, queueWalk Clock.env [] sampleBetween (fun _ => 1) fuel = some pages →
      ∀ id escalated,
        (∀ i < pages.length, Waits (storeAt Clock.env [] sampleBetween i) id escalated) →
          ∃ page ∈ pages, Shown id page) ∧
    (∀ n, (∀ i, n ≤ i → sampleBetween i = []) →
      ∃ fuel pages, queueWalk Clock.env [] sampleBetween (fun _ => 1) fuel = some pages) ∧
    ((∀ i, sampleBetween i = []) →
      ∃ fuel pages, queueWalk Clock.env [] sampleBetween (fun _ => 1) fuel = some pages ∧
        ((pages.flatMap Page.items).map QueuedProposal.id).Perm
          (((run Clock.env Schema.empty []).proposals.filter isPending).map ProposalRow.id) ∧
        (pages.flatMap Page.items).Pairwise Before) := by
  refine proposal_queue_hides_nothing Clock.env [] sampleBetween (fun _ => 1) ⟨by decide, ?_⟩
  intro i
  cases i with
  | zero => decide
  | succ i =>
    intro op hop
    cases hop

end Sample

end ProposalQueue
