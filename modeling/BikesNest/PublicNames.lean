import BikesNest.Effects
import BikesNest.Reviews

/-! Whose name a review or a proposal shows. An author consents by a preference of the account;
each contribution captures it when it is created, under the account's lock, and switching the
preference off clears what was captured. The preference, the review transactions, the
submission of a proposal and the erasure run statement by statement, the rest beside them. -/

namespace PublicNames

open Parking Proposal Schema Publishing Contribution Accounts Operations Effects
open ReadCommitted RowLocks Reviews

inductive Item where
  | review (id : ℕ)
  | proposal (id : ProposalId)
  deriving DecidableEq

/-- The store and the display names, with two records beside them: who switched the preference
off, in the order of the commits, and how many had done so when the author's row was locked
for an item that was about to be created. -/
structure Board where
  store : Store
  displayNames : UserId → Option String
  optOuts : List UserId
  stamps : Item → ℕ

def blank (names : UserId → Option String) : Board := ⟨Schema.empty, names, [], fun _ => 0⟩

def reviewAuthor (r : ReviewRow) : Option UserId := if r.publicAuthor then r.authorId else none

def proposalAuthor (p : ProposalRow) : Option UserId :=
  if p.publicAuthor then p.proposerId else none

/-- The author of an item that may be named. -/
def named (s : Store) : Item → Option UserId
  | .review id => (s.reviews.find id).bind reviewAuthor
  | .proposal id => (s.proposals.find id).bind proposalAuthor

def present (s : Store) : Item → Bool
  | .review id => (s.reviews.find id).isSome
  | .proposal id => (s.proposals.find id).isSome

/-- `BTRIM` takes blanks off, and no other white space. -/
def btrim (s : String) : String :=
  String.ofList ((s.toList.dropWhile (· == ' ')).rdropWhile (· == ' '))

/-- `CASE WHEN public_author THEN (SELECT NULLIF(BTRIM(display_name), '') FROM users WHERE …)`,
the column of `find_own` and `list_active`. No query reads it for a proposal; one that did would
have this column. -/
def shownName (b : Board) (item : Item) : Option String :=
  (named b.store item).bind fun u =>
    ((b.store.users.find u).filter fun a =>
      a.publicContributionName && decide (a.accountState = .active)).bind fun a =>
        ((b.displayNames a.id).map btrim).filter fun name => decide (name ≠ "")

/-- A write of the store by a transaction that counted `seen` opt-outs. -/
def rewrite (seen : ℕ) (write : Store → Store) (b : Board) : Board :=
  { b with
    store := write b.store
    stamps := fun item => if present b.store item then b.stamps item else seen }

def rename (u : UserId) (name : Option String) (b : Board) : Board :=
  { b with displayNames := Function.update b.displayNames u name }

inductive Phase where
  | review (phase : Reviews.Phase) (seen : ℕ)
  | scrubProposers (u : UserId)
  | scrubModerators (u : UserId)
  | lockProposed (id : ProposalId) (p : NewProposal)
  | lockProposer (id : ProposalId) (p : NewProposal)
  | submit (id : ProposalId) (p : NewProposal) (publicAuthor : Bool) (seen : ℕ)
  | setPreference (u : UserId) (enabled : Bool)
  | revokeReviews (u : UserId)
  | revokeProposals (u : UserId)
  | done

inductive Call where
  | review (call : Reviews.Call)
  | createProposal (id : ProposalId) (p : NewProposal)
  | setPublicContributionName (u : UserId) (enabled : Bool)

/-- What runs in one step: an operation of another repository, or the display name that a new
registration of the same address brings. -/
inductive Other where
  | listing (op : Op)
  | rename (u : UserId) (name : Option String)

def entry : Call → Phase
  | .review call => .review (Reviews.entry call) 0
  | .createProposal id p => .lockProposed id p
  | .setPublicContributionName u enabled => .setPreference u enabled

abbrev Stmt := Statement Board Lock Phase

/-- The opt-outs are counted when the author's row is locked. -/
def counted (phase : Reviews.Phase) (seen : ℕ) (b : Board) : ℕ :=
  match phase with
  | .lockAuthor _ => b.optOuts.length
  | _ => seen

/-- After the listings an erasure goes on with the proposals. -/
def resume (phase : Reviews.Phase) (seen : ℕ) (next : Reviews.Phase) : Phase :=
  match phase with
  | .scrubLocations u => .scrubProposers u
  | _ => .review next seen

/-- The display name goes with the account row. -/
def forget (phase : Reviews.Phase) (b : Board) : Board :=
  match phase with
  | .scrubAccount u => rename u none b
  | _ => b

/-- A statement of a review transaction, on the store of the board. -/
def lift (phase : Reviews.Phase) (seen : ℕ) (s : Reviews.Stmt) : Stmt :=
  ⟨s.locks,
    match s.action with
    | .proceed next write => .proceed (resume phase seen next)
        fun b => forget phase (rewrite seen write b)
    | .commit => .commit
    | .abort => .abort⟩

/-- `SELECT version, moderation_state FROM parking_location … FOR UPDATE`, and the checks. -/
def lockProposedStatement (env : Env) (id : ProposalId) (p : NewProposal) (v : Store) : Stmt :=
  match v.locations.find p.locationId with
  | some loc =>
    if loc.moderationState = .active ∧ loc.version = p.baseVersion ∧
        ProposedChange.fromJson env p.kind p.proposed ≠ .unknown then
      .proceed (.lockProposer id p) [.location p.locationId] fun b => b
    else .abort [.location p.locationId]
  | none => .abort []

def insertProposal (row : ProposalRow) (s : Store) : Store :=
  { s with proposals := (s.proposals.insert row).getD s.proposals }

def submitStatement (id : ProposalId) (p : NewProposal) (publicAuthor : Bool) (seen : ℕ)
    (v : Store) : Stmt :=
  if p.proposed.storable = true ∧ v.proposals.find id = none then
    .proceed .done [.proposal id]
      (rewrite seen (insertProposal (newProposalRow id p publicAuthor)))
  else .abort []

def setPreference (u : UserId) (enabled : Bool) (s : Store) : Store :=
  setUser s u (fun a => { a with publicContributionName := enabled }) fun _ => rfl

/-- `UPDATE users SET public_contribution_name = … WHERE id = … AND account_state IN …`. -/
def setPreferenceStatement (u : UserId) (enabled : Bool) (v : Store) : Stmt :=
  if (v.users.find u).any fun a =>
      decide (a.accountState = .active ∨ a.accountState = .pendingEmailVerification) then
    .proceed (if enabled then .done else .revokeReviews u) [.user u] fun b =>
      { b with store := setPreference u enabled b.store }
  else .abort []

def clearReviews (ids : List ℕ) (s : Store) : Store :=
  let reviews := s.reviews.update (fun r => decide (r.id ∈ ids))
    (fun r => { r with publicAuthor := false }) fun _ => rfl
  { s with reviews := reviews }

def changeProposals (ids : List ProposalId) (f : ProposalRow → ProposalRow)
    (hf : ∀ p, (f p).id = p.id) (s : Store) : Store :=
  { s with proposals := s.proposals.update (fun p => decide (p.id ∈ ids)) f hf }

def clearProposals (ids : List ProposalId) : Store → Store :=
  changeProposals ids (fun p => { p with publicAuthor := false }) fun _ => rfl

def forgetProposers (ids : List ProposalId) : Store → Store :=
  changeProposals ids (fun p => { p with proposerId := none }) ProposalRow.unproposed_key

def forgetModerators (ids : List ProposalId) : Store → Store :=
  changeProposals ids (fun p => { p with resolvedBy := none }) ProposalRow.unresolved_key

def revokeReviewsStatement (u : UserId) (v : Store) : Stmt :=
  let ids := (v.reviews.filter fun r => decide (r.authorId = some u) && r.publicAuthor).map
    ReviewRow.id
  .proceed (.revokeProposals u) (ids.map .review) fun b =>
    { b with store := clearReviews ids b.store }

def revokeProposalsStatement (u : UserId) (v : Store) : Stmt :=
  let ids := (v.proposals.filter fun p => decide (p.proposerId = some u) && p.publicAuthor).map
    ProposalRow.id
  .proceed .done (ids.map .proposal) fun b =>
    { b with store := clearProposals ids b.store, optOuts := b.optOuts ++ [u] }

/-- The proposals of an account that is erased forget their proposer. -/
def scrubProposersStatement (u : UserId) (v : Store) : Stmt :=
  let ids := (v.proposals.filter fun p => decide (p.proposerId = some u)).map ProposalRow.id
  .proceed (.scrubModerators u) (ids.map .proposal) fun b =>
    { b with store := forgetProposers ids b.store }

def scrubModeratorsStatement (u : UserId) (v : Store) : Stmt :=
  let ids := (v.proposals.filter fun p => decide (p.resolvedBy = some u)).map ProposalRow.id
  .proceed .done (ids.map .proposal) fun b =>
    { b with store := forgetModerators ids b.store }

def next (env : Env) (phase : Phase) (b : Board) : Stmt :=
  match phase with
  | .review p seen => lift p (counted p seen b) (Reviews.next p b.store)
  | .scrubProposers u => scrubProposersStatement u b.store
  | .scrubModerators u => scrubModeratorsStatement u b.store
  | .lockProposed id p => lockProposedStatement env id p b.store
  | .lockProposer id p =>
    match (b.store.users.find p.proposerId).filter eligibleVoter with
    | some a => .proceed (.submit id p a.publicContributionName b.optOuts.length)
        [.user p.proposerId] fun b => b
    | none => .abort []
  | .submit id p publicAuthor seen => submitStatement id p publicAuthor seen b.store
  | .setPreference u enabled => setPreferenceStatement u enabled b.store
  | .revokeReviews u => revokeReviewsStatement u b.store
  | .revokeProposals u => revokeProposalsStatement u b.store
  | .done => ⟨[], .commit⟩

/-- The display name goes with an account that is erased in one step. -/
def forgetErased (op : Op) (b : Board) : Board :=
  match op with
  | .anonymize u => rename u none b
  | _ => b

def applyOther (env : Env) (b : Board) : Other → Board
  | .listing op =>
    match perform env b.store op with
    | .ok t => forgetErased op (rewrite b.optOuts.length (fun _ => t) b)
    | .error _ => b
  | .rename u name => rename u name b

def program (env : Env) : Program Board Lock Phase Call Other where
  entry := entry
  next := next env
  touches other b :=
    match other with
    | .listing op => touches b.store op
    | .rename u _ => [.user u]
  apply other b := applyOther env b other

/-- A write that names nobody anew. -/
def Mute (f : Store → Store) : Prop := ∀ s i u, named (f s) i = some u → named s i = some u

/-- A write that names `u` and nobody else, and only on items it creates. -/
def Adds (u : UserId) (f : Store → Store) : Prop :=
  ∀ s i v, named (f s) i = some v → named s i = some v ∨ (v = u ∧ present s i = false)

theorem Mute.adds {f : Store → Store} (h : Mute f) (u : UserId) : Adds u f :=
  fun s i v hv => .inl (h s i v hv)

theorem named_present {s : Store} {i : Item} {u : UserId} (h : named s i = some u) :
    present s i = true := by
  cases i with
  | review id =>
    obtain ⟨r, hr, -⟩ := Option.bind_eq_some_iff.mp h
    simp [present, hr]
  | proposal id =>
    obtain ⟨p, hp, -⟩ := Option.bind_eq_some_iff.mp h
    simp [present, hp]

theorem named_congr {s t : Store} (reviews : t.reviews = s.reviews)
    (proposals : t.proposals = s.proposals) (i : Item) : named t i = named s i := by
  cases i <;> simp [named, reviews, proposals]

theorem mute_of_eq {f : Store → Store} (reviews : ∀ s, (f s).reviews = s.reviews)
    (proposals : ∀ s, (f s).proposals = s.proposals) : Mute f :=
  fun s i _ hu => (named_congr (reviews s) (proposals s) i).symm.trans hu

/-- Rewriting reviews names nobody anew when no single row is. -/
theorem mute_reviews {f : Store → Store} {g : ℕ → ReviewRow → ReviewRow}
    (reviews : ∀ s id, (f s).reviews.find id = (s.reviews.find id).map (g id))
    (proposals : ∀ s, (f s).proposals = s.proposals)
    (faint : ∀ id r u, reviewAuthor (g id r) = some u → reviewAuthor r = some u) : Mute f := by
  intro s i u hu
  cases i with
  | review id =>
    simp only [named, reviews, Option.bind_map, Option.bind_eq_some_iff] at hu ⊢
    obtain ⟨r, hr, hu⟩ := hu
    exact ⟨r, hr, faint id r u hu⟩
  | proposal id =>
    simp only [named, proposals] at hu
    exact hu

theorem mute_proposals {f : Store → Store} {g : ProposalId → ProposalRow → ProposalRow}
    (proposals : ∀ s id, (f s).proposals.find id = (s.proposals.find id).map (g id))
    (reviews : ∀ s, (f s).reviews = s.reviews)
    (faint : ∀ id p u, proposalAuthor (g id p) = some u → proposalAuthor p = some u) : Mute f := by
  intro s i u hu
  cases i with
  | proposal id =>
    simp only [named, proposals, Option.bind_map, Option.bind_eq_some_iff] at hu ⊢
    obtain ⟨p, hp, hu⟩ := hu
    exact ⟨p, hp, faint id p u hu⟩
  | review id =>
    simp only [named, reviews] at hu
    exact hu

theorem changeReview_mute (id : ℕ) (f : ReviewRow → ReviewRow) (hf : ∀ r, (f r).id = r.id)
    (same : ∀ r, reviewAuthor (f r) = reviewAuthor r) : Mute (changeReview id f hf) := by
  refine mute_reviews (fun s i => by simp only [changeReview, Table.find_update]; rfl)
    (fun s => rfl) ?_
  intro i r u hu
  split at hu
  · exact same r ▸ hu
  · exact hu

theorem clearReviews_mute (ids : List ℕ) : Mute (clearReviews ids) := by
  refine mute_reviews (fun s i => by simp only [clearReviews, Table.find_update]; rfl)
    (fun s => rfl) ?_
  intro i r u hu
  split at hu
  · simp [reviewAuthor] at hu
  · exact hu

theorem changeProposals_mute (ids : List ProposalId) {f : ProposalRow → ProposalRow}
    {hf : ∀ p, (f p).id = p.id}
    (faint : ∀ p u, proposalAuthor (f p) = some u → proposalAuthor p = some u) :
    Mute (changeProposals ids f hf) := by
  refine mute_proposals (fun s i => by simp only [changeProposals, Table.find_update]; rfl)
    (fun s => rfl) ?_
  intro i p u hu
  split at hu
  · exact faint p u hu
  · exact hu

theorem clearProposals_mute (ids : List ProposalId) : Mute (clearProposals ids) :=
  changeProposals_mute ids fun p u hu => by simp [proposalAuthor] at hu

theorem forgetProposers_mute (ids : List ProposalId) : Mute (forgetProposers ids) :=
  changeProposals_mute ids fun p u hu => by simp [proposalAuthor] at hu

theorem forgetModerators_mute (ids : List ProposalId) : Mute (forgetModerators ids) :=
  changeProposals_mute ids fun _ _ hu => hu

/-- What a clearing statement has found it clears. -/
theorem named_clearReviews {ids : List ℕ} {s : Store} {id : ℕ} {u : UserId}
    (h : named (clearReviews ids s) (.review id) = some u) : id ∉ ids := by
  simp only [named, clearReviews, Table.find_update, Option.bind_map,
    Option.bind_eq_some_iff] at h
  obtain ⟨r, hr, hu⟩ := h
  obtain ⟨-, rfl⟩ := Table.find_eq_some.mp hr
  intro hm
  simp [hm, reviewAuthor] at hu

theorem named_clearProposals {ids : List ProposalId} {s : Store} {id : ProposalId} {u : UserId}
    (h : named (clearProposals ids s) (.proposal id) = some u) : id ∉ ids := by
  simp only [named, clearProposals, changeProposals, Table.find_update, Option.bind_map,
    Option.bind_eq_some_iff] at h
  obtain ⟨p, hp, hu⟩ := h
  obtain ⟨-, rfl⟩ := Table.find_eq_some.mp hp
  intro hm
  simp [hm, proposalAuthor] at hu

theorem reviewAuthor_eq_some {r : ReviewRow} {u : UserId} :
    reviewAuthor r = some u ↔ r.publicAuthor = true ∧ r.authorId = some u := by
  cases hp : r.publicAuthor <;> simp [reviewAuthor, hp]

theorem proposalAuthor_eq_some {p : ProposalRow} {u : UserId} :
    proposalAuthor p = some u ↔ p.publicAuthor = true ∧ p.proposerId = some u := by
  cases hp : p.publicAuthor <;> simp [proposalAuthor, hp]

theorem insertReview_adds {row : ReviewRow} {u : UserId} (author : row.authorId = some u) :
    Adds u (insertReview row) := by
  intro s i v hv
  cases i with
  | proposal id => exact .inl hv
  | review id =>
    cases hi : s.reviews.insert row with
    | none =>
      simp only [named, insertReview, hi, Option.getD_none] at hv
      exact .inl hv
    | some reviews =>
      simp only [named, insertReview, hi, Option.getD_some, Table.find_insert hi] at hv
      split at hv
      · rename_i hid
        subst hid
        refine .inr ⟨?_, by simp [present, (Table.insert_eq_some.mp hi).1]⟩
        simp only [reviewAuthor, author, Option.bind_some] at hv
        split at hv
        · exact (Option.some.inj hv).symm
        · cases hv
      · exact .inl hv

theorem insertProposal_adds {row : ProposalRow} {u : UserId} (proposer : row.proposerId = some u) :
    Adds u (insertProposal row) := by
  intro s i v hv
  cases i with
  | review id => exact .inl hv
  | proposal id =>
    cases hi : s.proposals.insert row with
    | none =>
      simp only [named, insertProposal, hi, Option.getD_none] at hv
      exact .inl hv
    | some proposals =>
      simp only [named, insertProposal, hi, Option.getD_some, Table.find_insert hi] at hv
      split at hv
      · rename_i hid
        subst hid
        refine .inr ⟨?_, by simp [present, (Table.insert_eq_some.mp hi).1]⟩
        simp only [proposalAuthor, proposer, Option.bind_some] at hv
        split at hv
        · exact (Option.some.inj hv).symm
        · cases hv
      · exact .inl hv

/-- The names of `c` are names of `b`, with the stamps they had. -/
def Fades (b c : Board) : Prop :=
  ∀ i u, named c.store i = some u → named b.store i = some u ∧ c.stamps i = b.stamps i

structure Quiet (b c : Board) : Prop where
  optOuts : c.optOuts = b.optOuts
  fades : Fades b c

/-- `c` may name `u` on items stamped `n` besides. -/
structure Announces (u : UserId) (n : ℕ) (b c : Board) : Prop where
  optOuts : c.optOuts = b.optOuts
  names : ∀ i v, named c.store i = some v →
    (named b.store i = some v ∧ c.stamps i = b.stamps i) ∨ (v = u ∧ c.stamps i = n)

/-- No item more names `u`. -/
def Subdued (u : UserId) (b c : Board) : Prop :=
  ∀ i, named c.store i = some u → named b.store i = some u

theorem Fades.trans {b c d : Board} (h : Fades b c) (k : Fades c d) : Fades b d := by
  intro i u hu
  obtain ⟨hc, stamp⟩ := k i u hu
  obtain ⟨hb, stamp'⟩ := h i u hc
  exact ⟨hb, stamp.trans stamp'⟩

theorem Quiet.refl (b : Board) : Quiet b b := ⟨rfl, fun _ _ hu => ⟨hu, rfl⟩⟩

theorem Quiet.trans {b c d : Board} (h : Quiet b c) (k : Quiet c d) : Quiet b d :=
  ⟨k.optOuts.trans h.optOuts, h.fades.trans k.fades⟩

theorem Announces.quiet {u : UserId} {n : ℕ} {b c d : Board} (h : Announces u n b c)
    (k : Quiet c d) : Announces u n b d := by
  refine ⟨k.optOuts.trans h.optOuts, ?_⟩
  intro i v hv
  obtain ⟨hc, stamp⟩ := k.fades i v hv
  rcases h.names i v hc with ⟨hb, same⟩ | ⟨rfl, new⟩
  · exact .inl ⟨hb, stamp.trans same⟩
  · exact .inr ⟨rfl, stamp.trans new⟩

theorem announces_after {u : UserId} {n : ℕ} {b c d : Board} (h : Quiet b c)
    (k : Announces u n c d) : Announces u n b d := by
  refine ⟨k.optOuts.trans h.optOuts, ?_⟩
  intro i v hv
  rcases k.names i v hv with ⟨hc, stamp⟩ | new
  · obtain ⟨hb, same⟩ := h.fades i v hc
    exact .inl ⟨hb, stamp.trans same⟩
  · exact .inr new

theorem Subdued.trans {u : UserId} {b c d : Board} (h : Subdued u b c) (k : Subdued u c d) :
    Subdued u b d :=
  fun i hu => h i (k i hu)

theorem announces_rewrite {u : UserId} {f : Store → Store} {b : Board}
    (h : ∀ i v, named (f b.store) i = some v →
      named b.store i = some v ∨ (v = u ∧ present b.store i = false)) (n : ℕ) :
    Announces u n b (rewrite n f b) := by
  refine ⟨rfl, ?_⟩
  intro i v hv
  rcases h i v hv with old | ⟨rfl, new⟩
  · exact .inl ⟨old, if_pos (named_present old)⟩
  · exact .inr ⟨rfl, by simp [rewrite, new]⟩

theorem quiet_rewrite {f : Store → Store} (h : Mute f) (n : ℕ) (b : Board) :
    Quiet b (rewrite n f b) :=
  ⟨rfl, fun i u hu => ⟨h b.store i u hu, if_pos (named_present (h b.store i u hu))⟩⟩

theorem quiet_store {f : Store → Store} (h : Mute f) (b : Board) :
    Quiet b { b with store := f b.store } :=
  ⟨rfl, fun i u hu => ⟨h b.store i u hu, rfl⟩⟩

theorem quiet_rename (u : UserId) (name : Option String) (b : Board) :
    Quiet b (rename u name b) :=
  ⟨rfl, fun _ _ hu => ⟨hu, rfl⟩⟩

theorem quiet_forget (p : Reviews.Phase) (b : Board) : Quiet b (forget p b) := by
  unfold forget
  split
  · exact quiet_rename _ none b
  · exact .refl b

theorem quiet_lift {f : Store → Store} (h : Mute f) (p : Reviews.Phase) (n : ℕ) (b : Board) :
    Quiet b (forget p (rewrite n f b)) :=
  (quiet_rewrite h n b).trans (quiet_forget p _)

/-- A phase in which the review is written already, or none is to be. -/
def Late : Reviews.Phase → Prop
  | .lockLocation _ | .lockAuthor _ | .upsert _ _ => False
  | _ => True

/-- What a statement of a review transaction goes on with. -/
inductive Goes : Reviews.Phase → Reviews.Phase → List Lock → (Store → Store) → Prop where
  | located (d : Draft) (locks : List Lock) :
    Goes (.lockLocation d) (.lockAuthor d) locks fun s => s
  | asked (d : Draft) (publicAuthor : Bool) :
    Goes (.lockAuthor d) (.upsert d publicAuthor) [.user d.author] fun s => s
  | upserted (d : Draft) (publicAuthor : Bool) (next : Reviews.Phase) (locks : List Lock)
    (write : Store → Store) (late : Late next) (adds : Adds d.author write) :
    Goes (.upsert d publicAuthor) next locks write
  | later (p next : Reviews.Phase) (locks : List Lock) (write : Store → Store) (late : Late p)
    (late' : Late next) (mute : Mute write) : Goes p next locks write

theorem upsert_goes {d : Draft} {publicAuthor : Bool} {v : Store} {locks : List Lock}
    {next : Reviews.Phase} {write : Store → Store}
    (h : upsertStatement d publicAuthor v = ⟨locks, .proceed next write⟩) :
    Goes (.upsert d publicAuthor) next locks write := by
  simp only [upsertStatement] at h
  split at h
  · split at h
    · rename_i r own
      obtain ⟨rfl, rfl, rfl⟩ := Statement.proceed_inj h
      have mute := changeReview_mute r.id (fun q => { q with
        rating := d.rating.value, body := d.body.text }) (fun _ => rfl) fun _ => rfl
      exact .upserted d publicAuthor _ _ _ trivial (mute.adds d.author)
    · split at h
      · obtain ⟨rfl, rfl, rfl⟩ := Statement.proceed_inj h
        exact .upserted d publicAuthor _ _ _ trivial (insertReview_adds rfl)
      · cases h
  · cases h

theorem scrubReviews_mute (u : UserId) (v : Store) {locks : List Lock} {next : Reviews.Phase}
    {write : Store → Store}
    (h : scrubReviewsStatement u v = ⟨locks, .proceed next write⟩) :
    Goes (.scrubReviews u) next locks write := by
  obtain ⟨rfl, rfl, rfl⟩ := Statement.proceed_inj h
  refine .later _ _ _ _ trivial trivial ?_
  refine mute_reviews (fun s i => by simp only [Table.find_update]; rfl) (fun s => rfl) ?_
  intro i r w hw
  split at hw
  · simp [reviewAuthor] at hw
  · exact hw

theorem review_goes {p next : Reviews.Phase} {v : Store} {locks : List Lock}
    {write : Store → Store} (h : Reviews.next p v = ⟨locks, .proceed next write⟩) :
    Goes p next locks write := by
  cases p with
  | lockLocation d =>
    simp only [Reviews.next] at h
    split at h
    · obtain ⟨rfl, rfl, rfl⟩ := Statement.proceed_inj h
      exact .located d _
    · cases h
  | lockAuthor d =>
    simp only [Reviews.next] at h
    split at h
    · obtain ⟨rfl, rfl, rfl⟩ := Statement.proceed_inj h
      exact .asked d _
    · cases h
  | upsert d publicAuthor => exact upsert_goes h
  | readReview id source target =>
    simp only [Reviews.next] at h
    split at h
    · obtain ⟨rfl, rfl, rfl⟩ := Statement.proceed_inj h
      exact .later _ _ _ _ trivial trivial fun _ _ _ hu => hu
    · cases h
  | lockReviewed id source target l =>
    obtain ⟨rfl, rfl, rfl⟩ := Statement.proceed_inj h
    exact .later _ _ _ _ trivial trivial fun _ _ _ hu => hu
  | flip id source target l =>
    simp only [Reviews.next, flipStatement, Statement.mk.injEq] at h
    obtain ⟨-, h⟩ := h
    split at h
    · obtain ⟨rfl, rfl⟩ := Action.proceed.inj h
      exact .later _ _ _ _ trivial trivial (changeReview_mute id _ _ fun _ => rfl)
    · cases h
  | recompute l =>
    simp only [Reviews.next, recomputeStatement, Statement.mk.injEq] at h
    obtain ⟨-, h⟩ := h
    split at h
    · obtain ⟨rfl, rfl⟩ := Action.proceed.inj h
      exact .later _ _ _ _ trivial trivial (mute_of_eq (fun _ => rfl) fun _ => rfl)
    · cases h
  | rated => cases h
  | scrubAccount u =>
    simp only [Reviews.next, scrubAccountStatement] at h
    split at h
    · cases h
    · obtain ⟨rfl, rfl, rfl⟩ := Statement.proceed_inj h
      exact .later _ _ _ _ trivial trivial (mute_of_eq (fun _ => rfl) fun _ => rfl)
  | scrubReviews u => exact scrubReviews_mute u v h
  | scrubLocations u =>
    obtain ⟨rfl, rfl, rfl⟩ := Statement.proceed_inj h
    exact .later _ _ _ _ trivial trivial (mute_of_eq (fun _ => rfl) fun _ => rfl)
  | scrubbed => cases h

theorem lift_proceed {p : Reviews.Phase} {seen : ℕ} {stmt : Reviews.Stmt} {locks : List Lock}
    {next : Phase} {write : Board → Board}
    (h : lift p seen stmt = ⟨locks, .proceed next write⟩) :
    ∃ q f, stmt = ⟨locks, .proceed q f⟩ ∧ next = resume p seen q ∧
      write = fun b => forget p (rewrite seen f b) := by
  obtain ⟨held, action⟩ := stmt
  cases action with
  | proceed q f =>
    obtain ⟨rfl, rfl, rfl⟩ := Statement.proceed_inj h
    exact ⟨q, f, rfl, rfl, rfl⟩
  | commit => cases (Statement.mk.inj h).2
  | abort => cases (Statement.mk.inj h).2

/-- No name stands against an opt-out that came after the item was created. -/
def Honoured (b : Board) : Prop :=
  ∀ i u, named b.store i = some u → u ∉ b.optOuts.drop (b.stamps i)

def Evolves (_ _ : Board) : Prop := True

/-- Who holds an account's row keeps the account from opting out and from being named anew. -/
def Keeps (k : Lock) (b c : Board) : Prop :=
  match k with
  | .user u => (∃ more, c.optOuts = b.optOuts ++ more ∧ u ∉ more) ∧ Subdued u b c
  | _ => True

abbrev Running := Txn Board Lock ℕ Phase

/-- What a transaction has written: nothing that names anybody, a contribution by an author it
holds, or an opt-out. -/
inductive Pending (x : Running) (b : Board) : Prop where
  | quiet (h : ∀ c, Quiet c (x.pending c))
  | announces (u : UserId) (n : ℕ) (held : .user u ∈ x.held) (fresh : u ∉ b.optOuts.drop n)
    (h : ∀ c, Announces u n c (x.pending c))
  | revokes (u : UserId) (held : .user u ∈ x.held)
    (optOuts : ∀ c, (x.pending c).optOuts = c.optOuts ++ [u])
    (fades : ∀ c, Fades c (x.pending c))
    (clear : ∀ c, Subdued u b c → ∀ i, named (x.pending c).store i ≠ some u)

/-- The author's row is held and the preference has been read. -/
structure Consented (u : UserId) (n : ℕ) (x : Running) (b : Board) : Prop where
  quiet : ∀ c, Quiet c (x.pending c)
  held : .user u ∈ x.held
  fresh : u ∉ b.optOuts.drop n

/-- The account's row is held and the names are as they were. -/
structure Revoking (u : UserId) (x : Running) : Prop where
  held : .user u ∈ x.held
  quiet : ∀ c, Quiet c (x.pending c)
  proposals : ∀ c id, named (x.pending c).store (.proposal id) = named c.store (.proposal id)

/-- The assertion of each phase. -/
def Asserts (x : Running) (b : Board) : Prop :=
  match x.phase with
  | .review (.upsert d _) seen => Consented d.author seen x b
  | .submit _ p _ seen => Consented p.proposerId seen x b
  | .revokeReviews u => Revoking u x ∧
    ∀ c id, named (x.pending c).store (.review id) = named c.store (.review id)
  | .revokeProposals u => Revoking u x ∧
    ∀ c, Subdued u b c → ∀ id, named (x.pending c).store (.review id) ≠ some u
  | .setPreference _ _ => x.Untouched
  | .review (.lockLocation _) _ | .review (.lockAuthor _) _ | .lockProposed _ _
  | .lockProposer _ _ => ∀ c, Quiet c (x.pending c)
  | .review _ _ | .scrubProposers _ | .scrubModerators _ | .done => Pending x b

section Pending

variable {x : Running} {b c : Board}

theorem initial_honoured (names : UserId → Option String) : Honoured (blank names) := by
  intro i u hu
  cases i <;> cases hu

theorem quiet_honoured (hb : Honoured b) (h : Quiet b c) : Honoured c := by
  intro i u hu
  obtain ⟨old, stamp⟩ := h.fades i u hu
  rw [h.optOuts, stamp]
  exact hb i u old

theorem announces_honoured {u : UserId} {n : ℕ} (hb : Honoured b)
    (fresh : u ∉ b.optOuts.drop n) (h : Announces u n b c) : Honoured c := by
  intro i v hv
  rw [h.optOuts]
  rcases h.names i v hv with ⟨old, stamp⟩ | ⟨rfl, stamp⟩
  · rw [stamp]
    exact hb i v old
  · rw [stamp]
    exact fresh

theorem revokes_honoured {u : UserId} (hb : Honoured b) (optOuts : c.optOuts = b.optOuts ++ [u])
    (fades : Fades b c) (clear : ∀ i, named c.store i ≠ some u) : Honoured c := by
  intro i v hv hm
  obtain ⟨old, stamp⟩ := fades i v hv
  rw [optOuts, stamp, List.drop_append] at hm
  rcases List.mem_append.mp hm with hm | hm
  · exact hb i v old hm
  · obtain rfl := List.mem_singleton.mp (List.mem_of_mem_drop hm)
    exact clear i hv

theorem quiet_keeps (h : Quiet b c) (k : Lock) : Keeps k b c := by
  unfold Keeps
  split
  · rename_i u
    exact ⟨⟨[], by simp [h.optOuts], by simp⟩, fun i hu => (h.fades i u hu).1⟩
  · trivial

theorem announces_keeps {u : UserId} {n : ℕ} (h : Announces u n b c) {k : Lock}
    (other : k ≠ .user u) : Keeps k b c := by
  unfold Keeps
  split
  · rename_i v
    refine ⟨⟨[], by simp [h.optOuts], by simp⟩, ?_⟩
    intro i hv
    rcases h.names i v hv with ⟨old, -⟩ | ⟨rfl, -⟩
    · exact old
    · exact absurd rfl other
  · trivial

theorem pending_commit (hb : Honoured b) (h : Pending x b) :
    Honoured (x.pending b) ∧ ∀ k, k ∉ x.held → Keeps k b (x.pending b) := by
  cases h with
  | quiet h => exact ⟨quiet_honoured hb (h b), fun k _ => quiet_keeps (h b) k⟩
  | announces u n held fresh h =>
    refine ⟨announces_honoured hb fresh (h b), ?_⟩
    intro k free
    refine announces_keeps (h b) ?_
    rintro rfl
    exact free held
  | revokes u held optOuts fades clear =>
    refine ⟨revokes_honoured hb (optOuts b) (fades b) (clear b fun _ hu => hu), ?_⟩
    intro k free
    unfold Keeps
    split
    · rename_i v
      have other : v ≠ u := by
        rintro rfl
        exact free held
      exact ⟨⟨[u], optOuts b, by simpa using other⟩, fun i hv => (fades b i v hv).1⟩
    · trivial

/-- An account whose row is held opts out nowhere else. -/
theorem fresh_stable {u : UserId} {n : ℕ} (fresh : u ∉ b.optOuts.drop n)
    (kept : Keeps (.user u) b c) : u ∉ c.optOuts.drop n := by
  obtain ⟨⟨more, hmore, hu⟩, -⟩ := kept
  rw [hmore, List.drop_append]
  intro hm
  rcases List.mem_append.mp hm with hm | hm
  · exact fresh hm
  · exact hu (List.mem_of_mem_drop hm)

theorem pending_stable (h : Pending x b) (kept : ∀ k ∈ x.held, Keeps k b c) : Pending x c := by
  cases h with
  | quiet h => exact .quiet h
  | announces u n held fresh h =>
    exact .announces u n held (fresh_stable fresh (kept _ held)) h
  | revokes u held optOuts fades clear =>
    obtain ⟨-, subdued⟩ := kept _ held
    exact .revokes u held optOuts fades fun d hd => clear d (subdued.trans hd)

theorem consented_stable {u : UserId} {n : ℕ} (h : Consented u n x b)
    (kept : ∀ k ∈ x.held, Keeps k b c) : Consented u n x c :=
  ⟨h.quiet, h.held, fresh_stable h.fresh (kept _ h.held)⟩

theorem asserts_stable (h : Asserts x b) (kept : ∀ k ∈ x.held, Keeps k b c) : Asserts x c := by
  cases hphase : x.phase with
  | review p seen =>
    cases p <;> simp only [Asserts, hphase] at h ⊢
    case lockLocation | lockAuthor => exact h
    case upsert => exact consented_stable h kept
    all_goals exact pending_stable h kept
  | submit id p publicAuthor seen =>
    simp only [Asserts, hphase] at h ⊢
    exact consented_stable h kept
  | revokeProposals u =>
    simp only [Asserts, hphase] at h ⊢
    obtain ⟨revoking, clear⟩ := h
    obtain ⟨-, subdued⟩ := kept _ revoking.held
    exact ⟨revoking, fun d hd => clear d (subdued.trans hd)⟩
  | scrubProposers u | scrubModerators u | done =>
    simp only [Asserts, hphase] at h ⊢
    exact pending_stable h kept
  | lockProposed id p | lockProposer id p | setPreference u enabled | revokeReviews u =>
    simpa only [Asserts, hphase] using h

/-- A further write that names nobody anew. -/
theorem pending_step (h : Pending x b) {write : Board → Board} (mute : ∀ c, Quiet c (write c))
    (locks : List Lock) (next : Phase) : Pending (x.step locks next write) b := by
  cases h with
  | quiet h => exact .quiet fun c => (h c).trans (mute _)
  | announces u n held fresh h =>
    exact .announces u n (List.mem_append_right _ held) fresh fun c => (h c).quiet (mute _)
  | revokes u held optOuts fades clear =>
    refine .revokes u (List.mem_append_right _ held) ?_ ?_ ?_
    · intro c
      exact (mute _).optOuts.trans (optOuts c)
    · intro c
      exact (fades c).trans (mute _).fades
    · intro c hc i hu
      exact clear c hc i ((mute _).fades i u hu).1

theorem quiet_step (h : ∀ c, Quiet c (x.pending c)) {write : Board → Board}
    (mute : ∀ c, Quiet c (write c)) (locks : List Lock) (next : Phase) :
    ∀ c, Quiet c ((x.step locks next write).pending c) :=
  fun c => (h c).trans (mute _)

/-- The write of a contribution by an author who consented. -/
theorem consented_step {u : UserId} {n : ℕ} (h : Consented u n x b) {write : Board → Board}
    (adds : ∀ c, Announces u n c (write c)) (locks : List Lock) (next : Phase) :
    Pending (x.step locks next write) b :=
  .announces u n (List.mem_append_right _ h.held) h.fresh fun c =>
    announces_after (h.quiet c) (adds _)

end Pending

section Steps

variable {env : Env} {x : Running} {b : Board} {locks : List Lock} {next : Phase}
  {write : Board → Board}

theorem late_asserts {p : Reviews.Phase} {seen : ℕ} (hphase : x.phase = .review p seen)
    (late : Late p) : Asserts x b ↔ Pending x b := by
  cases p <;> first | exact late.elim | simp only [Asserts, hphase]

/-- A review transaction, statement by statement. -/
theorem review_proceed {p : Reviews.Phase} {seen : ℕ} (hphase : x.phase = .review p seen)
    (hx : Asserts x b)
    (h : lift p (counted p seen (x.pending b)) (Reviews.next p (x.pending b).store) =
      ⟨locks, .proceed next write⟩) : Asserts (x.step locks next write) b := by
  obtain ⟨q, f, hnext, rfl, rfl⟩ := lift_proceed h
  have goes := review_goes hnext
  cases goes with
  | located d =>
    simp only [Asserts, hphase] at hx
    exact quiet_step hx (quiet_lift (fun _ _ _ hu => hu) _ _) _ _
  | asked d publicAuthor =>
    simp only [Asserts, hphase] at hx
    refine ⟨?_, List.mem_append_left _ (List.mem_singleton_self _), ?_⟩
    · exact quiet_step hx (quiet_lift (fun _ _ _ hu => hu) _ _) _ _
    · simp [counted, (hx b).optOuts]
  | upserted d publicAuthor next locks write late adds =>
    simp only [Asserts, hphase] at hx
    refine (late_asserts rfl late).mpr (consented_step hx (fun c => ?_) _ _)
    exact announces_rewrite (adds c.store) seen
  | later p next locks write late late' mute =>
    rw [late_asserts hphase late] at hx
    have step : Pending (x.step locks (resume p (counted p seen (x.pending b)) q) fun c =>
        forget p (rewrite (counted p seen (x.pending b)) f c)) b :=
      pending_step hx (quiet_lift mute p _) _ _
    by_cases handover : ∃ u, p = .scrubLocations u
    · obtain ⟨u, rfl⟩ := handover
      exact step
    · have stays : resume p (counted p seen (x.pending b)) q =
          .review q (counted p seen (x.pending b)) := by
        cases p <;> first | rfl | exact absurd ⟨_, rfl⟩ handover
      exact (late_asserts stays late').mpr step

theorem revokeReviews_proceed {u : UserId} (hphase : x.phase = .revokeReviews u)
    (hx : Asserts x b)
    (h : revokeReviewsStatement u (x.pending b).store = ⟨locks, .proceed next write⟩) :
    Asserts (x.step locks next write) b := by
  simp only [Asserts, hphase] at hx
  obtain ⟨⟨held, quiet, proposals⟩, reviews⟩ := hx
  obtain ⟨rfl, rfl, rfl⟩ := Statement.proceed_inj h
  refine ⟨⟨List.mem_append_right _ held, ?_, proposals⟩, ?_⟩
  · exact quiet_step quiet (quiet_store (clearReviews_mute _)) _ _
  · intro c hc id hu
    -- the row was named in what the statement saw, so its flag is cleared
    have old := clearReviews_mute _ _ _ _ hu
    rw [reviews] at old
    have seen := hc _ old
    rw [← reviews] at seen
    obtain ⟨r, hr, hu'⟩ := Option.bind_eq_some_iff.mp seen
    obtain ⟨hm, rfl⟩ := Table.find_eq_some.mp hr
    obtain ⟨flag, author⟩ := reviewAuthor_eq_some.mp hu'
    refine named_clearReviews hu (List.mem_map_of_mem (Table.mem_filter.mpr ⟨hm, ?_⟩))
    simp [flag, author]

theorem revokeProposals_proceed {u : UserId} (hphase : x.phase = .revokeProposals u)
    (hx : Asserts x b)
    (h : revokeProposalsStatement u (x.pending b).store = ⟨locks, .proceed next write⟩) :
    Asserts (x.step locks next write) b := by
  simp only [Asserts, hphase] at hx
  obtain ⟨⟨held, quiet, proposals⟩, reviews⟩ := hx
  obtain ⟨rfl, rfl, rfl⟩ := Statement.proceed_inj h
  have mute := clearProposals_mute
    (((x.pending b).store.proposals.filter fun p =>
      decide (p.proposerId = some u) && p.publicAuthor).map ProposalRow.id)
  refine Pending.revokes u (List.mem_append_right _ held) ?_ ?_ ?_
  · intro c
    exact congrArg (· ++ [u]) (quiet c).optOuts
  · exact fun c => (quiet c).fades.trans (quiet_store mute (x.pending c)).fades
  · intro c hc i hu
    have old := mute _ _ _ hu
    cases i with
    | review id => exact reviews c hc id old
    | proposal id =>
      rw [proposals] at old
      have seen := hc _ old
      rw [← proposals] at seen
      obtain ⟨p, hp, hu'⟩ := Option.bind_eq_some_iff.mp seen
      obtain ⟨hm, rfl⟩ := Table.find_eq_some.mp hp
      obtain ⟨flag, proposer⟩ := proposalAuthor_eq_some.mp hu'
      refine named_clearProposals hu (List.mem_map_of_mem (Table.mem_filter.mpr ⟨hm, ?_⟩))
      simp [flag, proposer]

theorem submit_proceed {id : ProposalId} {p : NewProposal} {publicAuthor : Bool} {seen : ℕ}
    (hphase : x.phase = .submit id p publicAuthor seen) (hx : Asserts x b)
    (h : submitStatement id p publicAuthor seen (x.pending b).store =
      ⟨locks, .proceed next write⟩) : Asserts (x.step locks next write) b := by
  simp only [Asserts, hphase] at hx
  simp only [submitStatement] at h
  split at h
  · obtain ⟨rfl, rfl, rfl⟩ := Statement.proceed_inj h
    refine consented_step hx (fun c => announces_rewrite ?_ seen) _ _
    exact insertProposal_adds rfl c.store
  · cases h

theorem setPreference_mute (u : UserId) (enabled : Bool) : Mute (setPreference u enabled) :=
  mute_of_eq (fun _ => rfl) fun _ => rfl

theorem setPreference_proceed {u : UserId} {enabled : Bool}
    (hphase : x.phase = .setPreference u enabled) (hx : Asserts x b)
    (h : setPreferenceStatement u enabled (x.pending b).store = ⟨locks, .proceed next write⟩) :
    Asserts (x.step locks next write) b := by
  simp only [Asserts, hphase] at hx
  simp only [setPreferenceStatement] at h
  split at h
  · obtain ⟨rfl, rfl, rfl⟩ := Statement.proceed_inj h
    have view : ∀ c, x.pending c = c := hx.view
    have quiet : ∀ c, Quiet c (x.pending c) := fun c => by rw [view c]; exact .refl c
    have step := quiet_step quiet (quiet_store (setPreference_mute u enabled)) [.user u]
      (if enabled then .done else .revokeReviews u)
    cases enabled with
    | true => exact Pending.quiet step
    | false =>
      refine ⟨⟨List.mem_append_left _ (List.mem_singleton_self _), step, ?_⟩, ?_⟩
      · intro c id
        exact congrArg (fun d => named d.store (.proposal id)) (view c)
      · intro c id
        exact congrArg (fun d => named d.store (.review id)) (view c)
  · cases h

theorem asserts_proceed (hx : Asserts x b)
    (h : (program env).statement x b = ⟨locks, .proceed next write⟩) :
    Asserts (x.step locks next write) b := by
  simp only [Program.statement, program] at h
  cases hphase : x.phase with
  | review p seen =>
    simp only [hphase, PublicNames.next] at h
    exact review_proceed hphase hx h
  | scrubProposers u =>
    simp only [hphase, PublicNames.next] at h
    obtain ⟨rfl, rfl, rfl⟩ := Statement.proceed_inj h
    simp only [Asserts, hphase] at hx
    exact pending_step hx (quiet_store (forgetProposers_mute _)) _ _
  | scrubModerators u =>
    simp only [hphase, PublicNames.next] at h
    obtain ⟨rfl, rfl, rfl⟩ := Statement.proceed_inj h
    simp only [Asserts, hphase] at hx
    exact pending_step hx (quiet_store (forgetModerators_mute _)) _ _
  | lockProposed id p =>
    simp only [hphase, PublicNames.next, lockProposedStatement] at h
    split at h
    · split at h
      · obtain ⟨rfl, rfl, rfl⟩ := Statement.proceed_inj h
        simp only [Asserts, hphase] at hx
        exact quiet_step hx .refl _ _
      · cases h
    · cases h
  | lockProposer id p =>
    simp only [hphase, PublicNames.next] at h
    split at h
    · obtain ⟨rfl, rfl, rfl⟩ := Statement.proceed_inj h
      simp only [Asserts, hphase] at hx
      refine ⟨quiet_step hx .refl _ _, List.mem_append_left _ (List.mem_singleton_self _), ?_⟩
      simp [(hx b).optOuts]
    · cases h
  | submit id p publicAuthor seen =>
    simp only [hphase, PublicNames.next] at h
    exact submit_proceed hphase hx h
  | setPreference u enabled =>
    simp only [hphase, PublicNames.next] at h
    exact setPreference_proceed hphase hx h
  | revokeReviews u =>
    simp only [hphase, PublicNames.next] at h
    exact revokeReviews_proceed hphase hx h
  | revokeProposals u =>
    simp only [hphase, PublicNames.next] at h
    exact revokeProposals_proceed hphase hx h
  | done =>
    simp only [hphase, PublicNames.next] at h
    cases h

end Steps

/-- An operation that runs in one step names nobody anew, or is the submission of a proposal. -/
theorem perform_names {env : Env} {s t : Store} {op : Op} (h : perform env s op = .ok t) (i : Item)
    (v : UserId) (hv : named t i = some v) :
    named s i = some v ∨
      ∃ id n, op = .createProposal id n ∧ v = n.proposerId ∧ present s i = false := by
  cases i with
  | review id =>
    rcases reviews_perform h with same | ⟨u, rfl, rfl⟩
    · left
      simpa only [named, same] using hv
    · left
      simp only [named, scrub, Table.find_update, Option.bind_map,
        Option.bind_eq_some_iff] at hv ⊢
      obtain ⟨r, hr, hv⟩ := hv
      refine ⟨r, hr, ?_⟩
      simp only [Function.comp_apply] at hv
      split at hv
      · simp [reviewAuthor] at hv
      · exact hv
  | proposal id =>
    obtain ⟨q, hq, hv⟩ := Option.bind_eq_some_iff.mp hv
    rcases proposal_origin h hq with ⟨p, hp, follows⟩ | ⟨n, loc, author, rfl, submitted, rfl⟩
    · left
      obtain ⟨flag, proposer⟩ := proposalAuthor_eq_some.mp hv
      refine Option.bind_eq_some_iff.mpr ⟨p, hp, proposalAuthor_eq_some.mpr ⟨?_, ?_⟩⟩
      · rw [← follows.publicAuthor, flag]
      · rcases follows.proposer with same | gone
        · rw [← same, proposer]
        · rw [gone] at proposer
          cases proposer
    · right
      obtain ⟨-, proposer⟩ := proposalAuthor_eq_some.mp hv
      refine ⟨id, n, rfl, (Option.some.inj proposer).symm, ?_⟩
      have free := (Table.insert_eq_some.mp submitted.inserted).1
      have absent : s.proposals.find id = none := free
      simp [present, absent]

theorem quiet_forgetErased (op : Op) (b : Board) : Quiet b (forgetErased op b) := by
  unfold forgetErased
  split
  · exact quiet_rename _ none b
  · exact .refl b

theorem listing_atomic (env : Env) (op : Op) {b : Board} (hb : Honoured b) :
    Honoured (applyOther env b (.listing op)) ∧
      ∀ k, k ∉ touches b.store op → Keeps k b (applyOther env b (.listing op)) := by
  cases hp : perform env b.store op with
  | error e =>
    have applied : applyOther env b (.listing op) = b := by simp only [applyOther, hp]
    rw [applied]
    exact ⟨hb, fun k _ => quiet_keeps (.refl b) k⟩
  | ok t =>
    have applied : applyOther env b (.listing op) =
        forgetErased op (rewrite b.optOuts.length (fun _ => t) b) := by simp only [applyOther, hp]
    rw [applied]
    have forget := quiet_forgetErased op (rewrite b.optOuts.length (fun _ => t) b)
    by_cases submits : ∃ id n, op = .createProposal id n
    · obtain ⟨id, n, rfl⟩ := submits
      have announces : Announces n.proposerId b.optOuts.length b
          (rewrite b.optOuts.length (fun _ => t) b) := by
        refine announces_rewrite ?_ _
        intro i v hv
        rcases perform_names hp i v hv with old | ⟨id', n', same, rfl, new⟩
        · exact .inl old
        · cases same
          exact .inr ⟨rfl, new⟩
      refine ⟨announces_honoured hb (by simp) (announces.quiet forget), ?_⟩
      intro k free
      refine announces_keeps (announces.quiet forget) ?_
      rintro rfl
      exact free (by simp [touches])
    · have quiet : Quiet b (rewrite b.optOuts.length (fun _ => t) b) := by
        have old : ∀ i v, named t i = some v → named b.store i = some v := by
          intro i v hv
          rcases perform_names hp i v hv with old | ⟨id, n, rfl, -⟩
          · exact old
          · exact absurd ⟨id, n, rfl⟩ submits
        exact ⟨rfl, fun i v hv => ⟨old i v hv, if_pos (named_present (old i v hv))⟩⟩
      exact ⟨quiet_honoured hb (quiet.trans forget), fun k _ => quiet_keeps (quiet.trans forget) k⟩

/-- A review transaction commits when its review is written, or none is to be. -/
theorem review_commit {p : Reviews.Phase} {v : Store} {locks : List Lock}
    (h : Reviews.next p v = ⟨locks, .commit⟩) : Late p := by
  cases p with
  | lockLocation d =>
    simp only [Reviews.next] at h
    split at h <;> cases h
  | lockAuthor d =>
    simp only [Reviews.next] at h
    split at h <;> cases h
  | upsert d publicAuthor =>
    simp only [Reviews.next, upsertStatement] at h
    split at h
    · split at h
      · cases h
      · split at h <;> cases h
    · cases h
  | _ => trivial

theorem asserts_commit {env : Env} {x : Running} {b : Board} {locks : List Lock}
    (hx : Asserts x b) (h : (program env).statement x b = ⟨locks, .commit⟩) : Pending x b := by
  simp only [Program.statement, program] at h
  cases hphase : x.phase with
  | review p seen =>
    simp only [hphase, next, lift, Statement.mk.injEq] at h
    have commits : (Reviews.next p (x.pending b).store).action = .commit := by
      cases haction : (Reviews.next p (x.pending b).store).action with
      | commit => rfl
      | proceed q f => simp [haction] at h
      | abort => simp [haction] at h
    have late : Late p := review_commit (by rw [← commits])
    exact (late_asserts hphase late).mp hx
  | scrubProposers u => simp [hphase, next, scrubProposersStatement, Statement.proceed] at h
  | scrubModerators u => simp [hphase, next, scrubModeratorsStatement, Statement.proceed] at h
  | lockProposed id p =>
    simp only [hphase, next, lockProposedStatement] at h
    split at h
    · split at h <;> cases h
    · cases h
  | lockProposer id p =>
    simp only [hphase, next] at h
    split at h <;> cases h
  | submit id p publicAuthor seen =>
    simp only [hphase, next, submitStatement] at h
    split at h <;> cases h
  | setPreference u enabled =>
    simp only [hphase, next, setPreferenceStatement] at h
    split at h <;> cases h
  | revokeReviews u => simp [hphase, next, revokeReviewsStatement, Statement.proceed] at h
  | revokeProposals u => simp [hphase, next, revokeProposalsStatement, Statement.proceed] at h
  | done =>
    simp only [Asserts, hphase] at hx
    exact hx

theorem entry_asserts (t : ℕ) (call : Call) (b : Board) :
    Asserts (.start t (entry call)) b := by
  cases call with
  | review call =>
    cases call with
    | upsertReview d => exact fun c => .refl c
    | setReviewState id source target => exact .quiet fun c => .refl c
    | anonymize u => exact .quiet fun c => .refl c
  | createProposal id p => exact fun c => .refl c
  | setPublicContributionName u enabled => exact rfl

theorem outline (env : Env) : Outline (program env) Honoured Asserts Evolves Keeps where
  entry b t call _ := entry_asserts t call b
  proceed b x locks next write _ hx h := asserts_proceed hx h
  commit b x locks hb hx h := by
    obtain ⟨honoured, kept⟩ := pending_commit hb (asserts_commit hx h)
    exact ⟨honoured, trivial, kept⟩
  atomic b other hb := by
    cases other with
    | listing op =>
      obtain ⟨honoured, kept⟩ := listing_atomic env op hb
      exact ⟨honoured, trivial, kept⟩
    | rename u name =>
      have quiet := quiet_rename u name b
      exact ⟨quiet_honoured hb quiet, trivial, fun k _ => quiet_keeps quiet k⟩
  stable b c x _ _ hx _ kept := asserts_stable hx kept

/-- The author of `item` may be named: an active account whose preference is on and that has not
switched it off since its row was locked to create the item. -/
structure Nameable (b : Board) (item : Item) (u : UserId) (a : UserRow) : Prop where
  author : named b.store item = some u
  account : b.store.users.find u = some a
  active : a.accountState = .active
  preference : a.publicContributionName = true
  final : u ∉ b.optOuts.drop (b.stamps item)

/-- A name is shown only of an author who may be named. -/
def Discreet (b : Board) : Prop :=
  ∀ item name, shownName b item = some name → ∃ u a, Nameable b item u a

theorem honoured_discreet {b : Board} (h : Honoured b) : Discreet b := by
  intro item name shown
  obtain ⟨u, author, shown⟩ := Option.bind_eq_some_iff.mp shown
  obtain ⟨a, account, -⟩ := Option.bind_eq_some_iff.mp shown
  obtain ⟨account, admitted⟩ := Option.filter_eq_some_iff.mp account
  simp only [Bool.and_eq_true, decide_eq_true_eq] at admitted
  exact ⟨u, a, author, account, admitted.2, admitted.1, h item u author⟩

/-- The opt-out from public naming is final, in every interleaving. -/
theorem opt_out_is_final (env : Env) (names : UserId → Option String)
    (events : List (Event ℕ Call Other)) :
    Discreet (run (program env) (initial (blank names)) events).committed :=
  honoured_discreet (run_preserves_sound (outline env)
    (initial_sound (initial_honoured names)) events).committed

/-- A review of user 1 on a new location, whose author is named until the preference goes off. -/
def sampleReview : List (Event ℕ Call Other) :=
  ((enlist 1 ++ [Op.create 1 sampleRack 1]).map fun op => .atomic (.listing op)) ++
    .begin 0 (.review (.upsertReview ⟨1, 1, 1, ⟨5, StarRating.five⟩, ⟨"Dry and lit", by decide⟩⟩)) ::
      List.replicate 5 (.advance 0)

def sampleOptOut : List (Event ℕ Call Other) :=
  .begin 1 (.setPublicContributionName 1 false) :: List.replicate 4 (.advance 1)

example : shownName (run (program Clock.env) (initial (blank fun _ => some "Ada"))
    sampleReview).committed (.review 1) = some "Ada" := by decide +kernel

example : shownName (run (program Clock.env) (initial (blank fun _ => some "Ada"))
    (sampleReview ++ sampleOptOut)).committed (.review 1) = none := by decide +kernel

end PublicNames
