import BikesNest.GeocodeCache
import BikesNest.Interleaving
import BikesNest.SearchFilters

/-! Who pays for the geocoding provider. A search that needs one asks the cache whether it is
free before it runs, and the geocoder asks it again; between the two looks the clock goes on and
other calls fill the cache. The ledger counts the units that the limiter granted to each client
and the provider calls made for it, and lists the cached answers that were returned. -/

namespace GeocodeMetering

open Parking Interleaving
open GeocodeCache hiding step run
open SearchFilters (SearchInput)

/-- The key under which the limiter counts the geocodes of a client. -/
def budgetKey (client : String) : String := "geocode:ip:" ++ client

/-- A cached answer that was returned. -/
structure Served where
  client : String
  query : String
  charged : Bool

structure Ledger where
  cache : Cache
  units : String → ℕ
  calls : String → ℕ
  served : List Served

def Ledger.start : Ledger := ⟨.empty, fun _ => 0, fun _ => 0, []⟩

/-- What the world hands to a step: the reading of the clock, the answer of the limiter, which is
`none` where it fails, and the answer of the provider. -/
structure World where
  now : ℕ
  limiter : Option Bool
  answer : Except GeocodeError (Option GeoHit)

inductive Request where
  | search (client : String) (input : SearchInput)
  | geocode (client query : String)
  | suggest (client : String)
  | resolveSuggestion (client : String)

/-- What a charge is for. -/
inductive Goal where
  | place (query : String)
  | prediction

inductive Phase where
  | admission (client query : String)
  | locate (client query : String)
  | charge (client : String) (goal : Goal)
  | ask (client query : String) (charged : Bool)
  | predict (client : String)
  | await (query : String)

inductive Reply where
  | unasked
  | refused
  | place (answer : Except GeocodeError (Option GeoHit))
  | predictions

/-- The query of a search, trimmed, unless it is blank. -/
def searchedQuery (input : SearchInput) : Option String :=
  (input.query.map trim).filter fun q => decide (q ≠ "")

def Goal.phase (client : String) : Goal → Phase
  | .place query => .ask client query true
  | .prediction => .predict client

/-- What a call does before it looks at anything shared. -/
def entry : Request → Progress Phase Reply
  -- coordinates win over the query, and without either there is nothing to resolve
  | .search client input =>
    if input.lat.isSome && input.lon.isSome then .done .unasked
    else
      match searchedQuery input with
      | some query => .next (.admission client query)
      | none => .done .unasked
  | .geocode client query => .next (.locate client query)
  | .suggest client => .next (.charge client .prediction)
  | .resolveSuggestion client => .next (.charge client .prediction)

def step (g : CachingGeocoder) (phase : Phase) (w : World) (l : Ledger) :
    Ledger × Progress Phase Reply :=
  match phase with
  | .admission client query =>
    match peek g l.cache query w.now with
    | some _ => (l, .next (.ask client query false))
    | none => (l, .next (.charge client (.place query)))
  | .locate client query =>
    match peek g l.cache query w.now with
    | some hit =>
      ({ l with served := ⟨client, query, false⟩ :: l.served }, .done (.place (.ok (some hit))))
    | none => (l, .next (.charge client (.place query)))
  | .charge client goal =>
    if w.limiter = some true then
      let key := budgetKey client
      ({ l with units := Function.update l.units key (l.units key + 1) },
        .next (goal.phase client))
    else (l, .done .refused)
  -- `CachingGeocoder::geocode` looks for itself
  | .ask client query charged =>
    match peek g l.cache query w.now with
    | some hit =>
      ({ l with served := ⟨client, query, charged⟩ :: l.served },
        .done (.place (.ok (some hit))))
    | none =>
      ({ l with calls := Function.update l.calls client (l.calls client + 1) },
        .next (.await query))
  | .predict client =>
    ({ l with calls := Function.update l.calls client (l.calls client + 1) }, .done .predictions)
  | .await query =>
    match w.answer with
    | .ok (some hit) =>
      ({ l with cache := remember g l.cache query hit w.now }, .done (.place (.ok (some hit))))
    | other => (l, .done (.place other))

def program (g : CachingGeocoder) : Program Ledger Phase Reply World Request Empty where
  entry := entry
  step := step g
  apply op := nomatch op

abbrev GeocodeState := State Ledger ℕ Phase
abbrev GeocodeEvent := Event ℕ World Request Empty

/-- No client has had more provider calls than units, and no cached answer was charged for. -/
def Metered (l : Ledger) : Prop :=
  (∀ client, l.calls client ≤ l.units (budgetKey client)) ∧ ∀ r ∈ l.served, r.charged = false

/-- A query that was admitted free of charge still has its live answer. -/
def KeptAt (g : CachingGeocoder) : Phase → World → Ledger → Prop
  | .ask _ query false, w, l => (peek g l.cache query w.now).isSome = true
  | _, _, _ => True

/-- A query that was charged for still has no live answer. -/
def MissingAt (g : CachingGeocoder) : Phase → World → Ledger → Prop
  | .ask _ query true, w, l => peek g l.cache query w.now = none
  | _, _, _ => True

/-- The condition holds of the call that takes a step. -/
def AtStep (cond : Phase → World → Ledger → Prop) (s : GeocodeState) (e : GeocodeEvent) : Prop :=
  ∀ t w x, e = .advance t w → s.running.find t = some x → cond x.phase w s.store

/-- The call has been charged and has not been at the provider. -/
def owes (client : String) : Phase → Bool
  | .ask c _ true => decide (c = client)
  | .predict c => decide (c = client)
  | _ => false

/-- The same of where a step leads. -/
def owed (client : String) : Progress Phase Reply → ℕ
  | .next phase => if owes client phase then 1 else 0
  | .done _ => 0

section Steps

variable {g : CachingGeocoder} {l : Ledger} {phase : Phase} {w : World}

theorem budgetKey_injective : Function.Injective budgetKey := fun a b h => by
  have same := congrArg String.toList h
  simp only [budgetKey, String.toList_append, List.append_cancel_left_eq] at same
  exact String.toList_injective same

/-- A charge pays for one call, and a call is paid for unless a free query has lost its answer. -/
theorem step_balance (client : String) (kept : KeptAt g phase w l) :
    (step g phase w l).1.calls client + owed client (step g phase w l).2 +
        l.units (budgetKey client) ≤
      l.calls client + (if owes client phase then 1 else 0) +
        (step g phase w l).1.units (budgetKey client) := by
  cases phase with
  | admission c query =>
    simp only [step]
    split <;> simp [owed, owes]
  | locate c query =>
    simp only [step]
    split <;> simp [owed, owes]
  | charge c goal =>
    simp only [step]
    by_cases granted : w.limiter = some true
    · rw [if_pos granted]
      by_cases same : c = client
      · subst same
        cases goal <;> simp [owed, owes, Goal.phase] <;> omega
      · have other : budgetKey client ≠ budgetKey c := fun h => same (budgetKey_injective h).symm
        cases goal <;> simp [owed, owes, Goal.phase, same, other]
    · simp [owed, owes, granted]
  | ask c query charged =>
    simp only [step]
    cases found : peek g l.cache query w.now with
    | some hit => simp [owed]
    | none =>
      cases charged with
      | false => simp [KeptAt, found] at kept
      | true =>
        by_cases same : c = client
        · subst same
          simp [owed, owes]
        · simp [owed, owes, same, Ne.symm same]
  | predict c =>
    simp only [step]
    by_cases same : c = client
    · subst same
      simp [owed, owes]
    · simp [owed, owes, same, Ne.symm same]
  | await query =>
    simp only [step]
    split <;> simp [owed, owes]

/-- A cached answer is charged for exactly where a charged query finds one. -/
theorem step_served : (∀ r ∈ (step g phase w l).1.served, r.charged = false) ↔
    (∀ r ∈ l.served, r.charged = false) ∧ MissingAt g phase w l := by
  cases phase with
  | admission c query =>
    simp only [step, MissingAt, and_true]
    split <;> rfl
  | locate c query =>
    simp only [step, MissingAt, and_true]
    split <;> simp
  | charge c goal =>
    simp only [step, MissingAt, and_true]
    split_ifs <;> rfl
  | ask c query charged =>
    simp only [step]
    cases found : peek g l.cache query w.now with
    | some hit => cases charged <;> simp [MissingAt, found]
    | none => cases charged <;> simp [MissingAt, found]
  | predict c => simp [step, MissingAt]
  | await query =>
    simp only [step, MissingAt, and_true]
    split <;> rfl

end Steps

section Runs

variable {g : CachingGeocoder} {s : GeocodeState} {e : GeocodeEvent}

/-- The calls of a client and those it is still owed are within its units. -/
def Balanced (s : GeocodeState) : Prop :=
  ∀ client, s.store.calls client + countAt s (owes client) ≤ s.store.units (budgetKey client)

theorem entry_owes {request : Request} {phase : Phase} (client : String)
    (h : entry request = .next phase) : owes client phase = false := by
  cases request with
  | search c input =>
    simp only [entry] at h
    split at h
    · cases h
    · split at h
      · cases h
        rfl
      · cases h
  | geocode c query =>
    cases h
    rfl
  | suggest c =>
    cases h
    rfl
  | resolveSuggestion c =>
    cases h
    rfl

/-- A step moves what its own call is owed. -/
theorem owed_settle {t : ℕ} {x : Running ℕ Phase} (found : s.running.find t = some x)
    (client : String) (r : Ledger × Progress Phase Reply) :
    countAt (settle s t r) (owes client) + (if owes client x.phase then 1 else 0) =
      countAt s (owes client) + owed client r.2 := by
  have moved := countAt_settle found (owes client) r
  obtain ⟨store, phase | reply⟩ := r
  · exact moved
  · exact moved

theorem fire_balanced (balanced : Balanced s) (kept : AtStep (KeptAt g) s e) :
    Balanced (fire (program g) s e) := by
  intro client
  have before := balanced client
  cases e with
  | begin t request =>
    rw [fire_begin_store, countAt_begin (owes client) fun phase h => entry_owes client h]
    exact before
  | advance t w =>
    cases found : s.running.find t with
    | none =>
      have still : fire (program g) s (.advance t w) = s := by simp only [fire, found]
      rw [still]
      exact before
    | some x =>
      rw [fire_advance found, settle_store]
      have moved := owed_settle found client (step g x.phase w s.store)
      have paid := step_balance client (kept t w x rfl found)
      have same : (program g).step x.phase w s.store = step g x.phase w s.store := rfl
      rw [same]
      omega
  | drop t =>
    cases found : s.running.find t with
    | none =>
      rw [fire_drop_none found]
      exact before
    | some x =>
      have fewer := countAt_drop (P := program g) found (owes client)
      have same : (fire (program g) s (.drop t)).store = s.store := rfl
      rw [same]
      omega
  | other op => cases op

theorem fire_served : (∀ r ∈ (fire (program g) s e).store.served, r.charged = false) ↔
    (∀ r ∈ s.store.served, r.charged = false) ∧ AtStep (MissingAt g) s e := by
  have idle (h : ∀ t w, e ≠ .advance t w) : AtStep (MissingAt g) s e :=
    fun t w _ same => absurd same (h t w)
  cases e with
  | begin t request =>
    rw [fire_begin_store, and_iff_left (idle (by rintro _ _ ⟨⟩))]
  | advance t w =>
    cases found : s.running.find t with
    | none =>
      have still : fire (program g) s (.advance t w) = s := by simp only [fire, found]
      have none : AtStep (MissingAt g) s (.advance t w) := by
        intro t' w' x same here
        cases same
        rw [found] at here
        cases here
      rw [still, and_iff_left none]
    | some x =>
      have one : AtStep (MissingAt g) s (.advance t w) ↔ MissingAt g x.phase w s.store := by
        constructor
        · exact fun h => h t w x rfl found
        · intro h t' w' y same here
          cases same
          rw [found] at here
          cases here
          exact h
      rw [fire_advance found, settle_store, one]
      exact step_served
  | drop t =>
    rw [and_iff_left (idle (by rintro _ _ ⟨⟩))]
    rfl
  | other op => cases op

theorem run_served (events : List GeocodeEvent) :
    (∀ r ∈ (run (program g) s events).store.served, r.charged = false) ↔
      (∀ r ∈ s.store.served, r.charged = false) ∧
        Along (program g) (AtStep (MissingAt g)) s events := by
  induction events generalizing s with
  | nil => simp [run, Along]
  | cons e events ih =>
    rw [Along, ← and_assoc, ← fire_served]
    exact ih

end Runs

/-- Provider calls stay within the units charged, in every run in which no query that was admitted
free of charge has lost its answer when the geocoder looks again; and no returned answer was
charged for exactly where no charged query finds one then. -/
theorem metered_while_steady (g : CachingGeocoder) (events : List GeocodeEvent) :
    (Along (program g) (AtStep (KeptAt g)) (initial .start) events → ∀ client,
      (run (program g) (initial .start) events).store.calls client ≤
        (run (program g) (initial .start) events).store.units (budgetKey client)) ∧
    ((∀ r ∈ (run (program g) (initial .start) events).store.served, r.charged = false) ↔
      Along (program g) (AtStep (MissingAt g)) (initial .start) events) := by
  constructor
  · intro kept client
    have start : Balanced (initial .start : GeocodeState) := fun _ => le_rfl
    have balanced := run_invariant (fun _ _ => fire_balanced) start kept
    exact (Nat.le_add_right _ _).trans (balanced client)
  · rw [run_served, and_iff_right]
    exact fun r h => absurd h List.not_mem_nil

def world (now : ℕ) : World := ⟨now, some true, .ok (some somewhere)⟩

def searchFor (query : String) : SearchInput :=
  ⟨some query, none, none, none, none, none, none, false, none, none, none, none⟩

/-- A search is admitted on an answer that is as good as over, and finds it gone. -/
def goneStale : List GeocodeEvent :=
  [.begin 0 (.geocode "a" "rua"), .advance 0 (world 0), .advance 0 (world 0), .advance 0 (world 0),
    .advance 0 (world 1), .begin 1 (.search "b" (searchFor "rua")), .advance 1 (world 40),
    .advance 1 (world 41)]

/-- Two clients are charged for one query, and the second finds the answer of the first. -/
def filledMeanwhile : List GeocodeEvent :=
  [.begin 0 (.geocode "a" "rua"), .begin 1 (.geocode "b" "rua"), .advance 0 (world 0),
    .advance 1 (world 0), .advance 0 (world 0), .advance 1 (world 0), .advance 0 (world 0),
    .advance 0 (world 1), .advance 1 (world 2)]

/-- The first run calls the provider for a client that was charged nothing, and the second charges
a client for an answer that the cache had. -/
theorem looks_apart :
    ¬ Metered (run (program small) (initial .start) goneStale).store ∧
    ¬ Metered (run (program small) (initial .start) filledMeanwhile).store := by
  constructor
  · rintro ⟨within, -⟩
    have bound := within "b"
    revert bound
    decide +kernel
  · rintro ⟨-, free⟩
    have paid : ((run (program small) (initial .start) filledMeanwhile).store.served.any
        fun r => r.charged) = true := by decide +kernel
    obtain ⟨r, mem, charged⟩ := List.any_eq_true.mp paid
    rw [free r mem] at charged
    cases charged

end GeocodeMetering
