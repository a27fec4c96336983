import BikesNest.Interleaving
import BikesNest.Json
import BikesNest.Parking

/-! The download of an export of personal data: it is read, checked, marked as downloaded and
decoded in separate steps, beside other downloads and the purges of what has expired. The record
beside the store says which calls have returned a payload. -/

namespace Exports

open Parking Interleaving

inductive ExportState where
  | ready | downloaded | expired
  deriving DecidableEq

/-- A row of `personal_data_export`; `J` is the stored form of a payload. -/
structure ExportRow (J : Type) where
  id : ℕ
  state : ExportState
  tokenHash : String
  payload : J
  expiresAt : Instant
  downloadedAt : Option Instant

/-- The arguments of a download, with the time that was read for it. -/
structure Download (K : Type) where
  id : ℕ
  token : K
  now : Instant

/-- A payload that was returned, and when. -/
structure Delivery (K : Type) where
  download : Download K
  returnedAt : Instant

structure ExportStore (K J : Type) where
  exports : Table ℕ (ExportRow J) ExportRow.id
  clock : Instant
  delivered : List (Delivery K)

inductive PrivacyError where
  | notFound
  | invalidToken
  | alreadyDownloaded
  | expired
  | unavailable
  | internal
  deriving DecidableEq

inductive Reply (V : Type) where
  | payload (value : V)
  | purged (rows : ℕ)

/-- The hash of tokens, and the decoder of stored payloads. -/
structure Encoding (K J V : Type) where
  sha256Hex : K → String
  decode : J → Option V

inductive Call (K : Type) where
  | consumeDownload (id : ℕ) (token : K)
  | purgeExpired
  | purgeExpiredExports

inductive Phase (K J : Type) where
  | readClock (id : ℕ) (token : K)
  | select (call : Download K)
  | check (call : Download K) (payload : J)
  | update (call : Download K) (payload : J)
  | decode (call : Download K) (payload : J)
  | readPurgeClock (readyOnly : Bool)
  | purge (readyOnly : Bool) (now : Instant)

/-- Some time passes. -/
inductive ClockOp where
  | elapse (gap : ℕ)

/-- `constant_time_hex_eq`: of strings of an odd length none are equal. -/
def constantTimeHexEq (a b : String) : Bool := decide (a.utf8ByteSize % 2 = 0 ∧ a = b)

variable {K J V : Type}

/-- The update of a download finds its row. -/
def Takes (s : ExportStore K J) (call : Download K) : Prop :=
  ∃ r ∈ s.exports.find call.id, r.state = .ready ∧ call.now < r.expiresAt

instance (s : ExportStore K J) (call : Download K) : Decidable (Takes s call) := by
  unfold Takes
  infer_instance

/-- `SET state = 'DOWNLOADED', downloaded_at = $2 WHERE id = $1`. -/
def markDownloaded (s : ExportStore K J) (call : Download K) : ExportStore K J :=
  { s with
    exports := s.exports.update (fun r => decide (r.id = call.id))
      (fun r => { r with state := .downloaded, downloadedAt := some call.now }) fun _ => rfl }

def entry : Call K → Progress (Phase K J) (Except PrivacyError (Reply V))
  | .consumeDownload id token => .next (.readClock id token)
  | .purgeExpired => .next (.readPurgeClock true)
  | .purgeExpiredExports => .next (.readPurgeClock false)

/-- One statement of a call. The input says whether it is answered: what is not answered has no
effect, but for the update, whose answer is a step of its own. -/
def step (enc : Encoding K J V) (phase : Phase K J) (answered : Bool) (s : ExportStore K J) :
    ExportStore K J × Progress (Phase K J) (Except PrivacyError (Reply V)) :=
  match phase with
  | .readClock id token => (s, .next (.select ⟨id, token, s.clock⟩))
  | .select call =>
    if answered = false then (s, .done (.error .unavailable))
    else
      match s.exports.find call.id with
      | none => (s, .done (.error .notFound))
      | some r => (s, .next (.check call r.payload))
  | .check call payload =>
    if answered = false then (s, .done (.error .unavailable))
    else
      match s.exports.find call.id with
      | none => (s, .done (.error .notFound))
      | some r =>
        if constantTimeHexEq r.tokenHash (enc.sha256Hex call.token) = false then
          (s, .done (.error .invalidToken))
        else if r.state = .downloaded then (s, .done (.error .alreadyDownloaded))
        else if r.state = .expired ∨ r.expiresAt < call.now then (s, .done (.error .expired))
        else (s, .next (.update call payload))
  | .update call payload =>
    if answered = false then (s, .done (.error .unavailable))
    else if Takes s call then (markDownloaded s call, .next (.decode call payload))
    else (s, .done (.error .alreadyDownloaded))
  | .decode call payload =>
    if answered = false then (s, .done (.error .unavailable))
    else
      match enc.decode payload with
      | none => (s, .done (.error .internal))
      | some value =>
        ({ s with delivered := ⟨call, s.clock⟩ :: s.delivered }, .done (.ok (.payload value)))
  | .readPurgeClock readyOnly => (s, .next (.purge readyOnly s.clock))
  | .purge readyOnly now =>
    if answered = false then (s, .done (.error .unavailable))
    else
      let goes : ExportRow J → Bool := fun r =>
        decide ((readyOnly = true → r.state = .ready) ∧ r.expiresAt < now)
      ({ s with exports := s.exports.delete goes }, .done (.ok (.purged (s.exports.count goes))))

def apply : ClockOp → ExportStore K J → ExportStore K J
  | .elapse gap, s => { s with clock := s.clock + gap }

def program (enc : Encoding K J V) :
    Program (ExportStore K J) (Phase K J) (Except PrivacyError (Reply V)) Bool (Call K) ClockOp :=
  ⟨entry, step enc, apply⟩

abbrev ExportRunning (K J : Type) := State (ExportStore K J) ℕ (Phase K J)

abbrev ExportEvent (K : Type) := Event ℕ Bool (Call K) ClockOp

/-! An export that can still be downloaded, a call that is about to return its payload and a call
that has returned it are all the same stake, which a step may lose but never doubles. -/

section Stake

variable (enc : Encoding K J V) (id : ℕ)

/-- The call is about to return the payload. -/
def Phase.returns : Phase K J → Bool
  | .decode call payload => decide (call.id = id) && (enc.decode payload).isSome
  | _ => false

def ready (s : ExportStore K J) : ℕ :=
  if ∃ r ∈ s.exports.find id, r.state = .ready then 1 else 0

def deliveries (s : ExportStore K J) : ℕ :=
  s.delivered.countP fun d => decide (d.download.id = id)

def stake (s : ExportRunning K J) : ℕ :=
  ready id s.store + countAt s (Phase.returns enc id) + deliveries id s.store

/-- The step of the call loses no payload: what the update takes can be decoded, and the answer of
an update arrives. -/
def Phase.keeps (phase : Phase K J) (answered : Bool) (s : ExportStore K J) : Prop :=
  match phase with
  | .update call payload =>
    call.id = id → answered = true → Takes s call → (enc.decode payload).isSome
  | .decode call payload => call.id = id → (enc.decode payload).isSome → answered = true
  | _ => True

/-- No payload is lost, and no call is given up that is about to return it. -/
def Careful (s : ExportRunning K J) : ExportEvent K → Prop
  | .advance t answered => ∀ x ∈ s.running.find t, x.phase.keeps enc id answered s.store
  | .drop t => ∀ x ∈ s.running.find t, x.phase.returns enc id = false
  | _ => True

variable {enc id}

theorem ready_congr {s s' : ExportStore K J} (same : s'.exports.find id = s.exports.find id) :
    ready id s' = ready id s := by
  simp only [ready, same]

theorem find_markDownloaded (s : ExportStore K J) (call : Download K) (i : ℕ) :
    (markDownloaded s call).exports.find i = (s.exports.find i).map fun r =>
      if r.id = call.id then { r with state := .downloaded, downloadedAt := some call.now } else r := by
  rw [markDownloaded, Table.find_update]
  simp only [decide_eq_true_eq]

theorem ready_markDownloaded {s : ExportStore K J} {call : Download K} (takes : Takes s call) :
    ready id (markDownloaded s call) + (if call.id = id then 1 else 0) = ready id s := by
  obtain ⟨r, found, state, -⟩ := takes
  obtain ⟨-, same⟩ := Table.find_eq_some.mp found
  by_cases here : call.id = id
  · subst here
    have taken : ready call.id s = 1 := if_pos ⟨r, found, state⟩
    have gone : ready call.id (markDownloaded s call) = 0 := by
      rw [ready, find_markDownloaded, found, if_neg]
      simp [same]
    rw [taken, gone, if_pos rfl]
  · rw [if_neg here, Nat.add_zero]
    apply ready_congr
    rw [find_markDownloaded]
    cases other : s.exports.find id with
    | none => rfl
    | some q =>
      have different : q.id ≠ call.id := by
        rw [(Table.find_eq_some.mp other).2]
        exact fun h => here h.symm
      simp [different]

/-- The stake of a store and of a call that stands there. -/
def holding (enc : Encoding K J V) (id : ℕ) :
    ExportStore K J × Progress (Phase K J) (Except PrivacyError (Reply V)) → ℕ
  | (s, .next phase) => ready id s + deliveries id s + if phase.returns enc id then 1 else 0
  | (s, .done _) => ready id s + deliveries id s

variable (enc) in
/-- What a step of a call can do, besides a purge: nothing to the store, or an update that takes the
row, or the return of a payload. -/
theorem step_cases {phase : Phase K J} (answered : Bool) (s : ExportStore K J)
    (other : ∀ readyOnly now, phase ≠ .purge readyOnly now) :
    (∃ call payload, phase = .update call payload ∧ answered = true ∧ Takes s call ∧
      step enc phase answered s = (markDownloaded s call, .next (.decode call payload))) ∨
    (∃ call payload value, phase = .decode call payload ∧ answered = true ∧
      enc.decode payload = some value ∧
      step enc phase answered s =
        ({ s with delivered := ⟨call, s.clock⟩ :: s.delivered }, .done (.ok (.payload value)))) ∨
    (∃ call payload error, phase = .decode call payload ∧
      (answered = true → enc.decode payload = none) ∧
      step enc phase answered s = (s, .done (.error error))) ∨
    ((∀ id, phase.returns enc id = false ∧ phase.keeps enc id answered s) ∧
      ((∃ error, step enc phase answered s = (s, .done (.error error))) ∨
        ∃ next, step enc phase answered s = (s, .next next) ∧ ∀ id, next.returns enc id = false)) := by
  cases phase with
  | readClock i token =>
    exact Or.inr (Or.inr (Or.inr ⟨fun _ => ⟨rfl, trivial⟩, Or.inr ⟨_, rfl, fun _ => rfl⟩⟩))
  | select call =>
    refine Or.inr (Or.inr (Or.inr ⟨fun _ => ⟨rfl, trivial⟩, ?_⟩))
    simp only [step]
    split
    · exact Or.inl ⟨_, rfl⟩
    · split
      · exact Or.inl ⟨_, rfl⟩
      · exact Or.inr ⟨_, rfl, fun _ => rfl⟩
  | check call payload =>
    refine Or.inr (Or.inr (Or.inr ⟨fun _ => ⟨rfl, trivial⟩, ?_⟩))
    simp only [step]
    split
    · exact Or.inl ⟨_, rfl⟩
    · split
      · exact Or.inl ⟨_, rfl⟩
      · split_ifs
        · exact Or.inl ⟨_, rfl⟩
        · exact Or.inl ⟨_, rfl⟩
        · exact Or.inl ⟨_, rfl⟩
        · exact Or.inr ⟨_, rfl, fun _ => rfl⟩
  | update call payload =>
    by_cases silent : answered = false
    · refine Or.inr (Or.inr (Or.inr ⟨fun _ => ⟨rfl, ?_⟩, Or.inl ⟨_, if_pos silent⟩⟩))
      intro _ loud
      rw [silent] at loud
      cases loud
    · by_cases takes : Takes s call
      · exact Or.inl ⟨call, payload, rfl, by simpa using silent, takes,
          (if_neg silent).trans (if_pos takes)⟩
      · exact Or.inr (Or.inr (Or.inr ⟨fun _ => ⟨rfl, fun _ _ h => absurd h takes⟩,
          Or.inl ⟨_, (if_neg silent).trans (if_neg takes)⟩⟩))
  | decode call payload =>
    by_cases silent : answered = false
    · refine Or.inr (Or.inr (Or.inl ⟨call, payload, _, rfl, fun loud => ?_, if_pos silent⟩))
      rw [silent] at loud
      cases loud
    · cases decoded : enc.decode payload with
      | none =>
        refine Or.inr (Or.inr (Or.inl ⟨call, payload, .internal, rfl, fun _ => decoded, ?_⟩))
        simp only [step, if_neg silent, decoded]
      | some value =>
        refine Or.inr (Or.inl ⟨call, payload, value, rfl, by simpa using silent, decoded, ?_⟩)
        simp only [step, if_neg silent, decoded]
  | readPurgeClock readyOnly =>
    exact Or.inr (Or.inr (Or.inr ⟨fun _ => ⟨rfl, trivial⟩, Or.inr ⟨_, rfl, fun _ => rfl⟩⟩))
  | purge readyOnly now => exact absurd rfl (other readyOnly now)

variable (enc id) in
theorem holding_step {phase : Phase K J} {s : ExportStore K J}
    (other : ∀ readyOnly now, phase ≠ .purge readyOnly now) (answered : Bool) :
    (phase.keeps enc id answered s →
      holding enc id (step enc phase answered s) = holding enc id (s, .next phase)) ∧
    (¬ phase.keeps enc id answered s →
      holding enc id (step enc phase answered s) + 1 = holding enc id (s, .next phase)) := by
  rcases step_cases enc answered s other with ⟨call, payload, rfl, loud, takes, stepped⟩ |
    ⟨call, payload, value, rfl, loud, decoded, stepped⟩ |
    ⟨call, payload, error, rfl, lost, stepped⟩ | ⟨idle, stepped⟩
  · have moved : ready id (markDownloaded s call) + (if call.id = id then 1 else 0) =
        ready id s := ready_markDownloaded takes
    have same : deliveries id (markDownloaded s call) = deliveries id s := rfl
    rw [stepped]
    simp only [holding, Phase.returns, Phase.keeps, loud, takes, same, forall_const]
    by_cases here : call.id = id
    · rw [if_pos here] at moved
      simp only [here, decide_true, Bool.true_and, forall_const]
      by_cases decodes : (enc.decode payload).isSome = true
      · simp [decodes]
        omega
      · simp [decodes]
        omega
    · rw [if_neg here] at moved
      simp [here]
      omega
  · have same : ∀ d : List (Delivery K), ready id { s with delivered := d } = ready id s :=
      fun _ => rfl
    rw [stepped]
    simp only [holding, Phase.returns, Phase.keeps, decoded, loud, same, deliveries, List.countP_cons]
    by_cases here : call.id = id
    · simp [here]
      omega
    · simp [here]
  · rw [stepped]
    simp only [holding, Phase.returns, Phase.keeps]
    by_cases here : call.id = id
    · simp only [here, decide_true, Bool.true_and, forall_const]
      cases answered with
      | true => simp [lost rfl]
      | false => by_cases decodes : (enc.decode payload).isSome = true <;> simp [decodes]
    · simp [here]
  · obtain ⟨still, keeps⟩ := idle id
    refine ⟨fun _ => ?_, fun h => absurd keeps h⟩
    rcases stepped with ⟨error, stepped⟩ | ⟨next, stepped, quiet⟩
    · rw [stepped]
      simp [holding, still]
    · rw [stepped]
      simp [holding, still, quiet id]

variable (enc id) in
theorem stake_settle {s : ExportRunning K J} {t : ℕ} {x : Running ℕ (Phase K J)}
    (found : s.running.find t = some x)
    (r : ExportStore K J × Progress (Phase K J) (Except PrivacyError (Reply V))) :
    stake enc id (settle s t r) + holding enc id (s.store, .next x.phase) =
      stake enc id s + holding enc id r := by
  have moved := countAt_settle found (Phase.returns enc id) r
  obtain ⟨store, phase | result⟩ := r
  · simp only [stake, holding, settle_store] at moved ⊢
    omega
  · simp only [stake, holding, settle_store] at moved ⊢
    omega

variable (enc id) in
/-- A purge leaves an export that has not expired when its time was read. -/
theorem holding_purge (readyOnly answered : Bool) (now : Instant) (s : ExportStore K J) :
    holding enc id (step enc (.purge readyOnly now) answered s) ≤ ready id s + deliveries id s ∧
      ((∀ r ∈ s.exports.find id, now ≤ r.expiresAt) →
        holding enc id (step enc (.purge readyOnly now) answered s) =
          ready id s + deliveries id s) := by
  by_cases silent : answered = false
  · have stepped : step enc (.purge readyOnly now) answered s = (s, .done (.error .unavailable)) :=
      if_pos silent
    rw [stepped]
    exact ⟨le_rfl, fun _ => rfl⟩
  · simp only [step, if_neg silent, holding]
    have same : ∀ e : Table ℕ (ExportRow J) ExportRow.id,
        deliveries id { s with exports := e } = deliveries id s := fun _ => rfl
    rw [same]
    constructor
    · apply Nat.add_le_add_right
      simp only [ready]
      split_ifs with left before
      · exact le_rfl
      · obtain ⟨r, found, state⟩ := left
        rw [Option.mem_def, Table.find_delete, Option.filter_eq_some_iff] at found
        exact absurd ⟨r, found.1, state⟩ before
      · exact Nat.zero_le _
      · exact le_rfl
    · intro later
      rw [ready_congr]
      simp only [Table.find_delete]
      cases found : s.exports.find id with
      | none => rfl
      | some r =>
        have kept : ¬ r.expiresAt < now := not_lt_of_ge (later r found)
        simp [kept]

variable (enc id) in
theorem holding_step_le (phase : Phase K J) (answered : Bool) (s : ExportStore K J) :
    holding enc id (step enc phase answered s) ≤ holding enc id (s, .next phase) := by
  by_cases purge : ∃ readyOnly now, phase = .purge readyOnly now
  · obtain ⟨readyOnly, now, rfl⟩ := purge
    exact (holding_purge enc id readyOnly answered now s).1.trans (Nat.le_add_right _ _)
  · have other : ∀ readyOnly now, phase ≠ .purge readyOnly now :=
      fun readyOnly now same => purge ⟨readyOnly, now, same⟩
    obtain ⟨kept, lost⟩ := holding_step enc id (s := s) other answered
    by_cases keeps : phase.keeps enc id answered s
    · exact (kept keeps).le
    · have := lost keeps
      omega

/-- A call that begins changes no stake. -/
theorem stake_begin (s : ExportRunning K J) (t : ℕ) (call : Call K) :
    stake enc id (fire (program enc) s (.begin t call)) = stake enc id s := by
  have same : countAt (fire (program enc) s (.begin t call)) (Phase.returns enc id) =
      countAt s (Phase.returns enc id) := by
    apply countAt_begin
    intro phase first
    cases call <;> cases first <;> rfl
  have store : (fire (program enc) s (.begin t call)).store = s.store := by
    simp only [fire]
    split
    · split <;> rfl
    · rfl
  rw [stake, stake, same, store]

variable (enc id) in
theorem stake_drop {s : ExportRunning K J} {t : ℕ} {x : Running ℕ (Phase K J)}
    (found : s.running.find t = some x) :
    stake enc id (fire (program enc) s (.drop t)) + (if x.phase.returns enc id then 1 else 0) =
      stake enc id s := by
  have moved := countAt_drop (P := program enc) found (Phase.returns enc id)
  have store : (fire (program enc) s (.drop t)).store = s.store := rfl
  rw [stake, stake, store]
  omega

/-- No event makes a second stake. -/
theorem stake_fire_le (s : ExportRunning K J) (e : ExportEvent K) :
    stake enc id (fire (program enc) s e) ≤ stake enc id s := by
  cases e with
  | begin t call => exact (stake_begin s t call).le
  | advance t answered =>
    cases found : s.running.find t with
    | none =>
      simp only [fire, found]
      exact le_rfl
    | some x =>
      rw [fire_advance found]
      have moved := stake_settle enc id found (step enc x.phase answered s.store)
      have less := holding_step_le enc id x.phase answered s.store
      simp only [program]
      omega
  | drop t =>
    cases found : s.running.find t with
    | none => rw [fire_drop_none found]
    | some x =>
      have := stake_drop enc id found
      omega
  | other op =>
    cases op
    exact le_rfl

end Stake

section Export

variable {enc : Encoding K J V} {r₀ : ExportRow J}

/-- The token is that of the export. -/
def Right (enc : Encoding K J V) (r₀ : ExportRow J) (token : K) : Prop :=
  constantTimeHexEq r₀.tokenHash (enc.sha256Hex token) = true

/-- The row of an export keeps its token, its payload and its expiry, and goes when it has expired. -/
structure Kept (r₀ : ExportRow J) (s : ExportStore K J) : Prop where
  same : ∀ r ∈ s.exports.find r₀.id,
    r.tokenHash = r₀.tokenHash ∧ r.payload = r₀.payload ∧ r.expiresAt = r₀.expiresAt
  there : s.clock ≤ r₀.expiresAt → ∃ r, s.exports.find r₀.id = some r

/-- What a call relies on between two steps. -/
def Relies (enc : Encoding K J V) (r₀ : ExportRow J) (phase : Phase K J) (s : ExportStore K J) :
    Prop :=
  match phase with
  | .check call payload => call.id = r₀.id → payload = r₀.payload
  | .update call payload => call.id = r₀.id → payload = r₀.payload ∧ Right enc r₀ call.token
  | .decode call payload =>
    call.id = r₀.id → payload = r₀.payload ∧ Right enc r₀ call.token ∧ call.now < r₀.expiresAt
  | .purge _ now => now ≤ s.clock
  | _ => True

/-- A payload was returned to a call with the right token that had read a time before the expiry. -/
def Given (enc : Encoding K J V) (r₀ : ExportRow J) (s : ExportStore K J) : Prop :=
  ∀ d ∈ s.delivered, d.download.id = r₀.id →
    Right enc r₀ d.download.token ∧ d.download.now < r₀.expiresAt

structure Lawful (enc : Encoding K J V) (r₀ : ExportRow J) (s : ExportRunning K J) : Prop where
  kept : Kept r₀ s.store
  calls : Asserts (Relies enc r₀) s
  given : Given enc r₀ s.store

variable (enc) in
/-- What a step of a call does to the store. -/
theorem step_store (phase : Phase K J) (answered : Bool) (s : ExportStore K J) :
    (step enc phase answered s).1 = s ∨
    (∃ call payload, phase = .update call payload ∧
      (step enc phase answered s).1 = markDownloaded s call) ∨
    (∃ call payload, phase = .decode call payload ∧
      (step enc phase answered s).1 = { s with delivered := ⟨call, s.clock⟩ :: s.delivered }) ∨
    ∃ readyOnly now, phase = .purge readyOnly now ∧
      (step enc phase answered s).1 =
        { s with
          exports := s.exports.delete fun r =>
            decide ((readyOnly = true → r.state = .ready) ∧ r.expiresAt < now) } := by
  by_cases purge : ∃ readyOnly now, phase = .purge readyOnly now
  · obtain ⟨readyOnly, now, rfl⟩ := purge
    by_cases silent : answered = false
    · exact Or.inl (congrArg Prod.fst (if_pos silent))
    · exact Or.inr (Or.inr (Or.inr ⟨readyOnly, now, rfl, congrArg Prod.fst (if_neg silent)⟩))
  · have other : ∀ readyOnly now, phase ≠ .purge readyOnly now :=
      fun readyOnly now same => purge ⟨readyOnly, now, same⟩
    rcases step_cases enc answered s other with ⟨call, payload, rfl, -, -, stepped⟩ |
      ⟨call, payload, value, rfl, -, -, stepped⟩ | ⟨call, payload, error, rfl, -, stepped⟩ |
      ⟨-, ⟨error, stepped⟩ | ⟨next, stepped, -⟩⟩
    · exact Or.inr (Or.inl ⟨call, payload, rfl, congrArg Prod.fst stepped⟩)
    · exact Or.inr (Or.inr (Or.inl ⟨call, payload, rfl, congrArg Prod.fst stepped⟩))
    · exact Or.inl (congrArg Prod.fst stepped)
    · exact Or.inl (congrArg Prod.fst stepped)
    · exact Or.inl (congrArg Prod.fst stepped)

variable (enc) in
theorem step_clock (phase : Phase K J) (answered : Bool) (s : ExportStore K J) :
    (step enc phase answered s).1.clock = s.clock := by
  rcases step_store enc phase answered s with stepped | ⟨call, payload, -, stepped⟩ |
    ⟨call, payload, -, stepped⟩ | ⟨readyOnly, now, -, stepped⟩ <;> rw [stepped]
  rfl

theorem kept_step {phase : Phase K J} {s : ExportStore K J} (h : Kept r₀ s)
    (relies : Relies enc r₀ phase s) (answered : Bool) : Kept r₀ (step enc phase answered s).1 := by
  rcases step_store enc phase answered s with stepped | ⟨call, payload, rfl, stepped⟩ |
    ⟨call, payload, rfl, stepped⟩ | ⟨readyOnly, now, rfl, stepped⟩
  · rwa [stepped]
  · rw [stepped]
    constructor
    · intro r found
      rw [Option.mem_def, find_markDownloaded, Option.map_eq_some_iff] at found
      obtain ⟨q, found, rfl⟩ := found
      have same := h.same q found
      split_ifs
      · exact same
      · exact same
    · intro early
      obtain ⟨r, found⟩ := h.there early
      exact ⟨_, by rw [find_markDownloaded, found, Option.map_some]⟩
  · rw [stepped]
    exact ⟨h.same, h.there⟩
  · rw [stepped]
    constructor
    · intro r found
      rw [Option.mem_def, Table.find_delete, Option.filter_eq_some_iff] at found
      exact h.same r found.1
    · intro early
      obtain ⟨r, found⟩ := h.there early
      refine ⟨r, ?_⟩
      -- the purge read its time before now, and the export has not expired
      have kept : ¬ r.expiresAt < now := by
        rw [(h.same r found).2.2]
        exact not_lt_of_ge (le_trans relies early)
      rw [Table.find_delete, found, Option.filter_some_pos]
      simp [kept]

theorem given_step {phase : Phase K J} {s : ExportStore K J} (h : Given enc r₀ s)
    (relies : Relies enc r₀ phase s) (answered : Bool) :
    Given enc r₀ (step enc phase answered s).1 := by
  rcases step_store enc phase answered s with stepped | ⟨call, payload, rfl, stepped⟩ |
    ⟨call, payload, rfl, stepped⟩ | ⟨readyOnly, now, rfl, stepped⟩
  · rwa [stepped]
  · rw [stepped]
    exact h
  · rw [stepped]
    intro d hd same
    rcases List.mem_cons.mp hd with rfl | hd
    · exact (relies same).2
    · exact h d hd same
  · rw [stepped]
    exact h

/-- A step establishes what the next one relies on. -/
theorem relies_step {phase next : Phase K J} {s t : ExportStore K J} {answered : Bool}
    (h : Kept r₀ s) (relies : Relies enc r₀ phase s)
    (stepped : step enc phase answered s = (t, .next next)) : Relies enc r₀ next t := by
  cases phase with
  | readClock id token =>
    cases stepped
    trivial
  | select call =>
    simp only [step] at stepped
    split_ifs at stepped
    · cases stepped
    · split at stepped
      · cases stepped
      · rename_i r found
        cases stepped
        intro same
        exact (h.same r (same ▸ found)).2.1
  | check call payload =>
    simp only [step] at stepped
    split_ifs at stepped
    · cases stepped
    · split at stepped
      · cases stepped
      · rename_i r found
        split_ifs at stepped with wrong
        all_goals cases stepped
        intro same
        refine ⟨relies same, ?_⟩
        rw [Right, ← (h.same r (same ▸ found)).1]
        simpa using wrong
  | update call payload =>
    simp only [step] at stepped
    split_ifs at stepped with silent takes
    all_goals cases stepped
    intro same
    obtain ⟨r, found, -, early⟩ := takes
    refine ⟨(relies same).1, (relies same).2, ?_⟩
    rw [← (h.same r (same ▸ found)).2.2]
    exact early
  | decode call payload =>
    simp only [step] at stepped
    split_ifs at stepped
    · cases stepped
    · split at stepped <;> cases stepped
  | readPurgeClock readyOnly =>
    cases stepped
    exact le_rfl
  | purge readyOnly now =>
    simp only [step] at stepped
    split_ifs at stepped <;> cases stepped

theorem relies_mono {phase : Phase K J} {s t : ExportStore K J} (later : s.clock ≤ t.clock)
    (h : Relies enc r₀ phase s) : Relies enc r₀ phase t := by
  cases phase with
  | purge readyOnly now => exact le_trans h later
  | _ => exact h

theorem clock_fire_le (s : ExportRunning K J) (e : ExportEvent K) :
    s.store.clock ≤ (fire (program enc) s e).store.clock :=
  fire_preserves_store (I := fun t : ExportStore K J => s.store.clock ≤ t.clock) (L := fun _ _ => True) le_rfl
    (fun _ _ => trivial) e (fun phase answered _ => (step_clock enc phase answered s.store).ge)
    fun op => by
      cases op
      exact le_add_of_nonneg_right (Int.natCast_nonneg _)

/-- Every event keeps the export lawful. -/
theorem lawful_fire {s : ExportRunning K J} (h : Lawful enc r₀ s) (e : ExportEvent K) :
    Lawful enc r₀ (fire (program enc) s e) where
  kept := fire_preserves_store h.kept h.calls e
    (fun phase answered relies => kept_step h.kept relies answered)
    fun op => by
      cases op with
      | elapse gap =>
        refine ⟨h.kept.same, fun early => h.kept.there ?_⟩
        exact le_trans (le_add_of_nonneg_right (Int.natCast_nonneg gap)) early
  calls := fire_preserves_asserts h.calls e
    (fun call phase first => by
      cases call <;> cases first <;> trivial)
    (fun phase answered t next relies stepped => relies_step h.kept relies stepped)
    fun x _ relies => relies_mono (clock_fire_le s e) relies
  given := fire_preserves_store h.given h.calls e
    (fun phase answered relies => given_step h.given relies answered)
    fun op => by
      cases op
      exact h.given

/-! The clock does not pass the expiry while a call is under way. -/

def Phase.download : Phase K J → Option (Download K)
  | .select call => some call
  | .check call _ => some call
  | .update call _ => some call
  | .decode call _ => some call
  | _ => none

/-- The clock does not pass the expiry of the export while a call runs that began before it. -/
def Prompt (r₀ : ExportRow J) (s : ExportRunning K J) : ExportEvent K → Prop
  | .other (.elapse gap) => ∀ x ∈ s.running.rows, ∀ call ∈ x.phase.download, call.id = r₀.id →
      call.now ≤ r₀.expiresAt → s.store.clock + gap ≤ r₀.expiresAt
  | _ => True

def Timely (r₀ : ExportRow J) (phase : Phase K J) (s : ExportStore K J) : Prop :=
  ∀ call ∈ phase.download, call.id = r₀.id → call.now ≤ r₀.expiresAt → s.clock ≤ r₀.expiresAt

/-- No payload was returned after the expiry. -/
def InTime (r₀ : ExportRow J) (s : ExportStore K J) : Prop :=
  ∀ d ∈ s.delivered, d.download.id = r₀.id → d.returnedAt ≤ r₀.expiresAt

/-- A step is that of the call it belongs to, which has read its time by then. -/
theorem step_download {phase next : Phase K J} {s t : ExportStore K J} {answered : Bool}
    (stepped : step enc phase answered s = (t, .next next)) :
    next.download = phase.download ∨ ∀ call ∈ next.download, call.now = s.clock := by
  cases phase with
  | readClock id token =>
    cases stepped
    right
    rintro call ⟨⟩
    rfl
  | select call =>
    left
    simp only [step] at stepped
    split_ifs at stepped
    · cases stepped
    · split at stepped <;> cases stepped
      rfl
  | check call payload =>
    left
    simp only [step] at stepped
    split_ifs at stepped
    · cases stepped
    · split at stepped
      · cases stepped
      · split_ifs at stepped <;> cases stepped
        rfl
  | update call payload =>
    left
    simp only [step] at stepped
    split_ifs at stepped <;> cases stepped
    rfl
  | decode call payload =>
    simp only [step] at stepped
    split_ifs at stepped
    · cases stepped
    · split at stepped <;> cases stepped
  | readPurgeClock readyOnly =>
    cases stepped
    exact Or.inl rfl
  | purge readyOnly now =>
    simp only [step] at stepped
    split_ifs at stepped <;> cases stepped

theorem timely_fire {s : ExportRunning K J} (h : Asserts (Timely r₀) s) (e : ExportEvent K)
    (prompt : Prompt r₀ s e) : Asserts (Timely r₀) (fire (program enc) s e) := by
  refine fire_asserts h e ?_ ?_ ?_
  · intro call phase first d hd
    cases call <;> cases first <;> cases hd
  · rintro t answered x rfl found store next stepped call hcall same early
    have clock : store.clock = s.store.clock := by
      have kept := step_clock enc x.phase answered s.store
      rw [show step enc x.phase answered s.store = _ from stepped] at kept
      exact kept
    rw [clock]
    rcases step_download stepped with kept | read
    · exact h x (Table.find_eq_some.mp found).1 call (kept ▸ hcall) same early
    · rw [← read call hcall]
      exact early
  · intro x hx timely call hcall same early
    have before := timely call hcall same early
    cases e with
    | begin t c =>
      simp only [fire]
      split
      · split <;> exact before
      · exact before
    | advance t answered =>
      simp only [fire]
      split
      · rw [settle_store, program, step_clock]
        exact before
      · exact before
    | drop t => exact before
    | other op =>
      cases op with
      | elapse gap => exact prompt x hx call hcall same early

theorem inTime_fire {s : ExportRunning K J} (law : Lawful enc r₀ s) (timely : Asserts (Timely r₀) s)
    (h : InTime r₀ s.store) (e : ExportEvent K) :
    InTime r₀ (fire (program enc) s e).store := by
  refine fire_preserves_store (L := fun phase s => Relies enc r₀ phase s ∧ Timely r₀ phase s) h
    (fun x hx => ⟨law.calls x hx, timely x hx⟩) e ?_ ?_
  · rintro phase answered ⟨relies, timely⟩
    rcases step_store enc phase answered s.store with stepped |
      ⟨call, payload, rfl, stepped⟩ | ⟨call, payload, rfl, stepped⟩ |
      ⟨readyOnly, now, rfl, stepped⟩ <;> simp only [program, stepped]
    · exact h
    · exact h
    · intro d hd same
      rcases List.mem_cons.mp hd with rfl | hd
      · exact timely call rfl same (le_of_lt (relies same).2.2)
      · exact h d hd same
    · exact h
  · intro op
    cases op
    exact h

/-! Before the expiry a careful event keeps the stake, and any other event loses it. -/

theorem stake_fire {s : ExportRunning K J} (law : Lawful enc r₀ s) (e : ExportEvent K)
    (early : s.store.clock ≤ r₀.expiresAt) :
    (Careful enc r₀.id s e → stake enc r₀.id (fire (program enc) s e) = stake enc r₀.id s) ∧
    (¬ Careful enc r₀.id s e →
      stake enc r₀.id (fire (program enc) s e) + 1 = stake enc r₀.id s) := by
  cases e with
  | begin t call => exact ⟨fun _ => stake_begin s t call, fun h => absurd trivial h⟩
  | advance t answered =>
    cases found : s.running.find t with
    | none =>
      have still : fire (program enc) s (.advance t answered) = s := by simp only [fire, found]
      rw [still]
      refine ⟨fun _ => rfl, fun h => absurd ?_ h⟩
      intro x hx
      rw [found] at hx
      cases hx
    | some x =>
      rw [fire_advance found]
      have moved := stake_settle enc r₀.id found (step enc x.phase answered s.store)
      have careful : Careful enc r₀.id s (.advance t answered) ↔
          x.phase.keeps enc r₀.id answered s.store := by
        simp [Careful, found]
      rw [careful]
      by_cases purge : ∃ readyOnly now, x.phase = .purge readyOnly now
      · obtain ⟨readyOnly, now, at_purge⟩ := purge
        have relies := law.calls x (Table.find_eq_some.mp found).1
        rw [at_purge] at moved relies ⊢
        have kept := (holding_purge enc r₀.id readyOnly answered now s.store).2 fun r hr => by
          rw [(law.kept.same r hr).2.2]
          exact le_trans relies early
        have had : holding enc r₀.id (s.store, .next (.purge readyOnly now)) =
            ready r₀.id s.store + deliveries r₀.id s.store := Nat.add_zero _
        refine ⟨fun _ => ?_, fun h => absurd trivial h⟩
        simp only [program]
        omega
      · have other : ∀ readyOnly now, x.phase ≠ .purge readyOnly now :=
          fun readyOnly now same => purge ⟨readyOnly, now, same⟩
        obtain ⟨kept, lost⟩ := holding_step enc r₀.id (s := s.store) other answered
        simp only [program]
        refine ⟨fun keeps => ?_, fun loses => ?_⟩
        · have := kept keeps
          omega
        · have := lost loses
          omega
  | drop t =>
    cases found : s.running.find t with
    | none =>
      rw [fire_drop_none found]
      refine ⟨fun _ => rfl, fun h => absurd ?_ h⟩
      intro x hx
      rw [found] at hx
      cases hx
    | some x =>
      have moved := stake_drop enc r₀.id found
      have careful : Careful enc r₀.id s (.drop t) ↔ x.phase.returns enc r₀.id = false := by
        simp [Careful, found]
      rw [careful]
      refine ⟨fun keeps => ?_, fun loses => ?_⟩
      · rw [keeps] at moved
        simpa using moved
      · rw [Bool.not_eq_false] at loses
        rw [loses] at moved
        simpa using moved
  | other op =>
    cases op
    exact ⟨fun _ => rfl, fun h => absurd trivial h⟩

/-- Until the expiry there is a stake. -/
def Conserved (enc : Encoding K J V) (r₀ : ExportRow J) (s : ExportRunning K J) : Prop :=
  s.store.clock ≤ r₀.expiresAt → stake enc r₀.id s = 1

theorem conserved_fire {s : ExportRunning K J} (law : Lawful enc r₀ s)
    (h : Conserved enc r₀ s) (e : ExportEvent K) (careful : Careful enc r₀.id s e) :
    Conserved enc r₀ (fire (program enc) s e) := by
  intro early
  have before := le_trans (clock_fire_le s e) early
  rw [(stake_fire law e before).1 careful]
  exact h before

/-- A call with the right token that fails before the expiry, while no call has returned the
payload or is about to, leaves the export ready. -/
def KeepsReady (enc : Encoding K J V) (r₀ : ExportRow J) (s : ExportRunning K J) :
    ExportEvent K → Prop
  | .advance t answered =>
    ∀ x ∈ s.running.find t, ∀ call ∈ x.phase.download, call.id = r₀.id → Right enc r₀ call.token →
      s.store.clock ≤ r₀.expiresAt →
      (∃ error, (step enc x.phase answered s.store).2 = .done (.error error)) →
      let after := fire (program enc) s (.advance t answered)
      deliveries r₀.id after.store = 0 → countAt after (Phase.returns enc r₀.id) = 0 →
        ready r₀.id after.store = 1
  | _ => True

theorem keepsReady_of_conserved {s : ExportRunning K J} (law : Lawful enc r₀ s)
    (h : Conserved enc r₀ s) (e : ExportEvent K) (careful : Careful enc r₀.id s e) :
    KeepsReady enc r₀ s e := by
  cases e with
  | advance t answered =>
    intro x found call _ _ _ early _ after none idle
    have same : after.store.clock = s.store.clock := by
      simp only [after]
      rw [fire_advance found, settle_store, program, step_clock]
    have held := conserved_fire law h (.advance t answered) careful (same ▸ early)
    rw [stake] at held
    simp only [after] at none idle held ⊢
    omega
  | _ => trivial

/-- A call that would lose a payload has the right token. -/
theorem right_of_careless {s : ExportRunning K J} (law : Lawful enc r₀ s) {e : ExportEvent K}
    (careless : ¬ Careful enc r₀.id s e) : ∃ token, Right enc r₀ token := by
  have right : ∀ x ∈ s.running, ∀ call payload, call.id = r₀.id →
      x.phase = .update call payload ∨ x.phase = .decode call payload →
        ∃ token, Right enc r₀ token := by
    rintro x hx call payload same (phase | phase)
    · have relies := law.calls x hx
      rw [phase] at relies
      exact ⟨call.token, (relies same).2⟩
    · have relies := law.calls x hx
      rw [phase] at relies
      exact ⟨call.token, (relies same).2.1⟩
  cases e with
  | begin t call => exact absurd trivial careless
  | other op => exact absurd trivial careless
  | advance t answered =>
    simp only [Careful, not_forall] at careless
    obtain ⟨x, found, careless⟩ := careless
    have hx := (Table.find_eq_some.mp found).1
    cases phase : x.phase with
    | update call payload =>
      simp only [phase, Phase.keeps, not_forall] at careless
      exact right x hx call payload careless.choose (Or.inl phase)
    | decode call payload =>
      simp only [phase, Phase.keeps, not_forall] at careless
      exact right x hx call payload careless.choose (Or.inr phase)
    | _ =>
      rw [phase] at careless
      exact absurd trivial careless
  | drop t =>
    simp only [Careful, not_forall] at careless
    obtain ⟨x, found, careless⟩ := careless
    have hx := (Table.find_eq_some.mp found).1
    rw [Bool.not_eq_false] at careless
    cases phase : x.phase with
    | decode call payload =>
      rw [phase, Phase.returns, Bool.and_eq_true] at careless
      exact right x hx call payload (by simpa using careless.1) (Or.inr phase)
    | _ =>
      rw [phase] at careless
      cases careless

theorem clock_of_careless {s : ExportRunning K J} {e : ExportEvent K}
    (careless : ¬ Careful enc r₀.id s e) : (fire (program enc) s e).store.clock = s.store.clock := by
  cases e with
  | begin t call => exact absurd trivial careless
  | other op => exact absurd trivial careless
  | drop t => rfl
  | advance t answered =>
    simp only [fire]
    split
    · rw [settle_store, program, step_clock]
    · rfl

/-- Where the stake is lost before the expiry, another download with the right token fails for good. -/
theorem lost_fails {s : ExportRunning K J} (law : Lawful enc r₀ s)
    (early : s.store.clock ≤ r₀.expiresAt) (lost : stake enc r₀.id s = 0) {token : K}
    (right : Right enc r₀ token) : ∃ events, ¬ Along (program enc) (KeepsReady enc r₀) s events := by
  obtain ⟨t, fresh⟩ := Infinite.exists_notMem_finset (s.running.rows.map Running.id).toFinset
  have free : s.running.find t = none := by
    rw [Table.find_eq_none]
    intro x hx same
    exact fresh (by simpa using ⟨x, hx, same⟩)
  obtain ⟨r, found⟩ := law.kept.there early
  -- the call reads the time and the payload, and finds the row taken
  refine ⟨[.begin t (.consumeDownload r₀.id token), .advance t true, .advance t true,
    .advance t true], fun kept => ?_⟩
  obtain ⟨-, -, -, last, -⟩ := kept
  set s₁ := fire (program enc) s (.begin t (.consumeDownload r₀.id token)) with hs₁
  obtain ⟨store₁, at₁⟩ : s₁.store = s.store ∧ s₁.running.find t = some ⟨t, .readClock r₀.id token⟩ :=
    find_begin free rfl
  set s₂ := fire (program enc) s₁ (.advance t true) with hs₂
  obtain ⟨store₂, at₂⟩ : s₂.store = s.store ∧
      s₂.running.find t = some ⟨t, .select ⟨r₀.id, token, s.store.clock⟩⟩ := by
    apply find_advance at₁
    rw [store₁]
    rfl
  set s₃ := fire (program enc) s₂ (.advance t true) with hs₃
  obtain ⟨store₃, at₃⟩ : s₃.store = s.store ∧
      s₃.running.find t = some ⟨t, .check ⟨r₀.id, token, s.store.clock⟩ r.payload⟩ := by
    apply find_advance at₂
    simp only [program, step, store₂, found, Bool.true_eq_false, if_false]
  have gone : stake enc r₀.id (fire (program enc) s₃ (.advance t true)) = 0 := by
    have less₁ : stake enc r₀.id s₁ ≤ _ := stake_fire_le s (.begin t (.consumeDownload r₀.id token))
    have less₂ : stake enc r₀.id s₂ ≤ _ := stake_fire_le s₁ (.advance t true)
    have less₃ : stake enc r₀.id s₃ ≤ _ := stake_fire_le s₂ (.advance t true)
    have less : stake enc r₀.id (fire (program enc) s₃ (.advance t true)) ≤ _ :=
      stake_fire_le s₃ (.advance t true)
    omega
  have unready : r.state ≠ .ready := by
    intro state
    have : ready r₀.id s.store = 1 := if_pos ⟨r, found, state⟩
    rw [stake] at lost
    omega
  have fails : ∃ error, (step enc (.check ⟨r₀.id, token, s.store.clock⟩ r.payload) true
      s₃.store).2 = .done (.error error) := by
    obtain ⟨hash, -, -⟩ := law.kept.same r found
    have hashed : constantTimeHexEq r.tokenHash (enc.sha256Hex token) ≠ false := by
      rw [hash, right]
      decide
    simp only [step, store₃, found, Bool.true_eq_false, if_false, hashed]
    cases state : r.state with
    | ready => exact absurd state unready
    | downloaded => exact ⟨_, rfl⟩
    | expired => exact ⟨_, rfl⟩
  have after := last _ at₃ _ rfl rfl right (store₃ ▸ early) fails
  rw [stake] at gone
  have := after (by omega) (by omega)
  omega

/-- A download of a ready export returns the payload, when nothing stands in between. -/
theorem ready_delivers {s : ExportRunning K J} (law : Lawful enc r₀ s)
    (stands : ready r₀.id s.store = 1) (early : s.store.clock < r₀.expiresAt) {token : K}
    (right : Right enc r₀ token) (decodes : (enc.decode r₀.payload).isSome) {t : ℕ}
    (free : s.running.find t = none) :
    (run (program enc) s (.begin t (.consumeDownload r₀.id token) ::
      (List.replicate 5 true).map (.advance t))).store.delivered =
        ⟨⟨r₀.id, token, s.store.clock⟩, s.store.clock⟩ :: s.store.delivered := by
  obtain ⟨r, found, state⟩ : ∃ r ∈ s.store.exports.find r₀.id, r.state = .ready := by
    by_contra none
    rw [ready, if_neg none] at stands
    cases stands
  obtain ⟨hash, payload, expiry⟩ := law.kept.same r found
  obtain ⟨value, decoded⟩ := Option.isSome_iff_exists.mp decodes
  obtain ⟨store, at_start⟩ :
      (fire (program enc) s (.begin t (.consumeDownload r₀.id token))).store = s.store ∧
        (fire (program enc) s (.begin t (.consumeDownload r₀.id token))).running.find t =
          some ⟨t, .readClock r₀.id token⟩ := find_begin free rfl
  have takes : Takes s.store ⟨r₀.id, token, s.store.clock⟩ :=
    ⟨r, found, state, expiry ▸ early⟩
  have hashed : constantTimeHexEq r.tokenHash (enc.sha256Hex token) ≠ false := by
    rw [hash, right]
    decide
  have unexpired : ¬ (r.state = .expired ∨ r.expiresAt < s.store.clock) := by
    rw [state, expiry]
    rintro (other | late)
    · cases other
    · exact absurd late (not_lt_of_gt early)
  have undownloaded : r.state ≠ .downloaded := by
    rw [state]
    decide
  have steps := run_advances (P := program enc) at_start (List.replicate 5 true)
  rw [run, List.foldl_cons]
  rw [run] at steps
  rw [steps, store]
  rw [Option.mem_def] at found
  simp [alone, List.replicate, program, step, found, hashed, undownloaded, unexpired, takes,
    payload, decoded, markDownloaded]

theorem lawful_initial {s₀ : ExportStore K J} (stored : s₀.exports.find r₀.id = some r₀)
    (new : s₀.delivered = []) : Lawful enc r₀ (initial s₀) where
  kept := by
    refine ⟨fun r found => ?_, fun _ => ⟨r₀, stored⟩⟩
    obtain rfl : r₀ = r := Option.some.inj (stored.symm.trans found)
    exact ⟨rfl, rfl, rfl⟩
  calls := initial_asserts _ s₀
  given := by
    intro d hd
    rw [initial, new] at hd
    cases hd

theorem stake_initial {s₀ : ExportStore K J} (new : s₀.delivered = []) :
    stake enc r₀.id (initial s₀) = ready r₀.id s₀ := by
  have none : deliveries r₀.id s₀ = 0 := by rw [deliveries, new, List.countP_nil]
  exact congrArg₂ (· + ·) (Nat.add_zero _) none

/-- However downloads and purges run side by side, an export is returned once at most, to a call with
its token that had read a time before the expiry; and by the expiry, when the clock does not pass it
while such a call is under way. As long as what an update takes can be decoded, its answer arrives
and the call is not given up before it, no download fails at the cost of the export; the first step
that is otherwise does lose it. A ready export can be downloaded. -/
theorem export_single_use (enc : Encoding K J V) (r₀ : ExportRow J) (s₀ : ExportStore K J)
    (stored : s₀.exports.find r₀.id = some r₀) (new : s₀.delivered = [])
    (events : List (ExportEvent K)) :
    let s := run (program enc) (initial s₀) events
    deliveries r₀.id s.store ≤ 1 ∧ Given enc r₀ s.store ∧
    (Along (program enc) (Prompt r₀) (initial s₀) events → InTime r₀ s.store) ∧
    (r₀.state = .ready → Along (program enc) (Careful enc r₀.id) (initial s₀) events →
      Along (program enc) (KeepsReady enc r₀) (initial s₀) events ∧
      ∀ e, s.store.clock ≤ r₀.expiresAt → ¬ Careful enc r₀.id s e →
        ∃ more, ¬ Along (program enc) (KeepsReady enc r₀) (fire (program enc) s e) more) ∧
    (ready r₀.id s.store = 1 → s.store.clock < r₀.expiresAt → (enc.decode r₀.payload).isSome →
      ∀ token t, Right enc r₀ token → s.running.find t = none →
        ∃ more, (run (program enc) s more).store.delivered =
          ⟨⟨r₀.id, token, s.store.clock⟩, s.store.clock⟩ :: s.store.delivered) := by
  intro s
  have start : Lawful enc r₀ (initial s₀) := lawful_initial stored new
  have law : Lawful enc r₀ s :=
    run_invariant (I := Lawful enc r₀) (fun _ e h _ => lawful_fire h e) start (along_true _ events)
  refine ⟨?_, law.given, ?_, ?_, ?_⟩
  · have one : stake enc r₀.id s ≤ 1 := by
      refine run_invariant (I := fun s => stake enc r₀.id s ≤ 1)
        (fun s e h _ => (stake_fire_le s e).trans h) ?_ (along_true _ events)
      rw [stake_initial new, ready]
      split_ifs <;> decide
    rw [stake] at one
    omega
  · intro prompt
    have kept := run_invariant
      (I := fun s => Lawful enc r₀ s ∧ Asserts (Timely r₀) s ∧ InTime r₀ s.store)
      (fun s e h prompt => ⟨lawful_fire h.1 e, timely_fire h.2.1 e prompt,
        inTime_fire h.1 h.2.1 h.2.2 e⟩) ⟨start, initial_asserts _ s₀, ?_⟩ prompt
    · exact kept.2.2
    · intro d hd
      rw [initial, new] at hd
      cases hd
  · intro state careful
    have conserved : Conserved enc r₀ (initial s₀) := by
      intro _
      rw [stake_initial new]
      exact if_pos ⟨r₀, stored, state⟩
    have both : Lawful enc r₀ (initial s₀) ∧ Conserved enc r₀ (initial s₀) := ⟨start, conserved⟩
    have step : ∀ s e, Lawful enc r₀ s ∧ Conserved enc r₀ s → Careful enc r₀.id s e →
        Lawful enc r₀ (fire (program enc) s e) ∧ Conserved enc r₀ (fire (program enc) s e) :=
      fun s e h careful => ⟨lawful_fire h.1 e, conserved_fire h.1 h.2 e careful⟩
    refine ⟨along_of_invariant step ?_ both careful, fun e early careless => ?_⟩
    · exact fun s e h careful => keepsReady_of_conserved h.1 h.2 e careful
    · obtain ⟨-, held⟩ := run_invariant step both careful
      have lost := (stake_fire law e early).2 careless
      obtain ⟨token, right⟩ := right_of_careless law careless
      have clock := clock_of_careless careless
      refine lost_fails (lawful_fire law e) (clock ▸ early) ?_ right
      have : stake enc r₀.id s = 1 := held early
      omega
  · intro stands early decodes token t right free
    exact ⟨_, ready_delivers law stands early right decodes free⟩

end Export

section Samples

/-- The hash of two tokens of thirty-two bytes; no payload of another version is decoded. -/
def sample : Encoding (List ℕ) Json Json where
  sha256Hex token :=
    if token = List.replicate 32 7 then
      "4bb06f8e4e3a7715d201d573d0aa423762e55dabd61a2c02278fa56cc6d294e0"
    else "8c0cc17a04942cc4f8e0fe0b302606d3108860c126428ba2ceeb5f9ed41c2b05"
  decode := Json.get "schema_version"

/-- An export whose stored payload is an empty object. -/
def sampleExport : ExportRow Json :=
  ⟨1, .ready, "4bb06f8e4e3a7715d201d573d0aa423762e55dabd61a2c02278fa56cc6d294e0", .obj [],
    86400000000, none⟩

def exported : ExportStore (List ℕ) Json := ⟨⟨[sampleExport], by decide⟩, 0, []⟩

/-- A download with the right token, to its end. -/
def downloaded : List (ExportEvent (List ℕ)) :=
  .begin 1 (.consumeDownload 1 (List.replicate 32 7)) :: (List.replicate 5 true).map (.advance 1)

theorem exported_single_use :
    let s := run (program sample) (initial exported) downloaded
    deliveries sampleExport.id s.store ≤ 1 ∧ Given sample sampleExport s.store ∧
    (Along (program sample) (Prompt sampleExport) (initial exported) downloaded →
      InTime sampleExport s.store) ∧
    (sampleExport.state = .ready →
      Along (program sample) (Careful sample sampleExport.id) (initial exported) downloaded →
      Along (program sample) (KeepsReady sample sampleExport) (initial exported) downloaded ∧
      ∀ e, s.store.clock ≤ sampleExport.expiresAt → ¬ Careful sample sampleExport.id s e →
        ∃ more, ¬ Along (program sample) (KeepsReady sample sampleExport)
          (fire (program sample) s e) more) ∧
    (ready sampleExport.id s.store = 1 → s.store.clock < sampleExport.expiresAt →
      (sample.decode sampleExport.payload).isSome →
      ∀ token t, Right sample sampleExport token → s.running.find t = none →
        ∃ more, (run (program sample) s more).store.delivered =
          ⟨⟨sampleExport.id, token, s.store.clock⟩, s.store.clock⟩ :: s.store.delivered) :=
  export_single_use sample sampleExport exported rfl rfl downloaded

/-- The download fails, and the export is gone for good. -/
theorem undecodable_export_lost : ∃ (enc : Encoding (List ℕ) Json Json) (r₀ : ExportRow Json)
    (s₀ : ExportStore (List ℕ) Json) (events : List (ExportEvent (List ℕ))),
    s₀.exports.find r₀.id = some r₀ ∧ s₀.delivered = [] ∧ r₀.state = .ready ∧
      ¬ Along (program enc) (KeepsReady enc r₀) (initial s₀) events := by
  refine ⟨sample, sampleExport, exported, downloaded, rfl, rfl, rfl, ?_⟩
  rintro ⟨-, -, -, -, -, last, -⟩
  have left := last ⟨1, .decode ⟨1, List.replicate 32 7, 0⟩ (.obj [])⟩ rfl _ rfl rfl (by unfold Right; decide)
    (by decide) ⟨_, rfl⟩ rfl rfl
  cases left

end Samples

end Exports
