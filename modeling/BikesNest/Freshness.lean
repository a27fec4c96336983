import BikesNest.LiveSpots

/-! The freshness of a listing beside its existence signals. A call of `record_verification`
inserts its signal and, when the signal confirms the spot, overwrites `last_verified_at` in a
statement of its own with a time read before it; between any two steps other calls run, and a
call may fail or be given up. -/

namespace Freshness

open Parking Schema Outcome Details Interleaving Community

/-- `began` says of a recorded signal at what time its call had begun to record it. -/
structure FreshStore where
  db : Store
  clock : Instant
  began : ℕ → Instant

inductive Phase where
  | check (phase : Community.Phase)
  | readClock (id : ℕ) (signal : NewVerification)
  | record (id : ℕ) (signal : NewVerification) (now : Instant)
  | readFreshClock (l : LocationId) (began : Instant)
  | markVerifiedAt (l : LocationId) (began now : Instant)
  | audit

structure Call where
  user : AuthenticatedUser
  allowed : Bool
  id : ℕ
  signal : NewVerification

inductive ClockOp where
  | elapse (gap : ℕ)

abbrev Result := Except ContributionError Unit

def entry (call : Call) : Progress Phase Result :=
  match accept (.submit call.user call.allowed (.recordVerification call.id call.signal)) with
  | .ok phase => .next (.check phase)
  | .error e => .done (.error e)

/-- One step of a call. The input says whether its statement is answered; one that is not has no
effect. -/
def step (env : Env) (phase : Phase) (answered : Bool) (s : FreshStore) :
    FreshStore × Progress Phase Result :=
  match phase with
  | .check phase =>
    if answered = false then (s, .done (.error .unavailable))
    else
      match (Community.step env phase s.clock s.db).2 with
      | .next (.write (.verification id signal)) => (s, .next (.readClock id signal))
      | .next phase => (s, .next (.check phase))
      | .done (.error e) => (s, .done (.error e))
      | .done (.ok _) => (s, .done (.ok ()))
  | .readClock id signal => (s, .next (.record id signal s.clock))
  | .record id signal now =>
    if answered = false then (s, .done (.error .unavailable))
    else
      match Community.record s.db id signal now with
      | .error e => (s, .done (.error e))
      | .ok db => ({ s with db := db, began := Function.update s.began id now },
          if signal.isStillExists then .next (.readFreshClock signal.locationId now)
          else .next .audit)
  | .readFreshClock l began => (s, .next (.markVerifiedAt l began s.clock))
  | .markVerifiedAt l _ now =>
    if answered = false then (s, .done (.error .unavailable))
    else ({ s with db := Community.markVerifiedAt s.db l now }, .next .audit)
  | .audit =>
    if answered = false then (s, .done (.error .unavailable)) else (s, .done (.ok ()))

def apply : ClockOp → FreshStore → FreshStore
  | .elapse gap, s => { s with clock := s.clock + gap }

def program (env : Env) : Program FreshStore Phase Result Bool Call ClockOp :=
  ⟨entry, step env, apply⟩

abbrev FreshRunning := State FreshStore ℕ Phase

abbrev FreshEvent := Event ℕ Bool Call ClockOp

def lastVerified (s : FreshStore) (l : LocationId) : Option Instant :=
  (s.db.locations.find l).bind LocationRow.lastVerifiedAt

/-- No time is later than none at all. -/
def NoEarlier (before after : Option Instant) : Prop := ∀ a ∈ before, ∃ b ∈ after, a ≤ b

instance (before after : Option Instant) : Decidable (NoEarlier before after) := by
  unfold NoEarlier
  infer_instance

theorem NoEarlier.refl (a : Option Instant) : NoEarlier a a := fun x hx => ⟨x, hx, le_rfl⟩

theorem NoEarlier.trans {a b c : Option Instant} (hab : NoEarlier a b) (hbc : NoEarlier b c) :
    NoEarlier a c := by
  intro x hx
  obtain ⟨y, hy, hxy⟩ := hab x hx
  obtain ⟨z, hz, hyz⟩ := hbc y hy
  exact ⟨z, hz, le_trans hxy hyz⟩

theorem noEarlier_some {a b : Instant} : NoEarlier (some a) (some b) ↔ a ≤ b := by
  simp [NoEarlier]

theorem NoEarlier.isSome {a : Instant} {b : Option Instant} (h : NoEarlier (some a) b) :
    b.isSome := by
  obtain ⟨y, hy, -⟩ := h a rfl
  exact Option.isSome_of_mem hy

/-- The row is a confirmation that the location still exists. -/
def Confirms (l : LocationId) (r : VerificationRow) : Prop :=
  r.locationId = l ∧ r.signal = .existence .stillExists

instance (l : LocationId) (r : VerificationRow) : Decidable (Confirms l r) :=
  inferInstanceAs (Decidable (_ ∧ _))

/-- The location a phase is about, where its signal is recorded and the freshness is not yet
written, and when its call began. -/
def Phase.owes : Phase → Option (LocationId × Instant)
  | .readFreshClock l began => some (l, began)
  | .markVerifiedAt l began _ => some (l, began)
  | _ => none

/-- The step writes no time earlier than the one stored, and where the write fails the time stored
is late enough. -/
def Phase.orderly (answered : Bool) (s : FreshStore) : Phase → Prop
  | .markVerifiedAt l began now =>
    if answered then NoEarlier (lastVerified s l) (some now)
    else NoEarlier (some began) (lastVerified s l)
  | _ => True

instance (answered : Bool) (s : FreshStore) (phase : Phase) :
    Decidable (phase.orderly answered s) := by
  unfold Phase.orderly
  split <;> infer_instance

/-- No write takes the freshness back, and no call is given up, or fails, between its signal and
its write, unless the stored time is late enough. -/
def Orderly (s : FreshRunning) : FreshEvent → Prop
  | .advance t answered => ∀ x ∈ s.running.find t, x.phase.orderly answered s.store
  | .drop t => ∀ x ∈ s.running.find t, ∀ owed ∈ x.phase.owes,
      NoEarlier (some owed.2) (lastVerified s.store owed.1)
  | _ => True

instance (s : FreshRunning) (e : FreshEvent) : Decidable (Orderly s e) := by
  unfold Orderly
  split <;> infer_instance

/-- The freshness of a listing is what its confirmations give: it is there when one was recorded,
and then no earlier than each of their calls began. -/
def Follows (s : FreshStore) (l : LocationId) : Prop :=
  ((lastVerified s l).isSome ↔ ∃ r ∈ s.db.verifications, Confirms l r) ∧
  ∀ r ∈ s.db.verifications, Confirms l r → NoEarlier (some (s.began r.id)) (lastVerified s l)

/-- No call stands between a confirmation of the location and its write. -/
def Quiet (s : FreshRunning) (l : LocationId) : Prop :=
  ∀ x ∈ s.running, ∀ owed ∈ x.phase.owes, owed.1 ≠ l

theorem lastVerified_mark (s : FreshStore) (l k : LocationId) (now : Instant) :
    lastVerified { s with db := Community.markVerifiedAt s.db l now } k =
      if k = l ∧ (s.db.locations.find l).isSome then some now else lastVerified s k := by
  rw [lastVerified, find_markVerifiedAt]
  cases found : s.db.locations.find k with
  | none =>
    rw [if_neg]
    · simp [lastVerified, found]
    · rintro ⟨rfl, some⟩
      simp [found] at some
  | some row =>
    obtain rfl : row.id = k := (Table.find_eq_some.mp found).2
    by_cases here : row.id = l
    · have isSome : (s.db.locations.find l).isSome := by simp [← here, found]
      simp [here, isSome]
    · simp [here, lastVerified, found]

section Steps

variable {env : Env}

variable (env) in
/-- What a step of a call can do: nothing to the store, with nothing owed before or after; a signal
recorded; the second reading of the clock; the freshness written, or its write failed. -/
theorem step_cases (phase : Phase) (answered : Bool) (s : FreshStore) :
    (phase.owes = none ∧ (step env phase answered s).1 = s ∧
      ∀ next, (step env phase answered s).2 = .next next → next.owes = none) ∨
    (∃ id signal now db, phase = .record id signal now ∧
      Community.record s.db id signal now = .ok db ∧
      step env phase answered s = ({ s with db := db, began := Function.update s.began id now },
        if signal.isStillExists then .next (.readFreshClock signal.locationId now)
        else .next .audit)) ∨
    (∃ l began, phase = .readFreshClock l began ∧
      step env phase answered s = (s, .next (.markVerifiedAt l began s.clock))) ∨
    (∃ l began now, phase = .markVerifiedAt l began now ∧ answered = true ∧
      step env phase answered s =
        ({ s with db := Community.markVerifiedAt s.db l now }, .next .audit)) ∨
    ∃ l began now, phase = .markVerifiedAt l began now ∧ answered = false ∧
      step env phase answered s = (s, .done (.error .unavailable)) := by
  cases phase with
  | check phase =>
    refine Or.inl ⟨rfl, ?_⟩
    simp only [step]
    split
    · exact ⟨rfl, fun next h => by cases h⟩
    · split
      · exact ⟨rfl, fun next h => by cases h; rfl⟩
      · exact ⟨rfl, fun next h => by cases h; rfl⟩
      · exact ⟨rfl, fun next h => by cases h⟩
      · exact ⟨rfl, fun next h => by cases h⟩
  | readClock id signal => exact Or.inl ⟨rfl, rfl, fun next h => by cases h; rfl⟩
  | record id signal now =>
    by_cases silent : answered = false
    · refine Or.inl ⟨rfl, ?_⟩
      simp only [step, if_pos silent]
      exact ⟨trivial, fun next h => by cases h⟩
    · cases recorded : Community.record s.db id signal now with
      | error e =>
        refine Or.inl ⟨rfl, ?_⟩
        simp only [step, if_neg silent, recorded]
        exact ⟨trivial, fun next h => by cases h⟩
      | ok db =>
        refine Or.inr (Or.inl ⟨id, signal, now, db, rfl, recorded, ?_⟩)
        simp only [step, if_neg silent, recorded]
  | readFreshClock l began => exact Or.inr (Or.inr (Or.inl ⟨l, began, rfl, rfl⟩))
  | markVerifiedAt l began now =>
    cases answered with
    | true => exact Or.inr (Or.inr (Or.inr (Or.inl ⟨l, began, now, rfl, rfl, rfl⟩)))
    | false => exact Or.inr (Or.inr (Or.inr (Or.inr ⟨l, began, now, rfl, rfl, rfl⟩)))
  | audit =>
    refine Or.inl ⟨rfl, ?_⟩
    cases answered with
    | true => exact ⟨rfl, fun next h => by cases h⟩
    | false => exact ⟨rfl, fun next h => by cases h⟩

theorem step_orderly {phase : Phase} {answered : Bool} {s : FreshStore}
    (ok : phase.orderly answered s) (l : LocationId) :
    NoEarlier (lastVerified s l) (lastVerified (step env phase answered s).1 l) := by
  rcases step_cases env phase answered s with ⟨-, same, -⟩ |
    ⟨id, signal, now, db, rfl, recorded, stepped⟩ | ⟨k, began, rfl, stepped⟩ |
    ⟨k, began, now, rfl, rfl, stepped⟩ | ⟨k, began, now, rfl, rfl, stepped⟩
  · rw [same]
    exact .refl _
  · rw [stepped, lastVerified, lastVerified, (record_adds recorded).1]
    exact .refl _
  · rw [stepped]
    exact .refl _
  · rw [stepped, lastVerified_mark]
    split
    · rename_i here
      rw [here.1]
      exact ok
    · exact .refl _
  · rw [stepped]
    exact .refl _

end Steps

section Runs

variable {env : Env}

/-- What holds at every point of an orderly run: a stored time has its confirmation, and every
confirmation is covered by it or by a call that still owes it. -/
structure Accounted (s : FreshRunning) : Prop where
  evident : ∀ l, (lastVerified s.store l).isSome → ∃ r ∈ s.store.db.verifications, Confirms l r
  located : ∀ l, ∀ r ∈ s.store.db.verifications, Confirms l r →
    (s.store.db.locations.find l).isSome
  covered : ∀ l, ∀ r ∈ s.store.db.verifications, Confirms l r →
    NoEarlier (some (s.store.began r.id)) (lastVerified s.store l) ∨
      ∃ t x, s.running.find t = some x ∧ x.phase.owes = some (l, s.store.began r.id)

/-- What a call knows: its times are past, and what it owes is recorded. -/
def Knows (phase : Phase) (s : FreshStore) : Prop :=
  match phase with
  | .record _ _ now => now ≤ s.clock
  | .readFreshClock l began =>
    began ≤ s.clock ∧ ∃ r ∈ s.db.verifications, Confirms l r
  | .markVerifiedAt l began now =>
    began ≤ now ∧ ∃ r ∈ s.db.verifications, Confirms l r
  | _ => True

theorem Accounted.follows {s : FreshRunning} (accounted : Accounted s) {l : LocationId}
    (quiet : Quiet s l) : Follows s.store l := by
  have covered : ∀ r ∈ s.store.db.verifications, Confirms l r →
      NoEarlier (some (s.store.began r.id)) (lastVerified s.store l) := by
    intro r hr confirms
    rcases accounted.covered l r hr confirms with late | ⟨t, x, found, owes⟩
    · exact late
    · exact absurd rfl (quiet x (Table.find_eq_some.mp found).1 _ owes)
  refine ⟨⟨accounted.evident l, ?_⟩, covered⟩
  rintro ⟨r, hr, confirms⟩
  exact (covered r hr confirms).isSome

theorem accounted_initial {s : FreshStore} (start : ∀ l, Follows s l) :
    Accounted (initial s : FreshRunning) where
  evident l := (start l).1.mp
  located l r hr confirms := by
    obtain ⟨now, stored⟩ := Option.isSome_iff_exists.mp ((start l).2 r hr confirms).isSome
    obtain ⟨row, found, -⟩ := Option.bind_eq_some_iff.mp stored
    exact Option.isSome_of_mem found
  covered l r hr confirms := .inl ((start l).2 r hr confirms)

/-- Where a step of a call stays within the store, its call owes what it owed, or that is covered. -/
theorem Accounted.of_same {s s' : FreshRunning} (accounted : Accounted s)
    (same : s'.store = s.store)
    (owed : ∀ t x, s.running.find t = some x → ∀ l began, x.phase.owes = some (l, began) →
      NoEarlier (some began) (lastVerified s.store l) ∨
        ∃ y, s'.running.find t = some y ∧ y.phase.owes = some (l, began)) : Accounted s' where
  evident := same ▸ accounted.evident
  located := same ▸ accounted.located
  covered l r hr confirms := by
    rw [same] at hr ⊢
    rcases accounted.covered l r hr confirms with late | ⟨t, x, found, owes⟩
    · exact .inl late
    · rcases owed t x found l _ owes with late | ⟨y, found', owes'⟩
      · exact .inl late
      · exact .inr ⟨t, y, found', owes'⟩

theorem accounted_advance {s : FreshRunning} {t : ℕ} {x : Running ℕ Phase} {answered : Bool}
    (accounted : Accounted s) (found : s.running.find t = some x)
    (knows : Knows x.phase s.store) (ok : x.phase.orderly answered s.store) :
    Accounted (settle s t (step env x.phase answered s.store)) := by
  obtain ⟨own, phase⟩ := x
  have beside : ∀ u, u ≠ t → ∀ r : FreshStore × Progress Phase Result,
      (settle s t r).running.find u = s.running.find u := fun u other r => find_settle_other other r
  rcases step_cases env phase answered s.store with ⟨idle, same, -⟩ |
    ⟨id, signal, now, db, rfl, recorded, stepped⟩ | ⟨k, began, rfl, stepped⟩ |
    ⟨k, began, now, rfl, rfl, stepped⟩ | ⟨k, began, now, rfl, rfl, stepped⟩
  · refine accounted.of_same (settle_store.trans same) fun u y hy l b owes => ?_
    by_cases own : u = t
    · subst own
      obtain rfl := Option.some.inj (found.symm.trans hy)
      rw [idle] at owes
      cases owes
    · exact .inr ⟨y, (beside u own _).trans hy, owes⟩
  · obtain ⟨sameLocations, located, fresh, added⟩ := record_adds recorded
    have verified : ∀ l b, lastVerified { s.store with db := db, began := b } l =
        lastVerified s.store l := fun l b => by rw [lastVerified, lastVerified, sameLocations]
    rw [stepped]
    refine ⟨fun l isSome => ?_, fun l r hr confirms => ?_, fun l r hr confirms => ?_⟩
    · rw [settle_store] at isSome ⊢
      rw [verified] at isSome
      obtain ⟨r, hr, confirms⟩ := accounted.evident l isSome
      exact ⟨r, (added r).mpr (.inl hr), confirms⟩
    · rw [settle_store] at hr ⊢
      rw [sameLocations]
      rcases (added r).mp hr with hr | rfl
      · exact accounted.located l r hr confirms
      · rw [← confirms.1]
        exact located
    · rw [settle_store] at hr ⊢
      rw [verified]
      rcases (added r).mp hr with old | rfl
      · have other : r.id ≠ id := by
          rintro rfl
          rw [Table.find_of_mem old] at fresh
          cases fresh
        simp only [Function.update_of_ne other]
        rcases accounted.covered l r old confirms with late | ⟨u, y, hy, owes⟩
        · exact .inl late
        · have different : u ≠ t := by
            rintro rfl
            obtain rfl := Option.some.inj (found.symm.trans hy)
            cases owes
          exact .inr ⟨u, y, (beside u different _).trans hy, owes⟩
      · have confirmed : signal.isStillExists = true := decide_eq_true confirms.2
        right
        simp only [Function.update_self, confirmed, if_true, ← confirms.1]
        exact ⟨t, _, find_settle_next found, rfl⟩
  · rw [stepped]
    refine accounted.of_same settle_store fun u y hy l b owes => ?_
    right
    by_cases own : u = t
    · subst own
      obtain rfl := Option.some.inj (found.symm.trans hy)
      exact ⟨_, find_settle_next found, owes⟩
    · exact ⟨y, (beside u own _).trans hy, owes⟩
  · obtain ⟨late, evidence⟩ := knows
    have stored : NoEarlier (lastVerified s.store k) (some now) := ok
    rw [stepped]
    refine ⟨fun l isSome => ?_, fun l r hr confirms => ?_, fun l r hr confirms => ?_⟩
    · rw [settle_store] at isSome ⊢
      rw [lastVerified_mark] at isSome
      split at isSome
      · rename_i here
        rw [here.1]
        exact evidence
      · exact accounted.evident l isSome
    · rw [settle_store] at hr ⊢
      simp only [find_markVerifiedAt, Option.isSome_map]
      exact accounted.located l r hr confirms
    · rw [settle_store] at hr ⊢
      have located := accounted.located l r hr confirms
      rw [lastVerified_mark]
      by_cases here : l = k
      · subst here
        rw [if_pos ⟨rfl, located⟩]
        rcases accounted.covered l r hr confirms with early | ⟨u, y, hy, owes⟩
        · exact .inl (early.trans stored)
        · by_cases own : u = t
          · subst own
            obtain rfl := Option.some.inj (found.symm.trans hy)
            obtain ⟨-, began⟩ := Prod.mk.inj (Option.some.inj owes)
            left
            rw [← began]
            exact noEarlier_some.mpr late
          · exact .inr ⟨u, y, (beside u own _).trans hy, owes⟩
      · rw [if_neg fun h => here h.1]
        rcases accounted.covered l r hr confirms with early | ⟨u, y, hy, owes⟩
        · exact .inl early
        · have different : u ≠ t := by
            rintro rfl
            obtain rfl := Option.some.inj (found.symm.trans hy)
            exact here (Prod.mk.inj (Option.some.inj owes)).1.symm
          exact .inr ⟨u, y, (beside u different _).trans hy, owes⟩
  · rw [stepped]
    refine accounted.of_same settle_store fun u y hy l b owes => ?_
    by_cases own : u = t
    · subst own
      obtain rfl := Option.some.inj (found.symm.trans hy)
      obtain ⟨rfl, rfl⟩ := Prod.mk.inj (Option.some.inj owes)
      exact .inl ok
    · exact .inr ⟨y, (beside u own _).trans hy, owes⟩

theorem knows_step {phase next : Phase} {answered : Bool} {s t : FreshStore}
    (knows : Knows phase s) (stepped : step env phase answered s = (t, .next next)) :
    Knows next t := by
  cases phase with
  | check phase =>
    simp only [step] at stepped
    split at stepped
    · cases stepped
    · split at stepped
      · cases stepped
        trivial
      · cases stepped
        trivial
      · cases stepped
      · cases stepped
  | readClock id signal =>
    cases stepped
    exact le_rfl
  | record id signal now =>
    simp only [step] at stepped
    split at stepped
    · cases stepped
    · split at stepped
      · cases stepped
      · rename_i db recorded
        obtain ⟨rfl, progress⟩ := Prod.mk.inj stepped
        by_cases confirmed : signal.isStillExists = true
        · rw [if_pos confirmed] at progress
          cases progress
          exact ⟨knows, _, ((record_adds recorded).2.2.2 _).mpr (.inr rfl), rfl,
            of_decide_eq_true confirmed⟩
        · rw [if_neg confirmed] at progress
          cases progress
          trivial
  | readFreshClock l began =>
    cases stepped
    exact knows
  | markVerifiedAt l began now =>
    simp only [step] at stepped
    split at stepped
    · cases stepped
    · cases stepped
      trivial
  | audit =>
    simp only [step] at stepped
    split at stepped
    · cases stepped
    · cases stepped

theorem entry_check {call : Call} {phase : Phase} (h : entry call = .next phase) :
    ∃ p, phase = .check p := by
  unfold entry at h
  split at h
  · cases h
    exact ⟨_, rfl⟩
  · cases h

/-- Between two steps the clock goes on, and no row of a confirmation goes away. -/
theorem Knows.stable {phase : Phase} {s t : FreshStore} (knows : Knows phase s)
    (clock : s.clock ≤ t.clock)
    (rows : ∀ r ∈ s.db.verifications, r ∈ t.db.verifications) : Knows phase t := by
  cases phase with
  | record id signal now => exact le_trans knows clock
  | readFreshClock l began =>
    obtain ⟨past, r, hr, confirms⟩ := knows
    exact ⟨le_trans past clock, r, rows r hr, confirms⟩
  | markVerifiedAt l began now =>
    obtain ⟨late, r, hr, confirms⟩ := knows
    exact ⟨late, r, rows r hr, confirms⟩
  | check phase => trivial
  | readClock id signal => trivial
  | audit => trivial

variable (env) in
theorem step_grows (phase : Phase) (answered : Bool) (s : FreshStore) :
    (step env phase answered s).1.clock = s.clock ∧
      ∀ r ∈ s.db.verifications, r ∈ (step env phase answered s).1.db.verifications := by
  rcases step_cases env phase answered s with ⟨-, same, -⟩ |
    ⟨id, signal, now, db, rfl, recorded, stepped⟩ | ⟨k, began, rfl, stepped⟩ |
    ⟨k, began, now, rfl, rfl, stepped⟩ | ⟨k, began, now, rfl, rfl, stepped⟩
  · rw [same]
    exact ⟨rfl, fun r hr => hr⟩
  · rw [stepped]
    exact ⟨rfl, fun r hr => ((record_adds recorded).2.2.2 r).mpr (.inl hr)⟩
  · rw [stepped]
    exact ⟨rfl, fun r hr => hr⟩
  · rw [stepped]
    exact ⟨rfl, fun r hr => hr⟩
  · rw [stepped]
    exact ⟨rfl, fun r hr => hr⟩

variable (env) in
theorem fire_grows (s : FreshRunning) (e : FreshEvent) :
    s.store.clock ≤ (fire (program env) s e).store.clock ∧
      ∀ r ∈ s.store.db.verifications, r ∈ (fire (program env) s e).store.db.verifications := by
  cases e with
  | begin t call =>
    rw [fire_begin_store]
    exact ⟨le_rfl, fun r hr => hr⟩
  | advance t answered =>
    cases found : s.running.find t with
    | none =>
      simp only [fire, found]
      exact ⟨le_rfl, fun r hr => hr⟩
    | some x =>
      rw [fire_advance found, settle_store]
      obtain ⟨clock, rows⟩ := step_grows env x.phase answered s.store
      exact ⟨clock.ge, rows⟩
  | drop t => exact ⟨le_rfl, fun r hr => hr⟩
  | other op =>
    cases op with
    | elapse gap => exact ⟨Int.le_add_of_nonneg_right (Int.natCast_nonneg gap), fun r hr => hr⟩

/-- The invariant of orderly runs. -/
def Sound (s : FreshRunning) : Prop := Accounted s ∧ Asserts Knows s

theorem sound_fire {s : FreshRunning} {e : FreshEvent} (sound : Sound s) (ok : Orderly s e) :
    Sound (fire (program env) s e) := by
  obtain ⟨accounted, knows⟩ := sound
  obtain ⟨clock, rows⟩ := fire_grows env s e
  refine ⟨?_, fire_preserves_asserts knows e ?_ ?_ ?_⟩
  · cases e with
    | begin t call =>
      refine accounted.of_same fire_begin_store fun u y hy l b owes => .inr ⟨y, ?_, owes⟩
      simp only [fire]
      split
      · split
        · rename_i running inserted
          exact Table.find_insert_of_find inserted hy
        · exact hy
      · exact hy
    | advance t answered =>
      cases found : s.running.find t with
      | none =>
        simp only [fire, found]
        exact accounted
      | some x =>
        rw [fire_advance found]
        exact accounted_advance accounted found (knows x (Table.find_eq_some.mp found).1)
          (ok x found)
    | drop t =>
      refine accounted.of_same rfl fun u y hy l b owes => ?_
      by_cases own : u = t
      · subst own
        exact .inl (ok y hy _ owes)
      · refine .inr ⟨y, ?_, owes⟩
        rw [fire, finish, Table.find_delete, hy]
        have different : y.id ≠ t := (Table.find_eq_some.mp hy).2 ▸ own
        simp [different]
    | other op =>
      cases op with
      | elapse gap => exact ⟨accounted.evident, accounted.located, accounted.covered⟩
  · intro call phase started
    obtain ⟨p, rfl⟩ := entry_check started
    trivial
  · intro phase input t next known stepped
    exact knows_step known stepped
  · intro x hx known
    exact known.stable clock rows

theorem fire_monotone {s : FreshRunning} {e : FreshEvent} (ok : Orderly s e) (l : LocationId) :
    NoEarlier (lastVerified s.store l) (lastVerified (fire (program env) s e).store l) := by
  cases e with
  | begin t call =>
    rw [fire_begin_store]
    exact .refl _
  | advance t answered =>
    cases found : s.running.find t with
    | none =>
      simp only [fire, found]
      exact .refl _
    | some x =>
      rw [fire_advance found, settle_store]
      exact step_orderly (ok x found) l
  | drop t => exact .refl _
  | other op =>
    cases op with
    | elapse gap => exact .refl _

end Runs

/-- A store in which nothing was confirmed and no time is stored. -/
theorem follows_of_unverified {s : FreshStore}
    (times : ∀ row ∈ s.db.locations.rows, row.lastVerifiedAt = none)
    (rows : s.db.verifications.rows = []) (l : LocationId) : Follows s l := by
  have none : lastVerified s l = none := by
    rw [lastVerified, Option.bind_eq_none_iff]
    exact fun row found => times row (Table.find_eq_some.mp found).1
  have empty : ∀ r, r ∉ s.db.verifications := fun r hr => by
    rw [Table.mem_rows, rows] at hr
    cases hr
  refine ⟨⟨fun h => ?_, fun ⟨r, hr, _⟩ => absurd hr (empty r)⟩, fun r hr => absurd hr (empty r)⟩
  rw [none] at h
  cases h

/-- A listing and three users. -/
def shop : FreshStore := ⟨LiveSpots.openRack, 0, fun _ => 0⟩

theorem shop_follows (l : LocationId) : Follows shop l :=
  follows_of_unverified (by decide) rfl l

/-- A call by which a user confirms the listing, as far as so many steps. -/
def confirms (t : ℕ) (user : UserId) (steps : ℕ) : List FreshEvent :=
  .begin t ⟨⟨user, true⟩, true, t, ⟨1, user, .existence .stillExists⟩⟩ ::
    List.replicate steps (.advance t true)

/-- The second call records its signal while the first has read its time, and writes after it. -/
def inTurn : List FreshEvent :=
  confirms 1 2 6 ++ .other (.elapse 10) :: confirms 2 3 5 ++
    [.advance 1 true, .advance 2 true, .advance 2 true, .advance 2 true, .advance 1 false]

/-- The first call has read its time, and writes it after the second has written a later one. -/
def overtaken : List FreshEvent :=
  confirms 1 2 6 ++ .other (.elapse 10) :: confirms 2 3 8

/-- A call that is given up after its signal was recorded. -/
def abandoned : List FreshEvent := confirms 1 2 5 ++ [.drop 1]

end Freshness
