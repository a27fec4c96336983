import BikesNest.Credentials
import BikesNest.Runs

/-! The session store, and what it promises over the life of a session. Acceptance is judged
on the row as it was read; the slide of `last_seen_at` is a throttled update in the same
statement, with bounds of its own. -/

namespace Sessions

open Parking Credentials Outcome

abbrev SessionTable := Table Digest SessionRow SessionRow.tokenHash

/-- The alphabet of base64url. -/
def base64url : List Char :=
  "ABCDEFGHIJKLMNOPQRSTUVWXYZabcdefghijklmnopqrstuvwxyz0123456789-_".toList

def base64urlAlphabet : Radix.Alphabet where
  base := 64
  symbol d := base64url.getD d 'A'
  value c := if base64url.idxOf c < 64 then some (base64url.idxOf c) else none
  positive := by decide
  value_symbol := by decide +kernel

/-- Thirty-two bytes. -/
abbrev CsrfToken := BitVec 256

/-- Without padding: 43 symbols, of which the last carries four bits and two zeros. -/
def toBase64url (t : CsrfToken) : String :=
  String.ofList (Radix.write base64urlAlphabet 43 (t.toNat * 4))

def fromBase64url (s : String) : Option CsrfToken :=
  match Radix.read base64urlAlphabet s.toList with
  | some n => if s.toList.length = 43 ∧ n % 4 = 0 then some (BitVec.ofNat 256 (n / 4)) else none
  | none => none

theorem fromBase64url_toBase64url (t : CsrfToken) : fromBase64url (toBase64url t) = some t := by
  have bound : t.toNat * 4 < base64urlAlphabet.base ^ 43 := by
    have h := t.isLt
    show t.toNat * 4 < 64 ^ 43
    omega
  have width := Radix.length_write base64urlAlphabet 43 (t.toNat * 4)
  simp only [fromBase64url, toBase64url, String.toList_ofList, Radix.read_write,
    Nat.mod_eq_of_lt bound, width]
  simp

def inactiveIdle : Instant := days 30

def absoluteCap : Instant := days 90

def lastSeenRefresh : Instant := minutes 5

/-- `create`; the two timestamps that default to `now()` come from the database's clock. -/
def create (t : SessionTable) (userId : UserId) (raw : Digest) (csrf : CsrfToken)
    (now clock : Instant) : Except AuthError SessionTable :=
  orFail (t.insert ⟨raw, userId, toBase64url csrf, clock, clock, now + absoluteCap, none⟩) .conflict

structure Session where
  userId : UserId
  csrfToken : CsrfToken
  createdAt : Instant
  lastSeenAt : Instant
  expiresAt : Instant
  revokedAt : Option Instant
  deriving DecidableEq

/-- The `WHERE` clause of the sliding update. -/
def slides (raw : Digest) (now : Instant) (r : SessionRow) : Bool :=
  decide (r.tokenHash = raw ∧ r.revokedAt = none ∧ now ≤ r.expiresAt ∧
    now - inactiveIdle < r.lastSeenAt ∧ r.lastSeenAt < now - lastSeenRefresh)

/-- The tests on the row as it was read. -/
def judge (row : SessionRow) (now : Instant) : Except AuthError (Option Session) :=
  if row.revokedAt.isSome then .ok none
  else if row.expiresAt < now then .ok none
  else if inactiveIdle < now - row.lastSeenAt then .ok none
  else
    match fromBase64url row.csrfToken with
    | some csrf => .ok (some ⟨row.userId, csrf, row.createdAt, row.lastSeenAt, row.expiresAt,
        row.revokedAt⟩)
    | none => .error .internal

def slide (t : SessionTable) (raw : Digest) (now : Instant) : SessionTable :=
  t.update (slides raw now) (fun r => { r with lastSeenAt := now }) fun _ => rfl

/-- `resolve`: the select and the update share one snapshot. -/
def resolve (t : SessionTable) (raw : Digest) (now : Instant) :
    SessionTable × Except AuthError (Option Session) :=
  (slide t raw now, match t.find raw with
    | none => .ok none
    | some row => judge row now)

def revokeWhere (t : SessionTable) (p : SessionRow → Bool) (clock : Instant) : SessionTable :=
  t.update (fun r => p r && decide (r.revokedAt = none))
    (fun r => { r with revokedAt := some clock }) (SessionRow.revoked_key clock)

def revoke (t : SessionTable) (raw : Digest) (clock : Instant) : SessionTable :=
  revokeWhere t (fun r => decide (r.tokenHash = raw)) clock

def revokeAllForUser (t : SessionTable) (u : UserId) (clock : Instant) : SessionTable :=
  revokeWhere t (fun r => decide (r.userId = u)) clock

def revokeAllForUserExcept (t : SessionTable) (u : UserId) (keep : Digest) (clock : Instant) :
    SessionTable :=
  revokeWhere t (fun r => decide (r.userId = u ∧ r.tokenHash ≠ keep)) clock

/-! Runs of the store, watched by one session. -/

inductive Op where
  | create (userId : UserId) (raw : Digest) (csrf : CsrfToken)
  | resolve (raw : Digest)
  | revoke (raw : Digest)
  | revokeAllForUser (u : UserId)
  | revokeAllForUserExcept (u : UserId) (keep : Digest)
  deriving DecidableEq

/-- An operation some time after the one before it; the database's clock shows that time. -/
structure Event where
  gap : ℕ
  op : Op

/-- The store, and what became of the watched session so far: the time of its last accepted
resolve (its creation at first), whether a revocation has covered it and whether a resolve has
refused it. -/
structure History where
  sessions : SessionTable
  now : Instant
  lastAccepted : Instant
  revoked : Bool
  refused : Bool

/-- The session that a run watches. -/
structure Watched where
  id : Digest
  owner : UserId
  csrf : CsrfToken
  born : Instant

def opened (w : Watched) (sessions : SessionTable) : History :=
  ⟨sessions, w.born, w.born, false, false⟩

def accepts (r : Except AuthError (Option Session)) : Bool :=
  match r with
  | .ok (some _) => true
  | _ => false

def refuses (r : Except AuthError (Option Session)) : Bool :=
  match r with
  | .ok none => true
  | _ => false

def step (w : Watched) (h : History) (e : Event) : History :=
  let now := h.now + e.gap
  match e.op with
  | .create userId raw csrf => { h with
      now := now
      sessions := (create h.sessions userId raw csrf now now).toOption.getD h.sessions }
  | .resolve raw =>
    let result := (resolve h.sessions raw now).2
    { h with
      now := now
      sessions := (resolve h.sessions raw now).1
      lastAccepted := if raw = w.id ∧ accepts result then now else h.lastAccepted
      refused := h.refused || (decide (raw = w.id) && refuses result) }
  | .revoke raw => { h with
      now := now
      sessions := revoke h.sessions raw now
      revoked := h.revoked || decide (raw = w.id) }
  | .revokeAllForUser u => { h with
      now := now
      sessions := revokeAllForUser h.sessions u now
      revoked := h.revoked || decide (u = w.owner) }
  | .revokeAllForUserExcept u keep => { h with
      now := now
      sessions := revokeAllForUserExcept h.sessions u keep now
      revoked := h.revoked || decide (u = w.owner ∧ keep ≠ w.id) }

/-- At a resolve of the watched session: what is accepted is neither revoked nor too old nor
too long idle, and what was refused once is refused again. -/
def Sound (w : Watched) (h : History) (e : Event) : Prop :=
  e.op = .resolve w.id →
    let now := h.now + e.gap
    let result := (resolve h.sessions w.id now).2
    (accepts result → h.revoked = false ∧ now ≤ w.born + absoluteCap ∧
      now ≤ h.lastAccepted + inactiveIdle) ∧
    (h.refused = true → refuses result)

/-- At a resolve of the watched session: it is accepted while it is within both terms, up to
the lag of `last_seen_at`. -/
def Complete (w : Watched) (h : History) (e : Event) : Prop :=
  e.op = .resolve w.id →
    let now := h.now + e.gap
    h.revoked = false → now ≤ w.born + absoluteCap →
    now ≤ h.lastAccepted + inactiveIdle - lastSeenRefresh →
    accepts (resolve h.sessions w.id now).2

/-- No resolve finds the session unseen for exactly the idle term before its expiry, where the
row is accepted but the update does not slide it. -/
def OffBoundary (w : Watched) (h : History) (e : Event) : Prop :=
  e.op = .resolve w.id →
    let now := h.now + e.gap
    ∀ row ∈ h.sessions.find w.id,
      ¬ (row.revokedAt = none ∧ now = row.lastSeenAt + inactiveIdle ∧ now < row.expiresAt)

instance (w : Watched) (h : History) (e : Event) : Decidable (Complete w h e) :=
  inferInstanceAs (Decidable (e.op = .resolve w.id → h.revoked = false →
    h.now + e.gap ≤ w.born + absoluteCap →
    h.now + e.gap ≤ h.lastAccepted + inactiveIdle - lastSeenRefresh →
    accepts (resolve h.sessions w.id (h.now + e.gap)).2 = true))

instance (w : Watched) (h : History) (e : Event) : Decidable (OffBoundary w h e) :=
  inferInstanceAs (Decidable (e.op = .resolve w.id → ∀ row ∈ h.sessions.find w.id,
    ¬ (row.revokedAt = none ∧ h.now + e.gap = row.lastSeenAt + inactiveIdle ∧
      h.now + e.gap < row.expiresAt)))

/-- What a run keeps of the watched row. -/
structure Tracked (w : Watched) (h : History) (row : SessionRow) : Prop where
  found : h.sessions.find w.id = some row
  owner : row.userId = w.owner
  csrf : row.csrfToken = toBase64url w.csrf
  expires : row.expiresAt = w.born + absoluteCap
  revoked : row.revokedAt.isSome = h.revoked
  seen : row.lastSeenAt ≤ h.lastAccepted
  past : h.lastAccepted ≤ h.now
  refused : h.refused = true → h.revoked = true ∨ row.expiresAt < h.now ∨
    inactiveIdle < h.now - row.lastSeenAt

/-- The stored time lags behind the last accepted resolve by the throttle at most, or that
resolve was the last one the expiry allows. -/
def Lagging (h : History) (row : SessionRow) : Prop :=
  h.lastAccepted - lastSeenRefresh ≤ row.lastSeenAt ∨
    row.expiresAt ≤ h.lastAccepted ∧ h.lastAccepted ≤ row.lastSeenAt + inactiveIdle

theorem idle_pos : (0 : Instant) < inactiveIdle := by decide

theorem refresh_pos : (0 : Instant) < lastSeenRefresh := by decide

/-- A row whose token decodes is accepted exactly within the three tests, and else refused. -/
theorem judge_cases {row : SessionRow} {csrf : CsrfToken} (h : row.csrfToken = toBase64url csrf)
    (now : Instant) :
    (row.revokedAt = none ∧ now ≤ row.expiresAt ∧ now ≤ row.lastSeenAt + inactiveIdle ∧
      accepts (judge row now) = true ∧ refuses (judge row now) = false) ∨
    ((row.revokedAt.isSome = true ∨ row.expiresAt < now ∨ inactiveIdle < now - row.lastSeenAt) ∧
      accepts (judge row now) = false ∧ refuses (judge row now) = true) := by
  unfold judge
  split
  · rename_i revoked
    exact .inr ⟨.inl revoked, rfl, rfl⟩
  · rename_i revoked
    split
    · rename_i expired
      exact .inr ⟨.inr (.inl expired), rfl, rfl⟩
    · rename_i expired
      split
      · rename_i idle
        exact .inr ⟨.inr (.inr idle), rfl, rfl⟩
      · rename_i idle
        rw [h, fromBase64url_toBase64url]
        refine .inl ⟨by simpa using revoked, by linarith, by linarith, rfl, rfl⟩

theorem find_slide (t : SessionTable) (raw k : Digest) (now : Instant) :
    (slide t raw now).find k =
      (t.find k).map fun r => if slides raw now r then { r with lastSeenAt := now } else r := by
  simp [slide]

theorem find_revokeWhere (t : SessionTable) (p : SessionRow → Bool) (clock : Instant)
    (k : Digest) :
    (revokeWhere t p clock).find k = (t.find k).map fun r =>
      if p r && decide (r.revokedAt = none) then { r with revokedAt := some clock } else r := by
  simp [revokeWhere]

theorem resolve_found {t : SessionTable} {raw : Digest} {row : SessionRow}
    (found : t.find raw = some row) (now : Instant) : (resolve t raw now).2 = judge row now := by
  simp [resolve, found]

section Steps

variable {w : Watched} {h : History} {row : SessionRow}

/-- A revocation leaves the watched row tracked, and revoked if it is covered. -/
theorem tracked_revokeWhere (tracked : Tracked w h row) (p : SessionRow → Bool) (gap : ℕ)
    (covered : Bool) (hp : p row = covered) (clock : Instant) :
    ∃ row', Tracked w { h with
        now := h.now + gap
        sessions := revokeWhere h.sessions p clock
        revoked := h.revoked || covered } row' ∧
      row'.lastSeenAt = row.lastSeenAt ∧ row'.expiresAt = row.expiresAt := by
  have later : h.now ≤ h.now + gap := by linarith
  refine ⟨if p row && decide (row.revokedAt = none) then { row with revokedAt := some clock }
    else row, ⟨?_, ?_, ?_, ?_, ?_, ?_, ?_, ?_⟩, ?_, ?_⟩
  · simp [find_revokeWhere, tracked.found]
  · split <;> exact tracked.owner
  · split <;> exact tracked.csrf
  · split <;> exact tracked.expires
  · have revoked := tracked.revoked
    cases hr : row.revokedAt <;> cases covered <;> simp_all
  · split <;> exact tracked.seen
  · exact tracked.past.trans later
  · intro refused
    rcases tracked.refused refused with r | r | r
    · exact .inl (by simp [r])
    · refine .inr (.inl ?_)
      split <;> exact lt_of_lt_of_le r later
    · refine .inr (.inr ?_)
      split <;> exact lt_of_lt_of_le r (by simp only; linarith)
  · split <;> rfl
  · split <;> rfl

/-- The passing of time, with the row as it was. -/
theorem tracked_elapse (tracked : Tracked w h row) (gap : ℕ) {sessions : SessionTable}
    (found : sessions.find w.id = some row) :
    Tracked w { h with now := h.now + gap, sessions := sessions } row where
  found := found
  owner := tracked.owner
  csrf := tracked.csrf
  expires := tracked.expires
  revoked := tracked.revoked
  seen := tracked.seen
  past := tracked.past.trans (by simp only; linarith)
  refused refused := by
    rcases tracked.refused refused with r | r | r
    · exact .inl r
    · exact .inr (.inl (lt_of_lt_of_le r (by simp only; linarith)))
    · exact .inr (.inr (lt_of_lt_of_le r (by simp only; linarith)))

/-- A resolve of another session does not slide the watched row. -/
theorem find_slide_other {raw : Digest} (found : h.sessions.find w.id = some row)
    (other : raw ≠ w.id) (now : Instant) :
    (slide h.sessions raw now).find w.id = some row := by
  have key := (Table.find_eq_some.mp found).2
  have : row.tokenHash ≠ raw := by
    rw [key]
    exact fun e => other e.symm
  simp [find_slide, found, slides, this]

theorem find_create_other {raw : Digest} {userId : UserId} {csrf : CsrfToken} {now clock : Instant}
    (found : h.sessions.find w.id = some row) :
    ((create h.sessions userId raw csrf now clock).toOption.getD h.sessions).find w.id =
      some row := by
  cases created : create h.sessions userId raw csrf now clock with
  | error e => simpa [Except.toOption] using found
  | ok t =>
    have inserted := orFail_ok.mp created
    have key := (Table.find_eq_some.mp found).2
    have free := (Table.insert_eq_some.mp inserted).1
    have other : raw ≠ w.id := by
      rintro rfl
      simp [found] at free
    simp only [Except.toOption, Option.getD_some, Table.find_insert inserted]
    rw [if_neg other, found]

/-- A resolve of the watched session: the row slides or stays, and the history records the
verdict. -/
theorem tracked_resolve (tracked : Tracked w h row) (gap : ℕ) :
    ∃ row', Tracked w (step w h ⟨gap, .resolve w.id⟩) row' ∧
      (Lagging h row → OffBoundary w h ⟨gap, .resolve w.id⟩ →
        Lagging (step w h ⟨gap, .resolve w.id⟩) row') := by
  have key := (Table.find_eq_some.mp tracked.found).2
  have idle := idle_pos
  have refresh := refresh_pos
  have seen := tracked.seen
  have past := tracked.past
  have result := resolve_found tracked.found (h.now + gap)
  have slid : (slide h.sessions w.id (h.now + gap)).find w.id = some (if slides w.id (h.now + gap)
      row then { row with lastSeenAt := h.now + gap } else row) := by
    simp [find_slide, tracked.found]
  have moves : slides w.id (h.now + gap) row = true ↔ row.revokedAt = none ∧
      h.now + gap ≤ row.expiresAt ∧ h.now + gap - inactiveIdle < row.lastSeenAt ∧
      row.lastSeenAt < h.now + gap - lastSeenRefresh := by
    simp [slides, key]
  rcases judge_cases tracked.csrf (h.now + gap) with
    ⟨free, inTime, fresh, accepted, refused⟩ | ⟨grounds, accepted, refused⟩
  · have open_ : h.revoked = false := by rw [← tracked.revoked, free]; rfl
    have unrefused : h.refused = false := by
      by_contra was
      rcases tracked.refused (by simpa using was) with r | r | r
      · simp [open_] at r
      · linarith
      · linarith
    by_cases moved : slides w.id (h.now + gap) row = true
    · have bounds := moves.mp moved
      refine ⟨{ row with lastSeenAt := h.now + gap }, ⟨?_, tracked.owner, tracked.csrf,
        tracked.expires, tracked.revoked, ?_, ?_, ?_⟩, ?_⟩
      · simpa [step, resolve, moved] using slid
      · simp [step, result, accepted]
      · simp [step, result, accepted]
      · simp [step, result, refused, unrefused]
      · intro _ _
        left
        simp only [step, result, accepted]
        simp only [and_self, if_true]
        linarith
    · refine ⟨row, ⟨?_, tracked.owner, tracked.csrf, tracked.expires, tracked.revoked, ?_, ?_,
        ?_⟩, ?_⟩
      · simpa [step, resolve, moved] using slid
      · simp only [step, result, accepted, and_self, if_true]
        linarith
      · simp [step, result, accepted]
      · simp [step, result, refused, unrefused]
      · intro lag off
        have off := off rfl row tracked.found
        simp only [Lagging, step, result, accepted, and_self, if_true]
        have still : ¬ (h.now + gap - inactiveIdle < row.lastSeenAt ∧
            row.lastSeenAt < h.now + gap - lastSeenRefresh) :=
          fun b => moved (moves.mpr ⟨free, inTime, b⟩)
        by_cases near : h.now + gap - lastSeenRefresh ≤ row.lastSeenAt
        · exact .inl near
        · right
          -- neither bound of the update fails but the strict one, so the row is at the boundary
          have unslid : ¬ (h.now + gap - inactiveIdle < row.lastSeenAt) :=
            fun b => still ⟨b, not_le.mp near⟩
          have edge : h.now + gap = row.lastSeenAt + inactiveIdle := by linarith
          have last : ¬ (h.now + gap < row.expiresAt) := fun b => off ⟨free, edge, b⟩
          exact ⟨not_lt.mp last, fresh⟩
  · have stuck : slides w.id (h.now + gap) row ≠ true := by
      intro moved
      have bounds := moves.mp moved
      rcases grounds with r | r | r
      · simp [bounds.1] at r
      · linarith
      · linarith
    refine ⟨row, ⟨?_, tracked.owner, tracked.csrf, tracked.expires, tracked.revoked, ?_, ?_, ?_⟩,
      ?_⟩
    · simpa [step, resolve, stuck] using slid
    · simpa [step, result, accepted] using seen
    · simp only [step, result, accepted]
      simp only [Bool.false_eq_true, and_false, if_false]
      linarith
    · intro _
      rcases grounds with r | r | r
      · exact .inl (tracked.revoked ▸ r)
      · exact .inr (.inl r)
      · exact .inr (.inr r)
    · intro lag _
      simpa [Lagging, step, result, accepted] using lag

/-- One event keeps the watched row tracked; off the boundary it keeps the lag as well. -/
theorem step_tracked (tracked : Tracked w h row) (e : Event) :
    ∃ row', Tracked w (step w h e) row' ∧
      (Lagging h row → OffBoundary w h e → Lagging (step w h e) row') := by
  obtain ⟨gap, op⟩ := e
  cases op with
  | create userId raw csrf =>
    exact ⟨row, tracked_elapse tracked gap (find_create_other tracked.found), fun lag _ => lag⟩
  | resolve raw =>
    by_cases same : raw = w.id
    · subst same
      exact tracked_resolve tracked gap
    · refine ⟨row, ?_, ?_⟩
      · have elapsed := tracked_elapse tracked gap
          (find_slide_other tracked.found same (h.now + gap))
        simpa [step, same, resolve] using elapsed
      · intro lag _
        simpa [step, same, Lagging] using lag
  | revoke raw =>
    have key := (Table.find_eq_some.mp tracked.found).2
    obtain ⟨row', kept, seen, expires⟩ := tracked_revokeWhere tracked
      (fun r => decide (r.tokenHash = raw)) gap (decide (raw = w.id))
      (by simp only [key]; exact decide_eq_decide.mpr eq_comm) (h.now + gap)
    exact ⟨row', kept, fun lag _ => by simpa [Lagging, step, seen, expires] using lag⟩
  | revokeAllForUser u =>
    obtain ⟨row', kept, seen, expires⟩ := tracked_revokeWhere tracked
      (fun r => decide (r.userId = u)) gap (decide (u = w.owner))
      (by simp only [tracked.owner]; exact decide_eq_decide.mpr eq_comm) (h.now + gap)
    exact ⟨row', kept, fun lag _ => by simpa [Lagging, step, seen, expires] using lag⟩
  | revokeAllForUserExcept u keep =>
    have key := (Table.find_eq_some.mp tracked.found).2
    obtain ⟨row', kept, seen, expires⟩ := tracked_revokeWhere tracked
      (fun r => decide (r.userId = u ∧ r.tokenHash ≠ keep)) gap
      (decide (u = w.owner ∧ keep ≠ w.id))
      (by
        simp only [tracked.owner, key]
        exact decide_eq_decide.mpr (and_congr eq_comm (not_congr eq_comm))) (h.now + gap)
    exact ⟨row', kept, fun lag _ => by simpa [Lagging, step, seen, expires] using lag⟩

theorem tracked_sound (tracked : Tracked w h row) (e : Event) : Sound w h e := by
  intro _
  have later : h.now ≤ h.now + e.gap := by linarith
  have seen := tracked.seen
  have result := resolve_found tracked.found (h.now + e.gap)
  have verdict := judge_cases tracked.csrf (h.now + e.gap)
  simp only [result]
  refine ⟨fun accepted => ?_, fun was => ?_⟩
  · rcases verdict with ⟨free, inTime, fresh, -, -⟩ | ⟨-, refused, -⟩
    · refine ⟨by rw [← tracked.revoked, free]; rfl, tracked.expires ▸ inTime, by linarith⟩
    · simp [refused] at accepted
  · rcases verdict with ⟨free, inTime, fresh, -, -⟩ | ⟨-, -, refuses⟩
    · -- the ground of the earlier refusal is still there
      exfalso
      rcases tracked.refused was with r | r | r
      · rw [← tracked.revoked, free] at r
        simp at r
      · linarith
      · linarith
    · exact refuses

theorem tracked_complete (tracked : Tracked w h row) (lag : Lagging h row) (e : Event) :
    Complete w h e := by
  intro _ now unrevoked inTime fresh
  have free : row.revokedAt.isSome = false := tracked.revoked.trans unrevoked
  have refresh := refresh_pos
  rw [resolve_found tracked.found]
  rcases judge_cases tracked.csrf now with ⟨-, -, -, accepted, -⟩ | ⟨r | r | r, -, -⟩
  · exact accepted
  · simp [free] at r
  · rw [tracked.expires] at r
    linarith
  · rcases lag with lag | ⟨spent, lag⟩
    · linarith
    · rw [tracked.expires] at spent
      linarith

end Steps

theorem tracked_opened {w : Watched} {t t' : SessionTable}
    (created : create t w.owner w.id w.csrf w.born w.born = .ok t') :
    ∃ row, Tracked w (opened w t') row ∧ Lagging (opened w t') row := by
  have inserted := orFail_ok.mp created
  have refresh := refresh_pos
  refine ⟨⟨w.id, w.owner, toBase64url w.csrf, w.born, w.born, w.born + absoluteCap, none⟩, ?_, ?_⟩
  · constructor
    · simp only [opened, Table.find_insert inserted, if_true]
    all_goals simp [opened]
  · left
    simp only [opened]
    linarith

/-- Every run of the store after the creation of a session: no resolve accepts the session out
of its terms or after a refusal, and within its terms every resolve accepts it, as long as none
meets the session exactly at the end of its idle term. -/
theorem resolve_within_terms {w : Watched} {t t' : SessionTable}
    (created : create t w.owner w.id w.csrf w.born w.born = .ok t') (events : List Event) :
    Runs.Along (step w) (Sound w) (opened w t') events ∧
    (Runs.Along (step w) (OffBoundary w) (opened w t') events →
      Runs.Along (step w) (Complete w) (opened w t') events) := by
  obtain ⟨row, tracked, lag⟩ := tracked_opened created
  constructor
  · apply Runs.along_of_invariant (I := fun h => ∃ row, Tracked w h row)
      (C := fun _ _ => True)
    · rintro h e ⟨row, tracked⟩ -
      obtain ⟨row', kept, -⟩ := step_tracked tracked e
      exact ⟨row', kept⟩
    · rintro h e ⟨row, tracked⟩ -
      exact tracked_sound tracked e
    · exact ⟨row, tracked⟩
    · exact Runs.along_true _ _
  · intro off
    apply Runs.along_of_invariant (I := fun h => ∃ row, Tracked w h row ∧ Lagging h row)
      (C := OffBoundary w)
    · rintro h e ⟨row, tracked, lag⟩ off
      obtain ⟨row', kept, lags⟩ := step_tracked tracked e
      exact ⟨row', kept, lags lag off⟩
    · rintro h e ⟨row, tracked, lag⟩ _
      exact tracked_complete tracked lag e
    · exact ⟨row, tracked, lag⟩
    · exact off

def sampleSession : Watched := ⟨7, 1, 5#256, 0⟩

def sampleTable : SessionTable :=
  (create .empty 1 7 5#256 0 0).toOption.getD .empty

/-- A resolve a minute short of the idle term slides the session, a day later it is accepted
again and after its revocation it is refused. -/
def minuteEarly : List Event :=
  [⟨29 * 86400000000 + 86340000000, .resolve 7⟩, ⟨86400000000, .resolve 7⟩,
    ⟨0, .revokeAllForUser 1⟩, ⟨0, .resolve 7⟩]

theorem minuteEarly_within_terms :
    Runs.Along (step sampleSession) (Sound sampleSession) (opened sampleSession sampleTable)
        minuteEarly ∧
      Runs.Along (step sampleSession) (Complete sampleSession) (opened sampleSession sampleTable)
        minuteEarly := by
  have created : create .empty 1 7 5#256 0 0 = .ok sampleTable := rfl
  obtain ⟨sound, complete⟩ := resolve_within_terms (w := sampleSession) created minuteEarly
  exact ⟨sound, complete (by decide +kernel)⟩

/-- A resolve at the very end of the idle term accepts the session and does not slide it, so
that it is refused an hour later. -/
theorem idleBoundary_forgotten :
    create .empty 1 7 5#256 0 0 = .ok sampleTable ∧
      ¬ Runs.Along (step sampleSession) (Complete sampleSession)
        (opened sampleSession sampleTable)
        [⟨30 * 86400000000, .resolve 7⟩, ⟨3600000000, .resolve 7⟩] :=
  ⟨rfl, by decide +kernel⟩

end Sessions
