import BikesNest.SlidingLog
import BikesNest.Table

/-! The two rate limiters. One keeps a bucket of times for each key in memory, swept now and then
and capped; the other keeps a sorted set for each key in ValKey, which a script trims, counts and
extends in one step and which expires. Times are milliseconds. -/

namespace RateLimits

open SlidingLog

/-! ### In memory -/

def maxBuckets : ℕ := 100000

def sweepEveryNewKeys : ℕ := 512

/-- `events` has the oldest in front. -/
structure Bucket where
  key : String
  events : List ℕ
  lastSeen : ℕ
  window : ℕ

abbrev BucketMap := Table String Bucket Bucket.key

structure Buckets where
  map : BucketMap
  sinceSweep : ℕ

/-- What the world adds to a check: the order in which `sort_unstable_by_key` puts the entries of the
map, and the random member of the sorted set. -/
structure World where
  byAge : List Bucket → List Bucket
  perm : ∀ l, (byAge l).Perm l
  sorted : ∀ l, (byAge l).Pairwise fun a b => a.lastSeen ≤ b.lastSeen
  member : String

/-- `sweep`: the buckets whose window has elapsed go, then the least recently touched ones while the
map is at its cap. -/
def sweep (world : World) (s : Buckets) (now : ℕ) : Buckets :=
  let kept := s.map.delete fun b => !decide (now - b.lastSeen < b.window)
  if kept.rows.length < maxBuckets then ⟨kept, 0⟩
  else
    let target := maxBuckets - maxBuckets / 10
    let excess := kept.rows.length - target
    let oldest := ((world.byAge kept.rows).take excess).map Bucket.key
    ⟨kept.delete fun b => decide (b.key ∈ oldest), 0⟩

/-- Only a new key can call for a sweep. -/
def makeRoom (world : World) (c : Check String) (s : Buckets) : Buckets :=
  if (s.map.find c.key).isSome then s
  else if sweepEveryNewKeys ≤ s.sinceSweep + 1 ∨ maxBuckets ≤ s.map.rows.length then
    sweep world s c.now
  else { s with sinceSweep := s.sinceSweep + 1 }

/-- The events of a bucket without those that have left the window. -/
def trimmed (c : Check String) (events : List ℕ) : List ℕ :=
  events.dropWhile fun front => decide (c.window ≤ c.now - front)

def touch (c : Check String) (events : List ℕ) (s : Buckets) : Buckets :=
  { s with
    map := s.map.upsert ⟨c.key, events, c.now, c.window⟩
      (fun b => { b with events := events, lastSeen := c.now, window := c.window }) fun _ => rfl }

/-- `InMemoryRateLimiter::check`. -/
def memory : Limiter Buckets World String := fun world c s =>
  let s := makeRoom world c s
  let events := trimmed c (((s.map.find c.key).map Bucket.events).getD [])
  if c.limit ≤ events.length then (false, touch c events s)
  else (true, touch c (events ++ [c.now]) s)

/-! ### ValKey -/

structure Member where
  member : String
  score : ℕ
  deriving DecidableEq

structure SortedSet where
  members : Table String Member Member.member
  expiresAt : Option ℕ

def SortedSet.missing : SortedSet := ⟨.empty, none⟩

abbrev Keyspace := String → SortedSet

/-- A key whose expiry has come is not there. -/
def SortedSet.at (z : SortedSet) (now : ℕ) : SortedSet :=
  if ∃ e ∈ z.expiresAt, e ≤ now then .missing else z

/-- `ZREMRANGEBYSCORE key min max`; a set that becomes empty is removed. -/
def zremrangebyscore (z : SortedSet) (min max : ℤ) : SortedSet :=
  let members := z.members.delete fun m => decide (min ≤ m.score ∧ (m.score : ℤ) ≤ max)
  if members.rows = [] then .missing else { z with members := members }

def zcard (z : SortedSet) : ℕ := z.members.rows.length

def zadd (z : SortedSet) (score : ℕ) (member : String) : SortedSet :=
  { z with
    members := z.members.upsert ⟨member, score⟩ (fun m => { m with score := score }) fun _ => rfl }

def pexpire (z : SortedSet) (milliseconds now : ℕ) : SortedSet :=
  { z with expiresAt := some (now + milliseconds) }

/-- `RATE_LIMIT_LUA`. -/
def script (z : SortedSet) (now window limit : ℕ) (member : String) : Bool × SortedSet :=
  let z := zremrangebyscore z 0 ((now : ℤ) - window)
  if limit ≤ zcard z then (false, z)
  else (true, pexpire (zadd z now member) window now)

/-- `ValKeyRateLimiter::check_once`. -/
def valkey : Limiter Keyspace World String := fun world c s =>
  let (allowed, z) := script ((s c.key).at c.now) c.now c.window c.limit world.member
  (allowed, Function.update s c.key z)

/-! ### The buckets -/

def eventsOf (s : Buckets) (k : String) : List ℕ := ((s.map.find k).map Bucket.events).getD []

/-- The events of a bucket that count at a time. -/
def liveEvents (window : String → ℕ) (s : Buckets) (k : String) (now : ℕ) : ℕ :=
  (eventsOf s k).countP fun t => decide (now < t + window k)

theorem eventsOf_congr {s s' : Buckets} {k : String} (same : s'.map.find k = s.map.find k) :
    eventsOf s' k = eventsOf s k := by
  simp only [eventsOf, same]

theorem eventsOf_none {s : Buckets} {k : String} (none : s.map.find k = none) :
    eventsOf s k = [] := by
  simp only [eventsOf, none, Option.map_none, Option.getD_none]

theorem eventsOf_some {s : Buckets} {k : String} {b : Bucket} (found : s.map.find k = some b) :
    eventsOf s k = b.events := by
  simp only [eventsOf, found, Option.map_some, Option.getD_some]

theorem find_delete_cases (t : BucketMap) (p : Bucket → Bool) (k : String) :
    (t.delete p).find k = t.find k ∨
      (t.delete p).find k = none ∧ ∃ b, t.find k = some b ∧ p b = true := by
  rw [Table.find_delete]
  cases found : t.find k with
  | none => exact .inl rfl
  | some b =>
    by_cases goes : p b = true
    · exact .inr ⟨by simp [goes], b, rfl, goes⟩
    · exact .inl (by simp [goes])

/-- What a sweep keeps it keeps as it is; a bucket that goes has expired, or the map stands at its
cap without those. -/
theorem find_sweep (world : World) (s : Buckets) (now : ℕ) (k : String) :
    (sweep world s now).map.find k = s.map.find k ∨
      (sweep world s now).map.find k = none ∧ ∃ b, s.map.find k = some b ∧
        (b.window ≤ now - b.lastSeen ∨
          maxBuckets ≤ (s.map.delete fun b => !decide (now - b.lastSeen < b.window)).rows.length) := by
  have first := find_delete_cases s.map (fun b => !decide (now - b.lastSeen < b.window)) k
  have expired : ∀ b : Bucket, (!decide (now - b.lastSeen < b.window)) = true →
      b.window ≤ now - b.lastSeen := fun b h => by simpa using h
  simp only [sweep]
  generalize maxBuckets = cap
  split
  · rcases first with same | ⟨gone, b, found, old⟩
    · exact .inl same
    · exact .inr ⟨gone, b, found, .inl (expired b old)⟩
  · rename_i full
    have full := Nat.not_lt.mp full
    rcases find_delete_cases (s.map.delete fun b => !decide (now - b.lastSeen < b.window)) _ k with
      same | ⟨gone, b, found, -⟩
    · rcases first with kept | ⟨gone, b, found, old⟩
      · exact .inl (same.trans kept)
      · exact .inr ⟨same.trans gone, b, found, .inl (expired b old)⟩
    · rcases first with kept | ⟨lost, -⟩
      · exact .inr ⟨gone, b, kept.symm.trans found, .inr full⟩
      · rw [lost] at found
        cases found

/-- Dropping the rows of some of the keys of a map drops as many rows. -/
theorem length_delete_oldest (t : BucketMap) {sorted : List Bucket} (perm : sorted.Perm t.rows)
    (n : ℕ) : (t.delete fun b => decide (b.key ∈ (sorted.take n).map Bucket.key)).rows.length ≤
      t.rows.length - n := by
  have parts : (sorted.filter fun b => !decide (b.key ∈ (sorted.take n).map Bucket.key)) =
      (sorted.drop n).filter fun b => !decide (b.key ∈ (sorted.take n).map Bucket.key) := by
    have gone : ((sorted.take n).filter fun b =>
        !decide (b.key ∈ (sorted.take n).map Bucket.key)) = [] := by
      rw [List.filter_eq_nil_iff]
      intro b hb
      have taken : b.key ∈ (sorted.take n).map Bucket.key := List.mem_map_of_mem hb
      simp only [taken, decide_true, Bool.not_true, Bool.false_eq_true, not_false_eq_true]
    conv_lhs => rw [← List.take_append_drop n sorted, List.filter_append]
    rw [List.take_append_drop, gone, List.nil_append]
  have rest : ((sorted.drop n).filter fun b =>
      !decide (b.key ∈ (sorted.take n).map Bucket.key)).length ≤ sorted.length - n :=
    (List.length_filter_le _ _).trans (List.length_drop).le
  change (t.rows.filter _).length ≤ _
  rw [← (perm.filter _).length_eq, parts, ← perm.length_eq]
  exact rest

theorem length_sweep (world : World) (s : Buckets) (now : ℕ) :
    (sweep world s now).map.rows.length < maxBuckets := by
  simp only [sweep]
  split
  · assumption
  · have evicted := length_delete_oldest
      (s.map.delete fun b => !decide (now - b.lastSeen < b.window)) (world.perm _)
      ((s.map.delete fun b => !decide (now - b.lastSeen < b.window)).rows.length -
        (maxBuckets - maxBuckets / 10))
    refine lt_of_le_of_lt evicted ?_
    unfold maxBuckets at *
    omega

/-- Room is made by a sweep, and only for a new key. -/
theorem makeRoom_cases (world : World) (c : Check String) (s : Buckets) :
    (makeRoom world c s).map = s.map ∨
      (makeRoom world c s = sweep world s c.now ∧ s.map.find c.key = none) := by
  cases found : s.map.find c.key with
  | some b => exact .inl (by simp [makeRoom, found])
  | none =>
    simp only [makeRoom, found, Option.isSome_none, Bool.false_eq_true, if_false]
    split
    · exact .inr ⟨rfl, trivial⟩
    · exact .inl rfl

theorem mem_makeRoom {world : World} {c : Check String} {s : Buckets} {b : Bucket}
    (hb : b ∈ (makeRoom world c s).map) : b ∈ s.map := by
  rcases makeRoom_cases world c s with same | ⟨same, -⟩
  · rwa [same] at hb
  · rw [same] at hb
    have found := Table.find_of_mem hb
    rcases find_sweep world s c.now b.key with kept | ⟨gone, -⟩
    · exact (Table.find_eq_some.mp (kept.symm.trans found)).1
    · rw [gone] at found
      cases found

/-- The key of a check finds its bucket as it was. -/
theorem find_makeRoom_own (world : World) (c : Check String) (s : Buckets) :
    (makeRoom world c s).map.find c.key = s.map.find c.key := by
  rcases makeRoom_cases world c s with same | ⟨same, none⟩
  · rw [same]
  · rw [same, none]
    rcases find_sweep world s c.now c.key with kept | ⟨gone, -⟩
    · rw [kept, none]
    · exact gone

/-- There is room for the key of the check. -/
theorem length_makeRoom (world : World) (c : Check String) {s : Buckets}
    (short : s.map.rows.length ≤ maxBuckets) :
    (makeRoom world c s).map.rows.length ≤ maxBuckets ∧
      (s.map.find c.key = none → (makeRoom world c s).map.rows.length < maxBuckets) := by
  cases found : s.map.find c.key with
  | some b =>
    have same : makeRoom world c s = s := by simp [makeRoom, found]
    rw [same]
    exact ⟨short, fun h => by cases h⟩
  | none =>
    simp only [makeRoom, found, Option.isSome_none, Bool.false_eq_true, if_false, forall_const]
    split
    · have swept := length_sweep world s c.now
      exact ⟨swept.le, swept⟩
    · rename_i few
      have below : s.map.rows.length < maxBuckets := Nat.lt_of_not_le fun h => few (.inr h)
      exact ⟨below.le, below⟩

theorem find_touch (c : Check String) (events : List ℕ) (s : Buckets) (k : String) :
    ((touch c events s).map.find k) =
      if c.key = k then some ⟨k, events, c.now, c.window⟩ else s.map.find k := by
  rw [touch, Table.find_upsert]
  by_cases own : c.key = k
  · subst own
    cases found : s.map.find c.key with
    | none => simp
    | some b =>
      obtain ⟨-, same⟩ := Table.find_eq_some.mp found
      simp [← same]
  · simp [own]

theorem length_touch (c : Check String) (events : List ℕ) (s : Buckets) :
    (touch c events s).map.rows.length =
      s.map.rows.length + if s.map.find c.key = none then 1 else 0 := by
  simp only [touch, Table.upsert]
  cases inserted : s.map.insert ⟨c.key, events, c.now, c.window⟩ with
  | some t =>
    obtain ⟨fresh, rows⟩ := Table.insert_eq_some.mp inserted
    have fresh : s.map.find c.key = none := fresh
    simp [rows, fresh]
  | none =>
    have found : ¬ s.map.find c.key = none := fun fresh => by
      have free : s.map.find (Bucket.key ⟨c.key, events, c.now, c.window⟩) = none := fresh
      obtain ⟨t, there⟩ := Table.insert_isSome.mpr free
      rw [inserted] at there
      cases there
    simp [found, Table.update]

/-- In order of age, what is dropped from the front is all that is too old. -/
theorem trimmed_eq_filter (c : Check String) {events : List ℕ} (sorted : events.Pairwise (· ≤ ·))
    (past : ∀ t ∈ events, t ≤ c.now) :
    trimmed c events = events.filter fun t => decide (c.now < t + c.window) := by
  induction events with
  | nil => rfl
  | cons t events ih =>
    obtain ⟨first, sorted⟩ := List.pairwise_cons.mp sorted
    have now : t ≤ c.now := past t List.mem_cons_self
    by_cases old : c.window ≤ c.now - t
    · have out : ¬ c.now < t + c.window := by omega
      have rest := ih sorted fun u hu => past u (List.mem_cons_of_mem t hu)
      simp only [trimmed] at rest ⊢
      rw [List.dropWhile_cons_of_pos (by simpa using old), List.filter_cons_of_neg (by simpa using out)]
      exact rest
    · have all : ∀ u ∈ t :: events, decide (c.now < u + c.window) = true := by
        intro u hu
        have later : t ≤ u := by
          rcases List.mem_cons.mp hu with rfl | hu
          · exact le_rfl
          · exact first u hu
        have := past u hu
        exact decide_eq_true (by omega)
      rw [trimmed, List.dropWhile_cons_of_neg (by simpa using old), eq_comm, List.filter_eq_self]
      exact all

/-- What holds of the buckets after a run: each was last seen by a check of its key, holds times of
the past in their order, and the cap holds. -/
structure Kept (window : String → ℕ) (s : Logged Buckets World String) : Prop where
  sorted : ∀ b ∈ s.store.map, b.events.Pairwise (· ≤ ·)
  past : ∀ b ∈ s.store.map, ∀ t ∈ b.events, t ≤ b.lastSeen
  seen : ∀ b ∈ s.store.map, b.window = window b.key ∧ ∃ a ∈ s.log,
    a.check.key = b.key ∧ a.check.now = b.lastSeen ∧ a.check.window = b.window
  short : s.store.map.rows.length ≤ maxBuckets

section Memory

variable {window : String → ℕ} {s : Logged Buckets World String} {e : World × Check String}
  (kept : Kept window s) (admissible : Admissible window s e)
include kept admissible

theorem eventsOf_past : (eventsOf s.store e.2.key).Pairwise (· ≤ ·) ∧
    ∀ t ∈ eventsOf s.store e.2.key, t ≤ e.2.now := by
  cases found : s.store.map.find e.2.key with
  | none =>
    rw [eventsOf_none found]
    exact ⟨.nil, by simp⟩
  | some b =>
    obtain ⟨hb, -⟩ := Table.find_eq_some.mp found
    rw [eventsOf_some found]
    obtain ⟨-, a, ha, -, seen, -⟩ := kept.seen b hb
    exact ⟨kept.sorted b hb, fun t ht => ((kept.past b hb t ht).trans seen.ge).trans
      (admissible.forward a ha)⟩

/-- What a check counts are the events of its key within the window. -/
theorem trimmed_own : trimmed e.2 (eventsOf s.store e.2.key) =
    (eventsOf s.store e.2.key).filter fun t => decide (e.2.now < t + window e.2.key) := by
  obtain ⟨sorted, past⟩ := eventsOf_past kept admissible
  rw [trimmed_eq_filter e.2 sorted past, admissible.own]

end Memory

/-- The steps of a check: make room, trim, and touch the bucket of the key. -/
theorem memory_eq (world : World) (c : Check String) (s : Buckets) :
    memory world c s =
      let events := trimmed c (eventsOf s c.key)
      if c.limit ≤ events.length then (false, touch c events (makeRoom world c s))
      else (true, touch c (events ++ [c.now]) (makeRoom world c s)) := by
  rw [memory, eventsOf, find_makeRoom_own]

section Memory

variable {window : String → ℕ} {s : Logged Buckets World String} {e : World × Check String}

/-- The bucket of the key after a check. -/
def eventsAfter (e : World × Check String) (s : Buckets) : List ℕ :=
  let events := trimmed e.2 (eventsOf s e.2.key)
  if e.2.limit ≤ events.length then events else events ++ [e.2.now]

theorem memory_map : (memory e.1 e.2 s.store).2 =
    touch e.2 (eventsAfter e s.store) (makeRoom e.1 e.2 s.store) := by
  rw [memory_eq, eventsAfter]
  by_cases full : e.2.limit ≤ (trimmed e.2 (eventsOf s.store e.2.key)).length
  · simp only [if_pos full]
  · simp only [if_neg full]

theorem memory_answer : (memory e.1 e.2 s.store).1 =
    decide ((trimmed e.2 (eventsOf s.store e.2.key)).length < e.2.limit) := by
  rw [memory_eq]
  by_cases full : e.2.limit ≤ (trimmed e.2 (eventsOf s.store e.2.key)).length
  · simp only [if_pos full, Nat.not_lt.mpr full, decide_false]
  · simp only [if_neg full, Nat.not_le.mp full, decide_true]

theorem eventsOf_memory (k : String) : eventsOf (memory e.1 e.2 s.store).2 k =
    if e.2.key = k then eventsAfter e s.store else eventsOf (makeRoom e.1 e.2 s.store) k := by
  rw [memory_map, eventsOf, find_touch]
  by_cases own : e.2.key = k
  · simp [own]
  · simp [own, eventsOf]

variable (kept : Kept window s) (admissible : Admissible window s e)
include kept admissible

theorem memory_slides : Slides memory window (liveEvents window) e.1 e.2 s.store where
  answer := by
    rw [memory_answer, trimmed_own kept admissible, liveEvents, List.countP_eq_length_filter]
  own now later := by
    have trim : ((eventsOf s.store e.2.key).filter fun t => decide (e.2.now < t + window e.2.key)).countP
        (fun t => decide (now < t + window e.2.key)) =
          (eventsOf s.store e.2.key).countP fun t => decide (now < t + window e.2.key) := by
      rw [List.countP_filter]
      refine List.countP_congr fun t _ => ?_
      simp only [Bool.and_eq_true, decide_eq_true_eq]
      omega
    rw [liveEvents, eventsOf_memory, if_pos rfl, eventsAfter, memory_answer,
      trimmed_own kept admissible]
    simp only [decide_eq_true_eq]
    by_cases full : e.2.limit ≤
        ((eventsOf s.store e.2.key).filter fun t => decide (e.2.now < t + window e.2.key)).length
    · rw [if_pos full, trim, if_neg fun h => absurd h.1 (Nat.not_lt.mpr full), Nat.add_zero, liveEvents]
    · rw [if_neg full, List.countP_append, trim, List.countP_singleton, liveEvents]
      simp [Nat.not_le.mp full]
  others k now other later := by
    rw [liveEvents, eventsOf_memory, if_neg fun same => other same.symm]
    rcases makeRoom_cases e.1 e.2 s.store with same | ⟨same, -⟩
    · rw [eventsOf_congr (congrArg (fun m => Table.find m k) same), liveEvents]
    · rw [same]
      rcases find_sweep e.1 s.store e.2.now k with found | ⟨gone, -⟩
      · rw [eventsOf_congr found, liveEvents]
      · rw [eventsOf_none gone]
        exact Nat.zero_le _

/-- Each bucket that has not expired is of a live key. -/
theorem unexpired_le_live :
    (s.store.map.delete fun b => !decide (e.2.now - b.lastSeen < b.window)).rows.length ≤
      (liveKeys s.log e.2.now).length := by
  have nodup : ((s.store.map.delete fun b =>
      !decide (e.2.now - b.lastSeen < b.window)).rows.map Bucket.key).Nodup :=
    Table.distinct _
  rw [← List.length_map (f := Bucket.key)]
  refine (nodup.subperm fun k hk => ?_).length_le
  obtain ⟨b, hb, rfl⟩ := List.mem_map.mp hk
  obtain ⟨hb, young⟩ := Table.mem_delete.mp hb
  have young : e.2.now - b.lastSeen < b.window := by simpa using young
  obtain ⟨-, a, ha, key, seen, width⟩ := kept.seen b hb
  rw [liveKeys, List.mem_dedup]
  refine List.mem_map.mpr ⟨a, List.mem_filter.mpr ⟨ha, decide_eq_true ?_⟩, key⟩
  have past := admissible.forward a ha
  omega

/-- Below the cap no event that counts is forgotten. -/
theorem memory_remembers (room : (liveKeys s.log e.2.now).length < maxBuckets) :
    Remembers memory (liveEvents window) e.1 e.2 s.store := by
  intro k now other later
  rw [liveEvents, liveEvents, eventsOf_memory, if_neg fun same => other same.symm]
  rcases makeRoom_cases e.1 e.2 s.store with same | ⟨same, -⟩
  · rw [eventsOf_congr (congrArg (fun m => Table.find m k) same)]
  · rw [same]
    rcases find_sweep e.1 s.store e.2.now k with found | ⟨-, b, found, expired | full⟩
    · rw [eventsOf_congr found]
    · obtain ⟨hb, key⟩ := Table.find_eq_some.mp found
      rw [eventsOf_some found, List.countP_eq_zero.mpr]
      · exact Nat.zero_le _
      · intro t ht
        have past := kept.past b hb t ht
        obtain ⟨width, a, ha, -, seen, -⟩ := kept.seen b hb
        have forward := admissible.forward a ha
        rw [key] at width
        simp only [decide_eq_true_eq]
        omega
    · have live := unexpired_le_live kept admissible
      omega

theorem memory_kept : Kept window (record memory s e) := by
  have rows : ∀ b ∈ (record memory s e).store.map, b ∈ s.store.map ∨
      b = ⟨e.2.key, eventsAfter e s.store, e.2.now, e.2.window⟩ := by
    intro b hb
    have found := Table.find_of_mem hb
    rw [record, memory_map, find_touch] at found
    split at found
    · rename_i own
      rw [← Option.some.inj found, own]
      exact .inr rfl
    · exact .inl (mem_makeRoom (Table.find_eq_some.mp found).1)
  have after : (eventsAfter e s.store).Pairwise (· ≤ ·) ∧ ∀ t ∈ eventsAfter e s.store, t ≤ e.2.now := by
    obtain ⟨sorted, past⟩ := eventsOf_past kept admissible
    have sub : (trimmed e.2 (eventsOf s.store e.2.key)).Sublist (eventsOf s.store e.2.key) :=
      List.dropWhile_sublist _
    have young : ∀ t ∈ trimmed e.2 (eventsOf s.store e.2.key), t ≤ e.2.now :=
      fun t ht => past t (sub.subset ht)
    simp only [eventsAfter]
    split
    · exact ⟨sorted.sublist sub, young⟩
    · refine ⟨List.pairwise_append.mpr ⟨sorted.sublist sub, List.pairwise_singleton _ _, ?_⟩, ?_⟩
      · intro t ht u hu
        rw [List.mem_singleton.mp hu]
        exact young t ht
      · intro t ht
        rcases List.mem_append.mp ht with ht | ht
        · exact young t ht
        · exact (List.mem_singleton.mp ht).le
  refine ⟨fun b hb => ?_, fun b hb => ?_, fun b hb => ?_, ?_⟩
  · rcases rows b hb with hb | rfl
    · exact kept.sorted b hb
    · exact after.1
  · rcases rows b hb with hb | rfl
    · exact kept.past b hb
    · exact after.2
  · rcases rows b hb with hb | rfl
    · obtain ⟨width, a, ha, facts⟩ := kept.seen b hb
      exact ⟨width, a, List.mem_cons_of_mem _ ha, facts⟩
    · exact ⟨admissible.own, _, List.mem_cons_self, rfl, rfl, rfl⟩
  · obtain ⟨short, room⟩ := length_makeRoom e.1 e.2 kept.short
    rw [record, memory_map, length_touch, find_makeRoom_own]
    split
    · rename_i fresh
      exact room fresh
    · exact short

end Memory

/-! ### The sorted sets -/

/-- The members of a set that count at a time. -/
def liveMembers (window : String → ℕ) (s : Keyspace) (k : String) (now : ℕ) : ℕ :=
  (s k).members.count fun m => decide (now < m.score + window k)

/-- What holds of the sorted sets after a run: no member outlives the expiry of its set, and each was
drawn by a check. -/
structure Held (window : String → ℕ) (s : Logged Keyspace World String) : Prop where
  expires : ∀ k, ∀ m ∈ (s.store k).members, ∃ t ∈ (s.store k).expiresAt, m.score + window k ≤ t
  drawn : ∀ k, ∀ m ∈ (s.store k).members,
    ∃ a ∈ s.log, a.draw.member = m.member ∧ a.check.now = m.score

theorem count_missing (p : Member → Bool) : SortedSet.missing.members.count p = 0 := rfl

section ValKey

variable {z : SortedSet} {width now later : ℕ}

/-- What has expired counts no more. -/
theorem count_at (expires : ∀ m ∈ z.members, ∃ t ∈ z.expiresAt, m.score + width ≤ t)
    (order : now ≤ later) : (z.at now).members.count (fun m => decide (later < m.score + width)) =
      z.members.count fun m => decide (later < m.score + width) := by
  unfold SortedSet.at
  split
  · rename_i expired
    obtain ⟨t, ht, past⟩ := expired
    rw [count_missing, eq_comm, Table.count, List.countP_eq_zero]
    intro m hm
    obtain ⟨u, hu, within⟩ := expires m hm
    obtain rfl := Option.some.inj (ht.symm.trans hu)
    simp only [decide_eq_true_eq]
    omega
  · rfl

/-- What the script removes does not count, and all that is left counts now. -/
theorem members_trimmed (z : SortedSet) (width now : ℕ) :
    (zremrangebyscore z 0 ((now : ℤ) - width)).members.rows =
      z.members.rows.filter fun m => decide (now < m.score + width) := by
  have rows : (z.members.delete fun m =>
      decide ((0 : ℤ) ≤ m.score ∧ (m.score : ℤ) ≤ (now : ℤ) - width)).rows =
        z.members.rows.filter fun m => decide (now < m.score + width) := by
    refine List.filter_congr fun m _ => ?_
    rw [Bool.eq_iff_iff]
    simp only [Bool.not_eq_true', decide_eq_false_iff_not, decide_eq_true_eq]
    omega
  rw [zremrangebyscore, rows]
  split
  · rename_i empty
    exact empty.symm
  · exact rows

theorem count_trimmed (z : SortedSet) (order : now ≤ later) :
    (zremrangebyscore z 0 ((now : ℤ) - width)).members.count
      (fun m => decide (later < m.score + width)) =
        z.members.count fun m => decide (later < m.score + width) := by
  rw [Table.count, members_trimmed, List.countP_filter]
  refine List.countP_congr fun m _ => ?_
  simp only [Bool.and_eq_true, decide_eq_true_eq]
  omega

theorem count_zadd {member : String} (fresh : ∀ m ∈ z.members, m.member ≠ member)
    (p : Member → Bool) : (zadd z now member).members.count p =
      z.members.count p + if p ⟨member, now⟩ then 1 else 0 := by
  obtain ⟨t, inserted⟩ := Table.insert_isSome.mpr
    (Table.find_eq_none.mpr fresh : z.members.find (Member.member ⟨member, now⟩) = none)
  rw [zadd, Table.upsert, inserted, Option.getD_some, Table.count_insert inserted]

theorem mem_zadd {member : String} (fresh : ∀ m ∈ z.members, m.member ≠ member) {m : Member} :
    m ∈ (zadd z now member).members ↔ m ∈ z.members ∨ m = ⟨member, now⟩ := by
  obtain ⟨t, inserted⟩ := Table.insert_isSome.mpr
    (Table.find_eq_none.mpr fresh : z.members.find (Member.member ⟨member, now⟩) = none)
  rw [zadd, Table.upsert, inserted, Option.getD_some, Table.mem_insert inserted]

theorem mem_at {m : Member} (hm : m ∈ (z.at now).members) : m ∈ z.members ∧ z.at now = z := by
  unfold SortedSet.at at *
  split
  · rename_i expired
    rw [if_pos expired] at hm
    exact absurd hm (Table.not_mem_empty m)
  · rename_i live
    rw [if_neg live] at hm
    exact ⟨hm, rfl⟩

theorem mem_trimmed {m : Member} {min max : ℤ} (hm : m ∈ (zremrangebyscore z min max).members) :
    m ∈ z.members ∧ (zremrangebyscore z min max).expiresAt = z.expiresAt := by
  simp only [zremrangebyscore] at hm ⊢
  by_cases empty : (z.members.delete fun m =>
      decide (min ≤ (m.score : ℤ) ∧ (m.score : ℤ) ≤ max)).rows = []
  · rw [if_pos empty] at hm
    exact absurd hm (Table.not_mem_empty m)
  · rw [if_neg empty] at hm ⊢
    exact ⟨(Table.mem_delete.mp hm).1, rfl⟩

variable {window : String → ℕ} {s : Logged Keyspace World String} {e : World × Check String}

/-- The set of the key as the script finds it, trimmed. -/
def found (e : World × Check String) (s : Keyspace) : SortedSet :=
  zremrangebyscore ((s e.2.key).at e.2.now) 0 ((e.2.now : ℤ) - e.2.window)

theorem valkey_answer : (valkey e.1 e.2 s.store).1 =
    decide (zcard (found e s.store) < e.2.limit) := by
  simp only [valkey, script, found]
  split
  · rename_i full
    simp [Nat.not_lt.mpr full]
  · rename_i few
    simp [Nat.not_le.mp few]

theorem valkey_store (k : String) : (valkey e.1 e.2 s.store).2 k =
    if k = e.2.key then
      if e.2.limit ≤ zcard (found e s.store) then found e s.store
      else pexpire (zadd (found e s.store) e.2.now e.1.member) e.2.window e.2.now
    else s.store k := by
  by_cases own : k = e.2.key
  · subst own
    have ran : script ((s.store e.2.key).at e.2.now) e.2.now e.2.window e.2.limit e.1.member =
        if e.2.limit ≤ zcard (found e s.store) then (false, found e s.store)
        else (true, pexpire (zadd (found e s.store) e.2.now e.1.member) e.2.window e.2.now) := rfl
    simp only [valkey, ran, Function.update_self, if_true]
    by_cases full : e.2.limit ≤ zcard (found e s.store)
    · rw [if_pos full, if_pos full]
    · rw [if_neg full, if_neg full]
  · simp only [valkey, Function.update_of_ne own, if_neg own]

variable (held : Held window s) (admissible : Admissible window s e)
  (drawn : ∀ a ∈ s.log, a.draw.member ≠ e.1.member)
include held admissible

theorem count_found (order : e.2.now ≤ later) :
    (found e s.store).members.count (fun m => decide (later < m.score + window e.2.key)) =
      liveMembers window s.store e.2.key later := by
  rw [found, admissible.own, count_trimmed _ order, count_at (held.expires e.2.key) order, liveMembers]

theorem zcard_found : zcard (found e s.store) = liveMembers window s.store e.2.key e.2.now := by
  rw [← count_found held admissible le_rfl, zcard, Table.count, eq_comm, List.countP_eq_length, found,
    admissible.own]
  intro m hm
  rw [members_trimmed] at hm
  exact (List.mem_filter.mp hm).2

omit admissible in
theorem mem_found {m : Member} (hm : m ∈ (found e s.store).members) :
    (∃ t ∈ (found e s.store).expiresAt, m.score + window e.2.key ≤ t) ∧
      ∃ a ∈ s.log, a.draw.member = m.member ∧ a.check.now = m.score := by
  obtain ⟨there, expiry⟩ := mem_trimmed hm
  obtain ⟨there, same⟩ := mem_at there
  have expiry : (found e s.store).expiresAt = (s.store e.2.key).expiresAt := by
    rw [← same]
    exact expiry
  rw [expiry]
  exact ⟨held.expires _ m there, held.drawn _ m there⟩

include drawn

omit admissible in
theorem found_fresh : ∀ m ∈ (found e s.store).members, m.member ≠ e.1.member := by
  intro m hm same
  obtain ⟨-, a, ha, drew, -⟩ := mem_found held hm
  exact drawn a ha (drew.trans same)

theorem valkey_slides : Slides valkey window (liveMembers window) e.1 e.2 s.store where
  answer := by rw [valkey_answer, zcard_found held admissible]
  own later order := by
    simp only [valkey_answer, liveMembers, valkey_store, if_pos, decide_eq_true_eq]
    rw [← liveMembers]
    by_cases full : e.2.limit ≤ zcard (found e s.store)
    · rw [if_pos full, count_found held admissible order, if_neg fun h => absurd h.1 (Nat.not_lt.mpr full),
        Nat.add_zero]
    · rw [if_neg full, pexpire, count_zadd (found_fresh held drawn), count_found held admissible order]
      simp [Nat.not_le.mp full]
  others k later other order := by
    rw [liveMembers, valkey_store, if_neg other, liveMembers]

omit held admissible drawn in
theorem valkey_remembers : Remembers valkey (liveMembers window) e.1 e.2 s.store := by
  intro k later other order
  rw [liveMembers, liveMembers, valkey_store, if_neg other]

theorem valkey_held : Held window (record valkey s e) := by
  have store : (record valkey s e).store = (valkey e.1 e.2 s.store).2 := rfl
  have own : ∀ m ∈ ((record valkey s e).store e.2.key).members,
      (∃ t ∈ ((record valkey s e).store e.2.key).expiresAt, m.score + window e.2.key ≤ t) ∧
        ∃ a ∈ (record valkey s e).log, a.draw.member = m.member ∧ a.check.now = m.score := by
    intro m hm
    rw [store, valkey_store, if_pos rfl] at hm ⊢
    by_cases full : e.2.limit ≤ zcard (found e s.store)
    · rw [if_pos full] at hm ⊢
      obtain ⟨expires, a, ha, drew⟩ := mem_found held hm
      exact ⟨expires, a, List.mem_cons_of_mem _ ha, drew⟩
    · rw [if_neg full] at hm ⊢
      rcases (mem_zadd (found_fresh held drawn)).mp hm with hm | rfl
      · obtain ⟨-, a, ha, drew, scored⟩ := mem_found held hm
        refine ⟨⟨_, rfl, ?_⟩, a, List.mem_cons_of_mem _ ha, drew, scored⟩
        have past := admissible.forward a ha
        have own := admissible.own
        omega
      · refine ⟨⟨_, rfl, ?_⟩, _, List.mem_cons_self, rfl, rfl⟩
        rw [admissible.own]
  refine ⟨fun k m hm => ?_, fun k m hm => ?_⟩
  · by_cases here : k = e.2.key
    · subst here
      exact (own m hm).1
    · rw [store, valkey_store, if_neg here] at hm ⊢
      exact held.expires k m hm
  · by_cases here : k = e.2.key
    · subst here
      exact (own m hm).2
    · rw [store, valkey_store, if_neg here] at hm
      obtain ⟨a, ha, drew⟩ := held.drawn k m hm
      exact ⟨a, List.mem_cons_of_mem _ ha, drew⟩

end ValKey

/-! ### Runs of checks -/

def noBuckets : Logged Buckets World String := ⟨⟨.empty, 0⟩, []⟩

def noSets : Logged Keyspace World String := ⟨fun _ => .missing, []⟩

/-- Fewer keys are live than there may be buckets. -/
def BelowCap (s : Logged Buckets World String) (e : World × Check String) : Prop :=
  (liveKeys s.log e.2.now).length < maxBuckets

theorem noBuckets_kept (window : String → ℕ) : Kept window noBuckets where
  sorted b hb := absurd hb (Table.not_mem_empty b)
  past b hb := absurd hb (Table.not_mem_empty b)
  seen b hb := absurd hb (Table.not_mem_empty b)
  short := Nat.zero_le _

theorem noSets_held (window : String → ℕ) : Held window noSets where
  expires _ m hm := absurd hm (Table.not_mem_empty m)
  drawn _ m hm := absurd hm (Table.not_mem_empty m)

/-- Along every sequence of checks that does not go back in time, each key with its own window and
each member drawn once, the script answers as the sliding log does, the buckets do so while fewer
keys are live than their cap and never refuse what the log would allow, and the cap holds. -/
theorem limiters_keep_the_log (window : String → ℕ) {events : List (World × Check String)}
    (own : ∀ e ∈ events, e.2.window = window e.2.key)
    (forward : events.Pairwise fun a b => a.2.now ≤ b.2.now)
    (distinct : (events.map fun e => e.1.member).Nodup) :
    Runs.Along (record valkey) (Exact valkey) noSets events ∧
    (Runs.Along (record memory) BelowCap noBuckets events →
      Runs.Along (record memory) (Exact memory) noBuckets events) ∧
    Runs.Along (record memory) (Fair memory) noBuckets events ∧
    (Runs.run (record memory) noBuckets events).store.map.rows.length ≤ maxBuckets := by
  have admissible := along_admissible memory own forward (s := noBuckets) fun _ _ _ ha => by cases ha
  refine ⟨?_, fun room => ?_, ?_, ?_⟩
  · have admissible := along_admissible valkey own forward (s := noSets) fun _ _ _ ha => by cases ha
    have fresh := along_fresh valkey World.member distinct (s := noSets) fun _ _ _ ha => by cases ha
    refine Runs.along_of_invariant
      (I := fun s => Held window s ∧ Equal window (liveMembers window) s) ?_ ?_
      ⟨noSets_held window, fun _ _ _ => rfl⟩ (Runs.along_and admissible fresh)
    · rintro s e ⟨held, equal⟩ ⟨ok, drawn⟩
      exact ⟨valkey_held held ok drawn,
        equal_record (valkey_slides held ok drawn) valkey_remembers equal⟩
    · rintro s e ⟨held, equal⟩ ⟨ok, drawn⟩
      exact exact_of_equal ok (valkey_slides held ok drawn) equal
  · refine Runs.along_of_invariant
      (I := fun s => Kept window s ∧ Equal window (liveEvents window) s) ?_ ?_
      ⟨noBuckets_kept window, fun _ _ _ => rfl⟩ (Runs.along_and admissible room)
    · rintro s e ⟨kept, equal⟩ ⟨ok, below⟩
      exact ⟨memory_kept kept ok,
        equal_record (memory_slides kept ok) (memory_remembers kept ok below) equal⟩
    · rintro s e ⟨kept, equal⟩ ⟨ok, -⟩
      exact exact_of_equal ok (memory_slides kept ok) equal
  · refine Runs.along_of_invariant
      (I := fun s => Kept window s ∧ Bounded window (liveEvents window) s) ?_ ?_
      ⟨noBuckets_kept window, fun _ _ _ => Nat.zero_le _⟩ admissible
    · rintro s e ⟨kept, bounded⟩ ok
      exact ⟨memory_kept kept ok, bounded_record (memory_slides kept ok) bounded⟩
    · rintro s e ⟨kept, bounded⟩ ok
      exact fair_of_bounded ok (memory_slides kept ok) bounded
  · exact (Runs.run_invariant (I := Kept window) (fun _ _ kept ok => memory_kept kept ok)
      (noBuckets_kept window) admissible).short

def older (a b : Bucket) : Prop := a.lastSeen ≤ b.lastSeen

instance : DecidableRel older := fun a b => Nat.decLe a.lastSeen b.lastSeen

instance : Std.Total older := ⟨fun a b => Nat.le_total a.lastSeen b.lastSeen⟩

instance : IsTrans Bucket older := ⟨fun _ _ _ => Nat.le_trans⟩

/-- The entries in a stable order of age. -/
def drawing (member : String) : World where
  byAge l := l.insertionSort older
  perm := List.perm_insertionSort older
  sorted := List.pairwise_insertionSort older
  member := member

/-- Two checks at most within fifty milliseconds; the first leaves the window as the last comes. -/
def reopening : List (World × Check String) :=
  [(drawing "a", ⟨"k", 2, 50, 100⟩), (drawing "b", ⟨"k", 2, 50, 120⟩),
    (drawing "c", ⟨"k", 2, 50, 149⟩), (drawing "d", ⟨"k", 2, 50, 150⟩)]

theorem limiters_reopen :
    (Runs.Along (record valkey) (Exact valkey) noSets reopening ∧
      (Runs.Along (record memory) BelowCap noBuckets reopening →
        Runs.Along (record memory) (Exact memory) noBuckets reopening) ∧
      Runs.Along (record memory) (Fair memory) noBuckets reopening ∧
      (Runs.run (record memory) noBuckets reopening).store.map.rows.length ≤ maxBuckets) ∧
    (Runs.run (record valkey) noSets reopening).log.map Answered.allowed =
      [true, false, true, true] ∧
    (Runs.run (record memory) noBuckets reopening).log.map Answered.allowed =
      [true, false, true, true] :=
  ⟨limiters_keep_the_log (fun _ => 50) (by decide) (by decide) (by decide),
    by decide +kernel, by decide +kernel⟩

end RateLimits
