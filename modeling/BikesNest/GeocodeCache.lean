import BikesNest.Parking
import BikesNest.RecencyLog

/-! The cache in front of the geocoding provider. Times are readings of a monotonic clock; the
provider's answers enter as the inputs of a call. The cache is proved to be the window of the
most recently resolved queries of the log of those answers. -/

namespace GeocodeCache

open Parking RecencyLog

structure GeoHit where
  label : String
  point : GeoPoint
  deriving DecidableEq

inductive GeocodeError where
  | unavailable
  | unexpected (message : String)
  deriving DecidableEq

/-- The settings of a cache; `lower` is the lower-case mapping of Unicode. -/
structure CachingGeocoder where
  ttl : ℕ
  capacity : ℕ
  lower : String → String

def CachingGeocoder.uncached (lower : String → String) : CachingGeocoder := ⟨0, 0, lower⟩

/-- The accents that `normalize` takes off. -/
def plainLetter (c : Char) : Char :=
  if c ∈ ['á', 'à', 'â', 'ã'] then 'a'
  else if c ∈ ['é', 'ê'] then 'e'
  else if c = 'í' then 'i'
  else if c ∈ ['ó', 'ô', 'õ'] then 'o'
  else if c = 'ú' then 'u'
  else if c = 'ç' then 'c'
  else c

def CachingGeocoder.normalize (g : CachingGeocoder) (q : String) : String :=
  String.ofList ((g.lower (trim q)).toList.map plainLetter)

structure Cache where
  hits : String → Option (GeoHit × ℕ)
  order : List String

def Cache.empty : Cache := ⟨fun _ => none, []⟩

/-- The loop of `remember` that keeps the bound. -/
def evict (capacity : ℕ) (hits : String → Option (GeoHit × ℕ)) : List String → Cache
  | [] => ⟨hits, []⟩
  | oldest :: rest =>
    if capacity < (oldest :: rest).length then evict capacity (Function.update hits oldest none) rest
    else ⟨hits, oldest :: rest⟩

def remember (g : CachingGeocoder) (s : Cache) (query : String) (hit : GeoHit) (now : ℕ) : Cache :=
  if g.capacity = 0 then s
  else
    let key := g.normalize query
    -- a refreshed key leaves its place in the queue
    let order := if (s.hits key).isSome then s.order.erase key else s.order
    evict g.capacity (Function.update s.hits key (some (hit, now))) (order ++ [key])

/-- `peek`: the age of an answer is never below zero. -/
def peek (g : CachingGeocoder) (s : Cache) (query : String) (now : ℕ) : Option GeoHit :=
  if g.capacity = 0 then none
  else
    match s.hits (g.normalize query) with
    | some (hit, resolved) => if now - resolved < g.ttl then some hit else none
    | none => none

/-- `geocode`: the cache is asked first, and the provider answers later. -/
def geocode (g : CachingGeocoder) (s : Cache) (query : String) (asked answered : ℕ)
    (answer : Except GeocodeError (Option GeoHit)) : Cache × Except GeocodeError (Option GeoHit) :=
  match peek g s query asked with
  | some hit => (s, .ok (some hit))
  | none =>
    match answer with
    | .ok (some hit) => (remember g s query hit answered, .ok (some hit))
    | other => (s, other)

inductive Call where
  | peek (query : String) (now : ℕ)
  | geocode (query : String) (asked answered : ℕ) (answer : Except GeocodeError (Option GeoHit))

/-- The readings of the clock in a call. -/
def Call.times : Call → List ℕ
  | .peek _ now => [now]
  | .geocode _ asked answered _ => [asked, answered]

/-- What the provider gave for which key, and when. -/
abbrev Log := List (String × GeoHit × ℕ)

/-- What a call gets from the provider. -/
def Call.provided (g : CachingGeocoder) (s : Cache) : Call → Log
  | .peek _ _ => []
  | .geocode query asked answered answer =>
    match GeocodeCache.peek g s query asked, answer with
    | none, .ok (some hit) => [(g.normalize query, hit, answered)]
    | _, _ => []

def step (g : CachingGeocoder) (s : Cache) : Call → Cache
  | .peek _ _ => s
  | .geocode query asked answered answer => (geocode g s query asked answered answer).1

def run (g : CachingGeocoder) (calls : List Call) : Cache := calls.foldl (step g) .empty

/-- What the provider gave along a run. -/
def history (g : CachingGeocoder) : Cache → List Call → Log
  | _, [] => []
  | s, call :: calls => call.provided g s ++ history g (step g s call) calls

/-- The clock does not run backwards along the calls. -/
def Ordered (calls : List Call) : Prop := (calls.flatMap Call.times).Pairwise (· ≤ ·)

/-- The cache holds the window of the most recently resolved keys, each with its latest answer. -/
structure Holds (capacity : ℕ) (log : Log) (s : Cache) : Prop where
  order : s.order = (byRecency log).rtake capacity
  hits : ∀ key, s.hits key = if key ∈ s.order then latest key log else none

section Remember

variable {g : CachingGeocoder} {s : Cache} {log : Log} {n : ℕ}
  {hits : String → Option (GeoHit × ℕ)} {order : List String}

theorem evict_order : (evict n hits order).order = order.rtake n := by
  induction order generalizing hits with
  | nil => simp [evict]
  | cons oldest rest ih =>
    rw [evict]
    split_ifs with full
    · rw [ih, ← List.singleton_append, rtake_append (Nat.le_of_lt_succ full)]
    · rw [rtake_of_length_le (Nat.le_of_not_lt full)]

/-- The keys that leave the queue lose their answers, and no other key does. -/
theorem evict_hits (nodup : order.Nodup) (key : String) : (evict n hits order).hits key =
    if key ∈ order ∧ key ∉ order.rtake n then none else hits key := by
  induction order generalizing hits with
  | nil => simp [evict]
  | cons oldest rest ih =>
    obtain ⟨fresh, nodup⟩ := List.nodup_cons.mp nodup
    rw [evict]
    split_ifs with full out out
    · have window : (oldest :: rest).rtake n = rest.rtake n := by
        rw [← List.singleton_append, rtake_append (Nat.le_of_lt_succ full)]
      rw [ih nodup]
      rcases List.mem_cons.mp out.1 with rfl | inside
      · simp [fresh]
      · rw [if_pos ⟨inside, window ▸ out.2⟩]
    · have window : (oldest :: rest).rtake n = rest.rtake n := by
        rw [← List.singleton_append, rtake_append (Nat.le_of_lt_succ full)]
      rw [window] at out
      have other : key ≠ oldest := by
        rintro rfl
        exact out ⟨.head _, fun h => fresh ((List.drop_sublist _ _).subset h)⟩
      rw [ih nodup, if_neg fun h => out ⟨.tail _ h.1, h.2⟩, Function.update_of_ne other]
    · rw [rtake_of_length_le (Nat.le_of_not_lt full)] at out
      exact absurd out.1 out.2
    · rfl

theorem Holds.nodup (h : Holds n log s) : s.order.Nodup := by
  rw [h.order]
  exact byRecency_nodup.sublist (List.drop_sublist _ _)

theorem Holds.keys (h : Holds n log s) (key : String) :
    key ∈ s.order ↔ (s.hits key).isSome = true := by
  rw [h.hits key]
  split_ifs with inside
  · have resolved : key ∈ byRecency log := by
      rw [h.order] at inside
      exact (List.drop_sublist _ _).subset inside
    simp [inside, latest_isSome.mpr resolved]
  · simp [inside]

/-- Both branches of the refresh take the key out of the queue. -/
theorem remember_eq (h : Holds n log s) (positive : 0 < g.capacity) (query : String)
    (hit : GeoHit) (now : ℕ) : remember g s query hit now =
      evict g.capacity (Function.update s.hits (g.normalize query) (some (hit, now)))
        (s.order.erase (g.normalize query) ++ [g.normalize query]) := by
  simp only [remember, if_neg positive.ne']
  split_ifs with cached
  · rfl
  · rw [List.erase_of_not_mem]
    exact fun inside => cached ((h.keys _).mp inside)

theorem remember_order (h : Holds g.capacity log s) (positive : 0 < g.capacity) (query : String)
    (hit : GeoHit) (now : ℕ) : (remember g s query hit now).order =
      (s.order.erase (g.normalize query) ++ [g.normalize query]).rtake g.capacity := by
  rw [remember_eq h positive, evict_order]

/-- One resolution is remembered as the log remembers it. -/
theorem remember_holds (h : Holds g.capacity log s) (query : String) (hit : GeoHit) (now : ℕ) :
    Holds g.capacity (log ++ [(g.normalize query, hit, now)]) (remember g s query hit now) := by
  rcases Nat.eq_zero_or_pos g.capacity with none | positive
  · have nothing : s.order = [] := by rw [h.order, none, List.rtake_zero]
    rw [remember, if_pos none]
    refine ⟨by rw [nothing, none, List.rtake_zero], fun key => ?_⟩
    rw [h.hits key, nothing]
    simp
  have order := remember_order h positive query hit now
  refine ⟨?_, fun key => ?_⟩
  · rw [order, h.order, rtake_erase_concat byRecency_nodup positive, byRecency_concat]
  have nodup : (s.order.erase (g.normalize query) ++ [g.normalize query]).Nodup :=
    List.nodup_append.mpr ⟨h.nodup.erase _, List.nodup_singleton _, fun a ha b hb => by
      rw [List.mem_singleton.mp hb]
      rintro rfl
      exact h.nodup.not_mem_erase ha⟩
  have newest : g.normalize query ∈ (remember g s query hit now).order := by
    obtain ⟨m, size⟩ : ∃ m, g.capacity = m + 1 := ⟨g.capacity - 1, by omega⟩
    rw [order, size, List.rtake_concat_succ]
    simp
  have cached : (remember g s query hit now).hits key = if
      key ∈ s.order.erase (g.normalize query) ++ [g.normalize query] ∧
        key ∉ (remember g s query hit now).order then none
      else Function.update s.hits (g.normalize query) (some (hit, now)) key := by
    rw [order, remember_eq h positive, evict_hits nodup]
  rw [cached, latest_concat]
  by_cases same : key = g.normalize query
  · subst same
    rw [if_neg fun out => out.2 newest, if_pos newest, if_pos rfl, Function.update_self]
  · have queued : key ∈ s.order.erase (g.normalize query) ++ [g.normalize query] ↔
        key ∈ s.order := by
      rw [List.mem_append, List.mem_singleton, or_iff_left same, List.mem_erase_of_ne same]
    rw [Function.update_of_ne same, if_neg (Ne.symm same), h.hits key]
    by_cases kept : key ∈ (remember g s query hit now).order
    · have old : key ∈ s.order := by
        rw [order] at kept
        exact queued.mp ((List.drop_sublist _ _).subset kept)
      rw [if_neg fun out => out.2 kept, if_pos old, if_pos kept]
    · rw [if_neg kept]
      split_ifs with out old
      · rfl
      · exact absurd ⟨queued.mpr old, kept⟩ out
      · rfl

end Remember

section Runs

variable {g : CachingGeocoder} {s : Cache} {log : Log} {calls : List Call}

theorem empty_holds : Holds g.capacity [] .empty :=
  ⟨by simp [Cache.empty, byRecency], fun key => by simp [Cache.empty]⟩

theorem geocode_holds (h : Holds g.capacity log s) (call : Call) :
    Holds g.capacity (log ++ call.provided g s) (step g s call) := by
  cases call with
  | peek query now =>
    rw [Call.provided, List.append_nil]
    exact h
  | geocode query asked answered answer =>
    simp only [step, geocode, Call.provided]
    cases peek g s query asked with
    | some hit =>
      simp only [List.append_nil]
      exact h
    | none =>
      match answer with
      | .ok (some hit) => exact remember_holds h query hit answered
      | .ok none =>
        rw [List.append_nil]
        exact h
      | .error _ =>
        rw [List.append_nil]
        exact h

/-- After any calls the cache is the window of the log of the provider's answers. -/
theorem run_holds (calls : List Call) :
    Holds g.capacity (history g .empty calls) (run g calls) := by
  have go : ∀ (calls : List Call) (s : Cache) (log : Log), Holds g.capacity log s →
      Holds g.capacity (log ++ history g s calls) (calls.foldl (step g) s) := by
    intro calls
    induction calls with
    | nil =>
      intro s log h
      simpa [history] using h
    | cons call calls ih =>
      intro s log h
      have next := ih _ _ (geocode_holds h call)
      rwa [List.append_assoc] at next
  exact go calls .empty [] empty_holds

/-- A call gets one answer at most, at its second reading of the clock. -/
theorem provided_cases (g : CachingGeocoder) (s : Cache) (call : Call) : call.provided g s = [] ∨
    ∃ key hit, ∃ answered ∈ call.times, call.provided g s = [(key, hit, answered)] := by
  cases call with
  | peek query now => exact .inl rfl
  | geocode query asked answered answer =>
    simp only [Call.provided]
    split
    · exact .inr ⟨_, _, answered, by simp [Call.times], rfl⟩
    · exact .inl rfl

theorem provided_times {call : Call} {entry : String × GeoHit × ℕ}
    (h : entry ∈ call.provided g s) : entry.2.2 ∈ call.times := by
  rcases provided_cases g s call with none | ⟨key, hit, answered, time, one⟩
  · rw [none] at h
    cases h
  · rw [one, List.mem_singleton] at h
    rw [h]
    exact time

theorem history_times {calls : List Call} {entry : String × GeoHit × ℕ}
    (h : entry ∈ history g s calls) : entry.2.2 ∈ calls.flatMap Call.times := by
  induction calls generalizing s with
  | nil => cases h
  | cons call calls ih =>
    rw [List.flatMap_cons, List.mem_append]
    rcases List.mem_append.mp h with here | later
    · exact .inl (provided_times here)
    · exact .inr (ih later)

/-- The log is in the order of time. -/
theorem history_sorted (ordered : Ordered calls) :
    (history g s calls).Pairwise fun a b => a.2.2 ≤ b.2.2 := by
  induction calls generalizing s with
  | nil => exact .nil
  | cons call calls ih =>
    rw [Ordered, List.flatMap_cons, List.pairwise_append] at ordered
    obtain ⟨-, later, before⟩ := ordered
    rw [history, List.pairwise_append]
    refine ⟨?_, ih later, fun a ha b hb => before _ (provided_times ha) _ (history_times hb)⟩
    rcases provided_cases g s call with none | ⟨key, hit, answered, -, one⟩
    · rw [none]
      exact .nil
    · rw [one]
      exact List.pairwise_singleton _ _

end Runs

/-! ### The invariant -/

/-- The time of the latest resolution of a key. -/
def resolvedAt (log : Log) (key : String) : Option ℕ := (latest key log).map Prod.snd

/-- The queue of a cache, and what is put into it. -/
structure Sound (g : CachingGeocoder) (log : Log) (s : Cache) : Prop where
  nodup : s.order.Nodup
  keys : ∀ key, key ∈ s.order ↔ (s.hits key).isSome = true
  bounded : s.order.length ≤ g.capacity
  sorted : s.order.Pairwise fun a b =>
    ∃ x y, resolvedAt log a = some x ∧ resolvedAt log b = some y ∧ x ≤ y

/-- Remembering a new key in a full cache takes out the front of the queue; otherwise no other key
is touched. -/
def Evicts (g : CachingGeocoder) (s s' : Cache) (key : String) : Prop :=
  if key ∉ s.order ∧ s.order.length = g.capacity then
    ∃ oldest rest, s.order = oldest :: rest ∧ s'.order = rest ++ [key] ∧
      ∀ other ≠ key, s'.hits other = if other = oldest then none else s.hits other
  else s'.order = s.order.erase key ++ [key] ∧ ∀ other ≠ key, s'.hits other = s.hits other

section Invariant

variable {g : CachingGeocoder} {s : Cache} {log : Log}

theorem Holds.sound (h : Holds g.capacity log s)
    (sorted : log.Pairwise fun a b => a.2.2 ≤ b.2.2) : Sound g log s := by
  refine ⟨h.nodup, h.keys, ?_, ?_⟩
  · rw [h.order, length_rtake]
    exact min_le_left _ _
  · rw [h.order]
    refine ((byRecency_sorted Prod.snd sorted).sublist (List.drop_sublist _ _)).imp_of_mem ?_
    intro a b ha hb ordered
    have given : ∀ {key}, key ∈ (byRecency log).rtake g.capacity →
        ∃ value, latest key log = some value := fun inside =>
      Option.isSome_iff_exists.mp (latest_isSome.mpr ((List.drop_sublist _ _).subset inside))
    obtain ⟨x, hx⟩ := given ha
    obtain ⟨y, hy⟩ := given hb
    exact ⟨x.2, y.2, by rw [resolvedAt, hx, Option.map_some], by
      rw [resolvedAt, hy, Option.map_some], ordered x hx y hy⟩

theorem remember_evicts (h : Holds g.capacity log s) (positive : 0 < g.capacity) (query : String)
    (hit : GeoHit) (now : ℕ) :
    Evicts g s (remember g s query hit now) (g.normalize query) := by
  have next := remember_holds h query hit now
  have order := remember_order h positive query hit now
  have others : ∀ other ≠ g.normalize query, (remember g s query hit now).hits other =
      if other ∈ (remember g s query hit now).order then latest other log else none := by
    intro other different
    rw [next.hits other, latest_concat, if_neg (Ne.symm different)]
  have bounded : s.order.length ≤ g.capacity := by
    rw [h.order, length_rtake]
    exact min_le_left _ _
  unfold Evicts
  split_ifs with full
  · obtain ⟨fresh, full⟩ := full
    obtain ⟨oldest, rest, queue⟩ : ∃ oldest rest, s.order = oldest :: rest :=
      List.exists_cons_of_length_pos (by omega)
    have size : g.capacity = rest.length + 1 := by rw [← full, queue, List.length_cons]
    have after : (remember g s query hit now).order = rest ++ [g.normalize query] := by
      rw [order, List.erase_of_not_mem fresh, queue, size, List.rtake_concat_succ,
        ← List.singleton_append, rtake_append le_rfl, rtake_of_length_le le_rfl]
    refine ⟨oldest, rest, queue, after, fun other different => ?_⟩
    rw [others other different, after, h.hits other, queue]
    have nodup := h.nodup
    rw [queue, List.nodup_cons] at nodup
    by_cases front : other = oldest
    · rw [front] at different
      simp [front, nodup.1, different]
    · simp [front, different]
  · have after : (remember g s query hit now).order =
        s.order.erase (g.normalize query) ++ [g.normalize query] := by
      rw [order, rtake_of_length_le]
      rw [List.length_append, List.length_singleton, List.length_erase]
      split_ifs with old
      · have := List.length_pos_of_mem old
        omega
      · have := not_and.mp full old
        omega
    refine ⟨after, fun other different => ?_⟩
    rw [others other different, after, h.hits other]
    simp [different, List.mem_erase_of_ne different]

/-- A live answer is the latest one of its key. -/
theorem peek_latest (h : Holds g.capacity log s) {query : String} {now : ℕ} {hit : GeoHit}
    (found : peek g s query now = some hit) : ∃ resolved,
      latest (g.normalize query) log = some (hit, resolved) ∧ now - resolved < g.ttl := by
  unfold peek at found
  rw [h.hits] at found
  split_ifs at found with none inside
  cases latest_is : latest (g.normalize query) log with
  | none => simp [latest_is] at found
  | some value =>
    obtain ⟨held, resolved⟩ := value
    simp only [latest_is] at found
    split_ifs at found with live
    cases found
    exact ⟨resolved, rfl, live⟩

end Invariant

/-- Over any calls whose clock does not run backwards, the queue has no duplicates, holds the keys
of the map, stays within the bound and is sorted by latest resolution; putting a key into a full
cache takes out the one resolved longest ago and no other; and an answer that is found is the
latest that the provider gave for the key, within the time to live. -/
theorem cache_invariant (g : CachingGeocoder) (calls : List Call) (ordered : Ordered calls) :
    Sound g (history g .empty calls) (run g calls) ∧
    (0 < g.capacity → ∀ query hit now, Evicts g (run g calls)
      (remember g (run g calls) query hit now) (g.normalize query)) ∧
    ∀ query now hit, Ordered (calls ++ [.peek query now]) →
      peek g (run g calls) query now = some hit → ∃ resolved,
        latest (g.normalize query) (history g .empty calls) = some (hit, resolved) ∧
        resolved ≤ now ∧ now < resolved + g.ttl := by
  have holds := run_holds (g := g) calls
  refine ⟨holds.sound (history_sorted ordered),
    fun positive query hit now => remember_evicts holds positive query hit now, ?_⟩
  intro query now hit later found
  obtain ⟨resolved, last, live⟩ := peek_latest holds found
  have past : resolved ≤ now := by
    rw [Ordered, List.flatMap_append, List.pairwise_append] at later
    exact later.2.2 _ (history_times (latest_mem last)) now (by simp [Call.times])
  exact ⟨resolved, last, past, by omega⟩

def small : CachingGeocoder := ⟨40, 2, id⟩

def somewhere : GeoHit := ⟨"Curitiba", ⟨0, 0, by decide⟩⟩

/-- Two answers go stale; the first query is resolved again before a third one. -/
def refreshed : List Call :=
  [.geocode "first" 0 1 (.ok (some somewhere)), .geocode "second" 2 3 (.ok (some somewhere)),
    .geocode "first" 60 61 (.ok (some somewhere)), .geocode "third" 62 63 (.ok (some somewhere))]

/-- The stale answer leaves the cache, not the refreshed one. -/
theorem cache_invariant_refreshed : Sound small (history small .empty refreshed)
      (run small refreshed) ∧
    (run small refreshed).order = ["first", "third"] ∧
    ∃ resolved, latest (small.normalize "first") (history small .empty refreshed) =
      some (somewhere, resolved) ∧ resolved ≤ 80 ∧ 80 < resolved + small.ttl := by
  have invariant := cache_invariant small refreshed (by unfold Ordered; decide)
  have found : peek small (run small refreshed) "first" 80 = some somewhere := by decide +kernel
  exact ⟨invariant.1, by decide +kernel,
    invariant.2.2 "first" 80 somewhere (by unfold Ordered; decide) found⟩

end GeocodeCache
