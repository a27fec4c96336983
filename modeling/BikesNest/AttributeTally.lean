import BikesNest.Community
import BikesNest.RowOrder

/-! What the page of a listing gives about its attributes: `attribute_and_parked_summary` counts
the signals for each attribute, beside `latest_existence_per_user`, which reads one answer for
each user. -/

namespace AttributeTally

open Parking Schema Community RowOrder

/-- A row of `verification` with the column that tells the newest. -/
structure SignalRow extends VerificationRow where
  createdAt : Instant
  deriving DecidableEq

abbrev Signals := Table ℕ SignalRow fun r => r.id

/-- The row that `record` inserts; `created_at` defaults to the time. -/
def record (t : Signals) (id : ℕ) (v : NewVerification) (now : Instant) : Option Signals :=
  t.insert ⟨⟨id, v.locationId, some v.userId, v.signal, Signal.expiresAt now v.signal⟩, now⟩

/-- A user's answer, as `ExistenceSignal` holds one. -/
structure Answer (α : Type) where
  user : UserId
  result : α
  createdAt : Instant
  deriving DecidableEq

abbrev ExistenceSignal := Answer ExistenceResult

/-- `ORDER BY user_id, created_at DESC`. -/
def Answer.position {α : Type} (a : Answer α) : UserId ×ₗ ℤᵒᵈ :=
  toLex (a.user, OrderDual.toDual a.createdAt)

/-- `SELECT DISTINCT ON (user_id) … ORDER BY user_id, created_at DESC`. -/
def latestPerUser {α : Type} (o : OrderBy (@Answer.position α)) (answers : List (Answer α)) :
    List (Answer α) :=
  distinctOn Answer.user (o.sort answers)

def existenceSignal (r : SignalRow) : Option ExistenceSignal :=
  match r.userId, r.signal with
  | some user, .existence result => some ⟨user, result, r.createdAt⟩
  | _, _ => none

/-- `latest_existence_per_user`. -/
def latestExistencePerUser (o : OrderBy (@Answer.position ExistenceResult)) (t : Signals)
    (l : LocationId) : List ExistenceSignal :=
  latestPerUser o ((t.filter fun r => decide (r.locationId = l)).filterMap existenceSignal)

structure AttributeSummary where
  code : String
  correct : ℕ
  incorrect : ℕ
  deriving DecidableEq

/-- The rows of one group of the attribute subquery. -/
def attributeRows (t : Signals) (l : LocationId) (code : String) : List SignalRow :=
  t.filter fun r => decide (r.locationId = l ∧ Signal.attributeCode r.signal = some code)

def gives (code : String) (result : AttributeResult) (r : SignalRow) : Bool :=
  decide (r.signal = .attribute code result)

def attributeCodes (t : Signals) (l : LocationId) : List String :=
  (((t.filter fun r => decide (r.locationId = l)).filterMap fun r =>
    Signal.attributeCode r.signal).dedup).insertionSort (· ≤ ·)

/-- `SELECT attribute_code, COUNT(*) FILTER (WHERE result = 'correct'), …
GROUP BY attribute_code ORDER BY attribute_code`. -/
def attributeSummary (t : Signals) (l : LocationId) : List AttributeSummary :=
  (attributeCodes t l).map fun code =>
    ⟨code, (attributeRows t l code).countP (gives code .correct),
      (attributeRows t l code).countP (gives code .incorrect)⟩

def parkedHereCount (t : Signals) (l : LocationId) (now : Instant) : ℕ :=
  t.count fun r => decide (r.locationId = l ∧ r.signal = .parkedHere) && r.expiresAt.all (now < ·)

/-- `attribute_and_parked_summary`. Every attribute signal has a code, so that the row without
one is the padding of the join, which is skipped. -/
def attributeAndParkedSummary (t : Signals) (l : LocationId) (now : Instant) :
    List AttributeSummary × ℕ :=
  (attributeSummary t l, parkedHereCount t l now)

/-- `disputed` of `community_details_page`. -/
def disputed (summary : List AttributeSummary) (signals : List ExistenceSignal) : Bool :=
  let hasAttributeDispute := summary.any fun a => decide (a.incorrect > 0)
  let hasInfoChanged := signals.any fun s => decide (s.result = .infoChanged)
  hasAttributeDispute || hasInfoChanged

/-- The counts that are returned for a code, none when the code is not listed. -/
def tally (summary : List AttributeSummary) (code : String) : ℕ × ℕ :=
  ((summary.find? fun a => decide (a.code = code)).map fun a => (a.correct, a.incorrect)).getD
    (0, 0)

section Latest

variable {α : Type} (o : OrderBy (@Answer.position α)) {answers : List (Answer α)}

theorem mem_latestPerUser {a : Answer α} (h : a ∈ latestPerUser o answers) : a ∈ answers :=
  (mem_sort o).mp ((distinctOn_sublist _).subset h)

/-- One answer for each user. -/
theorem latestPerUser_nodup : ((latestPerUser o answers).map Answer.user).Nodup :=
  distinctOn_nodup _

theorem mem_users_latestPerUser {u : UserId} :
    u ∈ (latestPerUser o answers).map Answer.user ↔ u ∈ answers.map Answer.user := by
  rw [latestPerUser, mem_map_distinctOn, ((o.perm answers).map Answer.user).mem_iff]

/-- The answer that is kept is none of the superseded ones. -/
theorem latestPerUser_newest {a b : Answer α} (ha : a ∈ latestPerUser o answers)
    (hb : b ∈ answers) (same : b.user = a.user) : b.createdAt ≤ a.createdAt := by
  have first := distinctOn_first (o.sorted answers) ha ((mem_sort o).mpr hb) same
  rcases Prod.Lex.toLex_le_toLex.mp first with earlier | ⟨-, newer⟩
  · simp [same] at earlier
  · exact newer

theorem latestPerUser_length :
    (latestPerUser o answers).length = (answers.map Answer.user).toFinset.card := by
  have users : ((latestPerUser o answers).map Answer.user).toFinset =
      (answers.map Answer.user).toFinset := by
    ext u
    rw [List.mem_toFinset, List.mem_toFinset, mem_users_latestPerUser]
  rw [← users, List.toFinset_card_of_nodup (latestPerUser_nodup o), List.length_map]

/-- Where nobody answered twice, no answer is dropped. -/
theorem latestPerUser_perm (once : (answers.map Answer.user).Nodup) :
    (latestPerUser o answers).Perm answers := by
  have : ((o.sort answers).map Answer.user).Nodup :=
    ((o.perm answers).map Answer.user).nodup_iff.mpr once
  rw [latestPerUser, distinctOn_eq_self this]
  exact o.perm answers

end Latest

section People

/-- The signal of a group as an answer of its user; an erased account answers no more. -/
def attributeAnswer (r : SignalRow) : Option (Answer AttributeResult) :=
  match r.userId, r.signal with
  | some user, .attribute _ result => some ⟨user, result, r.createdAt⟩
  | _, _ => none

def attributeAnswers (t : Signals) (l : LocationId) (code : String) :
    List (Answer AttributeResult) :=
  (attributeRows t l code).filterMap attributeAnswer

variable (o : OrderBy (@Answer.position AttributeResult))

/-- The users whose latest answer for a code is `result`, read as the existence query reads
its signals. -/
def usersAnswering (t : Signals) (l : LocationId) (code : String) (result : AttributeResult) :
    Finset UserId :=
  (((latestPerUser o (attributeAnswers t l code)).filter fun a => decide (a.result = result)).map
    Answer.user).toFinset

/-- The counts of people. -/
def latestTally (t : Signals) (l : LocationId) (code : String) : ℕ × ℕ :=
  ((usersAnswering o t l code .correct).card, (usersAnswering o t l code .incorrect).card)

/-- Every signal for the code has a user, and no user has two. -/
structure OneAnswerEach (t : Signals) (l : LocationId) (code : String) : Prop where
  attributed : ∀ r ∈ attributeRows t l code, r.userId ≠ none
  once : ∀ r ∈ attributeRows t l code, ∀ q ∈ attributeRows t l code, r.userId = q.userId → r = q

/-- A dispute that somebody still holds. -/
def LatestDispute (signals : List ExistenceSignal) (t : Signals) (l : LocationId) : Prop :=
  (∃ code, (usersAnswering o t l code .incorrect).Nonempty) ∨
    ∃ s ∈ signals, s.result = .infoChanged

variable {t : Signals} {l : LocationId} {code : String}

theorem mem_attributeRows {r : SignalRow} :
    r ∈ attributeRows t l code ↔
      r ∈ t ∧ r.locationId = l ∧ ∃ result, r.signal = .attribute code result := by
  rw [attributeRows, Table.mem_filter, decide_eq_true_eq]
  refine and_congr_right fun _ => and_congr_right fun _ => ?_
  cases r.signal <;> simp [Signal.attributeCode]

theorem mem_attributeCodes :
    code ∈ attributeCodes t l ↔ ∃ r, r ∈ attributeRows t l code := by
  simp [attributeCodes, attributeRows, List.mem_dedup, and_assoc]

theorem tally_attributeSummary : tally (attributeSummary t l) code =
    ((attributeRows t l code).countP (gives code .correct),
      (attributeRows t l code).countP (gives code .incorrect)) := by
  rw [tally, attributeSummary, List.find?_map]
  by_cases listed : code ∈ attributeCodes t l
  · have found : (attributeCodes t l).find? (fun c => decide (c = code)) = some code := by
      cases h : (attributeCodes t l).find? (fun c => decide (c = code)) with
      | none =>
        have := List.find?_eq_none.mp h code listed
        simp at this
      | some c =>
        have : c = code := by simpa using List.find?_some h
        rw [this]
    simp only [Function.comp_def, found, Option.map_some, Option.getD_some]
  · have missing : (attributeCodes t l).find? (fun c => decide (c = code)) = none := by
      rw [List.find?_eq_none]
      rintro c hc same
      exact listed (of_decide_eq_true same ▸ hc)
    have empty : attributeRows t l code = [] := by
      rw [List.eq_nil_iff_forall_not_mem]
      exact fun r hr => listed (mem_attributeCodes.mpr ⟨r, hr⟩)
    simp [missing, empty]

/-- A signal for the code is one or the other. -/
theorem counts_add : (attributeRows t l code).countP (gives code .correct) +
    (attributeRows t l code).countP (gives code .incorrect) = (attributeRows t l code).length := by
  rw [List.length_eq_countP_add_countP (gives code .correct)]
  congr 1
  apply List.countP_congr
  intro r hr
  obtain ⟨-, -, result, signal⟩ := mem_attributeRows.mp hr
  cases result <;> simp [gives, signal]

theorem attributeAnswer_eq {r : SignalRow} {a : Answer AttributeResult}
    (h : attributeAnswer r = some a) : r.userId = some a.user := by
  unfold attributeAnswer at h
  split at h
  · rename_i user _ _ hu _
    cases h
    exact hu
  · cases h

/-- In a group only the missing user keeps a row from being an answer. -/
theorem attributeAnswer_of_mem {r : SignalRow} (hr : r ∈ attributeRows t l code) :
    ∃ result, r.signal = .attribute code result ∧
      attributeAnswer r = r.userId.map fun user => ⟨user, result, r.createdAt⟩ := by
  obtain ⟨-, -, result, signal⟩ := mem_attributeRows.mp hr
  refine ⟨result, signal, ?_⟩
  cases user : r.userId <;> simp [attributeAnswer, user, signal]

theorem attributeRows_nodup : (attributeRows t l code).Nodup :=
  List.Nodup.of_map _ ((List.filter_sublist.map fun r => r.id).nodup t.distinct)

/-- No user answers twice exactly when no two rows of the group name the same user. -/
theorem attributeAnswers_nodup_iff : ((attributeAnswers t l code).map Answer.user).Nodup ↔
    ∀ r ∈ attributeRows t l code, ∀ q ∈ attributeRows t l code, ∀ user,
      r.userId = some user → q.userId = some user → r = q := by
  rw [List.Nodup, List.pairwise_map, attributeAnswers, List.pairwise_filterMap]
  constructor
  · intro distinct r hr q hq user hru hqu
    by_contra different
    obtain ⟨_, -, answer⟩ := attributeAnswer_of_mem hr
    obtain ⟨_, -, answer'⟩ := attributeAnswer_of_mem hq
    rw [hru] at answer
    rw [hqu] at answer'
    have symmetric : Std.Symm fun r q : SignalRow => ∀ a, attributeAnswer r = some a →
        ∀ b, attributeAnswer q = some b → a.user ≠ b.user :=
      ⟨fun r q h a ha b hb => (h b hb a ha).symm⟩
    exact distinct.forall hr hq different _ answer _ answer' rfl
  · intro once
    refine attributeRows_nodup.imp_of_mem ?_
    intro r q hr hq different a ha b hb same
    apply different
    exact once r hr q hq a.user (attributeAnswer_eq ha) (same ▸ attributeAnswer_eq hb)

theorem attributeAnswers_length_iff :
    (attributeAnswers t l code).length = (attributeRows t l code).length ↔
      ∀ r ∈ attributeRows t l code, r.userId ≠ none := by
  rw [attributeAnswers, List.filterMap_length_eq_length]
  refine forall₂_congr fun r hr => ?_
  obtain ⟨_, -, answer⟩ := attributeAnswer_of_mem hr
  rw [answer, Option.isSome_map, Option.isSome_iff_ne_none]

theorem card_usersAnswering {result : AttributeResult} :
    (usersAnswering o t l code result).card =
      (latestPerUser o (attributeAnswers t l code)).countP fun a => decide (a.result = result) := by
  rw [usersAnswering, List.toFinset_card_of_nodup, List.length_map, List.countP_eq_length_filter]
  exact (List.filter_sublist.map Answer.user).nodup (latestPerUser_nodup o)

theorem exists_row_of_answering {result : AttributeResult} {user : UserId}
    (h : user ∈ usersAnswering o t l code result) : ∃ r, r ∈ attributeRows t l code := by
  rw [usersAnswering, List.mem_toFinset] at h
  obtain ⟨a, ha, -⟩ := List.mem_map.mp h
  obtain ⟨r, hr, -⟩ := List.mem_filterMap.mp (mem_latestPerUser o (List.mem_of_mem_filter ha))
  exact ⟨r, hr⟩

theorem latest_counts_add : (usersAnswering o t l code .correct).card +
    (usersAnswering o t l code .incorrect).card =
      ((attributeAnswers t l code).map Answer.user).toFinset.card := by
  rw [card_usersAnswering, card_usersAnswering, ← latestPerUser_length o,
    List.length_eq_countP_add_countP fun a => decide (a.result = .correct)]
  congr 1
  apply List.countP_congr
  intro a _
  cases a.result <;> simp

/-- With one answer each, the clicks for a result are the people who answer it. -/
theorem count_eq_people (each : OneAnswerEach t l code) (result : AttributeResult) :
    (attributeRows t l code).countP (gives code result) =
      (usersAnswering o t l code result).card := by
  have once : ((attributeAnswers t l code).map Answer.user).Nodup := by
    rw [attributeAnswers_nodup_iff]
    intro r hr q hq user hru hqu
    exact each.once r hr q hq (hru.trans hqu.symm)
  rw [card_usersAnswering, (latestPerUser_perm o once).countP_eq, attributeAnswers,
    List.countP_filterMap]
  apply List.countP_congr
  intro r hr
  obtain ⟨given, signal, answer⟩ := attributeAnswer_of_mem hr
  obtain ⟨user, hu⟩ := Option.ne_none_iff_exists'.mp (each.attributed r hr)
  simp [answer, hu, gives, signal]

theorem tally_eq_latest_iff :
    tally (attributeSummary t l) code = latestTally o t l code ↔ OneAnswerEach t l code := by
  rw [tally_attributeSummary, latestTally, Prod.mk.injEq]
  constructor
  · rintro ⟨correct, incorrect⟩
    have clicks := @counts_add t l code
    rw [correct, incorrect, latest_counts_add] at clicks
    have users : ((attributeAnswers t l code).map Answer.user).toFinset.card ≤
        (attributeAnswers t l code).length := by
      simpa using List.toFinset_card_le ((attributeAnswers t l code).map Answer.user)
    have fewer : (attributeAnswers t l code).length ≤ (attributeRows t l code).length :=
      List.length_filterMap_le _ _
    have once : ((attributeAnswers t l code).map Answer.user).Nodup := by
      apply Multiset.coe_nodup.mp
      apply Multiset.toFinset_card_eq_card_iff_nodup.mp
      change ((attributeAnswers t l code).map Answer.user).toFinset.card = _
      rw [Multiset.coe_card, List.length_map]
      omega
    have attributed : ∀ r ∈ attributeRows t l code, r.userId ≠ none := by
      apply attributeAnswers_length_iff.mp
      omega
    refine ⟨attributed, ?_⟩
    intro r hr q hq same
    obtain ⟨user, hu⟩ := Option.ne_none_iff_exists'.mp (attributed r hr)
    exact attributeAnswers_nodup_iff.mp once r hr q hq user hu (same ▸ hu)
  · intro each
    exact ⟨count_eq_people o each _, count_eq_people o each _⟩

theorem disputed_iff {signals : List ExistenceSignal} :
    disputed (attributeSummary t l) signals = true ↔
      (∃ code, 0 < (attributeRows t l code).countP (gives code .incorrect)) ∨
        ∃ s ∈ signals, s.result = .infoChanged := by
  rw [disputed, Bool.or_eq_true, List.any_eq_true, List.any_eq_true]
  apply or_congr
  · constructor
    · rintro ⟨a, ha, some_incorrect⟩
      obtain ⟨code, -, rfl⟩ := List.mem_map.mp ha
      exact ⟨code, of_decide_eq_true some_incorrect⟩
    · rintro ⟨code, some_incorrect⟩
      obtain ⟨r, hr, -⟩ := List.countP_pos_iff.mp some_incorrect
      have listed : code ∈ attributeCodes t l := mem_attributeCodes.mpr ⟨r, hr⟩
      exact ⟨_, List.mem_map.mpr ⟨code, listed, rfl⟩, decide_eq_true some_incorrect⟩
  · simp

/-- The tallies of a code count people exactly when each signal for it has a user of its own;
when that is so for every code, the flag depends on the latest answers only. -/
theorem tallies_count_people_iff (existence : OrderBy (@Answer.position ExistenceResult))
    (t : Signals) (l : LocationId) (now : Instant) :
    (∀ code, tally (attributeAndParkedSummary t l now).1 code = latestTally o t l code ↔
      OneAnswerEach t l code) ∧
    ((∀ code, OneAnswerEach t l code) →
      (disputed (attributeAndParkedSummary t l now).1 (latestExistencePerUser existence t l) = true
        ↔ LatestDispute o (latestExistencePerUser existence t l) t l)) := by
  constructor
  · intro code
    exact tally_eq_latest_iff o
  · intro each
    rw [attributeAndParkedSummary, disputed_iff, LatestDispute]
    apply or_congr_left
    apply exists_congr
    intro code
    rw [count_eq_people o (each code), Finset.card_pos]

/-- A user who takes an answer back still counts for it, and keeps the listing disputed. -/
theorem answer_taken_back : ∃ first second,
    record .empty 1 ⟨4, 7, .attribute "name" .incorrect⟩ 10 = some first ∧
    record first 2 ⟨4, 7, .attribute "name" .correct⟩ 20 = some second ∧
    tally (attributeAndParkedSummary second 4 30).1 "name" = (1, 1) ∧
    latestTally (stable _) second 4 "name" = (1, 0) ∧
    disputed (attributeAndParkedSummary second 4 30).1
      (latestExistencePerUser (stable _) second 4) = true ∧
    ¬ LatestDispute (stable _) (latestExistencePerUser (stable _) second 4) second 4 := by
  refine ⟨_, _, rfl, rfl, by decide, by decide, by decide, ?_⟩
  rintro (⟨code, user, hu⟩ | ⟨s, hs, -⟩)
  · obtain ⟨r, hr⟩ := exists_row_of_answering (stable _) hu
    obtain ⟨stored, -, result, signal⟩ := mem_attributeRows.mp hr
    have named : code = "name" := by
      rcases List.mem_pair.mp stored with rfl | rfl <;> cases signal <;> rfl
    subst named
    exact absurd hu (Finset.eq_empty_iff_forall_notMem.mp (by decide) user)
  · exact absurd hs (List.eq_nil_iff_forall_not_mem.mp (by decide) s)

end People

end AttributeTally
