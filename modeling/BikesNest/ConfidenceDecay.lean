import BikesNest.AttributeTally
import BikesNest.SearchPages

/-! How far a listing is to be trusted: `confidence` takes the latest existence signal of each
user, and the age of the newest confirmation among them. -/

namespace ConfidenceDecay

open Parking Schema AttributeTally SearchPages

inductive FreshnessCategory where
  | fresh | recentlyVerified | aging | stale | veryStale | never
  deriving DecidableEq

def categorize (lastVerifiedAt : Option Instant) (now : Instant)
    (thresholds : FreshnessThresholds) : FreshnessCategory :=
  match lastVerifiedAt with
  | none => .never
  | some verified =>
    let days := freshnessDays now verified
    if days < thresholds.freshDays then .fresh
    else if days < thresholds.recentDays then .recentlyVerified
    else if days < thresholds.agingDays then .aging
    else if days < thresholds.staleDays then .stale
    else .veryStale

inductive Confidence where
  | reported | verified | recentlyVerified | stale | conflicting
  deriving DecidableEq

/-- `max_by` on the times, which takes the last of the newest. -/
def newest : List ExistenceSignal → Option ExistenceSignal
  | [] => none
  | s :: rest => some <| rest.foldl
      (fun latest next => if latest.createdAt ≤ next.createdAt then next else latest) s

def confidence (signals : List ExistenceSignal) (now : Instant)
    (thresholds : FreshnessThresholds) : Confidence :=
  if signals = [] then .reported
  else if signals.any fun s => decide (s.result = .noLongerExists) then .conflicting
  else
    let positives := signals.filter fun s => decide (s.result = .stillExists)
    match newest positives with
    | none => .reported
    | some latest =>
      match categorize (some latest.createdAt) now thresholds with
      | .fresh => .recentlyVerified
      | .recentlyVerified | .aging => .verified
      | .stale | .veryStale => .stale
      | .never => .reported

/-- The greatest time at which a user says that the place still exists. -/
def lastConfirmed (signals : List ExistenceSignal) : Option Instant :=
  ((signals.filter fun s => decide (s.result = .stillExists)).map Answer.createdAt).max?

/-- The place in the order of decay; an unconfirmed or disputed listing has none. -/
def Confidence.stage : Confidence → Option ℕ
  | .recentlyVerified => some 0
  | .verified => some 1
  | .stale => some 2
  | .reported | .conflicting => none

/-- The same, or later in the order of decay. -/
instance : LE Confidence :=
  ⟨fun c d => c = d ∨ ∃ m n, c.stage = some m ∧ d.stage = some n ∧ m ≤ n⟩

/-- A user's newer signal takes the place of the user's last one. -/
def supersede (signals : List ExistenceSignal) (s : ExistenceSignal) : List ExistenceSignal :=
  s :: signals.filter fun q => decide (q.user ≠ s.user)

/-- The confidence that an age gives, nothing being said against the place. -/
def settled (last : Option Instant) (now : Instant) (thresholds : FreshnessThresholds) :
    Confidence :=
  match last with
  | none => .reported
  | some verified =>
    let days := freshnessDays now verified
    if days < thresholds.freshDays then .recentlyVerified
    else if days < thresholds.recentDays ∨ days < thresholds.agingDays then .verified
    else .stale

section Decay

variable {signals : List ExistenceSignal} {now : Instant} {thresholds : FreshnessThresholds}

theorem newest_at (l : List ExistenceSignal) :
    (newest l).map Answer.createdAt = (l.map Answer.createdAt).max? := by
  cases l with
  | nil => rfl
  | cons s rest =>
    rw [newest, Option.map_some, List.map_cons, List.max?_cons']
    congr 1
    induction rest generalizing s with
    | nil => rfl
    | cons r rest ih =>
      rw [List.foldl_cons, List.map_cons, List.foldl_cons, ih]
      congr 1
      split
      · rename_i newer
        exact (max_eq_right newer).symm
      · rename_i older
        exact (max_eq_left (le_of_not_ge older)).symm

theorem lastConfirmed_eq_some {last : Instant} : lastConfirmed signals = some last ↔
    (∃ s ∈ signals, s.result = .stillExists ∧ s.createdAt = last) ∧
      ∀ s ∈ signals, s.result = .stillExists → s.createdAt ≤ last := by
  rw [lastConfirmed, List.max?_eq_some_iff]
  simp only [List.mem_map, List.mem_filter, decide_eq_true_eq, forall_exists_index, and_imp,
    and_assoc]
  constructor
  · rintro ⟨confirmed, newest⟩
    exact ⟨confirmed, fun s hs still => newest _ s hs still rfl⟩
  · rintro ⟨confirmed, newest⟩
    refine ⟨confirmed, ?_⟩
    rintro _ s hs still rfl
    exact newest s hs still

/-- Where every confirmation has one that is not older on the other list, so has the newest. -/
theorem lastConfirmed_covered {signals' : List ExistenceSignal} {last : Instant}
    (covered : ∀ s ∈ signals, s.result = .stillExists →
      ∃ q ∈ signals', q.result = .stillExists ∧ s.createdAt ≤ q.createdAt)
    (confirmed : lastConfirmed signals = some last) :
    ∃ last', lastConfirmed signals' = some last' ∧ last ≤ last' := by
  obtain ⟨s, hs, still, rfl⟩ := (lastConfirmed_eq_some.mp confirmed).1
  obtain ⟨q, hq, stillToo, newer⟩ := covered s hs still
  cases other : lastConfirmed signals' with
  | none =>
    rw [lastConfirmed, List.max?_eq_none_iff, List.map_eq_nil_iff, List.filter_eq_nil_iff] at other
    exact absurd (decide_eq_true stillToo) (other q hq)
  | some last' => exact ⟨last', rfl, newer.trans ((lastConfirmed_eq_some.mp other).2 q hq stillToo)⟩

theorem lastConfirmed_perm {signals' : List ExistenceSignal} (perm : signals'.Perm signals) :
    lastConfirmed signals' = lastConfirmed signals := by
  ext last
  simp only [lastConfirmed_eq_some, perm.mem_iff]

/-- Where nobody says that the place is gone, the newest confirmation decides. -/
theorem confidence_settled (quiet : ∀ s ∈ signals, s.result ≠ .noLongerExists) :
    confidence signals now thresholds = settled (lastConfirmed signals) now thresholds := by
  have none : ¬ signals.any (fun s => decide (s.result = .noLongerExists)) = true := by
    simpa using quiet
  have last := newest_at (signals.filter fun s => decide (s.result = .stillExists))
  rw [← lastConfirmed] at last
  rw [confidence, if_neg none, ← last]
  by_cases empty : signals = []
  · rw [if_pos empty, empty]
    rfl
  · simp only [if_neg empty]
    cases newest (signals.filter fun s => decide (s.result = .stillExists)) with
    | none => rfl
    | some s =>
      simp only [Option.map_some, settled, categorize]
      split_ifs <;> first | omega | simp

theorem settled_ne_conflicting (last : Option Instant) :
    settled last now thresholds ≠ .conflicting := by
  unfold settled
  split
  · decide
  · dsimp only
    split_ifs <;> decide

theorem confidence_conflicting : confidence signals now thresholds = .conflicting ↔
    ∃ s ∈ signals, s.result = .noLongerExists := by
  constructor
  · intro conflicting
    by_contra quiet
    push Not at quiet
    rw [confidence_settled quiet] at conflicting
    exact settled_ne_conflicting _ conflicting
  · rintro ⟨s, hs, gone⟩
    have some : signals.any (fun s => decide (s.result = .noLongerExists)) = true :=
      List.any_eq_true.mpr ⟨s, hs, decide_eq_true gone⟩
    rw [confidence, if_neg (List.ne_nil_of_mem hs), if_pos some]

/-- A listing in the order of decay is confirmed, and nobody says that the place is gone. -/
theorem confirmed_of_stage (placed : (confidence signals now thresholds).stage ≠ none) :
    (∀ s ∈ signals, s.result ≠ .noLongerExists) ∧ ∃ last, lastConfirmed signals = some last := by
  have quiet : ∀ s ∈ signals, s.result ≠ .noLongerExists := by
    intro s hs gone
    rw [confidence_conflicting.mpr ⟨s, hs, gone⟩] at placed
    exact placed rfl
  refine ⟨quiet, Option.ne_none_iff_exists'.mp fun unconfirmed => ?_⟩
  rw [confidence_settled quiet, unconfirmed] at placed
  exact placed rfl

theorem freshnessDays_mono {now' verified verified' : Instant}
    (older : now - verified ≤ now' - verified') :
    freshnessDays now verified ≤ freshnessDays now' verified' :=
  max_le_max (Int.tdiv_le_tdiv (by decide) older) le_rfl

/-- The order of the thresholds does not matter: each rung is left for good. -/
theorem settled_mono {now' verified verified' : Instant}
    (older : now - verified ≤ now' - verified') :
    settled (some verified) now thresholds ≤ settled (some verified') now' thresholds := by
  have days := freshnessDays_mono older
  right
  simp only [settled]
  split_ifs <;> first | exact ⟨_, _, rfl, rfl, by decide⟩ | omega

/-- Newer confirmations do not make a listing older. -/
theorem confidence_covered {signals' : List ExistenceSignal}
    (quiet : (∀ s ∈ signals, s.result ≠ .noLongerExists) →
      ∀ s ∈ signals', s.result ≠ .noLongerExists)
    (covered : ∀ s ∈ signals, s.result = .stillExists →
      ∃ q ∈ signals', q.result = .stillExists ∧ s.createdAt ≤ q.createdAt)
    (placed : (confidence signals now thresholds).stage ≠ none) :
    confidence signals' now thresholds ≤ confidence signals now thresholds := by
  obtain ⟨silent, last, confirmed⟩ := confirmed_of_stage placed
  obtain ⟨last', confirmed', newer⟩ := lastConfirmed_covered covered confirmed
  rw [confidence_settled silent, confidence_settled (quiet silent), confirmed, confirmed']
  exact settled_mono (sub_le_sub_left newer now)

end Decay

/-- The confidence in a listing is settled by the latest words of its users, in any order: it is
conflicting when one of them says that the place is gone, and else goes by the newest confirmation,
whatever the thresholds; it only decays with time, and no further confirmation makes it older,
whether it is a user's first word or a newer one. -/
theorem confidence_decays (thresholds : FreshnessThresholds) (signals : List ExistenceSignal)
    (now : Instant) :
    (∀ signals', signals'.Perm signals →
      confidence signals' now thresholds = confidence signals now thresholds) ∧
    (confidence signals now thresholds = .conflicting ↔
      ∃ s ∈ signals, s.result = .noLongerExists) ∧
    ((∀ s ∈ signals, s.result ≠ .noLongerExists) →
      confidence signals now thresholds = settled (lastConfirmed signals) now thresholds) ∧
    (∀ later, now ≤ later →
      confidence signals now thresholds ≤ confidence signals later thresholds) ∧
    ∀ s : ExistenceSignal, s.result = .stillExists →
      (confidence signals now thresholds).stage ≠ none →
      confidence (s :: signals) now thresholds ≤ confidence signals now thresholds ∧
      ((∀ q ∈ signals, q.user = s.user → q.createdAt ≤ s.createdAt) →
        confidence (supersede signals s) now thresholds ≤ confidence signals now thresholds) := by
  refine ⟨fun signals' perm => ?_, confidence_conflicting, confidence_settled, fun later after => ?_,
    fun s still placed => ⟨?_, fun newer => ?_⟩⟩
  · by_cases quiet : ∀ s ∈ signals, s.result ≠ .noLongerExists
    · have quiet' : ∀ s ∈ signals', s.result ≠ .noLongerExists :=
        fun s hs => quiet s (perm.mem_iff.mp hs)
      rw [confidence_settled quiet, confidence_settled quiet', lastConfirmed_perm perm]
    · push Not at quiet
      have quiet' : ∃ s ∈ signals', s.result = .noLongerExists := by
        obtain ⟨s, hs, gone⟩ := quiet
        exact ⟨s, perm.mem_iff.mpr hs, gone⟩
      rw [confidence_conflicting.mpr quiet, confidence_conflicting.mpr quiet']
  · by_cases quiet : ∀ s ∈ signals, s.result ≠ .noLongerExists
    · rw [confidence_settled quiet, confidence_settled quiet]
      cases lastConfirmed signals with
      | none => exact .inl rfl
      | some last => exact settled_mono (sub_le_sub_right after last)
    · push Not at quiet
      left
      rw [confidence_conflicting.mpr quiet, confidence_conflicting.mpr quiet]
  · refine confidence_covered (fun quiet => ?_) (fun q hq confirms => ?_) placed
    · intro q hq
      rcases List.mem_cons.mp hq with rfl | hq
      · rw [still]
        decide
      · exact quiet q hq
    · exact ⟨q, List.mem_cons_of_mem _ hq, confirms, le_rfl⟩
  · refine confidence_covered (fun quiet => ?_) (fun q hq confirms => ?_) placed
    · intro q hq
      rcases List.mem_cons.mp hq with rfl | hq
      · rw [still]
        decide
      · exact quiet q (List.mem_of_mem_filter hq)
    · by_cases own : q.user = s.user
      · exact ⟨s, List.mem_cons_self, still, newer q hq own⟩
      · exact ⟨q, List.mem_cons_of_mem _ (List.mem_filter.mpr ⟨hq, decide_eq_true own⟩), confirms,
          le_rfl⟩

end ConfidenceDecay
