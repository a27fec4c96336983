import Mathlib

/-! Values that take over from each other in time. A timeline is the list of its values with the
times they begin at; the span of a value ends where the next one begins, and the last one is
open. When the times increase, the spans leave no gap and no overlap. -/

namespace Timeline

variable {ν α : Type*}

structure Span (ν α : Type*) where
  value : ν
  start : α
  stop : Option α
  deriving DecidableEq

def spans : List (ν × α) → List (Span ν α)
  | [] => []
  | [e] => [⟨e.1, e.2, none⟩]
  | e :: f :: rest => ⟨e.1, e.2, some f.2⟩ :: spans (f :: rest)

def Span.close (t : α) (s : Span ν α) : Span ν α :=
  if s.stop.isNone then { s with stop := some t } else s

/-- A new value closes the open span and begins one of its own. -/
theorem spans_concat (l : List (ν × α)) (e : ν × α) :
    spans (l ++ [e]) = (spans l).map (Span.close e.2) ++ [⟨e.1, e.2, none⟩] := by
  induction l using spans.induct with
  | case1 => rfl
  | case2 a => rfl
  | case3 a b rest ih =>
    rw [List.cons_append] at ih
    simp only [List.cons_append, spans, List.map_cons, ih]
    rfl

theorem map_spans (l : List (ν × α)) : (spans l).map (fun s => (s.value, s.start)) = l := by
  induction l using spans.induct with
  | case1 => rfl
  | case2 a => rfl
  | case3 a b rest ih => simp only [spans, List.map_cons, ih]

theorem mem_of_mem_spans {l : List (ν × α)} {s : Span ν α} (h : s ∈ spans l) :
    (s.value, s.start) ∈ l := by
  have image := List.mem_map_of_mem (f := fun s : Span ν α => (s.value, s.start)) h
  rwa [map_spans] at image

theorem exists_span {l : List (ν × α)} {e : ν × α} (h : e ∈ l) :
    ∃ s ∈ spans l, s.value = e.1 ∧ s.start = e.2 := by
  rw [← map_spans l] at h
  obtain ⟨s, hs, rfl⟩ := List.mem_map.mp h
  exact ⟨s, hs, rfl, rfl⟩

variable [LinearOrder α]

def Increasing (l : List (ν × α)) : Prop := l.Pairwise fun e f => e.2 < f.2

theorem increasing_concat {l : List (ν × α)} {e : ν × α} (increasing : Increasing l)
    (later : ∀ f ∈ l, f.2 < e.2) : Increasing (l ++ [e]) := by
  refine List.pairwise_append.mpr ⟨increasing, List.pairwise_singleton _ _, ?_⟩
  intro f hf e' he
  rw [List.mem_singleton.mp he]
  exact later f hf

def Span.Covers (s : Span ν α) (t : α) : Prop := s.start ≤ t ∧ ∀ e ∈ s.stop, t < e

/-- No time is in both spans. -/
def Apart (s s' : Span ν α) : Prop := ∀ t, s.Covers t → ¬ s'.Covers t

instance : Std.Symm (Apart : Span ν α → Span ν α → Prop) :=
  ⟨fun _ _ apart t covers' covers => apart t covers covers'⟩

theorem apart_of_ended {s s' : Span ν α} {e : α} (ended : s.stop = some e) (le : e ≤ s'.start) :
    Apart s s' :=
  fun _ covers covers' => absurd (covers.2 e ended) (le.trans covers'.1).not_gt

theorem spans_pairwise {l : List (ν × α)} (increasing : Increasing l) :
    (spans l).Pairwise Apart := by
  induction l using spans.induct with
  | case1 => exact List.Pairwise.nil
  | case2 a => exact List.pairwise_singleton _ _
  | case3 a b rest ih =>
    obtain ⟨-, tail⟩ := List.pairwise_cons.mp increasing
    refine List.pairwise_cons.mpr ⟨?_, ih tail⟩
    intro s' hs'
    refine apart_of_ended rfl ?_
    rcases List.mem_cons.mp (mem_of_mem_spans hs') with same | later
    · exact (congrArg Prod.snd same).ge
    · exact ((List.pairwise_cons.mp tail).1 _ later).le

/-- Two spans never cover one time. -/
theorem covers_unique {l : List (ν × α)} {s s' : Span ν α} {t : α} (increasing : Increasing l)
    (hs : s ∈ spans l) (hs' : s' ∈ spans l) (covers : s.Covers t) (covers' : s'.Covers t) :
    s = s' := by
  by_contra different
  exact (spans_pairwise increasing).forall hs hs' different t covers covers'

/-- From the first time on there is always a span. -/
theorem covered {l : List (ν × α)} {t : α} (started : ∃ e ∈ l, e.2 ≤ t)
    (increasing : Increasing l) : ∃ s ∈ spans l, s.Covers t := by
  induction l using spans.induct with
  | case1 =>
    obtain ⟨e, he, -⟩ := started
    cases he
  | case2 a =>
    obtain ⟨e, he, le⟩ := started
    rw [List.mem_singleton.mp he] at le
    exact ⟨_, List.mem_singleton_self _, le, fun _ => nofun⟩
  | case3 a b rest ih =>
    obtain ⟨head, tail⟩ := List.pairwise_cons.mp increasing
    by_cases next : b.2 ≤ t
    · obtain ⟨s, hs, covers⟩ := ih ⟨b, List.mem_cons_self, next⟩ tail
      exact ⟨s, List.mem_cons_of_mem _ hs, covers⟩
    · obtain ⟨e, he, le⟩ := started
      have first : a.2 ≤ t := by
        rcases List.mem_cons.mp he with rfl | later
        · exact le
        · exact (head e later).le.trans le
      refine ⟨_, List.mem_cons_self, first, ?_⟩
      rintro _ ⟨⟩
      exact not_le.mp next

/-- A span that ends is followed by one that begins there. -/
theorem successor {l : List (ν × α)} {s : Span ν α} {e : α} (increasing : Increasing l)
    (hs : s ∈ spans l) (ended : s.stop = some e) :
    s.start < e ∧ ∃ s' ∈ spans l, s'.start = e := by
  induction l using spans.induct with
  | case1 => cases hs
  | case2 a =>
    rw [List.mem_singleton.mp hs] at ended
    cases ended
  | case3 a b rest ih =>
    obtain ⟨head, tail⟩ := List.pairwise_cons.mp increasing
    rcases List.mem_cons.mp hs with rfl | later
    · cases ended
      obtain ⟨s', hs', -, start⟩ := exists_span (l := b :: rest) List.mem_cons_self
      exact ⟨head b List.mem_cons_self, s', List.mem_cons_of_mem _ hs', start⟩
    · obtain ⟨lt, s', hs', start⟩ := ih tail later
      exact ⟨lt, s', List.mem_cons_of_mem _ hs', start⟩

/-- A span that is not the first one begins where another one ends. -/
theorem predecessor {l : List (ν × α)} {s : Span ν α} (increasing : Increasing l)
    (hs : s ∈ spans l) (earlier : ∃ s' ∈ spans l, s'.start < s.start) :
    ∃ s' ∈ spans l, s'.stop = some s.start := by
  induction l using spans.induct with
  | case1 => cases hs
  | case2 a =>
    obtain ⟨s', hs', lt⟩ := earlier
    rw [List.mem_singleton.mp hs, List.mem_singleton.mp hs'] at lt
    exact absurd lt (lt_irrefl _)
  | case3 a b rest ih =>
    obtain ⟨head, tail⟩ := List.pairwise_cons.mp increasing
    obtain ⟨s', hs', lt⟩ := earlier
    rcases List.mem_cons.mp hs with rfl | later
    · rcases List.mem_cons.mp hs' with rfl | after
      · exact absurd lt (lt_irrefl _)
      · exact absurd lt (head _ (mem_of_mem_spans after)).not_gt
    · by_cases second : s.start = b.2
      · exact ⟨_, List.mem_cons_self, second ▸ rfl⟩
      · obtain ⟨q, hq, -, start⟩ := exists_span (l := b :: rest) List.mem_cons_self
        have after : b.2 < s.start := by
          rcases List.mem_cons.mp (mem_of_mem_spans later) with same | further
          · exact absurd (congrArg Prod.snd same) second
          · exact (List.pairwise_cons.mp tail).1 _ further
        obtain ⟨p, hp, ended⟩ := ih tail later ⟨q, hq, start ▸ after⟩
        exact ⟨p, List.mem_cons_of_mem _ hp, ended⟩

/-- There is one open span, and it is the last. -/
theorem open_last {l : List (ν × α)} (increasing : Increasing l) (some : l ≠ []) :
    ∃ s ∈ spans l, s.stop = none ∧ ∀ s' ∈ spans l,
      s'.start ≤ s.start ∧ (s'.stop = none → s' = s) := by
  induction l using spans.induct with
  | case1 => exact absurd rfl some
  | case2 a =>
    refine ⟨_, List.mem_singleton_self _, rfl, fun s' hs' => ?_⟩
    rw [List.mem_singleton.mp hs']
    exact ⟨le_rfl, fun _ => rfl⟩
  | case3 a b rest ih =>
    obtain ⟨head, tail⟩ := List.pairwise_cons.mp increasing
    obtain ⟨s, hs, «open», last⟩ := ih tail (List.cons_ne_nil _ _)
    refine ⟨s, List.mem_cons_of_mem _ hs, «open», fun s' hs' => ?_⟩
    rcases List.mem_cons.mp hs' with rfl | later
    · exact ⟨(head _ (mem_of_mem_spans hs)).le, nofun⟩
    · exact last s' later

end Timeline
