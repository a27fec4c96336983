import BikesNest.ReleaseChain

/-! The list of the versions of a legal page, with a mark at the current one. The mark goes by the
column that tells when a version was superseded, and the reader of the page by the clock. -/

namespace PolicyHistory

open Parking Schema Credentials Policies ReleaseChain Runs

/-- `ORDER BY effective_at DESC, id DESC` -/
def historyBefore (p q : PolicyRow) : Prop :=
  q.effectiveAt < p.effectiveAt ∨ q.effectiveAt = p.effectiveAt ∧ q.id ≤ p.id

instance : DecidableRel historyBefore := fun _ _ => inferInstanceAs (Decidable (_ ∨ _))

/-- `PolicyReader::history` -/
def history (policies : PolicyTable) (kind : PolicyKind) (locale : String) : List PolicyRow :=
  (policies.rows.filter (ofSeries kind locale)).insertionSort historyBefore

structure PolicyVersionVm where
  version : String
  effectiveLabel : String
  isCurrent : Bool
  deriving DecidableEq

/-- A row of the list; `label` writes a time in the language of the page. -/
def policyVersionVm (label : Instant → String) (doc : PolicyRow) : PolicyVersionVm :=
  ⟨doc.version, label doc.effectiveAt, doc.supersededAt.isNone⟩

/-- The list has the document that the reader serves, if it serves one, and marks that one only. -/
def MarksCurrent (label : Instant → String) (policies : PolicyTable) (kind : PolicyKind)
    (locale : String) (clock : Instant) : Prop :=
  (∀ doc, current policies kind locale clock = some doc → doc ∈ history policies kind locale) ∧
    ∀ doc ∈ history policies kind locale, (policyVersionVm label doc).isCurrent = true ↔
      current policies kind locale clock = some doc

section Marks

variable {policies : PolicyTable} {kind : PolicyKind} {locale : String} {clock : Instant}
  {doc : PolicyRow}

theorem mem_history : doc ∈ history policies kind locale ↔
    doc ∈ policies ∧ doc.kind = kind ∧ doc.locale = locale := by
  rw [history, (List.perm_insertionSort _ _).mem_iff, List.mem_filter, ofSeries_iff,
    Table.mem_rows]

theorem current_some (served : current policies kind locale clock = some doc) :
    doc ∈ policies ∧ (doc.kind = kind ∧ doc.locale = locale) ∧ PolicyRow.inForce doc clock :=
  mem_inForce.mp (List.mem_of_mem_head? served)

/-- While nothing is scheduled, the open version of a series is the one in force. -/
theorem open_current (released : Released policies) (hp : doc ∈ policies)
    (started : ∀ p ∈ policies, SameSeries doc p → p.effectiveAt ≤ clock) :
    doc.supersededAt = none ↔ current policies doc.kind doc.locale clock = some doc := by
  obtain ⟨entries, follows⟩ := released.follows
  have coherent := follows_coherent released.scheduled follows
  constructor
  · intro unended
    apply released.scheduled.current_eq hp
    refine ⟨started doc hp ⟨rfl, rfl⟩, ?_⟩
    rw [unended]
    exact fun e he => nomatch he
  · intro served
    obtain ⟨latest, hq, same, unended, -⟩ := coherent.last doc hp
    have force : PolicyRow.inForce latest clock := by
      refine ⟨started latest hq same, ?_⟩
      rw [unended]
      exact fun e he => nomatch he
    rw [inForce_unique follows hp hq same (current_some served).2.2 force, unended]

/-- A scheduled version is not in force, and takes the mark from the one that is. -/
theorem scheduled_marked (released : Released policies) (hp : doc ∈ policies)
    (scheduled : clock < doc.effectiveAt) : ∃ latest ∈ policies, SameSeries doc latest ∧
      latest.supersededAt = none ∧ current policies doc.kind doc.locale clock ≠ some latest := by
  obtain ⟨entries, follows⟩ := released.follows
  obtain ⟨latest, hq, same, unended, last⟩ :=
    (follows_coherent released.scheduled follows).last doc hp
  refine ⟨latest, hq, same, unended, fun served => ?_⟩
  have later := (last doc hp ⟨rfl, rfl⟩).1
  exact absurd (scheduled.trans_le later) (current_some served).2.2.1.not_gt

end Marks

/-- After any releases, the list of a page in a language marks the version in force exactly when no
version of the series is scheduled for later. -/
theorem history_marks_current_iff (label : Instant → String) (calls : List Release)
    (kind : PolicyKind) (locale : String) (clock : Instant) :
    MarksCurrent label (run release .empty calls) kind locale clock ↔
      ∀ p ∈ run release .empty calls, p.kind = kind → p.locale = locale →
        p.effectiveAt ≤ clock := by
  have released := run_released calls released_empty
  generalize run release .empty calls = policies at *
  constructor
  · rintro ⟨-, marks⟩ p hp rfl rfl
    by_contra scheduled
    obtain ⟨latest, hq, same, unended, other⟩ := scheduled_marked released hp (not_le.mp scheduled)
    have listed := mem_history.mpr ⟨hq, same.1.symm, same.2.symm⟩
    exact other ((marks latest listed).mp (by rw [policyVersionVm, unended]; rfl))
  · intro started
    constructor
    · intro doc served
      obtain ⟨hp, series, -⟩ := current_some served
      exact mem_history.mpr ⟨hp, series⟩
    · intro doc listed
      obtain ⟨hp, rfl, rfl⟩ := mem_history.mp listed
      rw [← open_current released hp fun p hp same => started p hp same.1.symm same.2.symm,
        policyVersionVm, Option.isNone_iff_eq_none]

/-- One release in force and another scheduled: the list marks the scheduled one. -/
theorem scheduled_release_marked :
    let policies := run release .empty [releaseAt "1" 1000 1, releaseAt "2" 5000 7]
    ((history policies .terms "en").map fun doc =>
        (doc.version, (policyVersionVm (fun _ => "") doc).isCurrent)) =
      [("2", true), ("1", false)] ∧
    (current policies .terms "en" 2).map PolicyRow.version = some "1" ∧
    ¬ MarksCurrent (fun _ => "") policies .terms "en" 2 := by
  intro policies
  have marked : ((history policies .terms "en").map fun doc =>
      (doc.version, (policyVersionVm (fun _ => "") doc).isCurrent)) =
        [("2", true), ("1", false)] := by decide +kernel
  have served : (current policies .terms "en" 2).map PolicyRow.version = some "1" := by
    decide +kernel
  refine ⟨marked, served, fun marks => ?_⟩
  obtain ⟨doc, listed, same⟩ := List.mem_map.mp (marked ▸ List.mem_cons_self)
  rw [(marks.2 doc listed).mp (congrArg Prod.snd same)] at served
  have version : doc.version = "2" := congrArg Prod.fst same
  simp [version] at served

end PolicyHistory
