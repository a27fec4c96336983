import BikesNest.Policies
import BikesNest.Runs
import BikesNest.Timeline

/-! The releases of the legal pages, one after the other. Every page in every language follows
one and the same timeline of versions, and a call of the seeding either leaves it alone or adds
one version to its end. -/

namespace ReleaseChain

open Parking Schema Credentials Policies Outcome Runs Timeline

abbrev Release := List (ℕ × SeedPolicyDocument)

/-- One call: the transaction commits, or nothing of it stays. -/
def release (policies : PolicyTable) (numbered : Release) : PolicyTable :=
  match seedPolicyRelease policies numbered with
  | .ok policies' => policies'
  | .error _ => policies

def rowSpan (p : PolicyRow) : Span String Instant := ⟨p.version, p.effectiveAt, p.supersededAt⟩

/-- The versions of one page in one language, in the order in which they were stored. -/
def history (policies : PolicyTable) (kind : PolicyKind) (locale : String) :
    List (Span String Instant) :=
  (policies.rows.filter (ofSeries kind locale)).map rowSpan

structure Follows (policies : PolicyTable) (entries : List (String × Instant)) : Prop where
  increasing : Increasing entries
  distinct : (entries.map Prod.fst).Nodup
  series : ∀ kind, ∀ locale ∈ policyLocales, history policies kind locale = spans entries
  located : ∀ p ∈ policies, p.locale ∈ policyLocales

variable {policies policies' : PolicyTable} {numbered : Release} {d : SeedPolicyDocument}
  {p q : PolicyRow} {id : ℕ} {kind : PolicyKind} {locale : String} {entries : List (String × Instant)}

theorem follows_empty : Follows .empty [] :=
  ⟨List.Pairwise.nil, List.nodup_nil, fun _ _ _ => rfl, fun p hp => absurd hp (Table.not_mem_empty p)⟩

theorem mem_history {s : Span String Instant} : s ∈ history policies kind locale ↔
    ∃ p ∈ policies, p.kind = kind ∧ p.locale = locale ∧ rowSpan p = s := by
  simp only [history, List.mem_map, List.mem_filter, ofSeries_iff, Table.mem_rows, and_assoc]

/-! One document closes the open span of its series and adds its own. -/

theorem retire_series : ofSeries kind locale (d.retire p) = ofSeries kind locale p := by
  obtain ⟨-, ofKind, ofLocale, -⟩ := retire_fields (d := d) (p := p)
  simp only [ofSeries, ofKind, ofLocale]

theorem rowSpan_retire : rowSpan (d.retire p) =
    if ofSeries d.kind d.locale p then (rowSpan p).close (toTimestamp d.effectiveAt)
    else rowSpan p := by
  unfold SeedPolicyDocument.retire SeedPolicyDocument.follows
  by_cases series : ofSeries d.kind d.locale p = true
  · rw [if_pos series, series, Bool.true_and]
    unfold Span.close rowSpan
    split <;> rfl
  · rw [if_neg series, Bool.eq_false_iff.mpr series, Bool.false_and]
    rfl

theorem install_rows (h : install policies (id, d) = .ok policies') :
    policies'.rows = policies.rows.map d.retire ++ [d.row id] := by
  simp only [install, bind_ok] at h
  obtain ⟨⟨⟩, -, closed, superseded, inserted⟩ := h
  obtain ⟨-, -, rfl⟩ := supersede_ok.mp superseded
  obtain ⟨-, -, -, inserted⟩ := insertPolicy_ok.mp inserted
  exact (Table.insert_eq_some.mp inserted).2

theorem history_install (h : install policies (id, d) = .ok policies') :
    history policies' kind locale = if d.kind = kind ∧ d.locale = locale
      then (history policies kind locale).map (Span.close (toTimestamp d.effectiveAt)) ++
        [⟨d.version, toTimestamp d.effectiveAt, none⟩]
      else history policies kind locale := by
  have kept : (policies.rows.map d.retire).filter (ofSeries kind locale) =
      (policies.rows.filter (ofSeries kind locale)).map d.retire := by
    rw [List.filter_map]
    exact congrArg _ (List.filter_congr fun p _ => retire_series)
  have added : [d.row id].filter (ofSeries kind locale) =
      if d.kind = kind ∧ d.locale = locale then [d.row id] else [] := by
    rw [List.filter_singleton, Bool.cond_eq_ite]
    exact if_congr ofSeries_iff rfl rfl
  simp only [history, install_rows h, List.filter_append, kept, added, List.map_append,
    List.map_map]
  by_cases own : d.kind = kind ∧ d.locale = locale
  · simp only [if_pos own]
    congr 1
    refine List.map_congr_left fun p hp => ?_
    rw [Function.comp_apply, Function.comp_apply, rowSpan_retire, own.1, own.2,
      if_pos (List.mem_filter.mp hp).2]
  · simp only [if_neg own, List.map_nil, List.append_nil]
    refine List.map_congr_left fun p hp => ?_
    rw [Function.comp_apply, rowSpan_retire, if_neg]
    intro other
    obtain ⟨ofKind, ofLocale⟩ := ofSeries_iff.mp (List.mem_filter.mp hp).2
    obtain ⟨dKind, dLocale⟩ := ofSeries_iff.mp other
    exact own ⟨dKind.symm.trans ofKind, dLocale.symm.trans ofLocale⟩

/-- The page and the language of a document. -/
def page (numbered : ℕ × SeedPolicyDocument) : PolicyKind × String :=
  (numbered.2.kind, numbered.2.locale)

/-- The documents of a release that share a version and a time go each into a series of its own. -/
theorem history_installAll {version : String} {time : Instant}
    (h : numbered.foldlM install policies = .ok policies') (apart : (numbered.map page).Nodup)
    (same : ∀ n ∈ numbered, n.2.version = version ∧ toTimestamp n.2.effectiveAt = time) :
    history policies' kind locale = if (kind, locale) ∈ numbered.map page
      then (history policies kind locale).map (Span.close time) ++ [⟨version, time, none⟩]
      else history policies kind locale := by
  induction numbered generalizing policies with
  | nil =>
    cases h
    rfl
  | cons n rest ih =>
    rw [List.foldlM_cons, bind_ok] at h
    obtain ⟨middle, first, others⟩ := h
    obtain ⟨fresh, apart⟩ := List.nodup_cons.mp apart
    obtain ⟨rfl, rfl⟩ := same n List.mem_cons_self
    rw [ih others apart fun n hn => same n (List.mem_cons_of_mem _ hn), history_install first,
      List.map_cons]
    by_cases own : n.2.kind = kind ∧ n.2.locale = locale
    · obtain ⟨rfl, rfl⟩ := own
      rw [if_neg (show (n.2.kind, n.2.locale) ∉ rest.map page from fresh), if_pos ⟨rfl, rfl⟩,
        if_pos (show (n.2.kind, n.2.locale) ∈ page n :: rest.map page from List.mem_cons_self)]
    · rw [if_neg own]
      refine if_congr ?_ rfl rfl
      rw [List.mem_cons, or_iff_right]
      rintro ⟨⟩
      exact own ⟨rfl, rfl⟩

/-! What the checks on a release say: its documents are one for each page and language. -/

def pages : List (PolicyKind × String) :=
  [(.privacy, "pt-BR"), (.privacy, "en"), (.terms, "pt-BR"), (.terms, "en"), (.cookies, "pt-BR"),
    (.cookies, "en")]

theorem mem_pages : (kind, locale) ∈ pages ↔ locale ∈ policyLocales := by
  cases kind <;> simp [pages, policyLocales]

theorem checkRelease_ok {documents : List SeedPolicyDocument}
    (h : checkRelease documents = .ok ()) : documents.length = 6 ∧
      (∀ first ∈ documents.head?, ∀ d ∈ documents, d.version = first.version ∧
        d.effectiveAt = first.effectiveAt) ∧
      ∀ kind ∈ [PolicyKind.privacy, .terms, .cookies], ∀ locale ∈ policyLocales,
        documents.countP (fun d => decide (d.kind = kind ∧ d.locale = locale)) = 1 := by
  simp only [checkRelease, bind_ok, ensure_ok] at h
  obtain ⟨_, six, _, coherent, _, each, -⟩ := h
  exact ⟨six, fun first hf d hd => ⟨(coherent first hf d hd).1, (coherent first hf d hd).2.1⟩, each⟩

theorem pages_perm (h : checkRelease (numbered.map Prod.snd) = .ok ()) :
    pages.Perm (numbered.map page) := by
  obtain ⟨six, -, each⟩ := checkRelease_ok h
  refine List.Subperm.perm_of_length_le ?_ (by simpa [pages] using six.le)
  refine List.Nodup.subperm (by decide) ?_
  rintro ⟨kind, locale⟩ listed
  have one := each kind (by cases kind <;> simp) locale (mem_pages.mp listed)
  obtain ⟨d, hd, named⟩ := List.countP_pos_iff.mp (one ▸ Nat.one_pos)
  obtain ⟨n, hn, rfl⟩ := List.mem_map.mp hd
  obtain ⟨rfl, rfl⟩ := of_decide_eq_true named
  exact List.mem_map_of_mem hn

/-- The first document, whose version and time all the others share. -/
theorem exists_first (h : checkRelease (numbered.map Prod.snd) = .ok ()) :
    ∃ n rest, numbered = n :: rest ∧ ∀ n' ∈ numbered, n'.2.version = n.2.version ∧
      n'.2.effectiveAt = n.2.effectiveAt := by
  obtain ⟨six, same, -⟩ := checkRelease_ok h
  cases numbered with
  | nil => cases six
  | cons n rest =>
    exact ⟨n, rest, rfl, fun n' hn' => same n.2 rfl n'.2 (List.mem_map_of_mem hn')⟩

theorem seedPolicyRelease_ok (h : seedPolicyRelease policies numbered = .ok policies') :
    checkRelease (numbered.map Prod.snd) = .ok () ∧
      (∀ n ∈ numbered, textOk n.2.version = true) ∧
      ((∀ n ∈ numbered, ∃ p, existing policies n.2 = some p ∧ n.2.Agrees p) ∧
          policies = policies' ∨
        (∀ n ∈ numbered, existing policies n.2 = none) ∧
          numbered.foldlM install policies = .ok policies') := by
  simp only [seedPolicyRelease, bind_ok, ensure_ok, List.forall_mem_map] at h
  obtain ⟨⟨⟩, checked, ⟨⟩, text, ⟨⟩, agree, h⟩ := h
  refine ⟨checked, text, ?_⟩
  split at h
  · rename_i replayed
    refine .inl ⟨fun n hn => ?_, Except.ok.inj h⟩
    have there := List.countP_eq_length.mp replayed n.2 (List.mem_map_of_mem hn)
    obtain ⟨p, found⟩ := Option.isSome_iff_exists.mp there
    exact ⟨p, found, agree n hn p found⟩
  · obtain ⟨⟨⟩, none, installed⟩ := bind_ok.mp h
    refine .inr ⟨fun n hn => ?_, installed⟩
    have absent := List.countP_eq_zero.mp (ensure_ok.mp none) n.2 (List.mem_map_of_mem hn)
    exact Option.not_isSome_iff_eq_none.mp absent

/-! A call keeps the timeline or adds to its end. -/

theorem install_later {n : ℕ × SeedPolicyDocument} (follows : Follows policies entries)
    (language : n.2.locale ∈ policyLocales) (h : install policies n = .ok policies') :
    ∀ e ∈ entries, e.1 ≠ n.2.version ∧ e.2 < toTimestamp n.2.effectiveAt := by
  obtain ⟨id, d⟩ := n
  simp only [install, bind_ok] at h
  obtain ⟨⟨⟩, guarded, closed, superseded, inserted⟩ := h
  obtain ⟨-, -, rfl⟩ := supersede_ok.mp superseded
  obtain ⟨-, -, fresh, -⟩ := insertPolicy_ok.mp inserted
  intro e he
  obtain ⟨s, hs, value, start⟩ := exists_span he
  rw [← follows.series d.kind d.locale language] at hs
  obtain ⟨p, hp, ofKind, ofLocale, rfl⟩ := mem_history.mp hs
  obtain ⟨-, kind', locale', time'⟩ := retire_fields (d := d) (p := p)
  have new := fresh (d.retire p) (mem_supersede.mpr ⟨p, hp, rfl⟩) (kind'.trans ofKind)
    (locale'.trans ofLocale)
  have version' : (d.retire p).version = p.version := by
    unfold SeedPolicyDocument.retire
    split <;> rfl
  rw [← value, ← start]
  refine ⟨fun same => new.1 (version'.trans same), lt_of_le_of_ne ?_ ?_⟩
  · exact le_toTimestamp ((guardOrder_ok.mp guarded).2 p hp ofKind ofLocale)
  · exact fun same => new.2 (time'.trans same)

theorem installAll_located (located : ∀ p ∈ policies, p.locale ∈ policyLocales)
    (languages : ∀ n ∈ numbered, n.2.locale ∈ policyLocales)
    (h : numbered.foldlM install policies = .ok policies') :
    ∀ p ∈ policies', p.locale ∈ policyLocales := by
  induction numbered generalizing policies with
  | nil =>
    cases h
    exact located
  | cons n rest ih =>
    rw [List.foldlM_cons, bind_ok] at h
    obtain ⟨middle, first, others⟩ := h
    refine ih (fun p hp => ?_) (fun n hn => languages n (List.mem_cons_of_mem _ hn)) others
    rcases ((install_ok first).2 p).mp hp with ⟨q, hq, rfl⟩ | rfl
    · exact (retire_fields (d := n.2) (p := q)).2.2.1 ▸ located q hq
    · exact languages n List.mem_cons_self

theorem seedPolicyRelease_follows (follows : Follows policies entries)
    (h : seedPolicyRelease policies numbered = .ok policies') :
    ∃ entries', Follows policies' entries' := by
  obtain ⟨checked, -, ⟨-, rfl⟩ | ⟨-, installed⟩⟩ := seedPolicyRelease_ok h
  · exact ⟨entries, follows⟩
  obtain ⟨n, rest, rfl, same⟩ := exists_first checked
  have perm := pages_perm checked
  have languages : ∀ n' ∈ n :: rest, n'.2.locale ∈ policyLocales := fun n' hn' =>
    mem_pages.mp (perm.mem_iff.mpr (List.mem_map_of_mem (f := page) hn'))
  have later : ∀ e ∈ entries, e.1 ≠ n.2.version ∧ e.2 < toTimestamp n.2.effectiveAt := by
    rw [List.foldlM_cons, bind_ok] at installed
    obtain ⟨middle, first, -⟩ := installed
    exact install_later follows (languages n List.mem_cons_self) first
  refine ⟨entries ++ [(n.2.version, toTimestamp n.2.effectiveAt)], ?_, ?_, ?_, ?_⟩
  · exact increasing_concat follows.increasing fun e he => (later e he).2
  · rw [List.map_append, List.nodup_append]
    refine ⟨follows.distinct, List.nodup_singleton _, ?_⟩
    intro version hv version' hv'
    obtain ⟨e, he, rfl⟩ := List.mem_map.mp hv
    rw [List.mem_singleton.mp hv']
    exact (later e he).1
  · intro kind locale hl
    rw [history_installAll installed (perm.nodup (by decide)) fun n' hn' =>
        ⟨(same n' hn').1, congrArg toTimestamp (same n' hn').2⟩,
      if_pos (perm.mem_iff.mp (mem_pages.mpr hl)), follows.series kind locale hl, spans_concat]
  · exact installAll_located follows.located languages installed

/-! What a table that follows a timeline is to its readers. -/

structure Coherent (policies : PolicyTable) : Prop where
  disjoint : ∀ p ∈ policies, ∀ q ∈ policies, SameSeries p q → p ≠ q → ∀ clock,
    PolicyRow.inForce p clock → ¬ PolicyRow.inForce q clock
  /-- An interval that ends is not empty, and the next one begins where it ends. -/
  followed : ∀ p ∈ policies, ∀ e ∈ p.supersededAt, p.effectiveAt < e ∧
    ∃ q ∈ policies, SameSeries p q ∧ q.effectiveAt = e
  /-- An interval that is not the first of its series begins where another one ends. -/
  preceded : ∀ q ∈ policies, (∃ p ∈ policies, SameSeries p q ∧ p.effectiveAt < q.effectiveAt) →
    ∃ p ∈ policies, SameSeries p q ∧ p.supersededAt = some q.effectiveAt
  /-- Each series has one open interval, and it is the last. -/
  last : ∀ p ∈ policies, ∃ q ∈ policies, SameSeries p q ∧ q.supersededAt = none ∧
    ∀ r ∈ policies, SameSeries p r → r.effectiveAt ≤ q.effectiveAt ∧
      (r.supersededAt = none → r = q)
  /-- From the first time of a series on, one version is in force, and the reader serves it. -/
  served : ∀ p ∈ policies, ∀ clock, p.effectiveAt ≤ clock → ∃ q ∈ policies, SameSeries p q ∧
    PolicyRow.inForce q clock ∧ current policies p.kind p.locale clock = some q ∧
    ∀ r ∈ policies, SameSeries p r → PolicyRow.inForce r clock → r = q
  /-- The languages of a page are on one version. -/
  aligned : ∀ kind clock, ∀ locale ∈ policyLocales, ∀ locale' ∈ policyLocales,
    (current policies kind locale clock).map PolicyRow.version =
      (current policies kind locale' clock).map PolicyRow.version

theorem rowSpan_mem (follows : Follows policies entries) (hp : p ∈ policies) :
    rowSpan p ∈ spans entries := by
  rw [← follows.series p.kind p.locale (follows.located p hp)]
  exact mem_history.mpr ⟨p, hp, rfl, rfl, rfl⟩

theorem exists_row {s : Span String Instant} (follows : Follows policies entries)
    (hs : s ∈ spans entries) (kind : PolicyKind) (hl : locale ∈ policyLocales) :
    ∃ p ∈ policies, p.kind = kind ∧ p.locale = locale ∧ rowSpan p = s := by
  rw [← follows.series kind locale hl] at hs
  exact mem_history.mp hs

/-- A series has no version twice. -/
theorem row_unique (follows : Follows policies entries) (hp : p ∈ policies) (hq : q ∈ policies)
    (same : SameSeries p q) (version : p.version = q.version) : p = q := by
  have values : (spans entries).map Span.value = entries.map Prod.fst := by
    conv_rhs => rw [← map_spans entries, List.map_map]
    rfl
  have distinct := follows.distinct
  rw [← values, ← follows.series p.kind p.locale (follows.located p hp), history,
    List.map_map] at distinct
  refine List.inj_on_of_nodup_map distinct ?_ ?_ version
  · exact List.mem_filter.mpr ⟨hp, ofSeries_iff.mpr ⟨rfl, rfl⟩⟩
  · exact List.mem_filter.mpr ⟨hq, ofSeries_iff.mpr ⟨same.1.symm, same.2.symm⟩⟩

theorem row_unique_span (follows : Follows policies entries) (hp : p ∈ policies)
    (hq : q ∈ policies) (same : SameSeries p q) (span : rowSpan p = rowSpan q) : p = q :=
  row_unique follows hp hq same (congrArg Span.value span)

theorem inForce_unique {clock : Instant} (follows : Follows policies entries) (hp : p ∈ policies)
    (hq : q ∈ policies) (same : SameSeries p q) (pForce : PolicyRow.inForce p clock)
    (qForce : PolicyRow.inForce q clock) : p = q :=
  row_unique_span follows hp hq same (covers_unique follows.increasing (rowSpan_mem follows hp)
    (rowSpan_mem follows hq) pForce qForce)

/-- The reader serves the version whose span covers the clock. -/
theorem current_version {clock : Instant} {version : String} (scheduled : Scheduled policies)
    (follows : Follows policies entries) (hl : locale ∈ policyLocales) :
    (current policies kind locale clock).map PolicyRow.version = some version ↔
      ∃ s ∈ spans entries, s.Covers clock ∧ s.value = version := by
  constructor
  · intro h
    obtain ⟨p, served, rfl⟩ := Option.map_eq_some_iff.mp h
    obtain ⟨hp, -, force⟩ := mem_inForce.mp (List.mem_of_mem_head? served)
    exact ⟨rowSpan p, rowSpan_mem follows hp, force, rfl⟩
  · rintro ⟨s, hs, covers, rfl⟩
    obtain ⟨p, hp, rfl, rfl, rfl⟩ := exists_row follows hs kind hl
    rw [scheduled.current_eq hp covers]
    rfl

theorem follows_coherent (scheduled : Scheduled policies) (follows : Follows policies entries) :
    Coherent policies where
  disjoint p hp q hq same different clock pForce qForce :=
    different (inForce_unique follows hp hq same pForce qForce)
  followed p hp e ended := by
    obtain ⟨lt, s, hs, start⟩ := successor follows.increasing (rowSpan_mem follows hp) ended
    obtain ⟨q, hq, kind, locale, rfl⟩ := exists_row follows hs p.kind (follows.located p hp)
    exact ⟨lt, q, hq, ⟨kind.symm, locale.symm⟩, start⟩
  preceded q hq earlier := by
    obtain ⟨p, hp, -, lt⟩ := earlier
    obtain ⟨s, hs, ended⟩ := predecessor follows.increasing (rowSpan_mem follows hq)
      ⟨rowSpan p, rowSpan_mem follows hp, lt⟩
    obtain ⟨r, hr, kind, locale, rfl⟩ := exists_row follows hs q.kind (follows.located q hq)
    exact ⟨r, hr, ⟨kind, locale⟩, ended⟩
  last p hp := by
    have some : entries ≠ [] := List.ne_nil_of_mem (mem_of_mem_spans (rowSpan_mem follows hp))
    obtain ⟨s, hs, unended, latest⟩ := open_last follows.increasing some
    obtain ⟨q, hq, kind, locale, rfl⟩ := exists_row follows hs p.kind (follows.located p hp)
    refine ⟨q, hq, ⟨kind.symm, locale.symm⟩, unended, fun r hr same => ?_⟩
    obtain ⟨le, only⟩ := latest (rowSpan r) (rowSpan_mem follows hr)
    refine ⟨le, fun open' => row_unique_span follows hr hq ?_ (only open')⟩
    exact ⟨same.1.symm.trans kind.symm, same.2.symm.trans locale.symm⟩
  served p hp clock started := by
    obtain ⟨s, hs, covers⟩ := covered
      ⟨_, mem_of_mem_spans (rowSpan_mem follows hp), started⟩ follows.increasing
    obtain ⟨q, hq, kind, locale, rfl⟩ := exists_row follows hs p.kind (follows.located p hp)
    refine ⟨q, hq, ⟨kind.symm, locale.symm⟩, covers, ?_, fun r hr same rForce => ?_⟩
    · exact kind ▸ locale ▸ scheduled.current_eq hq covers
    · exact inForce_unique follows hr hq
        ⟨same.1.symm.trans kind.symm, same.2.symm.trans locale.symm⟩ rForce covers
  aligned kind clock locale hl locale' hl' := by
    ext version
    rw [current_version scheduled follows hl, current_version scheduled follows hl']

/-! Every call keeps the timeline, and what a call installed stays there. -/

/-- A table that releases made from the empty one. -/
structure Released (policies : PolicyTable) : Prop where
  scheduled : Scheduled policies
  follows : ∃ entries, Follows policies entries

theorem release_keeps (policies : PolicyTable) (numbered : Release) (released : Released policies) :
    Released (release policies numbered) := by
  unfold release
  split
  · rename_i policies' h
    obtain ⟨entries, follows⟩ := released.follows
    exact ⟨seedPolicyRelease_keeps released.scheduled h, seedPolicyRelease_follows follows h⟩
  · exact released

theorem run_released (calls : List Release) (released : Released policies) :
    Released (run release policies calls) :=
  run_invariant (I := Released) (fun policies numbered released _ =>
    release_keeps policies numbered released) released (along_true policies calls)

theorem released_empty : Released .empty := ⟨scheduled_empty, [], follows_empty⟩

/-- The row that a document was published as. -/
def Published (policies : PolicyTable) (d : SeedPolicyDocument) : Prop :=
  ∃ p ∈ policies, p.kind = d.kind ∧ p.locale = d.locale ∧ p.version = d.version ∧
    p.effectiveAt = toTimestamp d.effectiveAt ∧ p.content = d.content ∧
    p.requiresAcknowledgement = d.requiresAcknowledgement

theorem install_published {d' : SeedPolicyDocument} (there : Published policies d')
    (h : install policies (id, d) = .ok policies') : Published policies' d' := by
  obtain ⟨p, hp, published⟩ := there
  refine ⟨d.retire p, ((install_ok h).2 _).mpr (.inl ⟨p, hp, rfl⟩), ?_⟩
  unfold SeedPolicyDocument.retire
  split <;> exact published

theorem installAll_published {d' : SeedPolicyDocument} (there : Published policies d')
    (h : numbered.foldlM install policies = .ok policies') : Published policies' d' := by
  induction numbered generalizing policies with
  | nil =>
    cases h
    exact there
  | cons n rest ih =>
    rw [List.foldlM_cons, bind_ok] at h
    obtain ⟨middle, first, others⟩ := h
    exact ih (install_published there first) others

theorem installAll_publishes (h : numbered.foldlM install policies = .ok policies') :
    ∀ n ∈ numbered, Published policies' n.2 := by
  induction numbered generalizing policies with
  | nil => exact fun n hn => absurd hn List.not_mem_nil
  | cons n rest ih =>
    rw [List.foldlM_cons, bind_ok] at h
    obtain ⟨middle, first, others⟩ := h
    intro n' hn'
    rcases List.mem_cons.mp hn' with rfl | later
    · refine installAll_published ?_ others
      exact ⟨n'.2.row n'.1, ((install_ok first).2 _).mpr (.inr rfl), rfl, rfl, rfl, rfl, rfl, rfl⟩
    · exact ih others n' later

theorem existing_some (h : existing policies d = some p) :
    p ∈ policies ∧ p.kind = d.kind ∧ p.locale = d.locale ∧ p.version = d.version := by
  have found := List.find?_some h
  rw [Bool.and_eq_true, ofSeries_iff, decide_eq_true_iff] at found
  exact ⟨List.mem_of_find?_eq_some h, found.1.1, found.1.2, found.2⟩

/-- A time that is cut reads back as itself when nothing was cut off. -/
theorem ofTimestamp_toTimestamp {t : Nanos} :
    ofTimestamp (toTimestamp t) = t ↔ (1000 : ℤ) ∣ t := by
  constructor
  · exact fun h => ⟨toTimestamp t, by rw [mul_comm]; exact h.symm⟩
  · exact fun whole => Int.tdiv_mul_cancel whole

theorem seedPolicyRelease_publishes (h : seedPolicyRelease policies numbered = .ok policies') :
    ∀ n ∈ numbered, Published policies' n.2 := by
  obtain ⟨-, -, ⟨agrees, rfl⟩ | ⟨-, installed⟩⟩ := seedPolicyRelease_ok h
  · intro n hn
    obtain ⟨p, found, time, content, ack⟩ := agrees n hn
    obtain ⟨hp, kind, locale, version⟩ := existing_some found
    refine ⟨p, hp, kind, locale, version, ?_, content, ack⟩
    rw [← time]
    exact (Int.mul_tdiv_cancel _ (by decide)).symm
  · exact installAll_publishes installed

theorem run_published (calls : List Release) (there : Published policies d) :
    Published (run release policies calls) d := by
  refine run_invariant (I := fun policies => Published policies d) ?_ there
    (along_true policies calls)
  intro policies numbered there _
  unfold release
  split
  · rename_i policies' h
    obtain ⟨-, -, ⟨-, rfl⟩ | ⟨-, installed⟩⟩ := seedPolicyRelease_ok h
    · exact there
    · exact installAll_published there installed
  · exact there

theorem existing_published (released : Released policies) (there : Published policies d) :
    ∃ p, existing policies d = some p ∧ (d.Agrees p ↔ (1000 : ℤ) ∣ d.effectiveAt) := by
  obtain ⟨entries, follows⟩ := released.follows
  obtain ⟨p, hp, kind, locale, version, time, content, ack⟩ := there
  refine ⟨p, ?_, ?_⟩
  · cases found : existing policies d with
    | none =>
      have absent := List.find?_eq_none.mp found p hp
      rw [Bool.and_eq_true, ofSeries_iff, decide_eq_true_iff] at absent
      exact absurd ⟨⟨kind, locale⟩, version⟩ absent
    | some q =>
      obtain ⟨hq, kind', locale', version'⟩ := existing_some found
      exact congrArg some (row_unique follows hq hp ⟨kind'.trans kind.symm,
        locale'.trans locale.symm⟩ (version'.trans version.symm))
  · rw [SeedPolicyDocument.Agrees, time, ofTimestamp_toTimestamp]
    exact and_iff_left ⟨content, ack⟩

/-- The times of a call reach the table as they are. -/
def Whole (numbered : Release) : Prop := ∀ n ∈ numbered, (1000 : ℤ) ∣ n.2.effectiveAt

/-- A call whose documents are all there is a replay that changes nothing, or a conflict. -/
theorem seedPolicyRelease_replay (released : Released policies)
    (checked : checkRelease (numbered.map Prod.snd) = .ok ())
    (text : ∀ n ∈ numbered, textOk n.2.version = true)
    (there : ∀ n ∈ numbered, Published policies n.2) :
    seedPolicyRelease policies numbered = .ok policies ↔ Whole numbered := by
  have replayed : ((numbered.map Prod.snd).countP fun d => (existing policies d).isSome) =
      (numbered.map Prod.snd).length := by
    refine List.countP_eq_length.mpr ?_
    rw [List.forall_mem_map]
    intro n hn
    obtain ⟨p, found, -⟩ := existing_published released (there n hn)
    rw [found]
    rfl
  have agree : (∀ n ∈ numbered, ∀ p ∈ existing policies n.2, n.2.Agrees p) ↔
      Whole numbered := by
    refine forall₂_congr fun n hn => ?_
    obtain ⟨p, found, whole⟩ := existing_published released (there n hn)
    rw [found, ← whole]
    exact ⟨fun h => h p rfl, fun h q hq => Option.some.inj hq ▸ h⟩
  simp only [seedPolicyRelease, checked, replayed, bind_ok, ensure_ok, exists_const,
    List.forall_mem_map, true_and, if_true, pure_ok, and_true]
  exact (and_iff_right text).trans agree

/-- The call comes to the update that closes `old` for its document `d`. -/
def Issues (policies : PolicyTable) (numbered : Release) (d : SeedPolicyDocument)
    (old : PolicyRow) : Prop :=
  checkRelease (numbered.map Prod.snd) = .ok () ∧
    (∀ n ∈ numbered, textOk n.2.version = true ∧ existing policies n.2 = none) ∧
    ∃ done id rest middle, numbered = done ++ (id, d) :: rest ∧
      done.foldlM install policies = .ok middle ∧ guardOrder middle d = .ok () ∧
      timestampOk (toTimestamp d.effectiveAt) = true ∧ old ∈ middle ∧ d.follows old = true

theorem admitsUpdate_close (follows : d.follows p = true) :
    admitsUpdate p (d.close p) = true ↔ p.effectiveAt < toTimestamp d.effectiveAt := by
  rw [SeedPolicyDocument.follows, Bool.and_eq_true, Option.isNone_iff_eq_none] at follows
  simp [admitsUpdate, SeedPolicyDocument.close, follows.2]

theorem issues_admitted (whole : Whole numbered) (issues : Issues policies numbered d p) :
    admitsUpdate p (d.close p) = true := by
  obtain ⟨-, -, done, id, rest, middle, rfl, -, guarded, -, hp, follows⟩ := issues
  rw [admitsUpdate_close follows]
  have series := (Bool.and_eq_true_iff.mp follows).1
  obtain ⟨kind, locale⟩ := ofSeries_iff.mp series
  have later := (guardOrder_ok.mp guarded).2 p hp kind locale
  rw [← ofTimestamp_toTimestamp.mpr (whole (id, d) (by simp))] at later
  exact lt_of_mul_lt_mul_right later (by norm_num)

def pageAt (version : String) (effectiveAt : Nanos) (page : PolicyKind × String) :
    SeedPolicyDocument :=
  ⟨page.1, page.2, version, effectiveAt, "", false⟩

/-- A release of all the pages under one version. -/
def releaseAt (version : String) (effectiveAt : Nanos) (first : ℕ) : Release :=
  pages.zipIdx.map fun (page, i) => (first + i, pageAt version effectiveAt page)

instance : DecidableEq PolicyTable := fun policies policies' =>
  decidable_of_iff (policies.rows = policies'.rows) ⟨Table.ext, congrArg Table.rows⟩

end ReleaseChain
