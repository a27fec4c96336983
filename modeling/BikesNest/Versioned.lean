import Mathlib

/-! Documents with a version counter and tickets written against a version. Accepting a
ticket moves its document to the next version and retires the document's other pending
tickets; a revision does the same without a ticket; an overwrite moves the version and
retires nothing. Every move appends the new version to the document's history. -/

namespace Versioned

inductive Status where
  | pending | accepted | declined | retired
  deriving DecidableEq

@[ext] structure Doc where
  version : ℕ
  live : Bool
  deriving DecidableEq

@[ext] structure Ticket (δ : Type*) where
  doc : δ
  base : ℕ
  status : Status
  deriving DecidableEq

@[ext] structure State (δ ι : Type*) where
  doc : δ → Option Doc
  ticket : ι → Option (Ticket δ)
  history : δ → List ℕ

variable {δ ι : Type*}

def initial : State δ ι := ⟨fun _ => none, fun _ => none, fun _ => []⟩

inductive Event (δ ι : Type*) where
  | add (d : δ)
  | submit (i : ι) (d : δ)
  | decline (i : ι)
  | accept (i : ι) (live : Bool)
  | revise (d : δ) (live : Bool)
  | overwrite (d : δ)
  | idle

def Enabled (s : State δ ι) : Event δ ι → Prop
  | .add d => s.doc d = none
  | .submit i d => s.ticket i = none ∧ ∃ v, s.doc d = some ⟨v, true⟩
  | .decline i => ∃ t, s.ticket i = some t ∧ t.status = .pending
  | .accept i _ => ∃ t x, s.ticket i = some t ∧ t.status = .pending ∧ s.doc t.doc = some x ∧
      x.version = t.base
  | .revise d _ => ∃ x, s.doc d = some x
  | .overwrite d => ∃ v, s.doc d = some ⟨v, true⟩
  | .idle => True

/-- Tickets that can be left behind by an event: only an overwrite does so. -/
def Event.keepsFresh : Event δ ι → Prop
  | .overwrite _ => False
  | _ => True

variable [DecidableEq δ]

def record (s : State δ ι) (d : δ) (x : Doc) : State δ ι :=
  { s with doc := Function.update s.doc d (some x)
           history := Function.update s.history d (s.history d ++ [x.version]) }

def retire (s : State δ ι) (d : δ) : State δ ι :=
  { s with ticket := fun i => (s.ticket i).map fun t =>
      if t.doc = d ∧ t.status = .pending then { t with status := .retired } else t }

variable [DecidableEq ι]

def settle (s : State δ ι) (i : ι) (status : Status) : State δ ι :=
  { s with ticket := fun j => (s.ticket j).map fun t =>
      if j = i then { t with status := status } else t }

def next (s : State δ ι) : Event δ ι → State δ ι
  | .add d => record s d ⟨1, true⟩
  | .submit i d =>
    match s.doc d with
    | some x => { s with ticket := Function.update s.ticket i (some ⟨d, x.version, .pending⟩) }
    | none => s
  | .decline i => settle s i .declined
  | .accept i live =>
    match s.ticket i with
    | some t => retire (settle (record s t.doc ⟨t.base + 1, live⟩) i .accepted) t.doc
    | none => s
  | .revise d live =>
    match s.doc d with
    | some x => retire (record s d ⟨x.version + 1, live⟩) d
    | none => s
  | .overwrite d =>
    match s.doc d with
    | some x => record s d ⟨x.version + 1, x.live⟩
    | none => s
  | .idle => s

/-- A document stays as it is, is added, or moves to the next version; its history grows by
exactly the version it moves to. -/
inductive DocMove (s t : State δ ι) (d : δ) : Prop where
  | same (doc : t.doc d = s.doc d) (history : t.history d = s.history d)
  | added (absent : s.doc d = none) (doc : t.doc d = some ⟨1, true⟩)
      (history : t.history d = s.history d ++ [1])
  | moved (x : Doc) (live : Bool) (present : s.doc d = some x)
      (doc : t.doc d = some ⟨x.version + 1, live⟩)
      (history : t.history d = s.history d ++ [x.version + 1])

theorem doc_move {s : State δ ι} {e : Event δ ι} (h : Enabled s e) (d : δ) :
    DocMove s (next s e) d := by
  cases e with
  | add a =>
    by_cases hd : d = a
    · subst hd
      exact .added h (by simp [next, record]) (by simp [next, record])
    · exact .same (by simp [next, record, hd]) (by simp [next, record, hd])
  | submit i a =>
    obtain ⟨-, v, ha⟩ := h
    exact .same (by simp [next, ha]) (by simp [next, ha])
  | decline i => exact .same rfl rfl
  | accept i live =>
    obtain ⟨t, x, ht, -, hx, hv⟩ := h
    by_cases hd : d = t.doc
    · subst hd
      exact .moved x live hx (by simp [next, ht, retire, settle, record, hv])
        (by simp [next, ht, retire, settle, record, hv])
    · exact .same (by simp [next, ht, retire, settle, record, hd])
        (by simp [next, ht, retire, settle, record, hd])
  | revise a live =>
    obtain ⟨x, hx⟩ := h
    by_cases hd : d = a
    · subst hd
      exact .moved x live hx (by simp [next, hx, retire, record])
        (by simp [next, hx, retire, record])
    · exact .same (by simp [next, hx, retire, record, hd])
        (by simp [next, hx, retire, record, hd])
  | overwrite a =>
    obtain ⟨v, hx⟩ := h
    by_cases hd : d = a
    · subst hd
      exact .moved _ true hx (by simp [next, hx, record]) (by simp [next, hx, record])
    · exact .same (by simp [next, hx, record, hd]) (by simp [next, hx, record, hd])
  | idle => exact .same rfl rfl

/-- What an event does to a ticket. Document and base stay; the status stays or leaves
`pending`; and only its own acceptance makes a ticket accepted. -/
structure TicketMove (e : Event δ ι) (i : ι) (x y : Ticket δ) : Prop where
  doc : y.doc = x.doc
  base : y.base = x.base
  status : y.status = x.status ∨ (x.status = .pending ∧ y.status ≠ .pending)
  accepted : y.status = .accepted → x.status ≠ .accepted → ∃ live, e = .accept i live

omit [DecidableEq δ] [DecidableEq ι] in
theorem TicketMove.stay {e : Event δ ι} {i : ι} (x : Ticket δ) : TicketMove e i x x :=
  ⟨rfl, rfl, .inl rfl, fun h k => absurd h k⟩

omit [DecidableEq δ] [DecidableEq ι] in
theorem TicketMove.leave {e : Event δ ι} {i : ι} {x : Ticket δ} {status : Status}
    (hx : x.status = .pending) (hp : status ≠ .pending) (ha : status ≠ .accepted) :
    TicketMove e i x { x with status := status } :=
  ⟨rfl, rfl, .inr ⟨hx, hp⟩, fun h _ => absurd h ha⟩

theorem ticket_move {s : State δ ι} {e : Event δ ι} (h : Enabled s e) {i : ι} {x : Ticket δ}
    (hx : s.ticket i = some x) :
    ∃ y, (next s e).ticket i = some y ∧ TicketMove e i x y := by
  cases e with
  | add a => exact ⟨x, hx, .stay x⟩
  | submit j a =>
    obtain ⟨hj, v, ha⟩ := h
    have hne : i ≠ j := by
      rintro rfl
      rw [hx] at hj
      cases hj
    exact ⟨x, by simp [next, ha, hne, hx], .stay x⟩
  | decline j =>
    obtain ⟨t, ht, hp⟩ := h
    by_cases hi : i = j
    · subst hi
      obtain rfl : t = x := Option.some.inj (ht.symm.trans hx)
      exact ⟨{ t with status := .declined }, by simp [next, settle, hx],
        .leave hp (by simp) (by simp)⟩
    · exact ⟨x, by simp [next, settle, hx, hi], .stay x⟩
  | accept j live =>
    obtain ⟨t, y, ht, hp, hy, hv⟩ := h
    by_cases hi : i = j
    · subst hi
      obtain rfl : t = x := Option.some.inj (ht.symm.trans hx)
      exact ⟨{ t with status := .accepted }, by simp [next, retire, settle, record, ht],
        rfl, rfl, .inr ⟨hp, by simp⟩, fun _ _ => ⟨live, rfl⟩⟩
    · by_cases hr : x.doc = t.doc ∧ x.status = .pending
      · exact ⟨{ x with status := .retired },
          by simp [next, retire, settle, record, ht, hx, hi, hr],
          .leave hr.2 (by simp) (by simp)⟩
      · exact ⟨x, by simp [next, retire, settle, record, ht, hx, hi, hr], .stay x⟩
  | revise a live =>
    obtain ⟨y, hy⟩ := h
    by_cases hr : x.doc = a ∧ x.status = .pending
    · exact ⟨{ x with status := .retired }, by simp [next, hy, retire, record, hx, hr],
        .leave hr.2 (by simp) (by simp)⟩
    · exact ⟨x, by simp [next, hy, retire, record, hx, hr], .stay x⟩
  | overwrite a =>
    obtain ⟨v, hy⟩ := h
    exact ⟨x, by simp [next, hy, record, hx], .stay x⟩
  | idle => exact ⟨x, hx, .stay x⟩

/-- A ticket of the next state is an old one, or has just been submitted. -/
theorem ticket_origin {s : State δ ι} {e : Event δ ι} (h : Enabled s e) {i : ι} {y : Ticket δ}
    (hy : (next s e).ticket i = some y) :
    (∃ x, s.ticket i = some x ∧ TicketMove e i x y) ∨
    (y.status = .pending ∧ s.ticket i = none ∧ ∃ v, s.doc y.doc = some ⟨v, true⟩ ∧ y.base = v ∧
      (next s e).doc = s.doc) := by
  cases hx : s.ticket i with
  | some x =>
    obtain ⟨z, hz, hm⟩ := ticket_move h hx
    rw [hy] at hz
    cases hz
    exact .inl ⟨x, rfl, hm⟩
  | none =>
    right
    cases e with
    | submit j a =>
      obtain ⟨-, v, ha⟩ := h
      by_cases hi : i = j
      · subst hi
        simp only [next, ha, Function.update_self, Option.some.injEq] at hy
        subst hy
        exact ⟨rfl, rfl, v, ha, rfl, by simp [next, ha]⟩
      · simp [next, ha, hi, hx] at hy
    | accept j live =>
      obtain ⟨t, _, ht, -⟩ := h
      simp [next, retire, settle, record, ht, hx] at hy
    | revise a live =>
      obtain ⟨x, ha⟩ := h
      simp [next, ha, retire, record, hx] at hy
    | overwrite a =>
      obtain ⟨v, ha⟩ := h
      simp [next, ha, record, hx] at hy
    | add a => simp [next, record, hx] at hy
    | decline j => simp [next, settle, hx] at hy
    | idle => simp [next, hx] at hy

/-- An acceptance happens at exactly the ticket's base, leaves its document at the version
after it with one new entry in the history, and touches no other document. -/
structure Accepted (s t : State δ ι) (x : Ticket δ) : Prop where
  before : ∃ d, s.doc x.doc = some d ∧ d.version = x.base
  after : ∃ d, t.doc x.doc = some d ∧ d.version = x.base + 1
  history : t.history x.doc = s.history x.doc ++ [x.base + 1]
  others : ∀ d, d ≠ x.doc → t.doc d = s.doc d ∧ t.history d = s.history d

theorem accepted_of_move {s : State δ ι} {e : Event δ ι} (h : Enabled s e) {i : ι}
    {x y : Ticket δ} (hx : s.ticket i = some x) (hm : TicketMove e i x y)
    (hy : y.status = .accepted) (hxa : x.status ≠ .accepted) : Accepted s (next s e) x := by
  obtain ⟨live, rfl⟩ := hm.accepted hy hxa
  obtain ⟨t, d, ht, -, hd, hv⟩ := h
  obtain rfl : t = x := Option.some.inj (ht.symm.trans hx)
  refine ⟨⟨d, hd, hv⟩, ⟨⟨t.base + 1, live⟩, ?_, rfl⟩, ?_, ?_⟩
  · simp [next, retire, settle, record, ht]
  · simp [next, retire, settle, record, ht]
  · intro a ha
    simp [next, retire, settle, record, ht, ha]

/-- Every ticket has its document. -/
def Grounded (s : State δ ι) : Prop := ∀ i t, s.ticket i = some t → ∃ d, s.doc t.doc = some d

omit [DecidableEq δ] [DecidableEq ι] in
theorem initial_grounded : Grounded (initial : State δ ι) := by
  intro i t h
  cases h

theorem step_preserves_grounded {s : State δ ι} {e : Event δ ι} (h : Enabled s e)
    (hs : Grounded s) : Grounded (next s e) := by
  intro i t ht
  rcases ticket_origin h ht with ⟨x, hx, moved⟩ | ⟨-, -, v, hv, -, docs⟩
  · obtain ⟨d, hd⟩ := hs i x hx
    rw [moved.doc]
    cases doc_move h x.doc with
    | same doc _ => exact ⟨d, doc.trans hd⟩
    | added absent _ _ =>
      rw [hd] at absent
      cases absent
    | moved y live _ doc _ => exact ⟨_, doc⟩
  · exact ⟨_, docs ▸ hv⟩

/-- Every version a document has had is in its history, once and in order; an accepted
ticket's base is behind its document, and no two accepted tickets share document and base. -/
structure Invariant (s : State δ ι) : Prop where
  history : ∀ d, s.history d = (s.doc d).elim [] fun x => List.range' 1 x.version
  behind : ∀ i t, s.ticket i = some t → t.status = .accepted →
    ∃ x, s.doc t.doc = some x ∧ t.base < x.version
  once : ∀ i j t u, s.ticket i = some t → s.ticket j = some u → t.status = .accepted →
    u.status = .accepted → t.doc = u.doc → t.base = u.base → i = j

omit [DecidableEq δ] [DecidableEq ι] in
theorem initial_invariant : Invariant (initial : State δ ι) := by
  constructor <;> simp [initial]

omit [DecidableEq δ] [DecidableEq ι] in
theorem DocMove.version_le {s t : State δ ι} {d : δ} (h : DocMove s t d) {x : Doc}
    (hx : s.doc d = some x) : ∃ y, t.doc d = some y ∧ x.version ≤ y.version := by
  cases h with
  | same doc _ => exact ⟨x, doc.trans hx, le_refl _⟩
  | added absent _ _ => simp [hx] at absent
  | moved y live present doc _ =>
    obtain rfl : y = x := Option.some.inj (present.symm.trans hx)
    exact ⟨_, doc, Nat.le_succ _⟩

/-- An accepted ticket was accepted before, or has just been. -/
theorem accepted_origin {s : State δ ι} {e : Event δ ι} (h : Enabled s e) {i : ι}
    {t : Ticket δ} (ht : (next s e).ticket i = some t) (ha : t.status = .accepted) :
    (∃ x, s.ticket i = some x ∧ x.status = .accepted ∧ x.doc = t.doc ∧ x.base = t.base) ∨
    ((∃ live, e = .accept i live) ∧ Accepted s (next s e) t) := by
  rcases ticket_origin h ht with ⟨x, hx, hm⟩ | ⟨hp, -⟩
  · by_cases hxa : x.status = .accepted
    · exact .inl ⟨x, hx, hxa, hm.doc.symm, hm.base.symm⟩
    · have hacc := accepted_of_move h hx hm ha hxa
      refine .inr ⟨hm.accepted ha hxa, ?_⟩
      obtain ⟨before, after, history, others⟩ := hacc
      rw [← hm.doc, ← hm.base] at before after history
      exact ⟨before, after, history, fun d hd => others d (hm.doc ▸ hd)⟩
  · rw [ha] at hp
    cases hp

theorem step_preserves_invariant {s : State δ ι} {e : Event δ ι} (h : Enabled s e)
    (inv : Invariant s) : Invariant (next s e) := by
  -- an earlier acceptance lies behind the version at which a new one happens
  have clash : ∀ {i t x}, s.ticket i = some x → x.status = .accepted → x.doc = t.doc →
      x.base = t.base → ¬ Accepted s (next s e) t := by
    intro i t x hx ha hdoc hbase hacc
    obtain ⟨d, hd, hv⟩ := hacc.before
    obtain ⟨d', hd', hlt⟩ := inv.behind i x hx ha
    rw [hdoc, hd] at hd'
    cases hd'
    omega
  constructor
  · intro d
    have hd := inv.history d
    cases doc_move h d with
    | same doc history => rw [history, doc, hd]
    | added absent doc history => simp [history, doc, hd, absent]
    | moved x live present doc history =>
      rw [history, doc, hd, present]
      simp only [Option.elim_some, List.range'_1_concat]
      rw [Nat.add_comm 1]
  · intro i t ht ha
    rcases accepted_origin h ht ha with ⟨x, hx, hxa, hdoc, hbase⟩ | ⟨-, hacc⟩
    · obtain ⟨d, hd, hlt⟩ := inv.behind i x hx hxa
      obtain ⟨d', hd', hle⟩ := (doc_move h x.doc).version_le hd
      exact ⟨d', hdoc ▸ hd', by omega⟩
    · obtain ⟨d, hd, hv⟩ := hacc.after
      exact ⟨d, hd, by omega⟩
  · intro i j t u ht hu hta hua hdoc hbase
    rcases accepted_origin h ht hta with ⟨x, hx, hxa, hxd, hxb⟩ | ⟨⟨l, he⟩, hacc⟩
    · rcases accepted_origin h hu hua with ⟨y, hy, hya, hyd, hyb⟩ | ⟨-, hacc⟩
      · exact inv.once i j x y hx hy hxa hya (by rw [hxd, hyd, hdoc]) (by rw [hxb, hyb, hbase])
      · exact absurd hacc (clash hx hxa (hxd.trans hdoc) (hxb.trans hbase))
    · rcases accepted_origin h hu hua with ⟨y, hy, hya, hyd, hyb⟩ | ⟨⟨l', he'⟩, -⟩
      · exact absurd hacc (clash hy hya (hyd.trans hdoc.symm) (hyb.trans hbase.symm))
      · rw [he] at he'
        cases he'
        rfl

/-- A pending ticket was written against the version its document still has, and the
document is live: it can still be decided. -/
def Fresh (s : State δ ι) : Prop :=
  ∀ i t, s.ticket i = some t → t.status = .pending → s.doc t.doc = some ⟨t.base, true⟩

omit [DecidableEq δ] [DecidableEq ι] in
theorem initial_fresh : Fresh (initial : State δ ι) := by
  simp [Fresh, initial]

/-- Every event but an overwrite retires the tickets it would leave behind. -/
theorem step_preserves_fresh {s : State δ ι} {e : Event δ ι} (h : Enabled s e)
    (hk : e.keepsFresh) (fresh : Fresh s) : Fresh (next s e) := by
  intro i t ht hp
  rcases ticket_origin h ht with ⟨x, hx, hm⟩ | ⟨-, -, v, hv, rfl, hdoc⟩
  · have hxp : x.status = .pending := by
      rcases hm.status with hs | ⟨-, hs⟩
      · rw [← hs, hp]
      · exact absurd hp hs
    have hd := fresh i x hx hxp
    rw [hm.doc, hm.base]
    cases e with
    | add a =>
      have hne : x.doc ≠ a := by
        rintro rfl
        simp [Enabled, hd] at h
      simpa [next, record, hne] using hd
    | submit j a =>
      obtain ⟨-, v, ha⟩ := h
      simpa [next, ha] using hd
    | accept j live =>
      obtain ⟨u, y, hu, hup, hy, hyv⟩ := h
      have hne : x.doc ≠ u.doc := by
        intro he
        by_cases hij : i = j
        · have hta : t = { u with status := .accepted } := by
            simpa [next, hu, retire, settle, record, hij] using ht.symm
          simp [hta] at hp
        · have htr : t = { x with status := .retired } := by
            simpa [next, hu, retire, settle, record, hx, hij, he, hxp] using ht.symm
          simp [htr] at hp
      simpa [next, hu, retire, settle, record, hne] using hd
    | revise a live =>
      obtain ⟨y, hy⟩ := h
      have hne : x.doc ≠ a := by
        intro he
        have htr : t = { x with status := .retired } := by
          simpa [next, hy, retire, record, hx, he, hxp] using ht.symm
        simp [htr] at hp
      simpa [next, hy, retire, record, hne] using hd
    | overwrite a => exact hk.elim
    | decline j => exact hd
    | idle => exact hd
  · rw [hdoc, hv]

end Versioned
