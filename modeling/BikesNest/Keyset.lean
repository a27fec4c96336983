import BikesNest.RowOrder

/-! Reading a result page by page. A page shows the first rows after a position in some order,
and its link says where the next one starts. What is proved here is what a reader has seen who
follows every link: all the rows, when no two rows on both sides of a link share their key. -/

namespace Keyset

open RowOrder

section Position

variable {ρ κ : Type*} [LinearOrder κ] {key : ρ → κ}

variable (o : OrderBy key)

/-- The rows after a position, from the start when there is none. -/
def remaining (key : ρ → κ) (rows : List ρ) (after : Option κ) : List ρ :=
  rows.filter fun r => decide (∀ k ∈ after, k < key r)

@[simp] theorem mem_remaining {rows : List ρ} {after : Option κ} {r : ρ} :
    r ∈ remaining key rows after ↔ r ∈ rows ∧ ∀ k ∈ after, k < key r := by
  simp [remaining]

@[simp] theorem remaining_none (rows : List ρ) : remaining key rows none = rows := by
  simp [remaining]

theorem remaining_some (rows : List ρ) (k : κ) :
    remaining key rows (some k) = rows.filter fun r => decide (k < key r) := by
  simp [remaining]

theorem remaining_length_le (rows : List ρ) (after : Option κ) :
    (remaining key rows after).length ≤ rows.length :=
  List.length_filter_le _ rows

theorem remaining_distinct {rows : List ρ} (distinct : (rows.map key).Nodup)
    (after : Option κ) : ((remaining key rows after).map key).Nodup :=
  (List.filter_sublist.map key).nodup distinct

/-- The first page of what remains. -/
def pageOf (rows : List ρ) (after : Option κ) (limit : ℕ) : List ρ :=
  (o.sort (remaining key rows after)).take limit

/-- The position of a row that remains leaves a part of what remains. -/
theorem remaining_of_row {rows : List ρ} {after : Option κ} {x : ρ}
    (hx : x ∈ remaining key rows after) :
    (remaining key rows after).filter (fun r => decide (key x < key r)) =
      remaining key rows (some (key x)) := by
  rw [remaining_some, remaining, List.filter_filter]
  apply List.filter_congr
  intro r _
  by_cases h : key x < key r
  · have before : ∀ k ∈ after, k < key r := fun k hk =>
      lt_trans ((mem_remaining.mp hx).2 k hk) h
    rw [decide_eq_true h, decide_eq_true before, Bool.and_true]
  · simp [h]

/-- In ordered rows, what stands up to a row is at most it. -/
theorem take_le {S : List ρ} (sorted : S.Pairwise fun a b => key a ≤ key b) {n : ℕ} {x : ρ}
    (hx : S[n]? = some x) : ∀ y ∈ S.take (n + 1), key y ≤ key x := by
  intro y hy
  obtain ⟨i, hi, rfl⟩ := List.mem_iff_getElem.mp hy
  obtain ⟨bound, rfl⟩ := List.getElem?_eq_some_iff.mp hx
  rw [List.getElem_take]
  rw [List.length_take] at hi
  rcases Nat.lt_or_ge i n with lt | ge
  · exact List.pairwise_iff_getElem.mp sorted i n _ bound lt
  · have : i = n := by omega
    subst this
    exact le_rfl

/-- In ordered rows, what stands from a row on is at least it. -/
theorem le_drop {S : List ρ} (sorted : S.Pairwise fun a b => key a ≤ key b) {n : ℕ} {x : ρ}
    (hx : S[n]? = some x) : ∀ y ∈ S.drop n, key x ≤ key y := by
  intro y hy
  obtain ⟨i, hi, rfl⟩ := List.mem_iff_getElem.mp hy
  obtain ⟨bound, rfl⟩ := List.getElem?_eq_some_iff.mp hx
  rw [List.getElem_drop]
  rcases Nat.eq_zero_or_pos i with rfl | pos
  · exact le_rfl
  · apply List.pairwise_iff_getElem.mp sorted
    omega

/-- A page of `limit` rows ends at a row `x`; the position of that row leaves the rest, when
no row of the rest shares its key. -/
theorem remaining_last {rows : List ρ} {after : Option κ} {limit : ℕ} {x : ρ}
    (last : (o.sort (remaining key rows after))[limit]? = some x)
    (unsplit : ∀ y ∈ (o.sort (remaining key rows after)).drop (limit + 1), key x < key y) :
    ((o.sort (remaining key rows after)).drop (limit + 1)).Perm
      (remaining key rows (some (key x))) := by
  set S := o.sort (remaining key rows after) with hS
  rw [← remaining_of_row ((mem_sort o).mp (List.mem_of_getElem? last))]
  refine List.Perm.trans ?_ ((o.perm (remaining key rows after)).filter _)
  rw [← hS]
  have early : (S.take (limit + 1)).filter (fun r => decide (key x < key r)) = [] := by
    rw [List.filter_eq_nil_iff]
    intro r hr
    simpa using take_le (o.sorted _) last r hr
  have late : (S.drop (limit + 1)).filter (fun r => decide (key x < key r)) =
      S.drop (limit + 1) := by
    rw [List.filter_eq_self]
    intro r hr
    simpa using unsplit r hr
  conv_rhs => rw [← List.take_append_drop (limit + 1) S]
  rw [List.filter_append, early, late, List.nil_append]

/-- Distinct keys are never split. -/
theorem unsplit_of_strict {S : List ρ} (strict : S.Pairwise fun a b => key a < key b) {limit : ℕ}
    {x : ρ} (last : S[limit]? = some x) : ∀ y ∈ S.drop (limit + 1), key x < key y := by
  intro y hy
  obtain ⟨i, hi, rfl⟩ := List.mem_iff_getElem.mp hy
  obtain ⟨bound, rfl⟩ := List.getElem?_eq_some_iff.mp last
  rw [List.getElem_drop]
  apply List.pairwise_iff_getElem.mp strict
  omega

end Position

section Walk

variable {π γ ρ ρ' : Type*}

/-- The pages met from `link` on by following `next` until a page has none, the first of them
being the `i`-th read. Out of fuel, the walk has no result. -/
def walk (next : π → Option γ) (read : ℕ → Option γ → π) : ℕ → ℕ → Option γ → Option (List π)
  | 0, _, _ => none
  | fuel + 1, i, link =>
    match next (read i link) with
    | none => some [read i link]
    | some following => (walk next read fuel (i + 1) (some following)).map (read i link :: ·)

variable {next : π → Option γ} {read : ℕ → Option γ → π}

theorem walk_zero (i : ℕ) (link : Option γ) : walk next read 0 i link = none := rfl

theorem walk_succ (fuel i : ℕ) (link : Option γ) : walk next read (fuel + 1) i link =
    match next (read i link) with
    | none => some [read i link]
    | some following => (walk next read fuel (i + 1) (some following)).map (read i link :: ·) := rfl

/-- The pages of a walk show what was left at its start, when each page shows a part that is
not empty and its link leaves the others. `R` says when a list of rows is shown as a list of items. -/
theorem walk_complete {items : π → List ρ'} {R : List ρ → List ρ' → Prop}
    (left : Option γ → List ρ) (reached : Option γ → Prop)
    (last : ∀ i link, reached link → next (read i link) = none →
      R (left link) (items (read i link)))
    (more : ∀ i link following, reached link → next (read i link) = some following →
      reached (some following) ∧ (left (some following)).length < (left link).length ∧
        ∀ seen, R (left (some following)) seen → R (left link) (items (read i link) ++ seen)) :
    ∀ fuel i link, reached link → (left link).length < fuel →
      ∃ pages, walk next read fuel i link = some pages ∧ R (left link) (pages.flatMap items) := by
  intro fuel
  induction fuel with
  | zero =>
    intro i link _ enough
    omega
  | succ fuel ih =>
    intro i link hlink enough
    cases following : next (read i link) with
    | none =>
      refine ⟨[read i link], by simp [walk_succ, following], ?_⟩
      simpa using last i link hlink following
    | some link' =>
      obtain ⟨reached', shorter, seen⟩ := more i link link' hlink following
      obtain ⟨pages, result, rest⟩ := ih (i + 1) (some link') reached' (by omega)
      refine ⟨read i link :: pages, by simp [walk_succ, following, result], ?_⟩
      rw [List.flatMap_cons]
      exact seen _ rest

/-- More fuel does not change a walk that has ended. -/
theorem walk_mono : ∀ {fuel fuel' i link pages}, walk next read fuel i link = some pages →
    fuel ≤ fuel' → walk next read fuel' i link = some pages := by
  intro fuel
  induction fuel with
  | zero =>
    intro fuel' i link pages h
    simp [walk_zero] at h
  | succ fuel ih =>
    intro fuel' i link pages h le
    obtain ⟨more, rfl⟩ : ∃ more, fuel' = more + 1 := ⟨fuel' - 1, by omega⟩
    rw [walk_succ] at h ⊢
    split at h
    · exact h
    · obtain ⟨rest, result, rfl⟩ := Option.map_eq_some_iff.mp h
      rw [ih result (by omega)]
      rfl

/-- What holds of every page that is read holds of every page of the walk. -/
theorem walk_forall {P : π → Prop} (reads : ∀ i link, P (read i link)) :
    ∀ {fuel i link pages}, walk next read fuel i link = some pages → ∀ p ∈ pages, P p := by
  intro fuel
  induction fuel with
  | zero =>
    intro i link pages h
    simp [walk_zero] at h
  | succ fuel ih =>
    intro i link pages h
    rw [walk_succ] at h
    split at h
    · cases h
      simpa using reads i link
    · obtain ⟨rest, result, rfl⟩ := Option.map_eq_some_iff.mp h
      intro p hp
      rcases List.mem_cons.mp hp with rfl | hp
      · exact reads i link
      · exact ih result p hp

theorem walk_ne_nil {fuel i : ℕ} {link : Option γ} {pages : List π}
    (h : walk next read fuel i link = some pages) : pages ≠ [] := by
  cases fuel with
  | zero => simp [walk_zero] at h
  | succ fuel =>
    rw [walk_succ] at h
    split at h
    · cases h
      simp
    · obtain ⟨rest, -, rfl⟩ := Option.map_eq_some_iff.mp h
      simp

/-- Pages that carry the same links up to a change of form. -/
theorem walk_map {π' γ' : Type*} {next' : π' → Option γ'} {read' : ℕ → Option γ' → π'}
    (f : π' → π) (g : γ' → γ) (links : ∀ p, next (f p) = (next' p).map g)
    (reads : ∀ i link, read i (link.map g) = f (read' i link)) : ∀ fuel i link,
      walk next read fuel i (link.map g) = (walk next' read' fuel i link).map (List.map f) := by
  intro fuel
  induction fuel with
  | zero =>
    intro i link
    rfl
  | succ fuel ih =>
    intro i link
    rw [walk_succ, walk_succ, reads, links]
    cases following : next' (read' i link) with
    | none => rfl
    | some link' =>
      have rest := ih (i + 1) (some link')
      rw [Option.map_some] at rest
      simp only [Option.map_some]
      rw [rest, Option.map_map, Option.map_map]
      rfl

/-- What lies ahead of a reader, and is there at every read, is met, whatever else changes between
two of them. -/
theorem walk_meets {Seen : π → Prop} {Ahead : ℕ → Option γ → Prop} {There : ℕ → Prop}
    (ended : ∀ i link, There i → Ahead i link → next (read i link) = none → Seen (read i link))
    (continued : ∀ i link following, There i → Ahead i link →
      next (read i link) = some following → Seen (read i link) ∨ Ahead (i + 1) (some following)) :
    ∀ {fuel i link pages}, Ahead i link → walk next read fuel i link = some pages →
      (∀ j < pages.length, There (i + j)) → ∃ page ∈ pages, Seen page := by
  intro fuel
  induction fuel with
  | zero =>
    intro i link pages _ h
    simp [walk_zero] at h
  | succ fuel ih =>
    intro i link pages ahead h there
    rw [walk_succ] at h
    split at h
    · rename_i last
      cases h
      exact ⟨_, List.mem_cons_self, ended i link (there 0 (by simp)) ahead last⟩
    · rename_i following more
      obtain ⟨rest, result, rfl⟩ := Option.map_eq_some_iff.mp h
      rcases continued i link following (there 0 (by simp)) ahead more with seen | ahead
      · exact ⟨_, List.mem_cons_self, seen⟩
      · obtain ⟨page, hpage, seen⟩ := ih ahead result (by
          intro j hj
          have := there (j + 1) (by simp only [List.length_cons]; omega)
          rwa [Nat.add_comm j 1, ← Nat.add_assoc] at this)
        exact ⟨page, List.mem_cons_of_mem _ hpage, seen⟩

/-- A walk depends on the reads from its first one on. -/
theorem walk_of_reads {read' : ℕ → Option γ → π} {i : ℕ} (same : ∀ j, i ≤ j → read j = read' j) :
    ∀ fuel link, walk next read fuel i link = walk next read' fuel i link := by
  intro fuel
  induction fuel generalizing i with
  | zero =>
    intro link
    rfl
  | succ fuel ih =>
    intro link
    rw [walk_succ, walk_succ, same i le_rfl]
    split
    · rfl
    · rw [ih fun j hj => same j (by omega)]

/-- A walk ends when every walk from a later read on does. -/
theorem walk_ends {n : ℕ}
    (settled : ∀ link, ∃ fuel pages, walk next read fuel n link = some pages) :
    ∀ k i link, i + k = n → ∃ fuel pages, walk next read fuel i link = some pages := by
  intro k
  induction k with
  | zero =>
    intro i link hi
    obtain rfl : i = n := hi
    exact settled link
  | succ k ih =>
    intro i link hi
    cases following : next (read i link) with
    | none => exact ⟨1, [read i link], by simp [walk_succ, following]⟩
    | some link' =>
      obtain ⟨fuel, pages, result⟩ := ih (i + 1) (some link') (by omega)
      exact ⟨fuel + 1, read i link :: pages, by simp [walk_succ, following, result]⟩

/-- Every page but the last has a link. -/
theorem walk_links : ∀ {fuel i link pages}, walk next read fuel i link = some pages →
    ∀ p ∈ pages.dropLast, (next p).isSome := by
  intro fuel
  induction fuel with
  | zero =>
    intro i link pages h
    simp [walk_zero] at h
  | succ fuel ih =>
    intro i link pages h
    rw [walk_succ] at h
    split at h
    · cases h
      simp
    · rename_i link' following
      obtain ⟨rest, result, rfl⟩ := Option.map_eq_some_iff.mp h
      intro p hp
      rw [List.dropLast_cons_of_ne_nil (walk_ne_nil result)] at hp
      rcases List.mem_cons.mp hp with rfl | hp
      · simp [following]
      · exact ih result p hp

end Walk

section Rows

variable {π γ ρ ρ' κ : Type*} [LinearOrder κ] {key : ρ → κ}

/-- A page over `rows`: the first `limit + 1` rows after the position that its link stands for,
with a link to the position of the last of them; none when nothing can follow. `Shows` says
what the page makes of a row. -/
structure Reads (o : OrderBy key) (rows : List ρ) (Shows : ρ → ρ' → Prop)
    (position : Option γ → Option κ) (items : π → List ρ') (next : π → Option γ)
    (link : Option γ) (limit : ℕ) (page : π) : Prop where
  shown : List.Forall₂ Shows (pageOf o rows (position link) (limit + 1)) (items page)
  last : next page = none → (remaining key rows (position link)).length ≤ limit + 1
  more : ∀ following, next page = some following →
    ∃ x, (o.sort (remaining key rows (position link)))[limit]? = some x ∧
      position (some following) = some (key x)

variable {o : OrderBy key} {rows : List ρ} {Shows : ρ → ρ' → Prop}
  {position : Option γ → Option κ} {items : π → List ρ'} {next : π → Option γ}
  {read : ℕ → Option γ → π} {limits : ℕ → ℕ}

/-- A walk over rows with distinct keys shows each of them once and in their order. -/
theorem walk_rows (distinct : (rows.map key).Nodup)
    (reads : ∀ i link, Reads o rows Shows position items next link (limits i) (read i link))
    {fuel : ℕ} {link : Option γ} (enough : (remaining key rows (position link)).length < fuel)
    (i : ℕ) : ∃ pages, walk next read fuel i link = some pages ∧
      List.Forall₂ Shows (o.sort (remaining key rows (position link))) (pages.flatMap items) := by
  refine walk_complete (fun link => o.sort (remaining key rows (position link)))
    (fun _ => True) ?_ ?_ fuel i link trivial (by simpa using enough)
  · intro i link _ ended
    have shown := (reads i link).shown
    rwa [pageOf, List.take_of_length_le] at shown
    simpa using (reads i link).last ended
  · intro i link following _ continued
    obtain ⟨x, last, moved⟩ := (reads i link).more following continued
    set S := o.sort (remaining key rows (position link)) with hS
    have strict : S.Pairwise fun a b => key a < key b :=
      sort_strict o (remaining_distinct distinct _)
    have rest : o.sort (remaining key rows (some (key x))) = S.drop (limits i + 1) := by
      apply sort_eq
      · exact remaining_last o last (unsplit_of_strict strict last)
      · exact strict.drop
    obtain ⟨bound, -⟩ := List.getElem?_eq_some_iff.mp last
    rw [moved, rest]
    refine ⟨trivial, ?_, ?_⟩
    · rw [List.length_drop]
      omega
    · intro seen hseen
      have shown := (reads i link).shown
      rw [pageOf, ← hS] at shown
      rw [← List.take_append_drop (limits i + 1) S]
      exact List.rel_append shown hseen

end Rows

section Full

variable {γ ρ κ : Type*} [LinearOrder κ] {key : ρ → κ}

structure Page (ρ γ : Type*) where
  items : List ρ
  next : Option γ

/-- A page of at most `limit` rows, which links to its last row when it is full. -/
def fullPage (o : OrderBy key) (rows : List ρ) (position : Option γ → Option κ) (link : ρ → γ)
    (limit : ℕ) (after : Option γ) : Page ρ γ :=
  let items := pageOf o rows (position after) limit
  ⟨items, if items.length = limit then items.getLast?.map link else none⟩

variable {o : OrderBy key} {rows : List ρ} {position : Option γ → Option κ} {link : ρ → γ}
  {limit : ℕ} {after : Option γ}

theorem fullPage_ended (positive : 0 < limit)
    (h : (fullPage o rows position link limit after).next = none) :
    (remaining key rows (position after)).length < limit := by
  by_contra long
  have full : (pageOf o rows (position after) limit).length = limit := by
    rw [pageOf, List.length_take, length_sort]
    omega
  rw [fullPage, if_pos full, Option.map_eq_none_iff, List.getLast?_eq_none_iff] at h
  rw [h] at full
  exact absurd full (by simp only [List.length_nil]; omega)

theorem fullPage_continued (positive : 0 < limit) {following : γ}
    (h : (fullPage o rows position link limit after).next = some following) :
    ∃ x, (o.sort (remaining key rows (position after)))[limit - 1]? = some x ∧
      following = link x := by
  rw [fullPage] at h
  split_ifs at h with full
  obtain ⟨x, last, rfl⟩ := Option.map_eq_some_iff.mp h
  refine ⟨x, ?_, rfl⟩
  rwa [List.getLast?_eq_getElem?, full, pageOf, List.getElem?_take_of_lt (by omega)] at last

/-- Full pages read rows with distinct keys, when the link of each row leads to its key. -/
theorem fullPage_reads (positive : 0 < limit)
    (leads : ∀ x ∈ rows, position (some (link x)) = some (key x)) :
    Reads o rows Eq position Page.items Page.next after (limit - 1)
      (fullPage o rows position link limit after) := by
  have size : limit - 1 + 1 = limit := by omega
  refine ⟨?_, ?_, ?_⟩
  · rw [size, List.forall₂_eq_eq_eq]
    rfl
  · intro ended
    have := fullPage_ended positive ended
    omega
  · intro following continued
    obtain ⟨x, last, rfl⟩ := fullPage_continued positive continued
    have member : x ∈ rows := (mem_remaining.mp ((mem_sort o).mp (List.mem_of_getElem? last))).1
    exact ⟨x, last, leads x member⟩

end Full

section Ties

variable {ρ κ : Type*} [LinearOrder κ] {key : ρ → κ}

/-- The number of rows with a lower key. -/
def below (key : ρ → κ) (rows : List ρ) (k : κ) : ℕ := rows.countP fun r => decide (key r < k)

/-- The number of rows with that key or a lower one. -/
def upTo (key : ρ → κ) (rows : List ρ) (k : κ) : ℕ := rows.countP fun r => decide (key r ≤ k)

/-- The rows that share a key lie on one page, and where they end it, its link leads to them. -/
structure Kept (key : ρ → κ) (rows : List ρ) (limit : ℕ) (Leads : κ → Prop) (k : κ) : Prop where
  together : below key rows k / limit = (upTo key rows k - 1) / limit
  linked : limit ∣ upTo key rows k → Leads k

/-- The number of rows that a position has behind it. -/
def passed (key : ρ → κ) (rows : List ρ) (after : Option κ) : ℕ :=
  rows.countP fun r => !decide (∀ k ∈ after, k < key r)

variable {o : OrderBy key} {rows : List ρ} {after : Option κ} {limit : ℕ} {x : ρ}
  {Leads : κ → Prop}

@[simp] theorem passed_none : passed key rows none = 0 := by
  simp [passed]

theorem passed_some (k : κ) : passed key rows (some k) = upTo key rows k := by
  rw [passed, upTo]
  apply List.countP_congr
  intro r _
  simp

theorem exists_of_behind {r : ρ} (hr : r ∈ rows) (behind : r ∉ remaining key rows after) :
    ∃ k ∈ after, key r ≤ k := by
  by_contra none
  apply behind
  rw [mem_remaining]
  exact ⟨hr, fun k hk => lt_of_not_ge fun le => none ⟨k, hk, le⟩⟩

/-- Counting the rows behind a position and those that remain. -/
theorem countP_eq_passed_add {p : ρ → Bool}
    (behind : ∀ r ∈ rows, r ∉ remaining key rows after → p r = true) :
    rows.countP p = passed key rows after + (remaining key rows after).countP p := by
  rw [List.countP_eq_countP_filter_add rows p fun r => decide (∀ k ∈ after, k < key r), add_comm]
  congr 1
  rw [passed, List.countP_eq_length_filter (p := fun r => !decide (∀ k ∈ after, k < key r))]
  rw [List.countP_eq_length]
  intro r hr
  obtain ⟨member, past⟩ := List.mem_filter.mp hr
  apply behind r member
  intro still
  rw [decide_eq_true (mem_remaining.mp still).2] at past
  cases past

theorem below_eq (hx : x ∈ remaining key rows after) : below key rows (key x) =
    passed key rows after + (remaining key rows after).countP fun r => decide (key r < key x) := by
  apply countP_eq_passed_add
  intro r hr behind
  obtain ⟨k, hk, le⟩ := exists_of_behind hr behind
  exact decide_eq_true (lt_of_le_of_lt le ((mem_remaining.mp hx).2 k hk))

theorem upTo_eq (hx : x ∈ remaining key rows after) : upTo key rows (key x) =
    passed key rows after + (remaining key rows after).countP fun r => decide (key r ≤ key x) := by
  apply countP_eq_passed_add
  intro r hr behind
  obtain ⟨k, hk, le⟩ := exists_of_behind hr behind
  exact decide_eq_true (le_of_lt (lt_of_le_of_lt le ((mem_remaining.mp hx).2 k hk)))

section Boundary

variable (last : (o.sort (remaining key rows after))[limit - 1]? = some x) (positive : 0 < limit)

include last

theorem mem_of_last : x ∈ remaining key rows after := (mem_sort o).mp (List.mem_of_getElem? last)

include positive

/-- The row that ends a full page has fewer than `limit` rows of what remains below it. -/
theorem countP_lt_last :
    ((remaining key rows after).countP fun r => decide (key r < key x)) < limit := by
  rw [← (o.perm (remaining key rows after)).countP_eq]
  set S := o.sort (remaining key rows after) with hS
  have late : (S.drop (limit - 1)).countP (fun r => decide (key r < key x)) = 0 := by
    rw [List.countP_eq_zero]
    intro r hr
    simpa using le_drop (o.sorted _) last r hr
  have early : (S.take (limit - 1)).countP (fun r => decide (key r < key x)) ≤ limit - 1 :=
    List.countP_le_length.trans (List.length_take_le _ _)
  rw [← List.take_append_drop (limit - 1) S, List.countP_append, late]
  omega

/-- Up to that row there are the rows of the page, and those of the rest that share its key. -/
theorem countP_le_last : ((remaining key rows after).countP fun r => decide (key r ≤ key x)) =
    limit + ((o.sort (remaining key rows after)).drop limit).countP
      fun r => decide (key r ≤ key x) := by
  rw [← (o.perm (remaining key rows after)).countP_eq]
  set S := o.sort (remaining key rows after) with hS
  obtain ⟨bound, -⟩ := List.getElem?_eq_some_iff.mp last
  have size : limit - 1 + 1 = limit := by omega
  have early : (S.take limit).countP (fun r => decide (key r ≤ key x)) = limit := by
    have all : (S.take limit).countP (fun r => decide (key r ≤ key x)) = (S.take limit).length := by
      rw [List.countP_eq_length]
      intro r hr
      exact decide_eq_true (take_le (o.sorted _) last r (size ▸ hr))
    rw [all, List.length_take]
    omega
  conv_lhs => rw [← List.take_append_drop limit S, List.countP_append, early]

theorem drop_perm (unsplit : ∀ y ∈ (o.sort (remaining key rows after)).drop limit, key x < key y) :
    ((o.sort (remaining key rows after)).drop limit).Perm (remaining key rows (some (key x))) := by
  have size : limit - 1 + 1 = limit := by omega
  have := remaining_last o last (size.symm ▸ unsplit)
  rwa [size] at this

/-- A full page leaves the rows that neither stand on it nor share its last key. -/
theorem length_remaining_last : (remaining key rows (some (key x))).length + limit +
    ((o.sort (remaining key rows after)).drop limit).countP (fun r => decide (key r ≤ key x)) =
      (remaining key rows after).length := by
  have upper := countP_le_last last positive
  have whole := (remaining key rows after).length_eq_countP_add_countP
    fun r => decide (key x < key r)
  simp only [decide_eq_true_eq, not_lt] at whole
  rw [← remaining_of_row (mem_of_last last), ← List.countP_eq_length_filter]
  omega

/-- A row that is kept ends its page with the last of its key, so that the link leads on. -/
theorem Kept.ends_page (kept : Kept key rows limit Leads (key x))
    (aligned : limit ∣ passed key rows after) :
    (∀ y ∈ (o.sort (remaining key rows after)).drop limit, key x < key y) ∧
      upTo key rows (key x) = passed key rows after + limit := by
  have member := mem_of_last last
  have lower := countP_lt_last last positive
  have upper := countP_le_last last positive
  obtain ⟨q, aligned⟩ := aligned
  have together := kept.together
  rw [below_eq member, upTo_eq member, upper, aligned] at together
  set extra := ((o.sort (remaining key rows after)).drop limit).countP
    fun r => decide (key r ≤ key x) with hextra
  have first : (limit * q + (remaining key rows after).countP fun r => decide (key r < key x)) /
      limit = q := by
    rw [Nat.mul_add_div positive, Nat.div_eq_of_lt lower, Nat.add_zero]
  have rest : limit * q + (limit + extra) - 1 = limit * q + (limit - 1 + extra) := by omega
  rw [first, rest, Nat.mul_add_div positive] at together
  have none : extra = 0 := by
    have : (limit - 1 + extra) / limit = 0 := by omega
    rw [Nat.div_eq_zero_iff] at this
    omega
  constructor
  · intro y hy
    have := List.countP_eq_zero.mp none y hy
    simpa using this
  · rw [upTo_eq member, upper, none, Nat.add_zero]

end Boundary

theorem countP_lt_countP_le {S : List ρ} (hx : x ∈ S) :
    (S.countP fun r => decide (key r < key x)) < S.countP fun r => decide (key r ≤ key x) := by
  rw [List.countP_eq_countP_filter_add S (fun r => decide (key r ≤ key x))
    fun r => decide (key r < key x)]
  have lower : (S.filter fun r => decide (key r < key x)).countP (fun r => decide (key r ≤ key x))
      = S.countP fun r => decide (key r < key x) := by
    rw [List.countP_eq_length_filter (p := fun r => decide (key r < key x)), List.countP_eq_length]
    intro r hr
    have := (List.mem_filter.mp hr).2
    exact decide_eq_true (le_of_lt (of_decide_eq_true this))
  have equal : 0 < (S.filter fun r => !decide (key r < key x)).countP
      fun r => decide (key r ≤ key x) := by
    rw [List.countP_pos_iff]
    exact ⟨x, by simp [hx], by simp⟩
  omega

/-- A row of a page is kept when all rows of its key are on it, and the link leads there if it
ends the page. -/
theorem kept_of_counts (hx : x ∈ remaining key rows after) (aligned : limit ∣ passed key rows after)
    (upper : ((remaining key rows after).countP fun r => decide (key r ≤ key x)) ≤ limit)
    (linked : ((remaining key rows after).countP fun r => decide (key r ≤ key x)) = limit →
      Leads (key x)) : Kept key rows limit Leads (key x) := by
  set low := (remaining key rows after).countP fun r => decide (key r < key x) with hlow
  set high := (remaining key rows after).countP fun r => decide (key r ≤ key x) with hhigh
  have lt : low < high := countP_lt_countP_le hx
  obtain ⟨q, aligned⟩ := aligned
  have positive : 0 < limit := by omega
  refine ⟨?_, ?_⟩
  · rw [below_eq hx, upTo_eq hx, aligned, ← hlow, ← hhigh]
    have : limit * q + high - 1 = limit * q + (high - 1) := by omega
    rw [this, Nat.mul_add_div positive, Nat.mul_add_div positive, Nat.div_eq_of_lt (by omega),
      Nat.div_eq_of_lt (by omega)]
  · rw [upTo_eq hx, aligned, ← hhigh]
    intro whole
    apply linked
    have : limit ∣ high := (Nat.dvd_add_right ⟨q, rfl⟩).mp whole
    have := Nat.le_of_dvd (by omega) this
    omega

section Walk

variable {γ : Type*} {position : Option γ → Option κ} {link : ρ → γ}

/-- The walk over full pages. -/
def fullWalk (o : OrderBy key) (rows : List ρ) (position : Option γ → Option κ) (link : ρ → γ)
    (limit fuel : ℕ) (after : Option γ) : Option (List (Page ρ γ)) :=
  walk Page.next (fun _ after => fullPage o rows position link limit after) fuel 0 after

/-- A link does what its position does. -/
theorem walk_congr {a b : Option γ} (same : position a = position b) (fuel i j : ℕ) :
    walk Page.next (fun _ after => fullPage o rows position link limit after) fuel i a =
      walk Page.next (fun _ after => fullPage o rows position link limit after) fuel j b := by
  induction fuel generalizing i j a b with
  | zero => rfl
  | succ fuel ih =>
    have page : fullPage o rows position link limit a = fullPage o rows position link limit b := by
      rw [fullPage, fullPage, same]
    rw [walk_succ, walk_succ, page]
    split
    · rfl
    · rw [ih rfl (i + 1) (j + 1)]

variable (leads : ∀ x ∈ rows, Leads (key x) → position (some (link x)) = some (key x))
  (positive : 0 < limit)

include leads positive

/-- When every row is kept, the pages show all that remains. -/
theorem fullWalk_of_kept (kept : ∀ r ∈ rows, Kept key rows limit Leads (key r)) {fuel : ℕ}
    {after : Option γ} (aligned : limit ∣ passed key rows (position after))
    (enough : (remaining key rows (position after)).length < fuel) :
    ∃ pages, fullWalk o rows position link limit fuel after = some pages ∧
      (pages.flatMap Page.items).Perm (remaining key rows (position after)) := by
  refine walk_complete (R := fun left seen => seen.Perm left)
    (fun after => remaining key rows (position after))
    (fun after => limit ∣ passed key rows (position after)) ?_ ?_ fuel 0 after aligned enough
  · intro _ after _ ended
    have short := fullPage_ended positive ended
    have all : (fullPage o rows position link limit after).items =
        o.sort (remaining key rows (position after)) := by
      apply List.take_of_length_le
      rw [length_sort]
      omega
    rw [all]
    exact o.perm _
  · intro _ after following aligned continued
    obtain ⟨x, last, rfl⟩ := fullPage_continued positive continued
    have member := (mem_remaining.mp (mem_of_last last)).1
    obtain ⟨unsplit, ends⟩ := (kept x member).ends_page last positive aligned
    have whole : limit ∣ upTo key rows (key x) := by
      rw [ends]
      exact (Nat.dvd_add_right aligned).mpr dvd_rfl
    have moved := leads x member ((kept x member).linked whole)
    have rest := drop_perm last positive unsplit
    obtain ⟨bound, -⟩ := List.getElem?_eq_some_iff.mp last
    rw [length_sort] at bound
    rw [moved, passed_some]
    refine ⟨whole, ?_, ?_⟩
    · rw [← rest.length_eq, List.length_drop, length_sort]
      omega
    · intro seen hseen
      refine ((hseen.trans rest.symm).append_left _).trans ?_
      have split : (fullPage o rows position link limit after).items ++
          (o.sort (remaining key rows (position after))).drop limit =
            o.sort (remaining key rows (position after)) := List.take_append_drop limit _
      rw [split]
      exact o.perm _

/-- No walk that starts over ends with less fuel. -/
def Fresh (o : OrderBy key) (rows : List ρ) (position : Option γ → Option κ) (link : ρ → γ)
    (limit fuel : ℕ) : Prop :=
  ∀ fuel' < fuel, ∀ i after, position after = none →
    walk Page.next (fun _ after => fullPage o rows position link limit after) fuel' i after = none

variable (lost : ∀ x ∈ rows, ¬ Leads (key x) → position (some (link x)) = none)

include lost

omit positive in
/-- The link of a walk that ends leads on. -/
theorem leads_of_walk {fuel i : ℕ} {after : Option γ} {pages : List (Page ρ γ)}
    (fresh : Fresh o rows position link limit (fuel + 1))
    (last : (o.sort (remaining key rows (position after)))[limit - 1]? = some x)
    (h : walk Page.next (fun _ after => fullPage o rows position link limit after) fuel i
      (some (link x)) = some pages) : Leads (key x) ∧ position (some (link x)) = some (key x) := by
  have member := (mem_remaining.mp (mem_of_last last)).1
  by_cases ok : Leads (key x)
  · exact ⟨ok, leads x member ok⟩
  · have again := fresh fuel (Nat.lt_succ_self fuel) i _ (lost x member ok)
    rw [h] at again
    cases again

/-- A walk that ends shows no more rows than remain. -/
theorem walk_length_le : ∀ {fuel i after pages}, Fresh o rows position link limit fuel →
    walk Page.next (fun _ after => fullPage o rows position link limit after) fuel i after =
      some pages →
    (pages.flatMap Page.items).length ≤ (remaining key rows (position after)).length := by
  intro fuel
  induction fuel with
  | zero =>
    intro i after pages _ h
    simp [walk_zero] at h
  | succ fuel ih =>
    intro i after pages fresh h
    have page : ((fullPage o rows position link limit after).items).length ≤ limit :=
      List.length_take_le _ _
    rw [walk_succ] at h
    split at h
    · cases h
      rw [List.flatMap_singleton, fullPage, pageOf, List.length_take, length_sort]
      exact Nat.min_le_right _ _
    · rename_i following continued
      obtain ⟨rest, result, rfl⟩ := Option.map_eq_some_iff.mp h
      obtain ⟨x, last, rfl⟩ := fullPage_continued positive continued
      obtain ⟨-, moved⟩ := leads_of_walk leads lost fresh last result
      have shown := ih (fun g hg => fresh g (by omega)) result
      rw [moved] at shown
      rw [List.flatMap_cons, List.length_append]
      have left := length_remaining_last last positive
      omega

/-- A walk that shows all that remains keeps every row of it. -/
theorem kept_of_walk : ∀ {fuel i after pages}, Fresh o rows position link limit fuel →
    limit ∣ passed key rows (position after) →
    walk Page.next (fun _ after => fullPage o rows position link limit after) fuel i after =
      some pages →
    (pages.flatMap Page.items).Perm (remaining key rows (position after)) →
    ∀ r ∈ remaining key rows (position after), Kept key rows limit Leads (key r) := by
  intro fuel
  induction fuel with
  | zero =>
    intro i after pages _ _ h
    simp [walk_zero] at h
  | succ fuel ih =>
    intro i after pages fresh aligned h all r hr
    rw [walk_succ] at h
    split at h
    · rename_i ended
      have short := fullPage_ended positive ended
      have few : ((remaining key rows (position after)).countP fun q => decide (key q ≤ key r)) <
          limit := lt_of_le_of_lt List.countP_le_length short
      refine kept_of_counts hr aligned (by omega) ?_
      intro full
      omega
    · rename_i following continued
      obtain ⟨rest, result, rfl⟩ := Option.map_eq_some_iff.mp h
      obtain ⟨x, last, rfl⟩ := fullPage_continued positive continued
      obtain ⟨ok, moved⟩ := leads_of_walk leads lost fresh last result
      have left := length_remaining_last last positive
      have upper := countP_le_last last positive
      have shown := walk_length_le leads positive lost (fun g hg => fresh g (by omega)) result
      have total := all.length_eq
      have page : ((fullPage o rows position link limit after).items).length ≤ limit :=
        List.length_take_le _ _
      rw [List.flatMap_cons, List.length_append] at total
      rw [moved] at shown
      -- nothing of the last key is left for the next page, or it would not be shown
      have together : ((o.sort (remaining key rows (position after))).drop limit).countP
          (fun q => decide (key q ≤ key x)) = 0 := by omega
      have unsplit : ∀ y ∈ (o.sort (remaining key rows (position after))).drop limit,
          key x < key y := by
        intro y hy
        simpa using List.countP_eq_zero.mp together y hy
      have later := drop_perm last positive unsplit
      have whole : (fullPage o rows position link limit after).items ++
          (o.sort (remaining key rows (position after))).drop limit =
            o.sort (remaining key rows (position after)) := List.take_append_drop limit _
      have member := mem_of_last last
      rcases List.mem_append.mp (whole ▸ (mem_sort o).mpr hr) with early | late
      · have size : limit - 1 + 1 = limit := by omega
        rcases (take_le (o.sorted _) last r (size ▸ early)).lt_or_eq with lt | eq
        · have fewer : ((remaining key rows (position after)).countP fun q =>
              decide (key q ≤ key r)) < limit := by
            refine lt_of_le_of_lt (List.countP_mono_left ?_) (countP_lt_last last positive)
            intro q _ hq
            exact decide_eq_true (lt_of_le_of_lt (of_decide_eq_true hq) lt)
          refine kept_of_counts hr aligned (le_of_lt fewer) ?_
          intro full
          omega
        · rw [eq]
          exact kept_of_counts member aligned (by omega) fun _ => ok
      · have ends : passed key rows (position (some (link x))) =
            passed key rows (position after) + limit := by
          rw [moved, passed_some, upTo_eq member, upper, together, Nat.add_zero]
        refine ih (fun g hg => fresh g (by omega)) ?_ result ?_ r ?_
        · rw [ends]
          exact (Nat.dvd_add_right aligned).mpr dvd_rfl
        · rw [moved]
          refine List.Perm.trans ?_ later
          apply (List.perm_append_left_iff (fullPage o rows position link limit after).items).mp
          rw [whole]
          rw [List.flatMap_cons] at all
          exact all.trans (o.perm _).symm
        · rw [moved]
          exact later.mem_iff.mp late

/-- Following the links from the start shows every row once exactly when each key is kept. -/
theorem fullWalk_complete_iff (start : position none = none) :
    (∃ fuel pages, fullWalk o rows position link limit fuel none = some pages ∧
      (pages.flatMap Page.items).Perm rows) ↔ ∀ r ∈ rows, Kept key rows limit Leads (key r) := by
  classical
  constructor
  · rintro ⟨fuel, pages, result, all⟩
    have ends : ∃ fuel, (fullWalk o rows position link limit fuel none).isSome :=
      ⟨fuel, by rw [result]; rfl⟩
    obtain ⟨first, hfirst⟩ := Option.isSome_iff_exists.mp (Nat.find_spec ends)
    have fresh : Fresh o rows position link limit (Nat.find ends) := by
      intro g hg i after again
      have never := Nat.find_min ends hg
      rw [Option.not_isSome_iff_eq_none] at never
      rw [← never]
      exact walk_congr (again.trans start.symm) g i 0
    have same : first = pages := by
      have le : Nat.find ends ≤ fuel := Nat.find_min' ends (by rw [result]; rfl)
      exact Option.some.inj ((walk_mono hfirst le).symm.trans result)
    have kept := kept_of_walk leads positive lost fresh (by rw [start, passed_none]; exact dvd_zero _)
      hfirst (by rw [same, start, remaining_none]; exact all)
    rwa [start, remaining_none] at kept
  · intro kept
    have aligned : limit ∣ passed key rows (position none) := by
      rw [start, passed_none]
      exact dvd_zero _
    have enough : (remaining key rows (position none)).length < rows.length + 1 := by
      rw [start, remaining_none]
      omega
    obtain ⟨pages, result, all⟩ := @fullWalk_of_kept _ _ _ _ o _ _ _ _ _ _ leads positive kept _ _
      aligned enough
    rw [start, remaining_none] at all
    exact ⟨rows.length + 1, pages, result, all⟩

end Walk

end Ties

section Column

variable {ρ κ γ : Type*} [LinearOrder κ] [LinearOrder γ] {key : ρ → κ} {column : ρ → γ}

/-- A page in the order of `key` whose cursor compares another column. It links to its last row,
unless `ended` says of the number of rows left that no page follows. -/
def columnPage (o : OrderBy key) (column : ρ → γ) (rows : List ρ) (ended : ℕ → Bool) (limit : ℕ)
    (after : Option γ) : Page ρ γ :=
  let left := o.sort (remaining column rows after)
  ⟨left.take limit, if ended left.length then none else (left.take limit).getLast?.map column⟩

def columnWalk (o : OrderBy key) (column : ρ → γ) (rows : List ρ) (ended : ℕ → Bool) (limit : ℕ)
    (fuel i : ℕ) (after : Option γ) : Option (List (Page ρ γ)) :=
  walk Page.next (fun _ => columnPage o column rows ended limit) fuel i after

/-- A row of this key is the last of its page, and a reader goes on from there. -/
def EndsPage (key : ρ → κ) (rows : List ρ) (ended : ℕ → Bool) (limit : ℕ) (k : κ) : Prop :=
  (limit ∣ upTo key rows k ∨ upTo key rows k = rows.length) ∧
    ended (rows.length - (upTo key rows k - 1) / limit * limit) = false

/-- The column puts behind `r` the rows that the order puts behind it. -/
def Parts (key : ρ → κ) (column : ρ → γ) (rows : List ρ) (r : ρ) : Prop :=
  ∀ q ∈ rows, key r < key q ↔ column r < column q

theorem Parts.remaining {rows : List ρ} {r : ρ} (h : Parts key column rows r) :
    remaining column rows (some (column r)) = remaining key rows (some (key r)) := by
  rw [remaining_some, remaining_some]
  apply List.filter_congr
  intro q hq
  exact decide_eq_decide.mpr (h q hq).symm

variable {o : OrderBy key} {rows : List ρ} {ended : ℕ → Bool} {limit : ℕ} {after : Option γ}
  {n : ℕ} {x : ρ}

theorem upTo_sorted (distinct : (rows.map key).Nodup) (hx : (o.sort rows)[n]? = some x) :
    upTo key rows (key x) = n + 1 := by
  obtain ⟨bound, -⟩ := List.getElem?_eq_some_iff.mp hx
  have early : ((o.sort rows).take (n + 1)).countP (fun r => decide (key r ≤ key x)) = n + 1 := by
    have all : ((o.sort rows).take (n + 1)).countP (fun r => decide (key r ≤ key x)) =
        ((o.sort rows).take (n + 1)).length := by
      rw [List.countP_eq_length]
      intro r hr
      exact decide_eq_true (take_le (o.sorted rows) hx r hr)
    rw [all, List.length_take]
    omega
  have late : ((o.sort rows).drop (n + 1)).countP (fun r => decide (key r ≤ key x)) = 0 := by
    rw [List.countP_eq_zero]
    intro r hr
    simpa using unsplit_of_strict (sort_strict o distinct) hx r hr
  rw [upTo, ← (o.perm rows).countP_eq, ← List.take_append_drop (n + 1) (o.sort rows),
    List.countP_append, early, late]

theorem sort_remaining (distinct : (rows.map key).Nodup) (hx : (o.sort rows)[n]? = some x) :
    o.sort (remaining key rows (some (key x))) = (o.sort rows).drop (n + 1) := by
  have strict := sort_strict o distinct
  have whole : o.sort (remaining key rows none) = o.sort rows := by rw [remaining_none]
  apply sort_eq
  · have := @remaining_last _ _ _ _ o rows none n x (by rwa [whole])
      (by rw [whole]; exact unsplit_of_strict strict hx)
    rwa [whole] at this
  · exact strict.drop

/-- The position `n` of the order is where the rows past the cursor start. -/
def StartsAt (o : OrderBy key) (column : ρ → γ) (rows : List ρ) (after : Option γ) (n : ℕ) : Prop :=
  o.sort (remaining column rows after) = (o.sort rows).drop n

/-- The last row of a page stands at the end of the order, or `limit` rows after its start. -/
theorem columnPage_continued (positive : 0 < limit) (start : StartsAt o column rows after n)
    {following : γ} (h : (columnPage o column rows ended limit after).next = some following) :
    ended (rows.length - n) = false ∧ ∃ j x, (o.sort rows)[j]? = some x ∧ following = column x ∧
      n ≤ j ∧ j < n + limit ∧ (o.sort rows).drop (j + 1) = (o.sort rows).drop (n + limit) ∧
        (j + 1 = n + limit ∨ j + 1 = rows.length) := by
  have total := length_sort o rows
  simp only [columnPage] at h
  rw [start, List.length_drop, total] at h
  split_ifs at h with stopped
  obtain ⟨x, last, rfl⟩ := Option.map_eq_some_iff.mp h
  refine ⟨by simpa using stopped, ?_⟩
  rw [List.getLast?_eq_getElem?, List.length_take, List.length_drop, total] at last
  set m := min limit (rows.length - n) with hm
  obtain ⟨bound, -⟩ := List.getElem?_eq_some_iff.mp last
  rw [List.length_take, List.length_drop, total] at bound
  rw [List.getElem?_take_of_lt (by omega), List.getElem?_drop] at last
  refine ⟨n + (m - 1), x, last, rfl, by omega, by omega, ?_, by omega⟩
  rcases Nat.lt_or_ge (rows.length - n) limit with short | long
  · rw [List.drop_of_length_le (by omega), List.drop_of_length_le (by omega)]
  · have : n + (m - 1) + 1 = n + limit := by omega
    rw [this]

section Walk

variable (distinct : (rows.map key).Nodup) (positive : 0 < limit)
  (stops : ∀ n, ended n = true → n ≤ limit)

include positive stops in
theorem columnPage_ended (h : (columnPage o column rows ended limit after).next = none) :
    (o.sort (remaining column rows after)).length ≤ limit := by
  simp only [columnPage] at h
  split_ifs at h with stopped
  · exact stops _ stopped
  · rw [Option.map_eq_none_iff, List.getLast?_eq_none_iff] at h
    have short := congrArg List.length h
    rw [List.length_take, List.length_nil] at short
    omega

include distinct in
theorem endsPage_iff {m j : ℕ} (hx : (o.sort rows)[j]? = some x) (lower : m * limit ≤ j)
    (upper : j < m * limit + limit) : EndsPage key rows ended limit (key x) ↔
      (j + 1 = m * limit + limit ∨ j + 1 = rows.length) ∧
        ended (rows.length - m * limit) = false := by
  have page : j / limit = m := by
    apply Nat.div_eq_of_lt_le lower
    rw [Nat.add_mul, Nat.one_mul]
    exact upper
  rw [EndsPage, upTo_sorted distinct hx, Nat.add_sub_cancel, page]
  have ends : limit ∣ j + 1 ↔ j + 1 = m * limit + limit := by
    constructor
    · rintro ⟨q, hq⟩
      have more : m < q := by
        by_contra le
        have := Nat.mul_le_mul_left limit (Nat.le_of_not_lt le)
        rw [Nat.mul_comm limit m] at this
        omega
      have := Nat.mul_le_mul_left limit more
      rw [Nat.mul_succ, Nat.mul_comm limit m] at this
      omega
    · intro h
      exact ⟨m + 1, by rw [h, Nat.mul_succ, Nat.mul_comm]⟩
  rw [ends]

include distinct positive stops in
/-- Where each row that ends a page parts the others, the walk shows the rows in their order. -/
theorem columnWalk_of_parts
    (parts : ∀ r ∈ rows, EndsPage key rows ended limit (key r) → Parts key column rows r)
    (i : ℕ) : ∃ pages, columnWalk o column rows ended limit (rows.length + 1) i none = some pages ∧
      o.sort rows = pages.flatMap Page.items := by
  have whole : o.sort (remaining column rows none) = o.sort rows := by rw [remaining_none]
  have complete := @walk_complete _ _ _ _ Page.next
    (fun _ => columnPage o column rows ended limit) Page.items Eq
    (fun after => o.sort (remaining column rows after))
    (fun after => ∃ m, StartsAt o column rows after (m * limit)) ?_ ?_ (rows.length + 1) i none
    ⟨0, by rw [StartsAt, whole, Nat.zero_mul, List.drop_zero]⟩
    (by rw [whole, length_sort]; exact Nat.lt_succ_self _)
  · rwa [whole] at complete
  · intro _ after _ stopped
    have short := columnPage_ended positive stops stopped
    exact (List.take_of_length_le short).symm
  · rintro _ after following ⟨m, start⟩ continued
    obtain ⟨goes, j, x, hx, rfl, lower, upper, rest, ends⟩ :=
      columnPage_continued positive start continued
    have member : x ∈ rows := (mem_sort o).mp (List.mem_of_getElem? hx)
    have parted := parts x member ((endsPage_iff distinct hx lower upper).mpr ⟨ends, goes⟩)
    have next : o.sort (remaining column rows (some (column x))) =
        (o.sort rows).drop (m * limit + limit) := by
      rw [parted.remaining, sort_remaining distinct hx, rest]
    obtain ⟨bound, -⟩ := List.getElem?_eq_some_iff.mp hx
    rw [length_sort] at bound
    refine ⟨⟨m + 1, ?_⟩, ?_, ?_⟩
    · rw [StartsAt, next, Nat.add_mul, Nat.one_mul]
    · rw [next, start, List.length_drop, List.length_drop, length_sort]
      omega
    · rintro seen rfl
      rw [next, ← List.drop_drop, ← start]
      exact (List.take_append_drop limit _).symm

theorem shown_remaining {fuel : ℕ} : ∀ {i after pages},
    columnWalk o column rows ended limit fuel i after = some pages →
      ∀ r ∈ pages.flatMap Page.items, r ∈ remaining column rows after := by
  induction fuel with
  | zero =>
    intro i after pages h
    simp [columnWalk, walk_zero] at h
  | succ fuel ih =>
    intro i after pages h r hr
    have page : ∀ q ∈ (columnPage o column rows ended limit after).items,
        q ∈ remaining column rows after := fun q hq =>
      (mem_sort o).mp (List.mem_of_mem_take hq)
    rw [columnWalk, walk_succ] at h
    split at h
    · cases h
      rw [List.flatMap_singleton] at hr
      exact page r hr
    · rename_i following continued
      obtain ⟨rest, result, rfl⟩ := Option.map_eq_some_iff.mp h
      rw [List.flatMap_cons, List.mem_append] at hr
      rcases hr with hr | hr
      · exact page r hr
      · obtain ⟨member, later⟩ := mem_remaining.mp (ih result r hr)
        -- the link is the column of a row that was shown
        simp only [columnPage] at continued
        split_ifs at continued with stopped
        obtain ⟨x, last, rfl⟩ := Option.map_eq_some_iff.mp continued
        have shown := page x (List.mem_of_getLast? last)
        refine mem_remaining.mpr ⟨member, fun c hc => ?_⟩
        exact lt_trans ((mem_remaining.mp shown).2 c hc) (later _ rfl)

include positive in
theorem first_shown {fuel i : ℕ} {pages : List (Page ρ γ)} {a : ρ} {left : List ρ}
    (h : columnWalk o column rows ended limit fuel i after = some pages)
    (first : o.sort (remaining column rows after) = a :: left) : a ∈ pages.flatMap Page.items := by
  have page : a ∈ (columnPage o column rows ended limit after).items := by
    obtain ⟨more, rfl⟩ : ∃ more, limit = more + 1 := ⟨limit - 1, by omega⟩
    simp only [columnPage, first, List.take_succ_cons]
    exact List.mem_cons_self
  cases fuel with
  | zero => simp [columnWalk, walk_zero] at h
  | succ fuel =>
    rw [columnWalk, walk_succ] at h
    split at h
    · cases h
      rwa [List.flatMap_singleton]
    · obtain ⟨rest, -, rfl⟩ := Option.map_eq_some_iff.mp h
      rw [List.flatMap_cons]
      exact List.mem_append_left _ page

include distinct positive in
/-- A walk that shows the rows from a position on starts there. -/
theorem startsAt_of_shown {fuel i : ℕ} {pages : List (Page ρ γ)}
    (h : columnWalk o column rows ended limit fuel i after = some pages)
    (shown : (pages.flatMap Page.items).Perm ((o.sort rows).drop n)) :
    StartsAt o column rows after n := by
  have strict := sort_strict o distinct
  have nodup : (o.sort rows).Nodup := strict.imp fun lt same => absurd (same ▸ lt) (lt_irrefl _)
  apply sort_eq o _ strict.drop
  have left : (remaining column rows after).Nodup := ((o.perm rows).nodup_iff.mp nodup).filter _
  apply (List.perm_ext_iff_of_nodup (nodup.sublist (List.drop_sublist n _)) left).mpr
  intro r
  constructor
  · intro hr
    exact shown_remaining h r (shown.mem_iff.mpr hr)
  · intro hr
    by_contra early
    cases first : o.sort (remaining column rows after) with
    | nil =>
      have := (mem_sort o).mpr hr
      rw [first] at this
      exact absurd this List.not_mem_nil
    | cons a left =>
      have late := shown.mem_iff.mp (first_shown positive h first)
      have before : key a ≤ key r := by
        have sorted := o.sorted (remaining column rows after)
        have member := (mem_sort o).mpr hr
        rw [first] at sorted member
        rcases List.mem_cons.mp member with rfl | member
        · exact le_rfl
        · exact List.rel_of_pairwise_cons sorted member
      have taken : r ∈ (o.sort rows).take n := by
        have := (mem_sort o).mpr (mem_remaining.mp hr).1
        rw [← List.take_append_drop n (o.sort rows), List.mem_append] at this
        exact this.resolve_right early
      rw [← List.take_append_drop n (o.sort rows)] at strict
      exact absurd before (not_le_of_gt ((List.pairwise_append.mp strict).2.2 r taken a late))

include distinct positive stops in
theorem parts_of_columnWalk {fuel : ℕ} : ∀ {i after pages m},
    StartsAt o column rows after (m * limit) →
      columnWalk o column rows ended limit fuel i after = some pages →
        (pages.flatMap Page.items).Perm ((o.sort rows).drop (m * limit)) →
          ∀ {k r}, (o.sort rows)[k]? = some r → m * limit ≤ k →
            EndsPage key rows ended limit (key r) → Parts key column rows r := by
  induction fuel with
  | zero =>
    intro i after pages m _ h
    simp [columnWalk, walk_zero] at h
  | succ fuel ih =>
    intro i after pages m start h shown k r hr lower ends
    obtain ⟨bound, -⟩ := List.getElem?_eq_some_iff.mp hr
    rw [length_sort] at bound
    rw [columnWalk, walk_succ] at h
    split at h
    · rename_i stopped
      have short := columnPage_ended positive stops stopped
      rw [start, List.length_drop, length_sort] at short
      have goes := ((endsPage_iff distinct hr lower (by omega)).mp ends).2
      simp only [columnPage] at stopped
      rw [start, List.length_drop, length_sort, goes, if_neg Bool.false_ne_true,
        Option.map_eq_none_iff, List.getLast?_eq_none_iff] at stopped
      have none := congrArg List.length stopped
      rw [List.length_take, List.length_drop, length_sort, List.length_nil] at none
      omega
    · rename_i following continued
      obtain ⟨rest, result, rfl⟩ := Option.map_eq_some_iff.mp h
      obtain ⟨-, j, x, hx, rfl, -, upper, dropped, last⟩ :=
        columnPage_continued positive start continued
      have page : (columnPage o column rows ended limit after).items =
          ((o.sort rows).drop (m * limit)).take limit := by
        simp only [columnPage]
        rw [start]
      have later : (rest.flatMap Page.items).Perm ((o.sort rows).drop ((m + 1) * limit)) := by
        rw [List.flatMap_cons, page] at shown
        rw [Nat.add_mul, Nat.one_mul, ← List.drop_drop]
        apply (List.perm_append_left_iff (((o.sort rows).drop (m * limit)).take limit)).mp
        rwa [List.take_append_drop]
      have resumed := startsAt_of_shown distinct positive result later
      rcases Nat.lt_or_ge k (m * limit + limit) with here | beyond
      · have same : k = j := by
          have place := ((endsPage_iff distinct hr lower here).mp ends).1
          obtain ⟨inside, -⟩ := List.getElem?_eq_some_iff.mp hx
          rw [length_sort] at inside
          omega
        subst same
        obtain rfl : r = x := Option.some.inj (hr.symm.trans hx)
        intro q hq
        have key_side : q ∈ (o.sort rows).drop (k + 1) ↔ key r < key q := by
          rw [← sort_remaining distinct hr, mem_sort, mem_remaining]
          simp [hq]
        have column_side : q ∈ (o.sort rows).drop (k + 1) ↔ column r < column q := by
          have := resumed
          rw [StartsAt, Nat.add_mul, Nat.one_mul, ← dropped] at this
          rw [← this, mem_sort, mem_remaining]
          simp [hq]
        rw [← key_side, column_side]
      · refine ih resumed result later hr ?_ ends
        rw [Nat.add_mul, Nat.one_mul]
        exact beyond

include distinct positive stops in
/-- Following the links from the start shows every row once exactly when each row that ends a
page has the same rows behind it in the order and in the column. -/
theorem columnWalk_complete_iff :
    (∃ fuel pages, columnWalk o column rows ended limit fuel 0 none = some pages ∧
      (pages.flatMap Page.items).Perm rows) ↔
        ∀ r ∈ rows, EndsPage key rows ended limit (key r) → Parts key column rows r := by
  constructor
  · rintro ⟨fuel, pages, result, all⟩ r hr ends
    have start : StartsAt o column rows none (0 * limit) := by
      rw [StartsAt, remaining_none, Nat.zero_mul, List.drop_zero]
    obtain ⟨k, hk⟩ := List.mem_iff_getElem?.mp ((mem_sort o).mpr hr)
    refine parts_of_columnWalk distinct positive stops start result ?_ hk (by omega) ends
    rw [Nat.zero_mul, List.drop_zero]
    exact all.trans (o.perm rows).symm
  · intro parts
    obtain ⟨pages, result, shown⟩ := @columnWalk_of_parts _ _ _ _ _ _ _ o _ _ _ distinct positive
      stops parts 0
    exact ⟨_, pages, result, shown ▸ o.perm rows⟩

end Walk

end Column
end Keyset
