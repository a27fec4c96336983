import BikesNest.Parking

/-! The legal texts with their placeholders. The scanner looks for the next two opening braces and
takes what stands between them and the next two closing ones for a placeholder if it is a token; a
placeholder that stands behind an opening pair without a closing one is passed over. -/

namespace PolicyText

open Parking

/-! ### Doubled braces -/

/-- The character occurs twice in a row. -/
def Paired (c : Char) (s : List Char) : Prop := [c, c] <:+: s

/-- The text before the first such pair and the text after it. -/
def splitAtPair (c : Char) : List Char → Option (List Char × List Char)
  | a :: b :: rest =>
    if a = c ∧ b = c then some ([], rest)
    else (splitAtPair c (b :: rest)).map fun p => (a :: p.1, p.2)
  | _ => none

section Pairs

variable {c d : Char} {s text after : List Char}

theorem paired_cons_cons {a b : Char} :
    Paired c (a :: b :: s) ↔ (a = c ∧ b = c) ∨ Paired c (b :: s) := by
  rw [Paired, List.infix_cons_iff, Paired, List.cons_prefix_cons, List.cons_prefix_cons]
  simp [eq_comm]

theorem not_paired_short (h : s.length < 2) : ¬ Paired c s := fun paired => by
  have := paired.length_le
  simp at this
  omega

theorem paired_append (before after : List Char) : Paired c (before ++ c :: c :: after) :=
  ⟨before, after, by simp⟩

theorem length_lt_two (short : ∀ a b rest, s = a :: b :: rest → False) : s.length < 2 := by
  match s, short with
  | [], _ => decide
  | [_], _ => exact Nat.one_lt_two
  | a :: b :: rest, short => exact (short a b rest rfl).elim

theorem splitAtPair_none : splitAtPair c s = none ↔ ¬ Paired c s := by
  fun_induction splitAtPair c s with
  | case1 a b rest here => simp [paired_cons_cons, here]
  | case2 a b rest here ih =>
    rw [Option.map_eq_none_iff, ih, paired_cons_cons]
    simp [here]
  | case3 s short => simp [not_paired_short (length_lt_two short)]

/-- The pair that is found is the first one. -/
theorem splitAtPair_some : splitAtPair c s = some (text, after) ↔
    s = text ++ c :: c :: after ∧ ¬ Paired c (text ++ [c]) := by
  fun_induction splitAtPair c s generalizing text after with
  | case1 a b rest here =>
    obtain ⟨rfl, rfl⟩ := here
    match text with
    | [] => simp [not_paired_short]
    | [x] =>
      constructor
      · simp
      · rintro ⟨eq, first⟩
        obtain rfl := (List.cons.inj eq).1
        exact absurd ⟨[], [], rfl⟩ first
    | x :: y :: text =>
      constructor
      · simp
      · rintro ⟨eq, first⟩
        simp only [List.cons_append, List.cons.injEq] at eq
        obtain ⟨rfl, rfl, -⟩ := eq
        exact absurd (paired_cons_cons.mpr (.inl ⟨rfl, rfl⟩)) first
  | case2 a b rest here ih =>
    simp only [Option.map_eq_some_iff, Prod.exists, Prod.mk.injEq, ih]
    constructor
    · rintro ⟨t, _, ⟨eq, first⟩, rfl, rfl⟩
      refine ⟨by rw [eq, List.cons_append], ?_⟩
      match t, eq with
      | [], eq =>
        obtain rfl := (List.cons.inj eq).1
        simpa [paired_cons_cons, not_paired_short] using here
      | _ :: t, eq =>
        obtain rfl := (List.cons.inj eq).1
        rw [List.cons_append, List.cons_append, paired_cons_cons]
        exact fun paired => paired.elim here first
    · rintro ⟨eq, first⟩
      match text, eq with
      | [], eq =>
        simp only [List.nil_append, List.cons.injEq] at eq
        exact absurd ⟨eq.1, eq.2.1⟩ here
      | x :: t, eq =>
        obtain ⟨rfl, tail⟩ := List.cons.inj eq
        refine ⟨t, after, ⟨tail, fun paired => first ?_⟩, rfl, rfl⟩
        exact paired.trans (List.suffix_cons _ _).isInfix
  | case3 s short =>
    have := length_lt_two short
    constructor
    · simp
    · rintro ⟨rfl, -⟩
      simp at this
      omega

/-- Two ways to the first pair are the same. -/
theorem first_pair_unique {text' after' : List Char}
    (eq : text ++ c :: c :: after = text' ++ c :: c :: after') (first : ¬ Paired c (text ++ [c]))
    (first' : ¬ Paired c (text' ++ [c])) : text = text' ∧ after = after' := by
  have here := splitAtPair_some.mpr ⟨eq, first'⟩
  rw [splitAtPair_some.mpr ⟨rfl, first⟩] at here
  exact Prod.mk.inj (Option.some.inj here)

/-- Another character keeps the two sides apart. -/
theorem paired_append_cons (other : d ≠ c) {after : List Char} :
    Paired c (text ++ d :: after) ↔ Paired c text ∨ Paired c after := by
  constructor
  · rintro ⟨u, v, eq⟩
    rw [List.append_assoc, List.append_eq_append_iff] at eq
    rcases eq with ⟨mid, rfl, eq⟩ | ⟨mid, rfl, eq⟩
    · match mid, eq with
      | [], eq => simp [other.symm] at eq
      | [x], eq => simp [other.symm] at eq
      | x :: y :: mid, eq =>
        simp only [List.cons_append, List.nil_append, List.cons.injEq] at eq
        obtain ⟨rfl, rfl, -⟩ := eq
        exact .inl (paired_append u mid)
    · match mid, eq with
      | [], eq => simp [other] at eq
      | x :: mid, eq =>
        obtain ⟨-, rfl⟩ := List.cons.inj eq
        exact .inr ⟨mid, v, by simp⟩
  · rintro (left | right)
    · exact left.trans (List.prefix_append _ _).isInfix
    · exact right.trans ((List.suffix_cons _ _).trans (List.suffix_append _ _)).isInfix

theorem not_paired_of_not_mem (absent : c ∉ s) : ¬ Paired c (s ++ [c]) := by
  induction s with
  | nil => exact not_paired_short Nat.one_lt_two
  | cons x s ih =>
    obtain ⟨other, absent⟩ : c ≠ x ∧ c ∉ s := by simpa using absent
    obtain ⟨y, rest, eq⟩ := List.exists_cons_of_ne_nil (List.concat_ne_nil c s)
    rw [List.cons_append, eq, paired_cons_cons, ← eq]
    rintro (⟨same, -⟩ | paired)
    · exact other same.symm
    · exact ih absent paired

/-- A pair that is followed later by another is the first one, or the first one comes before. -/
theorem pair_place {before rest : List Char} (first : ¬ Paired c (text ++ [c]))
    (eq : text ++ c :: c :: after = before ++ c :: c :: rest) :
    (before = text ∧ rest = after) ∨
      ∃ v, before ++ [c] = text ++ c :: c :: v ∧ after = v ++ c :: rest := by
  cases earlier : splitAtPair c (before ++ [c]) with
  | none =>
    have unpaired := splitAtPair_none.mp earlier
    obtain ⟨rfl, rfl⟩ := first_pair_unique eq first unpaired
    exact .inl ⟨rfl, rfl⟩
  | some split =>
    obtain ⟨u, v⟩ := split
    obtain ⟨split, unpaired⟩ := splitAtPair_some.mp earlier
    have whole : before ++ c :: c :: rest = u ++ c :: c :: (v ++ c :: rest) := by
      have := congrArg (· ++ c :: rest) split
      simpa using this
    obtain ⟨rfl, rfl⟩ := first_pair_unique (eq.trans whole) first unpaired
    exact .inr ⟨v, split, rfl⟩

end Pairs

/-! ### The scanner -/

def isToken (t : String) : Bool :=
  decide (t ≠ "") && t.toList.all fun c => c.isUpper || c.isDigit || decide (c = '_')

/-- Two opening braces, the text and two closing ones. -/
def braced (inner : List Char) : List Char := '{' :: '{' :: (inner ++ ['}', '}'])

/-- The next two opening braces and the two closing ones behind them: what stands before, between
and after. -/
def nextGroup (rest : List Char) : Option (List Char × List Char × List Char) := do
  let (text, after) ← splitAtPair '{' rest
  let (inner, tail) ← splitAtPair '}' after
  pure (text, inner, tail)

theorem nextGroup_some {rest text inner tail : List Char} :
    nextGroup rest = some (text, inner, tail) ↔ rest = text ++ braced inner ++ tail ∧
      ¬ Paired '{' (text ++ ['{']) ∧ ¬ Paired '}' (inner ++ ['}']) := by
  simp only [nextGroup, Option.bind_eq_bind, Option.pure_def, Option.bind_eq_some_iff,
    Option.some.injEq, Prod.exists, splitAtPair_some, Prod.mk.injEq]
  constructor
  · rintro ⟨_, _, ⟨rfl, opens⟩, _, _, ⟨rfl, closes⟩, rfl, rfl, rfl⟩
    exact ⟨by simp [braced], opens, closes⟩
  · rintro ⟨rfl, opens, closes⟩
    exact ⟨text, inner ++ '}' :: '}' :: tail, ⟨by simp [braced], opens⟩, inner, tail,
      ⟨rfl, closes⟩, rfl, rfl, rfl⟩

theorem nextGroup_length {rest text inner tail : List Char}
    (h : nextGroup rest = some (text, inner, tail)) : tail.length < rest.length := by
  obtain ⟨rfl, -, -⟩ := nextGroup_some.mp h
  simp [braced]
  omega

section Fill

variable (lookup : String → Option String)

def finish (out : List Char) (missing : List String) : Except (List String) String :=
  if missing = [] then .ok (String.ofList out) else .error missing

/-- The loop of `fill_policy_placeholders`. Without another group the rest is copied. -/
def fillFrom (out : List Char) (missing : List String) (rest : List Char) :
    Except (List String) String :=
  match group : nextGroup rest with
  | none => finish (out ++ rest) missing
  | some (text, inner, tail) =>
    have := nextGroup_length group
    let token := trim (String.ofList inner)
    if isToken token then
      match lookup token with
      | some value => fillFrom (out ++ text ++ value.toList) missing tail
      | none =>
        fillFrom (out ++ text) (if token ∈ missing then missing else missing ++ [token]) tail
    else fillFrom (out ++ text ++ braced inner) missing tail
termination_by rest.length

def fillPolicyPlaceholders (content : String) : Except (List String) String :=
  fillFrom lookup [] [] content.toList

end Fill

/-- A document as the scanner cuts it: text that is copied, and placeholders. -/
inductive Piece where
  | text (s : List Char)
  | slot (inner : List Char)

def Piece.raw : Piece → List Char
  | .text s => s
  | .slot inner => braced inner

def Piece.token? : Piece → Option String
  | .text _ => none
  | .slot inner => some (trim (String.ofList inner))

def pieces (rest : List Char) : List Piece :=
  match group : nextGroup rest with
  | none => [.text rest]
  | some (text, inner, tail) =>
    have := nextGroup_length group
    .text text ::
      (if isToken (trim (String.ofList inner)) then .slot inner else .text (braced inner)) ::
      pieces tail
termination_by rest.length

/-- The text of a piece once the values are in, each character with whether it is from a value. -/
def Piece.marked (lookup : String → Option String) : Piece → List (Char × Bool)
  | .text s => s.map (·, false)
  | .slot inner => ((lookup (trim (String.ofList inner))).elim [] String.toList).map (·, true)

def marked (lookup : String → Option String) (doc : List Char) : List (Char × Bool) :=
  (pieces doc).flatMap (Piece.marked lookup)

def slotTokens (doc : List Char) : List String := (pieces doc).filterMap Piece.token?

/-- The tokens that are not found, each at its first place. -/
def unresolved (lookup : String → Option String) (missing tokens : List String) : List String :=
  tokens.foldl (fun missing token =>
    if lookup token = none ∧ token ∉ missing then missing ++ [token] else missing) missing

section Scan

variable {lookup : String → Option String} {rest text inner tail : List Char}

theorem pieces_none (last : nextGroup rest = none) : pieces rest = [.text rest] := by
  rw [pieces]
  split
  · rfl
  · simp_all

theorem pieces_some (group : nextGroup rest = some (text, inner, tail)) :
    pieces rest = .text text ::
      (if isToken (trim (String.ofList inner)) then .slot inner else .text (braced inner)) ::
      pieces tail := by
  rw [pieces]
  split
  · simp_all
  · rename_i group'
    rw [group] at group'
    simp only [Option.some.injEq, Prod.mk.injEq] at group'
    obtain ⟨rfl, rfl, rfl⟩ := group'
    rfl

theorem marked_none (last : nextGroup rest = none) : marked lookup rest = rest.map (·, false) := by
  simp [marked, pieces_none last, Piece.marked]

theorem marked_slot (group : nextGroup rest = some (text, inner, tail))
    (token : isToken (trim (String.ofList inner)) = true) :
    marked lookup rest = text.map (·, false) ++
      (((lookup (trim (String.ofList inner))).elim [] String.toList).map (·, true) ++
        marked lookup tail) := by
  simp [marked, pieces_some group, token, Piece.marked]

theorem marked_other (group : nextGroup rest = some (text, inner, tail))
    (token : isToken (trim (String.ofList inner)) = false) :
    marked lookup rest = (text ++ braced inner).map (·, false) ++ marked lookup tail := by
  simp [marked, pieces_some group, token, Piece.marked]

theorem slotTokens_none (last : nextGroup rest = none) : slotTokens rest = [] := by
  simp [slotTokens, pieces_none last, Piece.token?]

theorem slotTokens_some (group : nextGroup rest = some (text, inner, tail)) :
    slotTokens rest = (if isToken (trim (String.ofList inner)) then
      [trim (String.ofList inner)] else []) ++ slotTokens tail := by
  cases token : isToken (trim (String.ofList inner)) <;>
    simp [slotTokens, pieces_some group, token, List.filterMap_cons, Piece.token?]

theorem unresolved_cons (missing : List String) (token : String) (tokens : List String) :
    unresolved lookup missing (token :: tokens) = unresolved lookup
      (if lookup token = none ∧ token ∉ missing then missing ++ [token] else missing) tokens := rfl

/-- The loop copies the text, puts in the values and collects the tokens without one. -/
theorem fillFrom_eq (out : List Char) (missing : List String) :
    fillFrom lookup out missing rest =
      finish (out ++ (marked lookup rest).map Prod.fst)
        (unresolved lookup missing (slotTokens rest)) := by
  fun_induction fillFrom lookup out missing rest with
  | case1 out missing rest last =>
    rw [marked_none last, slotTokens_none last]
    simp [unresolved, Function.comp_def]
  | case2 out missing rest text inner tail group shorter token isTok value found ih =>
    have known : ¬ (lookup token = none ∧ token ∉ missing) := by simp [found]
    rw [ih, marked_slot group isTok, slotTokens_some group, if_pos isTok, List.singleton_append,
      unresolved_cons, if_neg known, found]
    simp [Function.comp_def]
  | case3 out missing rest text inner tail group shorter token isTok found ih =>
    have added : (if lookup token = none ∧ token ∉ missing then missing ++ [token] else missing) =
        if token ∈ missing then missing else missing ++ [token] := by
      by_cases known : token ∈ missing <;> simp [found, known]
    simp only [dite_eq_ite] at ih
    rw [ih, marked_slot group isTok, slotTokens_some group, if_pos isTok, List.singleton_append,
      unresolved_cons, added, found]
    simp [Function.comp_def]
  | case4 out missing rest text inner tail group shorter token isTok ih =>
    rw [ih, marked_other group (by simpa using isTok), slotTokens_some group, if_neg isTok]
    simp [Function.comp_def]

theorem mem_unresolved {missing tokens : List String} {t : String} :
    t ∈ unresolved lookup missing tokens ↔ t ∈ missing ∨ t ∈ tokens ∧ lookup t = none := by
  induction tokens generalizing missing with
  | nil => simp [unresolved]
  | cons token tokens ih =>
    rw [unresolved_cons, ih, List.mem_cons]
    by_cases added : lookup token = none ∧ token ∉ missing
    · rw [if_pos added, List.mem_append, List.mem_singleton]
      constructor
      · rintro ((old | rfl) | later)
        · exact .inl old
        · exact .inr ⟨.inl rfl, added.1⟩
        · exact .inr ⟨.inr later.1, later.2⟩
      · rintro (old | ⟨rfl | later, unknown⟩)
        · exact .inl (.inl old)
        · exact .inl (.inr rfl)
        · exact .inr ⟨later, unknown⟩
    · rw [if_neg added]
      constructor
      · rintro (old | later)
        · exact .inl old
        · exact .inr ⟨.inr later.1, later.2⟩
      · rintro (old | ⟨rfl | later, unknown⟩)
        · exact .inl old
        · exact .inl (by_contra fun fresh => added ⟨unknown, fresh⟩)
        · exact .inr ⟨later, unknown⟩

theorem unresolved_nodup {missing tokens : List String} (distinct : missing.Nodup) :
    (unresolved lookup missing tokens).Nodup := by
  induction tokens generalizing missing with
  | nil => exact distinct
  | cons token tokens ih =>
    rw [unresolved_cons]
    apply ih
    split
    · rename_i fresh
      exact List.nodup_append.mpr ⟨distinct, List.nodup_singleton _, fun a ha b hb => by
        rintro rfl
        exact fresh.2 (List.mem_singleton.mp hb ▸ ha)⟩
    · exact distinct

end Scan

/-! ### Placeholders of a text -/

def Placeholder (token : String) (s : List Char) : Prop :=
  isToken token = true ∧ ∃ inner, s = braced inner ∧ trim (String.ofList inner) = token

/-- The text has an opening pair of braces, be it with the brace that comes next, and no closing
pair behind it. -/
def Unclosed (before : List Char) : Prop :=
  ∃ a b, before ++ ['{'] = a ++ '{' :: '{' :: b ∧ ¬ Paired '}' b

/-- A placeholder stands in the document where no pair of braces is open. -/
def Reached (doc : List Char) (token : String) : Prop :=
  ∃ before h after, doc = before ++ h ++ after ∧ Placeholder token h ∧ ¬ Unclosed before

/-- A placeholder stands in the document behind an opening pair that is not closed by then. -/
def PassedOver (doc : List Char) (token : String) : Prop :=
  ∃ before h after, doc = before ++ h ++ after ∧ Placeholder token h ∧ Unclosed before

/-- Once the values are in, a placeholder has a character from one of them. -/
def Formed (lookup : String → Option String) (doc : List Char) : Prop :=
  ∃ token before h after, marked lookup doc = before ++ h ++ after ∧
    Placeholder token (h.map Prod.fst) ∧ ∃ c ∈ h, c.2 = true

section Places

variable {lookup : String → Option String} {text inner tail before core after : List Char}
  {token : String}

theorem mem_trim {s : String} {c : Char} (h : c ∈ s.toList) (visible : isWhitespace c = false) :
    c ∈ (trim s).toList := by
  have kept : ∀ l : List Char, c ∈ l → c ∈ l.dropWhile isWhitespace := by
    intro l hl
    rw [← List.takeWhile_append_dropWhile (p := isWhitespace) (l := l), List.mem_append] at hl
    rcases hl with blank | hl
    · rw [List.mem_takeWhile_imp blank] at visible
      cases visible
    · exact hl
  rw [trim, String.toList_ofList, List.rdropWhile, List.mem_reverse]
  exact kept _ (List.mem_reverse.mpr (kept _ h))

theorem token_plain (tok : isToken (trim (String.ofList core)) = true) :
    '{' ∉ core ∧ '}' ∉ core := by
  have plain : ∀ c ∈ core, isWhitespace c = false → c.isUpper || c.isDigit || decide (c = '_') := by
    intro c hc visible
    rw [isToken, Bool.and_eq_true, List.all_eq_true] at tok
    exact tok.2 c (mem_trim (by simpa using hc) visible)
  exact ⟨fun h => absurd (plain _ h (by decide)) (by decide),
    fun h => absurd (plain _ h (by decide)) (by decide)⟩

theorem nextGroup_none (last : nextGroup (before ++ braced core ++ after) = none) : False := by
  cases first : splitAtPair '{' (before ++ braced core ++ after) with
  | none =>
    refine splitAtPair_none.mp first ⟨before, core ++ ['}', '}'] ++ after, ?_⟩
    simp [braced]
  | some split =>
    obtain ⟨text, rest⟩ := split
    obtain ⟨eq, opens⟩ := splitAtPair_some.mp first
    have closed : Paired '}' rest := by
      have place : text ++ '{' :: '{' :: rest =
          before ++ '{' :: '{' :: (core ++ '}' :: '}' :: after) := by
        rw [← eq]
        simp [braced]
      rcases pair_place opens place with ⟨-, rfl⟩ | ⟨v, -, rfl⟩
      · exact paired_append core after
      · have := paired_append (c := '}') (v ++ '{' :: core) after
        simpa using this
    cases second : splitAtPair '}' rest with
    | none => exact splitAtPair_none.mp second closed
    | some split =>
      rw [nextGroup, first, Option.bind_eq_bind, Option.bind_some] at last
      simp [second] at last

/-- A placeholder of a text is the first group, stands within it, or comes after it. -/
theorem hole_place (opens : ¬ Paired '{' (text ++ ['{'])) (closes : ¬ Paired '}' (inner ++ ['}']))
    (plain : '}' ∉ core) (eq : text ++ braced inner ++ tail = before ++ braced core ++ after) :
    (before = text ∧ core = inner ∧ after = tail) ∨
    (∃ v, before ++ ['{'] = text ++ '{' :: '{' :: v ∧ ¬ Paired '}' v ∧ inner = v ++ '{' :: core ∧
      after = tail) ∨
    ∃ before', before = text ++ braced inner ++ before' ∧
      tail = before' ++ braced core ++ after := by
  have place : text ++ '{' :: '{' :: (inner ++ '}' :: '}' :: tail) =
      before ++ '{' :: '{' :: (core ++ '}' :: '}' :: after) := by
    simpa [braced] using eq
  rcases pair_place opens place with ⟨rfl, rest⟩ | ⟨v, within, rest⟩
  · obtain ⟨rfl, rfl⟩ := first_pair_unique rest (not_paired_of_not_mem plain) closes
    exact .inl ⟨rfl, rfl, rfl⟩
  · right
    cases closed : splitAtPair '}' v with
    | none =>
      left
      have unpaired := splitAtPair_none.mp closed
      have first : ¬ Paired '}' ((v ++ '{' :: core) ++ ['}']) := by
        rw [List.append_assoc, List.cons_append, paired_append_cons (by decide)]
        exact not_or_intro unpaired (not_paired_of_not_mem plain)
      have split : inner ++ '}' :: '}' :: tail = (v ++ '{' :: core) ++ '}' :: '}' :: after := by
        rw [rest]
        simp
      obtain ⟨rfl, rfl⟩ := first_pair_unique split closes first
      exact ⟨v, within, unpaired, rfl, rfl⟩
    | some split =>
      right
      obtain ⟨u, w⟩ := split
      obtain ⟨rfl, first⟩ := splitAtPair_some.mp closed
      have split : inner ++ '}' :: '}' :: tail =
          u ++ '}' :: '}' :: (w ++ '{' :: (core ++ '}' :: '}' :: after)) := by
        rw [rest]
        simp
      obtain ⟨rfl, rfl⟩ := first_pair_unique split closes first
      rcases List.eq_nil_or_concat w with rfl | ⟨w, x, rfl⟩
      · have whole : before ++ ['{'] = (text ++ '{' :: '{' :: (inner ++ ['}'])) ++ ['}'] := by
          rw [within]
          simp
        have same := (List.append_inj' whole rfl).2
        simp at same
      · have whole : before ++ ['{'] = (text ++ braced inner ++ w) ++ [x] := by
          rw [within]
          simp [braced]
        obtain ⟨rfl, same⟩ := List.append_inj' whole rfl
        obtain rfl : '{' = x := by simpa using same
        exact ⟨w, rfl, by simp [braced]⟩

/-- A closing pair closes what stands before it. -/
theorem open_after {a b : List Char} (unpaired : ¬ Paired '}' b)
    (eq : text ++ '}' :: '}' :: tail = a ++ '{' :: '{' :: b) :
    ∃ a', tail = a' ++ '{' :: '{' :: b := by
  induction text generalizing a with
  | nil =>
    match a, eq with
    | [], eq => simp at eq
    | [_], eq => simp at eq
    | _ :: _ :: a', eq =>
      simp only [List.nil_append, List.cons_append, List.cons.injEq] at eq
      exact ⟨a', eq.2.2⟩
  | cons x text ih =>
    match a, eq with
    | [], eq =>
      obtain ⟨-, rest⟩ := List.cons.inj eq
      match text, rest with
      | [], rest => simp at rest
      | _ :: text, rest =>
        obtain ⟨-, rfl⟩ := List.cons.inj rest
        exact absurd (paired_append text tail) unpaired
    | _ :: a, eq => exact ih (List.cons.inj eq).2

theorem unclosed_after : Unclosed (text ++ braced inner ++ before) ↔ Unclosed before := by
  constructor
  · rintro ⟨a, b, eq, unpaired⟩
    have split : (text ++ '{' :: '{' :: inner) ++ '}' :: '}' :: (before ++ ['{']) =
        a ++ '{' :: '{' :: b := by
      rw [← eq]
      simp [braced]
    obtain ⟨a', rest⟩ := open_after unpaired split
    exact ⟨a', b, rest, unpaired⟩
  · rintro ⟨a, b, eq, unpaired⟩
    exact ⟨text ++ braced inner ++ a, b, by rw [List.append_assoc, eq]; simp, unpaired⟩

end Places

section Documents

variable {lookup : String → Option String} {doc : List Char} {token : String}

/-- The placeholders that the scanner takes are those that stand where no braces are open. -/
theorem mem_slotTokens : token ∈ slotTokens doc ↔ Reached doc token := by
  induction doc using pieces.induct with
  | case1 doc last =>
    rw [slotTokens_none last]
    constructor
    · simp
    · rintro ⟨before, _, after, rfl, ⟨-, inner, rfl, -⟩, -⟩
      exact (nextGroup_none last).elim
  | case2 doc text inner tail group shorter ih =>
    obtain ⟨rfl, opens, closes⟩ := nextGroup_some.mp group
    rw [slotTokens_some group, List.mem_append, ih]
    constructor
    · rintro (here | ⟨before, h, after, rfl, placeholder, clear⟩)
      · split at here
        · rename_i tok
          obtain rfl := List.mem_singleton.mp here
          refine ⟨text, _, tail, rfl, ⟨tok, inner, rfl, rfl⟩, ?_⟩
          rintro ⟨a, b, eq, -⟩
          exact opens (eq ▸ paired_append a b)
        · simp at here
      · refine ⟨text ++ braced inner ++ before, h, after, by simp, placeholder, ?_⟩
        rwa [unclosed_after]
    · rintro ⟨before, _, after, eq, ⟨tok, core, rfl, rfl⟩, clear⟩
      rcases hole_place opens closes (token_plain tok).2 eq with
        ⟨rfl, rfl, rfl⟩ | ⟨v, within, unpaired, -⟩ | ⟨before', rfl, rfl⟩
      · left
        simp [tok]
      · exact absurd ⟨text, v, within, unpaired⟩ clear
      · rw [unclosed_after] at clear
        exact .inr ⟨before', _, after, rfl, ⟨tok, core, rfl, rfl⟩, clear⟩

/-- What is passed over is copied. -/
theorem passedOver_copied {before h after : List Char} (place : doc = before ++ h ++ after)
    (placeholder : Placeholder token h) (unclosed : Unclosed before) :
    h <:+: (marked lookup doc).map Prod.fst := by
  induction doc using pieces.induct generalizing before with
  | case1 doc last =>
    obtain ⟨-, core, rfl, -⟩ := placeholder
    subst place
    exact (nextGroup_none last).elim
  | case2 doc text inner tail group shorter ih =>
    obtain ⟨rfl, opens, closes⟩ := nextGroup_some.mp group
    obtain ⟨tok, core, rfl, rfl⟩ := placeholder
    rcases hole_place opens closes (token_plain tok).2 place with
      ⟨rfl, -, -⟩ | ⟨v, within, -, rfl, rfl⟩ | ⟨before', rfl, rfl⟩
    · obtain ⟨a, b, eq, -⟩ := unclosed
      exact absurd (eq ▸ paired_append a b) opens
    · have inside : '{' ∈ v ++ '{' :: core := List.mem_append_right v List.mem_cons_self
      have other : isToken (trim (String.ofList (v ++ '{' :: core))) = false :=
        Bool.eq_false_iff.mpr fun tok' => (token_plain tok').1 inside
      rw [marked_other group other]
      have copied : text ++ braced (v ++ '{' :: core) = before ++ braced core := by
        have := congrArg (· ++ '{' :: (core ++ ['}', '}'])) within
        simpa [braced] using this.symm
      rw [copied]
      refine ⟨before, (marked lookup after).map Prod.fst, ?_⟩
      simp [Function.comp_def]
    · have rest := ih rfl (unclosed_after.mp unclosed)
      cases other : isToken (trim (String.ofList inner)) with
      | true =>
        rw [marked_slot group other, List.map_append, List.map_append]
        exact rest.trans ((List.suffix_append _ _).trans (List.suffix_append _ _)).isInfix
      | false =>
        rw [marked_other group other, List.map_append]
        exact rest.trans (List.suffix_append _ _).isInfix

theorem braced_start {core : List Char} {h : List (Char × Bool)}
    (eq : h.map Prod.fst = braced core) :
    ∃ p q h', h = p :: q :: h' ∧ p.1 = '{' ∧ q.1 = '{' := by
  obtain ⟨p, h, rfl, open₁, eq⟩ := List.map_eq_cons_iff.mp eq
  obtain ⟨q, h, rfl, open₂, -⟩ := List.map_eq_cons_iff.mp eq
  exact ⟨p, q, h, rfl, open₁, open₂⟩

/-- A placeholder of the result with no character from a value was passed over. -/
theorem copied_passedOver {before h after : List (Char × Bool)}
    (place : marked lookup doc = before ++ (h ++ after))
    (placeholder : Placeholder token (h.map Prod.fst)) (copied : ∀ c ∈ h, c.2 = false) :
    PassedOver doc token := by
  induction doc using pieces.induct generalizing before with
  | case1 doc last =>
    rw [marked_none last] at place
    obtain ⟨-, core, eq, -⟩ := placeholder
    have whole := congrArg (List.map Prod.fst) place
    rw [List.map_append, List.map_append, eq, List.map_map] at whole
    simp only [Function.comp_def, List.map_id'] at whole
    rw [whole, ← List.append_assoc] at last
    exact (nextGroup_none last).elim
  | case2 doc text inner tail group shorter ih =>
    obtain ⟨rfl, opens, closes⟩ := nextGroup_some.mp group
    have later : (∃ before', marked lookup tail = before' ++ (h ++ after)) →
        PassedOver (text ++ braced inner ++ tail) token := by
      rintro ⟨before', place'⟩
      obtain ⟨front, core, back, rfl, placeholder, unclosed⟩ := ih place'
      exact ⟨text ++ braced inner ++ front, core, back, by simp, placeholder,
        unclosed_after.mpr unclosed⟩
    obtain ⟨tok, core, eq, named⟩ := placeholder
    cases slot : isToken (trim (String.ofList inner)) with
    | true =>
      rw [marked_slot group slot] at place
      obtain ⟨p, q, h', rfl, open₁, open₂⟩ := braced_start eq
      have values : ∀ c ∈ ((lookup (trim (String.ofList inner))).elim [] String.toList).map
          (·, true), c.2 = true := by
        simp
      generalize ((lookup (trim (String.ofList inner))).elim [] String.toList).map (·, true) =
        value at place values
      have behind : ∀ front, value ++ marked lookup tail = front ++ (p :: q :: h' ++ after) →
          ∃ before', marked lookup tail = before' ++ (p :: q :: h' ++ after) := by
        intro front rest
        rcases List.append_eq_append_iff.mp rest with ⟨mid, -, rest⟩ | ⟨mid, inValue, rest⟩
        · exact ⟨mid, rest⟩
        · match mid, inValue, rest with
          | [], _, rest => exact ⟨[], rest.symm⟩
          | x :: mid, inValue, rest =>
            obtain ⟨rfl, -⟩ := List.cons.inj rest
            have fromValue := values p (by simp [inValue])
            rw [copied p List.mem_cons_self] at fromValue
            cases fromValue
      apply later
      rcases List.append_eq_append_iff.mp place with ⟨mid, -, rest⟩ | ⟨mid, inText, rest⟩
      · exact behind mid rest
      · have fst := congrArg (List.map Prod.fst) inText
        simp only [List.map_map, Function.comp_def, List.map_id', List.map_append] at fst
        match mid, fst, rest with
        | [], _, rest => exact behind [] rest.symm
        | [x], fst, rest =>
          obtain ⟨rfl, -⟩ := List.cons.inj rest
          refine absurd ?_ opens
          rw [fst, List.map_singleton, open₁, List.append_assoc]
          exact paired_append _ []
        | x :: y :: mid, fst, rest =>
          simp only [List.cons_append, List.cons.injEq] at rest
          obtain ⟨rfl, rfl, -⟩ := rest
          refine absurd ?_ opens
          rw [fst, List.map_cons, List.map_cons, open₁, open₂, List.append_assoc]
          exact paired_append _ _
    | false =>
      rw [marked_other group slot] at place
      have whole : text ++ braced inner ++ (marked lookup tail).map Prod.fst =
          before.map Prod.fst ++ braced core ++ after.map Prod.fst := by
        have := congrArg (List.map Prod.fst) place
        simpa [eq, Function.comp_def] using this
      subst named
      rcases hole_place opens closes (token_plain tok).2 whole with
        ⟨-, rfl, -⟩ | ⟨v, within, unpaired, rfl, -⟩ | ⟨before', front, -⟩
      · rw [slot] at tok
        cases tok
      · refine ⟨before.map Prod.fst, braced core, tail, ?_, ⟨tok, core, rfl, rfl⟩, text, v, within,
          unpaired⟩
        have := congrArg (· ++ '{' :: (core ++ '}' :: '}' :: tail)) within
        simpa [braced] using this.symm
      · apply later
        rcases List.append_eq_append_iff.mp place with ⟨mid, rfl, rest⟩ | ⟨mid, all, rest⟩
        · exact ⟨mid, rest⟩
        · have long := congrArg List.length all
          have longer := congrArg List.length front
          simp only [List.length_map, List.length_append] at long longer
          obtain rfl : mid = [] := List.length_eq_zero_iff.mp (by omega)
          exact ⟨[], rest.symm⟩

end Documents

/-- The result is the document with values in place of some placeholders, their tokens known. -/
def Kept (lookup : String → Option String) (doc out : List Char) : Prop :=
  ∃ ps : List Piece, doc = ps.flatMap Piece.raw ∧
    out = (ps.flatMap (Piece.marked lookup)).map Prod.fst ∧
    ∀ inner, Piece.slot inner ∈ ps → isToken (trim (String.ofList inner)) = true ∧
      lookup (trim (String.ofList inner)) ≠ none

/-- A filled document has no placeholder and all the text of the original; an unfilled one is
refused with the tokens of its placeholders that are not known, each of them once. -/
def Filled (lookup : String → Option String) (content : String) : Prop :=
  match fillPolicyPlaceholders lookup content with
  | .ok out => (∀ token h, Placeholder token h → ¬ h <:+: out.toList) ∧
      Kept lookup content.toList out.toList
  | .error missing => missing.Nodup ∧ ∀ token, token ∈ missing ↔
      (∃ h, Placeholder token h ∧ h <:+: content.toList) ∧ lookup token = none

theorem pieces_raw (doc : List Char) : (pieces doc).flatMap Piece.raw = doc := by
  induction doc using pieces.induct with
  | case1 doc last => simp [pieces_none last, Piece.raw]
  | case2 doc text inner tail group shorter ih =>
    obtain ⟨eq, -, -⟩ := nextGroup_some.mp group
    rw [pieces_some group, List.flatMap_cons, List.flatMap_cons, ih, eq]
    cases isToken (trim (String.ofList inner)) <;> simp [Piece.raw]

theorem slot_token {doc inner : List Char} (slot : Piece.slot inner ∈ pieces doc) :
    isToken (trim (String.ofList inner)) = true ∧ trim (String.ofList inner) ∈ slotTokens doc := by
  refine ⟨?_, List.mem_filterMap.mpr ⟨_, slot, rfl⟩⟩
  induction doc using pieces.induct with
  | case1 doc last => simp [pieces_none last] at slot
  | case2 doc text core tail group shorter ih =>
    rw [pieces_some group, List.mem_cons, List.mem_cons] at slot
    rcases slot with slot | slot | slot
    · cases slot
    · split at slot
      · obtain rfl := Piece.slot.inj slot
        assumption
      · cases slot
    · exact ih slot

/-- A placeholder stands in the document where it is reached or where it is passed over. -/
theorem placeholder_of_doc {doc : List Char} {token : String} :
    (∃ h, Placeholder token h ∧ h <:+: doc) ↔ Reached doc token ∨ PassedOver doc token := by
  constructor
  · rintro ⟨h, placeholder, before, after, rfl⟩
    by_cases unclosed : Unclosed before
    · exact .inr ⟨before, h, after, rfl, placeholder, unclosed⟩
    · exact .inl ⟨before, h, after, rfl, placeholder, unclosed⟩
  · rintro (⟨before, h, after, rfl, placeholder, -⟩ | ⟨before, h, after, rfl, placeholder, -⟩) <;>
      exact ⟨h, placeholder, before, after, rfl⟩

theorem placeholder_of_result {lookup : String → Option String} {doc : List Char} :
    (∃ token h, Placeholder token h ∧ h <:+: (marked lookup doc).map Prod.fst) ↔
      (∃ token, PassedOver doc token) ∨ Formed lookup doc := by
  constructor
  · rintro ⟨token, _, placeholder, front, back, eq⟩
    obtain ⟨rest, after, place, eq, -⟩ := List.map_eq_append_iff.mp eq.symm
    obtain ⟨before, h, rfl, -, rfl⟩ := List.map_eq_append_iff.mp eq
    by_cases formed : ∃ c ∈ h, c.2 = true
    · exact .inr ⟨token, before, h, after, place, placeholder, formed⟩
    · refine .inl ⟨token, copied_passedOver (by rw [place, List.append_assoc]) placeholder ?_⟩
      intro c hc
      exact Bool.eq_false_iff.mpr fun value => formed ⟨c, hc, value⟩
  · rintro (⟨token, before, h, after, rfl, placeholder, unclosed⟩ |
      ⟨token, before, h, after, place, placeholder, -⟩)
    · exact ⟨token, h, placeholder, passedOver_copied rfl placeholder unclosed⟩
    · refine ⟨token, h.map Prod.fst, placeholder, before.map Prod.fst, after.map Prod.fst, ?_⟩
      rw [place, List.map_append, List.map_append]

/-- The operator's contact, which has braces of its own where `value` has. -/
def contact (value token : String) : Option String :=
  if token = "CONTACT_EMAIL" then some value else none

def placeholder (token : String) : String := String.ofList (braced token.toList)

/-- A document that ends in a placeholder behind two opening braces. -/
def behindBraces (s : String) : String := "\x7b\x7b " ++ s

end PolicyText
