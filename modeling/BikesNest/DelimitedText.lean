import Mathlib

/-! Texts made of pieces with a separator between them, and of words with blanks between them. What
is put together from plain pieces comes apart as it was. -/

namespace DelimitedText

abbrev Text := List Char

/-! ### Pieces -/

def join (pieces : List Text) : Text := [';', ' '].intercalate pieces

theorem join_cons_cons (p q : Text) (ps : List Text) :
    join (p :: q :: ps) = p ++ ';' :: ' ' :: join (q :: ps) := by
  simp [join]

theorem join_cons {p : Text} {ps : List Text} (more : ps ≠ []) :
    join (p :: ps) = p ++ ';' :: ' ' :: join ps := by
  cases ps with
  | nil => exact absurd rfl more
  | cons q ps => exact join_cons_cons p q ps

theorem join_singleton (p : Text) : join [p] = p := by
  simp [join]

/-- Pieces without the separator come apart as they were, with a blank before all but the first. -/
theorem splitOn_join {p : Text} {ps : List Text} (plain : ∀ q ∈ p :: ps, ';' ∉ q) :
    (join (p :: ps)).splitOn ';' = p :: ps.map (' ' :: ·) := by
  induction ps generalizing p with
  | nil =>
    rw [join_singleton, List.splitOn_eq_singleton (plain p List.mem_cons_self), List.map_nil]
  | cons q ps ih =>
    have later : (join (q :: ps)).splitOn ';' = q :: ps.map (' ' :: ·) :=
      ih fun r hr => plain r (List.mem_cons_of_mem p hr)
    rw [join_cons_cons, List.splitOn_append_cons_self_of_not_mem (plain p List.mem_cons_self),
      List.splitOn_cons_eq_if_modifyHead, if_neg (by decide), later]
    rfl

/-- What stands in a text stands in a piece of it, or separates pieces. -/
theorem mem_splitOn {cs : Text} {c : Char} (sep : Char) (h : c ∈ cs) :
    c = sep ∨ ∃ piece ∈ cs.splitOn sep, c ∈ piece := by
  induction cs with
  | nil => exact absurd h List.not_mem_nil
  | cons d cs ih =>
    rw [List.splitOn_cons_eq_if_modifyHead]
    split_ifs with same
    · rcases List.mem_cons.mp h with rfl | later
      · exact .inl (beq_iff_eq.mp same)
      · exact (ih later).imp_right fun ⟨piece, hp, hc⟩ => ⟨piece, List.mem_cons_of_mem _ hp, hc⟩
    · cases pieces : cs.splitOn sep with
      | nil => exact absurd pieces (List.splitOn_ne_nil sep cs)
      | cons first rest =>
        rw [List.modifyHead_cons]
        rw [pieces] at ih
        rcases List.mem_cons.mp h with rfl | later
        · exact .inr ⟨_, List.mem_cons_self, List.mem_cons_self⟩
        · rcases ih later with separator | ⟨piece, hp, hc⟩
          · exact .inl separator
          · rcases List.mem_cons.mp hp with rfl | other
            · exact .inr ⟨_, List.mem_cons_self, List.mem_cons_of_mem d hc⟩
            · exact .inr ⟨piece, List.mem_cons_of_mem _ other, hc⟩

theorem mem_join {ps : List Text} {c : Char} (h : c ∈ join ps) :
    (∃ p ∈ ps, c ∈ p) ∨ c = ';' ∨ c = ' ' := by
  induction ps with
  | nil => simp [join] at h
  | cons p ps ih =>
    cases ps with
    | nil => exact .inl ⟨p, List.mem_cons_self, by rwa [join_singleton] at h⟩
    | cons q ps =>
      rw [join_cons_cons, List.mem_append, List.mem_cons, List.mem_cons] at h
      rcases h with here | semicolon | blank | later
      · exact .inl ⟨p, List.mem_cons_self, here⟩
      · exact .inr (.inl semicolon)
      · exact .inr (.inr blank)
      · rcases ih later with ⟨r, hr, hc⟩ | rest
        · exact .inl ⟨r, List.mem_cons_of_mem p hr, hc⟩
        · exact .inr rest

/-! ### Words -/

/-- White space of ASCII. -/
def white (c : Char) : Bool :=
  c == ' ' || c == '\t' || c == '\n' || c == '\x0c' || c == '\r'

def filled (w : Text) : Bool := !w.isEmpty

def words (cs : Text) : List Text := (cs.splitOnP white).filter filled

def spaced (ws : List Text) : Text := [' '].intercalate ws

/-- A text that stays in one piece among words. -/
structure Word (w : Text) : Prop where
  nonempty : filled w = true
  whole : ∀ c ∈ w, white c = false

theorem words_blank (cs : Text) : words (' ' :: cs) = words cs := by
  rw [words, List.splitOnP_cons_eq_if_modifyHead, if_pos (by decide)]
  rfl

/-- Words come apart as they were. -/
theorem words_spaced {ws : List Text} (plain : ∀ w ∈ ws, Word w) : words (spaced ws) = ws := by
  induction ws with
  | nil => rfl
  | cons w ws ih =>
    have first := plain w List.mem_cons_self
    cases ws with
    | nil =>
      have single : spaced [w] = w := by simp [spaced]
      rw [single, words, List.splitOnP_eq_singleton first.whole, List.filter_cons_of_pos first.nonempty,
        List.filter_nil]
    | cons v ws =>
      have step : spaced (w :: v :: ws) = w ++ ' ' :: spaced (v :: ws) := by simp [spaced]
      have later := ih fun u hu => plain u (List.mem_cons_of_mem w hu)
      rw [step, words, List.splitOnP_append_cons_of_forall_mem first.whole ' ' (by decide),
        List.filter_cons_of_pos first.nonempty]
      exact congrArg (w :: ·) later

theorem mem_spaced {ws : List Text} {c : Char} (h : c ∈ spaced ws) :
    (∃ w ∈ ws, c ∈ w) ∨ c = ' ' := by
  induction ws with
  | nil => simp [spaced] at h
  | cons w ws ih =>
    cases ws with
    | nil => exact .inl ⟨w, List.mem_cons_self, by simpa [spaced] using h⟩
    | cons v ws =>
      have step : spaced (w :: v :: ws) = w ++ ' ' :: spaced (v :: ws) := by simp [spaced]
      rw [step, List.mem_append, List.mem_cons] at h
      rcases h with here | blank | later
      · exact .inl ⟨w, List.mem_cons_self, here⟩
      · exact .inr blank
      · rcases ih later with ⟨u, hu, hc⟩ | rest
        · exact .inl ⟨u, List.mem_cons_of_mem w hu, hc⟩
        · exact .inr rest

end DelimitedText
