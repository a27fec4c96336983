import Mathlib.Data.List.DropRight

/-! Where a reference in a redirect leads a browser that is on a page of the web: to a scheme of its
own, to another host, or to a path of the host it is on. White space around the reference and line
breaks within it are dropped before it is read, and a backslash counts as a slash. -/

namespace UrlReference

/-- A control character or a blank, which is dropped at both ends. -/
def edge (c : Char) : Bool := decide (c.toNat ≤ 32)

/-- Dropped wherever it stands. -/
def lineBreak (c : Char) : Bool := c == '\t' || c == '\n' || c == '\r'

def clean (reference : List Char) : List Char :=
  ((reference.dropWhile edge).rdropWhile edge).filter fun c => !lineBreak c

def slash (c : Char) : Bool := c == '/' || c == '\\'

def schemeChar (c : Char) : Bool := c.isAlphanum || c == '+' || c == '-' || c == '.'

/-- A scheme and what comes after its colon. -/
def scheme : List Char → Option (List Char × List Char)
  | c :: cs =>
    if c.isAlpha then
      match cs.dropWhile schemeChar with
      | ':' :: rest => some (c :: cs.takeWhile schemeChar, rest)
      | _ => none
    else none
  | [] => none

inductive Target where
  | scheme (name rest : List Char)
  | host (authority : List Char)
  | here (reference : List Char)
  deriving DecidableEq

def target (reference : List Char) : Target :=
  match scheme (clean reference) with
  | some (name, rest) => .scheme name rest
  | none =>
    match clean reference with
    | a :: b :: rest => if slash a && slash b then .host rest else .here (a :: b :: rest)
    | short => .here short

/-- A reference from the root, without a second slash and without characters that are dropped. -/
structure Rooted (reference : List Char) : Prop where
  root : reference.head? = some '/'
  second : ∀ c ∈ reference[1]?, slash c = false
  dark : ∀ c ∈ reference, 32 ≤ c.toNat

theorem mem_clean {reference : List Char} {c : Char} (h : c ∈ clean reference) :
    c ∈ reference :=
  (List.dropWhile_sublist _).subset ((List.rdropWhile_prefix _ _).subset (List.mem_filter.mp h).1)

/-- Nothing but blanks at the end is dropped. -/
theorem clean_rooted {reference : List Char} (rooted : Rooted reference) :
    clean reference = reference.rdropWhile edge := by
  obtain ⟨rest, rfl⟩ := List.head?_eq_some_iff.mp rooted.root
  have front : ('/' :: rest).dropWhile edge = '/' :: rest :=
    List.dropWhile_cons_of_neg (by decide)
  rw [clean, front]
  refine List.filter_eq_self.mpr fun c hc => ?_
  have dark := rooted.dark c ((List.rdropWhile_prefix _ _).subset hc)
  rw [Bool.not_eq_true', lineBreak, Bool.or_eq_false_iff, Bool.or_eq_false_iff]
  refine ⟨⟨?_, ?_⟩, ?_⟩ <;>
    · rw [beq_eq_false_iff_ne]
      rintro rfl
      exact absurd dark (by decide)

/-- Such a reference leads to a path of the same host. -/
theorem target_rooted {reference : List Char} (rooted : Rooted reference) :
    target reference = .here (reference.rdropWhile edge) := by
  obtain ⟨rest, rfl⟩ := List.head?_eq_some_iff.mp rooted.root
  have start : ('/' :: rest).rdropWhile edge <+: '/' :: rest := List.rdropWhile_prefix _ _
  have nonempty : ('/' :: rest).rdropWhile edge ≠ [] := by
    intro none
    have all := List.rdropWhile_eq_nil_iff.mp none '/' List.mem_cons_self
    cases all
  obtain ⟨c, tail, whole⟩ := List.exists_cons_of_ne_nil nonempty
  rw [whole, List.cons_prefix_cons] at start
  obtain ⟨rfl, start⟩ := start
  rw [target, clean_rooted rooted, whole]
  have none : scheme ('/' :: tail) = none := rfl
  rw [none]
  cases tail with
  | nil => rfl
  | cons b tail =>
    obtain ⟨after, rfl⟩ := start
    have other : slash b = false := rooted.second b rfl
    dsimp only
    rw [if_neg (by simp [other])]

end UrlReference
