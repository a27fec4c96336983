import BikesNest.Parking
import BikesNest.Table

/-! A timestamp in the link of a page. The date-time library renders and parses RFC 3339, the
handlers escape two characters, and the query extractor decodes a form value; the two libraries
are parameters here, with what the handlers rely on. -/

namespace TimeLinks

open Parking

structure Libraries where
  toRfc3339 : Instant → String
  parseFromRfc3339 : String → Option Instant
  /-- A value of a query string, decoded. -/
  formDecode : List Char → List Char

/-- The years 0 to 9999: RFC 3339 writes a year in four digits. Instants count microseconds. -/
def Representable (t : Instant) : Prop := -62167219200000000 ≤ t ∧ t < 253402300800000000

instance (t : Instant) : Decidable (Representable t) := inferInstanceAs (Decidable (_ ∧ _))

/-- The characters of a rendered timestamp; a year out of range has a sign. -/
def alphabet : List Char :=
  ['0', '1', '2', '3', '4', '5', '6', '7', '8', '9', '-', 'T', ':', '.', '+']

/-- The timestamps of `S` are rendered in the alphabet, and parsed back exactly when their year
has four digits. The form decoder leaves the characters alone that need no escape, and decodes
the two that the handlers escape. -/
structure Libraries.Lawful (lib : Libraries) (S : Set Instant) : Prop where
  rendered : ∀ t ∈ S, lib.toRfc3339 t ≠ "" ∧ ∀ c ∈ (lib.toRfc3339 t).toList, c ∈ alphabet
  parsed : ∀ t ∈ S, Representable t → lib.parseFromRfc3339 (lib.toRfc3339 t) = some t
  refused : ∀ t ∈ S, ¬ Representable t → lib.parseFromRfc3339 (lib.toRfc3339 t) = none
  decode_nil : lib.formDecode [] = []
  decode_plain : ∀ c ∈ alphabet, c ≠ '+' → c ≠ ':' → ∀ rest,
    lib.formDecode (c :: rest) = c :: lib.formDecode rest
  decode_plus : ∀ rest, lib.formDecode ('%' :: '2' :: 'B' :: rest) = '+' :: lib.formDecode rest
  decode_colon : ∀ rest, lib.formDecode ('%' :: '3' :: 'A' :: rest) = ':' :: lib.formDecode rest

theorem Libraries.Lawful.mono {lib : Libraries} {S T : Set Instant} (h : lib.Lawful S)
    (le : ∀ t ∈ T, t ∈ S) : lib.Lawful T :=
  { h with
    rendered := fun t ht => h.rendered t (le t ht)
    parsed := fun t ht => h.parsed t (le t ht)
    refused := fun t ht => h.refused t (le t ht) }

/-- `.replace('+', "%2B").replace(':', "%3A")`. -/
def escape (c : Char) : List Char :=
  if c = '+' then "%2B".toList else if c = ':' then "%3A".toList else [c]

/-- `urlencoding_rfc3339`. -/
def urlencodingRfc3339 (lib : Libraries) (t : Instant) : List Char :=
  (lib.toRfc3339 t).toList.flatMap escape

/-- `parse_datetime`. -/
def parseDatetime (lib : Libraries) (s : String) : Option Instant :=
  let s := trim s
  if s = "" then none else lib.parseFromRfc3339 s

/-- `parse_after_id`. -/
def parseAfterId (id : ℤ) : Option ℤ := if 0 < id then some id else none

/-- The cursor of a link `after_at=…&after_id=…`. -/
def parseAfter (lib : Libraries) (link : List Char × ℤ) : Option (Instant × ℤ) :=
  (parseDatetime lib (String.ofList (lib.formDecode link.1))).bind fun t =>
    (parseAfterId link.2).map fun id => (t, id)

variable {lib : Libraries} {S : Set Instant} (laws : lib.Lawful S)

include laws in
theorem formDecode_escaped {text : List Char} (plain : ∀ c ∈ text, c ∈ alphabet) :
    lib.formDecode (text.flatMap escape) = text := by
  induction text with
  | nil => exact laws.decode_nil
  | cons c text ih =>
    have rest := ih fun d hd => plain d (List.mem_cons_of_mem c hd)
    rw [List.flatMap_cons, escape]
    split_ifs with plus colon
    · subst plus
      exact (laws.decode_plus _).trans (congrArg _ rest)
    · subst colon
      exact (laws.decode_colon _).trans (congrArg _ rest)
    · exact (laws.decode_plain c (plain c List.mem_cons_self) plus colon _).trans
        (congrArg _ rest)

include laws in
/-- What a link brings back of a timestamp and an identity. -/
theorem parseAfter_link {t : Instant} (ht : t ∈ S) (id : ℤ) :
    parseAfter lib (urlencodingRfc3339 lib t, id) =
      if Representable t ∧ 0 < id then some (t, id) else none := by
  obtain ⟨nonempty, plain⟩ := laws.rendered t ht
  have black : ∀ c ∈ alphabet, isWhitespace c = false := by simp [alphabet, isWhitespace]
  have arrived : String.ofList (lib.formDecode (urlencodingRfc3339 lib t)) = lib.toRfc3339 t := by
    rw [urlencodingRfc3339, formDecode_escaped laws plain, String.ofList_toList]
  have text : parseDatetime lib (lib.toRfc3339 t) = if Representable t then some t else none := by
    rw [parseDatetime, trim_eq_self fun c hc => black c (plain c hc)]
    refine (if_neg nonempty).trans ?_
    split_ifs with inside
    · exact laws.parsed t ht inside
    · exact laws.refused t ht inside
  rw [parseAfter, arrived, text, parseAfterId]
  by_cases inside : Representable t
  · by_cases positive : 0 < id <;> simp [inside, positive]
  · simp [inside]

/-- A decoder of form values. -/
def decodeForm : List Char → List Char
  | '%' :: '2' :: 'B' :: rest => '+' :: decodeForm rest
  | '%' :: '3' :: 'A' :: rest => ':' :: decodeForm rest
  | '+' :: rest => ' ' :: decodeForm rest
  | c :: rest => c :: decodeForm rest
  | [] => []

/-- The libraries on a few timestamps. -/
def tableLibraries (table : List (Instant × String)) : Libraries where
  toRfc3339 t := ((table.find? fun e => decide (e.1 = t)).map Prod.snd).getD ""
  parseFromRfc3339 s :=
    (table.find? fun e => decide (e.2 = s ∧ Representable e.1)).map Prod.fst
  formDecode := decodeForm

/-- Different timestamps of the table have different texts. -/
theorem tableLibraries_lawful {table : List (Instant × String)}
    (texts : ∀ e ∈ table, e.2 ≠ "" ∧ ∀ c ∈ e.2.toList, c ∈ alphabet)
    (keys : (table.map Prod.fst).Nodup) (values : (table.map Prod.snd).Nodup) :
    (tableLibraries table).Lawful {t | t ∈ table.map Prod.fst} := by
  have text : ∀ e ∈ table, (tableLibraries table).toRfc3339 e.1 = e.2 := by
    intro e he
    have found : table.find? (fun x => decide (x.1 = e.1)) = some e :=
      @Table.find_of_mem _ _ Prod.fst _ ⟨table, keys⟩ _ he
    simp only [tableLibraries, found, Option.map_some, Option.getD_some]
  have known : ∀ e ∈ table, (tableLibraries table).parseFromRfc3339 e.2 =
      if Representable e.1 then some e.1 else none := by
    intro e he
    have only : ∀ x ∈ table, x.2 = e.2 → x = e := fun x hx same =>
      List.inj_on_of_nodup_map values hx he same
    cases found : table.find? fun x => decide (x.2 = e.2 ∧ Representable x.1) with
    | none =>
      have := List.find?_eq_none.mp found e he
      have outside : ¬ Representable e.1 := by simpa using this
      rw [if_neg outside]
      simp only [tableLibraries, found, Option.map_none]
    | some x =>
      have matched := List.find?_some found
      obtain ⟨same, inside⟩ : x.2 = e.2 ∧ Representable x.1 := by simpa using matched
      obtain rfl := only x (List.mem_of_find?_eq_some found) same
      rw [if_pos inside]
      simp only [tableLibraries, found, Option.map_some]
  refine ⟨?_, ?_, ?_, rfl, ?_, fun _ => rfl, fun _ => rfl⟩
  · intro t ht
    obtain ⟨e, he, rfl⟩ := List.mem_map.mp ht
    rw [text e he]
    exact texts e he
  · intro t ht inside
    obtain ⟨e, he, rfl⟩ := List.mem_map.mp ht
    rw [text e he, known e he, if_pos inside]
  · intro t ht outside
    obtain ⟨e, he, rfl⟩ := List.mem_map.mp ht
    rw [text e he, known e he, if_neg outside]
  · intro c hc plus colon rest
    simp only [alphabet, List.mem_cons, List.not_mem_nil, or_false] at hc
    rcases hc with rfl | rfl | rfl | rfl | rfl | rfl | rfl | rfl | rfl | rfl | rfl | rfl | rfl |
      rfl | rfl
    all_goals first | rfl | exact absurd rfl colon | exact absurd rfl plus

end TimeLinks
