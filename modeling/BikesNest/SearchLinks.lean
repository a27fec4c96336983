import BikesNest.Credentials
import BikesNest.PercentCodec
import BikesNest.SearchFilters

/-! The links of the search page. A raw query is read pair by pair; the link to the next page
writes the same parameters again. How a floating number is printed and read is a field of
`Floats`. -/

namespace SearchLinks

open Parking Outcome PercentCodec
open Credentials (splitOnce splitOnce_eq_some)
open SearchFilters (splitCommas)

structure Floats (F : Type) where
  parse : String → Option F
  print : F → String
  finite : F → Prop

/-- What the standard library says of a finite number: it reads back exactly what it prints, and
it prints no exponent. -/
structure Floats.Lawful {F : Type} (floats : Floats F) : Prop where
  exact : ∀ x, floats.finite x → floats.parse (floats.print x) = some x
  decimal : ∀ x, floats.finite x → ∀ c ∈ (floats.print x).toList,
    c.isDigit = true ∨ c = '-' ∨ c = '.'

/-- `str::parse::<u32>`: one plus sign may come first. -/
def parseU32 (s : String) : Option UInt32 :=
  let digits := match s.toList with
    | '+' :: rest => rest
    | cs => cs
  if digits ≠ [] ∧ digits.all Char.isDigit = true then
    let n := Nat.ofDigitChars 10 digits 0
    if n < UInt32.size then some (UInt32.ofNat n) else none
  else none

structure SearchParams (F : Type) where
  q : String := ""
  lat : Option F := none
  lon : Option F := none
  radius : Option UInt32 := none
  cost : String := ""
  parkingType : String := ""
  security : String := ""
  openNow : String := ""
  sort : String := ""
  cursor : Option String := none
  bbox : String := ""

/-- The input of the search service. -/
structure SearchInput (F : Type) where
  query : Option String
  lat : Option F
  lon : Option F
  radiusM : Option UInt32
  cost : Option String
  types : Option String
  security : Option String
  openNow : Bool
  sort : Option String
  pageSize : Option ℕ
  cursor : Option String
  bbox : Option String

def extendFilterValues (values : List String) (value : String) : List String :=
  (((splitCommas value).map trim).filter fun code => decide (code ≠ "")).foldl
    (fun values code => if code ∈ values then values else values ++ [code]) values

def markScalar (seen : List String) (key : String) : Option (List String) :=
  if key ∈ seen then none else some (seen ++ [key])

section Query

variable {F : Type}

/-- The variables of the loop in `parse`. -/
structure ParseState (F : Type) where
  params : SearchParams F := {}
  types : List String := []
  security : List String := []
  scalarKeys : List String := []

/-- One round of the loop, for a decoded pair. -/
def ParseState.pair (floats : Floats F) (s : ParseState F) (key value : String) :
    Option (ParseState F) :=
  match key with
  | "q" => do
    let seen ← markScalar s.scalarKeys key
    pure { s with params.q := value, scalarKeys := seen }
  | "lat" => do
    let seen ← markScalar s.scalarKeys key
    let lat ← floats.parse value
    pure { s with params.lat := some lat, scalarKeys := seen }
  | "lon" => do
    let seen ← markScalar s.scalarKeys key
    let lon ← floats.parse value
    pure { s with params.lon := some lon, scalarKeys := seen }
  | "radius" => do
    let seen ← markScalar s.scalarKeys key
    let radius ← parseU32 value
    pure { s with params.radius := some radius, scalarKeys := seen }
  | "cost" => do
    let seen ← markScalar s.scalarKeys key
    pure { s with params.cost := value, scalarKeys := seen }
  | "type" => some { s with types := extendFilterValues s.types value }
  | "security" => some { s with security := extendFilterValues s.security value }
  | "open_now" => do
    let seen ← markScalar s.scalarKeys key
    pure { s with params.openNow := value, scalarKeys := seen }
  | "sort" => do
    let seen ← markScalar s.scalarKeys key
    pure { s with params.sort := value, scalarKeys := seen }
  | "cursor" => do
    let seen ← markScalar s.scalarKeys key
    pure { s with params.cursor := some value, scalarKeys := seen }
  | "bbox" => do
    let seen ← markScalar s.scalarKeys key
    pure { s with params.bbox := value, scalarKeys := seen }
  -- an unknown key is ignored, even twice
  | _ => some s

/-- `split_once('=')`, with the whole pair as the key where there is no sign. -/
def splitPair (pair : String) : String × String :=
  match splitOnce '=' pair.toList with
  | some (key, value) => (String.ofList key, String.ofList value)
  | none => (pair, "")

/-- The pairs of a raw query, not decoded. -/
def rawPairs (raw : String) : List (String × String) :=
  (((raw.toList.splitOn '&').map String.ofList).filter fun pair => decide (pair ≠ "")).map splitPair

/-- What `parse` makes of its variables after the loop. -/
def ParseState.finish (s : ParseState F) : SearchParams F :=
  { s.params with
    parkingType := ",".intercalate s.types
    security := ",".intercalate s.security }

def SearchParams.parse (floats : Floats F) (raw : String) : Option (SearchParams F) := do
  let s ← (rawPairs raw).foldlM (fun s pair => do
    let key ← decodeQueryComponent pair.1
    let value ← decodeQueryComponent pair.2
    s.pair floats key value) ({} : ParseState F)
  pure s.finish

/-- `(!text.is_empty()).then(|| text.clone())`. -/
def nonEmptyText (text : String) : Option String := if text = "" then none else some text

def SearchParams.toInput (p : SearchParams F) : SearchInput F where
  query := nonEmptyText p.q
  lat := p.lat
  lon := p.lon
  radiusM := p.radius
  cost := nonEmptyText p.cost
  types := nonEmptyText p.parkingType
  security := nonEmptyText p.security
  openNow := decide (p.openNow = "true")
  sort := nonEmptyText p.sort
  pageSize := none
  cursor := p.cursor
  bbox := nonEmptyText p.bbox

/-- The query of the link to the next page, to which the page adds its cursor. -/
def SearchParams.queryString (floats : Floats F) (p : SearchParams F) : String :=
  "&".intercalate
    ((if p.q = "" then [] else ["q=" ++ urlencode p.q]) ++
      (p.lat.map fun lat => "lat=" ++ floats.print lat).toList ++
      (p.lon.map fun lon => "lon=" ++ floats.print lon).toList ++
      (p.radius.map fun r => "radius=" ++ r.toNat.repr).toList ++
      (if p.cost = "" then [] else ["cost=" ++ urlencode p.cost]) ++
      (if p.parkingType = "" then [] else ["type=" ++ urlencode p.parkingType]) ++
      (if p.security = "" then [] else ["security=" ++ urlencode p.security]) ++
      (if p.openNow = "true" then ["open_now=true"] else []) ++
      (if p.sort = "" then [] else ["sort=" ++ urlencode p.sort]))

/-! ### What a run of the loop comes to -/

def scalarKeys : List String :=
  ["q", "lat", "lon", "radius", "cost", "open_now", "sort", "cursor", "bbox"]

/-- A numeric field is a number. -/
def Readable (floats : Floats F) (key value : String) : Prop :=
  (key = "lat" ∨ key = "lon" → (floats.parse value).isSome = true) ∧
    (key = "radius" → (parseU32 value).isSome = true)

/-- The values given to a key. -/
def valuesOf (key : String) (pairs : List (String × String)) : List String :=
  (pairs.filter fun pair => decide (pair.1 = key)).map Prod.snd

def given (key : String) (pairs : List (String × String)) : Option String :=
  (valuesOf key pairs).getLast?

/-- What a repeated key collects. -/
def collected (key : String) (pairs : List (String × String)) : List String :=
  (valuesOf key pairs).foldl extendFilterValues []

/-- The state of the loop after the pairs. -/
def summary (floats : Floats F) (pairs : List (String × String)) : ParseState F where
  params := {
    q := (given "q" pairs).getD ""
    lat := (given "lat" pairs).bind floats.parse
    lon := (given "lon" pairs).bind floats.parse
    radius := (given "radius" pairs).bind parseU32
    cost := (given "cost" pairs).getD ""
    openNow := (given "open_now" pairs).getD ""
    sort := (given "sort" pairs).getD ""
    cursor := given "cursor" pairs
    bbox := (given "bbox" pairs).getD "" }
  types := collected "type" pairs
  security := collected "security" pairs
  scalarKeys := (pairs.map Prod.fst).filter fun key => decide (key ∈ scalarKeys)

end Query

section Loop

variable {F : Type} {floats : Floats F} {pairs : List (String × String)} {key k v : String}

theorem valuesOf_append : valuesOf key (pairs ++ [(k, v)]) =
    valuesOf key pairs ++ if k = key then [v] else [] := by
  rw [valuesOf, List.filter_append, List.map_append, ← valuesOf]
  by_cases same : k = key
  · simp [same]
  · simp [same]

theorem given_append :
    given key (pairs ++ [(k, v)]) = if k = key then some v else given key pairs := by
  rw [given, valuesOf_append]
  split_ifs
  · exact List.getLast?_concat
  · rw [List.append_nil, given]

theorem collected_append : collected key (pairs ++ [(k, v)]) =
    if k = key then extendFilterValues (collected key pairs) v else collected key pairs := by
  rw [collected, valuesOf_append, List.foldl_append, ← collected]
  split_ifs
  · rfl
  · rfl

theorem count_valuesOf : (pairs.map Prod.fst).count key = (valuesOf key pairs).length := by
  rw [valuesOf, List.length_map, List.count_eq_countP, List.countP_map,
    ← List.countP_eq_length_filter]
  rfl

theorem seen_append :
    (((pairs ++ [(k, v)]).map Prod.fst).filter fun key => decide (key ∈ scalarKeys)) =
    ((pairs.map Prod.fst).filter fun key => decide (key ∈ scalarKeys)) ++
      if k ∈ scalarKeys then [k] else [] := by
  rw [List.map_append, List.filter_append]
  by_cases scalar : k ∈ scalarKeys
  · simp [scalar]
  · simp [scalar]

theorem markScalar_seen (scalar : k ∈ scalarKeys) : markScalar (summary floats pairs).scalarKeys k =
    if k ∈ pairs.map Prod.fst then none else some ((summary floats pairs).scalarKeys ++ [k]) := by
  have seen : k ∈ (summary floats pairs).scalarKeys ↔ k ∈ pairs.map Prod.fst := by
    simp [summary, scalar]
  rw [markScalar]
  exact if_congr seen rfl rfl

instance : Decidable (Readable floats key v) := by
  unfold Readable
  infer_instance

/-- One round takes the summary to the summary with one pair more, unless it fails. -/
theorem pair_summary : (summary floats pairs).pair floats k v =
    if (k ∈ scalarKeys → k ∉ pairs.map Prod.fst) ∧ Readable floats k v then
      some (summary floats (pairs ++ [(k, v)])) else none := by
  unfold ParseState.pair
  split
  -- a text
  case h_1 | h_5 | h_8 | h_9 | h_10 | h_11 =>
    rw [markScalar_seen (by decide)]
    split_ifs with seen accepted accepted
    · exact absurd seen (accepted.1 (by decide))
    · rfl
    · simp [summary, given_append, collected_append, scalarKeys]
    · exact absurd ⟨fun _ => seen, by simp [Readable]⟩ accepted
  -- a number, which has to be read
  case h_2 | h_3 | h_4 =>
    rw [markScalar_seen (by decide)]
    split_ifs with seen accepted accepted
    · exact absurd seen (accepted.1 (by decide))
    · rfl
    · obtain ⟨n, read⟩ := Option.isSome_iff_exists.mp (by simpa [Readable] using accepted.2)
      simp [summary, given_append, collected_append, scalarKeys, read]
    · have unread : ¬ Readable floats _ v := fun readable => accepted ⟨fun _ => seen, readable⟩
      simp only [Readable] at unread
      simp at unread
      simp [unread]
  -- a filter, which may come again
  case h_6 | h_7 =>
    rw [if_pos ⟨fun scalar => absurd scalar (by decide), by simp [Readable]⟩]
    simp [summary, given_append, collected_append, scalarKeys]
  case h_12 q lat lon radius cost type security openNow sort cursor bbox =>
    have unknown : k ∉ scalarKeys := by
      simp only [scalarKeys, List.mem_cons, List.not_mem_nil, or_false, not_or]
      exact ⟨q, lat, lon, radius, cost, openNow, sort, cursor, bbox⟩
    rw [if_pos ⟨fun scalar => absurd scalar unknown, fun h => (h.elim lat lon).elim,
      fun h => (radius h).elim⟩]
    simp only [summary, given_append, collected_append, seen_append, if_neg unknown, if_neg type,
      if_neg security, List.append_nil, if_neg q, if_neg lat, if_neg lon, if_neg radius,
      if_neg cost, if_neg openNow, if_neg sort, if_neg cursor, if_neg bbox]

/-- The pairs a query may have: the numbers are numbers, and no scalar key comes twice. -/
def Accepted (floats : Floats F) (pairs : List (String × String)) : Prop :=
  (∀ pair ∈ pairs, Readable floats pair.1 pair.2) ∧
    ∀ key ∈ scalarKeys, (pairs.map Prod.fst).count key ≤ 1

theorem accepted_append : Accepted floats (pairs ++ [(k, v)]) ↔ Accepted floats pairs ∧
    (k ∈ scalarKeys → k ∉ pairs.map Prod.fst) ∧ Readable floats k v := by
  have counts : (∀ key ∈ scalarKeys, ((pairs ++ [(k, v)]).map Prod.fst).count key ≤ 1) ↔
      (∀ key ∈ scalarKeys, (pairs.map Prod.fst).count key ≤ 1) ∧
        (k ∈ scalarKeys → k ∉ pairs.map Prod.fst) := by
    simp only [List.map_append, List.map_singleton, List.count_append, List.count_singleton,
      ← List.count_eq_zero]
    constructor
    · intro h
      refine ⟨fun key scalar => ?_, fun scalar => ?_⟩
      · have := h key scalar
        omega
      · have := h k scalar
        rw [if_pos (beq_self_eq_true k)] at this
        omega
    · rintro ⟨old, fresh⟩ key scalar
      have := old key scalar
      by_cases same : k = key
      · have := fresh (same ▸ scalar)
        subst same
        rw [if_pos (beq_self_eq_true k)]
        omega
      · rw [if_neg (by simpa using same)]
        omega
  simp only [Accepted, counts, List.mem_append, List.mem_singleton, or_imp, forall_and, forall_eq]
  tauto

/-- The loop ends in the summary of its pairs. -/
theorem run_summary : pairs.foldlM (fun s pair => s.pair floats pair.1 pair.2) {} = some s ↔
    Accepted floats pairs ∧ s = summary floats pairs := by
  induction pairs using List.reverseRecOn generalizing s with
  | nil => simp [Accepted, summary, given, collected, valuesOf, eq_comm]
  | append_singleton pairs pair ih =>
    obtain ⟨k, v⟩ := pair
    rw [List.foldlM_append]
    simp only [List.foldlM_cons, List.foldlM_nil, Option.bind_eq_bind, Option.bind_eq_some_iff, ih,
      accepted_append]
    constructor
    · rintro ⟨_, ⟨accepted, rfl⟩, s', stepped, h⟩
      cases h
      rw [pair_summary, Option.ite_none_right_eq_some, Option.some.injEq] at stepped
      exact ⟨⟨accepted, stepped.1⟩, stepped.2.symm⟩
    · rintro ⟨⟨accepted, fresh⟩, rfl⟩
      exact ⟨_, ⟨accepted, rfl⟩, _, by rw [pair_summary, if_pos fresh], rfl⟩

/-- Decoding as one goes is the same as decoding everything first. -/
theorem foldlM_decode {α β σ : Type} (g : α → Option β) (h : σ → β → Option σ) (l : List α)
    (s : σ) : l.foldlM (fun s a => (g a).bind (h s)) s = (l.mapM g).bind fun bs => bs.foldlM h s := by
  induction l generalizing s with
  | nil => rfl
  | cons a l ih =>
    simp only [List.foldlM_cons, List.mapM_cons, Option.bind_eq_bind, Option.pure_def, ih]
    cases g a with
    | none => rfl
    | some b =>
      cases l.mapM g with
      | none => simp
      | some bs => rfl

def decodePair (pair : String × String) : Option (String × String) := do
  let key ← decodeQueryComponent pair.1
  let value ← decodeQueryComponent pair.2
  pure (key, value)

/-- A query is read as the summary of its pairs. -/
theorem parse_eq_some {raw : String} {p : SearchParams F} : SearchParams.parse floats raw = some p ↔
    ∃ pairs, (rawPairs raw).mapM decodePair = some pairs ∧ Accepted floats pairs ∧
      p = (summary floats pairs).finish := by
  have loop : (rawPairs raw).foldlM (fun s pair => do
      let key ← decodeQueryComponent pair.1
      let value ← decodeQueryComponent pair.2
      s.pair floats key value) ({} : ParseState F) =
        ((rawPairs raw).mapM decodePair).bind fun pairs =>
          pairs.foldlM (fun s pair => s.pair floats pair.1 pair.2) {} := by
    rw [← foldlM_decode]
    congr
    funext s pair
    simp [decodePair, Option.bind_assoc]
  unfold SearchParams.parse
  rw [loop]
  simp only [Option.bind_eq_bind, Option.pure_def, Option.bind_eq_some_iff, Option.some.injEq,
    run_summary]
  constructor
  · rintro ⟨s, ⟨pairs, decoded, accepted, rfl⟩, rfl⟩
    exact ⟨pairs, decoded, accepted, rfl⟩
  · rintro ⟨pairs, decoded, accepted, rfl⟩
    exact ⟨_, ⟨pairs, decoded, accepted, rfl⟩, rfl⟩

end Loop

/-! ### The filters -/

/-- A list of codes as the filters collect it. -/
structure Listed (codes : List String) : Prop where
  nodup : codes.Nodup
  named : ∀ code ∈ codes, code ≠ ""
  trimmed : ∀ code ∈ codes, trim code = code
  single : ∀ code ∈ codes, ',' ∉ code.toList

section Filters

variable {codes values : List String} {value : String}

/-- No piece of a split holds the separator. -/
theorem splitOn_pieces {c : Char} {cs piece : List Char} (h : piece ∈ cs.splitOn c) :
    c ∉ piece := by
  induction cs generalizing piece with
  | nil =>
    rw [List.splitOn_nil, List.mem_singleton] at h
    simp [h]
  | cons d cs ih =>
    rw [List.splitOn_cons_eq_if_modifyHead] at h
    split_ifs at h with same
    · rcases List.mem_cons.mp h with rfl | h
      · simp
      · exact ih h
    · cases pieces : cs.splitOn c with
      | nil => simp [pieces] at h
      | cons first rest =>
        rw [pieces, List.modifyHead_cons] at h
        rcases List.mem_cons.mp h with rfl | h
        · have := ih (pieces ▸ List.mem_cons_self : first ∈ cs.splitOn c)
          simp only [beq_iff_eq] at same
          simp [this, Ne.symm same]
        · exact ih (pieces ▸ List.mem_cons_of_mem _ h)

/-- Splitting undoes joining. -/
theorem split_join {sep : String} {c : Char} (one : sep.toList = [c])
    (h : ∀ code ∈ codes, c ∉ code.toList) (nonempty : codes ≠ []) :
    ((sep.intercalate codes).toList.splitOn c).map String.ofList = codes := by
  have pieces : (sep.intercalate codes).toList.splitOn c = codes.map String.toList := by
    rw [String.toList_intercalate, one]
    exact List.splitOn_intercalate c (by simpa using h) (by simpa using nonempty)
  rw [pieces, List.map_map]
  simp

/-- Codes that are all new go to the end. -/
theorem foldl_new {new : List String} (fresh : (values ++ new).Nodup) : new.foldl
    (fun values code => if code ∈ values then values else values ++ [code]) values =
      values ++ new := by
  induction new generalizing values with
  | nil => simp
  | cons code new ih =>
    have absent : code ∉ values := fun old =>
      (List.nodup_append.mp fresh).2.2 code old code (.head _) rfl
    rw [List.foldl_cons, if_neg absent, ih (by simpa using fresh)]
    simp

theorem foldl_listed {new : List String}
    (good : ∀ code ∈ new, code ≠ "" ∧ trim code = code ∧ ',' ∉ code.toList)
    (listed : Listed values) : Listed (new.foldl
      (fun values code => if code ∈ values then values else values ++ [code]) values) := by
  induction new generalizing values with
  | nil => exact listed
  | cons code new ih =>
    obtain ⟨⟨named, trimmed, single⟩, good⟩ := List.forall_mem_cons.mp good
    rw [List.foldl_cons]
    refine ih good ?_
    split_ifs with old
    · exact listed
    · refine ⟨?_, ?_, ?_, ?_⟩
      · exact List.nodup_append.mpr ⟨listed.nodup, by simp, fun a ha b hb => by
          rw [List.mem_singleton.mp hb]
          exact fun same => old (same ▸ ha)⟩
      all_goals
        intro c hc
        rcases List.mem_append.mp hc with hc | hc
      · exact listed.named c hc
      · rwa [List.mem_singleton.mp hc]
      · exact listed.trimmed c hc
      · rwa [List.mem_singleton.mp hc]
      · exact listed.single c hc
      · rwa [List.mem_singleton.mp hc]

theorem extend_listed (listed : Listed values) (value : String) :
    Listed (extendFilterValues values value) := by
  refine foldl_listed (fun code h => ?_) listed
  simp only [List.mem_filter, List.mem_map, decide_eq_true_eq] at h
  obtain ⟨⟨piece, split, rfl⟩, named⟩ := h
  obtain ⟨cs, piece, rfl⟩ := List.mem_map.mp split
  refine ⟨named, trim_trim _, fun comma => splitOn_pieces piece ?_⟩
  simpa using mem_of_mem_trim comma

theorem collected_listed (key : String) (pairs : List (String × String)) :
    Listed (collected key pairs) := by
  induction pairs using List.reverseRecOn with
  | nil =>
    have empty : collected key [] = [] := rfl
    rw [empty]
    exact ⟨.nil, by simp, by simp, by simp⟩
  | append_singleton pairs pair ih =>
    rw [collected_append]
    split_ifs
    · exact extend_listed ih _
    · exact ih

theorem join_eq_empty (listed : Listed codes) : ",".intercalate codes = "" ↔ codes = [] := by
  constructor
  · intro h
    match codes, listed with
    | [], _ => rfl
    | [code], listed =>
      rw [String.intercalate_singleton] at h
      exact absurd h (listed.named code (.head _))
    | code :: other :: rest, _ =>
      rw [String.intercalate_cons_cons] at h
      have := congrArg String.toList h
      simp at this
  · rintro rfl
    rfl

/-- A list of codes is collected again from its own text. -/
theorem extend_join (listed : Listed codes) (nonempty : codes ≠ []) :
    extendFilterValues [] (",".intercalate codes) = codes := by
  have trimmed : codes.map trim = codes :=
    (List.map_congr_left listed.trimmed).trans (List.map_id _)
  have named : (codes.filter fun code => decide (code ≠ "")) = codes :=
    List.filter_eq_self.mpr fun code h => decide_eq_true (listed.named code h)
  rw [extendFilterValues, splitCommas, split_join rfl listed.single nonempty, trimmed, named]
  exact foldl_new listed.nodup

end Filters

/-! ### The links -/

/-- The rows of a table that have a value. -/
def written (table : List (String × Option String)) : List (String × String) :=
  table.filterMap fun row => row.2.map fun value => (row.1, value)

def link (pair : String × String) : String := pair.1 ++ "=" ++ urlencode pair.2

section Written

variable {table : List (String × Option String)} {key : String} {value : Option String}

theorem written_cons : written ((key, value) :: table) =
    (value.map fun v => (key, v)).toList ++ written table := by
  cases value <;> rfl

theorem valuesOf_absent (h : key ∉ table.map Prod.fst) : valuesOf key (written table) = [] := by
  rw [valuesOf, List.map_eq_nil_iff, List.filter_eq_nil_iff]
  intro pair mem
  obtain ⟨row, row_mem, made⟩ := List.mem_filterMap.mp mem
  obtain ⟨v, -, rfl⟩ := Option.map_eq_some_iff.mp made
  exact fun same => h (List.mem_map.mpr ⟨row, row_mem, of_decide_eq_true same⟩)

/-- A row gives its key the value that it holds, and nothing else does. -/
theorem valuesOf_row (nodup : (table.map Prod.fst).Nodup) (h : (key, value) ∈ table) :
    valuesOf key (written table) = value.toList := by
  induction table with
  | nil => cases h
  | cons row table ih =>
    obtain ⟨k, o⟩ := row
    obtain ⟨fresh, nodup⟩ := List.nodup_cons.mp nodup
    have split : valuesOf key (written ((k, o) :: table)) =
        valuesOf key (o.map fun v => (k, v)).toList ++ valuesOf key (written table) := by
      rw [written_cons, valuesOf, List.filter_append, List.map_append]
      rfl
    rw [split]
    rcases List.mem_cons.mp h with here | later
    · obtain ⟨rfl, rfl⟩ := Prod.mk.inj here
      rw [valuesOf_absent fresh, List.append_nil]
      cases value <;> simp [valuesOf]
    · have other : k ≠ key := fun same => fresh (same ▸ List.mem_map.mpr ⟨_, later, rfl⟩)
      rw [ih nodup later]
      cases o <;> simp [valuesOf, other]

theorem given_row (nodup : (table.map Prod.fst).Nodup) (h : (key, value) ∈ table) :
    given key (written table) = value := by
  rw [given, valuesOf_row nodup h]
  cases value <;> rfl

end Written

section Links

variable {pairs : List (String × String)} {key value : String}

/-- A key of which every octet is written as it is. -/
def Plain (key : String) : Prop := urlencode key = key

theorem plain_separators (plain : Plain key) : '&' ∉ key.toList ∧ '=' ∉ key.toList := by
  constructor
  · exact fun h => (urlencode_separators (plain.symm ▸ h)).1 rfl
  · exact fun h => (urlencode_separators (plain.symm ▸ h)).2 rfl

theorem splitPair_link (plain : Plain key) :
    splitPair (link (key, value)) = (key, urlencode value) := by
  have whole : (link (key, value)).toList = key.toList ++ '=' :: (urlencode value).toList := by
    simp [link]
  rw [splitPair, whole, splitOnce_eq_some.mpr ⟨(plain_separators plain).2, rfl⟩]
  simp

theorem link_single (plain : Plain key) : '&' ∉ (link (key, value)).toList := by
  simp only [link, String.toList_append, List.mem_append, not_or]
  exact ⟨⟨(plain_separators plain).1, by decide⟩, fun h => (urlencode_separators h).1 rfl⟩

/-- The pairs of a link are the pairs it was made of, encoded. -/
theorem rawPairs_join (plain : ∀ pair ∈ pairs, Plain pair.1) :
    rawPairs ("&".intercalate (pairs.map link)) =
      pairs.map fun pair => (pair.1, urlencode pair.2) := by
  by_cases nonempty : pairs = []
  · subst nonempty
    simp [rawPairs]
  · have single : ∀ text ∈ pairs.map link, '&' ∉ text.toList := by
      intro text h
      obtain ⟨pair, mem, rfl⟩ := List.mem_map.mp h
      exact link_single (plain pair mem)
    have kept : ((pairs.map link).filter fun pair => decide (pair ≠ "")) = pairs.map link := by
      refine List.filter_eq_self.mpr fun text h => decide_eq_true fun empty => ?_
      obtain ⟨pair, -, rfl⟩ := List.mem_map.mp h
      have := congrArg String.toList empty
      simp [link] at this
    rw [rawPairs, split_join rfl single (by simpa using nonempty), kept, List.map_map]
    exact List.map_congr_left fun pair mem => splitPair_link (plain pair mem)

theorem decode_join (plain : ∀ pair ∈ pairs, Plain pair.1) :
    (rawPairs ("&".intercalate (pairs.map link))).mapM decodePair = some pairs := by
  rw [rawPairs_join plain, mapM_eq_some, List.forall₂_map_left_iff, List.forall₂_same]
  intro pair mem
  have key := decode_urlencode pair.1
  rw [plain pair mem] at key
  simp [decodePair, key, decode_urlencode]

end Links

section Numbers

/-- The text of a number is written as it is. -/
theorem decimal_plain {s : String}
    (h : ∀ c ∈ s.toList, c.isDigit = true ∨ c = '-' ∨ c = '.') : Plain s := by
  refine urlencode_eq_self fun c mem => ?_
  have digits : ∀ n : Fin 58, 48 ≤ n.val → unreserved (UInt8.ofNat n.val) = true := by decide
  rcases h c mem with digit | rfl | rfl
  · obtain ⟨low, high⟩ : 48 ≤ c.toNat ∧ c.toNat ≤ 57 := by
      simpa [Char.isDigit, UInt32.le_iff_toNat_le] using digit
    exact ⟨by omega, digits ⟨c.toNat, by omega⟩ low⟩
  · decide
  · decide

theorem digits_repr (n : ℕ) : ∀ c ∈ n.repr.toList, c.isDigit = true := by
  intro c mem
  rw [Nat.toList_repr] at mem
  exact Nat.isDigit_of_mem_toDigits (by decide) (by decide) mem

theorem repr_plain (n : ℕ) : Plain n.repr :=
  decimal_plain fun c mem => .inl (digits_repr n c mem)

/-- A number of 32 bits is read back from its text. -/
theorem parseU32_repr (r : UInt32) : parseU32 r.toNat.repr = some r := by
  have unsigned : (match r.toNat.repr.toList with
      | '+' :: rest => rest
      | cs => cs) = Nat.toDigits 10 r.toNat := by
    have digits := digits_repr r.toNat
    rw [Nat.toList_repr] at digits ⊢
    split
    case h_1 rest eq =>
      exact absurd (digits '+' (eq ▸ List.mem_cons_self)) (by decide)
    case h_2 => rfl
  have all : (Nat.toDigits 10 r.toNat).all Char.isDigit = true := by
    rw [List.all_eq_true, ← Nat.toList_repr]
    exact digits_repr r.toNat
  simp only [parseU32, unsigned, Nat.ofDigitChars_ten_toDigits]
  rw [if_pos ⟨Nat.toDigits_ne_nil, all⟩, if_pos r.toNat_lt, UInt32.ofNat_toNat]

end Numbers

section Reproduction

variable {F : Type} {floats : Floats F} {p : SearchParams F}

/-- The rows of the link to the next page. -/
def SearchParams.table (floats : Floats F) (p : SearchParams F) : List (String × Option String) :=
  [("q", nonEmptyText p.q), ("lat", p.lat.map floats.print), ("lon", p.lon.map floats.print),
    ("radius", p.radius.map fun r => r.toNat.repr), ("cost", nonEmptyText p.cost),
    ("type", nonEmptyText p.parkingType), ("security", nonEmptyText p.security),
    ("open_now", if p.openNow = "true" then some "true" else none), ("sort", nonEmptyText p.sort)]

theorem table_nodup : ((p.table floats).map Prod.fst).Nodup := by
  simp only [SearchParams.table, List.map_cons, List.map_nil]
  decide

theorem table_plain : ∀ pair ∈ written (p.table floats), Plain pair.1 := by
  have keys : ∀ key ∈ (p.table floats).map Prod.fst, Plain key := by
    simp only [SearchParams.table, List.map_cons, List.map_nil]
    simp only [List.forall_mem_cons, List.not_mem_nil, false_implies, implies_true, and_true]
    unfold Plain
    decide
  intro pair mem
  obtain ⟨row, row_mem, made⟩ := List.mem_filterMap.mp mem
  obtain ⟨v, -, rfl⟩ := Option.map_eq_some_iff.mp made
  exact keys row.1 (List.mem_map_of_mem row_mem)

theorem text_part {t : String} (label key : String) (h : label = key ++ "=") :
    (if t = "" then [] else [label ++ urlencode t]) =
      ((nonEmptyText t).map fun v => (key, v)).toList.map link := by
  rw [nonEmptyText]
  split_ifs
  · rfl
  · rw [h]
    rfl

theorem number_part {α : Type} {o : Option α} {text : α → String} (label key : String)
    (h : label = key ++ "=") (plain : ∀ a, o = some a → Plain (text a)) :
    (o.map fun a => label ++ text a).toList =
      ((o.map text).map fun v => (key, v)).toList.map link := by
  cases o with
  | none => rfl
  | some a =>
    have same := plain a rfl
    rw [Plain] at same
    simp [link, h, same]

/-- The link is made of the rows of its table. -/
theorem queryString_eq (lawful : floats.Lawful)
    (finite : ∀ x, p.lat = some x ∨ p.lon = some x → floats.finite x) :
    p.queryString floats = "&".intercalate ((written (p.table floats)).map link) := by
  have opened : (if p.openNow = "true" then ["open_now=true"] else []) =
      ((if p.openNow = "true" then some "true" else none).map fun v =>
        ("open_now", v)).toList.map link := by
    split_ifs
    · decide
    · rfl
  simp only [SearchParams.queryString, SearchParams.table, written_cons, List.map_append,
    List.append_assoc]
  rw [text_part "q=" "q" rfl,
    number_part "lat=" "lat" rfl fun x h => decimal_plain (lawful.decimal x (finite x (.inl h))),
    number_part "lon=" "lon" rfl fun x h => decimal_plain (lawful.decimal x (finite x (.inr h))),
    number_part "radius=" "radius" rfl fun r _ => repr_plain r.toNat, text_part "cost=" "cost" rfl,
    text_part "type=" "type" rfl, text_part "security=" "security" rfl, opened,
    text_part "sort=" "sort" rfl]
  simp [written]

theorem table_readable (lawful : floats.Lawful)
    (finite : ∀ x, p.lat = some x ∨ p.lon = some x → floats.finite x) :
    ∀ pair ∈ written (p.table floats), Readable floats pair.1 pair.2 := by
  intro pair mem
  obtain ⟨row, row_mem, made⟩ := List.mem_filterMap.mp mem
  obtain ⟨v, value, rfl⟩ := Option.map_eq_some_iff.mp made
  simp only [SearchParams.table, List.mem_cons, List.not_mem_nil, or_false] at row_mem
  rcases row_mem with rfl | rfl | rfl | rfl | rfl | rfl | rfl | rfl | rfl
  case inr.inl =>
    obtain ⟨x, set, rfl⟩ := Option.map_eq_some_iff.mp value
    simp [Readable, lawful.exact x (finite x (.inl set))]
  case inr.inr.inl =>
    obtain ⟨x, set, rfl⟩ := Option.map_eq_some_iff.mp value
    simp [Readable, lawful.exact x (finite x (.inr set))]
  case inr.inr.inr.inl =>
    obtain ⟨r, -, rfl⟩ := Option.map_eq_some_iff.mp value
    simp [Readable, parseU32_repr]
  all_goals simp [Readable]

theorem table_once (key : String) :
    ((written (p.table floats)).map Prod.fst).count key ≤ 1 := by
  rw [count_valuesOf]
  by_cases listed : key ∈ (p.table floats).map Prod.fst
  · obtain ⟨⟨k, value⟩, mem, rfl⟩ := List.mem_map.mp listed
    rw [valuesOf_row table_nodup mem]
    cases value <;> simp
  · rw [valuesOf_absent listed]
    exact Nat.zero_le 1

/-- The next page reads what the link was made of. -/
theorem parse_queryString (lawful : floats.Lawful)
    (finite : ∀ x, p.lat = some x ∨ p.lon = some x → floats.finite x) :
    SearchParams.parse floats (p.queryString floats) =
      some (summary floats (written (p.table floats))).finish := by
  rw [parse_eq_some, queryString_eq lawful finite]
  exact ⟨_, decode_join table_plain,
    ⟨table_readable lawful finite, fun key _ => table_once key⟩, rfl⟩

@[simp] theorem nonEmptyText_getD (t : String) : (nonEmptyText t).getD "" = t := by
  rw [nonEmptyText]
  split_ifs with empty
  · exact empty.symm
  · rfl

/-- The text of a filter is collected to the codes it was made of. -/
theorem collected_row {key : String} {codes : List String} (listed : Listed codes)
    (mem : (key, nonEmptyText (",".intercalate codes)) ∈ p.table floats) :
    collected key (written (p.table floats)) = codes := by
  rw [collected, valuesOf_row table_nodup mem, nonEmptyText]
  split_ifs with empty
  · exact ((join_eq_empty listed).mp empty).symm
  · exact extend_join listed fun none => empty ((join_eq_empty listed).mpr none)

/-- What the link is read as asks for the same search. -/
theorem link_input (lawful : floats.Lawful)
    (finite : ∀ x, p.lat = some x ∨ p.lon = some x → floats.finite x) {types security : List String}
    (types_listed : Listed types) (security_listed : Listed security)
    (types_text : p.parkingType = ",".intercalate types)
    (security_text : p.security = ",".intercalate security) :
    { (summary floats (written (p.table floats))).finish.toInput with
      cursor := p.toInput.cursor, bbox := p.toInput.bbox } = p.toInput := by
  have row : ∀ key value, (key, value) ∈ p.table floats →
      given key (written (p.table floats)) = value := fun _ _ => given_row table_nodup
  have lat : (p.lat.map floats.print).bind floats.parse = p.lat := by
    cases set : p.lat with
    | none => rfl
    | some x => exact lawful.exact x (finite x (.inl set))
  have lon : (p.lon.map floats.print).bind floats.parse = p.lon := by
    cases set : p.lon with
    | none => rfl
    | some x => exact lawful.exact x (finite x (.inr set))
  have radius : (p.radius.map fun r => r.toNat.repr).bind parseU32 = p.radius := by
    cases p.radius with
    | none => rfl
    | some r => exact parseU32_repr r
  have opened : decide (((if p.openNow = "true" then some "true" else none).getD "") = "true") =
      decide (p.openNow = "true") := by
    split_ifs with flag
    · simp [flag]
    · simp [flag]
  have types_again : collected "type" (written (p.table floats)) = types :=
    collected_row types_listed (by simp [SearchParams.table, types_text])
  have security_again : collected "security" (written (p.table floats)) = security :=
    collected_row security_listed (by simp [SearchParams.table, security_text])
  simp only [SearchParams.toInput, ParseState.finish, summary, types_again, security_again,
    ← types_text, ← security_text]
  rw [row "q" (nonEmptyText p.q) (by simp [SearchParams.table]),
    row "lat" (p.lat.map floats.print) (by simp [SearchParams.table]),
    row "lon" (p.lon.map floats.print) (by simp [SearchParams.table]),
    row "radius" (p.radius.map fun r => r.toNat.repr) (by simp [SearchParams.table]),
    row "cost" (nonEmptyText p.cost) (by simp [SearchParams.table]),
    row "open_now" (if p.openNow = "true" then some "true" else none)
      (by simp [SearchParams.table]),
    row "sort" (nonEmptyText p.sort) (by simp [SearchParams.table]), lat, lon, radius, opened]
  simp

end Reproduction

/-- The link to the next page asks for the same search; every text survives the codec; and a query
is read exactly when its components are percent encodings of UTF-8 texts, its numeric fields are
numbers and no scalar key comes twice. -/
theorem search_links_reproduce {F : Type} (floats : Floats F) (lawful : floats.Lawful) :
    (∀ raw p, SearchParams.parse floats raw = some p →
      (∀ x, p.lat = some x ∨ p.lon = some x → floats.finite x) →
      ∃ p', SearchParams.parse floats (p.queryString floats) = some p' ∧
        { p'.toInput with cursor := p.toInput.cursor, bbox := p.toInput.bbox } = p.toInput) ∧
    (∀ s, decodeQueryComponent (urlencode s) = some s) ∧
    ∀ raw, (∃ p, SearchParams.parse floats raw = some p) ↔
      ∃ pairs, List.Forall₂ (fun raw pair => Decodes (utf8 raw.1) (utf8 pair.1) ∧
        Decodes (utf8 raw.2) (utf8 pair.2)) (rawPairs raw) pairs ∧ Accepted floats pairs := by
  refine ⟨fun raw p parsed finite => ?_, decode_urlencode, fun raw => ?_⟩
  · obtain ⟨pairs, -, -, rfl⟩ := parse_eq_some.mp parsed
    exact ⟨_, parse_queryString lawful finite, link_input lawful finite
      (collected_listed "type" pairs) (collected_listed "security" pairs) rfl rfl⟩
  · have component : ∀ raw pair : String × String, decodePair raw = some pair ↔
        Decodes (utf8 raw.1) (utf8 pair.1) ∧ Decodes (utf8 raw.2) (utf8 pair.2) := by
      rintro raw ⟨key, value⟩
      simp [decodePair, Option.bind_eq_some_iff, decodeQueryComponent_eq_some]
    simp only [parse_eq_some, mapM_eq_some, component]
    constructor
    · rintro ⟨_, pairs, decoded, accepted, rfl⟩
      exact ⟨pairs, decoded, accepted⟩
    · rintro ⟨pairs, decoded, accepted⟩
      exact ⟨_, pairs, decoded, accepted, rfl⟩

/-- Whole degrees, whose texts have no point. -/
def wholeDegrees : Floats ℤ where
  parse s := match s.toList with
    | '-' :: digits => (parseU32 (String.ofList digits)).map fun n => -(n.toNat : ℤ)
    | digits => (parseU32 (String.ofList digits)).map fun n => (n.toNat : ℤ)
  print n := if n < 0 then "-" ++ n.natAbs.repr else n.natAbs.repr
  finite n := n.natAbs < UInt32.size

theorem wholeDegrees_lawful : wholeDegrees.Lawful where
  exact x small := by
    have value : (UInt32.ofNat x.natAbs).toNat = x.natAbs := UInt32.toNat_ofNat_of_lt' small
    have read : parseU32 x.natAbs.repr = some (UInt32.ofNat x.natAbs) := by
      have := parseU32_repr (UInt32.ofNat x.natAbs)
      rwa [value] at this
    by_cases negative : x < 0
    · have text : (wholeDegrees.print x).toList = '-' :: x.natAbs.repr.toList := by
        simp [wholeDegrees, negative]
      simp only [wholeDegrees] at text ⊢
      rw [text]
      simp only [String.ofList_toList, read, Option.map_some, value]
      congr 1
      omega
    · have text : (wholeDegrees.print x).toList = x.natAbs.repr.toList := by
        simp [wholeDegrees, negative]
      have unsigned : ∀ digits, x.natAbs.repr.toList ≠ '-' :: digits := fun digits eq =>
        absurd (digits_repr x.natAbs '-' (eq ▸ List.mem_cons_self)) (by decide)
      simp only [wholeDegrees] at text ⊢
      rw [text]
      split
      case h_1 digits eq => exact absurd eq (unsigned digits)
      case h_2 =>
        simp only [String.ofList_toList, read, Option.map_some, value]
        congr 1
        omega
  decimal x _ c mem := by
    simp only [wholeDegrees] at mem
    split_ifs at mem
    · rw [String.toList_append, List.mem_append] at mem
      rcases mem with sign | digit
      · exact .inr (.inl (by simpa using sign))
      · exact .inl (digits_repr _ c digit)
    · exact .inl (digits_repr _ c mem)

/-- A link with a repeated filter and an accent: the next page joins the filter. -/
theorem search_links_reproduce_repeated : ∃ p p',
    SearchParams.parse wholeDegrees "q=caf%C3%A9&lat=-23&type=rack&type=+u_rack,rack&cursor=x" =
      some p ∧
    SearchParams.parse wholeDegrees "q=caf%C3%A9&lat=-23&type=rack%2Cu_rack" = some p' ∧
    { p'.toInput with cursor := p.toInput.cursor, bbox := p.toInput.bbox } = p.toInput := by
  have read : (SearchParams.parse wholeDegrees
      "q=caf%C3%A9&lat=-23&type=rack&type=+u_rack,rack&cursor=x").map (fun p =>
        (p.lat, p.lon, p.queryString wholeDegrees)) =
      some (some (-23), none, "q=caf%C3%A9&lat=-23&type=rack%2Cu_rack") := by decide +kernel
  obtain ⟨p, parsed, link⟩ := Option.map_eq_some_iff.mp read
  simp only [Prod.mk.injEq] at link
  obtain ⟨lat, lon, link⟩ := link
  have finite : ∀ x, p.lat = some x ∨ p.lon = some x → wholeDegrees.finite x := by
    intro x set
    rw [lat, lon] at set
    obtain rfl : -23 = x := by simpa using set
    show (-23 : ℤ).natAbs < UInt32.size
    decide
  obtain ⟨p', again, same⟩ :=
    (search_links_reproduce wholeDegrees wholeDegrees_lawful).1 _ p parsed finite
  exact ⟨p, p', parsed, link ▸ again, same⟩

end SearchLinks
