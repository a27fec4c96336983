import BikesNest.DelimitedText
import BikesNest.Table

/-! The cookies that a browser keeps for one host, which it always reaches over a secure
connection. A line of a response is cut into a pair and attributes; a stored cookie is replaced by
one of the same name and path; a request carries the cookies whose path contains its own, the
longer paths first and the older cookies before the newer. Of the attributes, those that keep a
cookie from scripts, from plain connections and from other sites are not followed further. -/

namespace CookieJar

open DelimitedText

/-! ### Lines of a response -/

def blank (c : Char) : Bool := c == ' ' || c == '\t'

def strip (cs : Text) : Text := (cs.dropWhile blank).rdropWhile blank

/-- A piece at its first `=`. -/
def cut (piece : Text) : Text × Text :=
  (strip (piece.takeWhile (· != '=')), strip (piece.dropWhile (· != '=')).tail)

structure SetCookie where
  name : Text
  value : Text
  /-- The names are in lower case. -/
  attributes : List (Text × Text)
  deriving DecidableEq

def attributeOf (piece : Text) : Text × Text := ((cut piece).1.map Char.toLower, (cut piece).2)

def parse (line : Text) : Option SetCookie :=
  match line.splitOn ';' with
  | [] => none
  | pair :: pieces =>
    if '=' ∈ pair ∧ (cut pair).1 ≠ [] then some ⟨(cut pair).1, (cut pair).2, pieces.map attributeOf⟩
    else none

/-- What the attributes with the name say, the last one first. -/
def SetCookie.said (c : SetCookie) (name : String) : List Text :=
  ((c.attributes.filter fun a => decide (a.1 = name.toList)).map Prod.snd).reverse

/-- The path of the last attribute, unless it does not begin at the root. -/
def SetCookie.path (c : SetCookie) (defaultPath : Text) : Text :=
  ((c.said "path").head?.filter fun path => decide (path.head? = some '/')).getD defaultPath

/-- The seconds that a value says; less than none is none. -/
def seconds : Text → Option ℕ
  | '-' :: digits => if digits ≠ [] ∧ digits.all Char.isDigit then some 0 else none
  | digits =>
    if digits ≠ [] ∧ digits.all Char.isDigit then some (Nat.ofDigitChars 10 digits 0) else none

def SetCookie.maxAge (c : SetCookie) : Option ℕ := ((c.said "max-age").filterMap seconds).head?

/-- A name with the prefix is taken only for the whole host. -/
def SetCookie.allowed (c : SetCookie) : Bool :=
  !("__Host-".toList.isPrefixOf c.name) ||
    (!(c.said "secure").isEmpty && (c.said "domain").isEmpty &&
      decide ((c.said "path").head? = some ['/']))

/-! ### The jar -/

structure Cookie where
  name : Text
  value : Text
  path : Text
  /-- Without a time, the cookie lasts until the browser is closed. -/
  expires : Option ℕ
  deriving DecidableEq

def Cookie.key (c : Cookie) : Text × Text := (c.name, c.path)

def Cookie.live (now : ℕ) (c : Cookie) : Bool := c.expires.all fun time => decide (now < time)

/-- The cookies in the order in which they were first stored. -/
abbrev Jar := Table (Text × Text) Cookie Cookie.key

def Cookie.renew (c old : Cookie) : Cookie := { old with value := c.value, expires := c.expires }

theorem Cookie.key_renew (c old : Cookie) : (c.renew old).key = old.key := rfl

/-- Expired cookies go; what is stored afresh keeps its place. -/
def Jar.put (jar : Jar) (now : ℕ) (c : Cookie) : Jar :=
  Table.upsert (Table.delete jar fun q => !q.live now) c c.renew c.key_renew

def SetCookie.cookie (c : SetCookie) (now : ℕ) (defaultPath : Text) : Cookie :=
  ⟨c.name, c.value, c.path defaultPath, c.maxAge.map (now + ·)⟩

/-- A browser takes a line of a response. -/
def Jar.receive (jar : Jar) (now : ℕ) (defaultPath line : Text) : Jar :=
  match parse line with
  | none => jar
  | some c => if c.allowed then jar.put now (c.cookie now defaultPath) else jar

/-- A path contains itself, and those that go on from it after a slash. -/
def pathMatch (request path : Text) : Bool :=
  path.isPrefixOf request &&
    (decide (request = path) || decide (path.getLast? = some '/') ||
      decide ((request.drop path.length).head? = some '/'))

/-- What a request to the path carries. -/
def Jar.sent (jar : Jar) (now : ℕ) (request : Text) : List Cookie :=
  (jar.filter fun c => c.live now && pathMatch request c.path).mergeSort fun a b =>
    decide (b.path.length ≤ a.path.length)

def Cookie.pair (c : Cookie) : Text := c.name ++ '=' :: c.value

/-- The line of a request, if there is a cookie to send. -/
def header (cookies : List Cookie) : Option Text :=
  if cookies = [] then none else some (join (cookies.map Cookie.pair))

/-! ### Lines -/

section Lines

/-- A text that a line can carry: no blanks at its ends and no separator. -/
structure Plain (cs : Text) : Prop where
  stripped : strip cs = cs
  whole : ';' ∉ cs

theorem strip_of_forall {cs : Text} (h : ∀ c ∈ cs, blank c = false) : strip cs = cs := by
  have front : cs.dropWhile blank = cs := by
    cases cs with
    | nil => rfl
    | cons c cs => exact List.dropWhile_cons_of_neg (by simp [h c List.mem_cons_self])
  rw [strip, front, List.rdropWhile_eq_self_iff]
  intro nonempty
  simp [h _ (List.getLast_mem nonempty)]

theorem strip_blank (cs : Text) : strip (' ' :: cs) = strip cs := by
  rw [strip, List.dropWhile_cons_of_pos (by decide), strip]

theorem cut_blank (piece : Text) : cut (' ' :: piece) = cut piece := by
  rw [cut, List.takeWhile_cons_of_pos (by decide), List.dropWhile_cons_of_pos (by decide),
    strip_blank, cut]

theorem cut_pair {name value : Text} (named : strip name = name) (valued : strip value = value)
    (first : '=' ∉ name) : cut (name ++ '=' :: value) = (name, value) := by
  have before : ∀ c ∈ name, (c != '=') = true := fun c hc => bne_iff_ne.mpr fun same =>
    first (same ▸ hc)
  rw [cut, List.takeWhile_append_of_pos before, List.dropWhile_append_of_pos before]
  simp [named, valued]

theorem cut_single {name : Text} (named : strip name = name) (first : '=' ∉ name) :
    cut name = (name, []) := by
  have before : ∀ c ∈ name, (c != '=') = true := fun c hc => bne_iff_ne.mpr fun same =>
    first (same ▸ hc)
  rw [cut, List.takeWhile_eq_self_iff.mpr before, List.dropWhile_eq_nil_iff.mpr before, named]
  rfl

/-- An attribute as a line writes it. -/
def written (a : Text × Option Text) : Text := a.1 ++ a.2.elim [] ('=' :: ·)

/-- A line with a pair and attributes. -/
def write (name value : Text) (attributes : List (Text × Option Text)) : Text :=
  join ((name ++ '=' :: value) :: attributes.map written)

/-- Names that a line can carry. -/
structure Name (cs : Text) : Prop extends Plain cs where
  unsplit : '=' ∉ cs

theorem attributeOf_written {name : Text} {value : Option Text} (named : Name name)
    (valued : ∀ v ∈ value, strip v = v) :
    attributeOf (written (name, value)) = (name.map Char.toLower, value.getD []) := by
  cases value with
  | none =>
    rw [written, Option.elim_none, List.append_nil, attributeOf,
      cut_single named.stripped named.unsplit]
    rfl
  | some v =>
    rw [written, Option.elim_some, attributeOf,
      cut_pair named.stripped (valued v rfl) named.unsplit]
    rfl

/-- A line is read as it was written. -/
theorem parse_write {name value : Text} {attributes : List (Text × Option Text)}
    (named : Name name) (nonempty : name ≠ []) (valued : Plain value)
    (all : ∀ a ∈ attributes, Name a.1 ∧ ∀ v ∈ a.2, Plain v) :
    parse (write name value attributes) =
      some ⟨name, value, attributes.map fun a => (a.1.map Char.toLower, a.2.getD [])⟩ := by
  have pieces : ∀ q ∈ (name ++ '=' :: value) :: attributes.map written, ';' ∉ q := by
    intro q hq
    rcases List.mem_cons.mp hq with rfl | hq
    · simp [named.whole, valued.whole]
    · obtain ⟨⟨k, v⟩, ha, rfl⟩ := List.mem_map.mp hq
      obtain ⟨key, text⟩ := all _ ha
      cases v with
      | none => simpa [written] using key.whole
      | some v => simpa [written] using ⟨key.whole, (text v rfl).whole⟩
  have rest : ((attributes.map written).map (' ' :: ·)).map attributeOf =
      attributes.map fun a => (a.1.map Char.toLower, a.2.getD []) := by
    rw [List.map_map, List.map_map]
    refine List.map_congr_left fun a ha => ?_
    obtain ⟨key, text⟩ := all a ha
    change attributeOf (' ' :: written a) = _
    rw [attributeOf, cut_blank]
    exact attributeOf_written key fun v hv => (text v hv).stripped
  rw [parse, write, splitOn_join pieces]
  dsimp only
  rw [cut_pair named.stripped valued.stripped named.unsplit, if_pos ⟨by simp, nonempty⟩, rest]

end Lines

/-! ### What the jar holds -/

section Jars

variable {jar : Jar} {now : ℕ}

theorem find_put (jar : Jar) (now : ℕ) (c : Cookie) (k : Text × Text) :
    (jar.put now c).find k =
      if c.key = k then some c else (jar.find k).filter (Cookie.live now) := by
  rw [Jar.put, Table.find_upsert, Table.find_delete]
  simp only [Bool.not_not]
  split
  · rename_i here
    cases stored : (jar.find k).filter fun q => q.live now with
    | none => rfl
    | some old =>
      have same : old.key = c.key := by
        rw [here]
        exact (Table.find_eq_some.mp (Option.filter_eq_some_iff.mp stored).1).2
      rw [Option.elim_some, Option.some.injEq]
      have name : old.name = c.name := congrArg Prod.fst same
      have path : old.path = c.path := congrArg Prod.snd same
      rw [Cookie.renew, name, path]
  · rfl

theorem mem_put {c q : Cookie} (h : q ∈ jar.put now c) : q = c ∨ q ∈ jar := by
  have found := (Table.find_eq_some (k := q.key)).mpr ⟨h, rfl⟩
  rw [find_put] at found
  split at found
  · exact .inl (Option.some.inj found).symm
  · exact .inr (Table.find_eq_some.mp (Option.filter_eq_some_iff.mp found).1).1

theorem mem_sent {request : Text} {c : Cookie} :
    c ∈ jar.sent now request ↔ c ∈ jar ∧ c.live now = true ∧ pathMatch request c.path = true := by
  rw [Jar.sent, List.mem_mergeSort, Table.mem_filter, Bool.and_eq_true]

theorem sent_nodup (jar : Jar) (now : ℕ) (request : Text) : (jar.sent now request).Nodup :=
  (List.mergeSort_perm _ _).nodup_iff.mpr ((List.Nodup.of_map _ jar.distinct).filter _)

theorem live_of_le {c : Cookie} {later : ℕ} (order : now ≤ later) (h : c.live later = true) :
    c.live now = true := by
  revert h
  unfold Cookie.live
  cases c.expires with
  | none => exact id
  | some time =>
    simp only [Option.all_some, decide_eq_true_eq]
    omega

theorem pathMatch_iff {request path : Text} : pathMatch request path = true ↔
    request = path ∨ ∃ rest, request = path ++ rest ∧
      (path.getLast? = some '/' ∨ rest.head? = some '/') := by
  simp only [pathMatch, Bool.and_eq_true, Bool.or_eq_true, decide_eq_true_eq,
    List.isPrefixOf_iff_prefix, or_assoc]
  constructor
  · rintro ⟨⟨rest, rfl⟩, same | slash⟩
    · exact .inl same
    · rw [List.drop_left] at slash
      exact .inr ⟨rest, rfl, slash⟩
  · rintro (rfl | ⟨rest, rfl, slash⟩)
    · exact ⟨List.prefix_refl _, .inl rfl⟩
    · rw [List.drop_left]
      exact ⟨List.prefix_append _ _, .inr slash⟩

/-- The whole host is the area of the root. -/
theorem pathMatch_root {request : Text} (rooted : request.head? = some '/') :
    pathMatch request ['/'] = true := by
  obtain ⟨rest, rfl⟩ := List.head?_eq_some_iff.mp rooted
  exact pathMatch_iff.mpr (.inr ⟨rest, rfl, .inl rfl⟩)

end Jars

end CookieJar
