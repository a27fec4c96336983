import BikesNest.Parking

/-! The client address that rate limits are keyed on, behind proxies that each report the address
they saw in `X-Forwarded-For`. A header line is shown as a text with one character for each byte;
a peer address enters by its text. -/

namespace ClientIp

open Parking

/-! ### Addresses, as the standard library reads them -/

def isOctet (cs : List Char) : Bool :=
  match cs with
  | [] => false
  | '0' :: rest => rest.isEmpty
  | _ => decide (cs.length ≤ 3) && cs.all Char.isDigit &&
    decide (cs.foldl (fun n c => 10 * n + (c.toNat - 48)) 0 ≤ 255)

def isIpv4 (cs : List Char) : Bool :=
  match cs.splitOn '.' with
  | [a, b, c, d] => isOctet a && isOctet b && isOctet c && isOctet d
  | _ => false

def isHexDigit (c : Char) : Bool :=
  c.isDigit || ('a' ≤ c && c ≤ 'f') || ('A' ≤ c && c ≤ 'F')

def isGroup (cs : List Char) : Bool :=
  decide (1 ≤ cs.length ∧ cs.length ≤ 4) && cs.all isHexDigit

/-- The groups of one side, of which the last may be an IPv4 address that counts for two. -/
def countGroups (tail : Bool) : List (List Char) → Option ℕ
  | [] => some 0
  | [cs] => if isGroup cs then some 1 else if tail && isIpv4 cs then some 2 else none
  | cs :: rest => if isGroup cs then (countGroups tail rest).map (· + 1) else none

def side (tail : Bool) (cs : List Char) : Option ℕ :=
  if cs.isEmpty then some 0 else countGroups tail (cs.splitOn ':')

/-- The text around the first pair of colons. -/
def splitElision : List Char → Option (List Char × List Char)
  | [] => none
  | ':' :: ':' :: rest => some ([], rest)
  | c :: rest => (splitElision rest).map fun p => (c :: p.1, p.2)

def isIpv6 (cs : List Char) : Bool :=
  match splitElision cs with
  | none => decide (countGroups true (cs.splitOn ':') = some 8)
  | some (head, tail) =>
    match side false head, side true tail with
    | some a, some b => decide (a + b ≤ 7)
    | _, _ => false

/-- `str::parse::<IpAddr>` succeeds. -/
def isIpAddr (s : String) : Bool := isIpv4 s.toList || isIpv6 s.toList

/-! ### The rule -/

def unknownPeer : String := "test-peer"

/-- The entries of a line, trimmed and without the blank ones. -/
def entries (xff : String) : List String :=
  ((xff.toList.splitOn ',').map fun piece => trim (String.ofList piece)).filter fun s =>
    decide (s ≠ "")

def resolveClientIp (peer : Option String) (xff : Option String) (hops : ℕ) : String :=
  let peerIp := peer.getD unknownPeer
  if hops = 0 then peerIp
  else
    match xff with
    | none => peerIp
    | some xff =>
      if (entries xff).length < hops then peerIp
      else
        match (entries xff)[(entries xff).length - hops]? with
        | some candidate => if isIpAddr candidate then candidate else peerIp
        | none => peerIp

def isVisible (c : Char) : Bool := (32 ≤ c.toNat && c.toNat < 127) || c == '\t'

/-- `HeaderValue::to_str`: a line of visible ASCII. -/
def toStr (line : String) : Option String := if line.toList.all isVisible then some line else none

/-- `from_request_parts`: of the lines of the header, `get` gives the first. -/
def fromRequestParts (peer : Option String) (lines : List String) (hops : ℕ) : String :=
  resolveClientIp peer (lines.head?.bind toStr) hops

/-! ### The proxies -/

/-- What a proxy reports: one entry of a list. -/
structure Entry where
  text : String
  trimmed : trim text = text
  filled : text ≠ ""
  single : ',' ∉ text.toList
  visible : text.toList.all isVisible = true

/-- A proxy extends the last line that is there, or adds a line of its own. -/
inductive Forwarding where
  | extend | add
  deriving DecidableEq

def extendLine (line : String) (e : Entry) : String := line ++ ", " ++ e.text

def Forwarding.append (lines : List String) (e : Entry) : Forwarding → List String
  | .add => lines ++ [e.text]
  | .extend =>
    match lines.getLast? with
    | none => [e.text]
    | some last => lines.dropLast ++ [extendLine last e]

/-- The lines that reach the application, with the outermost proxy first. -/
def forward (client : List String) (proxies : List (Forwarding × Entry)) : List String :=
  proxies.foldl (fun lines p => p.1.append lines p.2) client

/-- The entries of all lines, which are one list to HTTP. -/
def combined (lines : List String) : List String := lines.flatMap entries

def fromRight (es : List String) (n : ℕ) : Option String := es.reverse[n - 1]?

/-- What two requests with these lines of the client and the same peer and proxies come to. -/
def Agrees (peer : Option String) (proxies : List (Forwarding × Entry))
    (client₁ client₂ : List String) : Prop :=
  fromRequestParts peer (forward client₁ proxies) proxies.length =
      fromRequestParts peer (forward client₂ proxies) proxies.length ∧
    ∀ ip, fromRight (combined (forward client₁ proxies)) proxies.length = some ip →
      isIpAddr ip = true → fromRequestParts peer (forward client₁ proxies) proxies.length = ip

/-- All that arrives is one line of text. -/
def SingleText (arrangement : List Forwarding) : List String → Prop
  | [] => ∀ f ∈ arrangement.tail, f = .extend
  | [line] => line.toList.all isVisible = true ∧ ∀ f ∈ arrangement, f = .extend
  | _ :: _ :: _ => False

section Lines

theorem isVisible_comma : isVisible ',' = true := by decide

theorem isVisible_blank : isVisible ' ' = true := by decide

/-- The entries of two lines joined by a comma. -/
theorem entries_comma (a b : String) : entries (a ++ "," ++ b) = entries a ++ entries b := by
  have joined : (a ++ "," ++ b).toList = a.toList ++ ',' :: b.toList := by simp
  simp only [entries, joined, List.splitOn_append_cons_self, List.map_append, List.filter_append]

theorem entries_entry (e : Entry) : entries e.text = [e.text] := by
  have alone : e.text.toList.splitOn ',' = [e.text.toList] := List.splitOn_eq_singleton e.single
  simp [entries, alone, e.trimmed, e.filled]

/-- The blank after the comma is trimmed away. -/
theorem entries_blank (e : Entry) : entries (" " ++ e.text) = [e.text] := by
  have text : (" " ++ e.text).toList = ' ' :: e.text.toList := by simp
  have alone : (' ' :: e.text.toList).splitOn ',' = [' ' :: e.text.toList] := by
    refine List.splitOn_eq_singleton fun member => ?_
    rcases List.mem_cons.mp member with blank | inside
    · cases blank
    · exact e.single inside
  have trimmed : trim (String.ofList (' ' :: e.text.toList)) = trim e.text := by
    have white : isWhitespace ' ' = true := by decide
    simp only [trim, String.toList_ofList, List.dropWhile_cons_of_pos white]
  simp only [entries, text, alone, List.map_cons, List.map_nil, trimmed, e.trimmed]
  simp [e.filled]

theorem entries_extendLine (line : String) (e : Entry) :
    entries (extendLine line e) = entries line ++ [e.text] := by
  have joined : extendLine line e = line ++ "," ++ (" " ++ e.text) := by
    simp [extendLine, String.append_assoc, ← String.toList_inj]
  rw [joined, entries_comma, entries_blank]

theorem visible_extendLine (line : String) (e : Entry) :
    (extendLine line e).toList.all isVisible = line.toList.all isVisible := by
  simp [extendLine, isVisible_comma, isVisible_blank, e.visible]

/-- However a proxy reports, its entry is the last one of the list. -/
theorem combined_append (lines : List String) (f : Forwarding) (e : Entry) :
    combined (f.append lines e) = combined lines ++ [e.text] := by
  cases f with
  | add => simp [Forwarding.append, combined, entries_entry]
  | extend =>
    simp only [Forwarding.append]
    cases last : lines.getLast? with
    | none =>
      obtain rfl : lines = [] := List.getLast?_eq_none_iff.mp last
      simp [combined, entries_entry]
    | some line =>
      have whole : lines = lines.dropLast ++ [line] :=
        (List.dropLast_append_getLast? line last).symm
      have here : combined lines = combined lines.dropLast ++ entries line := by
        conv_lhs => rw [whole]
        simp [combined]
      rw [here]
      simp [combined, entries_extendLine]

theorem combined_forward (client : List String) (proxies : List (Forwarding × Entry)) :
    combined (forward client proxies) = combined client ++ proxies.map fun p => p.2.text := by
  induction proxies generalizing client with
  | nil => simp [forward]
  | cons p rest ih =>
    have next := ih (p.1.append client p.2)
    rw [combined_append] at next
    simpa [forward] using next

end Lines

section FirstLine

/-- A line extended by the first proxies. -/
def extended (line : String) (es : List Entry) : String := es.foldl extendLine line

theorem entries_extended (line : String) (es : List Entry) :
    entries (extended line es) = entries line ++ es.map Entry.text := by
  induction es generalizing line with
  | nil => simp [extended]
  | cons e rest ih =>
    have next := ih (extendLine line e)
    rw [entries_extendLine] at next
    simpa [extended] using next

theorem visible_extended (line : String) (es : List Entry) :
    (extended line es).toList.all isVisible = line.toList.all isVisible := by
  induction es generalizing line with
  | nil => rfl
  | cons e rest ih => exact (ih (extendLine line e)).trans (visible_extendLine line e)

/-- How many proxies extend the line before one adds another. -/
def reach (arrangement : List Forwarding) : ℕ :=
  (arrangement.takeWhile fun f => decide (f = .extend)).length

theorem reach_eq_length {arrangement : List Forwarding} :
    reach arrangement = arrangement.length ↔ ∀ f ∈ arrangement, f = .extend := by
  induction arrangement with
  | nil => simp [reach]
  | cons f rest ih =>
    cases f with
    | add => simp [reach]
    | extend =>
      have further : reach (.extend :: rest) = reach rest + 1 := by simp [reach]
      rw [further, List.length_cons, Nat.add_right_cancel_iff, ih]
      simp

theorem reach_le (arrangement : List Forwarding) : reach arrangement ≤ arrangement.length :=
  (List.takeWhile_sublist _).length_le

/-- A second line ends what is done to the first. -/
theorem head_forward_many (line : String) (more : List String) (some : more ≠ [])
    (proxies : List (Forwarding × Entry)) :
    (forward (line :: more) proxies).head? = .some line := by
  induction proxies generalizing more with
  | nil => rfl
  | cons p rest ih =>
    have kept : ∃ more', more' ≠ [] ∧ p.1.append (line :: more) p.2 = line :: more' := by
      cases p.1 with
      | add => exact ⟨more ++ [p.2.text], by simp, rfl⟩
      | extend =>
        obtain ⟨last, there⟩ := List.getLast?_isSome.mpr some |> Option.isSome_iff_exists.mp
        refine ⟨more.dropLast ++ [extendLine last p.2], by simp, ?_⟩
        simp [Forwarding.append, List.getLast?_cons, there, List.dropLast_cons_of_ne_nil some]
    obtain ⟨more', nonempty, eq⟩ := kept
    rw [forward, List.foldl_cons, eq]
    exact ih more' nonempty

theorem head_forward_one (line : String) (proxies : List (Forwarding × Entry)) :
    (forward [line] proxies).head? =
      some (extended line ((proxies.take (reach (proxies.map Prod.fst))).map Prod.snd)) := by
  induction proxies generalizing line with
  | nil => rfl
  | cons p rest ih =>
    obtain ⟨f, e⟩ := p
    cases f with
    | add =>
      have nothing : reach (.add :: rest.map Prod.fst) = 0 := by simp [reach]
      rw [List.map_cons, nothing]
      exact head_forward_many line [e.text] (by simp) rest
    | extend =>
      have further : reach (.extend :: rest.map Prod.fst) = reach (rest.map Prod.fst) + 1 := by
        simp [reach]
      rw [List.map_cons, further]
      exact ih (extendLine line e)

end FirstLine

section Law

variable {peer : Option String} {lines : List String} {line : String} {n : ℕ}

/-- Only the first line counts, if it is text. -/
theorem fromRequestParts_head (first : lines.head? = some line) :
    fromRequestParts peer lines n =
      resolveClientIp peer (if line.toList.all isVisible then some line else none) n := by
  rw [fromRequestParts, first, Option.bind_some, toStr]

/-- Where a line ends in `n` entries, the first of them counts. -/
theorem resolveClientIp_ending {before rest : List String} {candidate : String}
    (ending : entries line = before ++ candidate :: rest) :
    resolveClientIp peer (some line) (rest.length + 1) =
      if isIpAddr candidate then candidate else peer.getD unknownPeer := by
  have count : (entries line).length = before.length + (rest.length + 1) := by simp [ending]
  have there : (entries line)[(entries line).length - (rest.length + 1)]? = some candidate := by
    rw [count, Nat.add_sub_cancel, ending]
    simp
  have enough : ¬ (entries line).length < rest.length + 1 := by omega
  simp only [resolveClientIp, if_neg (Nat.succ_ne_zero _), if_neg enough, there]

theorem resolveClientIp_short (few : (entries line).length < n) :
    resolveClientIp peer (some line) n = peer.getD unknownPeer := by
  have some : n ≠ 0 := by omega
  simp only [resolveClientIp, if_neg some, if_pos few]

theorem resolveClientIp_none : resolveClientIp peer none n = peer.getD unknownPeer := by
  unfold resolveClientIp
  split <;> rfl

theorem fromRight_forward (client : List String) (p : Forwarding × Entry)
    (rest : List (Forwarding × Entry)) :
    fromRight (combined (forward client (p :: rest))) (p :: rest).length = some p.2.text := by
  rw [combined_forward, fromRight, List.reverse_append]
  have last : (p :: rest).length - 1 < ((p :: rest).map fun p => p.2.text).reverse.length := by simp
  rw [List.getElem?_append_left last]
  simp

/-- Where a single line of text arrives, the outermost proxy's entry counts. -/
theorem single_text {client : List String} {p : Forwarding × Entry}
    {rest : List (Forwarding × Entry)}
    (single : SingleText ((p :: rest).map Prod.fst) client) :
    fromRequestParts peer (forward client (p :: rest)) (p :: rest).length =
      if isIpAddr p.2.text then p.2.text else peer.getD unknownPeer := by
  obtain ⟨f, e⟩ := p
  match client, single with
  | [], all =>
    have whole : reach (rest.map Prod.fst) = rest.length :=
      (reach_eq_length.mpr all).trans (List.length_map _)
    have first := head_forward_one e.text rest
    rw [whole, List.take_length] at first
    have start : forward [] ((f, e) :: rest) = forward [e.text] rest := by cases f <;> rfl
    have ending : entries (extended e.text (rest.map Prod.snd)) =
        [] ++ e.text :: (rest.map Prod.snd).map Entry.text := by
      rw [entries_extended, entries_entry]
      rfl
    have visible : (extended e.text (rest.map Prod.snd)).toList.all isVisible = true :=
      (visible_extended _ _).trans e.visible
    have result : resolveClientIp peer _ _ = _ := resolveClientIp_ending ending
    rw [List.length_map, List.length_map] at result
    rw [start, fromRequestParts_head first, if_pos visible]
    exact result
  | [line], ⟨visible, all⟩ =>
    have whole : reach (((f, e) :: rest).map Prod.fst) = ((f, e) :: rest).length :=
      (reach_eq_length.mpr all).trans (List.length_map _)
    have first := head_forward_one line ((f, e) :: rest)
    rw [whole, List.take_length] at first
    have ending : entries (extended line (((f, e) :: rest).map Prod.snd)) =
        entries line ++ e.text :: (rest.map Prod.snd).map Entry.text := by
      rw [entries_extended]
      rfl
    have visible : (extended line (((f, e) :: rest).map Prod.snd)).toList.all isVisible = true :=
      (visible_extended _ _).trans visible
    have result : resolveClientIp peer _ _ = _ := resolveClientIp_ending ending
    rw [List.length_map, List.length_map] at result
    rw [fromRequestParts_head first, if_pos visible]
    exact result

/-- The same entry from each proxy of an arrangement. -/
def uniform (arrangement : List Forwarding) (e : Entry) : List (Forwarding × Entry) :=
  arrangement.map fun f => (f, e)

def someAddress : Entry := ⟨"1.1.1.1", by decide, by decide, by decide, by decide⟩

def otherAddress : Entry := ⟨"2.2.2.2", by decide, by decide, by decide, by decide⟩

/-- A first line that the proxies do not fill leaves an entry of its own, or the peer. -/
theorem resolveClientIp_spoofed (line : String) (e : Entry) {r : ℕ} (short : r < n) :
    resolveClientIp none (some (extended line (List.replicate r e))) n =
      match (entries line)[(entries line).length + r - n]? with
      | some candidate =>
        if n ≤ (entries line).length + r ∧ isIpAddr candidate = true then candidate else unknownPeer
      | none => unknownPeer := by
  have count : (entries (extended line (List.replicate r e))).length =
      (entries line).length + r := by simp [entries_extended]
  by_cases few : (entries line).length + r < n
  · rw [resolveClientIp_short (by omega), Option.getD_none]
    split
    · rw [if_neg fun enough => by omega]
    · rfl
  · have inside : (entries line).length + r - n < (entries line).length := by omega
    have here : (entries (extended line (List.replicate r e)))[(entries line).length + r - n]? =
        (entries line)[(entries line).length + r - n]? := by
      rw [entries_extended, List.getElem?_append_left inside]
    have some : n ≠ 0 := by omega
    simp only [resolveClientIp, if_neg some, count, if_neg few, here, Option.getD_none]
    split
    · have enough : n ≤ (entries line).length + r := by omega
      simp only [enough, true_and]
    · rfl

/-- Two addresses that both come through leave no choice but a single line of text. -/
theorem single_of_identified {arrangement : List Forwarding} (proxied : arrangement ≠ [])
    {client : List String}
    (h : ∀ e, isIpAddr e.text = true →
      fromRequestParts none (forward client (uniform arrangement e)) arrangement.length = e.text) :
    SingleText arrangement client := by
  have first := h someAddress (by decide)
  have second := h otherAddress (by decide)
  have unlike : someAddress.text ≠ otherAddress.text := by decide
  have kept : ∀ e, (uniform arrangement e).map Prod.fst = arrangement := fun e => by
    simp [uniform, Function.comp_def]
  have taken : ∀ (fs : List Forwarding) e, ((uniform fs e).take (reach fs)).map Prod.snd =
      List.replicate (reach fs) e := by
    intro fs e
    simp [uniform, ← List.map_take, Function.comp_def, List.map_const', reach_le fs]
  match client with
  | [] =>
    obtain ⟨f, fs, rfl⟩ := List.exists_cons_of_ne_nil proxied
    show ∀ g ∈ fs, g = .extend
    refine reach_eq_length.mp (le_antisymm (reach_le fs) ?_)
    by_contra short
    have start : forward [] (uniform (f :: fs) someAddress) =
        forward [someAddress.text] (uniform fs someAddress) := by cases f <;> rfl
    have head := head_forward_one someAddress.text (uniform fs someAddress)
    have modes : (uniform fs someAddress).map Prod.fst = fs := by
      simp [uniform, Function.comp_def]
    rw [modes, taken] at head
    rw [start, fromRequestParts_head head, if_pos ((visible_extended _ _).trans someAddress.visible),
      resolveClientIp_short] at first
    · exact absurd first (by decide)
    · simp only [entries_extended, entries_entry, List.length_append, List.map_replicate,
        List.length_replicate, List.length_cons, List.length_nil]
      omega
  | [line] =>
    have heads : ∀ e, (forward [line] (uniform arrangement e)).head? =
        some (extended line (List.replicate (reach arrangement) e)) := by
      intro e
      have head := head_forward_one line (uniform arrangement e)
      rwa [kept, taken] at head
    rw [fromRequestParts_head (heads someAddress)] at first
    rw [fromRequestParts_head (heads otherAddress)] at second
    simp only [visible_extended] at first second
    by_cases visible : line.toList.all isVisible = true
    · refine ⟨visible, reach_eq_length.mp (le_antisymm (reach_le arrangement) ?_)⟩
      by_contra short
      have short : reach arrangement < arrangement.length := by omega
      rw [if_pos visible, resolveClientIp_spoofed line _ short] at first second
      exact unlike (first.symm.trans second)
    · rw [if_neg visible, resolveClientIp_none] at first
      exact absurd first (by decide)
  | line :: next :: rest =>
    have heads : ∀ e, (forward (line :: next :: rest) (uniform arrangement e)).head? = some line :=
      fun e => head_forward_many line (next :: rest) (by simp) (uniform arrangement e)
    rw [fromRequestParts_head (heads someAddress)] at first
    rw [fromRequestParts_head (heads otherAddress)] at second
    exact unlike (first.symm.trans second)

end Law

/-- Behind one or more proxies, two requests of a client come to the same address, the one that the
outermost proxy reports if that is an address, whatever is reported and whoever the peer is:
exactly where all that either request brings to the application is one line of text. -/
theorem client_ip_fixed_iff (arrangement : List Forwarding) (proxied : arrangement ≠ [])
    (client₁ client₂ : List String) :
    (∀ peer proxies, proxies.map Prod.fst = arrangement → Agrees peer proxies client₁ client₂) ↔
      SingleText arrangement client₁ ∧ SingleText arrangement client₂ := by
  constructor
  · intro agrees
    have kept : ∀ e, (uniform arrangement e).map Prod.fst = arrangement := fun e => by
      simp [uniform, Function.comp_def]
    have count : ∀ e, (uniform arrangement e).length = arrangement.length := fun e => by
      simp [uniform]
    have identified : ∀ e, isIpAddr e.text = true →
        fromRequestParts none (forward client₁ (uniform arrangement e)) arrangement.length =
          e.text := by
      intro e address
      obtain ⟨f, fs, rfl⟩ := List.exists_cons_of_ne_nil proxied
      have law := (agrees none (uniform (f :: fs) e) (kept e)).2 e.text
        (fromRight_forward client₁ (f, e) (uniform fs e)) address
      rwa [count] at law
    refine ⟨single_of_identified proxied identified, single_of_identified proxied ?_⟩
    intro e address
    have same := (agrees none (uniform arrangement e) (kept e)).1
    rw [count] at same
    exact same.symm.trans (identified e address)
  · rintro ⟨single₁, single₂⟩ peer proxies rfl
    obtain ⟨p, rest, rfl⟩ : ∃ p rest, proxies = p :: rest :=
      List.exists_cons_of_ne_nil fun none => proxied (by rw [none]; rfl)
    refine ⟨(single_text single₁).trans (single_text single₂).symm, ?_⟩
    intro ip named address
    rw [fromRight_forward] at named
    obtain rfl := Option.some.inj named
    rw [single_text single₁, if_pos address]

/-- A proxy that extends the line, and two clients that make up addresses. -/
theorem client_ip_fixed_extend :
    (SingleText [.extend] ["9.9.9.9"] ∧ SingleText [.extend] ["8.8.8.8, 7.7.7.7"]) ∧
      ∀ peer proxies, proxies.map Prod.fst = [.extend] →
        Agrees peer proxies ["9.9.9.9"] ["8.8.8.8, 7.7.7.7"] := by
  have single : SingleText [.extend] ["9.9.9.9"] ∧ SingleText [.extend] ["8.8.8.8, 7.7.7.7"] :=
    ⟨⟨by decide, by decide⟩, by decide, by decide⟩
  have fixed := client_ip_fixed_iff [.extend] (by decide) ["9.9.9.9"] ["8.8.8.8, 7.7.7.7"]
  exact ⟨single, fixed.mpr single⟩

/-- Behind a proxy that adds a line of its own, the client chooses the address. -/
theorem added_line_unread :
    combined (forward ["9.9.9.9"] [(.add, someAddress)]) = ["9.9.9.9", "1.1.1.1"] ∧
      fromRequestParts none (forward ["9.9.9.9"] [(.add, someAddress)]) 1 = "9.9.9.9" ∧
      fromRequestParts none (forward ["8.8.8.8"] [(.add, someAddress)]) 1 = "8.8.8.8" ∧
      ¬ Agrees none [(.add, someAddress)] ["9.9.9.9"] ["8.8.8.8"] := by
  have first : fromRequestParts none (forward ["9.9.9.9"] [(.add, someAddress)]) 1 = "9.9.9.9" := by
    decide +kernel
  have second : fromRequestParts none (forward ["8.8.8.8"] [(.add, someAddress)]) 1 =
      "8.8.8.8" := by decide +kernel
  refine ⟨by decide +kernel, first, second, fun agrees => ?_⟩
  exact absurd (first.symm.trans (agrees.1.trans second)) (by decide)

end ClientIp
