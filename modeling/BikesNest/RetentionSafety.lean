import BikesNest.CredentialOps
import BikesNest.InactiveAccounts

/-! Whom the retention job can erase. All the activity that was ever committed can be told from
the store: a session carries it, or the account itself. The recheck reads both, and what it
misses is what changes under the lock of the account without waiting for it. -/

namespace RetentionSafety

open Parking Schema Credentials Erasure LockModes AccountAdmin InactiveAccounts
open CredentialOps (asciiCasing)
open ReadCommitted (Txn initial)

variable {b c d : Board} {u : UserId} {held : List Lock}

/-- Every activity that was written can still be told from the store. -/
def Accounted (b : Board) : Prop :=
  ∀ m ∈ b.activity, ∀ a ∈ b.auth.users.find m.account, a.accountState = .deleted ∨
    m.moment ≤ a.lastActiveAt ∨
    ∃ h, ∃ r ∈ b.auth.sessions.find h, r.userId = m.account ∧ m.moment ≤ r.lastSeenAt

/-- Every erasure so far was of an idle account without privileges. -/
def AllSpared (b : Board) : Prop := ∀ e ∈ b.erased, Spared e

/-- The account itself records the activity. -/
def Reached (b : Board) (m : Activity) : Prop :=
  ∀ a ∈ b.auth.users.find m.account, m.moment ≤ a.lastActiveAt

/-- An account moves on: it stays erased, and its last activity does not go back. -/
def Onward (a a' : AccountRow) : Prop :=
  (a.accountState = .deleted → a'.accountState = .deleted) ∧ a.lastActiveAt ≤ a'.lastActiveAt

/-- The accounts of `c` were there in `b`, and have moved on since. -/
def AllOnward (b c : Board) : Prop :=
  ∀ u, ∀ a' ∈ c.auth.users.find u, ∃ a ∈ b.auth.users.find u, Onward a a'

theorem Onward.refl (a : AccountRow) : Onward a a := ⟨fun h => h, le_refl _⟩

theorem Onward.trans {a a' a'' : AccountRow} (h : Onward a a') (k : Onward a' a'') :
    Onward a a'' :=
  ⟨fun ha => k.1 (h.1 ha), le_trans h.2 k.2⟩

theorem AllOnward.of_eq (h : c.auth.users = b.auth.users) : AllOnward b c :=
  fun _ a ha => ⟨a, h ▸ ha, .refl a⟩

theorem AllOnward.trans (h : AllOnward b c) (k : AllOnward c d) : AllOnward b d := by
  intro u a'' ha''
  obtain ⟨a', ha', later⟩ := k u a'' ha''
  obtain ⟨a, ha, earlier⟩ := h u a' ha'
  exact ⟨a, ha, earlier.trans later⟩

theorem Reached.onward {m : Activity} (h : Reached b m) (k : AllOnward b c) : Reached c m := by
  intro a' ha'
  obtain ⟨a, ha, -, later⟩ := k m.account a' ha'
  exact le_trans (h a ha) later

/-- What a transaction other than an erasure does with the locks it holds; `w` is the session
write it makes, if any. -/
structure Moves (held : List Lock) (w : Option Activity) (c d : Board) : Prop where
  erased : d.erased = c.erased
  onward : AllOnward c d
  users : ∀ u, .account u .noKeyUpdate ∉ held → .account u .forUpdate ∉ held →
    d.auth.users.find u = c.auth.users.find u
  roles : ∀ u role, (d.auth.roles.find (u, role)).isSome →
    (c.auth.roles.find (u, role)).isSome ∨ .account u .keyShare ∈ held
  sessions : ∀ h, .session h ∉ held → d.auth.sessions.find h = c.auth.sessions.find h
  activity : ∀ m ∈ d.activity, m ∈ c.activity ∨ m ∈ w ∨ Reached d m
  accounted : Accounted c → Accounted d

theorem Moves.refl (held : List Lock) (w : Option Activity) (c : Board) : Moves held w c c where
  erased := rfl
  onward := .of_eq rfl
  users _ _ _ := rfl
  roles _ _ h := .inl h
  sessions _ _ := rfl
  activity _ hm := .inl hm
  accounted h := h

theorem Moves.trans {locks : List Lock} {w : Option Activity} (h : Moves held w c d) {e : Board}
    (k : Moves locks w d e) : Moves (locks ++ held) w c e where
  erased := k.erased.trans h.erased
  onward := h.onward.trans k.onward
  users u none none' := by
    simp only [List.mem_append, not_or] at none none'
    exact (k.users u none.1 none'.1).trans (h.users u none.2 none'.2)
  roles u role there := by
    rcases k.roles u role there with there | share
    · rcases h.roles u role there with there | share
      · exact .inl there
      · exact .inr (List.mem_append_right _ share)
    · exact .inr (List.mem_append_left _ share)
  sessions hash none := by
    simp only [List.mem_append, not_or] at none
    exact (k.sessions hash none.1).trans (h.sessions hash none.2)
  activity m hm := by
    rcases k.activity m hm with hm | hm | hm
    · rcases h.activity m hm with hm | hm | hm
      · exact .inl hm
      · exact .inr (.inl hm)
      · exact .inr (.inr (hm.onward k.onward))
    · exact .inr (.inl hm)
    · exact .inr (.inr hm)
  accounted hc := k.accounted (h.accounted hc)

theorem Moves.mono {locks : List Lock} {w : Option Activity} (h : Moves held w c d)
    (more : ∀ k ∈ held, k ∈ locks) : Moves locks w c d where
  erased := h.erased
  onward := h.onward
  users u free free' := h.users u (fun hk => free (more _ hk)) fun hk => free' (more _ hk)
  roles u role there := (h.roles u role there).imp_right (more _)
  sessions hash free := h.sessions hash fun hk => free (more _ hk)
  activity := h.activity
  accounted := h.accounted

/-- A write that touches no account and loses no session. -/
theorem accounted_of {new : List Activity} (users : d.auth.users = c.auth.users)
    (activity : d.activity = c.activity ++ new)
    (sessions : ∀ h, ∀ r ∈ c.auth.sessions.find h, ∃ r' ∈ d.auth.sessions.find h,
      r'.userId = r.userId ∧ r.lastSeenAt ≤ r'.lastSeenAt)
    (told : ∀ m ∈ new, ∃ h, ∃ r ∈ d.auth.sessions.find h, r.userId = m.account ∧
      m.moment ≤ r.lastSeenAt) (hc : Accounted c) : Accounted d := by
  intro m hm a ha
  rw [users] at ha
  rw [activity] at hm
  rcases List.mem_append.mp hm with hm | hm
  · rcases hc m hm a ha with gone | active | ⟨h, r, hr, owner, seen⟩
    · exact .inl gone
    · exact .inr (.inl active)
    · obtain ⟨r', hr', owner', seen'⟩ := sessions h r hr
      exact .inr (.inr ⟨h, r', hr', owner'.trans owner, le_trans seen seen'⟩)
  · exact .inr (.inr (told m hm))

theorem insertSession_moves (row : SessionRow) (c : Board) :
    Moves [.session row.tokenHash, .account row.userId .keyShare]
      (some ⟨row.userId, row.lastSeenAt⟩) c (insertSession row c) := by
  unfold insertSession
  split
  · rename_i sessions inserted
    refine ⟨rfl, .of_eq rfl, fun _ _ _ => rfl, fun _ _ h => .inl h, ?_, ?_, ?_⟩
    · intro h free
      have other : row.tokenHash ≠ h := by
        rintro rfl
        exact free (by simp)
      rw [Table.find_insert inserted, if_neg other]
    · intro m hm
      rcases List.mem_append.mp hm with hm | hm
      · exact .inl hm
      · exact .inr (.inl (by simpa using Eq.symm (List.mem_singleton.mp hm)))
    · refine accounted_of rfl rfl ?_ ?_
      · intro h r hr
        exact ⟨r, Table.find_insert_of_find inserted hr, rfl, le_refl _⟩
      · intro m hm
        obtain rfl := List.mem_singleton.mp hm
        refine ⟨row.tokenHash, row, ?_, rfl, le_refl _⟩
        exact (Table.find_insert inserted row.tokenHash).trans (if_pos rfl)
  · exact .refl _ _ c

/-- What the refresh of the session `raw` makes of a row. -/
def slideRow (raw : Digest) (now : Instant) (r : SessionRow) : SessionRow :=
  if Sessions.slides raw now r then { r with lastSeenAt := now } else r

theorem find_slide (t : Sessions.SessionTable) (raw : Digest) (now : Instant) (h : Digest) :
    (Sessions.slide t raw now).find h = (t.find h).map (slideRow raw now) := by
  simp only [Sessions.slide, Table.find_update]
  rfl

theorem slides_bounds {raw : Digest} {now : Instant} {r : SessionRow}
    (h : Sessions.slides raw now r = true) : r.tokenHash = raw ∧ r.lastSeenAt < now := by
  simp only [Sessions.slides, decide_eq_true_eq] at h
  have refresh : (0 : ℤ) ≤ Sessions.lastSeenRefresh := by decide
  exact ⟨h.1, by linarith [h.2.2.2.2]⟩

theorem slideRow_later (raw : Digest) (now : Instant) (r : SessionRow) :
    (slideRow raw now r).userId = r.userId ∧ r.lastSeenAt ≤ (slideRow raw now r).lastSeenAt := by
  unfold slideRow
  split
  · rename_i slides
    exact ⟨rfl, le_of_lt (slides_bounds slides).2⟩
  · exact ⟨rfl, le_refl _⟩

theorem slideRow_other {raw : Digest} (now : Instant) {r : SessionRow} (h : r.tokenHash ≠ raw) :
    slideRow raw now r = r :=
  if_neg fun slides => h (slides_bounds slides).1

theorem slideSession_moves {raw : Digest} {now : Instant} {c : Board}
    (owner : ∀ r ∈ c.auth.sessions.find raw, r.userId = u) :
    Moves [.session raw] (some ⟨u, now⟩) c (slideSession raw now c) := by
  unfold slideSession
  split
  · rename_i r found
    obtain ⟨found, slides⟩ := Option.filter_eq_some_iff.mp found
    refine ⟨rfl, .of_eq rfl, fun _ _ _ => rfl, fun _ _ h => .inl h, ?_, ?_, ?_⟩
    · intro h free
      have other : h ≠ raw := by
        rintro rfl
        exact free (List.mem_singleton_self _)
      simp only [find_slide]
      cases hq : c.auth.sessions.find h with
      | none => rfl
      | some q =>
        have key := (Table.find_eq_some.mp hq).2
        rw [Option.map_some, slideRow_other now (key ▸ other)]
    · intro m hm
      rcases List.mem_append.mp hm with hm | hm
      · exact .inl hm
      · rw [List.mem_singleton.mp hm, owner r found]
        exact .inr (.inl rfl)
    · refine accounted_of rfl rfl ?_ ?_
      · intro h q hq
        refine ⟨slideRow raw now q, ?_, slideRow_later raw now q⟩
        exact (find_slide _ raw now h).trans (Option.map_eq_some_iff.mpr ⟨q, hq, rfl⟩)
      · intro m hm
        obtain rfl := List.mem_singleton.mp hm
        refine ⟨raw, slideRow raw now r, ?_, (slideRow_later raw now r).1, ?_⟩
        · exact (find_slide _ raw now raw).trans (Option.map_eq_some_iff.mpr ⟨r, found, rfl⟩)
        · simp [slideRow, slides]
  · exact .refl _ _ c

/-- An account that is marked already is left alone, and so is everything else. -/
theorem markActive_rest (m : Activity) (c : Board) :
    (markActive m c).erased = c.erased ∧ (markActive m c).auth.roles = c.auth.roles ∧
      (markActive m c).auth.sessions = c.auth.sessions ∧
      ∀ n ∈ (markActive m c).activity, n ∈ c.activity ∨ n = m := by
  unfold markActive
  split
  · refine ⟨rfl, rfl, rfl, fun n hn => ?_⟩
    simpa using hn
  · exact ⟨rfl, rfl, rfl, fun n hn => .inl hn⟩

theorem markActive_other {m : Activity} {c : Board} (other : u ≠ m.account) :
    (markActive m c).auth.users.find u = c.auth.users.find u := by
  unfold markActive
  split
  · exact find_setAccount_other _ _ other _
  · rfl

theorem markActive_reached (m : Activity) (c : Board) : Reached (markActive m c) m := by
  intro a ha
  unfold markActive at ha
  split at ha
  · rw [find_setAccount_self] at ha
    obtain ⟨q, -, rfl⟩ := Option.map_eq_some_iff.mp ha
    exact le_refl _
  · rename_i none
    exact not_lt.mp (by simpa using Option.filter_eq_none_iff.mp none a ha)

theorem markActive_onward (m : Activity) (c : Board) : AllOnward c (markActive m c) := by
  intro u a' ha'
  by_cases other : u = m.account
  · subst other
    unfold markActive at ha'
    split at ha'
    · rename_i a found
      obtain ⟨found, behind⟩ := Option.filter_eq_some_iff.mp found
      rw [find_setAccount_self, found] at ha'
      obtain rfl := Option.some.inj ha'
      exact ⟨a, found, fun h => h, le_of_lt (of_decide_eq_true behind)⟩
    · exact ⟨a', ha', .refl a'⟩
  · rw [markActive_other other] at ha'
    exact ⟨a', ha', .refl a'⟩

theorem markActive_moves (m : Activity) (w : Option Activity) (c : Board) {mode : Mode}
    (strong : mode ≠ .keyShare) :
    Moves [.account m.account mode] w c (markActive m c) := by
  obtain ⟨erased, roles, sessions, activity⟩ := markActive_rest m c
  refine ⟨erased, markActive_onward m c, ?_, ?_, ?_, ?_, ?_⟩
  · intro u free free'
    refine markActive_other ?_
    rintro rfl
    cases mode with
    | keyShare => exact strong rfl
    | noKeyUpdate => exact free (List.mem_singleton_self _)
    | forUpdate => exact free' (List.mem_singleton_self _)
  · intro u role there
    exact .inl (roles ▸ there)
  · intro h _
    rw [sessions]
  · intro n hn
    rcases activity n hn with hn | rfl
    · exact .inl hn
    · exact .inr (.inr (markActive_reached n c))
  · intro hc n hn a ha
    obtain ⟨a', ha', gone, later⟩ := markActive_onward m c n.account a ha
    rw [sessions]
    rcases activity n hn with hn | rfl
    · rcases hc n hn a' ha' with deleted | active | seen
      · exact .inl (gone deleted)
      · exact .inr (.inl (le_trans active later))
      · exact .inr (.inr seen)
    · exact .inr (.inl (markActive_reached n c a ha))

theorem markAll_moves (ms : List Activity) (w : Option Activity) (c : Board) :
    Moves (ms.map fun m => .account m.account .noKeyUpdate) w c (markAll ms c) := by
  induction ms generalizing c with
  | nil => exact .refl _ w c
  | cons m ms ih =>
    have strong : Mode.noKeyUpdate ≠ .keyShare := by decide
    have first := markActive_moves m w c strong
    refine (first.trans (ih (markActive m c))).mono fun k hk => ?_
    simpa [or_comm] using hk

/-- Every account is marked as far as the list says. -/
theorem markAll_reached {ms : List Activity} {m : Activity} (hm : m ∈ ms) (c : Board) :
    Reached (markAll ms c) m := by
  induction ms generalizing c with
  | nil => cases hm
  | cons n ms ih =>
    rcases List.mem_cons.mp hm with rfl | hm
    · exact (markActive_reached m c).onward (markAll_moves ms none _).onward
    · exact ih hm _

theorem accounted_of_eq (users : d.auth.users = c.auth.users)
    (sessions : d.auth.sessions = c.auth.sessions) (activity : d.activity = c.activity)
    (hc : Accounted c) : Accounted d := by
  unfold Accounted
  rw [users, sessions, activity]
  exact hc

theorem insertRole_moves (row : RoleRow) (w : Option Activity) (c : Board) :
    Moves [.account row.userId .keyShare] w c (insertRole row c) := by
  refine ⟨rfl, .of_eq rfl, fun _ _ _ => rfl, ?_, fun _ _ => rfl, fun _ hm => .inl hm,
    accounted_of_eq rfl rfl rfl⟩
  intro u role there
  by_cases own : u = row.userId
  · exact .inr (by simp [own])
  · left
    simp only [insertRole] at there
    cases inserted : c.auth.roles.insert row with
    | none => simpa [inserted] using there
    | some roles =>
      rw [inserted, Option.getD_some, Table.find_insert inserted, if_neg] at there
      · exact there
      · intro key
        exact own (congrArg Prod.fst key).symm

theorem find_dropRoles {keys : List (UserId × Role)} {k : UserId × Role}
    (there : ((dropRoles keys c).auth.roles.find k).isSome) : (c.auth.roles.find k).isSome := by
  simp only [dropRoles, Table.find_delete] at there
  obtain ⟨r, hr⟩ := Option.isSome_iff_exists.mp there
  exact Option.isSome_of_mem (Option.filter_eq_some_iff.mp hr).1

theorem dropRoles_moves (keys : List (UserId × Role)) (w : Option Activity) (c : Board) :
    Moves [] w c (dropRoles keys c) :=
  ⟨rfl, .of_eq rfl, fun _ _ _ => rfl, fun _ _ there => .inl (find_dropRoles there),
    fun _ _ => rfl, fun _ hm => .inl hm, accounted_of_eq rfl rfl rfl⟩

theorem find_dropSessions {hashes : List Digest} {h : Digest} (kept : h ∉ hashes) (c : Board) :
    (dropSessions hashes c).auth.sessions.find h = c.auth.sessions.find h := by
  simp only [dropSessions, Table.find_delete]
  cases found : c.auth.sessions.find h with
  | none => rfl
  | some r =>
    have key := (Table.find_eq_some.mp found).2
    rw [Option.filter_some_pos]
    simpa [key] using kept

/-- The group of a session among the latest of a list. -/
theorem mem_latest {rows : List SessionRow} {r : SessionRow} (hr : r ∈ rows) :
    ∃ m ∈ latest rows, m.account = r.userId ∧ r.lastSeenAt ≤ m.moment := by
  have mine : r.lastSeenAt ∈
      (rows.filter fun q => decide (q.userId = r.userId)).map SessionRow.lastSeenAt :=
    List.mem_map_of_mem (List.mem_filter.mpr ⟨hr, by simp⟩)
  cases hmax : ((rows.filter fun q => decide (q.userId = r.userId)).map
      SessionRow.lastSeenAt).max? with
  | none =>
    rw [List.max?_eq_none_iff.mp hmax] at mine
    cases mine
  | some seen =>
    refine ⟨⟨r.userId, seen⟩, ?_, rfl, (List.max?_eq_some_iff.mp hmax).2 _ mine⟩
    refine List.mem_filterMap.mpr ⟨r.userId, ?_, by rw [hmax]; rfl⟩
    exact List.mem_dedup.mpr (List.mem_map_of_mem hr)

/-! What each transaction may assume, phase by phase. -/

/-- The committed store later on, while the locks are held. -/
structure Later (held : List Lock) (b c : Board) : Prop where
  onward : AllOnward b c
  sessions : ∀ h, .session h ∈ held → c.auth.sessions.find h = b.auth.sessions.find h

theorem Later.refl (held : List Lock) (b : Board) : Later held b b := ⟨.of_eq rfl, fun _ _ => rfl⟩

theorem Later.trans (h : Later held b c) (k : Later held c d) : Later held b d :=
  ⟨h.onward.trans k.onward, fun hash hk => (k.sessions hash hk).trans (h.sessions hash hk)⟩

theorem Later.mono {locks : List Lock} (h : Later locks b c) (fewer : ∀ k ∈ held, k ∈ locks) :
    Later held b c :=
  ⟨h.onward, fun hash hk => h.sessions hash (fewer _ hk)⟩

/-- Nothing is locked and nothing written. -/
structure Fresh (x : Running) : Prop where
  untouched : x.Untouched
  held : x.held = []

/-- From now on the transaction can commit as it stands. -/
def Steady (w : Option Activity) (x : Running) (b : Board) : Prop :=
  ∀ c, Later x.held b c → Moves x.held w c (x.pending c)

theorem steady_step {x : Running} {w : Option Activity} (h : Steady w x b) {locks : List Lock}
    {write : Board → Board}
    (moves : ∀ c, Later (locks ++ x.held) b c → Moves locks w (x.pending c) (write (x.pending c)))
    (next : Phase) : Steady w (x.step locks next write) b := by
  intro c later
  have before := h c (later.mono fun k hk => List.mem_append_right _ hk)
  exact before.trans (moves c later)

theorem untouched_steady {x : Running} (h : x.Untouched) (w : Option Activity) (b : Board) :
    Steady w x b := by
  intro c _
  rw [h.view]
  exact .refl _ w c

/-- The purged sessions are locked, and what is known from them is in the list. -/
structure Folding (ms : List Activity) (x : Running) (b : Board) : Prop where
  drops : ∃ hashes, x.pending = dropSessions hashes ∧ ∀ h ∈ hashes, .session h ∈ x.held
  told : ∀ h, .session h ∈ x.held → ∀ r ∈ b.auth.sessions.find h,
    ∃ m ∈ ms, m.account = r.userId ∧ r.lastSeenAt ≤ m.moment

/-- The account is locked for its erasure, and everything known of it is older than the cutoff.
What is written so far concerns the account alone. -/
structure Erasing (cutoff : Instant) (u : UserId) (x : Running) (b : Board) : Prop where
  held : .account u .forUpdate ∈ x.held
  asleep : ∃ a ∈ b.auth.users.find u, a.lastActiveAt < cutoff
  quiet : ∀ m ∈ b.activity, m.account = u → m.moment < cutoff
  theirs : ∀ h, .session h ∈ x.held → ∀ r ∈ b.auth.sessions.find h, r.userId = u
  erased : ∀ c, (x.pending c).erased = c.erased ++ [⟨u, cutoff, c.auth, c.activity⟩]
  activity : ∀ c, (x.pending c).activity = c.activity
  onward : ∀ c, AllOnward c (x.pending c)
  others : ∀ c v, v ≠ u → (x.pending c).auth.users.find v = c.auth.users.find v
  roles : ∀ c k, ((x.pending c).auth.roles.find k).isSome → (c.auth.roles.find k).isSome
  sessions : ∀ c h, .session h ∉ x.held →
    (x.pending c).auth.sessions.find h = c.auth.sessions.find h

/-- The account has no privileges that the erasure would take. -/
structure Unprivileged (cutoff : Instant) (u : UserId) (x : Running) (b : Board) : Prop
    extends Erasing cutoff u x b where
  unprivileged : b.auth.roles.find (u, .admin) = none

/-- The account is erased once the transaction commits. -/
structure Gone (cutoff : Instant) (u : UserId) (x : Running) (b : Board) : Prop
    extends Unprivileged cutoff u x b where
  gone : ∀ c, ∀ a ∈ (x.pending c).auth.users.find u, a.accountState = .deleted

/-- A write of an erasure, which concerns the account alone. -/
structure Wipes (u : UserId) (locks : List Lock) (c d : Board) : Prop where
  erased : d.erased = c.erased
  activity : d.activity = c.activity
  onward : AllOnward c d
  others : ∀ v, v ≠ u → d.auth.users.find v = c.auth.users.find v
  roles : ∀ k, (d.auth.roles.find k).isSome → (c.auth.roles.find k).isSome
  sessions : ∀ h, .session h ∉ locks → d.auth.sessions.find h = c.auth.sessions.find h

/-- The assertion of each phase. -/
def Asserts (x : Running) (b : Board) : Prop :=
  match x.phase with
  | .touch w | .written w => Steady (some w) x b
  | .revoke _ _ | .done => Steady none x b
  | .fold ms => Folding ms x b
  | .guard job u _ => Erasing job.cutoff u x b ∧ x.pending = record u job.cutoff
  | .scrub job u _ => Unprivileged job.cutoff u x b
  | .forgetRoles job u _ | .forgetSessions job u _ | .erased job u _ => Gone job.cutoff u x b
  | _ => Fresh x

/-- What the locks keep. -/
def Keeps (k : Lock) (b c : Board) : Prop :=
  match k with
  | .account u .noKeyUpdate => c.auth.users.find u = b.auth.users.find u
  | .account u .forUpdate => c.auth.users.find u = b.auth.users.find u ∧
    ∀ role, (c.auth.roles.find (u, role)).isSome → (b.auth.roles.find (u, role)).isSome
  | .session h => c.auth.sessions.find h = b.auth.sessions.find h
  | _ => True

/-- Beside an erasure no activity comes up that its account would have to be kept for. -/
structure Evolves (x : Running) (b c : Board) : Prop where
  onward : AllOnward b c
  activity : ∀ e ∈ x.phase.erasing, ∀ m ∈ c.activity, m.account = e.account →
    m ∈ b.activity ∨ m.moment < e.moment ∨ Reached c m

def Lawful (b : Board) : Prop := Accounted b ∧ AllSpared b

section Stable

variable {x : Running}

theorem later_of_keeps (evolves : Evolves x b c) (kept : ∀ k ∈ x.held, Keeps k b c) :
    Later x.held b c :=
  ⟨evolves.onward, fun h hk => kept (.session h) hk⟩

theorem steady_stable {w : Option Activity} (h : Steady w x b) (evolves : Evolves x b c)
    (kept : ∀ k ∈ x.held, Keeps k b c) : Steady w x c :=
  fun d later => h d ((later_of_keeps evolves kept).trans later)

theorem folding_stable {ms : List Activity} (h : Folding ms x b)
    (kept : ∀ k ∈ x.held, Keeps k b c) : Folding ms x c := by
  refine ⟨h.drops, fun hash held r hr => ?_⟩
  have same : c.auth.sessions.find hash = b.auth.sessions.find hash := kept (.session hash) held
  exact h.told hash held r (same ▸ hr)

theorem erasing_stable {cutoff : Instant} (erases : x.phase.erasing = some ⟨u, cutoff⟩)
    (h : Erasing cutoff u x b) (evolves : Evolves x b c) (kept : ∀ k ∈ x.held, Keeps k b c) :
    Erasing cutoff u x c := by
  obtain ⟨users, -⟩ : c.auth.users.find u = b.auth.users.find u ∧ _ := kept _ h.held
  have asleep : ∃ a ∈ c.auth.users.find u, a.lastActiveAt < cutoff := users ▸ h.asleep
  refine { h with asleep := asleep, quiet := ?_, theirs := ?_ }
  · intro m hm own
    rcases evolves.activity ⟨u, cutoff⟩ erases m hm own with old | early | reached
    · exact h.quiet m old own
    · exact early
    · obtain ⟨a, ha, before⟩ := asleep
      exact lt_of_le_of_lt (reached a (own ▸ ha)) before
  · intro hash held r hr
    have same : c.auth.sessions.find hash = b.auth.sessions.find hash := kept (.session hash) held
    exact h.theirs hash held r (same ▸ hr)

theorem unprivileged_stable {cutoff : Instant} (erases : x.phase.erasing = some ⟨u, cutoff⟩)
    (h : Unprivileged cutoff u x b) (evolves : Evolves x b c)
    (kept : ∀ k ∈ x.held, Keeps k b c) : Unprivileged cutoff u x c := by
  obtain ⟨-, roles⟩ : _ ∧ ∀ role, (c.auth.roles.find (u, role)).isSome →
    (b.auth.roles.find (u, role)).isSome := kept _ h.held
  refine ⟨erasing_stable erases h.toErasing evolves kept, ?_⟩
  have fewer := roles .admin
  rw [h.unprivileged] at fewer
  exact Option.not_isSome_iff_eq_none.mp fun there => absurd (fewer there) (by simp)

theorem asserts_stable (h : Asserts x b) (evolves : Evolves x b c)
    (kept : ∀ k ∈ x.held, Keeps k b c) : Asserts x c := by
  cases hphase : x.phase with
  | touch w | written w | revoke u role | done =>
    simp only [Asserts, hphase] at h ⊢
    exact steady_stable h evolves kept
  | fold ms =>
    simp only [Asserts, hphase] at h ⊢
    exact folding_stable h kept
  | guard job u rest =>
    simp only [Asserts, hphase] at h ⊢
    exact ⟨erasing_stable (by rw [hphase]; rfl) h.1 evolves kept, h.2⟩
  | scrub job u rest =>
    simp only [Asserts, hphase] at h ⊢
    exact unprivileged_stable (by rw [hphase]; rfl) h evolves kept
  | forgetRoles job u rest | forgetSessions job u rest | erased job u rest =>
    simp only [Asserts, hphase] at h ⊢
    exact ⟨unprivileged_stable (by rw [hphase]; rfl) h.toUnprivileged evolves kept, h.gone⟩
  | _ => simpa only [Asserts, hphase] using h

end Stable

/-! The statements. -/

section Steps

variable {x : Running} {locks : List Lock} {next : Phase} {write : Board → Board}

theorem login_proceed {row : SessionRow} (hphase : x.phase = .login row) (hx : Asserts x b)
    (h : loginStatement row (x.pending b).auth = ⟨locks, .proceed next write⟩) :
    Asserts (x.step locks next write) b := by
  simp only [Asserts, hphase] at hx
  simp only [loginStatement, Statement.mk.injEq] at h
  obtain ⟨rfl, h⟩ := h
  split at h
  · obtain ⟨rfl, rfl⟩ := Action.proceed.inj h
    exact steady_step (untouched_steady hx.untouched _ b) (fun c _ => insertSession_moves row _) _
  · cases h

theorem refresh_proceed {raw : Digest} {now : Instant} (hphase : x.phase = .refresh raw now)
    (hx : Asserts x b)
    (h : refreshStatement raw now (x.pending b).auth = ⟨locks, .proceed next write⟩) :
    Asserts (x.step locks next write) b := by
  simp only [Asserts, hphase] at hx
  simp only [refreshStatement] at h
  split at h
  · rename_i r found
    obtain ⟨rfl, rfl, rfl⟩ := Statement.proceed_inj h
    obtain ⟨found, -⟩ := Option.filter_eq_some_iff.mp found
    refine steady_step (untouched_steady hx.untouched _ b) (fun c later => slideSession_moves ?_) _
    intro q hq
    have same := later.sessions raw (List.mem_append_left _ (List.mem_singleton_self _))
    rw [hx.untouched.view] at hq found
    rw [same, found] at hq
    rw [← Option.some.inj hq]
  · cases h

theorem touch_proceed {w : Activity} {free : Lock → Bool} (hphase : x.phase = .touch w)
    (hx : Asserts x b)
    (h : touchStatement w (x.pending b).auth free = ⟨locks, .proceed next write⟩) :
    Asserts (x.step locks next write) b := by
  simp only [Asserts, hphase] at hx
  simp only [touchStatement] at h
  split at h
  · obtain ⟨rfl, rfl, rfl⟩ := Statement.proceed_inj h
    have strong : Mode.forUpdate ≠ .keyShare := by decide
    exact steady_step hx (fun c _ => markActive_moves w _ _ strong) _
  · obtain ⟨rfl, rfl, rfl⟩ := Statement.proceed_inj h
    exact steady_step hx (fun c _ => .refl _ _ _) _

theorem purge_proceed {now idleCutoff : Instant} (hphase : x.phase = .purge now idleCutoff)
    (hx : Asserts x b)
    (h : purgeStatement now idleCutoff (x.pending b).auth = ⟨locks, .proceed next write⟩) :
    Asserts (x.step locks next write) b := by
  simp only [Asserts, hphase] at hx
  obtain ⟨rfl, rfl, rfl⟩ := Statement.proceed_inj h
  rw [hx.untouched.view]
  refine ⟨⟨_, hx.untouched.step _ _ _, ?_⟩, ?_⟩
  · intro hash hm
    obtain ⟨r, hr, rfl⟩ := List.mem_map.mp hm
    exact List.mem_append_left _ (List.mem_map_of_mem hr)
  · intro hash held r hr
    simp only [Txn.step, hx.held, List.append_nil, List.mem_map] at held
    obtain ⟨q, hq, key⟩ := held
    obtain rfl := Lock.session.inj key
    have found := Table.find_of_mem (Table.mem_filter.mp hq).1
    rw [found] at hr
    obtain rfl := Option.some.inj hr
    exact mem_latest hq

/-- A mark that the purge does not make was not needed. -/
theorem behind_reached {ms : List Activity} {m : Activity} (hm : m ∈ ms)
    (onward : AllOnward b c) : Reached (markAll (behind b.auth ms) c) m := by
  by_cases late : m ∈ behind b.auth ms
  · exact markAll_reached late c
  · have told : Reached b m := by
      intro a ha
      have ha : b.auth.users.find m.account = some a := ha
      simp only [behind, List.mem_filter, hm, true_and, ha, Option.any_some,
        decide_eq_true_eq] at late
      exact not_lt.mp late
    exact (told.onward onward).onward (markAll_moves _ none c).onward

theorem fold_proceed {ms : List Activity} (hphase : x.phase = .fold ms) (hx : Asserts x b)
    (h : foldStatement ms (x.pending b).auth = ⟨locks, .proceed next write⟩) :
    Asserts (x.step locks next write) b := by
  simp only [Asserts, hphase] at hx
  obtain ⟨⟨hashes, drops, locked⟩, told⟩ := hx
  obtain ⟨rfl, rfl, rfl⟩ := Statement.proceed_inj h
  intro c later
  have marks := markAll_moves (behind (x.pending b).auth ms) none (x.pending c)
  have users : ∀ d, (x.pending d).auth.users = d.auth.users := fun d => by rw [drops]; rfl
  have dropped : ∀ d h, .session h ∉ x.held →
      (x.pending d).auth.sessions.find h = d.auth.sessions.find h := by
    intro d h free
    rw [drops]
    exact find_dropSessions (fun hm => free (locked h hm)) d
  have activity : (x.pending c).activity = c.activity := by rw [drops]; rfl
  have roles : (x.pending c).auth.roles = c.auth.roles := by rw [drops]; rfl
  have erased : (x.pending c).erased = c.erased := by rw [drops]; rfl
  refine ⟨marks.erased.trans erased, (AllOnward.of_eq (users c)).trans marks.onward,
    ?_, ?_, ?_, ?_, ?_⟩
  · intro u free free'
    simp only [Txn.step, List.mem_append, not_or] at free free'
    rw [← users c]
    exact marks.users u free.1 free'.1
  · intro u role there
    rw [← roles]
    exact (marks.roles u role there).imp_right (List.mem_append_left _)
  · intro h free
    simp only [Txn.step, List.mem_append, not_or] at free
    exact (marks.sessions h free.1).trans (dropped c h free.2)
  · intro m hm
    rw [← activity]
    exact marks.activity m hm
  · intro hc m hm a ha
    rcases marks.activity m hm with hm | hm | reached
    · obtain ⟨a', ha', gone, after⟩ := marks.onward m.account a ha
      rw [activity] at hm
      rw [users c] at ha'
      rcases hc m hm a' ha' with deleted | active | ⟨h, r, hr, owner, seen⟩
      · exact .inl (gone deleted)
      · exact .inr (.inl (le_trans active after))
      · by_cases held : .session h ∈ x.held
        · -- the session is purged, and the account has been moved as far as it
          have same := later.sessions h (List.mem_append_right _ held)
          obtain ⟨n, hn, account, moment⟩ := told h held r (same ▸ hr)
          have onward : AllOnward (x.pending b) (x.pending c) := by
            intro v a ha
            rw [users] at ha ⊢
            exact later.onward v a ha
          have reached := behind_reached hn onward a (by rw [account, owner]; exact ha)
          exact .inr (.inl (le_trans seen (le_trans moment reached)))
        · refine .inr (.inr ⟨h, r, ?_, owner, seen⟩)
          have kept := (marks.sessions h (by simp)).trans (dropped c h held)
          exact kept.trans hr
    · cases hm
    · exact .inr (.inl (reached a ha))

theorem grant_proceed {u granter : UserId} {role : Role} (hphase : x.phase = .grant u role granter)
    (hx : Asserts x b)
    (h : grantStatement u role granter (x.pending b).auth = ⟨locks, .proceed next write⟩) :
    Asserts (x.step locks next write) b := by
  simp only [Asserts, hphase] at hx
  simp only [grantStatement] at h
  split at h
  · cases h
  · simp only [Statement.mk.injEq] at h
    obtain ⟨rfl, h⟩ := h
    split at h
    · obtain ⟨rfl, rfl⟩ := Action.proceed.inj h
      refine steady_step (untouched_steady hx.untouched _ b) (fun c _ => ?_) _
      exact (insertRole_moves _ none _).mono (by simp)
    · cases h

theorem lockAdmins_proceed {u : UserId} {role : Role} (hphase : x.phase = .lockAdmins u role)
    (hx : Asserts x b)
    (h : lockAdminsStatement u role (x.pending b).auth = ⟨locks, .proceed next write⟩) :
    Asserts (x.step locks next write) b := by
  simp only [Asserts, hphase] at hx
  simp only [lockAdminsStatement, Statement.mk.injEq] at h
  obtain ⟨rfl, h⟩ := h
  split at h
  · cases h
  · obtain ⟨rfl, rfl⟩ := Action.proceed.inj h
    exact steady_step (untouched_steady hx.untouched _ b) (fun c _ => .refl _ _ _) _

theorem revoke_proceed {u : UserId} {role : Role} (hphase : x.phase = .revoke u role)
    (hx : Asserts x b)
    (h : revokeStatement u role (x.pending b).auth = ⟨locks, .proceed next write⟩) :
    Asserts (x.step locks next write) b := by
  simp only [Asserts, hphase] at hx
  simp only [revokeStatement] at h
  split at h
  · obtain ⟨rfl, rfl, rfl⟩ := Statement.proceed_inj h
    refine steady_step hx (fun c _ => ?_) _
    exact (dropRoles_moves _ none _).mono (by simp)
  · obtain ⟨rfl, rfl, rfl⟩ := Statement.proceed_inj h
    exact steady_step hx (fun c _ => .refl _ _ _) _

theorem recheck_proceed {job : Job} {u : UserId} {rest : List UserId}
    (hphase : x.phase = .recheck job (u :: rest)) (hx : Asserts x b)
    (h : recheckStatement job u rest (x.pending b).auth = ⟨locks, .proceed next write⟩) :
    Asserts (x.step locks next write) b := by
  simp only [Asserts, hphase] at hx
  simp only [recheckStatement] at h
  split at h
  · obtain ⟨rfl, rfl, rfl⟩ := Statement.proceed_inj h
    exact ⟨hx.untouched.step _ _ _, hx.held⟩
  · cases h

/-- The account is locked: what is known of it is then what the store says. -/
theorem lockAccount_proceed {job : Job} {u : UserId} {rest : List UserId} (hb : Accounted b)
    (hphase : x.phase = .lockAccount job u rest) (hx : Asserts x b)
    (fresh : idle (x.pending b).auth u job.cutoff → stillInactive (x.pending b).auth u job.cutoff)
    (h : lockAccountStatement job u rest (x.pending b).auth = ⟨locks, .proceed next write⟩) :
    Asserts (x.step locks next write) b := by
  simp only [Asserts, hphase] at hx
  simp only [lockAccountStatement, Statement.mk.injEq] at h
  obtain ⟨rfl, h⟩ := h
  split at h
  · rename_i asleep
    obtain ⟨rfl, rfl⟩ := Action.proceed.inj h
    obtain ⟨-, unseen⟩ := fresh asleep
    rw [hx.untouched.view] at asleep unseen
    obtain ⟨a, found, alive, before⟩ := asleep
    have pending := hx.untouched.step [.account u .forUpdate] (.guard job u rest)
      (record u job.cutoff)
    refine ⟨⟨List.mem_append_left _ (List.mem_singleton_self _), ⟨a, found, before⟩, ?_, ?_,
      ?_, ?_, ?_, ?_, ?_, ?_⟩, pending⟩
    · intro m hm own
      subst own
      rcases hb m hm a found with deleted | active | ⟨h, r, hr, owner, seen⟩
      · exact absurd deleted alive
      · exact lt_of_le_of_lt active before
      · exact lt_of_le_of_lt seen (unseen r (Table.find_eq_some.mp hr).1 owner)
    · intro hash held
      simp [Txn.step, hx.held] at held
    · exact fun c => by rw [pending]; rfl
    · exact fun c => by rw [pending]; rfl
    · exact fun c => by rw [pending]; exact .of_eq rfl
    · exact fun c v _ => by rw [pending]; rfl
    · exact fun c k there => by rw [pending] at there; exact there
    · exact fun c hash _ => by rw [pending]; rfl
  · cases h

theorem erasing_step {cutoff : Instant} {u : UserId} (h : Erasing cutoff u x b)
    (wipes : ∀ c, Wipes u locks c (write c))
    (theirs : ∀ hash, .session hash ∈ locks → ∀ r ∈ b.auth.sessions.find hash, r.userId = u) :
    Erasing cutoff u (x.step locks next write) b where
  held := List.mem_append_right _ h.held
  asleep := h.asleep
  quiet := h.quiet
  theirs hash held := by
    rcases List.mem_append.mp held with held | held
    · exact theirs hash held
    · exact h.theirs hash held
  erased c := (wipes _).erased.trans (h.erased c)
  activity c := (wipes _).activity.trans (h.activity c)
  onward c := (h.onward c).trans (wipes _).onward
  others c v hv := ((wipes _).others v hv).trans (h.others c v hv)
  roles c k there := h.roles c k ((wipes _).roles k there)
  sessions c hash free := by
    simp only [Txn.step, List.mem_append, not_or] at free
    exact ((wipes _).sessions hash free.1).trans (h.sessions c hash free.2)

theorem wipes_refl (u : UserId) (c : Board) : Wipes u locks c c :=
  ⟨rfl, rfl, .of_eq rfl, fun _ _ => rfl, fun _ there => there, fun _ _ => rfl⟩

theorem guard_proceed {job : Job} {u : UserId} {rest : List UserId}
    (hphase : x.phase = .guard job u rest) (hx : Asserts x b)
    (only : ((x.pending b).auth.roles.find (u, .admin)).isSome → lastAdmin (x.pending b).auth u)
    (h : guardStatement job u rest (x.pending b).auth = ⟨locks, .proceed next write⟩) :
    Asserts (x.step locks next write) b := by
  simp only [Asserts, hphase] at hx
  obtain ⟨erasing, pending⟩ := hx
  simp only [guardStatement, Statement.mk.injEq] at h
  obtain ⟨rfl, h⟩ := h
  split at h
  · cases h
  · rename_i notLast
    obtain ⟨rfl, rfl⟩ := Action.proceed.inj h
    refine ⟨erasing_step erasing (fun c => wipes_refl u c) ?_, ?_⟩
    · intro hash held
      simp [adminLocks] at held
    · have none := Option.not_isSome_iff_eq_none.mp fun there => notLast (only there)
      rw [pending] at none
      exact none

theorem scrub_proceed {env : Casing} {job : Job} {u : UserId} {rest : List UserId}
    (hphase : x.phase = .scrub job u rest) (hx : Asserts x b)
    (h : scrubStatement env job u rest (x.pending b).auth = ⟨locks, .proceed next write⟩) :
    Asserts (x.step locks next write) b := by
  simp only [Asserts, hphase] at hx
  simp only [scrubStatement] at h
  split at h
  · obtain ⟨rfl, rfl, rfl⟩ := Statement.proceed_inj h
    have wipes : ∀ c, Wipes u [.account u .forUpdate] c (scrubAccount u (job.clock u) c) := by
      intro c
      refine ⟨rfl, rfl, ?_, ?_, fun _ there => there, fun _ _ => rfl⟩
      · intro v a' ha'
        simp only [scrubAccount, find_setAccount, Option.mem_def, Option.map_eq_some_iff] at ha'
        obtain ⟨a, ha, rfl⟩ := ha'
        refine ⟨a, ha, ?_⟩
        split
        · exact ⟨fun _ => rfl, le_refl _⟩
        · exact .refl a
      · intro v hv
        exact find_setAccount_other _ _ hv _
    refine ⟨⟨erasing_step hx.toErasing wipes (by simp), hx.unprivileged⟩, ?_⟩
    intro c a ha
    have ha : a ∈ (scrubAccount u (job.clock u) (x.pending c)).auth.users.find u := ha
    simp only [scrubAccount, find_setAccount_self, Option.mem_def, Option.map_eq_some_iff] at ha
    obtain ⟨q, -, rfl⟩ := ha
    rfl
  · cases h

theorem forgetRoles_proceed {job : Job} {u : UserId} {rest : List UserId}
    (hphase : x.phase = .forgetRoles job u rest) (hx : Asserts x b)
    (h : forgetRolesStatement job u rest (x.pending b).auth = ⟨locks, .proceed next write⟩) :
    Asserts (x.step locks next write) b := by
  simp only [Asserts, hphase] at hx
  obtain ⟨rfl, rfl, rfl⟩ := Statement.proceed_inj h
  refine ⟨⟨erasing_step hx.toErasing (fun c => ?_) (by simp), hx.unprivileged⟩, hx.gone⟩
  exact ⟨rfl, rfl, .of_eq rfl, fun _ _ => rfl, fun k there => find_dropRoles there, fun _ _ => rfl⟩

theorem forgetSessions_proceed {job : Job} {u : UserId} {rest : List UserId}
    (hphase : x.phase = .forgetSessions job u rest) (hx : Asserts x b)
    (h : forgetSessionsStatement job u rest (x.pending b).auth = ⟨locks, .proceed next write⟩) :
    Asserts (x.step locks next write) b := by
  simp only [Asserts, hphase] at hx
  obtain ⟨rfl, rfl, rfl⟩ := Statement.proceed_inj h
  refine ⟨⟨erasing_step hx.toErasing (fun c => ?_) ?_, hx.unprivileged⟩, hx.gone⟩
  · refine ⟨rfl, rfl, .of_eq rfl, fun _ _ => rfl, fun _ there => there, ?_⟩
    intro hash free
    exact find_dropSessions (fun hm => free (List.mem_map_of_mem hm)) c
  · intro hash locked r hr
    obtain ⟨hash', hm, key⟩ := List.mem_map.mp locked
    obtain rfl := Lock.session.inj key
    obtain ⟨q, hq, rfl⟩ := List.mem_map.mp hm
    obtain ⟨hq, owner⟩ := Table.mem_filter.mp hq
    by_cases held : .session q.tokenHash ∈ x.held
    · exact hx.theirs _ held r hr
    · have found := Table.find_of_mem hq
      rw [hx.sessions b _ held, hr] at found
      rw [Option.some.inj found]
      exact of_decide_eq_true owner

end Steps

section Commits

variable {x : Running}

theorem moves_keeps {w : Option Activity} (h : Moves held w b c) {k : Lock}
    (free : ∀ k' ∈ held, Lock.clash k k' = false) : Keeps k b c := by
  have absent : ∀ k', Lock.clash k k' = true → k' ∉ held := by
    intro k' clash hk
    rw [free k' hk] at clash
    cases clash
  match k with
  | .account u .keyShare => trivial
  | .account u .noKeyUpdate =>
    exact h.users u (absent _ (by simp [Lock.clash, Mode.clash]))
      (absent _ (by simp [Lock.clash, Mode.clash]))
  | .account u .forUpdate =>
    refine ⟨h.users u (absent _ (by simp [Lock.clash, Mode.clash]))
      (absent _ (by simp [Lock.clash, Mode.clash])), ?_⟩
    intro role there
    rcases h.roles u role there with there | share
    · exact there
    · exact absurd share (absent _ (by simp [Lock.clash, Mode.clash]))
  | .role u role => trivial
  | .session hash => exact h.sessions hash (absent _ (by simp [Lock.clash]))

theorem moves_lawful {w : Option Activity} (h : Moves held w b c) (hb : Lawful b) : Lawful c := by
  refine ⟨h.accounted hb.1, ?_⟩
  unfold AllSpared
  rw [h.erased]
  exact hb.2

theorem moves_evolves {w : Option Activity} (h : Moves held w b c) {y : Running}
    (early : ∀ m ∈ w, ∀ e ∈ y.phase.erasing, e.account = m.account → m.moment < e.moment) :
    Evolves y b c := by
  refine ⟨h.onward, fun e he m hm own => ?_⟩
  rcases h.activity m hm with old | write | reached
  · exact .inl old
  · exact .inr (.inl (early m write e he own.symm))
  · exact .inr (.inr reached)

theorem gone_keeps {cutoff : Instant} (h : Gone cutoff u x b) {k : Lock}
    (free : ∀ k' ∈ x.held, Lock.clash k k' = false) : Keeps k b (x.pending b) := by
  have other : ∀ v mode, k = .account v mode → v ≠ u := by
    rintro v mode rfl rfl
    have clash := free _ h.held
    cases mode <;> simp [Lock.clash, Mode.clash] at clash
  match k with
  | .account v .keyShare => trivial
  | .account v .noKeyUpdate => exact h.others b v (other v _ rfl)
  | .account v .forUpdate =>
    exact ⟨h.others b v (other v _ rfl), fun role there => h.roles b (v, role) there⟩
  | .role v role => trivial
  | .session hash =>
    refine h.sessions b hash fun held => ?_
    have clash := free _ held
    simp [Lock.clash] at clash

theorem gone_evolves {cutoff : Instant} (h : Gone cutoff u x b) (y : Running) :
    Evolves y b (x.pending b) :=
  ⟨h.onward b, fun _ _ _ hm _ => .inl (h.activity b ▸ hm)⟩

theorem gone_lawful {cutoff : Instant} (h : Gone cutoff u x b) (hb : Lawful b) :
    Lawful (x.pending b) := by
  constructor
  · intro m hm a ha
    rw [h.activity] at hm
    by_cases own : m.account = u
    · rw [own] at ha
      exact .inl (h.gone b a ha)
    · rw [h.others b _ own] at ha
      rcases hb.1 m hm a ha with deleted | active | ⟨hash, r, hr, owner, seen⟩
      · exact .inl deleted
      · exact .inr (.inl active)
      · have free : .session hash ∉ x.held := fun held =>
          own (owner ▸ h.theirs hash held r hr)
        refine .inr (.inr ⟨hash, r, ?_, owner, seen⟩)
        rw [h.sessions b hash free]
        exact hr
  · intro e he
    rw [h.erased] at he
    rcases List.mem_append.mp he with he | he
    · exact hb.2 e he
    · obtain rfl := List.mem_singleton.mp he
      exact ⟨h.unprivileged, fun m hm own => h.quiet m hm own⟩

theorem fresh_restart (t : ℕ) (job : Job) (us : List UserId) (c : Board) :
    Asserts (.start t (.recheck job us)) c :=
  ⟨rfl, rfl⟩

end Commits

/-- What a commit leaves to the others, and to the next transaction of its process. -/
def Committed (s : Retention) (x : Running) (rest : Option Phase) : Prop :=
  Lawful (x.pending s.committed) ∧
    (∀ k, (∀ k' ∈ x.held, Lock.clash k k' = false) → Keeps k s.committed (x.pending s.committed)) ∧
    (∀ y ∈ s.running, y.id ≠ x.id → Evolves y s.committed (x.pending s.committed)) ∧
    ∀ p ∈ rest, Asserts (.start x.id p) (x.pending s.committed)

theorem steady_commit {s : Retention} {x : Running} {w : Option Activity}
    (hb : Lawful s.committed) (h : Steady w x s.committed)
    (early : ∀ m ∈ w, ∀ y ∈ s.running, ∀ e ∈ y.phase.erasing, e.account = m.account →
      m.moment < e.moment) : Committed s x none := by
  have moves := h s.committed (.refl _ _)
  refine ⟨moves_lawful moves hb, fun k free => moves_keeps moves free, ?_, ?_⟩
  · intro y hy _
    exact moves_evolves moves fun m hm => early m hm y hy
  · intro p hp
    cases hp

theorem fresh_commit {s : Retention} {x : Running} {rest : Option Phase}
    (hb : Lawful s.committed) (h : Fresh x)
    (after : ∀ p ∈ rest, ∃ job us, p = .recheck job us) : Committed s x rest := by
  obtain ⟨lawful, keeps, evolves, -⟩ :=
    steady_commit hb (untouched_steady h.untouched none s.committed) (by simp)
  refine ⟨lawful, keeps, evolves, fun p hp => ?_⟩
  obtain ⟨job, us, rfl⟩ := after p hp
  exact fresh_restart x.id job us _

theorem clash_comm (k k' : Lock) : Lock.clash k k' = Lock.clash k' k := by
  match k, k' with
  | .account u mode, .account v mode' =>
    cases mode <;> cases mode' <;> simp [Lock.clash, Mode.clash, eq_comm]
  | .role u r, .role v q => simp [Lock.clash, eq_comm]
  | .session h, .session h' => simp [Lock.clash, eq_comm]
  | .account _ _, .role _ _ | .account _ _, .session _ | .role _ _, .account _ _
  | .role _ _, .session _ | .session _, .account _ _ | .session _, .role _ _ => rfl

section Outline

variable {env : Casing} {s : Retention} {x : Running} {locks : List Lock}

theorem asserts_proceed {next : Phase} {write : Board → Board} (hb : Lawful s.committed)
    (hx : Asserts x s.committed) (mem : x ∈ s.running) (met : Guarded s (.advance x.id))
    (h : (program env).statement s x = ⟨locks, .proceed next write⟩) :
    Asserts (x.step locks next write) s.committed := by
  have met := met x (Table.find_of_mem mem)
  simp only [Program.statement, program] at h
  cases hphase : x.phase with
  | login row =>
    simp only [hphase, InactiveAccounts.next] at h
    exact login_proceed hphase hx h
  | refresh raw now =>
    simp only [hphase, InactiveAccounts.next] at h
    exact refresh_proceed hphase hx h
  | touch w =>
    simp only [hphase, InactiveAccounts.next] at h
    exact touch_proceed hphase hx h
  | purge now idleCutoff =>
    simp only [hphase, InactiveAccounts.next] at h
    exact purge_proceed hphase hx h
  | fold ms =>
    simp only [hphase, InactiveAccounts.next] at h
    exact fold_proceed hphase hx h
  | grant u role granter =>
    simp only [hphase, InactiveAccounts.next] at h
    exact grant_proceed hphase hx h
  | lockAdmins u role =>
    simp only [hphase, InactiveAccounts.next] at h
    exact lockAdmins_proceed hphase hx h
  | revoke u role =>
    simp only [hphase, InactiveAccounts.next] at h
    exact revoke_proceed hphase hx h
  | hold u mode =>
    simp only [hphase, InactiveAccounts.next] at h
    obtain ⟨rfl, rfl, rfl⟩ := Statement.proceed_inj h
    simp only [Asserts, hphase] at hx
    exact steady_step (untouched_steady hx.untouched _ _) (fun c _ => .refl _ _ _) _
  | recheck job us =>
    cases us with
    | nil =>
      simp only [hphase, InactiveAccounts.next] at h
      cases h
    | cons u rest =>
      simp only [hphase, InactiveAccounts.next] at h
      exact recheck_proceed hphase hx h
  | lockAccount job u rest =>
    simp only [hphase, InactiveAccounts.next, Covered] at h met
    exact lockAccount_proceed hb.1 hphase hx met h
  | guard job u rest =>
    simp only [hphase, InactiveAccounts.next, Covered] at h met
    exact guard_proceed hphase hx met h
  | scrub job u rest =>
    simp only [hphase, InactiveAccounts.next] at h
    exact scrub_proceed hphase hx h
  | forgetRoles job u rest =>
    simp only [hphase, InactiveAccounts.next] at h
    exact forgetRoles_proceed hphase hx h
  | forgetSessions job u rest =>
    simp only [hphase, InactiveAccounts.next] at h
    exact forgetSessions_proceed hphase hx h
  | written w | done | scan job | erased job u rest =>
    simp only [hphase, InactiveAccounts.next] at h
    cases h

/-- The transactions that end without a write of their own. -/
theorem fresh_ends {phase : Phase} {v : Board} {free : Lock → Bool} {rest : Option Phase}
    (h : next env phase v free = ⟨locks, .commit rest⟩) :
    (∃ w, phase = .written w ∧ rest = none) ∨ (phase = .done ∧ rest = none) ∨
      (∃ job u us, phase = .erased job u us ∧ rest = some (.recheck job us)) ∨
      ((∀ x : Running, x.phase = phase → ∀ c, Asserts x c → Fresh x) ∧
        ∀ p ∈ rest, ∃ job us, p = .recheck job us) := by
  cases phase with
  | written w =>
    obtain ⟨-, h⟩ := Statement.mk.inj h
    exact .inl ⟨w, rfl, (Action.commit.inj h).symm⟩
  | done =>
    obtain ⟨-, h⟩ := Statement.mk.inj h
    exact .inr (.inl ⟨rfl, (Action.commit.inj h).symm⟩)
  | erased job u us =>
    obtain ⟨-, h⟩ := Statement.mk.inj h
    exact .inr (.inr (.inl ⟨job, u, us, rfl, (Action.commit.inj h).symm⟩))
  | scan job =>
    obtain ⟨-, h⟩ := Statement.mk.inj h
    refine .inr (.inr (.inr ⟨fun x hphase c hx => by simpa only [Asserts, hphase] using hx, ?_⟩))
    intro p hp
    rw [← Action.commit.inj h] at hp
    exact ⟨job, _, (Option.some.inj hp).symm⟩
  | refresh raw now =>
    refine .inr (.inr (.inr ⟨fun x hphase c hx => by simpa only [Asserts, hphase] using hx, ?_⟩))
    simp only [next, refreshStatement] at h
    split at h
    · cases h
    · obtain ⟨-, h⟩ := Statement.mk.inj h
      rw [← Action.commit.inj h]
      simp
  | grant u role granter =>
    refine .inr (.inr (.inr ⟨fun x hphase c hx => by simpa only [Asserts, hphase] using hx, ?_⟩))
    simp only [next, grantStatement] at h
    split at h
    · obtain ⟨-, h⟩ := Statement.mk.inj h
      rw [← Action.commit.inj h]
      simp
    · obtain ⟨-, h⟩ := Statement.mk.inj h
      split at h <;> cases h
  | recheck job us =>
    refine .inr (.inr (.inr ⟨fun x hphase c hx => by simpa only [Asserts, hphase] using hx, ?_⟩))
    cases us with
    | nil =>
      obtain ⟨-, h⟩ := Statement.mk.inj h
      rw [← Action.commit.inj h]
      simp
    | cons u us =>
      simp only [next, recheckStatement] at h
      split at h <;> cases h
  | login row =>
    obtain ⟨-, h⟩ := Statement.mk.inj h
    split at h <;> cases h
  | touch w =>
    simp only [next, touchStatement] at h
    split at h <;> cases h
  | lockAdmins u role =>
    obtain ⟨-, h⟩ := Statement.mk.inj h
    split at h <;> cases h
  | revoke u role =>
    simp only [next, revokeStatement] at h
    split at h <;> cases h
  | lockAccount job u us =>
    obtain ⟨-, h⟩ := Statement.mk.inj h
    split at h <;> cases h
  | guard job u us =>
    obtain ⟨-, h⟩ := Statement.mk.inj h
    split at h <;> cases h
  | scrub job u us =>
    simp only [next, scrubStatement] at h
    split at h <;> cases h
  | purge now idleCutoff | fold ms | hold u mode | forgetRoles job u us
  | forgetSessions job u us => cases h

theorem asserts_commit {rest : Option Phase} (hb : Lawful s.committed)
    (hx : Asserts x s.committed) (mem : x ∈ s.running) (met : Guarded s (.advance x.id))
    (h : (program env).statement s x = ⟨locks, .commit rest⟩) : Committed s x rest := by
  have met := met x (Table.find_of_mem mem)
  rcases fresh_ends h with ⟨w, hphase, rfl⟩ | ⟨hphase, rfl⟩ | ⟨job, u, us, hphase, rfl⟩ |
    ⟨fresh, after⟩
  · simp only [Asserts, Covered, hphase] at hx met
    refine steady_commit hb hx fun m hm y hy e he own => ?_
    obtain rfl := Option.some.inj hm
    exact met y hy e he own
  · simp only [Asserts, hphase] at hx
    exact steady_commit hb hx (by simp)
  · simp only [Asserts, hphase] at hx
    refine ⟨gone_lawful hx hb, fun k free => gone_keeps hx free, ?_, ?_⟩
    · exact fun y _ _ => gone_evolves hx y
    · intro p hp
      obtain rfl := Option.some.inj hp
      exact fresh_restart x.id job us _
  · exact fresh_commit hb (fresh x rfl s.committed hx) after

theorem abort_rest {phase : Phase} {v : Board} {free : Lock → Bool} {rest : Option Phase}
    (h : next env phase v free = ⟨locks, .abort rest⟩) :
    ∀ p ∈ rest, ∃ job us, p = .recheck job us := by
  have none_rest : ∀ p ∈ (none : Option Phase), ∃ job us, p = .recheck job us := by simp
  cases phase with
  | login row =>
    obtain ⟨-, h⟩ := Statement.mk.inj h
    split at h
    · cases h
    · exact Action.abort.inj h ▸ none_rest
  | grant u role granter =>
    simp only [next, grantStatement] at h
    split at h
    · cases h
    · obtain ⟨-, h⟩ := Statement.mk.inj h
      split at h
      · cases h
      · exact Action.abort.inj h ▸ none_rest
  | lockAdmins u role =>
    obtain ⟨-, h⟩ := Statement.mk.inj h
    split at h
    · exact Action.abort.inj h ▸ none_rest
    · cases h
  | recheck job us =>
    cases us with
    | nil => cases h
    | cons u us =>
      simp only [next, recheckStatement] at h
      split at h
      · cases h
      · obtain ⟨-, h⟩ := Statement.mk.inj h
        intro p hp
        rw [← Action.abort.inj h] at hp
        exact ⟨job, us, (Option.some.inj hp).symm⟩
  | lockAccount job u us =>
    obtain ⟨-, h⟩ := Statement.mk.inj h
    split at h
    · cases h
    · intro p hp
      rw [← Action.abort.inj h] at hp
      exact ⟨job, us, (Option.some.inj hp).symm⟩
  | guard job u us =>
    obtain ⟨-, h⟩ := Statement.mk.inj h
    split at h
    · exact Action.abort.inj h ▸ none_rest
    · cases h
  | scrub job u us =>
    simp only [next, scrubStatement] at h
    split at h
    · cases h
    · obtain ⟨-, h⟩ := Statement.mk.inj h
      exact Action.abort.inj h ▸ none_rest
  | refresh raw now =>
    simp only [next, refreshStatement] at h
    split at h <;> cases h
  | touch w =>
    simp only [next, touchStatement] at h
    split at h <;> cases h
  | revoke u role =>
    simp only [next, revokeStatement] at h
    split at h <;> cases h
  | written w | done | scan job | erased job u us | purge now idleCutoff | fold ms | hold u mode
  | forgetRoles job u us | forgetSessions job u us => cases h

end Outline

theorem outline (env : Casing) : Outline (program env) Lawful Asserts Evolves Keeps Guarded where
  clash_comm := clash_comm
  entry b t call _ := by cases call <;> exact ⟨rfl, rfl⟩
  proceed s x locks next write hb hx mem met h := asserts_proceed hb hx mem met h
  commit s x locks rest hb hx mem met h := asserts_commit hb hx mem met h
  abort s x locks rest _ _ _ h p hp := by
    obtain ⟨job, us, rfl⟩ := abort_rest h p hp
    exact fresh_restart x.id job us _
  stable b c y _ _ hy evolves kept := asserts_stable hy evolves kept

theorem of_lawful (start : AuthStore) : Lawful (Board.of start) := by
  constructor
  · intro m hm a ha
    rcases List.mem_append.mp hm with hm | hm
    · obtain ⟨r, hr, rfl⟩ := List.mem_map.mp hm
      exact .inr (.inr ⟨r.tokenHash, r, Table.find_of_mem hr, rfl, le_refl _⟩)
    · obtain ⟨q, hq, rfl⟩ := List.mem_map.mp hm
      have found : start.users.find q.id = some q := Table.find_of_mem hq
      have ha : start.users.find q.id = some a := ha
      rw [found] at ha
      exact .inr (.inl (Option.some.inj ha ▸ le_refl _))
  · intro e he
    cases he

/-- In a run whose steps the recheck covers, the job erases no account that is in use or
privileged. -/
theorem retention_spares (env : Casing) (start : AuthStore) (events : List RetentionEvent)
    (h : Along (program env) Guarded (initial (.of start)) events) :
    ∀ e ∈ (LockModes.run (program env) (initial (.of start)) events).committed.erased,
      Spared e :=
  (run_preserves_sound (outline env) (initial_sound (of_lawful start)) h).committed.2


def sampleRow (u : UserId) (email : String) : AccountRow :=
  ⟨u, email, none, .active, none, none, none, .en, true, none, 0⟩

/-- An account nobody has used, with a session of its own, and an administrator. -/
def sampleAuth : AuthStore := { Credentials.empty with
  users := (Table.insertAll .empty [sampleRow 1 "ada@bikes.org", sampleRow 2 "bo@bikes.org"]).getD
    .empty
  roles := (Table.insertAll .empty [⟨2, .admin, none⟩]).getD .empty
  sessions := (Table.insertAll .empty [⟨7, 1, "", 0, 0, days 90, none⟩]).getD .empty }

def sampleJob : Call := .anonymizeInactiveAccounts ⟨days 10, fun _ => days 11⟩

def steps (t n : ℕ) : List RetentionEvent := List.replicate n (.advance t)

/-- The job beside a login of another account and the refresh of an old session. -/
def sampleRun : List RetentionEvent :=
  .begin 0 sampleJob :: steps 0 2 ++
    .begin 1 (.login ⟨8, 2, "", days 11, days 11, days 90, none⟩) :: steps 1 3 ++
    .begin 2 (.refresh 7 (days 9)) :: steps 2 3 ++ steps 0 6

theorem retention_spares_beside : Along (program asciiCasing) Guarded (initial (.of sampleAuth))
      sampleRun ∧
    (∃ e ∈ (LockModes.run (program asciiCasing) (initial (.of sampleAuth))
      sampleRun).committed.erased, e.account = 1) ∧
    ∀ e ∈ (LockModes.run (program asciiCasing) (initial (.of sampleAuth))
      sampleRun).committed.erased, Spared e :=
  ⟨by decide +kernel, by decide +kernel,
    retention_spares asciiCasing sampleAuth sampleRun (by decide +kernel)⟩

/-- The account becomes an administrator between the list of candidates and its recheck. -/
def grantedRun : List RetentionEvent :=
  .begin 0 sampleJob :: steps 0 1 ++ .begin 1 (.grantRole 1 .admin 2) :: steps 1 2 ++ steps 0 7

/-- Its session is refreshed when its row is locked already. -/
def refreshedRun : List RetentionEvent :=
  .begin 0 sampleJob :: steps 0 3 ++ .begin 1 (.refresh 7 (days 11)) :: steps 1 3 ++ steps 0 5

/-- Two logins keep each other from marking the account while the recheck waits for it. -/
def loggedInRun : List RetentionEvent :=
  .begin 0 sampleJob :: steps 0 2 ++
    .begin 1 (.login ⟨8, 1, "", days 11, days 11, days 90, none⟩) ::
    .begin 2 (.login ⟨9, 1, "", days 11, days 11, days 90, none⟩) ::
    [.advance 1, .advance 2, .advance 1, .advance 2, .advance 1, .advance 2] ++ steps 0 6

/-- Some erasure of the run is not lawful. -/
def Overreaches (events : List RetentionEvent) : Prop :=
  ∃ e ∈ (LockModes.run (program asciiCasing) (initial (.of sampleAuth)) events).committed.erased,
    ¬ Spared e

instance (events : List RetentionEvent) : Decidable (Overreaches events) :=
  inferInstanceAs (Decidable (∃ e ∈ _, ¬ Spared e))

/-- An administrator is erased, and an account whose session was written behind the lock, and one
that has just signed in. -/
theorem account_in_use_erased :
    Overreaches grantedRun ∧ Overreaches refreshedRun ∧ Overreaches loggedInRun := by
  decide +kernel

end RetentionSafety
