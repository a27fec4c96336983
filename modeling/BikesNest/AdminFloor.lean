import BikesNest.AccountAdmin
import BikesNest.CredentialOps
import BikesNest.Erasure
import BikesNest.Runs

/-! Whether an administrator can still sign in, under everything that gives or takes the role or
the account of one. Each event is one transaction behind the locks on the ADMIN rows. -/

namespace AdminFloor

open Parking Schema Credentials Outcome AuthOutbox AccountAdmin Erasure Runs

inductive AdminEvent where
  | grantRole (u : UserId) (role : Role) (granter : UserId)
  | revokeRoleGuarded (u : UserId) (role : Role)
  | suspendByAdmin (u : UserId) (clock : Instant)
  | restoreByAdmin (u : UserId)
  | anonymize (u : UserId) (now : Instant)
  | anonymizeIfInactive (u : UserId) (inactiveBefore now : Instant)

def onAuth (db : Database) (t : Except Halt AuthStore) : Database :=
  { db with auth := t.toOption.getD db.auth }

def apply (env : Casing) (db : Database) : AdminEvent → Database
  | .grantRole u role granter => onAuth db (grantRole db.auth u role granter)
  | .revokeRoleGuarded u role => onAuth db (revokeRoleGuarded db.auth u role)
  | .suspendByAdmin u clock => onAuth db (suspendByAdmin db.auth u clock)
  | .restoreByAdmin u => onAuth db (restoreByAdmin db.auth u)
  | .anonymize u now => ((anonymize env db u now).toOption.map Prod.snd).getD db
  | .anonymizeIfInactive u inactiveBefore now =>
    (((anonymizeIfInactive env db u inactiveBefore now).toOption.join).map Prod.snd).getD db

abbrev HoldsAdmin (s : AuthStore) (u : UserId) : Prop := (s.roles.find (u, .admin)).isSome

/-- Someone who holds the ADMIN role and can sign in. -/
def ActiveAdmin (s : AuthStore) (u : UserId) : Prop :=
  HoldsAdmin s u ∧ isActive s u = true

def HasActiveAdmin (db : Database) : Prop := ∃ u, ActiveAdmin db.auth u

/-- Taking the role of `u` is refused, leaves another administrator who can sign in, or takes it
from someone who cannot. -/
def OthersRemain (s : AuthStore) (u : UserId) : Prop :=
  ActiveAdmin s u → (∃ v, v ≠ u ∧ HoldsAdmin s v) →
    ∃ v, v ≠ u ∧ ActiveAdmin s v

def Covered (env : Casing) (db : Database) : AdminEvent → Prop
  | .revokeRoleGuarded u .admin => OthersRemain db.auth u
  | .anonymize u _ => shellAddressFree env db.auth u → OthersRemain db.auth u
  | .anonymizeIfInactive u inactiveBefore _ =>
    stillInactive db.auth u inactiveBefore → shellAddressFree env db.auth u →
      OthersRemain db.auth u
  | _ => True

variable {env : Casing} {s s' : AuthStore} {db : Database} {u v : UserId} {now clock : Instant}

/-! The counts of the guards, as statements about who holds the role. -/

theorem mem_admins : u ∈ admins s ↔ HoldsAdmin s u := by
  constructor
  · intro h
    obtain ⟨r, hr, rfl⟩ := List.mem_map.mp h
    obtain ⟨there, role⟩ := Table.mem_filter.mp hr
    have found : s.roles.find (r.userId, r.role) = some r := Table.find_of_mem there
    rw [of_decide_eq_true role] at found
    exact Option.isSome_of_mem found
  · intro h
    obtain ⟨r, found⟩ := Option.isSome_iff_exists.mp h
    obtain ⟨there, key⟩ := Table.find_eq_some.mp found
    simp only [Prod.mk.injEq] at key
    exact List.mem_map.mpr ⟨r, Table.mem_filter.mpr ⟨there, by simp [key.2]⟩, key.1⟩

theorem admins_nodup (s : AuthStore) : (admins s).Nodup := by
  have rows : (s.roles.filter fun r => decide (r.role = .admin)).Nodup :=
    (List.Nodup.of_map _ s.roles.distinct).filter _
  refine rows.map_on ?_
  intro r hr q hq same
  obtain ⟨hr, role⟩ := Table.mem_filter.mp hr
  obtain ⟨hq, role'⟩ := Table.mem_filter.mp hq
  have roles : r.role = q.role := (of_decide_eq_true role).trans (of_decide_eq_true role').symm
  exact Table.eq_of_key_eq hr hq (by rw [same, roles])

/-- The count of the ADMIN rows says whether `u` holds the only one. -/
theorem admins_length (held : HoldsAdmin s u) :
    (admins s).length ≤ 1 ↔ ∀ v, HoldsAdmin s v → v = u := by
  have mine := mem_admins.mpr held
  constructor
  · intro short v hv
    obtain ⟨w, only⟩ := List.length_eq_one_iff.mp
      (le_antisymm short (List.length_pos_of_mem mine))
    have hv := mem_admins.mpr hv
    rw [only, List.mem_singleton] at hv mine
    rw [hv, mine]
  · intro only
    rw [← List.toFinset_card_of_nodup (admins_nodup s)]
    refine Finset.card_le_one.mpr fun v hv w hw => ?_
    rw [only v (mem_admins.mp (List.mem_toFinset.mp hv)),
      only w (mem_admins.mp (List.mem_toFinset.mp hw))]

theorem lastAdmin_iff : lastAdmin s u ↔
    HoldsAdmin s u ∧ ∀ v, HoldsAdmin s v → v = u := by
  have count : s.roles.count (fun r => decide (r.role = .admin)) = (admins s).length := by
    rw [admins, List.length_map, Table.count, Table.filter, List.countP_eq_length_filter]
  unfold lastAdmin
  rw [count]
  refine and_congr_right fun held => ?_
  rw [← admins_length held]
  have some := List.length_pos_of_mem (mem_admins.mpr held)
  omega

theorem otherActiveAdmins_ne_zero :
    otherActiveAdmins s u ≠ 0 ↔ ∃ v, v ≠ u ∧ ActiveAdmin s v := by
  rw [← Nat.pos_iff_ne_zero, otherActiveAdmins, Table.count, List.countP_pos_iff]
  constructor
  · rintro ⟨r, hr, counted⟩
    simp only [Bool.and_eq_true, decide_eq_true_eq] at counted
    refine ⟨r.userId, counted.1.2, mem_admins.mp ?_, counted.2⟩
    exact List.mem_map.mpr ⟨r, Table.mem_filter.mpr ⟨hr, by simp [counted.1.1]⟩, rfl⟩
  · rintro ⟨v, other, held, active⟩
    obtain ⟨r, hr, rfl⟩ := List.mem_map.mp (mem_admins.mpr held)
    obtain ⟨hr, role⟩ := Table.mem_filter.mp hr
    exact ⟨r, hr, by simp [other, active, of_decide_eq_true role]⟩

/-! What each transition does to the administrators who can sign in. -/

theorem isActive_setAccount_other {f : AccountRow → AccountRow} (other : v ≠ u)
    (hf : ∀ a, (f a).id = a.id) : isActive (setAccount s u f hf) v = isActive s v := by
  rw [isActive, find_setAccount_other s u other, isActive]

theorem grantRole_keeps {role : Role} {granter : UserId} (h : grantRole s u role granter = .ok s')
    (held : ActiveAdmin s v) : ActiveAdmin s' v := by
  unfold grantRole at h
  split at h
  · cases h
    exact held
  · rename_i roles added
    simp only [bind_ok, ensure_ok, pure_ok] at h
    obtain ⟨-, -, rfl⟩ := h
    obtain ⟨r, found⟩ := Option.isSome_iff_exists.mp held.1
    exact ⟨Option.isSome_of_mem (Table.find_insert_of_find added found), held.2⟩

/-- A delete that goes by the key of a row. -/
theorem find_delete_role {p : RoleRow → Bool} (lost : Prop) [Decidable lost]
    (hit : ∀ r : RoleRow, r.userId = v → r.role = .admin → p r = decide lost) :
    ((s.roles.delete p).find (v, .admin)).isSome ↔ HoldsAdmin s v ∧ ¬ lost := by
  rw [Table.find_delete, HoldsAdmin]
  cases found : s.roles.find (v, .admin) with
  | none => simp
  | some r =>
    have key := (Table.find_eq_some.mp found).2
    simp only [Prod.mk.injEq] at key
    by_cases h : lost <;> simp [Option.filter, hit r key.1 key.2, h]

theorem revokeRoleGuarded_ok {role : Role} (h : revokeRoleGuarded s u role = .ok s') :
    ¬ (role = .admin ∧ (admins s).length ≤ 1 ∧ u ∈ admins s) ∧
      ∀ v, ActiveAdmin s' v ↔ ActiveAdmin s v ∧ ¬ (v = u ∧ role = .admin) := by
  simp only [revokeRoleGuarded, bind_ok, ensure_ok, pure_ok] at h
  obtain ⟨_, guard, rfl⟩ := h
  refine ⟨guard, fun v => ?_⟩
  have kept := find_delete_role (s := s) (v := v)
    (p := fun r => decide (r.userId = u ∧ r.role = role)) (v = u ∧ Role.admin = role)
    fun r user admin => by rw [user, admin]
  unfold ActiveAdmin
  rw [HoldsAdmin, kept, eq_comm (a := role), and_right_comm]
  rfl

/-- A suspension of an administrator who can sign in finds another one. -/
theorem suspendByAdmin_active (h : suspendByAdmin s u clock = .ok s') :
    (ActiveAdmin s u → ∃ v, v ≠ u ∧ ActiveAdmin s v) ∧
      ∀ v, v ≠ u → (ActiveAdmin s' v ↔ ActiveAdmin s v) := by
  obtain ⟨user, found, -, others, rfl⟩ := suspendByAdmin_ok h
  constructor
  · rintro ⟨held, active⟩
    refine otherActiveAdmins_ne_zero.mp (others ?_ (mem_admins.mpr held))
    simpa [isActive, found] using active
  · intro v other
    refine and_congr Iff.rfl ?_
    exact iff_of_eq (congrArg (· = true) (isActive_setAccount_other (u := u) other (by intro; rfl)))

theorem restoreByAdmin_keeps (h : restoreByAdmin s u = .ok s') (held : ActiveAdmin s v) :
    ActiveAdmin s' v := by
  obtain ⟨user, found, suspended, rfl⟩ := restoreByAdmin_ok h
  have other : v ≠ u := by
    rintro rfl
    have active := held.2
    rw [isActive, found] at active
    simp [suspended] at active
  exact ⟨held.1, (isActive_setAccount_other other (by intro; rfl)).trans held.2⟩

theorem eraseAccount_active :
    ActiveAdmin (eraseAccount s u now) v ↔ ActiveAdmin s v ∧ v ≠ u := by
  have kept : HoldsAdmin (eraseAccount s u now) v ↔ HoldsAdmin s v ∧ ¬ v = u := by
    unfold HoldsAdmin eraseAccount
    rw [Table.find_update, Option.isSome_map]
    exact find_delete_role (v = u) fun r user _ => by rw [user]
  unfold ActiveAdmin
  rw [kept, and_right_comm]
  refine and_congr_left fun other => and_congr_right fun _ => ?_
  exact iff_of_eq (congrArg (· = true) (isActive_setAccount_other (u := u) other (by intro; rfl)))

/-! A step keeps the floor exactly when it is covered. -/

/-- An event that takes `u` out, behind the guard that counts the ADMIN rows. -/
theorem floor_of_loss (floor : ∃ v, ActiveAdmin s v)
    (guard : HoldsAdmin s u → ∃ v, v ≠ u ∧ HoldsAdmin s v)
    (loses : ∀ v, ActiveAdmin s' v ↔ ActiveAdmin s v ∧ v ≠ u) :
    (∃ v, ActiveAdmin s' v) ↔ OthersRemain s u := by
  constructor
  · rintro ⟨v, left⟩ - -
    obtain ⟨held, other⟩ := (loses v).mp left
    exact ⟨v, other, held⟩
  · intro remain
    obtain ⟨w, held⟩ := floor
    by_cases same : w = u
    · subst same
      obtain ⟨v, other, left⟩ := remain held (guard held.1)
      exact ⟨v, (loses v).mpr ⟨left, other⟩⟩
    · exact ⟨w, (loses w).mpr ⟨held, same⟩⟩

/-- A sole administrator is refused, and the question of others does not arise. -/
theorem othersRemain_of_sole (sole : ∀ v, HoldsAdmin s v → v = u) : OthersRemain s u :=
  fun _ ⟨v, other, held⟩ => absurd (sole v held) other

theorem revoke_floor (floor : ∃ v, ActiveAdmin s v) :
    (∃ v, ActiveAdmin ((revokeRoleGuarded s u .admin).toOption.getD s) v) ↔ OthersRemain s u := by
  cases h : revokeRoleGuarded s u .admin with
  | error e =>
    refine iff_of_true floor (othersRemain_of_sole ?_)
    unfold revokeRoleGuarded ensure at h
    split at h
    · cases h
    · rename_i refused
      obtain ⟨-, short, mine⟩ := not_not.mp refused
      exact (admins_length (mem_admins.mp mine)).mp short
  | ok s' =>
    obtain ⟨guard, loses⟩ := revokeRoleGuarded_ok h
    refine floor_of_loss floor ?_ fun v => (loses v).trans (by simp)
    intro mine
    by_contra alone
    refine guard ⟨rfl, (admins_length mine).mpr ?_, mem_admins.mpr mine⟩
    exact fun v held => not_not.mp fun other => alone ⟨v, other, held⟩

theorem erase_floor (floor : HasActiveAdmin db) (guard : ¬ lastAdmin db.auth u) :
    HasActiveAdmin (db.erase u now) ↔ OthersRemain db.auth u := by
  refine floor_of_loss floor ?_ fun v => eraseAccount_active
  intro mine
  by_contra alone
  exact guard (lastAdmin_iff.mpr ⟨mine, fun v held => not_not.mp fun other =>
    alone ⟨v, other, held⟩⟩)

theorem anonymize_floor (floor : HasActiveAdmin db) :
    HasActiveAdmin (apply env db (.anonymize u now)) ↔ Covered env db (.anonymize u now) := by
  simp only [apply, Covered]
  cases h : anonymize env db u now with
  | ok result =>
    obtain ⟨report, db'⟩ := result
    obtain ⟨guard, free, -, rfl⟩ := anonymize_ok.mp h
    exact (erase_floor floor guard).trans ⟨fun remain _ => remain, fun covered => covered free⟩
  | error e =>
    refine iff_of_true floor fun free => ?_
    by_cases last : lastAdmin db.auth u
    · exact othersRemain_of_sole (lastAdmin_iff.mp last).2
    · rw [anonymize_ok.mpr ⟨last, free, rfl, rfl⟩] at h
      cases h

theorem anonymizeIfInactive_floor {inactiveBefore : Instant} (floor : HasActiveAdmin db) :
    HasActiveAdmin (apply env db (.anonymizeIfInactive u inactiveBefore now)) ↔
      Covered env db (.anonymizeIfInactive u inactiveBefore now) := by
  simp only [apply, Covered]
  by_cases done : ∃ result, anonymizeIfInactive env db u inactiveBefore now = .ok (some result)
  · obtain ⟨⟨report, db'⟩, h⟩ := done
    obtain ⟨inactive, guard, free, -, rfl⟩ := anonymizeGuarded_ok.mp h
    simp only [h]
    refine (erase_floor floor guard).trans ⟨fun remain _ _ => remain, fun covered => ?_⟩
    exact covered (inactive _ rfl) free
  · have unchanged : ((anonymizeIfInactive env db u inactiveBefore now).toOption.join).map
        Prod.snd = none := by
      cases h : anonymizeIfInactive env db u inactiveBefore now with
      | error e => rfl
      | ok result =>
        cases result with
        | none => rfl
        | some result => exact absurd ⟨result, h⟩ done
    simp only [unchanged]
    refine iff_of_true floor fun inactive free => ?_
    by_cases last : lastAdmin db.auth u
    · exact othersRemain_of_sole (lastAdmin_iff.mp last).2
    · exact absurd ⟨_, anonymizeGuarded_ok.mpr ⟨by simpa using inactive, last, free, rfl, rfl⟩⟩ done

theorem onAuth_floor {t : Except Halt AuthStore} (floor : HasActiveAdmin db)
    (keeps : ∀ s', t = .ok s' → ∃ v, ActiveAdmin s' v) : HasActiveAdmin (onAuth db t) := by
  cases t with
  | error e => exact floor
  | ok s' => exact keeps s' rfl

/-- An event takes the last administrator who can sign in exactly when it is not covered. -/
theorem apply_floor (e : AdminEvent) (floor : HasActiveAdmin db) :
    HasActiveAdmin (apply env db e) ↔ Covered env db e := by
  cases e with
  | grantRole u role granter =>
    refine iff_of_true (onAuth_floor floor fun s' h => ?_) trivial
    obtain ⟨v, held⟩ := floor
    exact ⟨v, grantRole_keeps h held⟩
  | revokeRoleGuarded u role =>
    cases role with
    | admin => exact revoke_floor floor
    | user | moderator =>
      refine iff_of_true (onAuth_floor floor fun s' h => ?_) trivial
      obtain ⟨v, held⟩ := floor
      exact ⟨v, ((revokeRoleGuarded_ok h).2 v).mpr ⟨held, by simp⟩⟩
  | suspendByAdmin u clock =>
    refine iff_of_true (onAuth_floor floor fun s' h => ?_) trivial
    obtain ⟨others, keeps⟩ := suspendByAdmin_active h
    obtain ⟨v, held⟩ := floor
    by_cases same : v = u
    · subst same
      obtain ⟨w, other, left⟩ := others held
      exact ⟨w, (keeps w other).mpr left⟩
    · exact ⟨v, (keeps v same).mpr held⟩
  | restoreByAdmin u =>
    refine iff_of_true (onAuth_floor floor fun s' h => ?_) trivial
    obtain ⟨v, held⟩ := floor
    exact ⟨v, restoreByAdmin_keeps h held⟩
  | anonymize u now => exact anonymize_floor floor
  | anonymizeIfInactive u inactiveBefore now => exact anonymizeIfInactive_floor floor

/-- An administrator can sign in after every step of a run exactly when every step is covered. -/
theorem floor_along_iff (env : Casing) (db : Database) (start : HasActiveAdmin db)
    (events : List AdminEvent) :
    Along (apply env) (fun db e => HasActiveAdmin (apply env db e)) db events ↔
      Along (apply env) (Covered env) db events := by
  constructor
  · intro along
    exact along_of_invariant (I := HasActiveAdmin) (fun _ _ _ next => next)
      (fun _ e floor next => (apply_floor e floor).mp next) start along
  · intro along
    exact along_of_invariant (I := HasActiveAdmin)
      (fun _ e floor covered => (apply_floor e floor).mpr covered)
      (fun _ e floor covered => (apply_floor e floor).mpr covered) start along

/-- Ada and Eve are administrators. -/
def twoAdmins : Database :=
  let account (id : UserId) (email : String) : AccountRow :=
    ⟨id, email, none, .active, some 0, none, none, .en, true, none, 0⟩
  { Erasure.empty with auth := { Credentials.empty with
    users := ⟨[account 1 "ada@bikes.org", account 2 "eve@bikes.org"], CredentialOps.two_distinct⟩
    roles := ⟨[⟨1, .admin, none⟩, ⟨2, .admin, some 1⟩], by decide⟩ } }

theorem floor_along_iff_two :
    Along (apply CredentialOps.asciiCasing)
      (fun db e => HasActiveAdmin (apply CredentialOps.asciiCasing db e)) twoAdmins
      [.suspendByAdmin 2 0, .restoreByAdmin 2, .revokeRoleGuarded 1 .admin] :=
  (floor_along_iff _ _ ⟨1, by decide, by decide⟩ _).mpr
    ⟨trivial, trivial, fun _ _ => ⟨2, by decide, by decide, by decide⟩, trivial⟩

/-- Eve is suspended, then Ada loses the role: two ADMIN rows were counted. -/
theorem floor_lost :
    HasActiveAdmin twoAdmins ∧
      ¬ HasActiveAdmin (run (apply CredentialOps.asciiCasing) twoAdmins
        [.suspendByAdmin 2 0, .revokeRoleGuarded 1 .admin]) := by
  refine ⟨⟨1, by decide, by decide⟩, ?_⟩
  rintro ⟨v, held, active⟩
  have none : ∀ w ∈ admins (run (apply CredentialOps.asciiCasing) twoAdmins
      [.suspendByAdmin 2 0, .revokeRoleGuarded 1 .admin]).auth,
      isActive (run (apply CredentialOps.asciiCasing) twoAdmins
        [.suspendByAdmin 2 0, .revokeRoleGuarded 1 .admin]).auth w = false := by decide
  rw [none v (mem_admins.mpr held)] at active
  cases active

end AdminFloor
