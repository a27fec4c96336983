import BikesNest.VoteStatements

/-! How the committed store moves under a vote in flight: what each transaction may do to the
location, the proposal and the votes behind a lock it does not hold, and what no transaction
does at all. -/

namespace VoteMoves

open Parking Proposal Schema Publishing Contribution Accounts Operations RowLocks VoteStatements

/-- Anonymized; an account never comes back from this state. -/
def Gone (s : Store) (u : UserId) : Prop :=
  ∃ w, s.users.find u = some w ∧ w.accountState = .deleted

/-- A vote stays what it was unless its voter is gone. -/
def VoteKept (s t : Store) (id : ProposalId) (u : UserId) : Prop :=
  t.votes.find (id, u) = s.votes.find (id, u) ∨ (t.votes.find (id, u) = none ∧ Gone t u)

/-- Votes and proposals refer to rows that exist, and no vote is by the recorded proposer. -/
structure Invariant (s : Store) : Prop where
  proposal : ∀ v ∈ s.votes, (s.proposals.find v.proposalId).isSome
  voter : ∀ v ∈ s.votes, (s.users.find v.voterId).isSome
  proposer : ∀ i p u, s.proposals.find i = some p → p.proposerId = some u →
    (s.users.find u).isSome
  byOther : ∀ v ∈ s.votes, ∀ p, s.proposals.find v.proposalId = some p →
    p.proposerId ≠ some v.voterId

theorem initial_invariant : Invariant Schema.empty := by
  constructor
  · intro v hv
    exact absurd hv (Table.not_mem_empty v)
  · intro v hv
    exact absurd hv (Table.not_mem_empty v)
  · intro i p u hp
    cases hp
  · intro v hv
    exact absurd hv (Table.not_mem_empty v)

/-- A proposer is forgotten only when the account is gone. -/
def SameProposer (t : Store) (p q : ProposalRow) : Prop :=
  q.proposerId = p.proposerId ∨ (q.proposerId = none ∧ ∃ u, p.proposerId = some u ∧ Gone t u)

/-- Accounts stay, and those that are gone stay gone. -/
structure UsersEvolve (s t : Store) : Prop where
  known : ∀ u, (s.users.find u).isSome → (t.users.find u).isSome
  gone : ∀ u, Gone s u → Gone t u

/-- What holds of any move: proposals keep their location and proposer. -/
structure Evolves (s t : Store) : Prop extends UsersEvolve s t where
  proposal : ∀ id p, s.proposals.find id = some p →
    ∃ q, t.proposals.find id = some q ∧ q.locationId = p.locationId ∧ SameProposer t p q

/-- The location's lock protects its row and the votes on its proposals, a proposal's lock its
row. -/
def Keeps (k : Lock) (s t : Store) : Prop :=
  match k with
  | .location l => t.locations.find l = s.locations.find l ∧
      ∀ id p, s.proposals.find id = some p → p.locationId = l → ∀ u, VoteKept s t id u
  | .proposal id => t.proposals.find id = s.proposals.find id
  | _ => True

/-- A move that writes behind the locks `touched` only. -/
structure Moves (s t : Store) (touched : List Lock) : Prop where
  invariant : Invariant s → Invariant t
  evolves : Evolves s t
  keeps : ∀ k, k ∉ touched → Keeps k s t

theorem VoteKept.refl (s : Store) (id : ProposalId) (u : UserId) : VoteKept s s id u := .inl rfl

theorem VoteKept.trans {r s t : Store} {id : ProposalId} {u : UserId} (gone : Gone s u → Gone t u)
    (h : VoteKept r s id u) (k : VoteKept s t id u) : VoteKept r t id u := by
  rcases k with hk | ⟨hk, hg⟩
  · rcases h with h | ⟨h, hg⟩
    · exact .inl (hk.trans h)
    · exact .inr ⟨hk.trans h, gone hg⟩
  · exact .inr ⟨hk, hg⟩

theorem UsersEvolve.of_eq {s t : Store} (h : t.users = s.users) : UsersEvolve s t := by
  refine ⟨fun u hu => h ▸ hu, fun u hu => ?_⟩
  rw [Gone, h]
  exact hu

theorem Evolves.refl (s : Store) : Evolves s s :=
  ⟨.of_eq rfl, fun _ p hp => ⟨p, hp, rfl, .inl rfl⟩⟩

theorem Evolves.trans {r s t : Store} (h : Evolves r s) (k : Evolves s t) : Evolves r t := by
  refine ⟨⟨fun u hu => k.known u (h.known u hu), fun u hu => k.gone u (h.gone u hu)⟩,
    fun id p hp => ?_⟩
  obtain ⟨q, hq, hql, hqp⟩ := h.proposal id p hp
  obtain ⟨o, ho, hol, hop⟩ := k.proposal id q hq
  refine ⟨o, ho, hol.trans hql, ?_⟩
  rcases hqp with hqp | ⟨hqn, u, hu, hg⟩
  · rcases hop with hop | ⟨hon, u, hu, hg⟩
    · exact .inl (hop.trans hqp)
    · exact .inr ⟨hon, u, hqp ▸ hu, hg⟩
  · rcases hop with hop | ⟨hon, w, hw, -⟩
    · exact .inr ⟨hop.trans hqn, u, hu, k.gone u hg⟩
    · rw [hqn] at hw
      cases hw

theorem Moves.refl (s : Store) (touched : List Lock) : Moves s s touched := by
  refine ⟨id, .refl s, fun k _ => ?_⟩
  cases k with
  | location l => exact ⟨rfl, fun id _ _ _ u => .refl s id u⟩
  | proposal id => rfl
  | vote | user | review => trivial

theorem Moves.trans {r s t : Store} {touched more : List Lock} (h : Moves r s touched)
    (k : Moves s t more) : Moves r t (touched ++ more) := by
  refine ⟨k.invariant ∘ h.invariant, h.evolves.trans k.evolves, fun lock hlock => ?_⟩
  have first := h.keeps lock fun hm => hlock (List.mem_append_left _ hm)
  have second := k.keeps lock fun hm => hlock (List.mem_append_right _ hm)
  cases lock with
  | location l =>
    refine ⟨second.1.trans first.1, fun id p hp hl u => ?_⟩
    obtain ⟨q, hq, hql, -⟩ := h.evolves.proposal id p hp
    exact (first.2 id p hp hl u).trans (k.evolves.gone u) (second.2 id q hq (hql.trans hl) u)
  | proposal id => exact Eq.trans second first
  | vote | user | review => trivial

theorem Moves.mono {s t : Store} {touched more : List Lock} (h : Moves s t touched)
    (sub : ∀ k ∈ touched, k ∈ more) : Moves s t more :=
  ⟨h.invariant, h.evolves, fun k hk => h.keeps k fun hm => hk (sub k hm)⟩

theorem invariant_congr {s t : Store} (votes : t.votes = s.votes)
    (users : UsersEvolve s t)
    (find : ∀ i q, t.proposals.find i = some q →
      ∃ p, s.proposals.find i = some p ∧ (q.proposerId = p.proposerId ∨ q.proposerId = none))
    (kept : ∀ i, (s.proposals.find i).isSome → (t.proposals.find i).isSome)
    (hs : Invariant s) : Invariant t := by
  constructor
  · intro v hv
    exact kept _ (hs.proposal v (votes ▸ hv))
  · intro v hv
    exact users.known _ (hs.voter v (votes ▸ hv))
  · intro i q u hq hu
    obtain ⟨p, hp, hqp | hqp⟩ := find _ q hq
    · exact users.known u (hs.proposer i p u hp (hqp ▸ hu))
    · rw [hqp] at hu
      cases hu
  · intro v hv q hq
    obtain ⟨p, hp, hqp | hqp⟩ := find _ q hq
    · rw [hqp]
      exact hs.byOther v (votes ▸ hv) p hp
    · rw [hqp]
      simp

/-- Proposals are updated in place, by an assignment that leaves location and proposer; votes
and accounts stay. -/
theorem Moves.of_map {s t : Store} {touched : List Lock}
    {f : ProposalId → ProposalRow → ProposalRow}
    (find : ∀ i, t.proposals.find i = (s.proposals.find i).map (f i))
    (payload : ∀ i p, (f i p).locationId = p.locationId ∧ (f i p).proposerId = p.proposerId)
    (same : ∀ i p, s.proposals.find i = some p → .proposal i ∉ touched → f i p = p)
    (location : ∀ l, .location l ∉ touched → t.locations.find l = s.locations.find l)
    (votes : t.votes = s.votes) (users : t.users = s.users) : Moves s t touched := by
  refine ⟨invariant_congr votes (.of_eq users) ?_ ?_, ⟨.of_eq users, ?_⟩, fun k hk => ?_⟩
  · intro i q hq
    rw [find, Option.map_eq_some_iff] at hq
    obtain ⟨p, hp, rfl⟩ := hq
    exact ⟨p, hp, .inl (payload i p).2⟩
  · intro i hi
    rw [find]
    simpa using hi
  · intro i p hp
    exact ⟨f i p, by rw [find, hp]; rfl, (payload i p).1, .inl (payload i p).2⟩
  · cases k with
    | location l => exact ⟨location l hk, fun id _ _ _ u => .inl (by rw [votes])⟩
    | proposal id =>
      change t.proposals.find id = s.proposals.find id
      rw [find]
      cases hp : s.proposals.find id with
      | none => rfl
      | some p => rw [Option.map_some, same id p hp hk]
    | vote | user | review => trivial

/-- Only one location's row is written. -/
theorem Moves.of_location {s t : Store} {touched : List Lock} {l : LocationId}
    (locked : .location l ∈ touched)
    (location : ∀ k, k ≠ l → t.locations.find k = s.locations.find k)
    (proposals : t.proposals = s.proposals) (votes : t.votes = s.votes)
    (users : t.users = s.users) : Moves s t touched :=
  .of_map (f := fun _ p => p) (fun i => by simp [proposals]) (fun _ _ => ⟨rfl, rfl⟩)
    (fun _ _ _ _ => rfl) (fun k hk => location k fun he => hk (he ▸ locked)) votes users

theorem find_setLocation_other {s : Store} {row : LocationRow} {l : LocationId}
    (h : l ≠ row.id) : (setLocation s row).locations.find l = s.locations.find l := by
  rw [find_setLocation, if_neg h]

/-! The writes of a vote. -/

theorem find_voteWrite (b : Ballot) (s : Store) (i : ProposalId) (u : UserId) :
    (voteWrite b s).votes.find (i, u) =
      if i = b.id ∧ u = b.voter then some ⟨b.id, b.voter, b.vote⟩ else s.votes.find (i, u) := by
  simp only [voteWrite, upsertVote, Table.find_upsert, Prod.mk.injEq]
  by_cases h : i = b.id ∧ u = b.voter
  · obtain ⟨rfl, rfl⟩ := h
    simp only [and_self, if_true, Option.some.injEq]
    cases hv : s.votes.find (b.id, b.voter) with
    | none => rfl
    | some v =>
      have hk := (Table.find_eq_some.mp hv).2
      simp only [Prod.mk.injEq] at hk
      simp [hk.1, hk.2]
  · have h' : ¬ (b.id = i ∧ b.voter = u) := fun he => h ⟨he.1.symm, he.2.symm⟩
    rw [if_neg h, if_neg h']

theorem moves_voteWrite {s : Store} {b : Ballot} {prop : ProposalRow}
    (found : s.proposals.find b.id = some prop) (byOther : prop.proposerId ≠ some b.voter)
    (known : (s.users.find b.voter).isSome) :
    Moves s (voteWrite b s) [.location prop.locationId] := by
  refine ⟨fun hs => ?_, ⟨.of_eq rfl, fun _ p hp => ⟨p, hp, rfl, .inl rfl⟩⟩, fun k hk => ?_⟩
  · have origin : ∀ v ∈ (voteWrite b s).votes,
        (v.proposalId = b.id ∧ v.voterId = b.voter) ∨ v ∈ s.votes := by
      intro v hv
      have hf := Table.find_of_mem hv
      rw [find_voteWrite] at hf
      split at hf
      · rename_i hk
        exact .inl hk
      · exact .inr (Table.find_eq_some.mp hf).1
    constructor
    · intro v hv
      rcases origin v hv with ⟨hid, -⟩ | hv
      · rw [hid]
        exact Option.isSome_iff_exists.mpr ⟨prop, found⟩
      · exact hs.proposal v hv
    · intro v hv
      rcases origin v hv with ⟨-, hvoter⟩ | hv
      · rw [hvoter]
        exact known
      · exact hs.voter v hv
    · exact hs.proposer
    · intro v hv p hp
      rcases origin v hv with ⟨hid, hvoter⟩ | hv
      · rw [hid] at hp
        obtain rfl : prop = p := Option.some.inj (found.symm.trans hp)
        rw [hvoter]
        exact byOther
      · exact hs.byOther v hv p hp
  · cases k with
    | location l =>
      refine ⟨rfl, fun id p hp hl u => .inl ?_⟩
      rw [find_voteWrite, if_neg]
      rintro ⟨rfl, -⟩
      obtain rfl : prop = p := Option.some.inj (found.symm.trans hp)
      exact hk (by simp [hl])
    | proposal id => rfl
    | vote | user | review => trivial

theorem publishWrite_frame (env : Env) (l : LocationId) (row : LocationRow)
    (applied : ProposalApplication) (revision : RevisionRow) (s : Store) :
    (publishWrite env l row applied revision s).locations = (setLocation s row).locations ∧
      (publishWrite env l row applied revision s).proposals = s.proposals ∧
      (publishWrite env l row applied revision s).votes = s.votes ∧
      (publishWrite env l row applied revision s).users = s.users := by
  simp only [publishWrite]
  cases h : writeParts env (setLocation s row) l applied with
  | ok parts =>
    have frame := writeParts_frame h
    exact ⟨frame.locations, frame.proposals, frame.votes, frame.users⟩
  | error e => exact ⟨rfl, rfl, rfl, rfl⟩

theorem moves_publishWrite (env : Env) (row : LocationRow) (applied : ProposalApplication)
    (revision : RevisionRow) (s : Store) (l : LocationId) :
    Moves s (publishWrite env l row applied revision s) [.location row.id] := by
  obtain ⟨locations, proposals, votes, users⟩ := publishWrite_frame env l row applied revision s
  refine .of_location (List.mem_singleton.mpr rfl) (fun k hk => ?_) proposals votes users
  rw [locations]
  exact find_setLocation_other hk

theorem find_decisionWrite (id : ProposalId) (resolver : UserId) (a r : ℕ) (s : Store)
    (k : ProposalId) :
    (decisionWrite id resolver a r s).proposals.find k =
      (s.proposals.find k).map fun p => if p.id = id then { p with
        status := .approved
        resolvedBy := some resolver
        decisionApprovals := some a
        decisionRejections := some r } else p := by
  simp [decisionWrite]

theorem moves_decisionWrite (id : ProposalId) (resolver : UserId) (a r : ℕ) (s : Store) :
    Moves s (decisionWrite id resolver a r s) [.proposal id] := by
  refine .of_map (find_decisionWrite id resolver a r s) (fun i p => ?_) (fun i p hp hi => ?_)
    (fun _ _ => rfl) rfl rfl
  · split <;> exact ⟨rfl, rfl⟩
  · have hne : p.id ≠ id := by
      rw [(Table.find_eq_some.mp hp).2]
      simpa using hi
    rw [if_neg hne]

theorem find_supersedeWrite (ids : List ProposalId) (s : Store) (k : ProposalId) :
    (supersedeWrite ids s).proposals.find k =
      (s.proposals.find k).map fun p => if p.id ∈ ids then { p with status := .superseded }
        else p := by
  simp [supersedeWrite]

theorem moves_supersedeWrite (ids : List ProposalId) (s : Store) :
    Moves s (supersedeWrite ids s) (ids.map .proposal) := by
  refine .of_map (find_supersedeWrite ids s) (fun i p => ?_) (fun i p hp hi => ?_)
    (fun _ _ => rfl) rfl rfl
  · split <;> exact ⟨rfl, rfl⟩
  · have hne : p.id ∉ ids := by
      rw [(Table.find_eq_some.mp hp).2]
      simpa using hi
    rw [if_neg hne]

theorem moves_escalate (s : Store) (id : ProposalId) (now : Instant) :
    Moves s (escalate s id now) [.proposal id] := by
  refine .of_map (f := fun _ p => if p.id = id ∧ p.escalatedAt = none then
    { p with escalatedAt := some now } else p) (fun i => by simp [escalate]) (fun i p => ?_)
    (fun i p hp hi => ?_) (fun _ _ => rfl) rfl rfl
  · split <;> exact ⟨rfl, rfl⟩
  · have hne : p.id ≠ id := by
      rw [(Table.find_eq_some.mp hp).2]
      simpa using hi
    rw [if_neg fun h => hne h.1]

/-! The operations that run as one step. -/

section Atomic

variable {env : Env} {s t : Store}

theorem locationLock_mem {s : Store} {id : ProposalId} {p : ProposalRow}
    (h : s.proposals.find id = some p) : .location p.locationId ∈ publishLocks s id := by
  simp [publishLocks, locationLock, h]

theorem pendingLock_mem {s : Store} {l : LocationId} {i : ProposalId} {p : ProposalRow}
    (h : s.proposals.find i = some p) (hl : p.locationId = l) (pending : p.status = .pending) :
    .proposal i ∈ pendingLocks s l := by
  obtain ⟨hm, rfl⟩ := Table.find_eq_some.mp h
  simp only [pendingLocks, List.mem_map, Table.mem_filter, decide_eq_true_eq, Lock.proposal.injEq]
  exact ⟨p, ⟨hm, hl, pending⟩, rfl⟩

theorem moves_published {id : ProposalId} {moderator : UserId} {applied : ProposalApplication}
    {prop : ProposalRow} {loc row : LocationRow} {parts : Store}
    (h : Published env s t id moderator applied prop loc row parts) :
    Moves s t (publishLocks s id) := by
  refine .of_map h.find_proposal (fun i p => ?_) (fun i p hp hi => ?_) (fun l hl => ?_)
    h.votes h.users
  · split
    · exact ⟨rfl, rfl⟩
    · split <;> exact ⟨rfl, rfl⟩
  · have hne : i ≠ id := fun he => hi (by simp [publishLocks, he])
    rw [if_neg hne, if_neg]
    rintro ⟨hl, pending⟩
    refine hi ?_
    simp only [publishLocks, h.found, Option.map_some, Option.getD_some]
    exact List.mem_append_right _ (pendingLock_mem hp hl pending)
  · rw [h.locations, find_setLocation_other]
    rintro rfl
    refine hl ?_
    rw [changedRow_id h.changed, h.location_id]
    exact locationLock_mem h.found

theorem moves_moderated {id : LocationId} {sources : List ModerationState}
    {target : ModerationState} {moderator : UserId} {old : LocationRow}
    (h : Moderated env s t id sources target moderator old) :
    Moves s t (.location id :: pendingLocks s id) := by
  have outcome := h.outcome
  refine .of_map (f := fun _ p => if p.locationId = id ∧ p.status = .pending ∧
    (none : Option ProposalId) ≠ some p.id then { p with status := .superseded } else p)
    (fun i => ?_) (fun i p => ?_) (fun i p hp hi => ?_) (fun l hl => ?_) ?_ ?_
  · rw [outcome, find_supersede]
    rfl
  · split <;> exact ⟨rfl, rfl⟩
  · rw [if_neg]
    rintro ⟨hl, pending, -⟩
    exact hi (List.mem_cons_of_mem _ (pendingLock_mem hp hl pending))
  · have hid : (moderatedRow old target).id = id := (Table.find_eq_some.mp h.found).2
    rw [outcome]
    change (setLocation s (moderatedRow old target)).locations.find l = _
    rw [find_setLocation_other]
    rintro rfl
    exact hl (by simp [hid])
  · rw [outcome]
    rfl
  · rw [outcome]
    rfl

theorem moves_rejected (s : Store) (id : ProposalId) (moderator : UserId)
    (reason : Option String → Option String) :
    Moves s (decideProposal s id .rejected moderator reason) [.proposal id] := by
  refine .of_map (find_decide s id .rejected moderator reason) (fun i p => ?_)
    (fun i p hp hi => ?_) (fun _ _ => rfl) rfl rfl
  · split <;> exact ⟨rfl, rfl⟩
  · rw [if_neg]
    rintro rfl
    exact hi (List.mem_singleton.mpr rfl)

theorem moves_submitted {id : ProposalId} {n : NewProposal} {loc : LocationRow}
    {author : UserRow} (h : Submitted env s t id n loc author) : Moves s t [.proposal id] := by
  have votes : t.votes = s.votes := by rw [h.outcome]
  have users : t.users = s.users := by rw [h.outcome]
  have locations : t.locations = s.locations := by rw [h.outcome]
  have free : s.proposals.find id = none := (Table.insert_eq_some.mp h.inserted).1
  have find : ∀ i, i ≠ id → t.proposals.find i = s.proposals.find i := by
    intro i hi
    rw [Table.find_insert h.inserted]
    exact if_neg fun he => hi he.symm
  have other : ∀ i, (s.proposals.find i).isSome → i ≠ id := by
    rintro i hi rfl
    rw [free] at hi
    cases hi
  refine ⟨fun hs => ⟨?_, ?_, ?_, ?_⟩, ⟨.of_eq users, ?_⟩, fun k hk => ?_⟩
  · intro v hv
    have hsome := hs.proposal v (votes ▸ hv)
    rw [find _ (other _ hsome)]
    exact hsome
  · intro v hv
    rw [users]
    exact hs.voter v (votes ▸ hv)
  · intro i p u hp hu
    rw [users]
    by_cases hi : i = id
    · have new := Table.find_insert h.inserted id
      rw [if_pos (by rfl), ← hi, hp, Option.some.injEq] at new
      rw [new] at hu
      obtain rfl : n.proposerId = u := Option.some.inj hu
      exact Option.isSome_iff_exists.mpr ⟨author, h.authored⟩
    · exact hs.proposer i p u (find i hi ▸ hp) hu
  · intro v hv p hp
    have hsome := hs.proposal v (votes ▸ hv)
    rw [find _ (other _ hsome)] at hp
    exact hs.byOther v (votes ▸ hv) p hp
  · intro i p hp
    have hi := other i (by simp [hp])
    exact ⟨p, (find i hi).trans hp, rfl, .inl rfl⟩
  · cases k with
    | location l => exact ⟨by rw [locations], fun i _ _ _ u => .inl (by rw [votes])⟩
    | proposal i => exact find i fun he => hk (by simp [he])
    | vote | user | review => trivial

/-- An account moves without coming back from deletion. -/
theorem moves_accounts (h : AccountsOnly s t) (users : UsersEvolve s t)
    (touched : List Lock) : Moves s t touched := by
  refine ⟨invariant_congr h.votes users ?_ ?_, ⟨users, ?_⟩, fun k hk => ?_⟩
  · intro i q hq
    rw [h.proposals] at hq
    exact ⟨q, hq, .inl rfl⟩
  · intro i hi
    rw [h.proposals]
    exact hi
  · intro i p hp
    exact ⟨p, by rw [h.proposals, hp], rfl, .inl rfl⟩
  · cases k with
    | location l => exact ⟨by rw [h.locations], fun i _ _ _ u => .inl (by rw [h.votes])⟩
    | proposal i =>
      change t.proposals.find i = s.proposals.find i
      rw [h.proposals]
    | vote | user | review => trivial

theorem users_setUser {id : UserId} {f : UserRow → UserRow} {hf : ∀ u, (f u).id = u.id}
    (h : ∀ w, s.users.find id = some w → w.accountState ≠ .deleted) :
    UsersEvolve s (setUser s id f hf) := by
  refine ⟨fun u hu => by simpa [setUser] using hu, fun u hu => ?_⟩
  obtain ⟨w, hw, hdeleted⟩ := hu
  have hne : w.id ≠ id := by
    rintro rfl
    rw [(Table.find_eq_some.mp hw).2] at h
    exact h w hw hdeleted
  exact ⟨w, by simp [setUser, hw, hne], hdeleted⟩

theorem users_register {id : UserId} {publicName : Bool}
    (h : register s id publicName = .ok t) : UsersEvolve s t := by
  obtain ⟨users, hins, roles, -, rfl⟩ := register_ok.mp h
  have kept : ∀ u w, s.users.find u = some w → users.find u = some w := by
    intro u w hw
    rw [Table.find_insert hins, if_neg, hw]
    intro hid
    have hfree := (Table.insert_eq_some.mp hins).1
    rw [hid, hw] at hfree
    cases hfree
  refine ⟨fun u hu => ?_, fun u ⟨w, hw, hdeleted⟩ => ⟨w, kept u w hw, hdeleted⟩⟩
  obtain ⟨w, hw⟩ := Option.isSome_iff_exists.mp hu
  exact Option.isSome_iff_exists.mpr ⟨w, kept u w hw⟩

theorem users_confirmEmail (s : Store) (id : UserId) (now : Instant) :
    UsersEvolve s (confirmEmail s id now) := by
  unfold confirmEmail
  split
  · rename_i w hw
    split
    · rename_i hstate
      refine users_setUser fun w' hw' hdeleted => ?_
      obtain rfl : w = w' := Option.some.inj (hw.symm.trans hw')
      simp [hdeleted] at hstate
    · exact .of_eq rfl
  · exact .of_eq rfl

theorem users_restoreByAdmin (s : Store) (id : UserId) :
    UsersEvolve s (restoreByAdmin s id) := by
  unfold restoreByAdmin
  split
  · exact .of_eq rfl
  · rename_i w hw
    split
    · rename_i hstate
      refine users_setUser fun w' hw' hdeleted => ?_
      obtain rfl : w = w' := Option.some.inj (hw.symm.trans hw')
      simp [hdeleted] at hstate
    · exact .of_eq rfl

theorem users_suspendByAdmin {id : UserId} (h : suspendByAdmin s id = .ok t) :
    UsersEvolve s t := by
  unfold suspendByAdmin at h
  split at h
  · simp only [Outcome.pure_ok] at h
    exact .of_eq (h ▸ rfl)
  · rename_i w hw
    split at h
    · rename_i hstate
      simp only [Outcome.bind_ok, Outcome.ensure_ok, Outcome.pure_ok] at h
      obtain ⟨-, -, rfl⟩ := h
      refine users_setUser fun w' hw' hdeleted => ?_
      obtain rfl : w = w' := Option.some.inj (hw.symm.trans hw')
      simp [hdeleted] at hstate
    · simp only [Outcome.pure_ok] at h
      exact .of_eq (h ▸ rfl)

theorem users_scrub (s : Store) (id : UserId) : UsersEvolve s (scrub s id) := by
  refine ⟨fun u hu => by simpa using hu, fun u ⟨w, hw, hdeleted⟩ => ?_⟩
  refine ⟨_, by rw [find_scrub_user, hw]; rfl, ?_⟩
  by_cases hid : w.id = id <;> simp [hid, hdeleted]

theorem gone_scrub {id : UserId} (known : (s.users.find id).isSome) : Gone (scrub s id) id := by
  obtain ⟨w, hw⟩ := Option.isSome_iff_exists.mp known
  have hid : w.id = id := (Table.find_eq_some.mp hw).2
  exact ⟨_, by rw [find_scrub_user, hw]; rfl, by simp [hid]⟩

/-- An anonymization takes the account's votes away and forgets it as a proposer; both leave
the account gone. -/
theorem moves_scrub (hs : Invariant s) (id : UserId) :
    Moves s (scrub s id) (accountLocks s id) := by
  have votes : ∀ i u, (scrub s id).votes.find (i, u) =
      (s.votes.find (i, u)).filter fun v => !decide (v.voterId = id) := fun i u =>
    Table.find_delete s.votes (fun v => decide (v.voterId = id)) (i, u)
  refine ⟨fun _ => ⟨?_, ?_, ?_, ?_⟩, ⟨users_scrub s id, ?_⟩, fun k hk => ?_⟩
  · intro v hv
    have := hs.proposal v (Table.mem_delete.mp hv).1
    simpa using this
  · intro v hv
    exact (users_scrub s id).known _ (hs.voter v (Table.mem_delete.mp hv).1)
  · intro i q u hq hu
    rw [find_scrub_proposal, Option.map_eq_some_iff] at hq
    obtain ⟨p, hp, rfl⟩ := hq
    refine (users_scrub s id).known u (hs.proposer i p u hp ?_)
    split at hu
    · cases hu
    · exact hu
  · intro v hv q hq hu
    rw [find_scrub_proposal, Option.map_eq_some_iff] at hq
    obtain ⟨p, hp, rfl⟩ := hq
    split at hu
    · cases hu
    · exact hs.byOther v (Table.mem_delete.mp hv).1 p hp hu
  · intro i p hp
    have found : (scrub s id).proposals.find i = some { p with
        proposerId := if p.proposerId = some id then none else p.proposerId
        resolvedBy := if p.resolvedBy = some id then none else p.resolvedBy } := by
      rw [find_scrub_proposal, hp]
      rfl
    refine ⟨_, found, rfl, ?_⟩
    by_cases hproposer : p.proposerId = some id
    · exact .inr ⟨if_pos hproposer, id, hproposer, gone_scrub (hs.proposer i p id hp hproposer)⟩
    · exact .inl (if_neg hproposer)
  · cases k with
    | location l =>
      refine ⟨?_, fun i p hp hl u => ?_⟩
      · rw [find_scrub_location]
        cases hr : s.locations.find l with
        | none => rfl
        | some r =>
          have hcreator : r.creatorId ≠ some id := by
            intro hc
            obtain ⟨hm, rfl⟩ := Table.find_eq_some.mp hr
            refine hk (List.mem_append_right _ ?_)
            simp only [List.mem_map, Table.mem_filter, decide_eq_true_eq, Lock.location.injEq]
            exact ⟨r, ⟨hm, hc⟩, rfl⟩
          simp [hcreator]
      · rw [VoteKept, votes]
        cases hv : s.votes.find (i, u) with
        | none => exact .inl rfl
        | some v =>
          obtain ⟨hm, hkey⟩ := Table.find_eq_some.mp hv
          simp only [Prod.mk.injEq] at hkey
          by_cases hvoter : v.voterId = id
          · refine .inr ⟨by simp [hvoter], ?_⟩
            rw [← hkey.2, hvoter]
            exact gone_scrub (hvoter ▸ hs.voter v hm)
          · exact .inl (by simp [hvoter])
    | proposal i =>
      change (scrub s id).proposals.find i = s.proposals.find i
      rw [find_scrub_proposal]
      cases hp : s.proposals.find i with
      | none => rfl
      | some p =>
        have named : p.proposerId ≠ some id ∧ p.resolvedBy ≠ some id := by
          obtain ⟨hm, rfl⟩ := Table.find_eq_some.mp hp
          rw [← not_or]
          intro hn
          refine hk (List.mem_append_left _ (List.mem_append_left _
            (List.mem_append_right _ ?_)))
          simp only [List.mem_map, Table.mem_filter, decide_eq_true_eq, Lock.proposal.injEq]
          exact ⟨p, ⟨hm, hn⟩, rfl⟩
        simp [named.1, named.2]
    | vote | user | review => trivial

theorem moves_vote {id : ProposalId} {voter : UserId} {vote : ProposalVote} {now : Instant}
    {totals : ProposalVoteTotals}
    (h : voteOnProposal env s id voter vote now = .ok (totals, t)) :
    Moves s t (.vote id voter :: publishLocks s id) := by
  obtain ⟨prop, loc, u, hv, hu, -, -, -, hs⟩ := voteOnProposal_ok.mp h
  obtain rfl : prop.id = id := (Table.find_eq_some.mp hv.found).2
  have known : (s.users.find voter).isSome := Option.isSome_iff_exists.mpr ⟨u, hu⟩
  have cast : Moves s (upsertVote s prop.id voter vote) [.location prop.locationId] :=
    moves_voteWrite (b := ⟨prop.id, voter, vote, now⟩) hv.found hv.byOther known
  have location := locationLock_mem hv.found
  rcases settleVote_cases hs with ⟨-, -, applied, -, happ⟩ | ⟨-, -, -, rfl⟩ | ⟨-, -, rfl⟩
  · obtain ⟨prop', loc', row, parts, hp⟩ := approve_ok.mp happ
    refine (cast.trans (moves_published hp)).mono fun k hk => List.mem_cons_of_mem _ ?_
    rcases List.mem_append.mp hk with hk | hk
    · exact List.mem_singleton.mp hk ▸ location
    · exact hk
  · refine (cast.trans (moves_escalate _ prop.id now)).mono fun k hk =>
      List.mem_cons_of_mem _ ?_
    rcases List.mem_append.mp hk with hk | hk
    · exact List.mem_singleton.mp hk ▸ location
    · exact List.mem_singleton.mp hk ▸ List.mem_cons_self
  · refine cast.mono fun k hk => List.mem_cons_of_mem _ ?_
    exact List.mem_singleton.mp hk ▸ location

theorem moves_perform {op : Op} (hs : Invariant s) (h : perform env s op = .ok t) :
    Moves s t (touches s op) := by
  cases op with
  | create id new creator =>
    simp only [perform, Outcome.mapError_ok] at h
    obtain ⟨tz, parts, hc⟩ := create_ok h
    refine .of_location (l := id) (List.mem_singleton.mpr rfl) (fun k hk => ?_)
      hc.frame.1 hc.frame.2.1 hc.frame.2.2
    rw [Table.find_insert hc.inserted]
    exact if_neg fun he => hk he.symm
  | applyEdit id expectedVersion edit editor =>
    simp only [perform, Outcome.mapError_ok] at h
    obtain ⟨loc, row, point, tz, parts, he⟩ := applyEdit_ok h
    have hid : row.id = id := (changedRow_id he.changed).trans (Table.find_eq_some.mp he.found).2
    obtain ⟨locations, proposals, votes, users⟩ := he.frame
    refine .of_location (l := id) (List.mem_singleton.mpr rfl) (fun k hk => ?_)
      proposals votes users
    rw [locations]
    exact find_setLocation_other (hid ▸ hk)
  | createProposal id n =>
    simp only [perform, Outcome.mapError_ok] at h
    obtain ⟨loc, author, hn⟩ := createProposal_ok.mp h
    refine (moves_submitted hn).mono fun k hk => ?_
    simp [touches, List.mem_singleton.mp hk]
  | voteOnProposal id voter vote now =>
    simp only [perform, Outcome.mapError_ok] at h
    obtain ⟨⟨totals, t'⟩, hv, rfl⟩ := Outcome.map_ok.mp h
    exact moves_vote hv
  | setParkingState id sources target moderator =>
    simp only [perform, Outcome.mapError_ok] at h
    obtain ⟨old, hm⟩ := setParkingState_ok.mp h
    exact moves_moderated hm
  | approveProposal id moderator applied =>
    simp only [perform, Outcome.mapError_ok] at h
    obtain ⟨prop, loc, row, parts, hp⟩ := approve_ok.mp h
    exact moves_published hp
  | rejectProposal id moderator reason =>
    simp only [perform, Outcome.mapError_ok] at h
    obtain ⟨-, prop, -, -, -, rfl⟩ := rejectProposal_ok.mp h
    exact moves_rejected s id moderator _
  | register id publicName =>
    simp only [perform, Outcome.mapError_ok] at h
    exact moves_accounts (register_frame h) (users_register h) _
  | confirmEmail id now =>
    simp only [perform, Except.ok.injEq] at h
    exact h ▸ moves_accounts (confirmEmail_frame s id now) (users_confirmEmail s id now) _
  | suspendByAdmin id =>
    simp only [perform, Outcome.mapError_ok] at h
    exact moves_accounts (suspendByAdmin_frame h) (users_suspendByAdmin h) _
  | restoreByAdmin id =>
    simp only [perform, Except.ok.injEq] at h
    exact h ▸ moves_accounts (restoreByAdmin_frame s id) (users_restoreByAdmin s id) _
  | anonymize id =>
    simp only [perform, Outcome.mapError_ok] at h
    exact anonymize_ok h ▸ moves_scrub hs id

theorem moves_exec (env : Env) (hs : Invariant s) (op : Op) :
    Moves s (exec env s op) (touches s op) := by
  cases h : perform env s op with
  | ok t =>
    rw [exec_ok h]
    exact moves_perform hs h
  | error e =>
    rw [exec_error h]
    exact .refl s _

end Atomic

end VoteMoves
