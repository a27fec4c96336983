import BikesNest.Accounts
import BikesNest.Clock
import BikesNest.Contribution

/-! Runs of the store. Every operation is one transaction, serialised by the row locks it
takes; a transaction that fails is rolled back, so it leaves the store as it was. -/

namespace Operations

open Parking Proposal Schema Publishing Contribution Accounts

inductive Op where
  | create (id : LocationId) (new : NewParkingLocation) (creator : UserId)
  | applyEdit (id : LocationId) (expectedVersion : ℕ) (edit : ParkingEdit) (editor : UserId)
  | createProposal (id : ProposalId) (p : NewProposal)
  | voteOnProposal (id : ProposalId) (voter : UserId) (vote : ProposalVote) (now : Instant)
  | setParkingState (id : LocationId) (sources : List ModerationState)
      (target : ModerationState) (moderator : UserId)
  | approveProposal (id : ProposalId) (moderator : UserId) (applied : ProposalApplication)
  | rejectProposal (id : ProposalId) (moderator : UserId) (reason : String)
  | register (id : UserId) (publicName : Bool)
  | confirmEmail (id : UserId) (now : Instant)
  | suspendByAdmin (id : UserId)
  | restoreByAdmin (id : UserId)
  | anonymize (id : UserId)

inductive Failure where
  | contribution (e : ContributionError)
  | moderation (e : ModerationError)
  | auth (e : AuthError)
  | privacy (e : PrivacyError)
  deriving DecidableEq

def perform (env : Env) (s : Store) : Op → Except Failure Store
  | .create id new creator => (create env s id new creator).mapError .contribution
  | .applyEdit id expectedVersion edit editor =>
    (applyEdit env s id expectedVersion edit editor).mapError .contribution
  | .createProposal id p => (createProposal env s id p).mapError .contribution
  | .voteOnProposal id voter vote now =>
    ((voteOnProposal env s id voter vote now).map Prod.snd).mapError .contribution
  | .setParkingState id sources target moderator =>
    (setParkingState env s id sources target moderator).mapError .moderation
  | .approveProposal id moderator applied =>
    (approveInTransaction env s id moderator applied).mapError .moderation
  | .rejectProposal id moderator reason =>
    (rejectProposal s id moderator reason).mapError .moderation
  | .register id publicName => (register s id publicName).mapError .auth
  | .confirmEmail id now => .ok (confirmEmail s id now)
  | .suspendByAdmin id => (suspendByAdmin s id).mapError .auth
  | .restoreByAdmin id => .ok (restoreByAdmin s id)
  | .anonymize id => (anonymize s id).mapError .privacy

def exec (env : Env) (s : Store) (op : Op) : Store :=
  match perform env s op with
  | .ok t => t
  | .error _ => s

def run (env : Env) (s : Store) (ops : List Op) : Store := ops.foldl (exec env) s

variable {env : Env}

theorem exec_ok {s t : Store} {op : Op} (h : perform env s op = .ok t) : exec env s op = t := by
  simp [exec, h]

theorem exec_error {s : Store} {op : Op} {e : Failure} (h : perform env s op = .error e) :
    exec env s op = s := by
  simp [exec, h]

theorem run_append (s : Store) (ops more : List Op) :
    run env s (ops ++ more) = run env (run env s ops) more := by
  simp [run]

theorem run_concat (s : Store) (ops : List Op) (op : Op) :
    run env s (ops ++ [op]) = exec env (run env s ops) op := by
  simp [run]

/-- `cond` holds of each operation of the run, in the state it meets. -/
def Along (env : Env) (cond : Store → Op → Prop) : Store → List Op → Prop
  | _, [] => True
  | s, op :: ops => cond s op ∧ Along env cond (exec env s op) ops

/-- A property of the empty store that every successful operation preserves holds after
every run; `cond` is what the proof may assume of the operations. -/
theorem run_invariant {P : Store → Prop} {cond : Store → Op → Prop} {s : Store}
    (step : ∀ s t op, P s → cond s op → perform env s op = .ok t → P t) {ops : List Op}
    (along : Along env cond s ops) (start : P s) : P (run env s ops) := by
  induction ops generalizing s with
  | nil => exact start
  | cons op ops ih =>
    refine ih along.2 ?_
    cases hp : perform env s op with
    | ok t =>
      rw [exec_ok hp]
      exact step s t op start along.1 hp
    | error e =>
      rw [exec_error hp]
      exact start

theorem along_of_forall {P : Op → Prop} {ops : List Op} (h : ∀ op ∈ ops, P op) (s : Store) :
    Along env (fun _ op => P op) s ops := by
  induction ops generalizing s with
  | nil => trivial
  | cons op ops ih =>
    exact ⟨h op List.mem_cons_self, ih (fun o ho => h o (List.mem_cons_of_mem _ ho)) _⟩

theorem along_true (s : Store) (ops : List Op) : Along env (fun _ _ => True) s ops :=
  along_of_forall (fun _ _ => trivial) s

/-! Sample inputs, for the runs that witness the hypotheses of the theorems. -/

def sampleRack : NewParkingLocation where
  name := "Station rack"
  address := "Station Road 1"
  description := none
  parkingType := .rack
  cost := .free
  point := ⟨52, 13, by decide +kernel⟩
  timezone := some ⟨"Europe/Berlin"⟩
  hours := .unknown
  security := securityFeatureCodes.map fun code => ⟨code, .unknown⟩

def sampleEdit : ParkingEdit :=
  ⟨"Station rack north", "Station Road 1", none, .rack, .free, .unknown, sampleRack.security⟩

/-- Sign up and confirm an address. -/
def enlist (u : UserId) : List Op := [.register u true, .confirmEmail u 0]

/-- An edit of location 1 at version 1, proposed by user 1. -/
def proposeEdit (edit : ParkingEdit) : NewProposal :=
  ⟨1, 1, 1, .editDetails, toJson Clock.env edit⟩

/-- A location by user 1 and a pending edit of it. -/
def sampleStart (edit : ParkingEdit) : List Op :=
  enlist 1 ++ [.create 1 sampleRack 1, .createProposal 1 (proposeEdit edit)]

/-- Approvals of proposal 1 by newly enlisted users. -/
def approvals (voters : List UserId) : List Op :=
  voters.flatMap fun u => enlist u ++ [.voteOnProposal 1 u .approve 0]

end Operations
