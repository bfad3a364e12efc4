/-
The `prune` command: it takes the lock, plans on the store as it finds it,
reports the plan or has it approved, and deletes.
-/
import XBackup.Pipeline.PruneStore

namespace XBackup

namespace PruneCommand

structure PruneArgs where
  profile : String
  keepFull : Option Nat
  keepDays : Option Nat
  keepLast : Option Nat
  recoveryWindowDays : Option Nat
  minRedundancy : Option Nat
  dryRun : Bool
  force : Bool
  json : Bool
deriving DecidableEq

/-- The flags win over the policy of the config. -/
def PruneArgs.policy (args : PruneArgs) (cfgRet : RetentionPolicy) :
    RetentionPolicy where
  keepFull := args.keepFull.or cfgRet.keepFull
  keepDays := args.keepDays.or cfgRet.keepDays
  keepLast := args.keepLast.or cfgRet.keepLast
  recoveryWindowDays := args.recoveryWindowDays.or cfgRet.recoveryWindowDays
  minRedundancy := args.minRedundancy.or cfgRet.minRedundancy

/-- What a run of the command meets: whether it gets the lock, the store that
it plans on, the policy of the config, the clock, the terminal, and what the
storage holds and answers when the deletes begin. -/
structure PruneEnv where
  lock : Except XBackupError Unit
  storage : Except XBackupError ObjectStore
  storeLoc : String
  cfgRet : RetentionPolicy
  nowSecs : ℤ
  isTty : Bool
  confirm : PrunePlan → Bool
  backend : Backend
  entries : List String

/-- The run on another storage. -/
def PruneEnv.on (env : PruneEnv) (backend : Backend) (entries : List String) :
    PruneEnv :=
  { env with
    backend := backend
    entries := entries }

def PRUNE_JSON_SCHEMA : Nat := 1

def pruneKindLabel : PruneKind → String
  | .chain => "chain"
  | .orphan => "orphan"
  | .incomplete => "incomplete"

/-- A target as the JSON of the command names it. -/
structure PlanTarget where
  kind : String
  baseId : String
  memberIds : List String
  reason : String
  forceOnly : Bool
deriving DecidableEq

inductive JsonOutcome where
  | planned
  | cancelled
  | executed (deleted : PruneOutcome) (includeForceOnly : Bool)

/-- The JSON of the command. -/
structure PruneReport where
  schema : Nat
  profile : String
  store : String
  dryRun : Bool
  policy : RetentionPolicy
  targets : List PlanTarget
  retainedBaseIds : List String
  outcome : JsonOutcome

def reportTarget (target : PruneTarget) : PlanTarget where
  kind := pruneKindLabel target.kind
  baseId := target.baseId
  memberIds := target.memberIds
  reason := target.reason
  forceOnly := !target.kind.isNormalChain

def buildJson (profile storeLoc : String) (dryRun : Bool)
    (policy : RetentionPolicy) (plan : PrunePlan) (outcome : JsonOutcome) :
    PruneReport where
  schema := PRUNE_JSON_SCHEMA
  profile := profile
  store := storeLoc
  dryRun := dryRun
  policy := policy
  targets := plan.targets.map reportTarget
  retainedBaseIds := plan.keptBaseIds
  outcome := outcome

structure Approval where
  proceed : Bool
  includeForceOnly : Bool

/-- `--force` approves and takes the leftovers along. -/
def decideApproval (plan : PrunePlan) (force isTty : Bool)
    (confirm : PrunePlan → Bool) : Except XBackupError Approval :=
  if force then .ok ⟨true, true⟩
  else if !isTty then
    .error (.failure ("non-interactive environments cannot delete without " ++
      "--force (check first with --dry-run)"))
  else .ok ⟨confirm plan, false⟩

/-- What a run leaves: its JSON, how it ended, and the storage. -/
structure ChildRun where
  stdout : Option PruneReport
  result : Except XBackupError Unit
  entries : List String

def unspecifiedMessage : String :=
  "a retention rule is required — give one of --keep-full N / --keep-days D " ++
    "/ --keep-last N, or set [profiles.<name>.retention] in the config " ++
    "(a prune with no rule deletes nothing)"

/-- The command once it has a plan. -/
def carryOut (env : PruneEnv) (args : PruneArgs) (policy : RetentionPolicy)
    (plan : PrunePlan) : ChildRun :=
  let report := fun dryRun outcome =>
    if args.json then
      some (buildJson args.profile env.storeLoc dryRun policy plan outcome)
    else none
  if policy.isUnspecified then
    ⟨report args.dryRun .planned, .error (.usage unspecifiedMessage),
      env.entries⟩
  else if args.dryRun then ⟨report true .planned, .ok (), env.entries⟩
  else if plan.targets.isEmpty then
    ⟨report false (.executed ⟨0, 0⟩ false), .ok (), env.entries⟩
  else
    match decideApproval plan args.force env.isTty env.confirm with
    | .error err => ⟨none, .error err, env.entries⟩
    | .ok approval =>
        if !approval.proceed then
          ⟨report false .cancelled, .ok (), env.entries⟩
        else
          match executePrune env.backend plan approval.includeForceOnly
              ⟨env.entries, 0⟩ with
          | (.error err, run) => ⟨none, .error err, run.entries⟩
          | (.ok deleted, run) =>
              ⟨report false (.executed deleted approval.includeForceOnly),
                .ok (), run.entries⟩

def handle (parse : String → Option I64) (env : PruneEnv) (args : PruneArgs) :
    ChildRun :=
  match env.lock, env.storage with
  | .error err, _ => ⟨none, .error err, env.entries⟩
  | .ok (), .error err => ⟨none, .error err, env.entries⟩
  | .ok (), .ok store =>
      let policy := args.policy env.cfgRet
      carryOut env args policy (planStore parse store policy env.nowSecs)

section Handle

variable {parse : String → Option I64} {env : PruneEnv} {args : PruneArgs}
  {store : ObjectStore}

/-- A run that plans on a store under a policy. -/
structure Plans (env : PruneEnv) (args : PruneArgs) (store : ObjectStore) :
    Prop where
  locked : env.lock = .ok ()
  opened : env.storage = .ok store
  specified : (args.policy env.cfgRet).isUnspecified = false

theorem Plans.on (hplans : Plans env args store) (backend : Backend)
    (entries : List String) : Plans (env.on backend entries) args store :=
  ⟨hplans.locked, hplans.opened, hplans.specified⟩

theorem handle_of_plans (hplans : Plans env args store) :
    handle parse env args = carryOut env args (args.policy env.cfgRet)
      (planStore parse store (args.policy env.cfgRet) env.nowSecs) := by
  rw [handle, hplans.locked, hplans.opened]

/-- Without a plan nothing is deleted. -/
theorem entries_of_no_plan (hnone : ∀ store, ¬ Plans env args store) :
    (handle parse env args).entries = env.entries := by
  rw [handle]
  cases hlock : env.lock with
  | error err => rfl
  | ok _ =>
      cases hstorage : env.storage with
      | error err => rfl
      | ok store =>
          have hunspecified : (args.policy env.cfgRet).isUnspecified = true := by
            by_contra hspecified
            exact hnone store ⟨hlock, hstorage, by simpa using hspecified⟩
          simp only [carryOut, hunspecified, if_true]

/-- A dry run deletes nothing and reports the plan, also where it then ends
with an error. -/
theorem handle_dryRun (hdry : args.dryRun = true) (hjson : args.json = true)
    (hlock : env.lock = .ok ()) (hstorage : env.storage = .ok store) :
    (handle parse env args).entries = env.entries ∧
      (handle parse env args).stdout = some (buildJson args.profile env.storeLoc
        true (args.policy env.cfgRet)
        (planStore parse store (args.policy env.cfgRet) env.nowSecs)
        .planned) := by
  rw [handle, hlock, hstorage]
  simp only [carryOut, hdry, hjson, if_true]
  split_ifs
  · exact ⟨rfl, rfl⟩
  · exact ⟨rfl, rfl⟩

/-- A forced run deletes the whole plan, leftovers and all. -/
theorem entries_of_forced (hplans : Plans env args store)
    (hdry : args.dryRun = false) (hforce : args.force = true) :
    (handle parse env args).entries = (executePrune env.backend
      (planStore parse store (args.policy env.cfgRet) env.nowSecs) true
      ⟨env.entries, 0⟩).2.entries := by
  rw [handle_of_plans hplans]
  generalize planStore parse store (args.policy env.cfgRet) env.nowSecs = plan
  simp only [carryOut, hplans.specified, hdry, hforce, decideApproval, if_true,
    Bool.false_eq_true, if_false, Bool.not_true]
  by_cases hempty : plan.targets.isEmpty = true
  · have htargets : plan.targets = [] := List.isEmpty_iff.mp hempty
    rw [if_pos hempty, executePrune_state, plannedPaths, deletedOrder, selectedTargets,
      htargets]
    rfl
  · rw [if_neg hempty]
    cases executePrune env.backend plan true ⟨env.entries, 0⟩ with
    | mk result run =>
        cases result with
        | error err => rfl
        | ok deleted => rfl

end Handle

end PruneCommand

end XBackup
