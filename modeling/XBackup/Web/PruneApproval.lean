/-
The prune screen: a plan is shown under a fingerprint, and a form that carries
the fingerprint back starts a child that plans once more.
-/
import XBackup.Foundation.Fallible
import XBackup.Pipeline.PruneCommand
import XBackup.Web.Guard

namespace XBackup

namespace Web

namespace PruneApproval

open Fallible PruneCommand Schedule

universe u

def FIELD_PROFILE : String := "profile"
def FIELD_KEEP_FULL : String := "keep_full"
def FIELD_KEEP_DAYS : String := "keep_days"
def FIELD_KEEP_LAST : String := "keep_last"
def FIELD_RECOVERY_WINDOW_DAYS : String := "recovery_window_days"
def FIELD_MIN_REDUNDANCY : String := "min_redundancy"
def FIELD_FINGERPRINT : String := "plan_fingerprint"
def EXPECTED_PRUNE_SCHEMA : Nat := 1

structure RetentionOverrides where
  keepFull : Option U32
  keepDays : Option U32
  keepLast : Option U32
  recoveryWindowDays : Option U32
  minRedundancy : Option U32

/-- What is not a number is an error; an empty field is no override. -/
def readCount (form : FormBody) (field label : String) :
    Except String (Option U32) :=
  match form.get field with
  | none => .ok none
  | some raw =>
      let trimmed := trim raw.toList
      if trimmed = [] then .ok none
      else
        match parseCount trimmed with
        | some value => .ok (some value)
        | none => .error (label ++ ": '" ++ String.ofList trimmed ++
            "'은(는) 0 이상의 정수가 아닙니다.")

namespace RetentionOverrides

def fromForm (form : FormBody) : Except String RetentionOverrides := do
  let keepFull ← readCount form FIELD_KEEP_FULL "keep-full"
  let keepDays ← readCount form FIELD_KEEP_DAYS "keep-days"
  let keepLast ← readCount form FIELD_KEEP_LAST "keep-last"
  let recoveryWindowDays ←
    readCount form FIELD_RECOVERY_WINDOW_DAYS "recovery-window-days"
  let minRedundancy ← readCount form FIELD_MIN_REDUNDANCY "min-redundancy"
  .ok ⟨keepFull, keepDays, keepLast, recoveryWindowDays, minRedundancy⟩

def asFields (overrides : RetentionOverrides) : List (String × U32) :=
  [(FIELD_KEEP_FULL, overrides.keepFull),
    (FIELD_KEEP_DAYS, overrides.keepDays),
    (FIELD_KEEP_LAST, overrides.keepLast),
    (FIELD_RECOVERY_WINDOW_DAYS, overrides.recoveryWindowDays),
    (FIELD_MIN_REDUNDANCY, overrides.minRedundancy)].filterMap
      fun field => field.2.map fun value => (field.1, value)

/-- The option that a field becomes. -/
def countOfField (field : String) : JobCount :=
  if field = FIELD_KEEP_FULL then .keepFull
  else if field = FIELD_KEEP_DAYS then .keepDays
  else if field = FIELD_KEEP_LAST then .keepLast
  else if field = FIELD_RECOVERY_WINDOW_DAYS then .recoveryWindowDays
  else .minRedundancy

def applyTo (overrides : RetentionOverrides) (spec : JobSpec) : JobSpec :=
  overrides.asFields.foldl
    (fun spec field => spec.withCount (countOfField field.1) field.2) spec

end RetentionOverrides

inductive PlanError where
  | empty
  | schemaMismatch (found expected : Nat)
deriving DecidableEq

structure Plan where
  profile : String
  store : String
  targets : List PlanTarget
  retainedBaseIds : List String
  fingerprint : String

def Plan.hasForceOnly (plan : Plan) : Bool :=
  plan.targets.any PlanTarget.forceOnly

def Plan.totalBackups (plan : Plan) : Nat :=
  (plan.targets.map fun target => target.memberIds.length).sum

/-- A text of some texts with a mark between them. -/
def joinBy (mark : Nat) (texts : List String) : String :=
  (Char.ofNat mark).toString.intercalate texts

def sortTexts (texts : List String) : List String :=
  texts.mergeSort fun left right => left ≤ right

def fingerprintLine (target : PlanTarget) : String :=
  joinBy 0x1f [target.kind, target.baseId, toString target.forceOnly,
    joinBy 0x1e (sortTexts target.memberIds)]

section Console

variable (sha256 : String → String)

/-- The plan as what goes, by the digest `sha256` in hexadecimal. -/
def planFingerprint (targets : List PlanTarget) : String :=
  sha256 (String.join ((sortTexts (targets.map fingerprintLine)).map
    fun line => line ++ (Char.ofNat 0x1d).toString))

def parsePlan (stdout : Option PruneReport) : Except PlanError Plan :=
  match stdout with
  | none => .error .empty
  | some report =>
      if report.schema = EXPECTED_PRUNE_SCHEMA then
        .ok
          { profile := report.profile
            store := report.store
            targets := report.targets
            retainedBaseIds := report.retainedBaseIds
            fingerprint := planFingerprint sha256 report.targets }
      else .error (.schemaMismatch report.schema EXPECTED_PRUNE_SCHEMA)

/-- What the child reads from its command line. -/
def argsOf (spec : JobSpec) : PruneArgs where
  profile := (spec.valueOf "--profile").getD ""
  keepFull := spec.countOf .keepFull
  keepDays := spec.countOf .keepDays
  keepLast := spec.countOf .keepLast
  recoveryWindowDays := spec.countOf .recoveryWindowDays
  minRedundancy := spec.countOf .minRedundancy
  dryRun := spec.isOn .dryRun
  force := spec.isOn .force
  json := "--json" ∈ spec.toArgv

def readRequest (form : FormBody) :
    Except String (ProfileName × RetentionOverrides) := do
  let profile ← ProfileName.parse ((form.get FIELD_PROFILE).getD "")
  let overrides ← RetentionOverrides.fromForm form
  .ok (profile, overrides)

def dryRunSpec (profile : ProfileName) (overrides : RetentionOverrides) :
    JobSpec :=
  overrides.applyTo
    (((JobSpec.new .prune).withProfile profile).withFlag .dryRun)

/-- `--force` is always there; the box is not asked for. -/
def buildSpec (profile : ProfileName) (overrides : RetentionOverrides)
    (_allowOverwrite : Bool) : JobSpec :=
  overrides.applyTo
    (((JobSpec.new .prune).withProfile profile).withFlag .force)

def hiddenState (profile : ProfileName) (overrides : RetentionOverrides)
    (plan : Plan) : List (String × String) :=
  [(FIELD_PROFILE, profile.asStr), (FIELD_FINGERPRINT, plan.fingerprint)] ++
    overrides.asFields.map fun field => (field.1, toString field.2.val)

/-- A child that is started, or why it is not, or did not end in time. -/
structure Launch where
  started : Except String Unit
  env : PruneEnv

variable (parse : String → Option I64)

def runDryRun (launch : Launch) (profile : ProfileName)
    (overrides : RetentionOverrides) : Except String Plan :=
  match launch.started with
  | .error message => .error message
  | .ok () =>
      match parsePlan sha256 (handle parse launch.env
          (argsOf (dryRunSpec profile overrides))).stdout with
      | .ok plan => .ok plan
      | .error .empty => .error ("prune produced no plan. Read the exit " ++
          "code — the child usually stopped before it could report.")
      | .error (.schemaMismatch found expected) => .error ("prune reported " ++
          "a JSON schema this console does not know — the console and the " ++
          "CLI are probably different builds. (schema " ++ toString found ++
          " ≠ " ++ toString expected ++ ")")

inductive Response where
  | foreignOrigin (problem : OriginProblem)
  | unconfirmed
  | invalid (message : String)
  | noPlan (message : String)
  | planChanged (plan : Plan)
  | refused (error : ConfirmError) (plan : Plan)
  | notStarted (message : String)
  | started (spec : JobSpec)

structure ApplyEnv (Token : Type u) where
  origin : Except OriginProblem Unit
  dryRun : Launch
  guard : DestructiveGuard Token
  confirm : ConfirmEnv
  spawn : Except String Unit

variable {Token : Type u} [DecidableEq Token]
  (parseToken : String → Option Token)

/-- The guard and the start of the job, once the plan is the one shown. -/
def confirmAndStart (mask : String → String) (env : ApplyEnv Token)
    (form : FormBody) (profile : ProfileName) (overrides : RetentionOverrides)
    (current : Plan) : Response :=
  let submission := ConfirmSubmission.ofForm form
  let args := (buildSpec profile overrides submission.allowOverwrite).toArgv
  match (env.guard.confirmAndGate parseToken env.confirm
      ⟨JobCommand.prune.auditAction, profile⟩ submission (args.map mask)).1 with
  | .error error => .refused error current
  | .ok gate =>
      match env.spawn with
      | .error message => .notStarted message
      | .ok () => .started (buildSpec profile overrides gate.allowOverwrite)

def apply (mask : String → String) (env : ApplyEnv Token) (form : FormBody) :
    Response :=
  match env.origin with
  | .error problem => .foreignOrigin problem
  | .ok () =>
      if (form.get FIELD_CONFIRM_TOKEN).getD "" = "" then .unconfirmed
      else
        match readRequest form with
        | .error message => .invalid message
        | .ok (profile, overrides) =>
            match runDryRun sha256 parse env.dryRun profile overrides with
            | .error message => .noPlan message
            | .ok current =>
                if current.fingerprint ≠ (form.get FIELD_FINGERPRINT).getD ""
                then .planChanged current
                else confirmAndStart parseToken mask env form profile
                  overrides current

end Console

section Specs

variable (overrides : RetentionOverrides) (profile : ProfileName)
  (spec : JobSpec) (flag : JobFlag)

theorem isOn_applyTo :
    (overrides.applyTo spec).isOn flag = spec.isOn flag := by
  rw [RetentionOverrides.applyTo]
  generalize overrides.asFields = fields
  induction fields generalizing spec with
  | nil => rfl
  | cons field rest ih => rw [List.foldl_cons, ih, JobSpec.isOn_withCount]

/-- The child finds an override where the form had one. -/
theorem countOf_applyTo (opt : JobCount) :
    (overrides.applyTo spec).countOf opt =
      ((overrides.asFields.reverse.find? fun field =>
        RetentionOverrides.countOfField field.1 = opt).map fun field =>
          field.2.val).or (spec.countOf opt) := by
  rw [RetentionOverrides.applyTo]
  generalize overrides.asFields = fields
  induction fields generalizing spec with
  | nil => rfl
  | cons field rest ih =>
      rw [List.foldl_cons, ih, List.reverse_cons, List.find?_append,
        JobSpec.countOf_withCount, List.find?_singleton]
      cases rest.reverse.find? fun field =>
          RetentionOverrides.countOfField field.1 = opt with
      | some found => rfl
      | none =>
          by_cases hopt : RetentionOverrides.countOfField field.1 = opt
          · simp [hopt]
          · simp [hopt]

theorem json_argsOf : (argsOf spec).json = true := by
  simp [argsOf, JobSpec.toArgv]

variable {spec} in
/-- The policy of a child that was given the overrides. -/
theorem policy_argsOf (hnone : ∀ opt, spec.countOf opt = none)
    (cfgRet : RetentionPolicy) :
    (argsOf (overrides.applyTo spec)).policy cfgRet =
      { keepFull := (overrides.keepFull.map Fin.val).or cfgRet.keepFull
        keepDays := (overrides.keepDays.map Fin.val).or cfgRet.keepDays
        keepLast := (overrides.keepLast.map Fin.val).or cfgRet.keepLast
        recoveryWindowDays := (overrides.recoveryWindowDays.map Fin.val).or
          cfgRet.recoveryWindowDays
        minRedundancy := (overrides.minRedundancy.map Fin.val).or
          cfgRet.minRedundancy } := by
  have hfield : ∀ (field : String) (count : Option U32),
      (count.map fun value => (field, value)).map (fun field => field.2.val) =
        count.map Fin.val := by
    intro field count
    rw [Option.map_map]
    rfl
  obtain ⟨keepFull, keepDays, keepLast, window, redundancy⟩ := overrides
  simp only [PruneArgs.policy, argsOf, countOf_applyTo, hnone, Option.or_none]
  cases keepFull <;> cases keepDays <;> cases keepLast <;> cases window <;>
    cases redundancy <;> rfl

theorem policy_dryRunSpec (cfgRet : RetentionPolicy) (allowOverwrite : Bool) :
    (argsOf (dryRunSpec profile overrides)).policy cfgRet =
      (argsOf (buildSpec profile overrides allowOverwrite)).policy cfgRet := by
  rw [dryRunSpec, buildSpec, policy_argsOf, policy_argsOf]
  · intro opt
    rw [JobSpec.countOf_withFlag, JobSpec.countOf_start]
  · intro opt
    rw [JobSpec.countOf_withFlag, JobSpec.countOf_start]

theorem dryRun_dryRunSpec :
    (argsOf (dryRunSpec profile overrides)).dryRun = true := by
  rw [argsOf, dryRunSpec]
  dsimp only
  rw [isOn_applyTo, JobSpec.isOn_withFlag]
  rfl

theorem flags_buildSpec (allowOverwrite : Bool) :
    (argsOf (buildSpec profile overrides allowOverwrite)).dryRun = false ∧
      (argsOf (buildSpec profile overrides allowOverwrite)).force = true := by
  rw [argsOf, buildSpec]
  dsimp only
  rw [isOn_applyTo, isOn_applyTo, JobSpec.isOn_withFlag,
    JobSpec.isOn_withFlag, JobSpec.isOn_start]
  exact ⟨rfl, rfl⟩

end Specs

section Approval

variable (sha256 : String → String) (parse : String → Option I64)

/-- A plan that was shown, and whose fingerprint a form carries. -/
structure ShownPlan (form : FormBody) where
  launch : Launch
  profile : ProfileName
  overrides : RetentionOverrides
  plan : Plan
  shown : runDryRun sha256 parse launch profile overrides = .ok plan
  carried : form.get FIELD_FINGERPRINT = some plan.fingerprint

/-- The targets of a plan as the console would show them. -/
def shownTargets (parse : String → Option I64) (env : PruneEnv)
    (args : PruneArgs) (store : ObjectStore) : List PlanTarget :=
  (planStore parse store (args.policy env.cfgRet)
    env.nowSecs).targets.map reportTarget

/-- The run deletes what the plan shows, and leftovers, by this plan or by its
own, only if the box was checked. -/
structure DeletesApproved (plan : Plan) (checked : Bool) (env : PruneEnv)
    (args : PruneArgs) : Prop where
  shown : ∀ id, ∀ path ∈ backupPaths id, path ∈ env.entries →
    path ∉ (handle parse env args).entries →
      ∃ target ∈ plan.targets, id ∈ target.memberIds
  leftovers : checked = false → ∀ store, Plans env args store →
    ∀ target ∈ plan.targets ++ shownTargets parse env args store,
      target.forceOnly = true → ∀ id ∈ target.memberIds,
        ∀ path ∈ backupPaths id, path ∈ env.entries →
          path ∈ (handle parse env args).entries

/-- What the targets list is shown, and unless the box was checked they list
and it shows them as chains. -/
structure Covered (plan : Plan) (checked : Bool) (targets : List PlanTarget) :
    Prop where
  shown : ∀ target ∈ targets, ∀ id ∈ target.memberIds,
    ∃ other ∈ plan.targets, id ∈ other.memberIds
  chains : checked = false → ∀ target ∈ targets, ∀ id ∈ target.memberIds,
    ∀ other ∈ plan.targets ++ targets, id ∈ other.memberIds →
      other.forceOnly = false

variable {sha256 parse} {plan : Plan} {checked : Bool} {job : PruneEnv}
  {args : PruneArgs} {store : ObjectStore}

theorem mem_shownTargets {id : String} :
    (∃ target ∈ shownTargets parse job args store, id ∈ target.memberIds) ↔
      id ∈ (planStore parse store (args.policy job.cfgRet)
        job.nowSecs).deletableMemberIds true := by
  simp [shownTargets, PrunePlan.deletableMemberIds, reportTarget]

theorem deletesApproved_of_covered (hdry : args.dryRun = false)
    (hforce : args.force = true)
    (hcovered : ∀ store, Plans job args store →
      Covered plan checked (shownTargets parse job args store)) :
    DeletesApproved parse plan checked job args := by
  constructor
  · intro id path hpath hbefore hafter
    by_cases hplan : ∃ store, Plans job args store
    · obtain ⟨store, hplans⟩ := hplan
      rw [entries_of_forced hplans hdry hforce] at hafter
      obtain ⟨file, hfile, rfl⟩ := List.mem_map.mp
        (backupPaths_eq id ▸ hpath)
      have hplanned : pathIn id file ∈ plannedPaths (planStore parse store
          (args.policy job.cfgRet) job.nowSecs) true := by
        by_contra hunplanned
        exact hafter ((executePrune_frame _ hunplanned).mpr hbefore)
      rw [pathIn_mem_plannedPaths hfile, ← mem_shownTargets] at hplanned
      obtain ⟨target, htarget, hid⟩ := hplanned
      exact (hcovered store hplans).shown target htarget id hid
    · rw [entries_of_no_plan (not_exists.mp hplan)] at hafter
      exact absurd hbefore hafter
  · intro hunchecked store hplans target htarget hleftover id hid path hpath
      hbefore
    rw [entries_of_forced hplans hdry hforce]
    refine (executePrune_frame _ ?_).mpr hbefore
    obtain ⟨file, hfile, rfl⟩ := List.mem_map.mp (backupPaths_eq id ▸ hpath)
    rw [pathIn_mem_plannedPaths hfile, ← mem_shownTargets]
    rintro ⟨own, hown, hmember⟩
    have hchain := (hcovered store hplans).chains hunchecked own hown id
      hmember target htarget hid
    rw [hleftover] at hchain
    cases hchain

/-- A storage that does as it is told shows what is planned. -/
theorem covered_of_deletesApproved (hdry : args.dryRun = false)
    (hforce : args.force = true) (hplans : Plans job args store)
    (hdeletes : ∀ entries, DeletesApproved parse plan checked
      (job.on (denying fun _ _ => false) entries) args) :
    Covered plan checked (shownTargets parse job args store) := by
  have hgone : ∀ id, (∃ target ∈ shownTargets parse job args store,
      id ∈ target.memberIds) → manifestPath id ∉ (handle parse
        (job.on (denying fun _ _ => false) [manifestPath id])
        args).entries := by
    intro id hid
    rw [entries_of_forced (hplans.on _ _) hdry hforce]
    apply executePrune_grants denying_none_granting
    exact (pathIn_mem_plannedPaths (by decide)).mpr (mem_shownTargets.mp hid)
  have hpath : ∀ id, manifestPath id ∈ backupPaths id := fun id =>
    (pathIn_mem_backupPaths (by decide)).mpr rfl
  constructor
  · intro target htarget id hid
    exact (hdeletes [manifestPath id]).shown id _ (hpath id)
      List.mem_cons_self (hgone id ⟨target, htarget, hid⟩)
  · intro hunchecked target htarget id hid other hother hmember
    by_contra hleftover
    exact hgone id ⟨target, htarget, hid⟩
      ((hdeletes [manifestPath id]).leftovers hunchecked store
        (hplans.on _ _) other hother (by simpa using hleftover) id hmember _
        (hpath id) List.mem_cons_self)

end Approval

section Apply

variable {sha256 : String → String} {parse : String → Option I64}
  {Token : Type u} [DecidableEq Token] {parseToken : String → Option Token}
  {mask : String → String} {env : ApplyEnv Token} {form : FormBody}
  {spec : JobSpec} {profile : ProfileName} {overrides : RetentionOverrides}
  {current : Plan}

theorem confirmAndStart_started
    (hstarted : confirmAndStart parseToken mask env form profile overrides
      current = .started spec) :
    spec = buildSpec profile overrides (form.checked FIELD_ALLOW_OVERWRITE) := by
  rw [confirmAndStart] at hstarted
  split at hstarted
  next => cases hstarted
  next gate _ =>
    split at hstarted
    next => cases hstarted
    next =>
      cases hstarted
      rfl

/-- A job is started for the plan that the form carries, with what the form
asks for. -/
theorem apply_started
    (hstarted : apply sha256 parse parseToken mask env form = .started spec) :
    ∃ profile overrides current, readRequest form = .ok (profile, overrides) ∧
      runDryRun sha256 parse env.dryRun profile overrides = .ok current ∧
      current.fingerprint = (form.get FIELD_FINGERPRINT).getD "" ∧
      spec = buildSpec profile overrides
        (form.checked FIELD_ALLOW_OVERWRITE) := by
  rw [apply] at hstarted
  cases horigin : env.origin with
  | error problem =>
      rw [horigin] at hstarted
      cases hstarted
  | ok _ =>
      rw [horigin] at hstarted
      dsimp only at hstarted
      split at hstarted
      next => cases hstarted
      next =>
        cases hrequest : readRequest form with
        | error message =>
            rw [hrequest] at hstarted
            cases hstarted
        | ok request =>
            obtain ⟨profile, overrides⟩ := request
            rw [hrequest] at hstarted
            dsimp only at hstarted
            cases hplan : runDryRun sha256 parse env.dryRun profile
                overrides with
            | error message =>
                rw [hplan] at hstarted
                cases hstarted
            | ok current =>
                rw [hplan] at hstarted
                dsimp only at hstarted
                split at hstarted
                next => cases hstarted
                next hsame =>
                  exact ⟨profile, overrides, current, rfl, hplan,
                    not_not.mp hsame, confirmAndStart_started hstarted⟩

/-- The job of a form deletes what was approved, whatever the storage holds and
answers by then, exactly when what is planned in the store as the job finds it
was shown, and as chains unless the box was checked. -/
theorem pruneJob_approved_iff (shown : ShownPlan sha256 parse form)
    (job : PruneEnv)
    (hstarted : apply sha256 parse parseToken mask env form = .started spec) :
    (∀ backend entries, DeletesApproved parse shown.plan
        (form.checked FIELD_ALLOW_OVERWRITE) (job.on backend entries)
        (argsOf spec)) ↔
      ∀ store, Plans job (argsOf spec) store →
        Covered shown.plan (form.checked FIELD_ALLOW_OVERWRITE)
          (shownTargets parse job (argsOf spec) store) := by
  obtain ⟨profile, overrides, _, -, -, -, rfl⟩ := apply_started hstarted
  obtain ⟨hdry, hforce⟩ := flags_buildSpec overrides profile
    (form.checked FIELD_ALLOW_OVERWRITE)
  constructor
  · intro hdeletes store hplans
    exact covered_of_deletesApproved hdry hforce hplans fun entries =>
      hdeletes _ entries
  · intro hcovered backend entries
    apply deletesApproved_of_covered hdry hforce
    intro store hplans
    exact hcovered store ⟨hplans.locked, hplans.opened, hplans.specified⟩

theorem runDryRun_eq {launch : Launch} {store : ObjectStore}
    (hstarted : launch.started = .ok ()) (hlock : launch.env.lock = .ok ())
    (hstorage : launch.env.storage = .ok store) :
    ∃ plan, runDryRun sha256 parse launch profile overrides = .ok plan ∧
      plan.targets = shownTargets parse launch.env
        (argsOf (dryRunSpec profile overrides)) store := by
  obtain ⟨-, hstdout⟩ := @handle_dryRun parse _ _ _
    (dryRun_dryRunSpec overrides profile) (json_argsOf _) hlock hstorage
  rw [runDryRun, hstarted]
  dsimp only
  rw [hstdout, parsePlan]
  exact ⟨_, rfl, rfl⟩

/-- What is shown was planned by a child that had a store. -/
theorem targets_of_runDryRun {launch : Launch} {plan : Plan}
    (hplan : runDryRun sha256 parse launch profile overrides = .ok plan) :
    ∃ store, launch.env.lock = .ok () ∧ launch.env.storage = .ok store ∧
      plan.targets = shownTargets parse launch.env
        (argsOf (dryRunSpec profile overrides)) store := by
  cases hstarted : launch.started with
  | error message =>
      rw [runDryRun, hstarted] at hplan
      cases hplan
  | ok _ =>
      cases hlock : launch.env.lock with
      | error err =>
          rw [runDryRun, hstarted, handle, hlock] at hplan
          cases hplan
      | ok _ =>
          cases hstorage : launch.env.storage with
          | error err =>
              rw [runDryRun, hstarted, handle, hlock, hstorage] at hplan
              cases hplan
          | ok store =>
              obtain ⟨found, hfound, htargets⟩ := @runDryRun_eq sha256 parse
                profile overrides _ _ hstarted hlock hstorage
              cases hplan.symm.trans hfound
              exact ⟨store, rfl, rfl, htargets⟩

/-- With the box checked, a job that finds the store, the policy and the clock
of the plan it was approved by deletes what was approved. -/
theorem covered_of_unchanged {launch : Launch} {plan : Plan} {job : PruneEnv}
    {store : ObjectStore} {allowOverwrite : Bool}
    (hplan : runDryRun sha256 parse launch profile overrides = .ok plan)
    (hstorage : job.storage = launch.env.storage)
    (hcfg : job.cfgRet = launch.env.cfgRet)
    (hclock : job.nowSecs = launch.env.nowSecs)
    (hplans : Plans job (argsOf (buildSpec profile overrides allowOverwrite))
      store) :
    Covered plan true (shownTargets parse job
      (argsOf (buildSpec profile overrides allowOverwrite)) store) := by
  obtain ⟨found, -, hfound, htargets⟩ := targets_of_runDryRun hplan
  have hsame := hplans.opened
  rw [hstorage, hfound] at hsame
  cases hsame
  rw [shownTargets, policy_dryRunSpec overrides profile _ allowOverwrite,
    ← hcfg, ← hclock] at htargets
  refine ⟨?_, fun hfalse => by cases hfalse⟩
  intro target htarget id hid
  rw [htargets]
  exact ⟨target, htarget, hid⟩

end Apply

section Leftover

/-- A destination with data whose manifest was never written. -/
def leftoverStore : ObjectStore where
  entries := ["lost/data.bin"]
  read _ := .error (.failure "not found")

def leftoverEnv : PruneEnv where
  lock := .ok ()
  storage := .ok leftoverStore
  storeLoc := "/backups"
  cfgRet := keepFullOnly 1
  nowSecs := 1706659200
  isTty := false
  confirm _ := false
  backend := denying fun _ _ => false
  entries := leftoverStore.entries

/-- The digest of the one plan of this destination. -/
def leftoverSha256 (text : String) : String :=
  if text = "orphan\x1flost\x1ftrue\x1flost\x1d" then
    "f5ea4d8f7f73c7a2f65f721a960133ffdad5d786210d1e7ee59120bb37c6800e"
  else ""

def prod : ProfileName := ⟨"prod", by decide⟩

def noOverrides : RetentionOverrides := ⟨none, none, none, none, none⟩

def leftoverPlan : Plan where
  profile := "prod"
  store := "/backups"
  targets := shownTargets january leftoverEnv
    (argsOf (dryRunSpec prod noOverrides)) leftoverStore
  retainedBaseIds := (planStore january leftoverStore
    ((argsOf (dryRunSpec prod noOverrides)).policy (keepFullOnly 1))
    1706659200).keptBaseIds
  fingerprint := planFingerprint leftoverSha256
    (shownTargets january leftoverEnv (argsOf (dryRunSpec prod noOverrides))
      leftoverStore)

/-- The form of the confirmation screen; the box is sent if it is checked. -/
def leftoverForm (checked : Bool) : FormBody where
  fields :=
    [(FIELD_CONFIRM_TOKEN, "0197a5ec-0000-7000-8000-000000000000")] ++
    hiddenState prod noOverrides leftoverPlan ++
    [(FIELD_CONFIRM_NAME, "prod")] ++
    if checked then [(FIELD_ALLOW_OVERWRITE, "1")] else []

/-- The console after the plan was shown. -/
def leftoverConsole : ApplyEnv String where
  origin := .ok ()
  dryRun := ⟨.ok (), leftoverEnv⟩
  guard := DestructiveGuard.new.renderConfirm
    "0197a5ec-0000-7000-8000-000000000000"
    ⟨JobCommand.prune.auditAction, prod⟩ 0 0
  confirm := ⟨.ok (), 1, 1, .ok ()⟩
  spawn := .ok ()

theorem runDryRun_leftover :
    runDryRun leftoverSha256 january ⟨.ok (), leftoverEnv⟩ prod noOverrides =
      .ok leftoverPlan := by
  obtain ⟨-, hstdout⟩ := @handle_dryRun january leftoverEnv _ leftoverStore
    (dryRun_dryRunSpec noOverrides prod) (json_argsOf _) rfl rfl
  rw [runDryRun]
  dsimp only
  rw [hstdout]
  rfl

theorem apply_leftover (checked : Bool) :
    apply leftoverSha256 january some id leftoverConsole
      (leftoverForm checked) =
        .started (buildSpec prod noOverrides checked) := by
  have hrequest : readRequest (leftoverForm checked) =
      .ok (prod, noOverrides) := by
    cases checked <;> rfl
  have hcarried : ((leftoverForm checked).get FIELD_FINGERPRINT).getD "" =
      leftoverPlan.fingerprint := by
    cases checked <;> rfl
  rw [apply, hrequest]
  have hdry : leftoverConsole.dryRun = ⟨.ok (), leftoverEnv⟩ := rfl
  simp only [hdry, runDryRun_leftover, hcarried, ne_eq, not_true_eq_false,
    if_false]
  cases checked <;> rfl

/-- With the box checked the leftover goes as shown. -/
theorem leftover_approved :
    apply leftoverSha256 january some id leftoverConsole (leftoverForm true) =
        .started (buildSpec prod noOverrides true) ∧
      ∀ backend entries, DeletesApproved january leftoverPlan true
        (leftoverEnv.on backend entries)
        (argsOf (buildSpec prod noOverrides true)) := by
  let shown : ShownPlan leftoverSha256 january (leftoverForm true) :=
    ⟨⟨.ok (), leftoverEnv⟩, prod, noOverrides, leftoverPlan,
      runDryRun_leftover, rfl⟩
  refine ⟨apply_leftover true,
    (pruneJob_approved_iff shown leftoverEnv (apply_leftover true)).mpr ?_⟩
  intro store hplans
  exact covered_of_unchanged runDryRun_leftover rfl rfl rfl hplans

/-- With the box unchecked it goes all the same. -/
theorem leftover_deleted :
    ¬ ∀ (sha256 : String → String) (parse : String → Option I64)
      (parseToken : String → Option String) (mask : String → String)
      (env : ApplyEnv String) (form : FormBody) (spec : JobSpec)
      (shown : ShownPlan sha256 parse form) (job : PruneEnv),
      apply sha256 parse parseToken mask env form = .started spec →
        ∀ backend entries, DeletesApproved parse shown.plan
          (form.checked FIELD_ALLOW_OVERWRITE) (job.on backend entries)
          (argsOf spec) := by
  intro hclaim
  let shown : ShownPlan leftoverSha256 january (leftoverForm false) :=
    ⟨⟨.ok (), leftoverEnv⟩, prod, noOverrides, leftoverPlan,
      runDryRun_leftover, rfl⟩
  have hdeletes := hclaim leftoverSha256 january some id leftoverConsole
    (leftoverForm false) _ shown leftoverEnv (apply_leftover false)
  obtain ⟨hdry, hforce⟩ := flags_buildSpec noOverrides prod false
  have hplans : Plans leftoverEnv (argsOf (buildSpec prod noOverrides false))
      leftoverStore := ⟨rfl, rfl, rfl⟩
  have hcovered := covered_of_deletesApproved hdry hforce hplans
    fun entries => hdeletes _ entries
  have horphan : "lost" ∈ (loadBackups leftoverStore).2 := by
    rw [loadBackups, detectOrphanIds, SortedNames.mem_sortDedup,
      List.mem_filter, List.mem_filter, mem_dirsHolding,
      decide_eq_true_iff, mem_collectManifestIds]
    decide
  have hlisted : reportTarget (orphanTarget "lost") ∈ shownTargets january
      leftoverEnv (argsOf (buildSpec prod noOverrides false))
      leftoverStore := by
    refine List.mem_map_of_mem ?_
    exact List.mem_append_right _ (List.mem_map_of_mem horphan)
  have hchain := hcovered.chains rfl _ hlisted "lost" List.mem_cons_self _
    (List.mem_append_right _ hlisted) List.mem_cons_self
  exact absurd hchain (by decide)

end Leftover

end PruneApproval

end Web

end XBackup
