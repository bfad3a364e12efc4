/-
The restore screen: what is shown is one plan, what is carried back is its
fingerprint, and what runs is a child that selects and inspects once more.
-/
import XBackup.Foundation.Fallible
import XBackup.Pipeline.RestoreCommand
import XBackup.Web.Guard

namespace XBackup

namespace Web

namespace RestoreApproval

open Fallible RestoreCommand

universe u

variable {δ : Type}

def FIELD_PROFILE : String := "profile"
def FIELD_ID : String := "id"
def FIELD_AT : String := "at"
def FIELD_TARGET_PROFILE : String := "target_profile"
def FIELD_ONLY : String := "only"
def FIELD_FROM : String := "from"
def FIELD_FINGERPRINT : String := "plan_fingerprint"
def EXPECTED_RESTORE_SCHEMA : Nat := 1

/-- The clock and the parsers of times: RFC 3339 in nanoseconds, with the text
of the error, and whether only the zone is missing. -/
structure Times where
  now : Int
  parse : String → Except String Int
  lacksZone : String → Bool
  shown : Int → String

inductive AtProblem where
  | missingTimezone
  | malformed
  | inFuture (requested : String)

def AtProblem.explain : AtProblem → String
  | missingTimezone => "복구 시점에 타임존이 없습니다. 2026-06-12T13:00:00Z처럼 끝에 " ++
      "UTC를 뜻하는 Z를 붙이거나, +09:00 같은 오프셋을 붙이세요."
  | malformed => "복구 시점이 올바른 RFC 3339 시각이 아닙니다. 형식은 " ++
      "2026-06-12T13:00:00Z처럼 연-월-일, T, 시:분:초, 타임존 순서입니다."
  | inFuture requested => "그 시점은 미래입니다. 복구는 이미 기록된 것까지만 재생할 수 " ++
      "있습니다. (" ++ requested ++ ")"

def validateAt (times : Times) (raw : String) : Except AtProblem Int :=
  let trimmed := String.ofList (Schedule.trim raw.toList)
  match times.parse trimmed with
  | .error _ =>
      .error (if times.lacksZone trimmed then .missingTimezone else .malformed)
  | .ok instant =>
      if times.now < instant then .error (.inFuture (times.shown instant))
      else .ok instant

structure RestoreRequest where
  profile : ProfileName
  id : Option String
  targetTime : Option String
  targetProfile : Option ProfileName
  only : Option String
  source : Option String

/-- Only one of the two says what is restored. -/
def refuseBoth (id targetTime : Option String) : Except String Unit :=
  if id.isSome ∧ targetTime.isSome then
    .error ("백업 id와 복구 시점을 동시에 지정할 수 없습니다 — 둘 중 하나만 " ++
      "채우세요.")
  else .ok ()

def checkTime (times : Times) : Option String → Except String Unit
  | none => .ok ()
  | some raw =>
      match validateAt times raw with
      | .ok _ => .ok ()
      | .error problem => .error problem.explain

/-- A profile name, whose error is told with the field. -/
def readProfile (field raw : String) : Except String ProfileName :=
  match ProfileName.parse raw with
  | .ok name => .ok name
  | .error message => .error (field ++ ": " ++ message)

def readTarget : Option String → Except String (Option ProfileName)
  | none => .ok none
  | some raw => do
      let name ← readProfile "target" raw
      .ok (some name)

namespace RestoreRequest

def fromForm (times : Times) (form : FormBody) :
    Except String RestoreRequest := do
  let profile ← readProfile "profile" ((form.get FIELD_PROFILE).getD "")
  let id := form.nonEmpty FIELD_ID
  let targetTime := form.nonEmpty FIELD_AT
  refuseBoth id targetTime
  checkTime times targetTime
  let targetProfile ← readTarget (form.nonEmpty FIELD_TARGET_PROFILE)
  .ok
    { profile := profile
      id := id
      targetTime := targetTime
      targetProfile := targetProfile
      only := form.nonEmpty FIELD_ONLY
      source := form.nonEmpty FIELD_FROM }

/-- The profile whose name is to be typed. -/
def destructiveTarget (request : RestoreRequest) : ProfileName :=
  request.targetProfile.getD request.profile

def asHidden (request : RestoreRequest) (fingerprint : String) :
    List (String × String) :=
  [(FIELD_PROFILE, request.profile.asStr), (FIELD_FINGERPRINT, fingerprint)] ++
    [(FIELD_ID, request.id), (FIELD_AT, request.targetTime),
      (FIELD_ONLY, request.only), (FIELD_FROM, request.source)].filterMap
        (fun field => field.2.map fun value => (field.1, value)) ++
    (request.targetProfile.map fun target =>
      (FIELD_TARGET_PROFILE, target.asStr)).toList

def withTarget (spec : JobSpec) : Option ProfileName → JobSpec
  | none => spec
  | some target => spec.withTargetProfile target

/-- An option of the spec, where the request has it. -/
def withGiven (spec : JobSpec)
    (add : JobSpec → String → Except String JobSpec) :
    Option String → Except String JobSpec
  | none => .ok spec
  | some raw => add spec raw

def baseSpec (times : Times) (request : RestoreRequest) :
    Except String JobSpec := do
  let spec := (JobSpec.new .restore).withProfile request.profile
  let spec := withTarget spec request.targetProfile
  let spec ← withGiven spec JobSpec.withBackupId request.id
  let spec ← withGiven spec (JobSpec.withAt times.parse) request.targetTime
  let spec ← withGiven spec JobSpec.withOnly request.only
  withGiven spec JobSpec.withFrom request.source

end RestoreRequest

inductive TargetOrigin where
  | inPlace
  | profile (name : String)

def RestoreRequest.origin (request : RestoreRequest) : TargetOrigin :=
  match request.targetProfile with
  | some name => .profile name.asStr
  | none => .inPlace

structure PitrPoint where
  requested : String
  decided : String
  replaySlices : Nat

structure Plan where
  profile : String
  destination : String
  origin : TargetOrigin
  backupId : String
  pitr : Option PitrPoint
  conflicting : List String
  only : Option String
  fingerprint : String

/-- The point that the plan says it recovers. -/
def Plan.point (plan : Plan) : Option String :=
  plan.pitr.map fun pitr =>
    if pitr.decided = "" then pitr.requested else pitr.decided

inductive PlanError where
  | empty
  | malformed (detail : String)
  | schemaMismatch (found expected : Nat)

def PlanError.explain : PlanError → String
  | empty => "restore produced no plan. Read the diagnostics below — a " ++
      "point in time outside the recoverable window ends here."
  | malformed detail =>
      "restore output could not be parsed as the expected JSON: " ++ detail
  | schemaMismatch found expected => "restore reported a JSON schema this " ++
      "console does not know — the console and the CLI are probably " ++
      "different builds. (schema " ++ toString found ++ " ≠ " ++
      toString expected ++ ")"

section Console

variable (sha256 : String → String)

def mark (code : Nat) : String := (Char.ofNat code).toString

/-- The backup, the point, the target and what is overwritten. -/
def planFingerprint (backupId : String) (decided : Option String)
    (destination : String) (conflicting : List String) : String :=
  sha256 (backupId ++ mark 0x1f ++ decided.getD "" ++ mark 0x1f ++
    destination ++ mark 0x1d ++
    String.join ((conflicting.mergeSort fun left right => left ≤ right).map
      fun ns => ns ++ mark 0x1f))

/-- What the console takes from a report; a report with a base is one of a
recovery. -/
def planOf (report : RestoreReport) (profile : String) (origin : TargetOrigin)
    (requestedAt only : Option String) : Plan :=
  let pitr := report.baseId.map fun _ =>
    ({ requested := requestedAt.getD ""
       decided := report.decidedWallClock.getD ""
       replaySlices := (report.incrementalIds.getD []).length } : PitrPoint)
  let backupId := report.baseId.getD (report.backupId.getD "")
  let conflicting := report.conflictingNamespaces.getD []
  { profile := profile
    destination := report.destination
    origin := origin
    backupId := backupId
    pitr := pitr
    conflicting := conflicting
    only := only
    fingerprint := planFingerprint sha256 backupId
      (pitr.map PitrPoint.decided) report.destination conflicting }

def parsePlan (stdout : Option RestoreReport) (profile : String)
    (origin : TargetOrigin) (requestedAt only : Option String) :
    Except PlanError Plan :=
  match stdout with
  | none => .error .empty
  | some report =>
      if report.schema ≠ EXPECTED_RESTORE_SCHEMA then
        .error (.schemaMismatch report.schema EXPECTED_RESTORE_SCHEMA)
      else if report.dryRun ≠ true then
        .error (.malformed "dry-run 계획이 아닙니다(`dry_run`이 true가 아님)")
      else .ok (planOf sha256 report profile origin requestedAt only)

/-- What the child reads from its command line. -/
def argsOf (spec : JobSpec) : RestoreArgs where
  profile := (spec.valueOf "--profile").getD ""
  targetProfile := spec.valueOf "--target-profile"
  id := spec.valueOf "--id"
  targetTime := spec.valueOf "--at"
  only := spec.valueOf "--only"
  source := spec.valueOf "--from"
  force := spec.isOn .force
  dryRun := spec.isOn .dryRun
  skipPrecheck := spec.isOn .skipPrecheck
  json := "--json" ∈ spec.toArgv

/-- A child has no terminal to be asked at. -/
def unattended (env : RestoreEnv δ) : RestoreEnv δ :=
  { env with server := { env.server with isTty := false } }

def buildSpec (times : Times) (request : RestoreRequest)
    (allowOverwrite : Bool) : Except String JobSpec := do
  let spec ← request.baseSpec times
  .ok (if allowOverwrite then spec.withFlag .force else spec)

/-- A child that is started, or why it is not, or did not end in time; and
what it wrote to its diagnostics. -/
structure Launch (δ : Type) where
  started : Except String Unit
  env : RestoreEnv δ
  stderr : String

def runDryRun (times : Times) (mask : String → String) (launch : Launch δ)
    (request : RestoreRequest) : Except String Plan :=
  match request.baseSpec times with
  | .error message => .error message
  | .ok spec =>
      match launch.started with
      | .error message => .error message
      | .ok () =>
          match parsePlan sha256 (handle (unattended launch.env)
              (argsOf (spec.withFlag .dryRun))).stdout request.profile.asStr
              request.origin request.targetTime request.only with
          | .ok plan => .ok plan
          | .error problem =>
              let stderr := mask launch.stderr
              .error (if stderr = "" then problem.explain
                else problem.explain ++ " — " ++ stderr)

inductive Response where
  | foreignOrigin (problem : OriginProblem)
  | unconfirmed
  | invalid (message : String)
  | noPlan (message : String)
  | planChanged (plan : Plan)
  | refused (error : ConfirmError) (plan : Plan)
  | notStarted (message : String)
  | started (spec : JobSpec)

structure ApplyEnv (δ : Type) (Token : Type u) where
  origin : Except OriginProblem Unit
  dryRun : Launch δ
  guard : DestructiveGuard Token
  confirm : ConfirmEnv
  spawn : Except String Unit

variable {Token : Type u} [DecidableEq Token]
  (parseToken : String → Option Token)

/-- The spec that is told to the guard is built before it is asked, and the
one that is started afterwards. -/
def confirmAndStart (times : Times) (mask : String → String)
    (env : ApplyEnv δ Token) (form : FormBody) (request : RestoreRequest)
    (current : Plan) : Response :=
  let submission := ConfirmSubmission.ofForm form
  match buildSpec times request submission.allowOverwrite with
  | .error message => .invalid message
  | .ok specForArgs =>
      match (env.guard.confirmAndGate parseToken env.confirm
          ⟨JobCommand.restore.auditAction, request.destructiveTarget⟩
          submission (specForArgs.toArgv.map mask)).1 with
      | .error error => .refused error current
      | .ok gate =>
          match buildSpec times request gate.allowOverwrite with
          | .error message => .invalid message
          | .ok spec =>
              match env.spawn with
              | .error message => .notStarted message
              | .ok () => .started spec

def apply (times : Times) (mask : String → String) (env : ApplyEnv δ Token)
    (form : FormBody) : Response :=
  match env.origin with
  | .error problem => .foreignOrigin problem
  | .ok () =>
      if (form.get FIELD_CONFIRM_TOKEN).getD "" = "" then .unconfirmed
      else
        match RestoreRequest.fromForm times form with
        | .error message => .invalid message
        | .ok request =>
            match runDryRun sha256 times mask env.dryRun request with
            | .error message => .noPlan message
            | .ok current =>
                if current.fingerprint ≠ (form.get FIELD_FINGERPRINT).getD ""
                then .planChanged current
                else confirmAndStart parseToken times mask env form request
                  current

end Console

section Specs

variable {spec next : JobSpec} {times : Times} {request : RestoreRequest}

/-- An option of a spec that has it where there is a value. -/
def pushGiven (spec : JobSpec) (arg : String) : Option String → JobSpec
  | none => spec
  | some raw => spec.push (.valued arg raw)

theorem withChecked_ok {arg raw : String}
    {validate : String → Except String String}
    (hraw : ∀ value, validate raw = .ok value → value = raw)
    (hok : spec.withChecked arg validate raw = .ok next) :
    next = spec.push (.valued arg raw) := by
  obtain ⟨value, hvalue, hok⟩ := bind_eq_ok.mp hok
  cases hok
  rw [hraw value hvalue]

theorem validateBackupId_ok {raw value : String}
    (hok : validateBackupId raw = .ok value) : value = raw := by
  obtain ⟨_, -, hok⟩ := bind_eq_ok.mp hok
  obtain ⟨_, -, hok⟩ := bind_eq_ok.mp hok
  obtain ⟨_, -, hok⟩ := bind_eq_ok.mp hok
  cases hok
  rfl

theorem validateTimestamp_ok {parse : String → Except String Int}
    {raw value : String} (hok : validateTimestamp parse raw = .ok value) :
    value = raw := by
  obtain ⟨_, -, hok⟩ := bind_eq_ok.mp hok
  obtain ⟨_, -, hok⟩ := bind_eq_ok.mp hok
  obtain ⟨_, -, hok⟩ := bind_eq_ok.mp hok
  obtain ⟨_, -, hok⟩ := bind_eq_ok.mp hok
  cases hok
  rfl

theorem validateNamespace_ok {raw value : String}
    (hok : validateNamespace raw = .ok value) : value = raw := by
  obtain ⟨_, -, hok⟩ := bind_eq_ok.mp hok
  obtain ⟨parts, -, hok⟩ := bind_eq_ok.mp hok
  obtain ⟨_, -, hok⟩ := bind_eq_ok.mp hok
  obtain ⟨_, -, hok⟩ := bind_eq_ok.mp hok
  cases hok
  rfl

theorem validateDestinationRef_ok {raw value : String}
    (hok : validateDestinationRef raw = .ok value) : value = raw := by
  obtain ⟨_, -, hok⟩ := bind_eq_ok.mp hok
  obtain ⟨_, -, hok⟩ := bind_eq_ok.mp hok
  obtain ⟨_, -, hok⟩ := bind_eq_ok.mp hok
  cases hok
  rfl

theorem withGiven_ok {add : JobSpec → String → Except String JobSpec}
    {arg : String} {given : Option String}
    (hadd : ∀ raw next, add spec raw = .ok next →
      next = spec.push (.valued arg raw))
    (hok : RestoreRequest.withGiven spec add given = .ok next) :
    next = pushGiven spec arg given := by
  cases given with
  | none =>
      cases hok
      rfl
  | some raw => exact hadd raw next hok

theorem valueOf_pushGiven (arg wanted : String) (given : Option String) :
    (pushGiven spec arg given).valueOf wanted =
      if arg = wanted then given.or (spec.valueOf wanted)
      else spec.valueOf wanted := by
  cases given with
  | none => simp [pushGiven]
  | some raw =>
      rw [pushGiven, JobSpec.valueOf, JobSpec.push, pieceOf_pushOnto]
      by_cases harg : arg = wanted
      · simp [Opt.arg, Opt.value, harg]
      · simp [Opt.arg, harg, JobSpec.valueOf]

theorem isOn_pushGiven {arg : String} {flag : JobFlag}
    (harg : arg ≠ flag.asArg) (given : Option String) :
    (pushGiven spec arg given).isOn flag = spec.isOn flag := by
  cases given with
  | none => rfl
  | some raw =>
      rw [pushGiven, JobSpec.isOn, JobSpec.push, pieceOf_pushOnto]
      exact congrArg Option.isSome (if_neg harg)

/-- The options of a request in the order in which they are set. -/
theorem baseSpec_ok (hok : request.baseSpec times = .ok spec) :
    spec = pushGiven (pushGiven (pushGiven (pushGiven
      (pushGiven ((JobSpec.new .restore).withProfile request.profile)
        "--target-profile" (request.targetProfile.map ProfileName.asStr))
      "--id" request.id) "--at" request.targetTime) "--only" request.only)
      "--from" request.source := by
  have htarget : ∀ base : JobSpec,
      RestoreRequest.withTarget base request.targetProfile =
        pushGiven base "--target-profile"
          (request.targetProfile.map ProfileName.asStr) := by
    intro base
    cases request.targetProfile <;> rfl
  rw [RestoreRequest.baseSpec, htarget] at hok
  obtain ⟨identified, hid, hok⟩ := bind_eq_ok.mp hok
  obtain ⟨timed, htime, hok⟩ := bind_eq_ok.mp hok
  obtain ⟨narrowed, honly, hok⟩ := bind_eq_ok.mp hok
  have hid := withGiven_ok (fun _ _ => withChecked_ok fun _ =>
    validateBackupId_ok) hid
  have htime := withGiven_ok (fun _ _ => withChecked_ok fun _ =>
    validateTimestamp_ok) htime
  have honly := withGiven_ok (fun _ _ => withChecked_ok fun _ =>
    validateNamespace_ok) honly
  have hfrom := withGiven_ok (fun _ _ => withChecked_ok fun _ =>
    validateDestinationRef_ok) hok
  rw [hfrom, honly, htime, hid]

theorem isOn_baseSpec (hok : request.baseSpec times = .ok spec)
    (flag : JobFlag) : spec.isOn flag = false := by
  have hargs : ∀ arg ∈ ["--target-profile", "--id", "--at", "--only",
      "--from"], arg ≠ flag.asArg := by
    cases flag <;> decide
  rw [baseSpec_ok hok, isOn_pushGiven (hargs _ (by decide)),
    isOn_pushGiven (hargs _ (by decide)), isOn_pushGiven (hargs _ (by decide)),
    isOn_pushGiven (hargs _ (by decide)), isOn_pushGiven (hargs _ (by decide)),
    JobSpec.isOn_start]

theorem valueOf_withFlag (flag : JobFlag) {arg : String}
    (harg : flag.asArg ≠ arg) :
    (spec.withFlag flag).valueOf arg = spec.valueOf arg := by
  rw [JobSpec.valueOf, JobSpec.withFlag, JobSpec.push, pieceOf_pushOnto]
  exact congrArg (Option.bind · Opt.value) (if_neg harg)

/-- The child is told what the form asks for. -/
theorem argsOf_buildSpec {allowOverwrite : Bool}
    (hok : buildSpec times request allowOverwrite = .ok spec) :
    argsOf spec =
      { profile := request.profile.asStr
        targetProfile := request.targetProfile.map ProfileName.asStr
        id := request.id
        targetTime := request.targetTime
        only := request.only
        source := request.source
        force := allowOverwrite
        dryRun := false
        skipPrecheck := false
        json := true } := by
  obtain ⟨base, hbase, hok⟩ := bind_eq_ok.mp hok
  cases hok
  have hvalue : ∀ arg ∈ ["--profile", "--target-profile", "--id", "--at",
      "--only", "--from"],
      (if allowOverwrite then base.withFlag .force else base).valueOf arg =
        base.valueOf arg := by
    intro arg harg
    have hne : ∀ arg ∈ ["--profile", "--target-profile", "--id", "--at",
        "--only", "--from"], JobFlag.force.asArg ≠ arg := by
      decide
    split_ifs
    · exact valueOf_withFlag .force (hne arg harg)
    · rfl
  have hflag : ∀ flag,
      (if allowOverwrite then base.withFlag .force else base).isOn flag =
        (allowOverwrite && decide (JobFlag.force = flag)) := by
    intro flag
    cases allowOverwrite with
    | true =>
        rw [if_pos rfl, JobSpec.isOn_withFlag, isOn_baseSpec hbase,
          Bool.or_false, Bool.true_and]
    | false => exact isOn_baseSpec hbase flag
  have hjson : "--json" ∈ (if allowOverwrite then base.withFlag .force
      else base).toArgv := by
    simp [JobSpec.toArgv]
  rw [argsOf, hvalue _ (by decide), hvalue _ (by decide),
    hvalue _ (by decide), hvalue _ (by decide), hvalue _ (by decide),
    hvalue _ (by decide)]
  simp only [hflag, hjson]
  simp only [baseSpec_ok hbase, valueOf_pushGiven]
  simp [JobSpec.valueOf, JobSpec.withProfile, JobSpec.new, JobSpec.push,
    Opt.pushOnto, pieceOf, Opt.arg, Opt.value]

end Specs

section Approval

variable (sha256 : String → String)

/-- A plan that was shown, and whose fingerprint a form carries. -/
structure ShownPlan (δ : Type) (form : FormBody) where
  launch : Launch δ
  times : Times
  mask : String → String
  request : RestoreRequest
  plan : Plan
  shown : runDryRun sha256 times mask launch request = .ok plan
  carried : form.get FIELD_FINGERPRINT = some plan.fingerprint

/-- What exists at the target when it is written to, and the namespaces that a
backup holds in the part that is restored. -/
structure Scene where
  present : List String
  archived : String → Option String → List String

/-- The existing namespaces that a write replaces. -/
def Scene.replaced (scene : Scene) (write : Write) : List String :=
  if write.dropExisting then
    (scene.archived write.backupId write.only).filter (· ∈ scene.present)
  else []

/-- A write that does what a plan says; of the namespaces that it conflicts
with, those are meant that the backup holds. -/
structure WriteApproved (plan : Plan) (checked : Bool) (env : RestoreEnv δ)
    (scene : Scene) (write : Write) : Prop where
  backup : write.backupId = plan.backupId
  point : write.point = plan.point
  target : env.redact write.uri = plan.destination
  only : write.only = plan.only
  replaced : ∀ ns ∈ scene.archived write.backupId write.only,
    ns ∈ scene.replaced write ↔ ns ∈ plan.conflicting
  asked : scene.replaced write ≠ [] → checked = true

/-- The catalog and the target as the job finds them still stand for the plan. -/
structure StillHolds (plan : Plan) (checked : Bool) (env : RestoreEnv δ)
    (args : RestoreArgs) (scene : Scene) : Prop where
  selected : ∀ uri storage, prepare env args = .ok (uri, storage) →
    selection env args uri storage = .ok (plan.backupId, plan.point) ∧
      env.redact uri = plan.destination
  only : args.only = plan.only
  existing : ∀ ns ∈ scene.archived plan.backupId plan.only,
    (checked = true ∧ ns ∈ scene.present) ↔ ns ∈ plan.conflicting

variable {sha256} {Token : Type u} [DecidableEq Token]
  {parseToken : String → Option Token} {times : Times}
  {mask : String → String} {env : ApplyEnv δ Token} {form : FormBody}
  {spec : JobSpec} {request : RestoreRequest} {current : Plan}
  {scene : Scene} {write : Write}

theorem mem_replaced {ns : String}
    (hns : ns ∈ scene.archived write.backupId write.only) :
    ns ∈ scene.replaced write ↔
      write.dropExisting = true ∧ ns ∈ scene.present := by
  rw [Scene.replaced]
  split
  next hdrop => simp [hdrop, hns]
  next hdrop => simp [hdrop]

theorem confirmAndStart_started
    (hstarted : confirmAndStart parseToken times mask env form request
      current = .started spec) :
    buildSpec times request (form.checked FIELD_ALLOW_OVERWRITE) =
      .ok spec := by
  rw [confirmAndStart] at hstarted
  split at hstarted
  next => cases hstarted
  next specForArgs _ =>
    split at hstarted
    next => cases hstarted
    next gate hgate =>
      obtain ⟨hallow, -⟩ := DestructiveGuard.confirmAndGate_ok
        (Prod.ext hgate rfl)
      rw [hallow] at hstarted
      split at hstarted
      next => cases hstarted
      next built hbuilt =>
        split at hstarted
        next => cases hstarted
        next =>
          cases hstarted
          exact hbuilt

/-- A job is started for the plan that the form carries, with what the form
asks for. -/
theorem apply_started
    (hstarted : apply sha256 parseToken times mask env form =
      .started spec) :
    ∃ request current, RestoreRequest.fromForm times form = .ok request ∧
      runDryRun sha256 times mask env.dryRun request = .ok current ∧
      current.fingerprint = (form.get FIELD_FINGERPRINT).getD "" ∧
      buildSpec times request (form.checked FIELD_ALLOW_OVERWRITE) =
        .ok spec := by
  rw [apply] at hstarted
  split at hstarted
  next => cases hstarted
  next =>
    split at hstarted
    next => cases hstarted
    next =>
      split at hstarted
      next => cases hstarted
      next request hrequest =>
        split at hstarted
        next => cases hstarted
        next current hplan =>
          split at hstarted
          next => cases hstarted
          next hsame =>
            exact ⟨request, current, hrequest, hplan, not_not.mp hsame,
              confirmAndStart_started hstarted⟩

/-- The job of a form, where it writes, writes what was approved exactly when
the catalog and the target as the job finds them still stand for the plan that
the form carries. -/
theorem restoreJob_approved_iff (shown : ShownPlan sha256 δ form)
    (job : RestoreEnv δ)
    (hstarted : apply sha256 parseToken times mask env form = .started spec)
    (hwrite : (handle (unattended job) (argsOf spec)).write = some write) :
    WriteApproved shown.plan (form.checked FIELD_ALLOW_OVERWRITE)
        (unattended job) scene write ↔
      StillHolds shown.plan (form.checked FIELD_ALLOW_OVERWRITE)
        (unattended job) (argsOf spec) scene := by
  obtain ⟨request, _, -, -, -, hspec⟩ := apply_started hstarted
  obtain ⟨uri, storage, hprepare, hfollows⟩ := handle_write rfl hwrite
  have hforced :
      write.dropExisting = form.checked FIELD_ALLOW_OVERWRITE := by
    rw [hfollows.forced, argsOf_buildSpec hspec]
  constructor
  · intro happroved
    refine ⟨?_, ?_, ?_⟩
    · intro uri' storage' hprepare'
      cases hprepare.symm.trans hprepare'
      rw [hfollows.selected, happroved.backup, happroved.point,
        ← happroved.target, hfollows.uri]
      exact ⟨rfl, rfl⟩
    · rw [← hfollows.only, happroved.only]
    · intro ns hns
      rw [← happroved.backup, ← happroved.only] at hns
      rw [← happroved.replaced ns hns, mem_replaced hns, hforced]
  · intro hholds
    obtain ⟨hselected, htarget⟩ := hholds.selected uri storage hprepare
    have hchosen := hfollows.selected.symm.trans hselected
    have hbackup : write.backupId = shown.plan.backupId :=
      congrArg Prod.fst (Except.ok.inj hchosen)
    have hpoint : write.point = shown.plan.point :=
      congrArg Prod.snd (Except.ok.inj hchosen)
    have honly := hfollows.only.trans hholds.only
    refine ⟨hbackup, hpoint, ?_, honly, ?_, ?_⟩
    · rw [hfollows.uri, htarget]
    · intro ns hns
      rw [mem_replaced hns, hforced]
      rw [hbackup, honly] at hns
      exact hholds.existing ns hns
    · intro hreplaced
      by_contra hunchecked
      rw [← hforced] at hunchecked
      exact hreplaced (if_neg hunchecked)

end Approval

section Later

/-- A full backup of each listed day. -/
def dailyBackups (days : List String) : Storage where
  manifestDirs := days
  read := fun day => .ok
    { id := day
      createdAt := "2026-01-0" ++ day ++ "T00:00:00Z"
      backupType := .full
      baseId := none
      topology := .standalone
      toolVersions := ⟨none, some NATIVE_FORMAT_ID⟩
      selective := false
      oplogRange := none
      oplogCount := none
      promotedFromGap := false
      mysqlBinlog := none
      status := .complete }

/-- An empty Mongo server. -/
def emptyTarget : Restore.Target where
  mongoConnect := .ok ()
  mongoServerMeta := .ok ()
  userNamespaces _ := .ok []
  pgConnect := .error "not a PostgreSQL server"
  pgTables := .ok []
  mysqlConnect _ := .error "not a MySQL server"
  mysqlTables := .ok []
  filePath := .error (.usage "not a file target")
  fileNonEmpty := false
  stream _ _ := .ok ()

/-- A child that meets the backups of `days` and an empty target. -/
def dailyEnv (days : List String) : RestoreEnv Unit where
  lock := .ok ()
  targetUri _ := .ok "mongodb://db/app"
  storage _ := .ok (dailyBackups days)
  redact uri := uri
  pick := .ok none
  target := emptyTarget
  confirm _ := false
  rowCheck := .ok ()
  wallClock _ := ""
  shownBreaks _ := ""
  server :=
    { parseRfc3339 := fun _ => .error "premature end of input"
      connect := fun _ => .ok true
      listQualified := .ok []
      isTty := false
      confirm := fun _ => false
      restoreInto := fun _ _ _ => .ok ()
      sliceFrames := fun _ _ => .ok []
      execute := fun _ _ _ => .ok true }
  replay _ := .ok ()

def noTimes : Times where
  now := 0
  parse _ := .error "premature end of input"
  lacksZone _ := false
  shown _ := ""

theorem checkProfile_prod : checkProfile "prod" = .ok () := by decide

def prodName : ProfileName := ⟨"prod", checkProfile_prod⟩

def dailyRequest (id : Option String) : RestoreRequest where
  profile := prodName
  id := id
  targetTime := none
  targetProfile := none
  only := none
  source := none

/-- The digest of the one plan of this server. -/
def dailySha256 (text : String) : String :=
  if text = "1\x1f\x1fmongodb://db/app\x1d" then
    "c1e2fc45ccc9f0d69a7d76b5be048bb7777391a00036394febbbe8c51065f328"
  else ""

/-- The plan that is shown while there is one backup. -/
def dailyPlan : Plan :=
  planOf dailySha256
    (buildPlanJson ⟨"1", .full, none, []⟩ "mongodb://db/app") "prod" .inPlace
    none none

def dailyForm (id : Option String) : FormBody where
  fields :=
    [(FIELD_CONFIRM_TOKEN, "0197a5ec-0000-7000-8000-000000000000"),
      (FIELD_CONFIRM_NAME, "prod")] ++
    (dailyRequest id).asHidden dailyPlan.fingerprint

/-- The console after the plan was shown. -/
def dailyConsole : ApplyEnv Unit String where
  origin := .ok ()
  dryRun := ⟨.ok (), dailyEnv ["1"], ""⟩
  guard := DestructiveGuard.new.renderConfirm
    "0197a5ec-0000-7000-8000-000000000000"
    ⟨JobCommand.restore.auditAction, prodName⟩ 0 0
  confirm := ⟨.ok (), 1, 1, .ok ()⟩
  spawn := .ok ()

def dailySpec (id : Option String) : JobSpec :=
  pushGiven ((JobSpec.new .restore).withProfile prodName) "--id" id

theorem apply_daily (id : Option String) (hid : id ∈ [none, some "1"]) :
    apply dailySha256 some noTimes (fun text => text) dailyConsole
      (dailyForm id) = .started (dailySpec id) := by
  have hrequest : RestoreRequest.fromForm noTimes (dailyForm id) =
      .ok (dailyRequest id) := by
    fin_cases hid <;> rfl
  have hplan : runDryRun dailySha256 noTimes (fun text => text)
      dailyConsole.dryRun (dailyRequest id) = .ok dailyPlan := by
    fin_cases hid <;> rfl
  have hcarried : ((dailyForm id).get FIELD_FINGERPRINT).getD "" =
      dailyPlan.fingerprint := by
    fin_cases hid <;> rfl
  have hstarted : confirmAndStart some noTimes (fun text => text)
      dailyConsole (dailyForm id) (dailyRequest id) dailyPlan =
        .started (dailySpec id) := by
    fin_cases hid <;> rfl
  rw [apply]
  simp only [hrequest, hplan, hcarried, ne_eq, not_true_eq_false, if_false,
    hstarted]
  fin_cases hid <;> rfl

/-- A restore that names its backup is not moved by a newer one. -/
theorem named_approved :
    apply dailySha256 some noTimes (fun text => text) dailyConsole
        (dailyForm (some "1")) = .started (dailySpec (some "1")) ∧
      WriteApproved dailyPlan false (unattended (dailyEnv ["1", "2"]))
        ⟨[], fun _ _ => ["app.users"]⟩
        ⟨"1", none, none, "mongodb://db/app", false⟩ := by
  let shown : ShownPlan dailySha256 Unit (dailyForm (some "1")) :=
    ⟨⟨.ok (), dailyEnv ["1"], ""⟩, noTimes, fun text => text,
      dailyRequest (some "1"), dailyPlan, rfl, rfl⟩
  have hstarted := apply_daily (some "1") (by decide)
  refine ⟨hstarted, (restoreJob_approved_iff shown (dailyEnv ["1", "2"])
    hstarted rfl).mpr ⟨?_, rfl, ?_⟩⟩
  · intro uri storage hprepare
    cases hprepare
    exact ⟨rfl, rfl⟩
  · intro ns _
    constructor
    · intro hpresent
      cases hpresent.2
    · intro hlisted
      cases hlisted

/-- One that does not is given the newer one. -/
theorem newer_restored :
    ¬ ∀ (sha256 : String → String) (parseToken : String → Option String)
      (times : Times) (mask : String → String) (env : ApplyEnv Unit String)
      (form : FormBody) (spec : JobSpec) (shown : ShownPlan sha256 Unit form)
      (job : RestoreEnv Unit) (scene : Scene) (write : Write),
      apply sha256 parseToken times mask env form = .started spec →
        (handle (unattended job) (argsOf spec)).write = some write →
          WriteApproved shown.plan (form.checked FIELD_ALLOW_OVERWRITE)
            (unattended job) scene write := by
  intro hclaim
  let shown : ShownPlan dailySha256 Unit (dailyForm none) :=
    ⟨⟨.ok (), dailyEnv ["1"], ""⟩, noTimes, fun text => text,
      dailyRequest none, dailyPlan, rfl, rfl⟩
  have happroved := hclaim dailySha256 some noTimes (fun text => text)
    dailyConsole (dailyForm none) (dailySpec none) shown
    (dailyEnv ["1", "2"]) ⟨[], fun _ _ => ["app.users"]⟩
    ⟨"2", none, none, "mongodb://db/app", false⟩
    (apply_daily none (by decide)) rfl
  exact absurd happroved.backup (by decide)

end Later

end RestoreApproval

end Web

end XBackup
