/-
Copying from server to server: the plan, the guard over what exists at the
target, and what is asked of the target once the guard is passed.
-/
import XBackup.Engine.Catalog
import XBackup.Pipeline.Restore

namespace XBackup

open Fallible

namespace Migrate

structure Request where
  db : Option String
  collection : Option String
  drop : Bool
  dryRun : Bool

structure Outcome where
  sourceTopology : String
  targetHadData : Bool

structure Plan where
  sourceServerVersion : String
  sourceTopology : String
  targetServerVersion : String
  ns : Option String
  conflictingNamespaces : List String
  versionWarning : Option String
  sourceCounts : List (String × Nat)
  targetCounts : List (String × Nat)

section Scope

/-- How `filter_counts` and `filter_names` compare a name. -/
def inScope (ns : Option String) (name : String) : Bool :=
  match ns with
  | none => true
  | some filter =>
      if '.' ∈ filter.toList then name = filter
      else startsWith name (filter ++ ".")

def filterCounts (counts : List (String × Nat)) (ns : Option String) :
    List (String × Nat) :=
  counts.filter fun entry => inScope ns entry.1

def filterNames (names : List String) (ns : Option String) : List String :=
  names.filter (inScope ns)

def nsOf (db collection : Option String) : Option String :=
  match db, collection with
  | some d, some c => some (d ++ "." ++ c)
  | some d, none => some d
  | none, _ => none

end Scope

def versionCompatWarning (source target : String) : Option String :=
  let major := fun version : String => (version.toList.splitOn '.').headD []
  if major source ≠ major target then
    some ("source(" ++ source ++ ")와 target(" ++ target ++
      ")의 메이저 버전이 다릅니다 — 마이그레이션 후 호환성을 확인하세요")
  else none

structure ServerInfo where
  version : String
  topology : String

/-- What the servers answer while a migration is planned, their catalogs
apart. -/
structure Contact where
  source : Except XBackupError ServerInfo
  targetConnect : Except String Unit
  target : Except XBackupError ServerInfo
  sourceCounts : Except XBackupError (List (String × Nat))
  targetCounts : Except XBackupError (List (String × Nat))

def contacted (contact : Contact) :
    Except XBackupError (ServerInfo × ServerInfo) := do
  let source ← contact.source
  Restore.precheck "failed to connect to the target: " contact.targetConnect
  let target ← contact.target
  return (source, target)

/-- The connections come first, and counts that fail are left out. -/
def planWith (request : Request) (contact : Contact)
    (topology : ServerInfo → String)
    (conflicting : Except XBackupError (List String)) :
    Except XBackupError Plan := do
  let (source, target) ← contacted contact
  let ns := nsOf request.db request.collection
  let conflicting ← conflicting
  return {
    sourceServerVersion := source.version
    sourceTopology := topology source
    targetServerVersion := target.version
    ns := ns
    conflictingNamespaces := conflicting
    versionWarning := versionCompatWarning source.version target.version
    sourceCounts := filterCounts (contact.sourceCounts.toOption.getD []) ns
    targetCounts := filterCounts (contact.targetCounts.toOption.getD []) ns }

inductive GuardOutcome where
  | proceed
  | needDrop
  | needConfirm
deriving DecidableEq

def migrateGuard (targetHadData drop force : Bool) : GuardOutcome :=
  if !targetHadData then .proceed
  else if !drop then .needDrop
  else if !force then .needConfirm
  else .proceed

/-- What is asked of a target object. -/
inductive Touch (ν : Type) where
  | drop (object : ν)
  | create (object : ν)
  | write (object : ν)

/-- An object of a copy, and whether there is anything to write into it. -/
structure Carried (ν : Type) where
  object : ν
  filled : Bool

def Carried.touches {ν : Type} (drop : Bool) (c : Carried ν) : List (Touch ν) :=
  (if drop then [.drop c.object] else []) ++ [.create c.object] ++
    if c.filled then [.write c.object] else []

/-- How a transfer ends: as a whole, or by an error after some of what it
asks. -/
inductive Ending where
  | whole
  | failed (asked : Nat) (err : XBackupError)

/-- What a run asked of the target, and its result. -/
structure Run (ν : Type) where
  touched : List (Touch ν)
  result : Except XBackupError (Plan × Option Outcome)

def transfer {ν : Type} (drop : Bool) (carried : List (Carried ν)) :
    Ending → List (Touch ν) × Except XBackupError Unit
  | .whole => (carried.flatMap (Carried.touches drop), .ok ())
  | .failed asked err =>
      ((carried.flatMap (Carried.touches drop)).take asked, .error err)

/-- What a user is told when a migration is refused. -/
structure Refusal where
  needDrop : Nat → String
  needConfirm : String

/-- What all migrations are started with. -/
structure Invocation where
  request : Request
  force : Bool
  isTty : Bool
  confirm : Plan → Bool
  contact : Contact

/-- Plan, guard and transfer. -/
def runWith {ν : Type} (i : Invocation) (refusal : Refusal)
    (topology : Plan → String) (planned : Except XBackupError Plan)
    (carried : List (Carried ν)) (ending : Ending) : Run ν :=
  match planned with
  | .error err => ⟨[], .error err⟩
  | .ok plan =>
      if i.request.dryRun then ⟨[], .ok (plan, none)⟩
      else
        let targetHadData := !plan.conflictingNamespaces.isEmpty
        let proceed :=
          let (touched, ended) := transfer i.request.drop carried ending
          ⟨touched, ended.map fun _ =>
            (plan, some ⟨topology plan, targetHadData⟩)⟩
        match migrateGuard targetHadData i.request.drop i.force with
        | .proceed => proceed
        | .needDrop => ⟨[], .error (.usage
            (refusal.needDrop plan.conflictingNamespaces.length))⟩
        | .needConfirm =>
            if i.isTty && i.confirm plan then proceed
            else ⟨[], .error (.failure refusal.needConfirm)⟩

section Mongo

structure MongoMigration extends Invocation where
  source : List Native.Database
  target : List Native.Database
  /-- How the query for what exists goes. -/
  queries : Native.Queries

def mongoRefusal : Refusal where
  needDrop n := "the target already has existing data (" ++ toString n ++
    " namespace(s)). Migration means replacement, so it requires --drop (a " ++
    "copy without --drop is an awkward merge). Move to an empty target, or " ++
    "use --drop --force."
  needConfirm := "replacing the target's existing data with --drop requires " ++
    "--force or an interactive confirmation (a production guardrail)."

variable (m : MongoMigration)

def MongoMigration.ns : Option String :=
  nsOf m.request.db m.request.collection

/-- A query for what exists that fails counts as nothing found. -/
def planMigrate : Except XBackupError Plan :=
  planWith m.request m.contact ServerInfo.topology
    (.ok ((Native.userNamespaces m.target m.queries m.ns).toOption.getD []))

/-- The collections that `native_transfer` hands on: the dump is narrowed by
`--db` and `--collection`, the restore by the whole namespace. -/
def nativeCarried : List (Carried String) :=
  (((Native.listTargets m.source m.request.db m.request.collection).map
    Native.dumped).filter
      fun dump => ¬ m.ns.any fun want => want ≠ dump.ns).map fun dump =>
        ⟨dump.ns, !dump.docs.isEmpty || !dump.indexes.isEmpty⟩

def runMigrate (ending : Ending) : Run String :=
  runWith m.toInvocation mongoRefusal Plan.sourceTopology (planMigrate m)
    (nativeCarried m) ending

end Mongo

section Postgres

/-- A cascading drop of a table takes its `heirs` with it, which inherit from
it. -/
structure PgMigration extends Invocation where
  source : List Postgres.Relation
  target : List Postgres.Relation
  heirs : String × String → List (String × String)
  /-- The error of the query for what exists. -/
  listing : Option String

def pgRefusal : Refusal where
  needDrop n := "the target already has " ++ toString n ++ " existing " ++
    "table(s). Migration means replacement, so it requires --drop (a copy " ++
    "without --drop is an awkward merge). Move to an empty target, or use " ++
    "--drop --force."
  needConfirm := "replacing the target's existing tables with --drop " ++
    "requires --force or an interactive confirmation (a production guardrail)."

/-- The names a driver query lists, as far as they are in the scope. -/
def driverConflicts (request : Request) (listing : Option String)
    (names : List String) : Except XBackupError (List String) :=
  match listing with
  | some e => .error (.precheckFailed
      ("failed to enumerate the target's tables: " ++ e))
  | none => .ok (filterNames names (nsOf request.db request.collection))

variable (m : PgMigration)

def planPgMigrate : Except XBackupError Plan :=
  planWith m.request m.contact (fun _ => "PostgreSQL")
    (driverConflicts m.request m.listing (Postgres.listQualified m.target))

/-- The tables that are dumped; each is copied into, also without rows. -/
def pgCarried : List (Carried (String × String)) :=
  (Postgres.listTables m.source m.request.db m.request.collection).map fun r =>
    ⟨(r.schema, r.name), true⟩

def runPgMigrate (ending : Ending) : Run (String × String) :=
  runWith m.toInvocation pgRefusal (fun _ => "PostgreSQL") (planPgMigrate m)
    (pgCarried m) ending

end Postgres

section Mysql

/-- The tables of the database that the URI of the source names, and the names
of those in the database of the target. -/
structure MysqlMigration extends Invocation where
  source : List Mysql.Table
  targetDb : String
  target : List String
  /-- The error of the query for what exists. -/
  listing : Option String

def mysqlRefusal : Refusal where
  needDrop n := "the target already has " ++ toString n ++ " existing " ++
    "table(s). Migration means replacement, so it requires --drop. Move to " ++
    "an empty target, or use --drop --force."
  needConfirm := pgRefusal.needConfirm

variable (m : MysqlMigration)

def planMysqlMigrate : Except XBackupError Plan :=
  planWith m.request m.contact (fun _ => "MySQL")
    (driverConflicts m.request m.listing
      (Mysql.listQualified m.targetDb m.target))

/-- The tables that are dumped: `--db` does not narrow them. -/
def mysqlCarried : List (Carried String) :=
  (Mysql.listTables m.source m.request.collection).map fun table =>
    ⟨table.name, !table.carried.isEmpty⟩

def runMysqlMigrate (ending : Ending) : Run String :=
  runWith m.toInvocation mysqlRefusal (fun _ => "MySQL") (planMysqlMigrate m)
    (mysqlCarried m) ending

end Mysql

/-- What a run meets at the target: the objects there, those that a drop takes
with it, and the name an object is listed by. -/
structure Stock (ν : Type) where
  existing : List ν
  heirs : ν → List ν
  listedAs : ν → String

/-- The objects a statement drops or writes into. -/
def Touch.replaces {ν : Type} (heirs : ν → List ν) : Touch ν → List ν
  | .drop object => object :: heirs object
  | .create _ => []
  | .write object => [object]

/-- The user agreed to a plan that lists a name. -/
def Invocation.Confirmed (i : Invocation) (planned : Except XBackupError Plan)
    (name : String) : Prop :=
  i.isTty ∧ ∃ plan, planned = .ok plan ∧ i.confirm plan ∧
    name ∈ plan.conflictingNamespaces

/-- Nothing existing is replaced unasked, and nothing at all is written when
what exists is not known. -/
structure AskedFirst {ν : Type} (i : Invocation) (stock : Stock ν)
    (planned : Except XBackupError Plan) (undetermined : Prop) (run : Run ν) :
    Prop where
  replaced : ∀ object ∈ stock.existing,
    (∃ touch ∈ run.touched, object ∈ touch.replaces stock.heirs) →
      i.request.drop ∧
        (i.force ∨ i.Confirmed planned (stock.listedAs object))
  determined : undetermined → run.touched = []

section Guard

variable {ν : Type} {i : Invocation} {refusal : Refusal}
  {topology : Plan → String} {planned : Except XBackupError Plan}
  {carried : List (Carried ν)} {stock : Stock ν} {undetermined : Prop}
  {object : ν} {plan : Plan}

/-- Every plan that is made finds something, and is not agreed to. -/
def Invocation.Refuses (i : Invocation) (planned : Except XBackupError Plan) :
    Prop :=
  ∀ plan, planned = .ok plan → plan.conflictingNamespaces ≠ [] ∧
    ¬ (i.request.drop ∧ i.isTty ∧ i.confirm plan)

/-- A statement of the transfer replaces an object. -/
def Reached (drop : Bool) (carried : List (Carried ν)) (heirs : ν → List ν)
    (object : ν) : Prop :=
  ∃ c ∈ carried, (drop ∧ (object = c.object ∨ object ∈ heirs c.object)) ∨
    c.filled ∧ object = c.object

/-- The guard lets a plan pass. -/
def Invocation.Passes (i : Invocation) (plan : Plan) : Prop :=
  plan.conflictingNamespaces = [] ∨
    i.request.drop ∧ (i.force ∨ i.isTty ∧ i.confirm plan)

theorem touched_of_passes (hdry : ¬ i.request.dryRun) (hpasses : i.Passes plan)
    (ending : Ending) :
    (runWith i refusal topology (.ok plan) carried ending).touched =
      (transfer i.request.drop carried ending).1 := by
  have hguard : plan.conflictingNamespaces.isEmpty ∨
      i.request.drop ∧ (i.force ∨ i.isTty ∧ i.confirm plan) :=
    hpasses.imp List.isEmpty_iff.mpr id
  simp only [runWith, migrateGuard]
  cases hempty : plan.conflictingNamespaces.isEmpty <;>
    cases hdrop : i.request.drop <;> cases hforce : i.force <;>
    simp_all

theorem touched_of_not_passes (hrefused : i.request.dryRun ∨ ¬ i.Passes plan)
    (ending : Ending) :
    (runWith i refusal topology (.ok plan) carried ending).touched = [] := by
  simp only [runWith, migrateGuard, Invocation.Passes,
    ← List.isEmpty_iff] at hrefused ⊢
  cases hdry : i.request.dryRun <;>
    cases hempty : plan.conflictingNamespaces.isEmpty <;>
    cases hdrop : i.request.drop <;> cases hforce : i.force <;>
    simp_all
  rw [if_neg]
  rintro ⟨htty, hconfirm⟩
  rw [hrefused htty] at hconfirm
  cases hconfirm

theorem transfer_subset (drop : Bool) (ending : Ending) :
    (transfer drop carried ending).1 ⊆
      carried.flatMap (Carried.touches drop) := by
  cases ending with
  | whole => exact List.Subset.refl _
  | failed asked err => exact List.take_subset _ _

theorem touches_eq_nil_iff {drop : Bool} :
    carried.flatMap (Carried.touches drop) = [] ↔ carried = [] := by
  cases carried with
  | nil => simp
  | cons c rest => simp [Carried.touches]

theorem reached_iff {drop : Bool} {heirs : ν → List ν} :
    (∃ touch ∈ carried.flatMap (Carried.touches drop),
      object ∈ touch.replaces heirs) ↔ Reached drop carried heirs object := by
  constructor
  · rintro ⟨touch, htouch, hobject⟩
    obtain ⟨c, hc, htouch⟩ := List.mem_flatMap.mp htouch
    refine ⟨c, hc, ?_⟩
    rw [Carried.touches, List.mem_append, List.mem_append,
      List.mem_singleton] at htouch
    rcases htouch with (htouch | rfl) | htouch
    · split at htouch
      next hdrop =>
        cases List.mem_singleton.mp htouch
        exact .inl ⟨hdrop, List.mem_cons.mp hobject⟩
      next => cases htouch
    · cases hobject
    · split at htouch
      next hfilled =>
        cases List.mem_singleton.mp htouch
        exact .inr ⟨hfilled, List.mem_singleton.mp hobject⟩
      next => cases htouch
  · rintro ⟨c, hc, ⟨hdrop, hobject⟩ | ⟨hfilled, rfl⟩⟩
    · refine ⟨.drop c.object, List.mem_flatMap.mpr ⟨c, hc, ?_⟩,
        List.mem_cons.mpr hobject⟩
      simp [Carried.touches, hdrop]
    · refine ⟨.write c.object, List.mem_flatMap.mpr ⟨c, hc, ?_⟩,
        List.mem_singleton_self _⟩
      simp [Carried.touches, hfilled]

/-- Only a plan that passes the guard is carried out, and then a transfer that
goes through asks everything. -/
theorem askedFirst_iff_of_passes :
    (∀ ending, AskedFirst i stock planned undetermined
      (runWith i refusal topology planned carried ending)) ↔
    ∀ plan, planned = .ok plan → ¬ i.request.dryRun → i.Passes plan →
      (undetermined → carried = []) ∧ ∀ object ∈ stock.existing,
        Reached i.request.drop carried stock.heirs object →
          i.request.drop ∧
            (i.force ∨ i.Confirmed planned (stock.listedAs object)) := by
  constructor
  · rintro hasked plan rfl hdry hpasses
    have htouched : (runWith i refusal topology (.ok plan) carried
        .whole).touched = carried.flatMap (Carried.touches i.request.drop) :=
      touched_of_passes hdry hpasses .whole
    obtain ⟨hreplaced, hdetermined⟩ := hasked .whole
    rw [htouched] at hreplaced hdetermined
    refine ⟨fun hunknown => touches_eq_nil_iff.mp (hdetermined hunknown), ?_⟩
    intro object hobject hreached
    exact hreplaced object hobject (reached_iff.mpr hreached)
  · intro hplan ending
    cases planned with
    | error err => exact ⟨fun _ _ ⟨_, htouch, _⟩ => (nomatch htouch),
        fun _ => rfl⟩
    | ok plan =>
        by_cases hgoes : ¬ i.request.dryRun ∧ i.Passes plan
        · obtain ⟨hdry, hpasses⟩ := hgoes
          obtain ⟨hnone, hreached⟩ := hplan plan rfl hdry hpasses
          have hsubset : (transfer i.request.drop carried ending).1 ⊆
              carried.flatMap (Carried.touches i.request.drop) :=
            transfer_subset i.request.drop ending
          have htouched : (runWith i refusal topology (.ok plan) carried
              ending).touched = (transfer i.request.drop carried ending).1 :=
            touched_of_passes hdry hpasses ending
          rw [← htouched] at hsubset
          constructor
          · rintro object hobject ⟨touch, htouch, hmem⟩
            exact hreached object hobject
              (reached_iff.mp ⟨touch, hsubset htouch, hmem⟩)
          · intro hunknown
            rw [touches_eq_nil_iff.mpr (hnone hunknown)] at hsubset
            exact List.subset_nil.mp hsubset
        · have hnone : (runWith i refusal topology (.ok plan) carried
              ending).touched = [] :=
            touched_of_not_passes (by tauto) ending
          constructor
          · rintro object - ⟨touch, htouch, -⟩
            rw [hnone] at htouch
            cases htouch
          · exact fun _ => hnone

/-- Where an engine that cannot list what exists makes no plan, the guard is as
good as the list. -/
theorem askedFirst_iff_of_listed
    (hunknown : undetermined → ∀ plan, planned ≠ .ok plan)
    {conflicts : List String}
    (hconflicts : ∀ plan, planned = .ok plan →
      plan.conflictingNamespaces = conflicts) :
    (∀ ending, AskedFirst i stock planned undetermined
      (runWith i refusal topology planned carried ending)) ↔
    i.request.dryRun ∨ (i.request.drop ∧ i.force) ∨ i.Refuses planned ∨
      ∀ object ∈ stock.existing,
        Reached i.request.drop carried stock.heirs object →
          stock.listedAs object ∈ conflicts := by
  rw [askedFirst_iff_of_passes]
  cases planned with
  | error err => simp [Invocation.Refuses]
  | ok plan =>
      have hlist := hconflicts plan rfl
      have hknown : ¬ undetermined := fun h => hunknown h plan rfl
      simp only [Except.ok.injEq, forall_eq', Invocation.Passes,
        Invocation.Confirmed, Invocation.Refuses, exists_eq_left', hlist]
      constructor
      · intro hplan
        by_cases hdry : i.request.dryRun = true
        · exact .inl hdry
        by_cases hforced : i.request.drop = true ∧ i.force = true
        · exact .inr (.inl hforced)
        refine .inr (.inr ?_)
        by_cases hagreed : i.request.drop = true ∧ i.isTty = true ∧
          i.confirm plan = true
        · obtain ⟨hdrop, hconfirmed⟩ := hagreed
          refine .inr fun object hobject hreached => ?_
          obtain ⟨-, hforce | ⟨-, -, hlisted⟩⟩ := (hplan hdry
            (.inr ⟨hdrop, .inr hconfirmed⟩)).2 object hobject hreached
          · exact absurd ⟨hdrop, hforce⟩ hforced
          · exact hlisted
        · by_cases hnone : conflicts = []
          · refine .inr fun object hobject hreached => ?_
            obtain ⟨hdrop, hforce | ⟨htty, hconfirm, -⟩⟩ :=
              (hplan hdry (.inl hnone)).2 object hobject hreached
            · exact absurd ⟨hdrop, hforce⟩ hforced
            · exact absurd ⟨hdrop, htty, hconfirm⟩ hagreed
          · exact .inl ⟨hnone, hagreed⟩
      · intro hcases hdry hpasses
        refine ⟨fun h => absurd h hknown, fun object hobject hreached => ?_⟩
        rcases hcases with h | ⟨hdrop, hforce⟩ | ⟨hsome, hnot⟩ | hlisted
        · exact absurd h hdry
        · exact ⟨hdrop, .inl hforce⟩
        · obtain hnone | ⟨hdrop, hforce | hagreed⟩ := hpasses
          · exact absurd hnone hsome
          · exact ⟨hdrop, .inl hforce⟩
          · exact absurd ⟨hdrop, hagreed⟩ hnot
        · have hmem := hlisted object hobject hreached
          obtain hnone | ⟨hdrop, hforce | ⟨htty, hconfirm⟩⟩ := hpasses
          · exact absurd (hnone ▸ hmem) List.not_mem_nil
          · exact ⟨hdrop, .inl hforce⟩
          · exact ⟨hdrop, .inr ⟨htty, hconfirm, hmem⟩⟩

theorem planWith_eq_ok {contact : Contact} {named : ServerInfo → String}
    {conflicting : Except XBackupError (List String)} {request : Request}
    (hplan : planWith request contact named conflicting = .ok plan) :
    conflicting = .ok plan.conflictingNamespaces := by
  obtain ⟨infos, -, hplan⟩ := bind_eq_ok.mp hplan
  obtain ⟨names, hnames, hplan⟩ := bind_eq_ok.mp hplan
  cases hplan
  exact hnames

theorem planWith_of_contacted {contact : Contact}
    {named : ServerInfo → String} {names : List String} {request : Request}
    {infos : ServerInfo × ServerInfo} (hcontact : contacted contact = .ok infos) :
    ∃ plan, planWith request contact named (.ok names) = .ok plan ∧
      plan.conflictingNamespaces = names := by
  rw [planWith, hcontact]
  exact ⟨_, rfl, rfl⟩

theorem contacted_of_planWith {contact : Contact}
    {named : ServerInfo → String}
    {conflicting : Except XBackupError (List String)} {request : Request}
    (hplan : planWith request contact named conflicting = .ok plan) :
    ∃ infos, contacted contact = .ok infos := by
  obtain ⟨infos, hinfos, -⟩ := bind_eq_ok.mp hplan
  exact ⟨infos, hinfos⟩

end Guard

section Engines

def mongoStock (m : MongoMigration) : Stock String where
  existing := m.target.flatMap fun db => db.collections.map fun c =>
    Native.namespaceOf db.name c.name
  heirs _ := []
  listedAs := id

def pgStock (m : PgMigration) : Stock (String × String) where
  existing := m.target.map fun r => (r.schema, r.name)
  heirs := m.heirs
  listedAs table := Postgres.qualified table.1 table.2

def mysqlStock (m : MysqlMigration) : Stock String where
  existing := m.target
  heirs _ := []
  listedAs table := m.targetDb ++ "." ++ table

/-- The query for what exists succeeds. -/
def MongoMigration.Known (m : MongoMigration) : Prop :=
  ∃ names, Native.userNamespaces m.target m.queries m.ns = .ok names

/-- The source has an ordinary collection in the scope, and `--db` is given
with `--collection` or not at all. -/
def MongoMigration.Copies (m : MongoMigration) : Prop :=
  ∃ db ∈ m.source, ∃ c ∈ db.collections, Native.Ordinary db c ∧
    (∀ want, m.request.collection = some want → want = c.name) ∧
      (m.request.db = none ∨
        m.request.db = some db.name ∧ m.request.collection = some c.name)

/-- A table of the source in the scope has the name of a table, or takes it
along when it is dropped. -/
def PgMigration.Replaces (m : PgMigration) (table : String × String) : Prop :=
  ∃ r ∈ Postgres.listTables m.source m.request.db m.request.collection,
    table = (r.schema, r.name) ∨
      m.request.drop ∧ table ∈ m.heirs (r.schema, r.name)

/-- The query for what exists lists a table, and the filter keeps its name. -/
def PgMigration.Lists (m : PgMigration) (table : String × String) : Prop :=
  Postgres.qualified table.1 table.2 ∈ Postgres.listQualified m.target ∧
    inScope (nsOf m.request.db m.request.collection)
      (Postgres.qualified table.1 table.2)

def MysqlMigration.Replaces (m : MysqlMigration) (table : String) : Prop :=
  ∃ t ∈ Mysql.listTables m.source m.request.collection,
    table = t.name ∧ (m.request.drop ∨ t.carried ≠ [])

/-- The filter keeps the name that a table has under the database of the
target. -/
def MysqlMigration.Lists (m : MysqlMigration) (table : String) : Prop :=
  inScope (nsOf m.request.db m.request.collection)
    (m.targetDb ++ "." ++ table)

inductive Migration where
  | mongo (m : MongoMigration)
  | postgres (m : PgMigration)
  | mysql (m : MysqlMigration)

/-- However the transfer ends, nothing existing is replaced unasked. -/
def Migration.ReplacesAsked : Migration → Prop
  | .mongo m => ∀ ending, AskedFirst m.toInvocation (mongoStock m)
      (planMigrate m) (¬ m.Known) (runMigrate m ending)
  | .postgres m => ∀ ending, AskedFirst m.toInvocation (pgStock m)
      (planPgMigrate m) (m.listing ≠ none) (runPgMigrate m ending)
  | .mysql m => ∀ ending, AskedFirst m.toInvocation (mysqlStock m)
      (planMysqlMigrate m) (m.listing ≠ none) (runMysqlMigrate m ending)

/-- The list that the guard looks at has all that the transfer replaces, or
nothing is replaced. -/
def Migration.Covered : Migration → Prop
  | .mongo m => m.request.dryRun ∨ (∃ err, contacted m.contact = .error err) ∨
      m.Known ∨ ¬ m.Copies
  | .postgres m => m.request.dryRun ∨ (m.request.drop ∧ m.force) ∨
      m.Refuses (planPgMigrate m) ∨
      ∀ r ∈ m.target, m.Replaces (r.schema, r.name) →
        m.Lists (r.schema, r.name)
  | .mysql m => m.request.dryRun ∨ (m.request.drop ∧ m.force) ∨
      m.Refuses (planMysqlMigrate m) ∨
      ∀ table ∈ m.target, m.Replaces table → m.Lists table

theorem mem_nativeCarried {m : MongoMigration} {c : Carried String} :
    c ∈ nativeCarried m ↔
      ∃ target ∈ Native.listTargets m.source m.request.db
          m.request.collection,
        Native.Admits m.ns (Native.dumped target).ns ∧
          c = ⟨(Native.dumped target).ns, !(Native.dumped target).docs.isEmpty
            || !(Native.dumped target).indexes.isEmpty⟩ := by
  simp only [nativeCarried, Native.Admits, List.mem_map, List.mem_filter,
    Option.any_eq_true, decide_eq_true_eq, not_exists, not_and, not_not]
  constructor
  · rintro ⟨-, ⟨⟨target, htarget, rfl⟩, hadmits⟩, rfl⟩
    exact ⟨target, htarget, hadmits, rfl⟩
  · rintro ⟨target, htarget, hadmits, rfl⟩
    exact ⟨_, ⟨⟨target, htarget, rfl⟩, hadmits⟩, rfl⟩

theorem name_ne_namespaceOf (db : Native.Database) (coll : String) :
    db.name ≠ Native.namespaceOf db.name coll := by
  intro hsame
  apply db.dotless
  rw [hsame, Native.toList_namespaceOf]
  exact List.mem_append_right _ List.mem_cons_self

theorem copies_iff (m : MongoMigration) : m.Copies ↔
    ∃ target ∈ Native.listTargets m.source m.request.db m.request.collection,
      Native.Admits m.ns (Native.dumped target).ns := by
  simp only [MongoMigration.Copies, Native.mem_listTargets]
  constructor
  · rintro ⟨db, hdb, c, hc, hordinary, hcoll, hscope⟩
    refine ⟨(db, c), ⟨hdb, hc, hordinary, ?_, hcoll⟩, ?_⟩
    · rcases hscope with hnone | ⟨hsome, -⟩
      · simp [hnone]
      · simp [hsome]
    · intro want hwant
      rcases hscope with hnone | ⟨hsome, hboth⟩
      · rw [MongoMigration.ns, hnone] at hwant
        cases hwant
      · rw [MongoMigration.ns, hsome, hboth] at hwant
        cases hwant
        rfl
  · rintro ⟨⟨db, c⟩, ⟨hdb, hc, hordinary, hwant, hcoll⟩, hadmits⟩
    refine ⟨db, hdb, c, hc, hordinary, hcoll, ?_⟩
    cases hsome : m.request.db with
    | none => exact .inl rfl
    | some d =>
        cases hwant d hsome
        cases hboth : m.request.collection with
        | some name => exact .inr ⟨rfl, by rw [hcoll name hboth]⟩
        | none =>
            -- the restore compares a whole namespace with the name alone
            have hns : m.ns = some db.name := by
              rw [MongoMigration.ns, hsome, hboth]
              rfl
            exact absurd (hadmits _ hns) (name_ne_namespaceOf db c.name)

theorem nativeCarried_eq_nil_iff (m : MongoMigration) :
    nativeCarried m = [] ↔ ¬ m.Copies := by
  rw [copies_iff, List.eq_nil_iff_forall_not_mem]
  constructor
  · rintro hnone ⟨target, htarget, hadmits⟩
    exact hnone _ (mem_nativeCarried.mpr ⟨target, htarget, hadmits, rfl⟩)
  · intro hnone c hc
    obtain ⟨target, htarget, hadmits, -⟩ := mem_nativeCarried.mp hc
    exact hnone ⟨target, htarget, hadmits⟩

/-- What the transfer replaces at a target that was listed is on the list. -/
theorem listed_of_reached {m : MongoMigration} {names : List String}
    {object : String}
    (hnames : Native.userNamespaces m.target m.queries m.ns = .ok names)
    (hobject : object ∈ (mongoStock m).existing)
    (hreached : Reached m.request.drop (nativeCarried m) (mongoStock m).heirs
      object) : object ∈ names := by
  have hcarried : ∃ c ∈ nativeCarried m, object = c.object := by
    obtain ⟨c, hc, ⟨-, hsame | hheir⟩ | ⟨-, hsame⟩⟩ := hreached
    · exact ⟨c, hc, hsame⟩
    · cases hheir
    · exact ⟨c, hc, hsame⟩
  obtain ⟨c, hc, rfl⟩ := hcarried
  obtain ⟨⟨db, coll⟩, htarget, hadmits, rfl⟩ := mem_nativeCarried.mp hc
  obtain ⟨-, -, ⟨huser, hplain, -⟩, -⟩ := Native.mem_listTargets.mp htarget
  obtain ⟨own, hown, hobject⟩ := List.mem_flatMap.mp hobject
  obtain ⟨there, hthere, hsame⟩ := List.mem_map.mp hobject
  obtain ⟨hdb, hcoll⟩ := Native.namespaceOf_inj hsame
  rw [← hdb] at huser
  rw [← hcoll] at hplain
  rw [← hsame]
  apply Native.mem_userNamespaces hnames hown hthere huser hplain
  rw [hsame]
  exact hadmits

theorem mongo_covered_iff (m : MongoMigration) :
    (Migration.mongo m).ReplacesAsked ↔ (Migration.mongo m).Covered := by
  rw [Migration.ReplacesAsked, Migration.Covered]
  simp only [runMigrate]
  rw [askedFirst_iff_of_passes]
  constructor
  · intro hplan
    by_cases hknown : m.Known
    · exact .inr (.inr (.inl hknown))
    by_cases hdry : m.request.dryRun = true
    · exact .inl hdry
    cases hcontact : contacted m.contact with
    | error err => exact .inr (.inl ⟨err, rfl⟩)
    | ok infos =>
        have hfound : (Native.userNamespaces m.target m.queries
            m.ns).toOption.getD [] = [] := by
          cases hlist : Native.userNamespaces m.target m.queries m.ns with
          | error err => rfl
          | ok names => exact absurd ⟨names, hlist⟩ hknown
        obtain ⟨plan, hmade, hnone⟩ := planWith_of_contacted hcontact
        have hcarried := (hplan plan hmade hdry
          (.inl (hnone.trans hfound))).1 hknown
        exact .inr (.inr (.inr ((nativeCarried_eq_nil_iff m).mp hcarried)))
  · intro hcovered plan hmade hdry hpasses
    rcases hcovered with h | ⟨err, herr⟩ | hknown | hcopies
    · exact absurd h hdry
    · obtain ⟨infos, hinfos⟩ := contacted_of_planWith hmade
      rw [herr] at hinfos
      cases hinfos
    · refine ⟨fun hunknown => absurd hknown hunknown, ?_⟩
      intro object hobject hreached
      obtain ⟨names, hnames⟩ := hknown
      have hlist := planWith_eq_ok hmade
      rw [hnames] at hlist
      have hmem : object ∈ plan.conflictingNamespaces := by
        rw [← Except.ok.inj hlist]
        exact listed_of_reached hnames hobject hreached
      obtain hnone | ⟨hdrop, hforce | ⟨htty, hconfirm⟩⟩ := hpasses
      · rw [hnone] at hmem
        cases hmem
      · exact ⟨hdrop, .inl hforce⟩
      · exact ⟨hdrop, .inr ⟨htty, plan, hmade, hconfirm, hmem⟩⟩
    · rw [(nativeCarried_eq_nil_iff m).mpr hcopies]
      refine ⟨fun _ => rfl, ?_⟩
      rintro object - ⟨c, hc, -⟩
      cases hc

section Driver

variable {request : Request} {listing : Option String} {names : List String}

theorem driverConflicts_eq_ok {found : List String}
    (hfound : driverConflicts request listing names = .ok found) :
    listing = none ∧
      found = filterNames names (nsOf request.db request.collection) := by
  cases listing with
  | none => exact ⟨rfl, (Except.ok.inj hfound).symm⟩
  | some e => cases hfound

end Driver

theorem pg_covered_iff (m : PgMigration) :
    (Migration.postgres m).ReplacesAsked ↔ (Migration.postgres m).Covered := by
  rw [Migration.ReplacesAsked, Migration.Covered]
  have hunknown : m.listing ≠ none → ∀ plan, planPgMigrate m ≠ .ok plan :=
    fun hlisting plan hmade =>
      hlisting (driverConflicts_eq_ok (planWith_eq_ok hmade)).1
  have hconflicts : ∀ plan, planPgMigrate m = .ok plan →
      plan.conflictingNamespaces =
        filterNames (Postgres.listQualified m.target)
          (nsOf m.request.db m.request.collection) :=
    fun plan hmade => (driverConflicts_eq_ok (planWith_eq_ok hmade)).2
  simp only [runPgMigrate]
  rw [askedFirst_iff_of_listed hunknown hconflicts]
  have hreached : ∀ table, Reached m.request.drop (pgCarried m) m.heirs
      table ↔ m.Replaces table := by
    intro table
    simp only [Reached, pgCarried, PgMigration.Replaces, List.mem_map]
    constructor
    · rintro ⟨-, ⟨r, hr, rfl⟩, ⟨hdrop, hsame | hheir⟩ | ⟨-, hsame⟩⟩
      · exact ⟨r, hr, .inl hsame⟩
      · exact ⟨r, hr, .inr ⟨hdrop, hheir⟩⟩
      · exact ⟨r, hr, .inl hsame⟩
    · rintro ⟨r, hr, hsame | ⟨hdrop, hheir⟩⟩
      · exact ⟨_, ⟨r, hr, rfl⟩, .inr ⟨rfl, hsame⟩⟩
      · exact ⟨_, ⟨r, hr, rfl⟩, .inl ⟨hdrop, .inr hheir⟩⟩
  simp only [pgStock, List.forall_mem_map, hreached, filterNames,
    List.mem_filter, PgMigration.Lists]

theorem mysql_covered_iff (m : MysqlMigration) :
    (Migration.mysql m).ReplacesAsked ↔ (Migration.mysql m).Covered := by
  rw [Migration.ReplacesAsked, Migration.Covered]
  have hunknown : m.listing ≠ none → ∀ plan, planMysqlMigrate m ≠ .ok plan :=
    fun hlisting plan hmade =>
      hlisting (driverConflicts_eq_ok (planWith_eq_ok hmade)).1
  have hconflicts : ∀ plan, planMysqlMigrate m = .ok plan →
      plan.conflictingNamespaces =
        filterNames (Mysql.listQualified m.targetDb m.target)
          (nsOf m.request.db m.request.collection) :=
    fun plan hmade => (driverConflicts_eq_ok (planWith_eq_ok hmade)).2
  simp only [runMysqlMigrate]
  rw [askedFirst_iff_of_listed hunknown hconflicts]
  have hreached : ∀ table, Reached m.request.drop (mysqlCarried m)
      (mysqlStock m).heirs table ↔ m.Replaces table := by
    intro table
    simp only [Reached, mysqlCarried, mysqlStock, MysqlMigration.Replaces,
      List.mem_map]
    constructor
    · rintro ⟨-, ⟨t, ht, rfl⟩, ⟨hdrop, hsame | hheir⟩ | ⟨hfilled, hsame⟩⟩
      · exact ⟨t, ht, hsame, .inl hdrop⟩
      · cases hheir
      · exact ⟨t, ht, hsame, .inr (by simpa using hfilled)⟩
    · rintro ⟨t, ht, hsame, hdrop | hrows⟩
      · exact ⟨_, ⟨t, ht, rfl⟩, .inl ⟨hdrop, .inl hsame⟩⟩
      · exact ⟨_, ⟨t, ht, rfl⟩, .inr ⟨by simpa using hrows, hsame⟩⟩
  have hlisted : ∀ table ∈ m.target, m.targetDb ++ "." ++ table ∈
      Mysql.listQualified m.targetDb m.target :=
    fun table htable => List.mem_map_of_mem htable
  constructor <;> refine Or.imp_right (Or.imp_right (Or.imp_right ?_)) <;>
    intro hall table htable hreplaces
  · have hkept := hall table htable ((hreached table).mpr hreplaces)
    exact (List.mem_filter.mp hkept).2
  · exact List.mem_filter.mpr ⟨hlisted table htable,
      hall table htable ((hreached table).mp hreplaces)⟩

theorem replacesAsked_iff (m : Migration) : m.ReplacesAsked ↔ m.Covered := by
  cases m with
  | mongo m => exact mongo_covered_iff m
  | postgres m => exact pg_covered_iff m
  | mysql m => exact mysql_covered_iff m

/-- The source names its database by `--db`; the target has another one, with a
table of the same name. -/
def otherDatabase : MysqlMigration where
  request := ⟨some "app", none, false, false⟩
  force := false
  isTty := false
  confirm _ := false
  contact := ⟨.ok ⟨"8.0.36", "MySQL"⟩, .ok (), .ok ⟨"8.0.36", "MySQL"⟩, .ok [],
    .ok []⟩
  source := [⟨"users", "CREATE TABLE `users` (`id` int)", ["`id`"], ["(1)"],
    by decide⟩]
  targetDb := "prod"
  target := ["users"]
  listing := none

theorem otherDatabase_replaced :
    ¬ (Migration.mysql otherDatabase).ReplacesAsked := by
  intro hasked
  have htouched : (runMysqlMigrate otherDatabase .whole).touched =
      [.create "users", .write "users"] := rfl
  obtain ⟨hdrop, -⟩ := (hasked .whole).replaced "users"
    (List.mem_singleton_self _) (by
      rw [htouched]
      exact ⟨.write "users", List.mem_cons_of_mem _ (List.mem_singleton_self _),
        List.mem_singleton_self _⟩)
  cases hdrop

end Engines

end Migrate

end XBackup
