/-
What a migration copies: the source's own part of the scope, and nothing else.
-/
import XBackup.Engine.Mysql.Copy
import XBackup.Engine.Native.Copy
import XBackup.Engine.Postgres.Copy
import XBackup.Pipeline.Migrate

namespace XBackup

open Fallible Overwrite

namespace Migrate

/-- The options that narrow a migration. -/
structure Scope where
  db : Option String
  collection : Option String

def Scope.Covers (s : Scope) (db coll : String) : Prop :=
  (∀ want, s.db = some want → want = db) ∧
    ∀ want, s.collection = some want → want = coll

section Law

variable {κ τ ρ : Type} [DecidableEq κ]

/-- A transfer that ends well brings over just what is in its scope, and is
more than nothing when the source has something there. -/
structure CopiesScope (scope : κ → Prop) (holds : κ → ρ → Prop) (read : τ → ρ)
    (transfer : Store κ τ → Except XBackupError (Store κ τ))
    (before : Store κ τ) : Prop where
  exact : ∀ after, transfer before = .ok after →
    Exact scope holds read before after
  something : (∃ key content, scope key ∧ holds key content) →
    ∃ other after, transfer other = .ok after ∧ after ≠ other

end Law

section Mongo

/-- A migration by the native engine; no two databases of the source have one
name, nor two collections of a database. -/
structure MongoCopy extends Scope where
  source : List Native.Database
  databases : (source.map Native.Database.name).Nodup
  collections : ∀ db ∈ source, (db.collections.map Native.Collection.name).Nodup
  createdAt : String
  shown : Native.Frame → String
  before : Native.Holdings

variable (m : MongoCopy)

/-- The dump is narrowed by `--db` and `--collection`, the restore by the
namespace they make. -/
def MongoCopy.nativeTransfer (target : Native.Holdings) :
    Except XBackupError Native.Holdings :=
  (Native.restoreFrames Native.keeping true (nsOf m.db m.collection) m.shown
    target (Native.archiveFrames m.createdAt
      ((Native.listTargets m.source m.db m.collection).map Native.dumped),
        none)).map Native.RestoreState.server

def MongoCopy.scope (key : String × String) : Prop :=
  m.toScope.Covers key.1 key.2

def MongoCopy.holds (key : String × String) (docs : List Document) : Prop :=
  ∃ db ∈ m.source, ∃ c ∈ db.collections, Native.Ordinary db c ∧
    (db.name, c.name) = key ∧ c.docs = docs

def MongoCopy.CopiesScope : Prop :=
  Migrate.CopiesScope m.scope m.holds Native.Holding.docs m.nativeTransfer
    m.before

/-- A database is never given alone, or has no ordinary collection. -/
def MongoCopy.Met : Prop :=
  m.collection = none → ∀ want, m.db = some want → ∀ db ∈ m.source,
    db.name = want → ∀ c ∈ db.collections, ¬ Native.Ordinary db c

end Mongo

section Postgres

structure PgCopy extends Scope where
  source : Postgres.Source
  server : Postgres.Server source
  shown : Postgres.ArchiveFrame → String
  before : Postgres.TableStore

variable (m : PgCopy)

/-- `--db` names a schema. -/
def PgCopy.transfer (target : Postgres.TableStore) :
    Except XBackupError Postgres.TableStore :=
  (Postgres.restoreFrames m.server.client true m.shown (target, none)
    ((m.source.dump m.db m.collection).frames, none)).map fun st => st.server.1

def PgCopy.scope (key : String × String) : Prop :=
  key.1 ∉ Postgres.SYSTEM_SCHEMAS ∧ m.toScope.Covers key.1 key.2

def PgCopy.holds (key : String × String) (rows : List UInt8) : Prop :=
  ∃ t ∈ m.source.tables, t.key = key ∧ ¬ t.partitioned ∧
    t.chunks.flatten = rows

def PgCopy.CopiesScope : Prop :=
  Migrate.CopiesScope m.scope m.holds Postgres.Holding.rows m.transfer m.before

/-- No table of the target outside of the scope inherits from a source table in
it, and there is a column to copy wherever there are rows. -/
structure PgCopy.Met : Prop where
  heirless : ∀ key held, ¬ m.scope key → m.before key = some held →
    ∀ t ∈ m.source.tables, m.scope t.key → t.key ∉ held.ancestors
  columns : ∀ t ∈ m.source.tables, m.scope t.key → ¬ t.partitioned →
    t.copyCols = [] → t.chunks.flatten = []

end Postgres

section Mysql

structure MysqlCopy extends Scope where
  source : Mysql.Source
  server : Mysql.Server source
  shown : Mysql.ArchiveFrame → String
  utf8Error : List UInt8 → String
  before : Mysql.TableStore

variable (m : MysqlCopy)

/-- `--db` narrows nothing. -/
def MysqlCopy.transfer (target : Mysql.TableStore) :
    Except XBackupError Mysql.TableStore :=
  (Mysql.restoreFrames m.server.conn true m.shown m.utf8Error target
    ((m.source.dump m.collection).frames, none)).map Mysql.RestoreState.server

def MysqlCopy.scope (key : String) : Prop :=
  m.toScope.Covers m.source.db key

def MysqlCopy.holds (key : String) (rows : List String) : Prop :=
  ∃ t ∈ m.source.tables, t.name = key ∧ t.rows = rows

def MysqlCopy.CopiesScope : Prop :=
  Migrate.CopiesScope m.scope m.holds id m.transfer m.before

/-- `--db` is not given or names the source's database, or the target has all
that is copied already; and there is a column to insert into wherever there are
rows. -/
structure MysqlCopy.Met : Prop where
  database : ∀ want, m.db = some want → want ≠ m.source.db →
    ∀ t ∈ m.source.tables, (∀ want, m.collection = some want → want = t.name) →
      m.before t.name = some t.carried
  columns : ∀ t ∈ m.source.tables, m.scope t.name → t.insertCols = [] →
    t.rows = []

end Mysql

/-- A migration, by the engine of its source. -/
inductive Copy where
  | mongo (m : MongoCopy)
  | postgres (m : PgCopy)
  | mysql (m : MysqlCopy)

def Copy.CopiesScope : Copy → Prop
  | .mongo m => m.CopiesScope
  | .postgres m => m.CopiesScope
  | .mysql m => m.CopiesScope

def Copy.Met : Copy → Prop
  | .mongo m => m.Met
  | .postgres m => m.Met
  | .mysql m => m.Met

section MongoScope

variable {m : MongoCopy}

theorem MongoCopy.mem_listTargets {db : Native.Database}
    {c : Native.Collection} :
    (db, c) ∈ Native.listTargets m.source m.db m.collection ↔
      db ∈ m.source ∧ c ∈ db.collections ∧ Native.Ordinary db c ∧
        m.scope (db.name, c.name) :=
  Native.mem_listTargets

theorem MongoCopy.places_nodup :
    ((Native.listTargets m.source m.db m.collection).map
      Native.placeOf).Nodup := by
  rw [Native.listTargets, List.map_flatMap, List.nodup_flatMap]
  have hsource : m.source.Pairwise fun left right => left.name ≠ right.name :=
    List.pairwise_map.mp m.databases
  constructor
  · intro db hdb
    have hnames := m.collections db (List.mem_of_mem_filter hdb)
    rw [List.map_map]
    refine List.Nodup.map_on ?_ ?_
    · intro left hleft right hright heq
      exact (List.inj_on_of_nodup_map hnames) (List.mem_of_mem_filter hleft)
        (List.mem_of_mem_filter hright) (Prod.ext_iff.mp heq).2
    · exact (List.Nodup.of_map _ hnames).filter _
  · refine (hsource.filter _).imp ?_
    intro left right hne place hleft hright
    obtain ⟨target, htarget, rfl⟩ := List.mem_map.mp hleft
    obtain ⟨c, -, rfl⟩ := List.mem_map.mp htarget
    obtain ⟨other, hother, heq⟩ := List.mem_map.mp hright
    obtain ⟨d, -, rfl⟩ := List.mem_map.mp hother
    exact hne (Prod.ext_iff.mp heq).1.symm

theorem MongoCopy.nativeTransfer_eq (target : Native.Holdings) :
    m.nativeTransfer target = .ok (replaceAll vacate target
      (Native.holdings (Native.restored (nsOf m.db m.collection)
        (Native.listTargets m.source m.db m.collection)))) := by
  obtain ⟨next, hrestore, hserver⟩ := @Native.restoreFrames_targets m.shown
    (nsOf m.db m.collection) m.createdAt target
    (Native.listTargets m.source m.db m.collection)
  rw [MongoCopy.nativeTransfer, hrestore, ← hserver]
  rfl

theorem MongoCopy.scope_of_mem {target : Native.Database × Native.Collection}
    (htarget : target ∈ Native.listTargets m.source m.db m.collection) :
    m.scope (Native.placeOf target) :=
  (MongoCopy.mem_listTargets.mp htarget).2.2.2

/-- A whole namespace leaves nothing out of what the dump is narrowed to. -/
theorem MongoCopy.restored_eq (h : m.db = none ∨ m.collection ≠ none) :
    Native.restored (nsOf m.db m.collection)
        (Native.listTargets m.source m.db m.collection) =
      Native.listTargets m.source m.db m.collection := by
  refine List.filter_eq_self.mpr ?_
  intro target htarget
  refine (List.mem_filter.mp (Native.mem_restored.mpr ⟨htarget, ?_⟩)).2
  obtain ⟨hdb, hcoll⟩ := m.scope_of_mem htarget
  intro want hwant
  cases hdbOpt : m.db with
  | none =>
      rw [hdbOpt] at hwant
      cases hwant
  | some db =>
      cases hcollOpt : m.collection with
      | none => simp [hdbOpt, hcollOpt] at h
      | some coll =>
          rw [hdbOpt, hcollOpt] at hwant
          cases hwant
          rw [hdb db hdbOpt, hcoll coll hcollOpt]
          rfl

/-- The name of a database is no namespace of a collection. -/
theorem MongoCopy.restored_eq_nil {want : String} (hdb : m.db = some want)
    (hcoll : m.collection = none) :
    Native.restored (nsOf m.db m.collection)
      (Native.listTargets m.source m.db m.collection) = [] := by
  rw [List.eq_nil_iff_forall_not_mem]
  intro target htarget
  obtain ⟨hlisted, hadmits⟩ := Native.mem_restored.mp htarget
  have hname := (m.scope_of_mem hlisted).1 want hdb
  have hns := hadmits want (by rw [hdb, hcoll]; rfl)
  have hlength := congrArg (fun text => text.toList.length) hns
  simp only [Native.dumped, Native.toList_namespaceOf, List.length_append,
    List.length_cons, hname, Native.placeOf] at hlength
  omega

theorem MongoCopy.exact_of_restored
    (hall : Native.restored (nsOf m.db m.collection)
        (Native.listTargets m.source m.db m.collection) =
      Native.listTargets m.source m.db m.collection)
    {before after : Native.Holdings}
    (hrun : m.nativeTransfer before = .ok after) :
    Exact m.scope m.holds Native.Holding.docs before after := by
  rw [m.nativeTransfer_eq, hall] at hrun
  cases hrun
  have hkeys : (Native.holdings (Native.listTargets m.source m.db
      m.collection)).map Prod.fst =
        (Native.listTargets m.source m.db m.collection).map Native.placeOf :=
    List.map_map
  refine ⟨?_, ?_⟩
  · rintro key hscope docs ⟨db, hdb, c, hc, hordinary, rfl, rfl⟩
    have hlisted := MongoCopy.mem_listTargets.mpr ⟨hdb, hc, hordinary, hscope⟩
    have hitem : ((db.name, c.name), c.holding) ∈ Native.holdings
        (Native.listTargets m.source m.db m.collection) :=
      List.mem_map_of_mem hlisted
    rw [vacate_replaceAll_of_mem (hkeys ▸ m.places_nodup) hitem]
    rfl
  · intro key hout
    refine vacate_replaceAll_of_notMem ?_
    rw [hkeys]
    intro hkey
    obtain ⟨target, htarget, rfl⟩ := List.mem_map.mp hkey
    exact hout (m.scope_of_mem htarget)

theorem MongoCopy.met_iff (m : MongoCopy) : m.CopiesScope ↔ m.Met := by
  constructor
  · rintro ⟨-, hsomething⟩ hcoll want hdb db hmem rfl c hc hordinary
    have hscope : m.scope (db.name, c.name) := by
      refine ⟨fun other hother => ?_, fun other hother => ?_⟩
      · rw [hdb] at hother
        exact (Option.some.inj hother).symm
      · rw [hcoll] at hother
        cases hother
    obtain ⟨other, after, hrun, hne⟩ := hsomething
      ⟨_, c.docs, hscope, db, hmem, c, hc, hordinary, rfl, rfl⟩
    rw [m.nativeTransfer_eq, m.restored_eq_nil hdb hcoll] at hrun
    exact hne (Except.ok.inj hrun).symm
  · intro hmet
    have hall : Native.restored (nsOf m.db m.collection)
        (Native.listTargets m.source m.db m.collection) =
          Native.listTargets m.source m.db m.collection := by
      by_cases hwhole : m.db = none ∨ m.collection ≠ none
      · exact m.restored_eq hwhole
      · rw [not_or, not_ne_iff, ← ne_eq, Option.ne_none_iff_exists'] at hwhole
        obtain ⟨⟨want, hdb⟩, hcoll⟩ := hwhole
        suffices hnone : Native.listTargets m.source m.db m.collection = [] by
          rw [hnone]
          rfl
        rw [List.eq_nil_iff_forall_not_mem]
        rintro ⟨db, c⟩ htarget
        obtain ⟨hmem, hc, hordinary, hscope⟩ :=
          MongoCopy.mem_listTargets.mp htarget
        exact hmet hcoll want hdb db hmem (hscope.1 want hdb).symm c hc
          hordinary
    refine ⟨fun after hrun => m.exact_of_restored hall hrun, ?_⟩
    rintro ⟨key, docs, hscope, hholds⟩
    have hrun := m.nativeTransfer_eq fun _ => none
    refine ⟨fun _ => none, _, hrun, fun hsame => ?_⟩
    have hcopied := (m.exact_of_restored hall hrun).copied key hscope docs
      hholds
    rw [hsame] at hcopied
    cases hcopied

end MongoScope

section PgScope

variable {m : PgCopy}

theorem PgCopy.picked_iff {t : Postgres.Table} :
    Postgres.picked m.db m.collection t.toRelation = true ↔ m.scope t.key := by
  simp only [Postgres.picked, PgCopy.scope, Scope.Covers, Postgres.Relation.key,
    decide_eq_true_eq, Option.all_eq_true, @eq_comm _ t.schema,
    @eq_comm _ t.name]

def PgCopy.picks (m : PgCopy) : List Postgres.Table :=
  m.source.tables.filter fun t => Postgres.picked m.db m.collection t.toRelation

theorem PgCopy.mem_picks {t : Postgres.Table} :
    t ∈ m.picks ↔ t ∈ m.source.tables ∧ m.scope t.key := by
  rw [PgCopy.picks, List.mem_filter, PgCopy.picked_iff]

theorem PgCopy.transfer_eq (target : Postgres.TableStore) :
    m.transfer target = .ok (m.picks.foldl Postgres.place target) := by
  obtain ⟨next, hrestore, hserver⟩ := @Postgres.restoreFrames_dump m.source
    m.server m.shown target m.db m.collection
  rw [PgCopy.transfer, hrestore]
  change Except.ok next.server.1 = _
  rw [hserver]
  rfl

theorem PgCopy.scope_of_mem {key : String × String}
    (hkey : key ∈ m.picks.map fun t => t.key) : m.scope key := by
  obtain ⟨t, ht, rfl⟩ := List.mem_map.mp hkey
  exact (PgCopy.mem_picks.mp ht).2

theorem PgCopy.arranged {before : Postgres.TableStore}
    (hheirless : ∀ key held, ¬ m.scope key → before key = some held →
      ∀ t ∈ m.source.tables, m.scope t.key → t.key ∉ held.ancestors) :
    Postgres.Arranged before m.picks := by
  refine ⟨?_, ?_, ?_, ?_⟩
  · exact (List.filter_sublist.map _).nodup m.source.nodup
  · exact m.source.ordered.filter _
  · exact fun t ht => m.source.apart t (PgCopy.mem_picks.mp ht).1
  · intro t ht parent hparent hnot other hother hancestor
    obtain ⟨p, hp, rfl⟩ := m.source.closed t (PgCopy.mem_picks.mp ht).1 parent
      hparent
    have hout : ¬ m.scope p.key := fun hscope =>
      hnot (List.mem_map_of_mem (PgCopy.mem_picks.mpr ⟨hp, hscope⟩))
    obtain ⟨hmem, hscope⟩ := PgCopy.mem_picks.mp hother
    rw [Postgres.ancestorsOf] at hancestor
    cases hheld : before p.key with
    | none =>
        rw [hheld] at hancestor
        cases hancestor
    | some held =>
        rw [hheld] at hancestor
        exact hheirless _ held hout hheld other hmem hscope hancestor

/-- Every table is placed with what is carried of it. -/
theorem PgCopy.transfer_mem {before : Postgres.TableStore}
    (hheirless : ∀ key held, ¬ m.scope key → before key = some held →
      ∀ t ∈ m.source.tables, m.scope t.key → t.key ∉ held.ancestors)
    {t : Postgres.Table} (ht : t ∈ m.source.tables) (hscope : m.scope t.key) :
    ((m.picks.foldl Postgres.place before) t.key).map Postgres.Holding.rows =
      some t.carried.flatten :=
  Postgres.placeAll_of_mem (PgCopy.arranged hheirless)
    (PgCopy.mem_picks.mpr ⟨ht, hscope⟩)

theorem carried_eq_iff {t : Postgres.Table} (hplain : ¬ t.partitioned) :
    t.carried.flatten = t.chunks.flatten ↔
      (t.copyCols = [] → t.chunks.flatten = []) := by
  rw [Postgres.Table.carried, Bool.eq_false_iff.mpr hplain, Bool.false_or]
  cases t.copyCols with
  | nil => simp [eq_comm]
  | cons col rest => simp

theorem PgCopy.met_iff (m : PgCopy) : m.CopiesScope ↔ m.Met := by
  constructor
  · rintro ⟨hexact, -⟩
    obtain ⟨hcopied, huntouched⟩ := hexact _ (m.transfer_eq m.before)
    have hheirless : ∀ key held, ¬ m.scope key → m.before key = some held →
        ∀ t ∈ m.source.tables, m.scope t.key → t.key ∉ held.ancestors := by
      intro key held hout hheld t ht hscope
      have hkey : key ∉ m.picks.map fun t => t.key :=
        fun hmem => hout (PgCopy.scope_of_mem hmem)
      exact (Postgres.placeAll_kept_iff hkey).mp (huntouched key hout) held
        hheld t (PgCopy.mem_picks.mpr ⟨ht, hscope⟩)
    refine ⟨hheirless, ?_⟩
    intro t ht hscope hplain
    have hrows := hcopied t.key hscope _ ⟨t, ht, rfl, hplain, rfl⟩
    rw [PgCopy.transfer_mem hheirless ht hscope, Option.some_inj] at hrows
    exact (carried_eq_iff hplain).mp hrows
  · rintro ⟨hheirless, hcolumns⟩
    refine ⟨?_, ?_⟩
    · intro after hrun
      rw [m.transfer_eq] at hrun
      cases hrun
      refine ⟨?_, ?_⟩
      · rintro key hscope rows ⟨t, ht, rfl, hplain, rfl⟩
        rw [PgCopy.transfer_mem hheirless ht hscope,
          (carried_eq_iff hplain).mpr (hcolumns t ht hscope hplain)]
      · intro key hout
        have hkey : key ∉ m.picks.map fun t => t.key :=
          fun hmem => hout (PgCopy.scope_of_mem hmem)
        refine (Postgres.placeAll_kept_iff hkey).mpr ?_
        intro held hheld t ht
        obtain ⟨hmem, hscope⟩ := PgCopy.mem_picks.mp ht
        exact hheirless key held hout hheld t hmem hscope
    · rintro ⟨key, rows, hscope, t, ht, rfl, -⟩
      refine ⟨fun _ => none, _, m.transfer_eq _, fun hsame => ?_⟩
      have hplaced := @PgCopy.transfer_mem m (fun _ => none)
        (fun _ _ _ hnone => nomatch hnone) t ht hscope
      rw [hsame] at hplaced
      cases hplaced

end PgScope

section MysqlScope

variable {m : MysqlCopy}

def MysqlCopy.items (m : MysqlCopy) : List (String × List String) :=
  (Mysql.listTables m.source.tables m.collection).map
    fun t => (t.name, t.carried)

theorem MysqlCopy.mem_listTables {t : Mysql.Table} :
    t ∈ Mysql.listTables m.source.tables m.collection ↔
      t ∈ m.source.tables ∧
        ∀ want, m.collection = some want → want = t.name := by
  simp only [Mysql.listTables, List.mem_filter, Option.all_eq_true,
    decide_eq_true_eq, @eq_comm _ t.name]

theorem MysqlCopy.transfer_eq (target : Mysql.TableStore) :
    m.transfer target = .ok (replaceAll vacate target m.items) := by
  obtain ⟨next, hrestore, hserver⟩ := @Mysql.restoreFrames_dump m.source
    m.server m.shown m.utf8Error target m.collection
  rw [MysqlCopy.transfer, hrestore]
  change Except.ok next.server = _
  rw [hserver]
  rfl

theorem MysqlCopy.items_nodup : (m.items.map Prod.fst).Nodup := by
  rw [MysqlCopy.items, List.map_map]
  exact (List.filter_sublist.map _).nodup m.source.nodup

theorem MysqlCopy.mem_items {t : Mysql.Table} (ht : t ∈ m.source.tables)
    (hscope : m.scope t.name) : (t.name, t.carried) ∈ m.items :=
  List.mem_map_of_mem (MysqlCopy.mem_listTables.mpr ⟨ht, hscope.2⟩)

theorem carried_eq_rows_iff {t : Mysql.Table} :
    t.carried = t.rows ↔ (t.insertCols = [] → t.rows = []) := by
  rw [Mysql.Table.carried]
  cases t.insertCols with
  | nil => simp [eq_comm]
  | cons col rest => simp

/-- What is copied and is outside of the scope is all of another database than
the one that is named. -/
theorem MysqlCopy.database_iff :
    (∀ item ∈ m.items, ¬ m.scope item.1 → m.before item.1 = some item.2) ↔
      ∀ want, m.db = some want → want ≠ m.source.db →
        ∀ t ∈ m.source.tables,
          (∀ want, m.collection = some want → want = t.name) →
            m.before t.name = some t.carried := by
  constructor
  · intro hheld want hdb hother t ht hcoll
    refine hheld _ (List.mem_map_of_mem
      (MysqlCopy.mem_listTables.mpr ⟨ht, hcoll⟩)) ?_
    exact fun hscope => hother (hscope.1 want hdb)
  · intro hheld item hitem hout
    obtain ⟨t, hlisted, rfl⟩ := List.mem_map.mp hitem
    obtain ⟨ht, hcoll⟩ := MysqlCopy.mem_listTables.mp hlisted
    have hother : ¬ ∀ want, m.db = some want → want = m.source.db :=
      fun hdb => hout ⟨hdb, hcoll⟩
    push Not at hother
    obtain ⟨want, hdb, hne⟩ := hother
    exact hheld want hdb hne t ht hcoll

theorem MysqlCopy.met_iff (m : MysqlCopy) : m.CopiesScope ↔ m.Met := by
  constructor
  · rintro ⟨hexact, -⟩
    obtain ⟨hcopied, huntouched⟩ := hexact _ (m.transfer_eq m.before)
    refine ⟨MysqlCopy.database_iff.mp
      ((untouched_iff m.items_nodup).mp huntouched), ?_⟩
    intro t ht hscope
    have hrows := hcopied t.name hscope _ ⟨t, ht, rfl, rfl⟩
    rw [vacate_replaceAll_of_mem m.items_nodup (m.mem_items ht hscope)] at hrows
    exact carried_eq_rows_iff.mp (Option.some.inj hrows)
  · rintro ⟨hdatabase, hcolumns⟩
    refine ⟨?_, ?_⟩
    · intro after hrun
      rw [m.transfer_eq] at hrun
      cases hrun
      refine ⟨?_, (untouched_iff m.items_nodup).mpr
        (MysqlCopy.database_iff.mpr hdatabase)⟩
      rintro key hscope rows ⟨t, ht, rfl, rfl⟩
      rw [vacate_replaceAll_of_mem m.items_nodup (m.mem_items ht hscope),
        carried_eq_rows_iff.mpr (hcolumns t ht hscope)]
      rfl
    · rintro ⟨key, rows, hscope, t, ht, rfl, -⟩
      refine ⟨fun _ => none, _, m.transfer_eq _, fun hsame => ?_⟩
      have hplaced := @vacate_replaceAll_of_mem _ _ _ (fun _ => none) _ _ _
        m.items_nodup (m.mem_items ht hscope)
      rw [hsame] at hplaced
      cases hplaced

end MysqlScope

/-- A database is named, and none of its collections. -/
def wholeDatabase : MongoCopy where
  db := some "app"
  collection := none
  source := [⟨"app", [⟨"users", .collection, [], [],
    [[("_id", .scalar (.string "ada"))]], nofun⟩], by decide⟩]
  databases := by decide
  collections := by decide
  createdAt := "2024-05-01T00:00:00Z"
  shown _ := ""
  before _ := none

/-- One table, which nothing is a part of. -/
def orders : Postgres.Table where
  schema := "public"
  name := "orders"
  partitioned := false
  parents := []
  quoted := "public.orders"
  schemaQuoted := "public"
  createSql := "CREATE TABLE public.orders (id integer)"
  constraints := []
  indexes := []
  copyCols := ["id"]
  identityCols := []
  chunks := [[0x31, 0x0A]]

def ordersSource : Postgres.Source where
  createdAt := "2024-05-01T00:00:00Z"
  pgVersion := "16.3"
  tables := [orders]
  pre _ := []
  sequences _ := []
  post _ := []
  nodup := by decide
  ordered := by decide
  closed := by decide
  apart := by decide

def ordersServer : Postgres.Server ordersSource where
  effect sql held :=
    if sql = Postgres.dropText orders then Postgres.cascade held orders.key
    else if sql = orders.createSql then
      Function.update held orders.key (some ⟨[], Postgres.lineage held orders⟩)
    else held
  copyTarget sql :=
    if sql = Postgres.copyText orders then some orders.key else none
  drops t ht held := by
    cases List.mem_singleton.mp ht
    exact if_pos rfl
  creates t ht held _ := by
    cases List.mem_singleton.mp ht
    rw [if_neg (by decide +kernel), if_pos rfl]
  copies t ht := by
    cases List.mem_singleton.mp ht
    exact if_pos rfl
  keeps schemaFilter sql hsql held := by
    have hother : ∀ sql ∈ ordersSource.others none,
        sql ≠ Postgres.dropText orders ∧ sql ≠ orders.createSql := by
      decide +kernel
    obtain ⟨hdrop, hcreate⟩ := hother sql hsql
    rw [if_neg hdrop, if_neg hcreate]

/-- An archive of the target inherits from the table that is copied. -/
def heirAtTarget : PgCopy where
  db := none
  collection := some "orders"
  source := ordersSource
  server := ordersServer
  shown _ := ""
  before key :=
    if key = ("public", "orders_2023") then some ⟨[0x31, 0x0A], [orders.key]⟩
    else none

theorem one_tuple : ∀ row ∈ ["(1)"], row ≠ "" := by decide

def shop : Mysql.Source where
  db := "shop"
  tables := [⟨"users", "CREATE TABLE `users` (`id` int)", ["`id`"], ["(1)"],
    one_tuple⟩]
  post := []
  header := ⟨"2024-05-01T00:00:00Z", "8.0.36", "utf8mb4", "utf8mb4_bin",
    "binlog.000001", 4, ""⟩
  nodup := by decide

def shopServer : Mysql.Server shop where
  database := "shop"
  effect sql held :=
    if sql = "DROP TABLE IF EXISTS `users`" then vacate held "users"
    else if sql = "CREATE TABLE `users` (`id` int)" then
      Function.update held "users" (some [])
    else if sql = "INSERT INTO `users` (`id`) VALUES (1)" then
      Function.update held "users" ((held "users").map (· ++ ["(1)"]))
    else held
  drops t ht held := by
    cases List.mem_singleton.mp ht
    exact if_pos (by decide +kernel)
  creates t ht held _ := by
    cases List.mem_singleton.mp ht
    rw [if_neg (by decide +kernel), if_pos rfl]
  inserts t ht held rows batch hheld hbatch hrows := by
    cases List.mem_singleton.mp ht
    have hone : batch = ["(1)"] := by
      rcases List.sublist_singleton.mp hrows.sublist with rfl | rfl
      · exact absurd rfl hbatch
      · rfl
    subst hone
    rw [if_neg (by decide +kernel), if_neg (by decide +kernel),
      if_pos (by decide +kernel), hheld]
    rfl
  keeps sql hsql held := by
    have hother : ∀ sql ∈ shop.others "shop",
        sql ≠ "DROP TABLE IF EXISTS `users`" ∧
          sql ≠ "CREATE TABLE `users` (`id` int)" ∧
          sql ≠ "INSERT INTO `users` (`id`) VALUES (1)" := by
      decide +kernel
    obtain ⟨hdrop, hcreate, hinsert⟩ := hother sql hsql
    rw [if_neg hdrop, if_neg hcreate, if_neg hinsert]

/-- Another database is named than that of the source. -/
def anotherDatabase : MysqlCopy where
  db := some "app"
  collection := none
  source := shop
  server := shopServer
  shown _ := ""
  utf8Error _ := ""
  before _ := none

end Migrate

end XBackup
