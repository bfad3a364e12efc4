/-
What the servers hold and list: how a target is looked over before a copy, and
how the objects of a copy are picked at its source.
-/
import XBackup.Engine.Mysql.Backup
import XBackup.Engine.Native.Backup
import XBackup.Engine.Postgres.Backup
import XBackup.Foundation.Fallible

namespace XBackup

open Fallible

namespace Native

def SYSTEM_DBS : List String := ["admin", "config", "local"]

inductive CollectionType where
  | collection
  | view
  | timeseries
deriving DecidableEq

/-- No option of a collection is named like the command that creates it. -/
structure Collection where
  name : String
  collectionType : CollectionType
  options : Document
  indexes : List Document
  docs : List Document
  plainOptions : ∀ field ∈ options, field.1 ≠ "create"

/-- A database of a server; no name of one has a dot in it. -/
structure Database where
  name : String
  collections : List Collection
  dotless : '.' ∉ name.toList

def namespaceOf (db coll : String) : String :=
  db ++ "." ++ coll

/-- The errors of the queries of a listing that fail. -/
structure Queries where
  databaseNames : Option String
  collectionNames : String → Option String

def answered {α : Type} (failure : Option String) (message : String)
    (value : α) : Except XBackupError α :=
  match failure with
  | none => .ok value
  | some e => .error (.failure (message ++ e))

theorem answered_eq_ok {α : Type} {failure : Option String} {message : String}
    {value result : α} : answered failure message value = .ok result ↔
      failure = none ∧ value = result := by
  cases failure with
  | none => simp [answered]
  | some e => simp [answered]

def databaseNamespaces (queries : Queries) (db : Database) :
    Except XBackupError (List String) := do
  let colls ← answered (queries.collectionNames db.name)
    ("failed to list collections (" ++ db.name ++ "): ")
    (db.collections.map Collection.name)
  return (colls.filter fun coll => ¬ startsWith coll "system.").map
    (namespaceOf db.name)

/-- Only a filter of one database and one collection is looked at again. -/
def retained (nsFilter : Option String) (namespaces : List String) :
    List String :=
  match nsFilter with
  | none => namespaces
  | some ns =>
      if '.' ∈ ns.toList ∧ (ns.toList.splitOn '.').length = 2 ∧
          ns.toList.getLast? ≠ some '.' then
        namespaces.filter fun existing => existing = ns
      else namespaces

/-- The user namespaces of a server, system databases and `system.` collections
left out. -/
def userNamespaces (databases : List Database) (queries : Queries)
    (nsFilter : Option String) : Except XBackupError (List String) := do
  let onlyDb := nsFilter.map fun ns => (ns.toList.splitOn '.').headD []
  let dbs ← answered queries.databaseNames "failed to list databases: "
    databases
  let found ← (dbs.filter fun db => db.name ∉ SYSTEM_DBS ∧
    onlyDb.all fun want => db.name.toList = want).mapM
      (databaseNamespaces queries)
  return retained nsFilter (found.flatten.mergeSort fun a b => a ≤ b)

/-- An ordinary collection of the user, in its database. -/
def Ordinary (db : Database) (c : Collection) : Prop :=
  db.name ∉ SYSTEM_DBS ∧ ¬ startsWith c.name "system." ∧
    c.collectionType = .collection

/-- The ordinary collections of a copy. -/
def listTargets (databases : List Database)
    (dbFilter collFilter : Option String) : List (Database × Collection) :=
  (databases.filter fun db => db.name ∉ SYSTEM_DBS ∧
    dbFilter.all fun want => want = db.name).flatMap fun db =>
      (db.collections.filter fun c => ¬ startsWith c.name "system." ∧
        c.collectionType = .collection ∧
        collFilter.all fun want => want = c.name).map (Prod.mk db)

/-- A collection as `write_archive` dumps it. -/
def dumped (target : Database × Collection) : CollectionDump where
  ns := namespaceOf target.1.name target.2.name
  options := target.2.options
  indexes := target.2.indexes
  docs := target.2.docs

/-- A filter is within a collection when it names no other. -/
def Admits (nsFilter : Option String) (ns : String) : Prop :=
  ∀ want, nsFilter = some want → want = ns

theorem toList_namespaceOf (db coll : String) :
    (namespaceOf db coll).toList = db.toList ++ '.' :: coll.toList := by
  simp [namespaceOf]

theorem splitOn_namespaceOf (db : Database) (coll : String) :
    ((namespaceOf db.name coll).toList.splitOn '.').headD [] =
      db.name.toList := by
  rw [toList_namespaceOf, List.splitOn_append_cons_self,
    List.splitOn_eq_singleton db.dotless]
  rfl

theorem namespaceOf_inj {left right : Database} {coll other : String}
    (heq : namespaceOf left.name coll = namespaceOf right.name other) :
    left.name = right.name ∧ coll = other := by
  have hname : left.name = right.name := by
    rw [← String.toList_inj, ← splitOn_namespaceOf left coll, heq,
      splitOn_namespaceOf]
  refine ⟨hname, ?_⟩
  have hchars := congrArg String.toList heq
  rw [toList_namespaceOf, toList_namespaceOf, hname,
    List.append_cancel_left_eq, List.cons_eq_cons] at hchars
  exact String.toList_inj.mp hchars.2

theorem mem_retained {nsFilter : Option String} {ns : String}
    {namespaces : List String} (hadmits : Admits nsFilter ns)
    (hns : ns ∈ namespaces) : ns ∈ retained nsFilter namespaces := by
  cases nsFilter with
  | none => exact hns
  | some want =>
      cases hadmits want rfl
      rw [retained]
      split_ifs
      · exact List.mem_filter.mpr ⟨hns, decide_eq_true rfl⟩
      · exact hns

/-- A listing that succeeds has every user collection that its filter is
within. -/
theorem mem_userNamespaces {databases : List Database} {queries : Queries}
    {nsFilter : Option String} {found : List String} {db : Database}
    {c : Collection} (hlist : userNamespaces databases queries nsFilter =
      .ok found) (hdb : db ∈ databases) (hc : c ∈ db.collections)
    (huser : db.name ∉ SYSTEM_DBS) (hplain : ¬ startsWith c.name "system.")
    (hadmits : Admits nsFilter (namespaceOf db.name c.name)) :
    namespaceOf db.name c.name ∈ found := by
  obtain ⟨dbs, hdbs, hlist⟩ := bind_eq_ok.mp hlist
  obtain ⟨lists, hlists, hlist⟩ := bind_eq_ok.mp hlist
  cases hlist
  obtain ⟨-, rfl⟩ := answered_eq_ok.mp hdbs
  apply mem_retained hadmits
  rw [List.mem_mergeSort, List.mem_flatten]
  have hkept : db ∈ databases.filter fun db => db.name ∉ SYSTEM_DBS ∧
      (nsFilter.map fun ns => (ns.toList.splitOn '.').headD []).all
        fun want => db.name.toList = want := by
    refine List.mem_filter.mpr ⟨hdb, decide_eq_true ⟨huser, ?_⟩⟩
    cases nsFilter with
    | none => rfl
    | some want =>
        cases hadmits want rfl
        exact decide_eq_true (splitOn_namespaceOf db c.name).symm
  obtain ⟨names, hnames, hstep⟩ := mem_of_mapM hlists hkept
  refine ⟨names, hnames, ?_⟩
  obtain ⟨colls, hcolls, hstep⟩ := bind_eq_ok.mp hstep
  cases hstep
  obtain ⟨-, rfl⟩ := answered_eq_ok.mp hcolls
  refine List.mem_map_of_mem (List.mem_filter.mpr ⟨?_, ?_⟩)
  · exact List.mem_map_of_mem hc
  · exact decide_eq_true hplain

theorem mem_listTargets {databases : List Database}
    {dbFilter collFilter : Option String} {target : Database × Collection} :
    target ∈ listTargets databases dbFilter collFilter ↔
      target.1 ∈ databases ∧ target.2 ∈ target.1.collections ∧
        Ordinary target.1 target.2 ∧
        (∀ want, dbFilter = some want → want = target.1.name) ∧
        ∀ want, collFilter = some want → want = target.2.name := by
  simp only [listTargets, Ordinary, List.mem_flatMap, List.mem_map,
    List.mem_filter, Bool.decide_and, Bool.and_eq_true, decide_eq_true_eq,
    Option.all_eq_true]
  constructor
  · rintro ⟨db, ⟨hdb, huser, hwant⟩, c, ⟨hc, hplain, htype, hcoll⟩, rfl⟩
    exact ⟨hdb, hc, ⟨huser, hplain, htype⟩, hwant, hcoll⟩
  · rintro ⟨hdb, hc, ⟨huser, hplain, htype⟩, hwant, hcoll⟩
    exact ⟨target.1, ⟨hdb, huser, hwant⟩, target.2,
      ⟨hc, hplain, htype, hcoll⟩, rfl⟩

theorem splitOnce_namespaceOf (db : Database) (coll : String) :
    splitOnce '.' (namespaceOf db.name coll) = some (db.name, coll) := by
  have hpass : ∀ c ∈ db.name.toList, decide (c ≠ '.') = true :=
    fun c hc => decide_eq_true fun heq => db.dotless (heq ▸ hc)
  rw [splitOnce, toList_namespaceOf, List.span_eq_takeWhile_dropWhile,
    List.takeWhile_append_of_pos hpass, List.dropWhile_append_of_pos hpass,
    List.takeWhile_cons_of_neg (by simp), List.dropWhile_cons_of_neg (by simp),
    List.append_nil]
  simp

end Native

namespace Postgres

def SYSTEM_SCHEMAS : List String :=
  ["pg_catalog", "information_schema", "pg_toast"]

/-- A table; one that is partitioned keeps its rows in others. -/
structure Relation where
  schema : String
  name : String
  partitioned : Bool
deriving DecidableEq

def qualified (schema name : String) : String :=
  schema ++ "." ++ name

/-- `list_tables` of the catalog queries: ordinary tables only. -/
def listOrdinary (tables : List Relation) (schemaFilter : Option String) :
    List Relation :=
  tables.filter fun r => ¬ r.partitioned ∧ r.schema ∉ SYSTEM_SCHEMAS ∧
    schemaFilter.all fun want => r.schema = want

def listQualified (tables : List Relation) : List String :=
  (listOrdinary tables none).map fun r => qualified r.schema r.name

/-- What the query of a dump picks: partitioned tables as well. -/
def picked (schemaFilter tableFilter : Option String) (r : Relation) : Bool :=
  r.schema ∉ SYSTEM_SCHEMAS ∧
    (schemaFilter.all fun want => r.schema = want) ∧
    tableFilter.all fun want => r.name = want

/-- `list_tables` of a dump. -/
def listTables (tables : List Relation)
    (schemaFilter tableFilter : Option String) : List Relation :=
  tables.filter (picked schemaFilter tableFilter)

/-- A table of a database with all that a dump of it carries. -/
structure Table extends Relation where
  parents : List (String × String)
  quoted : String
  schemaQuoted : String
  createSql : String
  constraints : List String
  indexes : List String
  copyCols : List String
  identityCols : List String
  chunks : List (List UInt8)

def Relation.key (r : Relation) : String × String :=
  (r.schema, r.name)

/-- The data that is read: none of a partitioned table, and none where there is
no column to copy. -/
def Table.carried (t : Table) : List (List UInt8) :=
  if t.partitioned || t.copyCols.isEmpty then [] else t.chunks

/-- A table as it is introspected and dumped. -/
def dumped (t : Table) : TableDump where
  ns := qualified t.schema t.name
  quoted := t.quoted
  schema := t.schemaQuoted
  createSql := t.createSql
  constraints := t.constraints
  indexes := t.indexes
  copyCols := t.copyCols
  identityCols := t.identityCols
  chunks := t.carried

end Postgres

namespace Mysql

/-- The tables of a database, under the name of the database. -/
def listQualified (db : String) (tables : List String) : List String :=
  tables.map fun table => db ++ "." ++ table

/-- A table, its rows as the tuples they are dumped as. -/
structure Table where
  name : String
  createSql : String
  insertCols : List String
  rows : List String
  tuples : ∀ row ∈ rows, row ≠ ""

/-- `list_tables` of a dump. -/
def listTables (tables : List Table) (tableFilter : Option String) :
    List Table :=
  tables.filter fun table => tableFilter.all fun want => table.name = want

/-- The rows that are read: none where there is no column to insert into. -/
def Table.carried (table : Table) : List String :=
  if table.insertCols.isEmpty then [] else table.rows

/-- A table of a database as `dump_table` dumps it. -/
def dumped (db : String) (table : Table) : TableDump where
  ns := db ++ "." ++ table.name
  quoted := quoteIdent table.name
  createSql := table.createSql
  insertCols := table.insertCols
  rows := table.carried

end Mysql

end XBackup
