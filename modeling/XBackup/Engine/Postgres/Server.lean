/-
The tables of a PostgreSQL server, the row changes of its transactions with the
messages it sends of them, and what the statements of a replay do to a copy.
-/
import XBackup.Engine.Postgres.Apply
import XBackup.Engine.Postgres.Messages
import XBackup.Foundation.Rows

namespace XBackup

namespace Postgres

open Rows

structure Column where
  name : String
  casttype : String
  generatedAlways : Bool
  inPrimaryKey : Bool
  typeOid : Nat
  typeModifier : Nat
deriving DecidableEq, Repr

inductive Identity where
  | primaryKey
  | full
deriving DecidableEq, Repr

/-- A table with its replica identity; of the types of its columns only what
they take as equal is known. -/
structure TableDef where
  oid : Nat
  schema : String
  table : String
  columns : List Column
  identity : Identity
  otherKeys : List (List String)
  equal : String → String → String → Bool
  equal_refl : ∀ c value, equal c value value = true
  equal_symm : ∀ c left right, equal c left right = true →
    equal c right left = true
  equal_trans : ∀ c left middle right, equal c left middle = true →
    equal c middle right = true → equal c left right = true
  oid_lt : oid < 2 ^ 32
  names : (columns.map Column.name).Nodup
  hasKey : identity = .primaryKey → ∃ col ∈ columns, col.inPrimaryKey = true

namespace TableDef

variable (t : TableDef)

def relation : String × String := (t.schema, t.table)

def colnames : List String := t.columns.map Column.name

def primaryKey : List String :=
  (t.columns.filter Column.inPrimaryKey).map Column.name

/-- The columns a server flags as part of the replica identity. -/
def flags (col : Column) : Bool :=
  match t.identity with
  | .primaryKey => col.inPrimaryKey
  | .full => true

def flagged : List String :=
  (t.columns.filter t.flags).map Column.name

def rowSchema : Schema String String where
  uniqueKeys :=
    (if t.primaryKey = [] then [] else [t.primaryKey]) ++ t.otherKeys
  notNull := t.primaryKey
  generatedAlways :=
    (t.columns.filter Column.generatedAlways).map Column.name
  equal := t.equal
  equal_refl := t.equal_refl
  equal_symm := t.equal_symm
  equal_trans := t.equal_trans

end TableDef

/-- The tables of a database; neither their oids nor their names repeat. -/
structure Tables where
  defs : List TableDef
  oids : (defs.map TableDef.oid).Nodup
  relations : (defs.map TableDef.relation).Nodup

def Tables.find (tables : Tables) (relation : String × String) :
    Option TableDef :=
  tables.defs.find? fun t => t.relation = relation

abbrev Database := String × String → List (Row String String)

/-- A change of one row; rows are named by their place.  An update says which
values it did not send, being out of line and unchanged, and whether it sent
the old key. -/
inductive RowChange where
  | insert (values : List (Option String))
  | update (index : Nat) (values : List (Option String))
      (toasted : List String) (sendsKey : Bool)
  | delete (index : Nat)
deriving DecidableEq, Repr

namespace TableDef

variable (t : TableDef)

def inserted (values : List (Option String)) : Row String String :=
  assign (fun _ => none) (t.colnames.zip values)

def updated (old : Row String String) (values : List (Option String)) :
    Row String String :=
  assign old (t.colnames.zip values)

/-- The old key is sent when it changes, or when part of it would not be sent
with the new row. -/
def keyNeeded (old new : Row String String) (toasted : List String) : Bool :=
  t.primaryKey.any fun c => new c ≠ old c ∨ c ∈ toasted

/-- A change on the source, which the constraints of the table allow. -/
def sourceRows (rows : List (Row String String)) :
    RowChange → Option (List (Row String String))
  | .insert values =>
      if values.length = t.columns.length then
        checked t.rowSchema (rows ++ [t.inserted values])
      else none
  | .update index values toasted sendsKey =>
      match rows[index]? with
      | none => none
      | some old =>
          let new := t.updated old values
          if values.length = t.columns.length ∧
              (∀ c ∈ toasted, new c = old c) ∧
              (t.keyNeeded old new toasted = true → sendsKey = true) then
            checked t.rowSchema (rows.set index new)
          else none
  | .delete index =>
      match rows[index]? with
      | none => none
      | some _ => checked t.rowSchema (rows.eraseIdx index)

theorem admits_of_sourceRows {rows next : List (Row String String)}
    {change : RowChange} (hsource : t.sourceRows rows change = some next) :
    admits t.rowSchema next = true := by
  have hchecked : ∀ rows', checked t.rowSchema rows' = some next →
      admits t.rowSchema next = true := by
    intro rows' hrows'
    obtain ⟨hadmits, rfl⟩ := checked_eq_some.mp hrows'
    exact hadmits
  cases change with
  | insert values =>
      simp only [sourceRows] at hsource
      split at hsource
      next => exact hchecked _ hsource
      next => cases hsource
  | update index values toasted sendsKey =>
      simp only [sourceRows] at hsource
      split at hsource
      next => cases hsource
      next =>
        split at hsource
        next => exact hchecked _ hsource
        next => cases hsource
  | delete index =>
      simp only [sourceRows] at hsource
      split at hsource
      next => cases hsource
      next => exact hchecked _ hsource

def columnData : Option String → ColumnData
  | none => .null
  | some value => .text value

def tupleOf (row : Row String String) : List ColumnData :=
  t.columns.map fun col => columnData (row col.name)

def keyTuple (row : Row String String) : List ColumnData :=
  t.columns.map fun col =>
    if col.inPrimaryKey then columnData (row col.name) else .null

def oldTuple (old : Row String String) : OldTuple × List ColumnData :=
  match t.identity with
  | .primaryKey => (.key, t.keyTuple old)
  | .full => (.full, t.tupleOf old)

def newTuple (new : Row String String) (toasted : List String) :
    List ColumnData :=
  t.columns.map fun col =>
    if col.name ∈ toasted then .unchanged else columnData (new col.name)

/-- The message of a change, as the server writes it. -/
def changeMessage (rows : List (Row String String)) : RowChange → Message
  | .insert values => .insert t.oid (t.tupleOf (t.inserted values))
  | .update index values toasted sendsKey =>
      let old := rows.getD index fun _ => none
      .update t.oid
        (if t.identity = .full ∨ sendsKey then some (t.oldTuple old) else none)
        (t.newTuple (t.updated old values) toasted)
  | .delete index =>
      let (kind, old) := t.oldTuple (rows.getD index fun _ => none)
      .delete t.oid kind old

def relationMessage : Message :=
  .relation t.oid t.schema t.table
    (match t.identity with
      | .primaryKey => Cur.byte 'd'
      | .full => Cur.byte 'f')
    (t.columns.map fun col =>
      ⟨t.flags col, col.name, col.typeOid, col.typeModifier⟩)

end TableDef

/-- What a server does and sends. -/
inductive ServerEvent where
  | begin_ (finalLsn : Nat) (commitTs : Int64) (xid : Nat)
  | commit (body : List UInt8)
  | other (tag : UInt8) (body : List UInt8)
  | change (relation : String × String) (change : RowChange)
deriving DecidableEq, Repr

def serverStep (tables : Tables) (db : Database) :
    ServerEvent → Option Database
  | .change relation change =>
      (tables.find relation).bind fun t =>
        (t.sourceRows (db relation) change).map fun rows =>
          Function.update db relation rows
  | _ => some db

/-- The messages of one event: a relation is told once, before its first
change. -/
def eventMessages (tables : Tables) (db : Database) (sent : List Nat) :
    ServerEvent → List Message
  | .begin_ finalLsn commitTs xid => [.begin_ finalLsn commitTs xid]
  | .commit body => [.commit body]
  | .other tag body => [.other tag body]
  | .change relation change =>
      match tables.find relation with
      | none => []
      | some t =>
          (if t.oid ∈ sent then [] else [t.relationMessage]) ++
            [t.changeMessage (db relation) change]

def sentBehind (tables : Tables) (sent : List Nat) : ServerEvent → List Nat
  | .change relation _ =>
      match tables.find relation with
      | none => sent
      | some t => t.oid :: sent
  | _ => sent

/-- The messages of a run. -/
def messages (tables : Tables) (db : Database) (sent : List Nat) :
    List ServerEvent → List Message
  | [] => []
  | event :: rest =>
      eventMessages tables db sent event ++
        match serverStep tables db event with
        | none => []
        | some next => messages tables next (sentBehind tables sent event) rest

section Target

def Dml.relation : Dml → String × String
  | .insert schema table _ _ _ _ => (schema, table)
  | .update schema table _ _ => (schema, table)
  | .delete schema table _ => (schema, table)

def Bound.cell (bound : Bound) : String × Option String :=
  (bound.name, bound.value)

/-- A statement as the server takes it; an INSERT needs a parameter for each
column. -/
def Dml.statement : Dml → Option (Statement String String)
  | .insert _ _ columns values conflict updated =>
      if values.length = columns.length then
        some (.insert ((columns.map Prod.fst).zip values) conflict updated)
      else none
  | .update _ _ sets keys =>
      some (.update (sets.map Bound.cell) (keys.map Bound.cell))
  | .delete _ _ keys => some (.delete (keys.map Bound.cell))

/-- A copy of the tables, which the statements are executed on. -/
def copyOf (tables : Tables) : Client Database where
  columns schema table :=
    match tables.find (schema, table) with
    | none => .error "relation does not exist"
    | some t => .ok (t.columns.map fun col =>
        (col.name, ⟨col.casttype, col.generatedAlways⟩))
  execute db dml :=
    match tables.find dml.relation, dml.statement with
    | some t, some statement =>
        match exec t.rowSchema (db dml.relation) statement with
        | some rows => .ok (Function.update db dml.relation rows)
        | none => .error "statement rejected"
    | _, _ => .error "statement rejected"

end Target

end Postgres

end XBackup
