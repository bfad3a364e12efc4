/-
The tables of a MySQL server, the row changes of its transactions with their
images, and what the statements of a replay do to a copy of the tables.
-/
import XBackup.Engine.Mysql.Statements
import XBackup.Foundation.Rows
import XBackup.Foundation.Touching

namespace XBackup

namespace Mysql

open Rows Touching

/-- A value as the literal it is rendered to, which never reads as NULL. -/
def Literal := { text : String // text ≠ "NULL" }
deriving DecidableEq

namespace Literal

def render : Option Literal → String
  | none => "NULL"
  | some value => value.val

def read (text : String) : Option Literal :=
  if htext : text = "NULL" then none else some ⟨text, htext⟩

theorem read_render (value : Option Literal) : read (render value) = value := by
  cases value with
  | none => rfl
  | some value => exact dif_neg value.property

theorem render_eq_null {value : Option Literal} :
    render value = "NULL" ↔ value = none := by
  cases value with
  | none => exact iff_of_true rfl rfl
  | some value => exact iff_of_false value.property nofun

end Literal

/-- A column as the information schema has it. -/
structure Column where
  name : String
  extra : String
  key : String
deriving DecidableEq, Repr

namespace Column

variable (col : Column)

def isVirtual : Bool :=
  contains "VIRTUAL GENERATED" (toAsciiUppercase col.extra)

def isStored : Bool :=
  contains "STORED GENERATED" (toAsciiUppercase col.extra)

def isPk : Bool :=
  col.key == "PRI"

/-- A column with values of its own. -/
def isWritten : Bool :=
  !col.isVirtual && !col.isStored

end Column

/-- A table.  Of the types of its columns it is known which values a unique key
takes as equal, and of which values a condition `c = literal` holds: these need
not be the ones that are the same. -/
structure TableDef where
  name : String
  columns : List Column
  otherKeys : List (List String)
  generate : Row String Literal → String → Option Literal
  equal : String → Literal → Literal → Bool
  holds : String → Literal → Literal → Bool
  names : (columns.map Column.name).Nodup
  equal_refl : ∀ c value, equal c value value = true
  equal_symm : ∀ c left right, equal c left right = true →
    equal c right left = true
  equal_trans : ∀ c left middle right, equal c left middle = true →
    equal c middle right = true → equal c left right = true
  /-- Generated columns are computed from the others. -/
  generate_congr : ∀ left right : Row String Literal,
    (∀ col ∈ columns, col.isWritten = true →
      left col.name = right col.name) →
    generate left = generate right

/-- A change of one row; rows are named by their place, and the values are those
of the columns that are written. -/
inductive RowChange where
  | insert (values : List (Option Literal))
  | update (index : Nat) (values : List (Option Literal))
  | delete (index : Nat)
deriving DecidableEq

namespace TableDef

variable (t : TableDef)

/-- The columns of a row image. -/
def imageColumns : List Column :=
  t.columns.filter fun col => !col.isVirtual

def written : List Column :=
  t.columns.filter Column.isWritten

def writtenNames : List String :=
  t.written.map Column.name

def primaryKey : List String :=
  (t.imageColumns.filter Column.isPk).map Column.name

def rowSchema : Schema String Literal where
  uniqueKeys :=
    (if t.primaryKey = [] then [] else [t.primaryKey]) ++ t.otherKeys
  notNull := t.primaryKey
  generatedAlways :=
    (t.columns.filter fun col => !col.isWritten).map Column.name
  equal := t.equal
  equal_refl := t.equal_refl
  equal_symm := t.equal_symm
  equal_trans := t.equal_trans

/-- A row with its generated columns computed. -/
def complete (row : Row String Literal) : Row String Literal :=
  fun c => if c ∈ t.rowSchema.generatedAlways then t.generate row c else row c

def inserted (values : List (Option Literal)) : Row String Literal :=
  t.complete (assign (fun _ => none) (t.writtenNames.zip values))

def updated (old : Row String Literal) (values : List (Option Literal)) :
    Row String Literal :=
  t.complete (assign old (t.writtenNames.zip values))

/-- A change on the source, which the constraints of the table allow. -/
def sourceRows (rows : List (Row String Literal)) :
    RowChange → Option (List (Row String Literal))
  | .insert values =>
      if values.length = t.written.length then
        checked t.rowSchema (rows ++ [t.inserted values])
      else none
  | .update index values =>
      match rows[index]? with
      | none => none
      | some old =>
          if values.length = t.written.length then
            checked t.rowSchema (rows.set index (t.updated old values))
          else none
  | .delete index =>
      match rows[index]? with
      | none => none
      | some _ => checked t.rowSchema (rows.eraseIdx index)

def image (row : Row String Literal) : List String :=
  t.imageColumns.map fun col => Literal.render (row col.name)

/-- The change that is captured of a change of the source. -/
def captured (db : String) (micros : Int64) (rows : List (Row String Literal)) :
    RowChange → Change
  | .insert values =>
      ⟨.insert, db, t.name, [], t.image (t.inserted values), micros⟩
  | .update index values =>
      let old := rows.getD index fun _ => none
      ⟨.update, db, t.name, t.image old, t.image (t.updated old values), micros⟩
  | .delete index =>
      ⟨.delete, db, t.name, t.image (rows.getD index fun _ => none), [], micros⟩

def informationSchema : List (String × String × String) :=
  t.columns.map fun col => (col.name, col.extra, col.key)

/-- The columns as the replay is told of them. -/
def colInfos : List ColInfo :=
  t.imageColumns.map fun col => ⟨col.name, col.isStored, col.isPk⟩

section Statements

/-- `c IS NULL`, or `c = literal`. -/
def cellHolds (row : Row String Literal) (cell : String × String) : Bool :=
  match Literal.read cell.2, row cell.1 with
  | none, value => value.isNone
  | some _, none => false
  | some literal, some value => t.holds cell.1 value literal

def found (keys : List (String × String)) (row : Row String Literal) : Bool :=
  keys.all (t.cellHolds row)

def readCells (cells : List (String × String)) :
    List (String × Option Literal) :=
  cells.map fun cell => (cell.1, Literal.read cell.2)

/-- The place of the row that a new one duplicates: by the first key that has
such a row. -/
def duplicate (rows : List (Row String Literal)) (new : Row String Literal) :
    Option Nat :=
  t.rowSchema.uniqueKeys.findSome? fun key =>
    rows.findIdx? fun row => sameKey t.rowSchema key row new

def setRow (sets : List (String × Option Literal)) (row : Row String Literal) :
    Row String Literal :=
  t.complete (assign row sets)

/-- The rows behind a statement; `none` when it is rejected.  A condition that
names no column is no statement, and no generated column may be written. -/
def exec (rows : List (Row String Literal)) :
    Dml → Option (List (Row String Literal))
  | .insert _ values updated =>
      if values.any fun cell => cell.1 ∈ t.rowSchema.generatedAlways then none
      else
        let new := t.setRow (readCells values) fun _ => none
        match t.duplicate rows new with
        | none => checked t.rowSchema (rows ++ [new])
        | some index =>
            if updated = [] then some rows
            else checked t.rowSchema
              (rows.modify index (t.setRow (cells updated new)))
  | .update _ sets keys limited =>
      if keys = [] then none
      else if sets.any fun cell => cell.1 ∈ t.rowSchema.generatedAlways then
        none
      else checked t.rowSchema
        (touch limited (t.found keys) (some ∘ t.setRow (readCells sets)) rows)
  | .delete _ keys limited =>
      if keys = [] then none
      else checked t.rowSchema (touch limited (t.found keys) (fun _ => none)
        rows)

/-- How many rows a statement touches; one for an INSERT. -/
def rowsTouched (rows : List (Row String Literal)) : Dml → Nat
  | .insert _ _ _ => 1
  | .update _ _ keys limited => touched limited (t.found keys) rows
  | .delete _ keys limited => touched limited (t.found keys) rows

end Statements

end TableDef

theorem targetColumns_eq {σ : Type} {target : Target σ} {t : TableDef}
    (hcolumns : target.columns t.name = .ok t.informationSchema) :
    targetColumns target t.name = .ok t.colInfos := by
  simp only [targetColumns, hcolumns, TableDef.informationSchema,
    TableDef.colInfos, TableDef.imageColumns, List.filter_map, List.map_map]
  rfl

/-- The tables of the database that is backed up; no name repeats. -/
structure Tables where
  defs : List TableDef
  names : (defs.map TableDef.name).Nodup

def Tables.find (tables : Tables) (name : String) : Option TableDef :=
  tables.defs.find? fun t => t.name = name

abbrev Database := String → List (Row String Literal)

/-- A change of a row of a table, with the time of its commit. -/
structure SourceEvent where
  table : String
  micros : Int64
  change : RowChange

def serverStep (tables : Tables) (db : Database) (event : SourceEvent) :
    Option Database :=
  (tables.find event.table).bind fun t =>
    (t.sourceRows (db event.table) event.change).map
      (Function.update db event.table)

/-- The changes that are captured of a run. -/
def capturedRun (tables : Tables) (dbName : String) (db : Database) :
    List SourceEvent → List Change
  | [] => []
  | event :: rest =>
      match tables.find event.table, serverStep tables db event with
      | some t, some next =>
          t.captured dbName event.micros (db event.table) event.change ::
            capturedRun tables dbName next rest
      | _, _ => []

end Mysql

end XBackup
