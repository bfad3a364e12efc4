/-
The statements of a MySQL replay as what they say, and their texts.
-/
import XBackup.Engine.Mysql.Apply

namespace XBackup

namespace Mysql

/-- A statement on a table of the current database; the values are literals.  An
INSERT that updates nothing ignores a row that is there. -/
inductive Dml where
  | insert (table : String) (values : List (String × String))
      (updated : List String)
  | update (table : String) (sets keys : List (String × String))
      (limited : Bool)
  | delete (table : String) (keys : List (String × String)) (limited : Bool)
deriving DecidableEq, Repr

namespace Dml

def table : Dml → String
  | .insert table _ _ => table
  | .update table _ _ _ => table
  | .delete table _ _ => table

def condition (keys : List (String × String)) (limited : Bool) : String :=
  " AND ".intercalate (keys.map fun cell =>
    eqPredicate (quoteIdent cell.1) cell.2) ++
      if limited then " LIMIT 1" else ""

def sql : Dml → String
  | .insert table values updated =>
      let into := quoteIdent table ++ " (" ++
        ", ".intercalate (values.map fun cell => quoteIdent cell.1) ++
        ") VALUES (" ++ ", ".intercalate (values.map Prod.snd) ++ ")"
      if updated.isEmpty then "INSERT IGNORE INTO " ++ into
      else "INSERT INTO " ++ into ++ " ON DUPLICATE KEY UPDATE " ++
        ", ".intercalate (updated.map fun name =>
          quoteIdent name ++ "=VALUES(" ++ quoteIdent name ++ ")")
  | .update table sets keys limited =>
      "UPDATE " ++ quoteIdent table ++ " SET " ++
        ", ".intercalate (sets.map fun cell =>
          quoteIdent cell.1 ++ " = " ++ cell.2) ++
        " WHERE " ++ condition keys limited
  | .delete table keys limited =>
      "DELETE FROM " ++ quoteIdent table ++ " WHERE " ++ condition keys limited

end Dml

/-- The columns a row is found by, with their values before. -/
def keyCells (change : Change) (cols : List ColInfo) :
    List (String × String) :=
  ((cols.zip change.before).filter fun cell =>
    if hasPk cols then cell.1.isPk else !cell.1.generated).map fun cell =>
      (cell.1.name, cell.2)

/-- The columns that are written, with their values behind. -/
def writtenCells (change : Change) (cols : List ColInfo) :
    List (ColInfo × String) :=
  (cols.zip change.after).filter fun cell => !cell.1.generated

def namedCells (cells : List (ColInfo × String)) : List (String × String) :=
  cells.map fun cell => (cell.1.name, cell.2)

/-- What the statement of a change says. -/
def dml (change : Change) (cols : List ColInfo) : Option Dml :=
  let written := writtenCells change cols
  match change.op with
  | .insert =>
      if change.after.length ≠ cols.length then none
      else if written.isEmpty then none
      else some (.insert change.table (namedCells written)
        ((written.filter fun cell => !cell.1.isPk).map fun cell =>
          cell.1.name))
  | .update =>
      if change.after.length ≠ cols.length ∨
          change.before.length ≠ cols.length then none
      else if written.isEmpty then none
      else some (.update change.table (namedCells written)
        (keyCells change cols) !hasPk cols)
  | .delete =>
      if change.before.length ≠ cols.length then none
      else some (.delete change.table (keyCells change cols) !hasPk cols)

theorem condition_keyCells (change : Change) (cols : List ColInfo) :
    Dml.condition (keyCells change cols) (!hasPk cols) =
      whereClause change cols ++ if hasPk cols then "" else " LIMIT 1" := by
  cases hpk : hasPk cols <;>
    simp [Dml.condition, keyCells, whereClause, hpk, Function.comp_def]

/-- The text that is executed is that of the statement. -/
theorem buildDml_eq_sql (change : Change) (cols : List ColInfo) :
    buildDml change cols = (dml change cols).map Dml.sql := by
  rw [buildDml, dml]
  dsimp only
  rw [← writtenCells]
  cases change.op with
  | insert =>
      dsimp only
      split
      next => rfl
      next =>
        split
        next => rfl
        next =>
          simp only [Option.map_some, Dml.sql, namedCells, List.map_map,
            List.isEmpty_map, Function.comp_def]
          split
          next => simp [String.append_assoc]
          next => simp [String.append_assoc]
  | update =>
      dsimp only
      split
      next => rfl
      next =>
        split
        next => rfl
        next =>
          simp only [Option.map_some, Dml.sql, condition_keyCells, namedCells,
            List.map_map, Function.comp_def, String.append_assoc]
  | delete =>
      dsimp only
      split
      next => rfl
      next =>
        simp only [Option.map_some, Dml.sql, condition_keyCells,
          String.append_assoc]

end Mysql

end XBackup
