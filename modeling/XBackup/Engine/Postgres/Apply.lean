/-
The replay of a PostgreSQL increment: every change becomes a statement on the
row its key columns name.
-/
import XBackup.Engine.Postgres.Pgoutput
import XBackup.Foundation.MemoTable

namespace XBackup

namespace Postgres

open MemoTable

structure ColMeta where
  casttype : String
  generatedAlways : Bool
deriving DecidableEq, Repr

/-- A column with the value bound to it. -/
structure Bound where
  name : String
  casttype : String
  value : Option String
deriving DecidableEq, Repr

/-- A statement with its parameters.  The parameters of an INSERT are the values
of the tuple as they came. -/
inductive Dml where
  | insert (schema table : String) (columns : List (String × String))
      (values : List (Option String)) (conflict updated : List String)
  | update (schema table : String) (sets keys : List Bound)
  | delete (schema table : String) (keys : List Bound)
deriving DecidableEq, Repr

def quoteIdent (name : String) : String :=
  "\"" ++ String.ofList (name.toList.flatMap fun c =>
    if c = '"' then [c, c] else [c]) ++ "\""

namespace Dml

def placeholder (i : Nat) (casttype : String) : String :=
  "$" ++ toString (i + 1) ++ "::text::" ++ casttype

/-- `"c" = $i::text::type`, numbered from `first` on. -/
def assignments (first : Nat) (bound : List Bound) : List String :=
  bound.zipIdx.map fun (cell, i) =>
    quoteIdent cell.name ++ " = " ++ placeholder (first + i) cell.casttype

def qualified (schema table : String) : String :=
  quoteIdent schema ++ "." ++ quoteIdent table

/-- The text of a statement. -/
def sql : Dml → String
  | .insert schema table columns _ conflict updated =>
      let collist := ", ".intercalate
        (columns.map fun col => quoteIdent col.1)
      let vals := ", ".intercalate
        (columns.zipIdx.map fun (col, i) => placeholder i col.2)
      let keylist := ", ".intercalate (conflict.map quoteIdent)
      let setlist := ", ".intercalate (updated.map fun name =>
        quoteIdent name ++ " = EXCLUDED." ++ quoteIdent name)
      "INSERT INTO " ++ qualified schema table ++ " (" ++ collist ++
        ") OVERRIDING SYSTEM VALUE VALUES (" ++ vals ++ ")" ++
        if conflict.isEmpty then ""
        else if updated.isEmpty then
          " ON CONFLICT (" ++ keylist ++ ") DO NOTHING"
        else
          " ON CONFLICT (" ++ keylist ++ ") DO UPDATE SET " ++ setlist
  | .update schema table sets keys =>
      "UPDATE " ++ qualified schema table ++ " SET " ++
        ", ".intercalate (assignments 0 sets) ++ " WHERE " ++
        " AND ".intercalate (assignments sets.length keys)
  | .delete schema table keys =>
      "DELETE FROM " ++ qualified schema table ++ " WHERE " ++
        " AND ".intercalate (assignments 0 keys)

def params : Dml → List (Option String)
  | .insert _ _ _ values _ _ => values
  | .update _ _ sets keys => (sets ++ keys).map Bound.value
  | .delete _ _ keys => keys.map Bound.value

end Dml

/-- The statement of a change; none if there is nothing to set, or no key to
find the row by. -/
def buildDml (c : Change) (cols : List ColMeta) : Option Dml :=
  if c.colnames.length ≠ cols.length then none
  else
    let name := fun i => c.colnames.getD i ""
    let col := fun i => cols.getD i ⟨"", false⟩
    let bound := fun (values : List (Option String)) i =>
      Bound.mk (name i) (col i).casttype (values.getD i none)
    let positions := List.range c.colnames.length
    let keyPositions := (List.range c.keycols.length).filter fun i =>
      c.keycols.getD i false
    match c.op with
    | .insert =>
        let updated := positions.filter fun i =>
          !keyPositions.contains i && !(col i).generatedAlways
        some (.insert c.schema c.table
          (positions.map fun i => (name i, (col i).casttype)) c.newVals
          (keyPositions.map name) (updated.map name))
    | .update =>
        if keyPositions.isEmpty then none
        else
          -- without an old tuple the key did not change
          let keysrc :=
            if c.keyVals.length = c.colnames.length then c.keyVals
            else c.newVals
          let set := (positions.filter fun i => !(col i).generatedAlways).filter
            fun i => !c.newUnchanged.getD i false
          if set.isEmpty then none
          else some (.update c.schema c.table (set.map (bound c.newVals))
            (keyPositions.map (bound keysrc)))
    | .delete =>
        if keyPositions.isEmpty then none
        else some (.delete c.schema c.table
          (keyPositions.map (bound c.keyVals)))

/-- The server restored to: the columns of its tables, each with type and
whether it is GENERATED ALWAYS, and what a statement does to its rows. -/
structure Client (σ : Type) where
  columns : String → String → Except String (List (String × ColMeta))
  execute : σ → Dml → Except String σ

section Apply

variable {σ : Type} (client : Client σ)

def columnMetaMap (relation : String × String) :
    Except XBackupError (List (String × ColMeta)) :=
  match client.columns relation.1 relation.2 with
  | .ok columns => .ok columns
  | .error e => .error (.failure
      (relation.1 ++ "." ++ relation.2 ++
        ": failed to query column metadata: " ++ e))

/-- The columns of the target in the order of the stream. -/
def targetColumns (c : Change) (map : List (String × ColMeta)) :
    Except XBackupError (List ColMeta) :=
  c.colnames.mapM fun name =>
    match map.lookup name with
    | some found => .ok found
    | none => .error (.failure
        (c.schema ++ "." ++ c.table ++
          " incremental apply: target is missing column '" ++ name ++
          "' (schema mismatch)"))

structure ApplyState (σ : Type) where
  server : σ
  metaCache : Table (String × String) (List (String × ColMeta))
  applied : Nat

def applyChange (maxCommitMicros : Option Int64) (st : ApplyState σ)
    (c : Change) : Except XBackupError (ApplyState σ) :=
  if maxCommitMicros.any fun max => max < c.commitUnixMicros then .ok st
  else
    match tryFetch (columnMetaMap client) st.metaCache (c.schema, c.table) with
    | .error err => .error err
    | .ok (map, metaCache) =>
        match targetColumns c map with
        | .error err => .error err
        | .ok cols =>
            match buildDml c cols with
            | none => .ok { st with metaCache := metaCache }
            | some dml =>
                match client.execute st.server dml with
                | .error e => .error (.failure
                    (c.schema ++ "." ++ c.table ++
                      " incremental apply failed: " ++ e ++ "\n SQL: " ++
                      dml.sql))
                | .ok server =>
                    .ok ⟨server, metaCache, st.applied + 1⟩

/-- The changes of an archive, applied in their order. -/
def apply (maxCommitMicros : Option Int64) (server : σ)
    (changes : List Change) : Except XBackupError (ApplyState σ) :=
  changes.foldlM (applyChange client maxCommitMicros) ⟨server, [], 0⟩

end Apply

/-- The changes that a capture writes of the messages of its slot. -/
def captureChanges (d : Decoder) :
    List (List UInt8) → Except Halt (List Change)
  | [] => .ok []
  | data :: rest =>
      match d.feed data with
      | .error halt => .error halt
      | .ok (some change, next) =>
          (captureChanges next rest).map fun changes => change :: changes
      | .ok (none, next) => captureChanges next rest

end Postgres

end XBackup
