/-
What a replay makes of a copy of the source: when each change of the source is
made there too, and every run of such changes.
-/
import XBackup.Engine.Mysql.Server
import XBackup.Foundation.Transition

namespace XBackup

namespace Mysql

open Rows Touching Transition

namespace TableDef

variable (t : TableDef)

/-- The columns a row is found by. -/
def keyColumns : List Column :=
  if t.primaryKey = [] then t.written else t.imageColumns.filter Column.isPk

def cellsOf (columns : List Column) (row : Row String Literal) :
    List (String × String) :=
  columns.map fun col => (col.name, Literal.render (row col.name))

/-- The columns an INSERT sets in a row that is there. -/
def upserted : List String :=
  (t.written.filter fun col => !col.isPk).map Column.name

/-- The statement of a change. -/
def statement (rows : List (Row String Literal)) : RowChange → Dml
  | .insert values =>
      .insert t.name (cellsOf t.written (t.inserted values)) t.upserted
  | .update index values =>
      let old := rows.getD index fun _ => none
      .update t.name (cellsOf t.written (t.updated old values))
        (cellsOf t.keyColumns old) (t.primaryKey = [])
  | .delete index =>
      .delete t.name
        (cellsOf t.keyColumns (rows.getD index fun _ => none))
        (t.primaryKey = [])

/-- The condition of a statement finds the row, and no other; without a primary
key others may be found that are the same. -/
def FindsOnly (rows : List (Row String Literal)) (index : Nat)
    (old : Row String Literal) : Prop :=
  t.found (cellsOf t.keyColumns old) old = true ∧
    ∀ other ∈ rows.eraseIdx index,
      t.found (cellsOf t.keyColumns old) other = true →
        t.primaryKey = [] ∧ other = old

/-- When a change is replayed as it was made. -/
def Replayable (rows : List (Row String Literal)) : RowChange → Prop
  | .insert _ => t.written ≠ []
  | .update index _ =>
      t.written ≠ [] ∧
        ∀ old, rows[index]? = some old → t.FindsOnly rows index old
  | .delete index =>
      t.keyColumns ≠ [] ∧
        ∀ old, rows[index]? = some old → t.FindsOnly rows index old

end TableDef

section Statements

variable {t : TableDef} {db : String} {micros : Int64}
  {rows : List (Row String Literal)} {old new : Row String Literal}

theorem hasPk_colInfos :
    hasPk t.colInfos = !decide (t.primaryKey = []) := by
  rw [Bool.eq_iff_iff, hasPk, TableDef.colInfos, TableDef.primaryKey]
  simp [List.filter_eq_nil_iff]

theorem zip_image (row : Row String Literal) :
    t.colInfos.zip (t.image row) =
      t.imageColumns.map fun col =>
        (⟨col.name, col.isStored, col.isPk⟩,
          Literal.render (row col.name)) := by
  rw [TableDef.colInfos, TableDef.image, List.zip_map']

theorem filter_imageColumns :
    t.imageColumns.filter (fun col => !col.isStored) = t.written := by
  rw [TableDef.imageColumns, TableDef.written, List.filter_filter]
  refine List.filter_congr fun col _ => ?_
  rw [Column.isWritten, Bool.and_comm]

theorem keyCells_image {change : Change} (hbefore : change.before = t.image old) :
    keyCells change t.colInfos = TableDef.cellsOf t.keyColumns old := by
  rw [keyCells, hbefore, zip_image, hasPk_colInfos, TableDef.cellsOf,
    TableDef.keyColumns, List.filter_map, List.map_map]
  by_cases hkey : t.primaryKey = []
  · simp [hkey, Function.comp_def, filter_imageColumns]
  · simp [hkey, Function.comp_def]

theorem writtenCells_image {change : Change}
    (hafter : change.after = t.image new) :
    writtenCells change t.colInfos = t.written.map fun col =>
      (⟨col.name, col.isStored, col.isPk⟩, Literal.render (new col.name)) := by
  rw [writtenCells, hafter, zip_image, List.filter_map]
  exact congrArg (List.map _) filter_imageColumns

theorem namedCells_writtenCells {change : Change}
    (hafter : change.after = t.image new) :
    namedCells (writtenCells change t.colInfos) =
      TableDef.cellsOf t.written new := by
  rw [namedCells, writtenCells_image hafter, List.map_map]
  rfl

theorem writtenCells_isEmpty {change : Change}
    (hafter : change.after = t.image new) (hwritten : t.written ≠ []) :
    ¬ (writtenCells change t.colInfos).isEmpty = true := by
  rw [writtenCells_image hafter, List.isEmpty_map, List.isEmpty_iff]
  exact hwritten

theorem upserted_eq {change : Change} (hafter : change.after = t.image new) :
    ((writtenCells change t.colInfos).filter fun cell => !cell.1.isPk).map
        (fun cell => cell.1.name) = t.upserted := by
  rw [writtenCells_image hafter, List.filter_map, List.map_map]
  rfl

theorem length_image (row : Row String Literal) :
    ¬ (t.image row).length ≠ t.colInfos.length := by
  simp [TableDef.image, TableDef.colInfos]

/-- Every change yields its statement, if a column is written at all. -/
theorem dml_captured {change : RowChange}
    (hwritten : t.written ≠ [] ∨ ∃ index, change = .delete index) :
    dml (t.captured db micros rows change) t.colInfos =
      some (t.statement rows change) := by
  cases change with
  | insert values =>
      have hsome : t.written ≠ [] := by simpa using hwritten
      have hafter : (t.captured db micros rows (.insert values)).after =
        t.image (t.inserted values) := rfl
      simp only [dml, namedCells_writtenCells hafter, upserted_eq hafter,
        writtenCells_isEmpty hafter hsome]
      simp only [TableDef.captured, length_image, Bool.false_eq_true, if_false]
      rfl
  | update index values =>
      have hsome : t.written ≠ [] := by simpa using hwritten
      have hafter : (t.captured db micros rows (.update index values)).after =
        t.image (t.updated (rows.getD index fun _ => none) values) := rfl
      have hbefore : (t.captured db micros rows
        (.update index values)).before =
          t.image (rows.getD index fun _ => none) := rfl
      simp only [dml, namedCells_writtenCells hafter, hasPk_colInfos,
        writtenCells_isEmpty hafter hsome, keyCells_image hbefore,
        Bool.not_not]
      simp only [TableDef.captured, length_image, Bool.false_eq_true, or_self,
        if_false]
      rfl
  | delete index =>
      have hbefore : (t.captured db micros rows (.delete index)).before =
          t.image (rows.getD index fun _ => none) := rfl
      simp only [dml, hasPk_colInfos, keyCells_image hbefore, Bool.not_not]
      simp only [TableDef.captured, length_image, if_false]
      rfl

end Statements

section Execution

variable {t : TableDef} {rows scanned next : List (Row String Literal)}
  {old new : Row String Literal}

theorem readCells_cellsOf {columns : List Column} :
    TableDef.readCells (TableDef.cellsOf columns new) =
      cells (columns.map Column.name) new := by
  simp [TableDef.readCells, TableDef.cellsOf, cells, Literal.read_render,
    Function.comp_def]

theorem writtenNames_notMem {c : String} (hc : c ∈ t.writtenNames) :
    c ∉ t.rowSchema.generatedAlways := by
  obtain ⟨col, hcol, rfl⟩ := List.mem_map.mp hc
  obtain ⟨hmem, hwritten⟩ := List.mem_filter.mp hcol
  intro hgenerated
  obtain ⟨other, hother, hname⟩ := List.mem_map.mp hgenerated
  obtain ⟨hotherMem, hnot⟩ := List.mem_filter.mp hother
  have hsame : other = col :=
    List.inj_on_of_nodup_map t.names hotherMem hmem hname
  rw [hsame, hwritten] at hnot
  cases hnot

theorem sets_allowed :
    ¬ ((TableDef.cellsOf t.written new).any fun cell =>
      decide (cell.1 ∈ t.rowSchema.generatedAlways)) = true := by
  rw [List.any_eq_true]
  rintro ⟨cell, hcell, hgenerated⟩
  obtain ⟨col, hcol, rfl⟩ := List.mem_map.mp hcell
  exact writtenNames_notMem (List.mem_map_of_mem hcol)
    (of_decide_eq_true hgenerated)

/-- Writing the values of the new row into the old one makes the new one. -/
theorem setRow_updated (values : List (Option Literal)) :
    t.setRow (cells t.writtenNames (t.updated old values)) old =
      t.updated old values := by
  have hwritten : ∀ c ∈ t.writtenNames, t.updated old values c =
      assign old (t.writtenNames.zip values) c := fun c hc =>
    if_neg (writtenNames_notMem hc)
  have hassign : assign old (cells t.writtenNames (t.updated old values)) =
      assign old (t.writtenNames.zip values) := by
    funext c
    rw [assign_cells]
    split
    next hc => exact hwritten c hc
    next hc => exact (assign_of_notMem hc).symm
  rw [TableDef.setRow, hassign]
  rfl

/-- No row is in the way of a new one that the table admits. -/
theorem duplicate_eq_none
    (hadmits : admits t.rowSchema (scanned ++ [new]) = true) :
    t.duplicate scanned new = none := by
  rw [TableDef.duplicate, List.findSome?_eq_none_iff]
  intro key hkey
  rw [List.findIdx?_eq_none_iff]
  intro row hrow
  have hpairs := (admits_iff.mp hadmits).1 key hkey
  rw [List.pairwise_append] at hpairs
  exact hpairs.2.2 row hrow new (List.mem_singleton_self new)

theorem perm_cons_eraseIdx {index : Nat} (hold : rows[index]? = some old) :
    rows.Perm (old :: rows.eraseIdx index) ∧
      ∀ new : Row String Literal,
        (new :: rows.eraseIdx index).Perm (rows.set index new) := by
  obtain ⟨front, back, hrows, hset, herase⟩ := split_at hold
  rw [herase]
  refine ⟨?_, fun new => ?_⟩
  · rw [hrows]
    exact List.perm_middle
  · rw [hset]
    exact List.perm_middle.symm

theorem touch_found {index : Nat}
    (make : Row String Literal → Option (Row String Literal))
    (hscan : scanned.Perm (old :: rows.eraseIdx index))
    (honly : t.FindsOnly rows index old) :
    (touch (decide (t.primaryKey = []))
        (t.found (TableDef.cellsOf t.keyColumns old)) make scanned).Perm
          ((make old).toList ++ rows.eraseIdx index) ∧
      touched (decide (t.primaryKey = []))
        (t.found (TableDef.cellsOf t.keyColumns old)) scanned = 1 := by
  obtain ⟨hfound, hothers⟩ := honly
  apply touch_perm hscan hfound
  intro other hother hotherFound
  obtain ⟨hkey, hsame⟩ := hothers other hother hotherFound
  exact ⟨decide_eq_true hkey, hsame⟩

theorem keyColumns_ne_nil (hwritten : t.written ≠ []) :
    t.keyColumns ≠ [] := by
  rw [TableDef.keyColumns]
  split
  next => exact hwritten
  next hkey =>
    intro hnil
    rw [TableDef.primaryKey, hnil] at hkey
    exact hkey rfl

theorem cellsOf_ne_nil {columns : List Column} (hcolumns : columns ≠ []) :
    ¬ TableDef.cellsOf columns old = [] := by
  rwa [TableDef.cellsOf, List.map_eq_nil_iff]

theorem rows_getD {index : Nat} (hold : rows[index]? = some old) :
    rows.getD index (fun _ => none) = old := by
  rw [List.getD_eq_getElem?_getD, hold]
  rfl

/-- A replayable change touches one row of a copy, however its rows are read,
and leaves the copy as the source. -/
theorem exec_statement {change : RowChange}
    (hsource : t.sourceRows rows change = some next)
    (hreplayable : t.Replayable rows change) (hscan : scanned.Perm rows) :
    t.rowsTouched scanned (t.statement rows change) = 1 ∧
      ∃ copied, t.exec scanned (t.statement rows change) = some copied ∧
        copied.Perm next := by
  cases change with
  | insert values =>
      simp only [TableDef.sourceRows] at hsource
      split at hsource
      next hlength =>
        obtain ⟨hadmits, rfl⟩ := checked_eq_some.mp hsource
        have hperm : (scanned ++ [t.inserted values]).Perm
            (rows ++ [t.inserted values]) := hscan.append_right _
        have hscanned := admits_of_perm hperm.symm hadmits
        refine ⟨rfl, _, ?_, hperm⟩
        have hnew : t.setRow (cells t.writtenNames (t.inserted values))
            (fun _ => none) = t.inserted values := setRow_updated values
        simp only [TableDef.statement, TableDef.exec, if_neg sets_allowed,
          readCells_cellsOf]
        rw [← TableDef.writtenNames, hnew, duplicate_eq_none hscanned]
        exact checked_of_admits hscanned
      next => cases hsource
  | update index values =>
      simp only [TableDef.sourceRows] at hsource
      split at hsource
      next => cases hsource
      next old hold =>
        split at hsource
        next hlength =>
          obtain ⟨hadmits, rfl⟩ := checked_eq_some.mp hsource
          obtain ⟨hwritten, honly⟩ := hreplayable
          have hkeys := keyColumns_ne_nil hwritten
          obtain ⟨hfrom, hto⟩ := perm_cons_eraseIdx hold
          have hnew : t.setRow (TableDef.readCells (TableDef.cellsOf t.written
              (t.updated old values))) old = t.updated old values := by
            rw [readCells_cellsOf]
            exact setRow_updated values
          obtain ⟨htouch, hcount⟩ := touch_found (some ∘ t.setRow
            (TableDef.readCells (TableDef.cellsOf t.written (t.updated old values))))
            (hscan.trans hfrom) (honly old hold)
          rw [Function.comp_apply, hnew] at htouch
          have hperm := htouch.trans (hto (t.updated old values))
          simp only [TableDef.statement, rows_getD hold]
          refine ⟨hcount, _, ?_, hperm⟩
          rw [TableDef.exec, if_neg (cellsOf_ne_nil hkeys), if_neg sets_allowed]
          exact checked_of_admits (admits_of_perm hperm.symm hadmits)
        next => cases hsource
  | delete index =>
      simp only [TableDef.sourceRows] at hsource
      split at hsource
      next => cases hsource
      next old hold =>
        obtain ⟨hadmits, rfl⟩ := checked_eq_some.mp hsource
        obtain ⟨hkeys, honly⟩ := hreplayable
        obtain ⟨hfrom, -⟩ := perm_cons_eraseIdx hold
        obtain ⟨hperm, hcount⟩ := touch_found (fun _ => none)
          (hscan.trans hfrom) (honly old hold)
        rw [Option.toList_none, List.nil_append] at hperm
        simp only [TableDef.statement, rows_getD hold]
        refine ⟨hcount, _, ?_, hperm⟩
        rw [TableDef.exec, if_neg (cellsOf_ne_nil hkeys)]
        exact checked_of_admits (admits_of_perm hperm.symm hadmits)

end Execution

section Run

variable (tables : Tables)

/-- The statements of the changes, executed one after the other on a copy that is
read in a new order each time: every change has a statement, which touches one
row and is not rejected, and the copy holds the rows of `last` at the end. -/
def Reproduces (scan : Nat → Database → Database) (last : Database) :
    Nat → Database → List Change → Prop
  | _, copy, [] => ∀ name, (copy name).Perm (last name)
  | n, copy, change :: rest =>
      ∃ t statement, tables.find change.table = some t ∧
        buildDml change t.colInfos = some statement.sql ∧
        dml change t.colInfos = some statement ∧
        t.rowsTouched (scan n copy change.table) statement = 1 ∧
        ∃ rows, t.exec (scan n copy change.table) statement = some rows ∧
          Reproduces scan last (n + 1)
            (Function.update copy change.table rows) rest

def ReplayableEvent (db : Database) (event : SourceEvent) : Prop :=
  ∀ t, tables.find event.table = some t →
    t.Replayable (db event.table) event.change

variable {tables} {db copy last : Database}

theorem Tables.find_name {name : String} {t : TableDef}
    (hfind : tables.find name = some t) : t ∈ tables.defs ∧ t.name = name := by
  refine ⟨List.mem_of_find?_eq_some hfind, ?_⟩
  simpa using List.find?_some hfind

/-- A row that holds what its generated columns compute, and nothing outside of
its columns. -/
def TableDef.Formed (t : TableDef) (row : Row String Literal) : Prop :=
  t.complete row = row ∧
    ∀ c, c ∉ t.columns.map Column.name → row c = none

section Exact

variable {t : TableDef} {rows next : List (Row String Literal)}
  {row other : Row String Literal}

theorem cellHolds_iff (hexact : ∀ c left right,
      t.holds c left right = true ↔ left = right) {c : String} :
    t.cellHolds other (c, Literal.render (row c)) = true ↔
      other c = row c := by
  rw [TableDef.cellHolds, Literal.read_render]
  cases hrow : row c with
  | none => cases other c <;> simp
  | some literal =>
      cases hother : other c with
      | none => simp
      | some value => simp [hexact]

theorem found_iff (hexact : ∀ c left right,
      t.holds c left right = true ↔ left = right) {columns : List Column} :
    t.found (TableDef.cellsOf columns row) other = true ↔
      ∀ col ∈ columns, other col.name = row col.name := by
  rw [TableDef.found, TableDef.cellsOf, List.all_eq_true,
    List.forall_mem_map]
  exact forall₂_congr fun col _ => cellHolds_iff hexact

/-- The values of the written columns make the row. -/
theorem eq_of_written (hrow : t.Formed row) (hother : t.Formed other)
    (hsame : ∀ col ∈ t.written, other col.name = row col.name) :
    other = row := by
  have hgenerate : t.generate other = t.generate row :=
    t.generate_congr other row fun col hcol hwritten =>
      hsame col (List.mem_filter.mpr ⟨hcol, hwritten⟩)
  rw [← hother.1, ← hrow.1]
  funext c
  rw [TableDef.complete, TableDef.complete, hgenerate]
  by_cases hc : c ∈ t.rowSchema.generatedAlways
  · rw [if_pos hc, if_pos hc]
  rw [if_neg hc, if_neg hc]
  by_cases hname : c ∈ t.columns.map Column.name
  · obtain ⟨col, hcol, rfl⟩ := List.mem_map.mp hname
    apply hsame col
    refine List.mem_filter.mpr ⟨hcol, ?_⟩
    by_contra hnot
    exact hc (List.mem_map_of_mem (List.mem_filter.mpr
      ⟨hcol, by simpa using hnot⟩))
  · rw [hother.2 c hname, hrow.2 c hname]

/-- Where a condition holds of just the same values every change is
replayable. -/
theorem replayable_of_exact (hexact : ∀ c left right,
      t.holds c left right = true ↔ left = right)
    (hwritten : t.written ≠ []) (hadmits : admits t.rowSchema rows = true)
    (hformed : ∀ row ∈ rows, t.Formed row) (change : RowChange) :
    t.Replayable rows change := by
  have honly : ∀ (index : Nat) old, rows[index]? = some old →
      t.FindsOnly rows index old := by
    intro index old hold
    refine ⟨(found_iff hexact).mpr fun col _ => rfl, ?_⟩
    intro other hother hfound
    have hsame := (found_iff hexact).mp hfound
    rw [TableDef.keyColumns] at hsame
    by_cases hkey : t.primaryKey = []
    · rw [if_pos hkey] at hsame
      exact ⟨hkey, eq_of_written (hformed old (List.mem_of_getElem? hold))
        (hformed other (List.mem_of_mem_eraseIdx hother)) hsame⟩
    · rw [if_neg hkey] at hsame
      have hunique : t.primaryKey ∈ t.rowSchema.uniqueKeys := by
        simp [TableDef.rowSchema, hkey]
      refine absurd ?_ (not_sameKey_of_admits hunique hadmits hold other
        hother)
      have hself : sameKey t.rowSchema t.primaryKey old old = true :=
        sameKey_self_iff.mpr ((admits_iff.mp hadmits).2 old
          (List.mem_of_getElem? hold))
      rw [sameKey_iff] at hself ⊢
      intro c hc
      obtain ⟨col, hcol, rfl⟩ := List.mem_map.mp hc
      rw [hsame col hcol]
      exact hself col.name hc
  cases change with
  | insert values => exact hwritten
  | update index values => exact ⟨hwritten, honly index⟩
  | delete index => exact ⟨keyColumns_ne_nil hwritten, honly index⟩

theorem complete_written {c : String} (hc : c ∈ t.writtenNames) :
    t.complete row c = row c :=
  if_neg (writtenNames_notMem hc)

/-- Completing a row again changes nothing. -/
theorem formed_complete
    (hrow : ∀ c, c ∉ t.columns.map Column.name → row c = none) :
    t.Formed (t.complete row) := by
  have hgenerate : t.generate (t.complete row) = t.generate row := by
    apply t.generate_congr
    intro col hcol hwritten
    exact complete_written
      (List.mem_map_of_mem (List.mem_filter.mpr ⟨hcol, hwritten⟩))
  refine ⟨?_, fun c hc => ?_⟩
  · funext c
    rw [TableDef.complete, hgenerate, TableDef.complete]
    split <;> rfl
  · have hnot : c ∉ t.rowSchema.generatedAlways := fun hmem =>
      hc (List.Sublist.mem hmem (List.filter_sublist.map Column.name))
    rw [TableDef.complete, if_neg hnot]
    exact hrow c hc

theorem writtenNames_subset {c : String} (hc : c ∈ t.writtenNames) :
    c ∈ t.columns.map Column.name :=
  List.Sublist.mem hc (List.filter_sublist.map Column.name)

theorem formed_updated {old : Row String Literal}
    (hold : ∀ c, c ∉ t.columns.map Column.name → old c = none)
    (values : List (Option Literal)) : t.Formed (t.updated old values) := by
  refine formed_complete fun c hc => ?_
  rw [assign_of_notMem fun hmem => hc (writtenNames_subset hmem)]
  exact hold c hc

/-- A table's rows as it admits and forms them. -/
def TableDef.Sound (t : TableDef) (rows : List (Row String Literal)) : Prop :=
  admits t.rowSchema rows = true ∧ ∀ row ∈ rows, t.Formed row

theorem sound_of_sourceRows {change : RowChange} (hsound : t.Sound rows)
    (hsource : t.sourceRows rows change = some next) : t.Sound next := by
  obtain ⟨-, hformed⟩ := hsound
  cases change with
  | insert values =>
      simp only [TableDef.sourceRows] at hsource
      split at hsource
      next =>
        obtain ⟨hadmits, rfl⟩ := checked_eq_some.mp hsource
        refine ⟨hadmits, List.forall_mem_append.mpr ⟨hformed, ?_⟩⟩
        rw [List.forall_mem_singleton]
        exact formed_updated (fun _ _ => rfl) values
      next => cases hsource
  | update index values =>
      simp only [TableDef.sourceRows] at hsource
      split at hsource
      next => cases hsource
      next old hold =>
        split at hsource
        next =>
          obtain ⟨hadmits, rfl⟩ := checked_eq_some.mp hsource
          refine ⟨hadmits, fun row hrow => ?_⟩
          rcases List.mem_or_eq_of_mem_set hrow with hmem | rfl
          · exact hformed row hmem
          · exact formed_updated
              (hformed old (List.mem_of_getElem? hold)).2 values
        next => cases hsource
  | delete index =>
      simp only [TableDef.sourceRows] at hsource
      split at hsource
      next => cases hsource
      next =>
        obtain ⟨hadmits, rfl⟩ := checked_eq_some.mp hsource
        exact ⟨hadmits, fun row hrow =>
          hformed row (List.mem_of_mem_eraseIdx hrow)⟩

theorem sound_of_serverStep {event : SourceEvent}
    (hsound : ∀ t ∈ tables.defs, t.Sound (db t.name))
    (hstep : serverStep tables db event = some last) :
    ∀ t ∈ tables.defs, t.Sound (last t.name) := by
  simp only [serverStep, Option.bind_eq_some_iff,
    Option.map_eq_some_iff] at hstep
  obtain ⟨t, hfind, rows, hsource, rfl⟩ := hstep
  obtain ⟨ht, hname⟩ := Tables.find_name hfind
  intro other hother
  by_cases hsame : other.name = event.table
  · have heq : other = t :=
      List.inj_on_of_nodup_map tables.names hother ht (hsame.trans hname.symm)
    rw [hsame, Function.update_self, heq]
    rw [← hname] at hsource
    exact sound_of_sourceRows (hsound t ht) hsource
  · rw [Function.update_of_ne hsame]
    exact hsound other hother

/-- Tables whose conditions hold of just the same values are replayable in every
run, with a primary key and without. -/
theorem stepsMeet_of_exact {events : List SourceEvent}
    (hexact : ∀ t ∈ tables.defs, t.written ≠ [] ∧ ∀ c left right,
      t.holds c left right = true ↔ left = right)
    (hsound : ∀ t ∈ tables.defs, t.Sound (db t.name)) :
    StepsMeet (serverStep tables) (ReplayableEvent tables) db events := by
  induction events generalizing db with
  | nil => trivial
  | cons event events ih =>
      refine ⟨?_, fun next hstep =>
        ih (sound_of_serverStep hsound hstep)⟩
      intro t hfind
      obtain ⟨ht, hname⟩ := Tables.find_name hfind
      obtain ⟨hwritten, hholds⟩ := hexact t ht
      obtain ⟨hadmits, hformed⟩ := hsound t ht
      rw [hname] at hadmits hformed
      exact replayable_of_exact hholds hwritten hadmits hformed event.change

end Exact

/-- A table without a key whose one column holds words; `fold` is what its
collation makes of a letter. -/
def wordTable (fold : Char → Char) : TableDef where
  name := "words"
  columns := [⟨"word", "", ""⟩]
  otherKeys := []
  generate _ _ := none
  equal _ left right := left.val.toList.map fold = right.val.toList.map fold
  holds _ left right := left.val.toList.map fold = right.val.toList.map fold
  names := by decide
  equal_refl _ value := decide_eq_true rfl
  equal_symm _ left right hequal :=
    decide_eq_true (of_decide_eq_true hequal).symm
  equal_trans _ left middle right hleft hright := decide_eq_true
    ((of_decide_eq_true hleft).trans (of_decide_eq_true hright))
  generate_congr _ _ _ := rfl

def wordTables (fold : Char → Char) : Tables where
  defs := [wordTable fold]
  names := by simp

def word (text : String) (htext : text ≠ "NULL" := by decide) :
    Option Literal :=
  some ⟨text, htext⟩

def wordEvents : List SourceEvent :=
  [⟨"words", 1, .insert [word "'a'"]⟩, ⟨"words", 2, .insert [word "'A'"]⟩,
    ⟨"words", 3, .insert [none]⟩, ⟨"words", 4, .delete 1⟩]

end Run

end Mysql

end XBackup
