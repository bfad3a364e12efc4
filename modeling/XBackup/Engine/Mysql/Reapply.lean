/-
The changes of a MySQL increment as writes under primary keys, and what
applying them again makes of a copy.
-/
import XBackup.Engine.Mysql.Replay
import XBackup.Foundation.KeyedDatabase

namespace XBackup

namespace Mysql

open KeyedDatabase RowActs Rows Touching Transition

section Form

variable {t : TableDef} {row left right : Row String Literal}
  {sets : List (String × Option Literal)}

/-- The values of a row that are written. -/
def TableDef.view (t : TableDef) (row : Row String Literal) :
    Row String Literal :=
  fun c => if c ∈ t.writtenNames then row c else none

theorem view_complete_assign (hsets : ∀ cell ∈ sets, cell.1 ∈ t.writtenNames) :
    t.view (t.complete (assign row sets)) = assign (t.view row) sets := by
  funext c
  rw [TableDef.view, assign, TableDef.view]
  by_cases hc : c ∈ t.writtenNames
  · rw [if_pos hc, if_pos hc, complete_written hc]
    rfl
  · have hlookup : sets.lookup c = none :=
      List.lookup_eq_none_iff.mpr fun cell hcell => by
        simpa using fun hsame : c = cell.1 => hc (hsame ▸ hsets cell hcell)
    rw [if_neg hc, if_neg hc, hlookup]
    rfl

theorem eq_none_of_view (hview : t.view row = row) {c : String}
    (hc : c ∉ t.writtenNames) : row c = none := by
  rw [← hview]
  exact if_neg hc

theorem view_complete (hview : t.view row = row) :
    t.view (t.complete row) = row := by
  funext c
  rw [TableDef.view]
  split
  next hc => exact complete_written hc
  next hc => exact (eq_none_of_view hview hc).symm

theorem formed_complete_assign (hrow : t.Formed row)
    (hsets : ∀ cell ∈ sets, cell.1 ∈ t.writtenNames) :
    t.Formed (t.complete (assign row sets)) := by
  refine formed_complete fun c hc => ?_
  have hlookup : sets.lookup c = none :=
    List.lookup_eq_none_iff.mpr fun cell hcell => by
      simpa using fun hsame : c = cell.1 =>
        hc (hsame ▸ writtenNames_subset (hsets cell hcell))
  rw [assign, hlookup]
  exact hrow.2 c hc

theorem formed_complete_view (hview : t.view row = row) :
    t.Formed (t.complete row) :=
  formed_complete fun _ hc =>
    eq_none_of_view hview fun hmem => hc (writtenNames_subset hmem)

theorem eq_of_view (hleft : t.Formed left) (hright : t.Formed right)
    (hview : t.view left = t.view right) : left = right := by
  refine eq_of_written hright hleft fun col hcol => ?_
  have hname : col.name ∈ t.writtenNames := List.mem_map_of_mem hcol
  have hvalue := congrFun hview col.name
  rwa [TableDef.view, TableDef.view, if_pos hname, if_pos hname] at hvalue

/-- Rows are written with their generated columns computed. -/
def TableDef.form (t : TableDef) : Finishing String Literal where
  finish := t.complete
  view := t.view
  written := t.writtenNames
  Formed := t.Formed
  view_assign _ _ hsets := view_complete_assign hsets
  view_finish _ hview := view_complete hview
  finish_apply _ _ hc := complete_written hc
  formed_assign _ _ hrow hsets := formed_complete_assign hrow hsets
  formed_finish _ hview := formed_complete_view hview
  eq_of_view _ _ hleft hright hview := eq_of_view hleft hright hview

end Form

namespace TableDef

variable (t : TableDef)

/-- A table with a primary key, whose values conditions take as equal just as the
key does. -/
structure HasKey : Prop where
  key : t.primaryKey ≠ []
  written : t.written ≠ []
  holds : ∀ c ∈ t.primaryKey, t.holds c = t.equal c

theorem isPrimary (hkey : t.primaryKey ≠ []) :
    t.rowSchema.IsPrimary t.primaryKey where
  unique := by simp [rowSchema, hkey]
  notNull _ hc := hc

def keyed (hkey : t.primaryKey ≠ []) : Keyed String Literal where
  schema := t.rowSchema
  key := t.primaryKey
  form := t.form
  primary := t.isPrimary hkey
  notNull _ hc := hc

/-- The write of a change: of which row, and what. -/
def write (rows : List (Row String Literal)) :
    RowChange → Row String Literal × Act String Literal
  | .insert values =>
      (t.inserted values,
        .put (assign (fun _ => none) (t.writtenNames.zip values)) t.upserted)
  | .update index values =>
      let old := rows.getD index fun _ => none
      (old, .set (cells t.writtenNames (t.updated old values)))
  | .delete index => (rows.getD index fun _ => none, .del)

/-- A change that keeps the key of its row, and as an INSERT also that of a row
that is there already. -/
def KeepsKey (rows : List (Row String Literal)) : RowChange → Prop
  | .insert values => ∀ row,
      sameKey t.rowSchema t.primaryKey row (t.inserted values) = true →
        sameKey t.rowSchema t.primaryKey
          (t.setRow (cells t.upserted (t.inserted values)) row) row = true
  | .update index values =>
      ∀ old, rows[index]? = some old →
        ∀ c ∈ t.primaryKey, t.updated old values c = old c
  | .delete _ => True

end TableDef

section Write

variable {t : TableDef} {rows copy next : List (Row String Literal)}
  {old new row : Row String Literal} {change : RowChange}

theorem upserted_subset {c : String} (hc : c ∈ t.upserted) :
    c ∈ t.writtenNames :=
  List.Sublist.mem hc (List.filter_sublist.map Column.name)

/-- An INSERT keeps the key of a row that is there, if the key is written. -/
theorem keepsKey_insert (hkey : ∀ c ∈ t.primaryKey, c ∈ t.writtenNames)
    (values : List (Option Literal)) : t.KeepsKey rows (.insert values) := by
  intro row hsame
  have hself := sameKey_of_kept hsame
  have hrow : sameKey t.rowSchema t.primaryKey row row = true :=
    sameKey_trans hsame (sameKey_symm hsame)
  rw [sameKey_iff] at hrow ⊢
  intro c hc
  obtain ⟨col, hcol, rfl⟩ := List.mem_map.mp hc
  obtain ⟨hmem, hpk⟩ := List.mem_filter.mp hcol
  have hnot : col.name ∉ t.upserted := by
    intro hupserted
    obtain ⟨other, hother, hname⟩ := List.mem_map.mp hupserted
    obtain ⟨hotherWritten, hotherPk⟩ := List.mem_filter.mp hother
    have hsame : other = col :=
      List.inj_on_of_nodup_map t.names (List.mem_filter.mp hotherWritten).1
        (List.mem_filter.mp hmem).1 hname
    rw [hsame, hpk] at hotherPk
    cases hotherPk
  rw [TableDef.setRow, complete_written (hkey _ hc), assign_cells, if_neg hnot]
  exact hrow _ hc

theorem found_keyColumns (hkey : t.HasKey)
    (hself : sameKey t.rowSchema t.primaryKey old old = true) :
    t.found (TableDef.cellsOf t.keyColumns old) row =
      sameKey t.rowSchema t.primaryKey row old := by
  rw [Bool.eq_iff_iff, sameKey_iff, TableDef.found, TableDef.cellsOf,
    List.all_eq_true, List.forall_mem_map, TableDef.keyColumns,
    if_neg hkey.key]
  have hcell : ∀ c ∈ t.primaryKey,
      (t.cellHolds row (c, Literal.render (old c)) = true ↔
        equals (t.equal c) (row c) (old c) = some true) := by
    intro c hc
    have hvalue := sameKey_self_iff.mp hself c hc
    rw [TableDef.cellHolds, Literal.read_render, hkey.holds c hc]
    cases hold : old c with
    | none => exact absurd hold hvalue
    | some literal => cases row c <;> simp [equals]
  rw [TableDef.primaryKey, List.forall_mem_map] at hcell ⊢
  exact forall₂_congr hcell

/-- A row is in the way of a new one only by the primary key. -/
theorem duplicate_eq (hkey : t.primaryKey ≠ [])
    (hothers : ∀ other ∈ t.rowSchema.uniqueKeys, ∀ row ∈ copy,
      sameKey t.rowSchema other row new = true →
        sameKey t.rowSchema t.primaryKey row new = true) :
    t.duplicate copy new =
      copy.findIdx? fun row => sameKey t.rowSchema t.primaryKey row new := by
  have hkeys : t.rowSchema.uniqueKeys = t.primaryKey :: t.otherKeys := by
    rw [TableDef.rowSchema, if_neg hkey, List.singleton_append]
  rw [TableDef.duplicate, hkeys, List.findSome?_cons]
  cases hfound : copy.findIdx? fun row =>
      sameKey t.rowSchema t.primaryKey row new with
  | some index => rfl
  | none =>
      rw [List.findIdx?_eq_none_iff] at hfound
      change t.otherKeys.findSome? _ = none
      rw [List.findSome?_eq_none_iff]
      intro other hother
      rw [List.findIdx?_eq_none_iff]
      intro row hrow
      rw [Bool.eq_false_iff]
      intro hsame
      have hmem : other ∈ t.rowSchema.uniqueKeys :=
        hkeys ▸ List.mem_cons_of_mem _ hother
      have hdiffers := hfound row hrow
      rw [hothers other hmem row hrow hsame] at hdiffers
      cases hdiffers

theorem cells_upserted (values : List (Option Literal)) :
    cells t.upserted (t.inserted values) =
      cells t.upserted (assign (fun _ => none) (t.writtenNames.zip values)) :=
  List.map_congr_left fun _ hc =>
    congrArg _ (complete_written (upserted_subset hc))

theorem complete_inserted (values : List (Option Literal)) :
    t.setRow (cells t.writtenNames (t.inserted values)) (fun _ => none) =
      t.inserted values :=
  setRow_updated values

theorem writeRows_insert (values : List (Option Literal)) :
    writeRows t.rowSchema t.form t.primaryKey copy
        (t.write rows (.insert values)).1 (t.write rows (.insert values)).2 =
      if copy.any fun row =>
          sameKey t.rowSchema t.primaryKey row (t.inserted values) then
        copy.map fun row =>
          if sameKey t.rowSchema t.primaryKey row (t.inserted values) then
            t.setRow (cells t.upserted (t.inserted values)) row
          else row
      else copy ++ [t.inserted values] := by
  rw [cells_upserted]
  rfl

/-- An INSERT that finds the row of its key updates it. -/
theorem exec_insert (hkey : t.HasKey) {values : List (Option Literal)}
    (hadmits : admits t.rowSchema copy = true)
    (hformed : ∀ row ∈ copy, t.Formed row)
    (hothers : ∀ other ∈ t.rowSchema.uniqueKeys, ∀ row ∈ copy,
      sameKey t.rowSchema other row (t.inserted values) = true →
        sameKey t.rowSchema t.primaryKey row (t.inserted values) = true) :
    t.exec copy (t.statement rows (.insert values)) =
      checked t.rowSchema (writeRows t.rowSchema t.form t.primaryKey copy
        (t.write rows (.insert values)).1
        (t.write rows (.insert values)).2) := by
  have hpairs := (admits_iff.mp hadmits).1 t.primaryKey
    (t.isPrimary hkey.key).unique
  have honly : copy.Pairwise fun left right =>
      sameKey t.rowSchema t.primaryKey left (t.inserted values) = true →
        ¬ sameKey t.rowSchema t.primaryKey right (t.inserted values) =
          true := by
    refine hpairs.imp ?_
    intro left right hdiffers hleft hright
    rw [sameKey_trans hleft (sameKey_symm hright)] at hdiffers
    cases hdiffers
  simp only [TableDef.statement, TableDef.exec, if_neg sets_allowed,
    readCells_cellsOf]
  rw [← TableDef.writtenNames, complete_inserted,
    duplicate_eq hkey.key hothers, writeRows_insert]
  cases hfound : copy.findIdx? fun row =>
      sameKey t.rowSchema t.primaryKey row (t.inserted values) with
  | none =>
      have hnone : ¬ (copy.any fun row => sameKey t.rowSchema t.primaryKey row
          (t.inserted values)) = true := by
        rw [List.findIdx?_eq_none_iff] at hfound
        rw [List.any_eq_true]
        rintro ⟨row, hrow, hsame⟩
        rw [hfound row hrow] at hsame
        cases hsame
      rw [if_neg hnone]
  | some index =>
      have hany : (copy.any fun row => sameKey t.rowSchema t.primaryKey row
          (t.inserted values)) = true := by
        obtain ⟨hindex, hsame, -⟩ := List.findIdx?_eq_some_iff_getElem.mp hfound
        exact List.any_eq_true.mpr ⟨_, List.getElem_mem hindex, hsame⟩
      rw [if_pos hany]
      dsimp only
      by_cases hupserted : t.upserted = []
      · have hsame : (copy.map fun row =>
            if sameKey t.rowSchema t.primaryKey row (t.inserted values) then
              t.setRow (cells t.upserted (t.inserted values)) row
            else row) = copy := by
          refine (List.map_congr_left fun row hrow => ?_).trans
            (List.map_id copy)
          rw [hupserted]
          split
          next => exact (hformed row hrow).1
          next => rfl
        rw [if_pos hupserted, hsame, checked_of_admits hadmits]
      · rw [if_neg hupserted, modify_findIdx? honly hfound]

/-- The statement of a change does to a copy what its write does. -/
theorem exec_write {Held : Row String Literal → Prop} (hkey : t.HasKey)
    (hrowsAdmit : admits t.rowSchema rows = true)
    (hsource : t.sourceRows rows change = some next)
    (hadmits : admits t.rowSchema copy = true)
    (hassembled : ∀ row ∈ copy,
      Assembled t.rowSchema t.form t.primaryKey Held row)
    (hsourced : Sourced t.rowSchema t.form t.primaryKey Held
      (t.write rows change).1 (t.write rows change).2)
    (hapart : Apart t.rowSchema t.form t.primaryKey Held) :
    t.exec copy (t.statement rows change) =
      checked t.rowSchema (writeRows t.rowSchema t.form t.primaryKey copy
        (t.write rows change).1 (t.write rows change).2) := by
  have hkeys := keyColumns_ne_nil hkey.written
  have hlimit : decide (t.primaryKey = []) = false := decide_eq_false hkey.key
  cases change with
  | insert values =>
      refine exec_insert hkey hadmits
        (fun row hrow => (hassembled row hrow).1) ?_
      intro other hother row hrow hsame
      obtain ⟨hheld, hself, -⟩ := hsourced
      have hnew : Assembled t.rowSchema t.form t.primaryKey Held
          (t.inserted values) :=
        assembled_of_held (formed_updated (fun _ _ => rfl) values) hheld hself
      exact hapart other hother row _ (hassembled row hrow) hnew hsame
  | update index values =>
      simp only [TableDef.sourceRows] at hsource
      split at hsource
      next => cases hsource
      next old hold =>
        have hself := sameKey_of_mem (t.isPrimary hkey.key) hrowsAdmit
          (List.mem_of_getElem? hold)
        simp only [TableDef.statement, TableDef.exec, TableDef.write,
          rows_getD hold, if_neg (cellsOf_ne_nil hkeys), if_neg sets_allowed,
          hlimit, readCells_cellsOf, touch_some, found_keyColumns hkey hself]
        rfl
  | delete index =>
      simp only [TableDef.sourceRows] at hsource
      split at hsource
      next => cases hsource
      next old hold =>
        have hself := sameKey_of_mem (t.isPrimary hkey.key) hrowsAdmit
          (List.mem_of_getElem? hold)
        simp only [TableDef.statement, TableDef.exec, TableDef.write,
          rows_getD hold, if_neg (cellsOf_ne_nil hkeys), hlimit, touch_none,
          found_keyColumns hkey hself]
        rfl

/-- Writing all the values of a row makes it, whatever was there. -/
theorem setRow_columns (values : List (Option Literal)) {c : String}
    (hc : c ∈ t.columns.map Column.name) :
    t.setRow (cells t.writtenNames (t.updated old values)) row c =
      t.updated old values c := by
  by_cases hgenerated : c ∈ t.rowSchema.generatedAlways
  · have hcongr : t.generate
        (assign row (cells t.writtenNames (t.updated old values))) =
          t.generate (assign old (t.writtenNames.zip values)) := by
      apply t.generate_congr
      intro col hcol hwritten
      have hname : col.name ∈ t.writtenNames :=
        List.mem_map_of_mem (List.mem_filter.mpr ⟨hcol, hwritten⟩)
      rw [assign_cells, if_pos hname]
      exact complete_written hname
    rw [TableDef.setRow, TableDef.complete, if_pos hgenerated, hcongr,
      TableDef.updated, TableDef.complete, if_pos hgenerated]
  · have hname : c ∈ t.writtenNames := by
      obtain ⟨col, hcol, rfl⟩ := List.mem_map.mp hc
      refine List.mem_map_of_mem (List.mem_filter.mpr ⟨hcol, ?_⟩)
      by_contra hnot
      exact hgenerated (List.mem_map_of_mem (List.mem_filter.mpr
        ⟨hcol, by simpa using hnot⟩))
    rw [TableDef.setRow, complete_written hname, assign_cells, if_pos hname]

theorem primaryKey_subset {c : String} (hc : c ∈ t.primaryKey) :
    c ∈ t.columns.map Column.name :=
  List.Sublist.mem hc
    ((List.filter_sublist.trans List.filter_sublist).map Column.name)

/-- The write of a source's change is a good one, and valid where it is made. -/
theorem write_good {Held : Row String Literal → Prop}
    (hkey : t.primaryKey ≠ []) (hkeeps : t.KeepsKey rows change)
    (hadmits : admits t.rowSchema rows = true)
    (hsource : t.sourceRows rows change = some next)
    (hheld : ∀ row ∈ next, Held row) :
    Writes t.rowSchema t.form t.primaryKey (t.write rows change).1
        (t.write rows change).2 ∧
      Sourced t.rowSchema t.form t.primaryKey Held (t.write rows change).1
        (t.write rows change).2 ∧
      (t.write rows change).2.Valid
        (rowAt t.rowSchema t.primaryKey rows (t.write rows change).1) := by
  have hprimary := t.isPrimary hkey
  cases change with
  | insert values =>
      simp only [TableDef.sourceRows] at hsource
      split at hsource
      next hlength =>
        obtain ⟨hnext, rfl⟩ := checked_eq_some.mp hsource
        have hmem : t.inserted values ∈ rows ++ [t.inserted values] := by simp
        have hself := sameKey_of_mem hprimary hnext hmem
        refine ⟨⟨rfl, ?_, fun c hc => upserted_subset hc, ?_⟩,
          ⟨hheld _ hmem, hself, ?_⟩, ?_⟩
        · funext c
          change t.view _ c = _
          rw [TableDef.view]
          split
          next => rfl
          next hc =>
            have hnone : assign (fun _ => none) (t.writtenNames.zip values) c =
                none := assign_of_notMem hc
            exact hnone.symm
        · intro row hspot
          rw [← cells_upserted]
          exact hkeeps row hspot
        · exact fun c hc => (complete_written hc).symm
        · change rowAt _ _ _ _ = none
          rw [rowAt_eq_none_iff]
          intro row hrow hsame
          have hpairs := (admits_iff.mp hnext).1 _ hprimary.unique
          rw [List.pairwise_append] at hpairs
          have hdiffers := hpairs.2.2 row hrow _ (List.mem_singleton_self _)
          exact absurd (hsame.symm.trans hdiffers) (by simp)
      next => cases hsource
  | update index values =>
      simp only [TableDef.sourceRows] at hsource
      split at hsource
      next => cases hsource
      next old hold =>
        split at hsource
        next hlength =>
          obtain ⟨-, rfl⟩ := checked_eq_some.mp hsource
          have hmem := List.mem_of_getElem? hold
          have hself := sameKey_of_mem hprimary hadmits hmem
          obtain ⟨hindex, -⟩ := List.getElem?_eq_some_iff.mp hold
          simp only [TableDef.write, rows_getD hold]
          refine ⟨⟨?_, ?_⟩, ⟨t.updated old values,
            hheld _ (List.mem_set hindex _), ?_, ?_⟩, ?_⟩
          · rw [cells, List.forall_mem_map]
            exact fun c hc => hc
          · intro row hspot
            have hback := sameKey_symm hspot
            rw [sameKey_iff] at hback ⊢
            intro c hc
            have hvalue := @setRow_columns t old row values c
              (primaryKey_subset hc)
            change equals _ (t.setRow _ row c) _ = _
            rw [hvalue, hkeeps old hold c hc]
            exact hback c hc
          · rw [sameKey_iff] at hself ⊢
            intro c hc
            rw [hkeeps old hold c hc]
            exact hself c hc
          · rw [cells, List.forall_mem_map]
            exact fun c _ => rfl
          · rw [rowAt_self hprimary hadmits hmem]
            exact Option.some_ne_none old
        next => cases hsource
  | delete index =>
      simp only [TableDef.sourceRows] at hsource
      split at hsource
      next => cases hsource
      next old hold =>
        have hmem := List.mem_of_getElem? hold
        simp only [TableDef.write, rows_getD hold]
        refine ⟨trivial, trivial, ?_⟩
        rw [rowAt_self hprimary hadmits hmem]
        exact Option.some_ne_none old

/-- On the source itself the write is the change. -/
theorem writeRows_source (hkey : t.primaryKey ≠ [])
    (hadmits : admits t.rowSchema rows = true)
    (hsource : t.sourceRows rows change = some next) :
    (writeRows t.rowSchema t.form t.primaryKey rows (t.write rows change).1
      (t.write rows change).2).Perm next := by
  have hprimary := t.isPrimary hkey
  cases change with
  | insert values =>
      simp only [TableDef.sourceRows] at hsource
      split at hsource
      next hlength =>
        obtain ⟨hnext, rfl⟩ := checked_eq_some.mp hsource
        have hpairs := (admits_iff.mp hnext).1 _ hprimary.unique
        rw [List.pairwise_append] at hpairs
        have hnone : ¬ (rows.any fun row => sameKey t.rowSchema t.primaryKey row
            (t.inserted values)) = true := by
          rw [List.any_eq_true]
          rintro ⟨row, hrow, hsame⟩
          have hdiffers := hpairs.2.2 row hrow _ (List.mem_singleton_self _)
          exact absurd (hsame.symm.trans hdiffers) (by simp)
        rw [writeRows_insert, if_neg hnone]
      next => cases hsource
  | update index values =>
      simp only [TableDef.sourceRows] at hsource
      split at hsource
      next => cases hsource
      next old hold =>
        split at hsource
        next hlength =>
          obtain ⟨-, rfl⟩ := checked_eq_some.mp hsource
          obtain ⟨hfrom, hto⟩ := perm_cons_eraseIdx hold
          have hself := sameKey_of_mem hprimary hadmits
            (List.mem_of_getElem? hold)
          obtain ⟨hset, -⟩ := @writeRows_perm _ _ t.rowSchema t.primaryKey _
            t.form rows old old _ hfrom hself
            (not_sameKey_of_admits hprimary.unique hadmits hold)
          have hnew : t.form.finish (assign old (cells t.writtenNames
              (t.updated old values))) = t.updated old values :=
            setRow_updated values
          have hperm := hset (cells t.writtenNames (t.updated old values))
          rw [hnew] at hperm
          simp only [TableDef.write, rows_getD hold]
          exact hperm.trans (hto _)
        next => cases hsource
  | delete index =>
      simp only [TableDef.sourceRows] at hsource
      split at hsource
      next => cases hsource
      next old hold =>
        obtain ⟨-, rfl⟩ := checked_eq_some.mp hsource
        obtain ⟨hfrom, -⟩ := perm_cons_eraseIdx hold
        have hself := sameKey_of_mem hprimary hadmits
          (List.mem_of_getElem? hold)
        obtain ⟨-, hdel⟩ := @writeRows_perm _ _ t.rowSchema t.primaryKey _
          t.form rows old old _ hfrom hself
          (not_sameKey_of_admits hprimary.unique hadmits hold)
        simp only [TableDef.write, rows_getD hold]
        exact hdel

end Write

section Run

variable (tables : Tables)

def keyedTables (name : String) : Option (Keyed String Literal) :=
  (tables.find name).bind fun t =>
    if hkey : t.primaryKey = [] then none else some (t.keyed hkey)

/-- The writes of a run. -/
def runWrites (db : Database) :
    List SourceEvent → List (KeyedDatabase.Write String String Literal)
  | [] => []
  | event :: rest =>
      match tables.find event.table, serverStep tables db event with
      | some t, some next =>
          let write := t.write (db event.table) event.change
          ((event.table, write.1), write.2) :: runWrites next rest
      | _, _ => []

def KeepsKeyEvent (db : Database) (event : SourceEvent) : Prop :=
  ∀ t, tables.find event.table = some t →
    t.KeepsKey (db event.table) event.change

/-- The rows a table has at some time of a run. -/
def HeldDuring (db : Database) (events : List SourceEvent) (name : String)
    (row : Row String Literal) : Prop :=
  ∃ front st, front <+: events ∧
    run (serverStep tables) db front = some st ∧ row ∈ st name

/-- The statements of the changes, executed one after the other on a copy that is
read in a new order each time: every change has a statement, and none is
rejected. -/
def Executes (scan : Nat → Database → Database) :
    Nat → Database → List Change → Database → Prop
  | _, copy, [], final => final = copy
  | n, copy, change :: rest, final =>
      ∃ t statement, tables.find change.table = some t ∧
        buildDml change t.colInfos = some statement.sql ∧
        dml change t.colInfos = some statement ∧
        ∃ rows, t.exec (scan n copy change.table) statement = some rows ∧
          Executes scan (n + 1) (Function.update copy change.table rows) rest
            final

variable {tables} {db last copy : Database} {events : List SourceEvent}
  {Held : String → Row String Literal → Prop}

theorem Tables.find_self {t : TableDef} (ht : t ∈ tables.defs) :
    tables.find t.name = some t := by
  have hsome : (tables.find t.name).isSome := by
    rw [Tables.find, List.find?_isSome]
    exact ⟨t, ht, by simp⟩
  obtain ⟨found, hfound⟩ := Option.isSome_iff_exists.mp hsome
  obtain ⟨hmem, hname⟩ := Tables.find_name hfound
  rw [hfound, List.inj_on_of_nodup_map tables.names hmem ht hname]

theorem keyedTables_of_find {name : String} {t : TableDef}
    (hkeyed : ∀ t ∈ tables.defs, t.HasKey)
    (hfind : tables.find name = some t) :
    keyedTables tables name =
      some (t.keyed (hkeyed t (Tables.find_name hfind).1).key) := by
  rw [keyedTables, hfind, Option.bind_some, dif_neg]

theorem find_of_keyedTables {name : String} {k : Keyed String Literal}
    (hk : keyedTables tables name = some k) :
    ∃ t, ∃ hkey, tables.find name = some t ∧ k = t.keyed hkey := by
  obtain ⟨t, hfind, hsome⟩ := Option.bind_eq_some_iff.mp hk
  split at hsome
  next => cases hsome
  next hkey => exact ⟨t, hkey, hfind, (Option.some.inj hsome).symm⟩

/-- The rows of a source are those it holds itself. -/
theorem sound_of_held (hsound : ∀ t ∈ tables.defs, t.Sound (db t.name))
    (hheld : ∀ name, ∀ row ∈ db name, Held name row) :
    Sound (keyedTables tables) Held db := by
  intro name k hk
  obtain ⟨t, hkey, hfind, rfl⟩ := find_of_keyedTables hk
  obtain ⟨ht, rfl⟩ := Tables.find_name hfind
  obtain ⟨hadmits, hformed⟩ := hsound t ht
  refine ⟨hadmits, fun row hrow => ?_⟩
  exact assembled_of_held (hformed row hrow) (hheld _ row hrow)
    (sameKey_of_mem (t.isPrimary hkey) hadmits hrow)

theorem serverStep_eq_some {event : SourceEvent} {next : Database}
    (hstep : serverStep tables db event = some next) :
    ∃ t rows, tables.find event.table = some t ∧
      t.sourceRows (db event.table) event.change = some rows ∧
      next = Function.update db event.table rows := by
  simp only [serverStep, Option.bind_eq_some_iff,
    Option.map_eq_some_iff] at hstep
  obtain ⟨t, hfind, rows, hsource, rfl⟩ := hstep
  exact ⟨t, rows, hfind, hsource, rfl⟩

/-- A run of a source as its writes: valid where they are made, of values it
holds, and they show all it does. -/
theorem source_run (hkeyed : ∀ t ∈ tables.defs, t.HasKey)
    (hsound : ∀ t ∈ tables.defs, t.Sound (db t.name))
    (hrun : run (serverStep tables) db events = some last)
    (hmeet : StepsMeet (serverStep tables) (KeepsKeyEvent tables) db events)
    (hheld : ∀ front st, front <+: events →
      run (serverStep tables) db front = some st →
        ∀ name, ∀ row ∈ st name, Held name row) :
    (∀ t ∈ tables.defs, t.Sound (last t.name)) ∧
      ValidRun (samePlace (keyedTables tables)) (seen (keyedTables tables) db)
        (runWrites tables db events) ∧
      (∀ write ∈ runWrites tables db events,
        Good (keyedTables tables) Held write) ∧
      seen (keyedTables tables) last =
        (runWrites tables db events).foldl
          (afterWrite (samePlace (keyedTables tables)))
          (seen (keyedTables tables) db) := by
  induction events generalizing db with
  | nil =>
      cases hrun
      exact ⟨hsound, trivial, nofun, rfl⟩
  | cons event events ih =>
      obtain ⟨next, hstep, hrest⟩ := run_cons_eq_some.mp hrun
      obtain ⟨hkeeps, hmeet⟩ := hmeet
      have hnext := sound_of_serverStep hsound hstep
      have hheld' : ∀ front st, front <+: events →
          run (serverStep tables) next front = some st →
            ∀ name, ∀ row ∈ st name, Held name row := by
        intro front st hfront hfrontRun
        exact hheld (event :: front) st
          (List.cons_prefix_cons.mpr ⟨rfl, hfront⟩)
          (run_cons_eq_some.mpr ⟨next, hstep, hfrontRun⟩)
      obtain ⟨hlast, hvalid, hgood, hseen⟩ :=
        ih hnext hrest (hmeet next hstep) hheld'
      obtain ⟨t, rows, hfind, hsource, rfl⟩ := serverStep_eq_some hstep
      obtain ⟨ht, hname⟩ := Tables.find_name hfind
      have hkey := (hkeyed t ht).key
      have hadmits := (hsound t ht).1
      rw [hname] at hadmits
      have htable := keyedTables_of_find hkeyed hfind
      have hheldRows : ∀ row ∈ rows, Held event.table row := by
        intro row hrow
        refine hheld' [] _ List.nil_prefix rfl event.table row ?_
        rwa [Function.update_self]
      obtain ⟨hwrites, hsourced, hfree⟩ := write_good hkey
        (hkeeps t hfind) hadmits hsource hheldRows
      have hshown : seen (keyedTables tables)
          (Function.update db event.table rows) =
            afterWrite (samePlace (keyedTables tables))
              (seen (keyedTables tables) db)
              ((event.table, (t.write (db event.table) event.change).1),
                (t.write (db event.table) event.change).2) := by
        refine seen_update htable fun place => ?_
        have hperm := writeRows_source hkey hadmits hsource
        have hadmitsNext := (hnext t ht).1
        rw [hname, Function.update_self] at hadmitsNext
        have hrows := admits_of_perm hperm.symm hadmitsNext
        have hfound := @rowAt_of_perm _ _ t.rowSchema t.primaryKey _ _ place
          (t.isPrimary hkey) hperm hrows
        change (rowAt t.rowSchema t.primaryKey rows place).map _ = _
        rw [hfound]
        exact rowAt_writeRows hwrites
      simp only [runWrites, hstep, hfind]
      refine ⟨hlast, ⟨valid_seen htable hfree, ?_⟩, ?_, ?_⟩
      · rwa [← hshown]
      · rw [List.forall_mem_cons]
        exact ⟨⟨_, htable, hwrites, hsourced⟩, hgood⟩
      · rw [hseen, hshown, List.foldl_cons]

theorem runWrites_front {front : List SourceEvent} {base : Database}
    (hfront : front <+: events)
    (hbase : run (serverStep tables) db front = some base) :
    runWrites tables db front <+: runWrites tables db events := by
  induction front generalizing db events with
  | nil => exact List.nil_prefix
  | cons event front ih =>
      obtain ⟨rest, rfl⟩ := hfront
      obtain ⟨next, hstep, hbase⟩ := run_cons_eq_some.mp hbase
      obtain ⟨t, rows, hfind, -, rfl⟩ := serverStep_eq_some hstep
      simp only [List.cons_append, runWrites, hstep, hfind]
      rw [List.prefix_cons_inj]
      exact ih (List.prefix_append front rest) hbase

theorem captured_table {t : TableDef} {dbName : String} {micros : Int64}
    {rows : List (Row String Literal)} {change : RowChange} :
    (t.captured dbName micros rows change).table = t.name := by
  cases change <;> rfl

/-- The statements of a run's changes do to any sound copy what its writes do,
however its rows are read. -/
theorem executes_writes {scan : Nat → Database → Database}
    (hscan : ∀ n copy name, (scan n copy name).Perm (copy name))
    (hkeyed : ∀ t ∈ tables.defs, t.HasKey)
    (hsound : ∀ t ∈ tables.defs, t.Sound (db t.name))
    (hrun : run (serverStep tables) db events = some last)
    (hgood : ∀ write ∈ runWrites tables db events,
      Good (keyedTables tables) Held write)
    (hapart : AllApart (keyedTables tables) Held)
    (hcopy : Sound (keyedTables tables) Held copy) (dbName : String) (n : Nat) :
    ∃ final, Executes tables scan n copy (capturedRun tables dbName db events)
        final ∧
      Sound (keyedTables tables) Held final ∧
      seen (keyedTables tables) final =
        (runWrites tables db events).foldl
          (afterWrite (samePlace (keyedTables tables)))
          (seen (keyedTables tables) copy) := by
  induction events generalizing db copy n with
  | nil => exact ⟨copy, rfl, hcopy, rfl⟩
  | cons event events ih =>
      obtain ⟨next, hstep, hrest⟩ := run_cons_eq_some.mp hrun
      have hnext := sound_of_serverStep hsound hstep
      obtain ⟨t, rows, hfind, hsource, rfl⟩ := serverStep_eq_some hstep
      obtain ⟨ht, hname⟩ := Tables.find_name hfind
      have htable := keyedTables_of_find hkeyed hfind
      simp only [runWrites, hstep, hfind] at hgood
      obtain ⟨hwrite, hgood⟩ := List.forall_mem_cons.mp hgood
      have hperm : ∀ name k, keyedTables tables name = some k →
          (scan n copy name).Perm (copy name) :=
        fun name _ _ => hscan n copy name
      have hscanned := sound_of_perm hperm hcopy
      obtain ⟨done, hdone, hdoneSound, hdoneSeen, -⟩ :=
        step_spec hapart hscanned hwrite
      simp only [KeyedDatabase.step, htable, Option.bind_some,
        Option.map_eq_some_iff] at hdone
      obtain ⟨written, hchecked, rfl⟩ := hdone
      obtain ⟨hadmits, hassembled⟩ := hscanned _ _ htable
      have hsourced : Sourced t.rowSchema t.form t.primaryKey
          (Held event.table) (t.write (db event.table) event.change).1
          (t.write (db event.table) event.change).2 := by
        obtain ⟨k, hk, -, hsourced⟩ := hwrite
        rw [htable] at hk
        cases hk
        exact hsourced
      have hdbAdmits := (hsound t ht).1
      rw [hname] at hdbAdmits
      have hexec := exec_write (hkeyed t ht) hdbAdmits hsource hadmits
        hassembled hsourced (hapart _ _ htable)
      have hback : ∀ name k, keyedTables tables name = some k →
          (Function.update copy event.table written name).Perm
            (Function.update (scan n copy) event.table written name) := by
        intro name _ _
        by_cases hsame : name = event.table
        · rw [hsame, Function.update_self, Function.update_self]
        · rw [Function.update_of_ne hsame, Function.update_of_ne hsame]
          exact (hscan n copy name).symm
      obtain ⟨final, hexecutes, hfinal, hseen⟩ := ih hnext hrest hgood
        (sound_of_perm hback hdoneSound) (n + 1)
      have hdml := @dml_captured t dbName event.micros (db event.table)
        event.change (Or.inl (hkeyed t ht).written)
      refine ⟨final, ?_, hfinal, ?_⟩
      · simp only [capturedRun, hfind, hstep, Executes, captured_table, hname]
        refine ⟨t, _, rfl, ?_, hdml, written, hexec.trans hchecked, hexecutes⟩
        rw [buildDml_eq_sql, hdml]
        rfl
      · simp only [runWrites, hstep, hfind]
        rw [hseen, seen_of_perm hback hdoneSound, hdoneSeen,
          seen_of_perm hperm hcopy, List.foldl_cons]

/-- The statements of a run, executed on a copy that holds a part of the run
already, leave what the run left. -/
theorem reexecute {scan : Nat → Database → Database}
    {front : List SourceEvent} {base : Database}
    (hscan : ∀ n copy name, (scan n copy name).Perm (copy name))
    (hkeyed : ∀ t ∈ tables.defs, t.HasKey)
    (hsound : ∀ t ∈ tables.defs, t.Sound (db t.name))
    (hrun : run (serverStep tables) db events = some last)
    (hmeet : StepsMeet (serverStep tables) (KeepsKeyEvent tables) db events)
    (hapart : AllApart (keyedTables tables) (HeldDuring tables db events))
    (hfront : front <+: events)
    (hbase : run (serverStep tables) db front = some base)
    (hcopy : ∀ t ∈ tables.defs, (copy t.name).Perm (base t.name))
    (dbName : String) (n : Nat) :
    ∃ final, Executes tables scan n copy (capturedRun tables dbName db events)
        final ∧
      ∀ t ∈ tables.defs, (final t.name).Perm (last t.name) := by
  have hheld : ∀ part st, part <+: events →
      run (serverStep tables) db part = some st →
        ∀ name, ∀ row ∈ st name, HeldDuring tables db events name row :=
    fun part st hpart hst name row hrow => ⟨part, st, hpart, hst, hrow⟩
  obtain ⟨hlast, hvalid, hgood, hseenLast⟩ :=
    source_run hkeyed hsound hrun hmeet hheld
  obtain ⟨hbaseSound, -, -, hseenBase⟩ := source_run hkeyed hsound hbase
    (stepsMeet_front hfront hmeet)
    fun part st hpart => hheld part st (hpart.trans hfront)
  have hbase' := sound_of_held hbaseSound (hheld front base hfront hbase)
  have hlast' := sound_of_held hlast
    (hheld events last (List.prefix_refl events) hrun)
  have hperm : ∀ name k, keyedTables tables name = some k →
      (copy name).Perm (base name) := by
    intro name k hk
    obtain ⟨t, -, hfind, -⟩ := find_of_keyedTables hk
    obtain ⟨ht, rfl⟩ := Tables.find_name hfind
    exact hcopy t ht
  obtain ⟨final, hexecutes, hfinal, hseen⟩ := executes_writes hscan hkeyed
    hsound hrun hgood hapart (sound_of_perm hperm hbase') dbName n
  have hsame := perm_of_shown (runWrites_front hfront hbase) hvalid hbase'
    hlast' hseenBase hseenLast hperm hfinal hseen
  exact ⟨final, hexecutes, fun t ht =>
    hsame _ _ (keyedTables_of_find hkeyed (Tables.find_self ht))⟩

end Run

end Mysql

end XBackup
