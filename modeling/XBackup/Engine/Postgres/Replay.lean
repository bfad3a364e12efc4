/-
What a replay of captured messages makes of a copy of the source: when each
change of the source is made there too, and every run of such changes.
-/
import XBackup.Engine.Postgres.Server
import XBackup.Foundation.Fallible
import XBackup.Foundation.Transition

namespace XBackup

namespace Postgres

open Bytes Fallible MemoTable Rows Transition

/-- Places chosen by a property of the items there are the items chosen by
it. -/
theorem map_filter_range {α β : Type} {items : List α} {atPlace : Nat → Bool}
    {chosen : α → Bool} {place : Nat → β} {made : α → β}
    (hitems : ∀ i (hi : i < items.length), atPlace i = chosen items[i] ∧
      (chosen items[i] = true → place i = made items[i])) :
    ((List.range items.length).filter atPlace).map place =
      (items.filter chosen).map made := by
  induction items using List.reverseRecOn with
  | nil => rfl
  | append_singleton items item ih =>
      have hearlier : ∀ i (hi : i < items.length),
          atPlace i = chosen items[i] ∧
            (chosen items[i] = true → place i = made items[i]) := by
        intro i hi
        have hitem := hitems i (by simp; omega)
        rwa [List.getElem_append_left hi] at hitem
      obtain ⟨hchosen, hmade⟩ := hitems items.length (by simp)
      rw [List.getElem_concat_length rfl] at hchosen hmade
      rw [List.length_append, List.length_singleton, List.range_succ,
        List.filter_append, List.filter_append, List.map_append,
        List.map_append, ih hearlier, List.filter_singleton,
        List.filter_singleton, hchosen]
      cases hitem : chosen item with
      | true => simp [hmade hitem]
      | false => rfl

namespace TableDef

variable (t : TableDef)

def relMeta : RelMeta :=
  ⟨t.schema, t.table, t.columns.map fun col => (col.name, t.flags col)⟩

/-- The old values that are sent. -/
def keyVals (old : Row String String) : List (Option String) :=
  t.columns.map fun col => if t.flags col then old col.name else none

/-- The change that is captured of a change of the source. -/
def captured (micros : Int64) (rows : List (Row String String)) :
    RowChange → Change
  | .insert values =>
      { op := .insert
        schema := t.schema
        table := t.table
        colnames := t.colnames
        keycols := t.columns.map t.flags
        newVals := t.columns.map fun col => t.inserted values col.name
        newUnchanged := t.columns.map fun _ => false
        keyVals := []
        commitUnixMicros := micros }
  | .update index values toasted sendsKey =>
      let old := rows.getD index fun _ => none
      { op := .update
        schema := t.schema
        table := t.table
        colnames := t.colnames
        keycols := t.columns.map t.flags
        newVals := t.columns.map fun col =>
          if col.name ∈ toasted then none
          else t.updated old values col.name
        newUnchanged := t.columns.map fun col => decide (col.name ∈ toasted)
        keyVals :=
          if t.identity = .full ∨ sendsKey then t.keyVals old else []
        commitUnixMicros := micros }
  | .delete index =>
      { op := .delete
        schema := t.schema
        table := t.table
        colnames := t.colnames
        keycols := t.columns.map t.flags
        newVals := []
        newUnchanged := []
        keyVals := t.keyVals (rows.getD index fun _ => none)
        commitUnixMicros := micros }

end TableDef

section Capture

variable {t : TableDef} {d : Decoder} {rows : List (Row String String)}

theorem value_columnData (value : Option String) :
    (TableDef.columnData value).value = value := by
  cases value <;> rfl

theorem isUnchanged_columnData (value : Option String) :
    (TableDef.columnData value).isUnchanged = false := by
  cases value <;> rfl

theorem oldTuple_value (old : Row String String) :
    (t.oldTuple old).2.map ColumnData.value = t.keyVals old := by
  rw [TableDef.oldTuple, TableDef.keyVals]
  rcases hidentity : t.identity with _ | _
  · simp only [TableDef.keyTuple, List.map_map]
    refine List.map_congr_left fun col _ => ?_
    rw [Function.comp_apply, TableDef.flags, hidentity]
    dsimp only
    split
    · exact value_columnData _
    · rfl
  · simp only [TableDef.tupleOf, List.map_map]
    refine List.map_congr_left fun col _ => ?_
    rw [Function.comp_apply, TableDef.flags, hidentity]
    exact value_columnData _

theorem newTuple_value (new : Row String String) (toasted : List String) :
    (t.newTuple new toasted).map ColumnData.value =
      t.columns.map fun col =>
        if col.name ∈ toasted then none else new col.name := by
  rw [TableDef.newTuple, List.map_map]
  refine List.map_congr_left fun col _ => ?_
  rw [Function.comp_apply]
  split
  · rfl
  · exact value_columnData _

theorem newTuple_isUnchanged (new : Row String String)
    (toasted : List String) :
    (t.newTuple new toasted).map ColumnData.isUnchanged =
      t.columns.map fun col => decide (col.name ∈ toasted) := by
  rw [TableDef.newTuple, List.map_map]
  refine List.map_congr_left fun col _ => ?_
  rw [Function.comp_apply]
  split
  next htoasted => exact (decide_eq_true htoasted).symm
  next hsent =>
    rw [isUnchanged_columnData]
    exact (decide_eq_false hsent).symm

theorem feed_change {change : RowChange}
    (hfits : (t.changeMessage rows change).Fits)
    (hfound : d.rels.lookup (signed 32 t.oid) = some t.relMeta) :
    d.feed (t.changeMessage rows change).encode =
      .ok (some (t.captured d.curCommitMicros rows change), d) := by
  have hnames : t.relMeta.cols.map Prod.fst = t.colnames := by
    simp [TableDef.relMeta, TableDef.colnames]
  have hkeys : t.relMeta.cols.map Prod.snd = t.columns.map t.flags := by
    simp [TableDef.relMeta]
  cases change with
  | insert values =>
      rw [TableDef.changeMessage, feed_insert t.oid_lt hfits hfound]
      simp only [Decoder.make, TableDef.captured, hnames, hkeys]
      simp [TableDef.tupleOf, value_columnData, isUnchanged_columnData,
        TableDef.relMeta, Function.comp_def]
  | update index values toasted sendsKey =>
      rw [TableDef.changeMessage, feed_update t.oid_lt hfits hfound,
        newTuple_value, newTuple_isUnchanged]
      simp only [Decoder.make, TableDef.captured, hnames, hkeys]
      split
      · simp only [Option.elim_some, oldTuple_value]
        rfl
      · rfl
  | delete index =>
      have hmessage : t.changeMessage rows (.delete index) =
          .delete t.oid (t.oldTuple (rows.getD index fun _ => none)).1
            (t.oldTuple (rows.getD index fun _ => none)).2 := rfl
      rw [hmessage] at hfits ⊢
      rw [feed_delete t.oid_lt hfits hfound, oldTuple_value]
      simp only [Decoder.make, TableDef.captured, hnames, hkeys]
      rfl

end Capture

namespace TableDef

variable (t : TableDef)

/-- The columns as the replay is told of them, in the order of the stream. -/
def metas : List ColMeta :=
  t.columns.map fun col => ⟨col.casttype, col.generatedAlways⟩

/-- The columns an INSERT sets in a row that is there. -/
def upserted : List String :=
  (t.columns.filter fun col => !t.flags col && !col.generatedAlways).map
    Column.name

/-- The columns an update sets. -/
def settable (toasted : List String) : List Column :=
  t.columns.filter fun col =>
    !decide (col.name ∈ toasted) && !col.generatedAlways

end TableDef

def boundTo (columns : List Column) (row : Row String String) : List Bound :=
  columns.map fun col => ⟨col.name, col.casttype, row col.name⟩

section BuildDml

variable {t : TableDef} {rows : List (Row String String)} {micros : Int64}

theorem keyPositions_map {β : Type} {place : Nat → β} {made : Column → β}
    (hplace : ∀ i (hi : i < t.columns.length),
      t.flags t.columns[i] = true → place i = made t.columns[i]) :
    ((List.range (t.columns.map t.flags).length).filter fun i =>
        (t.columns.map t.flags).getD i false).map place =
      (t.columns.filter t.flags).map made := by
  rw [List.length_map]
  apply map_filter_range
  intro i hi
  refine ⟨?_, hplace i hi⟩
  simp [hi]

theorem colnames_getD {i : Nat} (hi : i < t.columns.length) :
    t.colnames.getD i "" = t.columns[i].name := by
  simp [TableDef.colnames, hi]

theorem metas_getD {i : Nat} (hi : i < t.columns.length) :
    t.metas.getD i ⟨"", false⟩ =
      ⟨t.columns[i].casttype, t.columns[i].generatedAlways⟩ := by
  simp [TableDef.metas, hi]

theorem length_colnames_metas :
    ¬ t.colnames.length ≠ t.metas.length := by
  simp [TableDef.colnames, TableDef.metas]

theorem conflict_eq :
    ((List.range (t.columns.map t.flags).length).filter fun i =>
        (t.columns.map t.flags).getD i false).map
        (fun i => t.colnames.getD i "") = t.flagged :=
  keyPositions_map fun _ hi _ => colnames_getD hi

theorem keyPositions_isEmpty :
    ((List.range (t.columns.map t.flags).length).filter fun i =>
        (t.columns.map t.flags).getD i false).isEmpty = true ↔
      t.flagged = [] := by
  rw [← conflict_eq, List.isEmpty_iff, List.map_eq_nil_iff]

/-- The key columns, bound to values that are those of a row there. -/
theorem keys_eq {row : Row String String} {source : List (Option String)}
    (hsource : ∀ i (hi : i < t.columns.length),
      t.flags t.columns[i] = true →
        source.getD i none = row t.columns[i].name) :
    ((List.range (t.columns.map t.flags).length).filter fun i =>
        (t.columns.map t.flags).getD i false).map (fun i =>
          Bound.mk (t.colnames.getD i "")
            (t.metas.getD i ⟨"", false⟩).casttype (source.getD i none)) =
      boundTo (t.columns.filter t.flags) row := by
  apply keyPositions_map
  intro i hi hflag
  rw [colnames_getD hi, metas_getD hi, hsource i hi hflag]

/-- The columns an update sets, bound to the values that were sent. -/
theorem sets_eq {new : Row String String} {toasted : List String} :
    (((List.range t.colnames.length).filter fun i =>
        !(t.metas.getD i ⟨"", false⟩).generatedAlways).filter fun i =>
        !(t.columns.map fun col => decide (col.name ∈ toasted)).getD i
          false).map (fun i => Bound.mk (t.colnames.getD i "")
            (t.metas.getD i ⟨"", false⟩).casttype
            ((t.columns.map fun col =>
              if col.name ∈ toasted then none
              else new col.name).getD i none)) =
      boundTo (t.settable toasted) new := by
  rw [List.filter_filter, TableDef.settable]
  have hlength : t.colnames.length = t.columns.length := by
    simp [TableDef.colnames]
  rw [hlength]
  apply map_filter_range
  intro i hi
  rw [colnames_getD hi, metas_getD hi]
  refine ⟨by simp [hi], fun hset => ?_⟩
  simp only [Bool.and_eq_true, Bool.not_eq_true', decide_eq_false_iff_not]
    at hset
  simp [hi, hset.1]

theorem upserted_eq :
    ((List.range t.colnames.length).filter fun i =>
        !((List.range (t.columns.map t.flags).length).filter fun i =>
          (t.columns.map t.flags).getD i false).contains i &&
        !(t.metas.getD i ⟨"", false⟩).generatedAlways).map
        (fun i => t.colnames.getD i "") = t.upserted := by
  have hlength : t.colnames.length = t.columns.length := by
    simp [TableDef.colnames]
  rw [hlength, TableDef.upserted]
  apply map_filter_range
  intro i hi
  rw [colnames_getD hi, metas_getD hi]
  refine ⟨?_, fun _ => rfl⟩
  have hcontains : ((List.range (t.columns.map t.flags).length).filter fun i =>
      (t.columns.map t.flags).getD i false).contains i =
        t.flags t.columns[i] := by
    rw [Bool.eq_iff_iff, List.contains_iff_mem, List.mem_filter]
    simp [hi]
  rw [hcontains]

theorem buildDml_insert (values : List (Option String)) :
    buildDml (t.captured micros rows (.insert values)) t.metas =
      some (.insert t.schema t.table
        (t.columns.map fun col => (col.name, col.casttype))
        (t.columns.map fun col => t.inserted values col.name) t.flagged
        t.upserted) := by
  have hcolumns : ((List.range t.colnames.length).map fun i =>
      (t.colnames.getD i "", (t.metas.getD i ⟨"", false⟩).casttype)) =
        t.columns.map fun col => (col.name, col.casttype) := by
    refine List.ext_getElem (by simp [TableDef.colnames]) ?_
    intro i hi hi'
    rw [List.length_map] at hi'
    rw [List.getElem_map, List.getElem_range, colnames_getD hi',
      metas_getD hi', List.getElem_map]
  have hupdated := @upserted_eq t
  simp only [buildDml, TableDef.captured, if_neg length_colnames_metas,
    hcolumns, conflict_eq]
  rw [hupdated]

theorem rows_getD {index : Nat} {old : Row String String}
    (hold : rows[index]? = some old) :
    rows.getD index (fun _ => none) = old := by
  rw [List.getD_eq_getElem?_getD, hold]
  rfl

theorem keyVals_getD {old : Row String String} {i : Nat}
    (hi : i < t.columns.length) (hflag : t.flags t.columns[i] = true) :
    (t.keyVals old).getD i none = old t.columns[i].name := by
  simp [TableDef.keyVals, hi, hflag]

/-- The key of the row before an update is that of the old tuple, or of the new
one where it was not needed. -/
theorem keySource_getD {old new : Row String String} {toasted : List String}
    {sendsKey : Bool}
    (hneeded : t.keyNeeded old new toasted = true → sendsKey = true) {i : Nat}
    (hi : i < t.columns.length) (hflag : t.flags t.columns[i] = true) :
    let keyVals := if t.identity = .full ∨ sendsKey = true then t.keyVals old
      else []
    let newVals := t.columns.map fun col =>
      if col.name ∈ toasted then none else new col.name
    (if keyVals.length = t.colnames.length then keyVals
      else newVals).getD i none = old t.columns[i].name := by
  intro keyVals newVals
  by_cases hsent : t.identity = .full ∨ sendsKey = true
  · have hlength : keyVals.length = t.colnames.length := by
      simp [keyVals, hsent, TableDef.keyVals, TableDef.colnames]
    rw [if_pos hlength]
    simp only [keyVals, if_pos hsent]
    exact keyVals_getD hi hflag
  · have hlength : ¬ keyVals.length = t.colnames.length := by
      simp only [keyVals, if_neg hsent, List.length_nil, TableDef.colnames,
        List.length_map]
      omega
    rw [not_or] at hsent
    -- the column belongs to the primary key, which did not change
    have hinKey : t.columns[i].inPrimaryKey = true := by
      cases hidentity : t.identity with
      | primaryKey => simpa [TableDef.flags, hidentity] using hflag
      | full => exact absurd hidentity hsent.1
    have hmem : t.columns[i].name ∈ t.primaryKey :=
      List.mem_map_of_mem (List.mem_filter.mpr
        ⟨List.getElem_mem hi, hinKey⟩)
    have hkept : ¬ (new t.columns[i].name ≠ old t.columns[i].name ∨
        t.columns[i].name ∈ toasted) := by
      intro hchanged
      exact hsent.2 (hneeded (List.any_eq_true.mpr
        ⟨_, hmem, decide_eq_true hchanged⟩))
    rw [not_or, not_not] at hkept
    rw [if_neg hlength]
    simp [newVals, hi, hkept]

/-- The key values of an update are those of the old row. -/
theorem buildDml_update {index : Nat} {values : List (Option String)}
    {toasted : List String} {sendsKey : Bool} {old : Row String String}
    (hold : rows[index]? = some old)
    (hneeded : t.keyNeeded old (t.updated old values) toasted = true →
      sendsKey = true) :
    buildDml (t.captured micros rows
        (.update index values toasted sendsKey)) t.metas =
      if t.flagged = [] then none
      else if t.settable toasted = [] then none
      else some (.update t.schema t.table
        (boundTo (t.settable toasted) (t.updated old values))
        (boundTo (t.columns.filter t.flags) old)) := by
  have hsets := @sets_eq t (t.updated old values) toasted
  have hempty := congrArg (fun sets => sets = []) hsets
  simp only [boundTo, List.map_eq_nil_iff, eq_iff_iff] at hempty
  simp only [buildDml, TableDef.captured, if_neg length_colnames_metas,
    rows_getD hold, keyPositions_isEmpty, hsets, List.isEmpty_iff.trans hempty,
    keys_eq fun _ hi hflag => keySource_getD hneeded hi hflag]

theorem buildDml_delete {index : Nat} {old : Row String String}
    (hold : rows[index]? = some old) :
    buildDml (t.captured micros rows (.delete index)) t.metas =
      if t.flagged = [] then none
      else some (.delete t.schema t.table
        (boundTo (t.columns.filter t.flags) old)) := by
  simp only [buildDml, TableDef.captured, if_neg length_colnames_metas,
    rows_getD hold, keyPositions_isEmpty,
    keys_eq fun _ hi hflag => keyVals_getD hi hflag]

end BuildDml

namespace TableDef

variable (t : TableDef)

/-- The rows behind the statement of a change of other rows. -/
def replayedOn (micros : Int64) (rows : List (Row String String))
    (change : RowChange) (copy : List (Row String String)) :
    Option (List (Row String String)) :=
  match buildDml (t.captured micros rows change) t.metas with
  | none => some copy
  | some dml => dml.statement.bind (exec t.rowSchema copy)

def replayed (micros : Int64) (rows : List (Row String String))
    (change : RowChange) : Option (List (Row String String)) :=
  t.replayedOn micros rows change rows

/-- The flagged columns name the row, none of them being NULL. -/
def Named (row : Row String String) : Prop :=
  t.flagged ≠ [] ∧ ∀ c ∈ t.flagged, row c ≠ none

/-- When a change is replayed as it was made.  An INSERT: if what it names in ON
CONFLICT is a unique key.  An UPDATE: if it names the row, changes no GENERATED
ALWAYS column, and any other row it names has the new values already.  A DELETE:
if it names just the row. -/
def Replayable (rows : List (Row String String)) : RowChange → Prop
  | .insert _ =>
      t.flagged = [] ∨ isArbiter t.rowSchema t.flagged = true
  | .update index values toasted _ =>
      ∀ old, rows[index]? = some old →
        (t.updated old values = old ∨ t.Named old ∧
          ∀ c ∈ t.rowSchema.generatedAlways,
            t.updated old values c = old c) ∧
        (t.flagged ≠ [] → ∀ other ∈ rows.eraseIdx index,
          sameKey t.rowSchema t.flagged other old = true →
            ∀ col ∈ t.settable toasted,
              other col.name = t.updated old values col.name)
  | .delete index =>
      ∀ old, rows[index]? = some old →
        t.Named old ∧ ∀ other ∈ rows.eraseIdx index,
          ¬ sameKey t.rowSchema t.flagged other old = true

end TableDef

section Replayed

variable {t : TableDef} {micros : Int64} {rows next : List (Row String String)}

theorem boundTo_cells {columns : List Column} {row : Row String String} :
    (boundTo columns row).map Bound.cell =
      cells (columns.map Column.name) row := by
  simp [boundTo, cells, Bound.cell, Function.comp_def]

theorem boundTo_eq_nil {columns : List Column} {row : Row String String} :
    boundTo columns row = [] ↔ columns = [] :=
  List.map_eq_nil_iff

theorem settable_notMem_generatedAlways {toasted : List String} {c : String}
    (hc : c ∈ (t.settable toasted).map Column.name) :
    c ∉ t.rowSchema.generatedAlways := by
  obtain ⟨col, hcol, rfl⟩ := List.mem_map.mp hc
  obtain ⟨hmem, hset⟩ := List.mem_filter.mp hcol
  intro hgenerated
  obtain ⟨other, hother, hname⟩ := List.mem_map.mp hgenerated
  obtain ⟨hotherMem, halways⟩ := List.mem_filter.mp hother
  have hsame : other = col :=
    List.inj_on_of_nodup_map t.names hotherMem hmem hname
  simp [← hsame, halways] at hset

theorem sets_allowed {toasted : List String} {new : Row String String} :
    ∀ cell ∈ cells ((t.settable toasted).map Column.name) new,
      cell.1 ∉ t.rowSchema.generatedAlways := by
  rw [cells, List.forall_mem_map]
  exact fun c hc => settable_notMem_generatedAlways hc

/-- What an update does not set is kept by it, GENERATED ALWAYS columns
apart. -/
theorem updated_of_notMem_settable {values : List (Option String)}
    {toasted : List String} {old : Row String String}
    (hkept : ∀ c ∈ toasted, t.updated old values c = old c)
    (hgenerated : ∀ c ∈ t.rowSchema.generatedAlways,
      t.updated old values c = old c) {c : String}
    (hc : c ∉ (t.settable toasted).map Column.name) :
    t.updated old values c = old c := by
  by_cases hname : c ∈ t.colnames
  · obtain ⟨col, hcol, rfl⟩ := List.mem_map.mp hname
    by_cases htoasted : col.name ∈ toasted
    · exact hkept col.name htoasted
    · apply hgenerated
      refine List.mem_map_of_mem (List.mem_filter.mpr ⟨hcol, ?_⟩)
      by_contra halways
      refine hc (List.mem_map_of_mem (List.mem_filter.mpr ⟨hcol, ?_⟩))
      simpa [htoasted] using halways
  · exact assign_of_notMem hname

theorem inserted_cells (values : List (Option String)) :
    assign (fun _ => none) (cells t.colnames (t.inserted values)) =
      t.inserted values := by
  funext c
  rw [assign_cells]
  split
  next => rfl
  next hc => rw [TableDef.inserted, assign_of_notMem hc]

variable {copy : List (Row String String)} {old : Row String String}

theorem replayedOn_insert (values : List (Option String)) :
    t.replayedOn micros rows (.insert values) copy =
      exec t.rowSchema copy (.insert (cells t.colnames (t.inserted values))
        t.flagged t.upserted) := by
  have hcells : ((t.columns.map fun col => (col.name, col.casttype)).map
      Prod.fst).zip (t.columns.map fun col =>
        t.inserted values col.name) =
      cells t.colnames (t.inserted values) := by
    simp [TableDef.colnames, cells, List.zip_map', Function.comp_def]
  rw [TableDef.replayedOn, buildDml_insert]
  simp only [Dml.statement, List.length_map, if_true, Option.bind_some, hcells]

theorem replayedOn_update {index : Nat} {values : List (Option String)}
    {toasted : List String} {sendsKey : Bool} (hold : rows[index]? = some old)
    (hneeded : t.keyNeeded old (t.updated old values) toasted = true →
      sendsKey = true) :
    t.replayedOn micros rows (.update index values toasted sendsKey) copy =
      if t.flagged = [] then some copy
      else if t.settable toasted = [] then some copy
      else exec t.rowSchema copy (.update
        (cells ((t.settable toasted).map Column.name) (t.updated old values))
        (cells t.flagged old)) := by
  rw [TableDef.replayedOn, buildDml_update hold hneeded]
  by_cases hflagged : t.flagged = []
  · rw [if_pos hflagged, if_pos hflagged]
  rw [if_neg hflagged, if_neg hflagged]
  by_cases hsettable : t.settable toasted = []
  · rw [if_pos hsettable, if_pos hsettable]
  rw [if_neg hsettable, if_neg hsettable]
  simp only [Dml.statement, Option.bind_some, boundTo_cells]
  rfl

theorem replayedOn_delete {index : Nat} (hold : rows[index]? = some old) :
    t.replayedOn micros rows (.delete index) copy =
      if t.flagged = [] then some copy
      else exec t.rowSchema copy (.delete (cells t.flagged old)) := by
  rw [TableDef.replayedOn, buildDml_delete hold]
  by_cases hflagged : t.flagged = []
  · rw [if_pos hflagged, if_pos hflagged]
  rw [if_neg hflagged, if_neg hflagged]
  simp only [Dml.statement, Option.bind_some, boundTo_cells]
  rfl

theorem replayed_insert {values : List (Option String)}
    (hsource : t.sourceRows rows (.insert values) = some next) :
    t.replayed micros rows (.insert values) = some next ↔
      t.Replayable rows (.insert values) := by
  simp only [TableDef.sourceRows] at hsource
  split at hsource
  next hlength =>
    obtain ⟨hadmits, rfl⟩ := checked_eq_some.mp hsource
    rw [TableDef.replayed, replayedOn_insert, TableDef.Replayable]
    by_cases hflagged : t.flagged = []
    · simp only [exec, hflagged, if_true, inserted_cells, true_or, iff_true]
      exact checked_of_admits hadmits
    · rw [exec_insert_iff (inserted_cells values) hflagged hadmits]
      exact (or_iff_right hflagged).symm
  next => cases hsource

theorem replayed_update {index : Nat} {values : List (Option String)}
    {toasted : List String} {sendsKey : Bool}
    (hsource : t.sourceRows rows (.update index values toasted sendsKey) =
      some next) :
    t.replayed micros rows (.update index values toasted sendsKey) =
        some next ↔
      t.Replayable rows (.update index values toasted sendsKey) := by
  simp only [TableDef.sourceRows] at hsource
  split at hsource
  next => cases hsource
  next old hold =>
    split at hsource
    next hcond =>
      obtain ⟨hlength, hkept, hneeded⟩ := hcond
      obtain ⟨hadmits, rfl⟩ := checked_eq_some.mp hsource
      rw [TableDef.replayed, replayedOn_update hold hneeded]
      simp only [TableDef.Replayable, hold, Option.some.injEq, forall_eq']
      by_cases hflagged : t.flagged = []
      · simp [hflagged, eq_set_iff hold, TableDef.Named]
      have hunset : (∀ c ∈ t.rowSchema.generatedAlways,
          t.updated old values c = old c) ↔
          ∀ c, c ∉ (t.settable toasted).map Column.name →
            t.updated old values c = old c := by
        refine ⟨fun hgenerated c => updated_of_notMem_settable hkept
          hgenerated, fun hall c hc => hall c fun hset => ?_⟩
        exact settable_notMem_generatedAlways hset hc
      have hnamed : t.Named old ↔
          sameKey t.rowSchema t.flagged old old = true := by
        rw [sameKey_self_iff]
        exact and_iff_right hflagged
      rw [hunset, hnamed, if_neg hflagged]
      have hchanged : t.updated old values = old → ∀ c,
          c ∉ (t.settable toasted).map Column.name →
            t.updated old values c = old c := fun hsame c _ =>
        congrFun hsame c
      by_cases hsettable : t.settable toasted = []
      · have hall : (∀ c, t.updated old values c = old c) ↔
            t.updated old values = old := funext_iff.symm
        simp [hsettable, eq_set_iff hold, hall]
      · rw [if_neg hsettable]
        refine (exec_update_set_iff hold sets_allowed hadmits).trans ?_
        simp only [assign_cells_eq_iff, assign_cells_eq_self_iff,
          List.forall_mem_map]
        have hothers : (t.flagged ≠ [] → ∀ other ∈ rows.eraseIdx index,
            sameKey t.rowSchema t.flagged other old = true →
              ∀ col ∈ t.settable toasted,
                other col.name = t.updated old values col.name) ↔
            ∀ other ∈ rows.eraseIdx index,
              sameKey t.rowSchema t.flagged other old = true →
                ∀ col ∈ t.settable toasted,
                  other col.name = t.updated old values col.name :=
          ⟨fun h => h hflagged, fun h _ => h⟩
        rw [hothers, ← and_assoc]
        refine and_congr_left fun _ => ?_
        change (sameKey t.rowSchema t.flagged old old = true → _) ∧
          (¬ sameKey t.rowSchema t.flagged old old = true → _) ↔ _
        by_cases hsame : sameKey t.rowSchema t.flagged old old = true
        · simp only [hsame, true_and, forall_const, not_true_eq_false,
            false_imp_iff, and_true]
          exact ⟨Or.inr, fun h => h.elim hchanged id⟩
        · constructor
          · rintro ⟨-, hunchanged⟩
            exact Or.inl (hunchanged hsame).symm
          · rintro (hunchanged | ⟨hmatched, -⟩)
            · exact ⟨fun hmatched => absurd hmatched hsame,
                fun _ => hunchanged.symm⟩
            · exact absurd hmatched hsame
    next => cases hsource

theorem replayed_delete {index : Nat}
    (hsource : t.sourceRows rows (.delete index) = some next) :
    t.replayed micros rows (.delete index) = some next ↔
      t.Replayable rows (.delete index) := by
  simp only [TableDef.sourceRows] at hsource
  split at hsource
  next => cases hsource
  next old hold =>
    obtain ⟨hadmits, rfl⟩ := checked_eq_some.mp hsource
    rw [TableDef.replayed, replayedOn_delete hold]
    simp only [TableDef.Replayable, hold, Option.some.injEq, forall_eq']
    by_cases hflagged : t.flagged = []
    · -- the change is passed over, and the row stays
      have hfewer : rows ≠ rows.eraseIdx index := by
        intro hsame
        have hlength := congrArg List.length hsame
        obtain ⟨hindex, -⟩ := List.getElem?_eq_some_iff.mp hold
        rw [List.length_eraseIdx_of_lt hindex] at hlength
        omega
      simp [hflagged, hfewer, TableDef.Named]
    · rw [if_neg hflagged]
      refine (exec_delete_eraseIdx_iff hold hadmits).trans ?_
      exact and_congr_left fun _ =>
        sameKey_self_iff.trans (and_iff_right hflagged).symm

/-- A copy of the rows before a change has those behind it if and only if the
change is replayable. -/
theorem TableDef.replayed_iff {change : RowChange}
    (hsource : t.sourceRows rows change = some next) :
    t.replayed micros rows change = some next ↔ t.Replayable rows change := by
  cases change with
  | insert values => exact replayed_insert hsource
  | update index values toasted sendsKey => exact replayed_update hsource
  | delete index => exact replayed_delete hsource

/-- With the primary key as replica identity every change is replayable but one
of a GENERATED ALWAYS column. -/
theorem TableDef.replayable_of_primaryKey {change : RowChange}
    (hidentity : t.identity = .primaryKey)
    (hadmits : admits t.rowSchema rows = true)
    (hgenerated : ∀ index values toasted sendsKey,
      change = .update index values toasted sendsKey →
        ∀ old, rows[index]? = some old →
          ∀ c ∈ t.rowSchema.generatedAlways,
            t.updated old values c = old c) :
    t.Replayable rows change := by
  have hflagged : t.flagged = t.primaryKey := by
    rw [TableDef.flagged, TableDef.primaryKey]
    congr 1
    refine List.filter_congr fun col _ => ?_
    rw [TableDef.flags, hidentity]
  have hne : t.primaryKey ≠ [] := by
    obtain ⟨col, hcol, hinKey⟩ := t.hasKey hidentity
    exact List.ne_nil_of_mem (List.mem_map_of_mem
      (List.mem_filter.mpr ⟨hcol, hinKey⟩))
  have hunique : t.primaryKey ∈ t.rowSchema.uniqueKeys := by
    simp [TableDef.rowSchema, hne]
  have hnamed : ∀ (index : Nat) old, rows[index]? = some old →
      t.Named old := by
    intro index old hold
    rw [TableDef.Named, hflagged]
    exact ⟨hne, (admits_iff.mp hadmits).2 old (List.mem_of_getElem? hold)⟩
  cases change with
  | insert values =>
      refine Or.inr (isArbiter_iff.mpr ⟨_, hunique, fun c => ?_⟩)
      rw [hflagged]
  | update index values toasted sendsKey =>
      intro old hold
      refine ⟨Or.inr ⟨hnamed index old hold,
        hgenerated index values toasted sendsKey rfl old hold⟩, ?_⟩
      intro _ other hother hsame
      rw [hflagged] at hsame
      exact absurd hsame (not_sameKey_of_admits hunique hadmits hold other
        hother)
  | delete index =>
      intro old hold
      rw [hflagged]
      exact ⟨hnamed index old hold, not_sameKey_of_admits hunique hadmits hold⟩

end Replayed

end Postgres

end XBackup
