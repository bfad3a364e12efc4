/-
The changes of a PostgreSQL increment as writes under primary keys, and what
applying them again makes of a copy.
-/
import XBackup.Engine.Postgres.Convergence
import XBackup.Foundation.KeyedDatabase

namespace XBackup

namespace Postgres

open Fallible KeyedDatabase MemoTable RowActs Rows Transition

namespace TableDef

variable (t : TableDef)

/-- Rows are written as they are given. -/
def form : Finishing String String where
  finish := id
  view := id
  written := t.colnames
  Formed _ := True
  view_assign _ _ _ := rfl
  view_finish _ _ := rfl
  finish_apply _ _ _ := rfl
  formed_assign _ _ _ _ := trivial
  formed_finish _ _ := trivial
  eq_of_view _ _ _ _ hview := hview

theorem flagged_eq (hidentity : t.identity = .primaryKey) :
    t.flagged = t.primaryKey := by
  rw [flagged, primaryKey]
  congr 1
  refine List.filter_congr fun col _ => ?_
  rw [flags, hidentity]

theorem primaryKey_ne_nil (hidentity : t.identity = .primaryKey) :
    t.primaryKey ≠ [] := by
  obtain ⟨col, hcol, hinKey⟩ := t.hasKey hidentity
  exact List.ne_nil_of_mem (List.mem_map_of_mem
    (List.mem_filter.mpr ⟨hcol, hinKey⟩))

theorem isPrimary (hidentity : t.identity = .primaryKey) :
    t.rowSchema.IsPrimary t.primaryKey where
  unique := by simp [rowSchema, t.primaryKey_ne_nil hidentity]
  notNull _ hc := hc

/-- A table whose replica identity is its primary key. -/
def keyed (hidentity : t.identity = .primaryKey) : Keyed String String where
  schema := t.rowSchema
  key := t.primaryKey
  form := t.form
  primary := t.isPrimary hidentity
  notNull _ hc := hc

/-- The write of a change: of which row, and what. -/
def write (rows : List (Row String String)) :
    RowChange → Row String String × Act String String
  | .insert values =>
      (t.inserted values, .put (t.inserted values) t.upserted)
  | .update index values toasted _ =>
      let old := rows.getD index fun _ => none
      (old, .set (cells ((t.settable toasted).map Column.name)
        (t.updated old values)))
  | .delete index => (rows.getD index fun _ => none, .del)

/-- A change that keeps the key of its row, and its GENERATED ALWAYS columns. -/
def KeepsKey (rows : List (Row String String)) : RowChange → Prop
  | .update index values _ _ =>
      ∀ old, rows[index]? = some old →
        ∀ c, c ∈ t.primaryKey ∨ c ∈ t.rowSchema.generatedAlways →
          t.updated old values c = old c
  | _ => True

end TableDef

section Write

variable {t : TableDef} {rows copy next : List (Row String String)}
  {micros : Int64} {change : RowChange}

theorem writeRows_replayedOn (hidentity : t.identity = .primaryKey)
    (hsource : t.sourceRows rows change = some next)
    (hcopy : admits t.rowSchema copy = true) :
    t.replayedOn micros rows change copy =
      checked t.rowSchema (writeRows t.rowSchema t.form t.primaryKey copy
        (t.write rows change).1 (t.write rows change).2) := by
  have hflagged := t.flagged_eq hidentity
  have hne : ¬ t.flagged = [] := hflagged ▸ t.primaryKey_ne_nil hidentity
  cases change with
  | insert values =>
      have harbiter : isArbiter t.rowSchema t.flagged = true := by
        rw [hflagged]
        exact isArbiter_iff.mpr
          ⟨_, (t.isPrimary hidentity).unique, fun _ => Iff.rfl⟩
      rw [replayedOn_insert]
      simp only [exec, inserted_cells, if_neg hne, if_pos harbiter]
      rw [hflagged]
      rfl
  | update index values toasted sendsKey =>
      simp only [TableDef.sourceRows] at hsource
      split at hsource
      next => cases hsource
      next old hold =>
        split at hsource
        next hcond =>
          rw [replayedOn_update hold hcond.2.2, if_neg hne, TableDef.write,
            rows_getD hold]
          by_cases hsettable : t.settable toasted = []
          · have hsame : writeRows t.rowSchema t.form t.primaryKey copy old
                (.set (cells ((t.settable toasted).map Column.name)
                  (t.updated old values))) = copy := by
              simp [writeRows, hsettable, cells, TableDef.form]
            rw [if_pos hsettable, hsame, checked_of_admits hcopy]
          · have hallowed : ¬ ((cells ((t.settable toasted).map Column.name)
                (t.updated old values)).any fun cell =>
                  decide (cell.1 ∈ t.rowSchema.generatedAlways)) = true := by
              simpa using sets_allowed
            rw [if_neg hsettable, exec, if_neg hallowed, hflagged]
            rfl
        next => cases hsource
  | delete index =>
      simp only [TableDef.sourceRows] at hsource
      split at hsource
      next => cases hsource
      next old hold =>
        rw [replayedOn_delete hold, if_neg hne, TableDef.write, rows_getD hold,
          hflagged]
        rfl

theorem upserted_notMem {c : String} (hidentity : t.identity = .primaryKey)
    (hc : c ∈ t.primaryKey) : c ∉ t.upserted := by
  rw [← t.flagged_eq hidentity] at hc
  obtain ⟨col, hcol, rfl⟩ := List.mem_map.mp hc
  obtain ⟨hmem, hflag⟩ := List.mem_filter.mp hcol
  intro hupserted
  obtain ⟨other, hother, hname⟩ := List.mem_map.mp hupserted
  obtain ⟨hotherMem, hset⟩ := List.mem_filter.mp hother
  have hsame : other = col :=
    List.inj_on_of_nodup_map t.names hotherMem hmem hname
  simp [hsame, hflag] at hset

/-- The write of a source's change is a good one, and valid where it is made. -/
theorem write_good {Held : Row String String → Prop}
    (hidentity : t.identity = .primaryKey)
    (hkeeps : t.KeepsKey rows change)
    (hadmits : admits t.rowSchema rows = true)
    (hsource : t.sourceRows rows change = some next)
    (hheld : ∀ row ∈ next, Held row) :
    Writes t.rowSchema t.form t.primaryKey (t.write rows change).1
        (t.write rows change).2 ∧
      Sourced t.rowSchema t.form t.primaryKey Held (t.write rows change).1
        (t.write rows change).2 ∧
      (t.write rows change).2.Valid
        (rowAt t.rowSchema t.primaryKey rows (t.write rows change).1) := by
  have hprimary := t.isPrimary hidentity
  have hnext := t.admits_of_sourceRows hsource
  cases change with
  | insert values =>
      simp only [TableDef.sourceRows] at hsource
      split at hsource
      next hlength =>
        obtain ⟨-, rfl⟩ := checked_eq_some.mp hsource
        have hmem : t.inserted values ∈ rows ++ [t.inserted values] := by simp
        have hself := sameKey_of_mem hprimary hnext hmem
        refine ⟨⟨rfl, rfl, ?_, ?_⟩, ⟨hheld _ hmem, hself, fun _ _ => rfl⟩, ?_⟩
        · exact fun c hc => List.Sublist.mem hc
            (List.filter_sublist.map Column.name)
        · intro row hspot
          have hrow := sameKey_of_kept hspot
          rw [sameKey_iff] at hrow ⊢
          intro c hc
          change equals _ (assign _ _ c) _ = _
          rw [assign_cells, if_neg (upserted_notMem hidentity hc)]
          exact hrow c hc
        · change rowAt _ _ _ _ = none
          rw [rowAt_eq_none_iff]
          intro row hrow hsame
          have hpairs := (admits_iff.mp hnext).1 _ hprimary.unique
          rw [List.pairwise_append] at hpairs
          have hdiffers := hpairs.2.2 row hrow _ (List.mem_singleton_self _)
          exact absurd (hsame.symm.trans hdiffers) (by simp)
      next => cases hsource
  | update index values toasted sendsKey =>
      simp only [TableDef.sourceRows] at hsource
      split at hsource
      next => cases hsource
      next old hold =>
        split at hsource
        next hcond =>
          obtain ⟨-, rfl⟩ := checked_eq_some.mp hsource
          have hmem := List.mem_of_getElem? hold
          have hself := sameKey_of_mem hprimary hadmits hmem
          have hkept : ∀ c ∈ t.primaryKey, t.updated old values c = old c :=
            fun c hc => hkeeps old hold c (Or.inl hc)
          obtain ⟨hindex, -⟩ := List.getElem?_eq_some_iff.mp hold
          simp only [TableDef.write, rows_getD hold]
          refine ⟨⟨?_, ?_⟩, ⟨t.updated old values,
            hheld _ (List.mem_set hindex _), ?_, ?_⟩, ?_⟩
          · rw [cells, List.forall_mem_map]
            exact fun c hc => List.Sublist.mem hc
              (List.filter_sublist.map Column.name)
          · intro row hspot
            have hrow := sameKey_of_kept hspot
            have hback := sameKey_symm hspot
            rw [sameKey_iff] at hrow hback ⊢
            intro c hc
            change equals _ (assign _ _ c) _ = _
            rw [assign_cells]
            split
            next => rw [hkept c hc]; exact hback c hc
            next => exact hrow c hc
          · rw [sameKey_iff] at hself ⊢
            intro c hc
            rw [hkept c hc]
            exact hself c hc
          · rw [cells, List.forall_mem_map]
            exact fun c _ => rfl
          · rw [rowAt_self hprimary hadmits hmem]
            exact Option.some_ne_none old
        next => cases hsource
  | delete index =>
      simp only [TableDef.sourceRows] at hsource
      split at hsource
      next => cases hsource
      next old hold =>
        have hmem := List.mem_of_getElem? hold
        simp only [TableDef.write, rows_getD hold]
        refine ⟨trivial, trivial, ?_⟩
        rw [rowAt_self hprimary hadmits hmem]
        exact Option.some_ne_none old

/-- On the source itself the write is the change. -/
theorem writeRows_source (hidentity : t.identity = .primaryKey)
    (hkeeps : t.KeepsKey rows change)
    (hadmits : admits t.rowSchema rows = true)
    (hsource : t.sourceRows rows change = some next) :
    writeRows t.rowSchema t.form t.primaryKey rows (t.write rows change).1
      (t.write rows change).2 = next := by
  have hreplayable : t.Replayable rows change := by
    apply TableDef.replayable_of_primaryKey hidentity hadmits
    rintro index values toasted sendsKey rfl old hold c hc
    exact hkeeps old hold c (Or.inr hc)
  have hreplayed := (@TableDef.replayed_iff t 0 rows next change hsource).mpr
    hreplayable
  rw [TableDef.replayed, writeRows_replayedOn hidentity hsource hadmits]
    at hreplayed
  exact (checked_eq_some.mp hreplayed).2

end Write

section Run

variable (tables : Tables)

def keyedTables (relation : String × String) : Option (Keyed String String) :=
  (tables.find relation).bind fun t =>
    if hidentity : t.identity = .primaryKey then some (t.keyed hidentity)
    else none

/-- The write of an event. -/
def eventWrite (db : Database) :
    ServerEvent → Option (KeyedDatabase.Write (String × String) String String)
  | .change relation change => (tables.find relation).map fun t =>
      let write := t.write (db relation) change
      ((relation, write.1), write.2)
  | _ => none

/-- The writes of a run. -/
def runWrites (db : Database) :
    List ServerEvent →
      List (KeyedDatabase.Write (String × String) String String)
  | [] => []
  | event :: rest =>
      (eventWrite tables db event).toList ++
        match serverStep tables db event with
        | none => []
        | some next => runWrites next rest

def KeepsKeyEvent (db : Database) : ServerEvent → Prop
  | .change relation change =>
      ∀ t, tables.find relation = some t → t.KeepsKey (db relation) change
  | _ => True

/-- The rows a table has at some time of a run. -/
def HeldDuring (db : Database) (events : List ServerEvent)
    (relation : String × String) (row : Row String String) : Prop :=
  ∃ front st, front <+: events ∧
    run (serverStep tables) db front = some st ∧ row ∈ st relation

variable {tables} {db last copy : Database} {events : List ServerEvent}
  {Held : String × String → Row String String → Prop}

theorem Tables.find_relation {t : TableDef} (ht : t ∈ tables.defs) :
    tables.find t.relation = some t := by
  have hsome : (tables.find t.relation).isSome := by
    rw [Tables.find, List.find?_isSome]
    exact ⟨t, ht, by simp⟩
  obtain ⟨found, hfound⟩ := Option.isSome_iff_exists.mp hsome
  obtain ⟨hmem, hrelation⟩ := Tables.relation_of_find hfound
  rw [hfound, List.inj_on_of_nodup_map tables.relations hmem ht hrelation]

theorem keyedTables_of_find {relation : String × String} {t : TableDef}
    (hkeyed : ∀ t ∈ tables.defs, t.identity = .primaryKey)
    (hfind : tables.find relation = some t) :
    keyedTables tables relation =
      some (t.keyed (hkeyed t (Tables.relation_of_find hfind).1)) := by
  rw [keyedTables, hfind, Option.bind_some, dif_pos]

theorem find_of_keyedTables {relation : String × String}
    {k : Keyed String String} (hk : keyedTables tables relation = some k) :
    ∃ t, ∃ hidentity, tables.find relation = some t ∧ k = t.keyed hidentity := by
  obtain ⟨t, hfind, hsome⟩ := Option.bind_eq_some_iff.mp hk
  split at hsome
  next hidentity => exact ⟨t, hidentity, hfind, (Option.some.inj hsome).symm⟩
  next => cases hsome

/-- The rows of a source are those it holds itself. -/
theorem sound_of_held (hadmits : ∀ t ∈ tables.defs,
      admits t.rowSchema (db t.relation) = true)
    (hheld : ∀ relation, ∀ row ∈ db relation, Held relation row) :
    Sound (keyedTables tables) Held db := by
  intro relation k hk
  obtain ⟨t, hidentity, hfind, rfl⟩ := find_of_keyedTables hk
  obtain ⟨ht, rfl⟩ := Tables.relation_of_find hfind
  have hrows := hadmits t ht
  refine ⟨hrows, fun row hrow => ?_⟩
  exact assembled_of_held trivial (hheld _ row hrow)
    (sameKey_of_mem (t.isPrimary hidentity) hrows hrow)

theorem admits_of_serverStep {event : ServerEvent} {next : Database}
    (hadmits : ∀ t ∈ tables.defs, admits t.rowSchema (db t.relation) = true)
    (hstep : serverStep tables db event = some next) :
    ∀ t ∈ tables.defs, admits t.rowSchema (next t.relation) = true := by
  by_cases hother : ∀ relation change, event ≠ .change relation change
  · obtain ⟨rfl, -⟩ := @serverStep_other tables [] db event next hother hstep
    exact hadmits
  obtain ⟨relation, change, rfl⟩ := eq_change_of_not_other hother
  obtain ⟨t, rows, hfind, hsource, rfl⟩ := serverStep_change hstep
  intro other hother
  by_cases hrelation : other.relation = relation
  · obtain ⟨ht, htrelation⟩ := Tables.relation_of_find hfind
    have hsame : other = t :=
      List.inj_on_of_nodup_map tables.relations hother ht
        (hrelation.trans htrelation.symm)
    rw [hrelation, Function.update_self, hsame]
    exact t.admits_of_sourceRows hsource
  · rw [Function.update_of_ne hrelation]
    exact hadmits other hother

/-- A run of a source as its writes: valid where they are made, of values it
holds, and they show all it does. -/
theorem source_run (hkeyed : ∀ t ∈ tables.defs, t.identity = .primaryKey)
    (hadmits : ∀ t ∈ tables.defs, admits t.rowSchema (db t.relation) = true)
    (hrun : run (serverStep tables) db events = some last)
    (hmeet : StepsMeet (serverStep tables) (KeepsKeyEvent tables) db events)
    (hheld : ∀ front st, front <+: events →
      run (serverStep tables) db front = some st →
        ∀ relation, ∀ row ∈ st relation, Held relation row) :
    (∀ t ∈ tables.defs, admits t.rowSchema (last t.relation) = true) ∧
      ValidRun (samePlace (keyedTables tables)) (seen (keyedTables tables) db)
        (runWrites tables db events) ∧
      (∀ write ∈ runWrites tables db events,
        Good (keyedTables tables) Held write) ∧
      seen (keyedTables tables) last =
        (runWrites tables db events).foldl
          (afterWrite (samePlace (keyedTables tables)))
          (seen (keyedTables tables) db) := by
  induction events generalizing db with
  | nil =>
      cases hrun
      exact ⟨hadmits, trivial, nofun, rfl⟩
  | cons event events ih =>
      obtain ⟨next, hstep, hrest⟩ := run_cons_eq_some.mp hrun
      obtain ⟨hkeeps, hmeet⟩ := hmeet
      have hnext := admits_of_serverStep hadmits hstep
      have hheld' : ∀ front st, front <+: events →
          run (serverStep tables) next front = some st →
            ∀ relation, ∀ row ∈ st relation, Held relation row := by
        intro front st hfront hfrontRun
        exact hheld (event :: front) st
          (List.cons_prefix_cons.mpr ⟨rfl, hfront⟩)
          (run_cons_eq_some.mpr ⟨next, hstep, hfrontRun⟩)
      obtain ⟨hlast, hvalid, hgood, hseen⟩ :=
        ih hnext hrest (hmeet next hstep) hheld'
      simp only [runWrites, hstep]
      by_cases hother : ∀ relation change, event ≠ .change relation change
      · obtain ⟨rfl, -⟩ := @serverStep_other tables [] db event next hother
          hstep
        have hnone : eventWrite tables next event = none := by
          cases event with
          | change relation change => exact absurd rfl (hother relation change)
          | _ => rfl
        rw [hnone]
        exact ⟨hlast, hvalid, hgood, hseen⟩
      · obtain ⟨relation, change, rfl⟩ := eq_change_of_not_other hother
        obtain ⟨t, rows, hfind, hsource, rfl⟩ := serverStep_change hstep
        obtain ⟨ht, hrelation⟩ := Tables.relation_of_find hfind
        have hidentity := hkeyed t ht
        have hrows := hadmits t ht
        rw [hrelation] at hrows
        have htable := keyedTables_of_find hkeyed hfind
        have hheldRows : ∀ row ∈ rows, Held relation row := by
          intro row hrow
          refine hheld' [] _ List.nil_prefix rfl relation row ?_
          rwa [Function.update_self]
        obtain ⟨hwrites, hsourced, hfree⟩ := write_good hidentity
          (hkeeps t hfind) hrows hsource hheldRows
        have hwrite : eventWrite tables db (.change relation change) =
            some ((relation, (t.write (db relation) change).1),
              (t.write (db relation) change).2) := by
          simp only [eventWrite, hfind, Option.map_some]
        have hshown : seen (keyedTables tables)
            (Function.update db relation rows) =
              afterWrite (samePlace (keyedTables tables))
                (seen (keyedTables tables) db)
                ((relation, (t.write (db relation) change).1),
                  (t.write (db relation) change).2) := by
          refine seen_update htable fun place => ?_
          rw [← writeRows_source hidentity (hkeeps t hfind) hrows hsource]
          exact rowAt_writeRows hwrites
        rw [hwrite, Option.toList_some, List.singleton_append]
        refine ⟨hlast, ⟨valid_seen htable hfree, ?_⟩, ?_, ?_⟩
        · rwa [← hshown]
        · rw [List.forall_mem_cons]
          exact ⟨⟨_, htable, hwrites, hsourced⟩, hgood⟩
        · rw [hseen, hshown, List.foldl_cons]

theorem runWrites_front {front : List ServerEvent} {base : Database}
    (hfront : front <+: events)
    (hbase : run (serverStep tables) db front = some base) :
    runWrites tables db front <+: runWrites tables db events := by
  induction front generalizing db events with
  | nil => exact List.nil_prefix
  | cons event front ih =>
      obtain ⟨rest, rfl⟩ := hfront
      obtain ⟨next, hstep, hbase⟩ := run_cons_eq_some.mp hbase
      simp only [List.cons_append, runWrites, hstep]
      rw [List.prefix_append_right_inj]
      exact ih (List.prefix_append front rest) hbase

/-- The changes of a run are applied to any copy as its writes are done. -/
theorem apply_writes (hkeyed : ∀ t ∈ tables.defs, t.identity = .primaryKey)
    {st : ApplyState Database} {final : Database} {micros : Int64}
    (hcopy : ∀ n k, keyedTables tables n = some k →
      admits k.schema (st.server n) = true)
    (hrun : run (serverStep tables) db events = some last)
    (hwrites : run (KeyedDatabase.step (keyedTables tables)) st.server
      (runWrites tables db events) = some final)
    (hcache : Succeeded (columnMetaMap (copyOf tables)) st.metaCache) :
    ∃ st', (capturedRun tables db micros events).foldlM
        (applyChange (copyOf tables) none) st = .ok st' ∧
      st'.server = final := by
  induction events generalizing st db micros with
  | nil =>
      cases hwrites
      exact ⟨st, rfl, rfl⟩
  | cons event events ih =>
      obtain ⟨next, hstep, hrest⟩ := run_cons_eq_some.mp hrun
      simp only [runWrites, capturedRun, hstep] at hwrites ⊢
      by_cases hother : ∀ relation change, event ≠ .change relation change
      · obtain ⟨rfl, -, hnone⟩ := @serverStep_other tables [] db event next
          hother hstep
        have hwrite : eventWrite tables next event = none := by
          cases event with
          | change relation change => exact absurd rfl (hother relation change)
          | _ => rfl
        rw [hwrite] at hwrites
        rw [hnone]
        exact ih hcopy hrest hwrites hcache
      · obtain ⟨relation, change, rfl⟩ := eq_change_of_not_other hother
        obtain ⟨t, rows, hfind, hsource, rfl⟩ := serverStep_change hstep
        have htable := keyedTables_of_find hkeyed hfind
        have hidentity := hkeyed t (Tables.relation_of_find hfind).1
        simp only [eventWrite, hfind, Option.map_some, Option.toList_some,
          List.singleton_append] at hwrites
        obtain ⟨middle, hwrite, hmore⟩ := run_cons_eq_some.mp hwrites
        have hmiddle := admits_of_step hcopy hwrite
        simp only [KeyedDatabase.step, htable, Option.bind_some,
          Option.map_eq_some_iff] at hwrite
        obtain ⟨written, hchecked, rfl⟩ := hwrite
        have hreplayed : t.replayedOn micros (db relation) change
            (st.server relation) = some written := by
          rw [writeRows_replayedOn hidentity hsource (hcopy _ _ htable)]
          exact hchecked
        obtain ⟨st', happly, hserver, hcache'⟩ :=
          applyChange_captured hfind hcache hreplayed
        rw [← hserver] at hmiddle hmore
        obtain ⟨last', hfold, hlast⟩ := ih hmiddle hrest hmore hcache'
        simp only [capturedEvent, hfind]
        exact ⟨last', foldlM_cons_eq_ok.mpr ⟨st', happly, hfold⟩, hlast⟩

/-- What a run writes, seen from a copy of what a part of it left. -/
theorem rerun_writes {front : List ServerEvent} {base : Database}
    (hkeyed : ∀ t ∈ tables.defs, t.identity = .primaryKey)
    (hadmits : ∀ t ∈ tables.defs, admits t.rowSchema (db t.relation) = true)
    (hrun : run (serverStep tables) db events = some last)
    (hmeet : StepsMeet (serverStep tables) (KeepsKeyEvent tables) db events)
    (hapart : AllApart (keyedTables tables) (HeldDuring tables db events))
    (hfront : front <+: events)
    (hbase : run (serverStep tables) db front = some base)
    (hcopy : ∀ t ∈ tables.defs, (copy t.relation).Perm (base t.relation)) :
    (∀ n k, keyedTables tables n = some k →
        admits k.schema (copy n) = true) ∧
      ∃ final, run (KeyedDatabase.step (keyedTables tables)) copy
          (runWrites tables db events) = some final ∧
        ∀ t ∈ tables.defs, (final t.relation).Perm (last t.relation) := by
  have hheld : ∀ part st, part <+: events →
      run (serverStep tables) db part = some st →
        ∀ relation, ∀ row ∈ st relation,
          HeldDuring tables db events relation row :=
    fun part st hpart hst relation row hrow => ⟨part, st, hpart, hst, hrow⟩
  obtain ⟨hlastAdmits, hvalid, hgood, hseenLast⟩ :=
    source_run hkeyed hadmits hrun hmeet hheld
  obtain ⟨hbaseAdmits, -, -, hseenBase⟩ := source_run hkeyed hadmits hbase
    (stepsMeet_front hfront hmeet)
    fun part st hpart => hheld part st (hpart.trans hfront)
  have hbaseSound := sound_of_held hbaseAdmits (hheld front base hfront hbase)
  have hlastSound := sound_of_held hlastAdmits
    (hheld events last (List.prefix_refl events) hrun)
  have hperm : ∀ n k, keyedTables tables n = some k →
      (copy n).Perm (base n) := by
    intro n k hk
    obtain ⟨t, -, hfind, -⟩ := find_of_keyedTables hk
    obtain ⟨ht, rfl⟩ := Tables.relation_of_find hfind
    exact hcopy t ht
  obtain ⟨final, hfinal, hsame⟩ := rerun hapart (runWrites_front hfront hbase)
    hvalid hgood hbaseSound hlastSound hseenBase hseenLast hperm
  refine ⟨fun n k hk => (sound_of_perm hperm hbaseSound n k hk).1, final,
    hfinal, fun t ht => ?_⟩
  exact hsame _ _ (keyedTables_of_find hkeyed (Tables.find_relation ht))

/-- The changes of a run, applied to a copy that holds a part of the run
already, leave what the run left; and applied again they change nothing. -/
theorem reapply {front : List ServerEvent} {base : Database}
    (hkeyed : ∀ t ∈ tables.defs, t.identity = .primaryKey)
    (hadmits : ∀ t ∈ tables.defs, admits t.rowSchema (db t.relation) = true)
    (hrun : run (serverStep tables) db events = some last)
    (hmeet : StepsMeet (serverStep tables) (KeepsKeyEvent tables) db events)
    (hapart : AllApart (keyedTables tables) (HeldDuring tables db events))
    (hfront : front <+: events)
    (hbase : run (serverStep tables) db front = some base)
    (hcopy : ∀ t ∈ tables.defs, (copy t.relation).Perm (base t.relation))
    (micros : Int64) :
    ∃ st, apply (copyOf tables) none copy
        (capturedRun tables db micros events) = .ok st ∧
      (∀ t ∈ tables.defs, (st.server t.relation).Perm (last t.relation)) ∧
      ∃ again, apply (copyOf tables) none st.server
          (capturedRun tables db micros events) = .ok again ∧
        ∀ t ∈ tables.defs,
          (again.server t.relation).Perm (st.server t.relation) := by
  have hcache : Succeeded (columnMetaMap (copyOf tables)) [] := by
    intro entry hentry
    cases hentry
  obtain ⟨hcopyAdmits, final, hfinal, hsame⟩ := rerun_writes hkeyed hadmits
    hrun hmeet hapart hfront hbase hcopy
  obtain ⟨st, happly, rfl⟩ := @apply_writes tables db last events hkeyed
    ⟨copy, [], 0⟩ final micros hcopyAdmits hrun hfinal hcache
  obtain ⟨hstAdmits, final', hfinal', hsame'⟩ := rerun_writes hkeyed hadmits
    hrun hmeet hapart (List.prefix_refl events) hrun hsame
  obtain ⟨again, hagain, rfl⟩ := @apply_writes tables db last events hkeyed
    ⟨st.server, [], 0⟩ final' micros hstAdmits hrun hfinal' hcache
  exact ⟨st, happly, hsame, again, hagain, fun t ht =>
    (hsame' t ht).trans (hsame t ht).symm⟩

end Run

end Postgres

end XBackup
