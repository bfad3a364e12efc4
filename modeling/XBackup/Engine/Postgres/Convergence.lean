/-
Runs of a PostgreSQL source and the replay of what was captured of them: the
copy ends as the source does when every change is replayed as it was made.
-/
import XBackup.Engine.Postgres.Replay
import XBackup.Foundation.SortedMap

namespace XBackup

namespace Postgres

open Bytes Fallible MemoTable Rows Transition

section Target

variable {tables : Tables} {t : TableDef} {relation : String × String}

theorem Tables.relation_of_find (hfind : tables.find relation = some t) :
    t ∈ tables.defs ∧ t.relation = relation := by
  refine ⟨List.mem_of_find?_eq_some hfind, ?_⟩
  simpa using List.find?_some hfind

theorem captured_relation {micros : Int64}
    {rows : List (Row String String)} {change : RowChange} :
    ((t.captured micros rows change).schema,
      (t.captured micros rows change).table) = t.relation := by
  cases change <;> rfl

theorem captured_colnames {micros : Int64}
    {rows : List (Row String String)} {change : RowChange} :
    (t.captured micros rows change).colnames = t.colnames := by
  cases change <;> rfl

theorem buildDml_relation {c : Change} {cols : List ColMeta} {dml : Dml}
    (hdml : buildDml c cols = some dml) :
    dml.relation = (c.schema, c.table) := by
  rw [buildDml] at hdml
  split at hdml
  next => cases hdml
  next =>
    dsimp only at hdml
    split at hdml
    next =>
      cases hdml
      rfl
    next =>
      split at hdml
      next => cases hdml
      next =>
        split at hdml
        next => cases hdml
        next =>
          cases hdml
          rfl
    next =>
      split at hdml
      next => cases hdml
      next =>
        cases hdml
        rfl

/-- The columns of the table, by name. -/
def TableDef.metaMap (t : TableDef) : List (String × ColMeta) :=
  t.columns.map fun col => (col.name, ⟨col.casttype, col.generatedAlways⟩)

theorem columnMetaMap_copyOf (hfind : tables.find relation = some t) :
    columnMetaMap (copyOf tables) relation = .ok t.metaMap := by
  simp only [columnMetaMap, copyOf, hfind]
  rfl

theorem lookup_metaMap {col : Column} (hcol : col ∈ t.columns) :
    t.metaMap.lookup col.name =
      some ⟨col.casttype, col.generatedAlways⟩ := by
  have hkeys : (t.metaMap.map Prod.fst).Nodup := by
    rw [TableDef.metaMap, List.map_map]
    exact t.names
  rw [SortedMap.lookup_eq_some_iff_mem hkeys]
  exact List.mem_map_of_mem hcol

theorem targetColumns_captured {micros : Int64}
    {rows : List (Row String String)} {change : RowChange} :
    targetColumns (t.captured micros rows change) t.metaMap =
      .ok t.metas := by
  rw [targetColumns, captured_colnames]
  apply mapM_map_eq_ok
  intro col hcol
  rw [lookup_metaMap hcol]

/-- One change is applied as it is replayed on the rows of its table. -/
theorem applyChange_captured {st : ApplyState Database}
    {rows next : List (Row String String)} {change : RowChange}
    {micros : Int64} (hfind : tables.find relation = some t)
    (hcache : Succeeded (columnMetaMap (copyOf tables)) st.metaCache)
    (hreplayed : t.replayedOn micros rows change (st.server relation) =
      some next) :
    ∃ st', applyChange (copyOf tables) none st
        (t.captured micros rows change) = .ok st' ∧
      st'.server = Function.update st.server relation next ∧
      Succeeded (columnMetaMap (copyOf tables)) st'.metaCache := by
  obtain ⟨-, hrelation⟩ := Tables.relation_of_find hfind
  obtain ⟨err, herr, -⟩ | ⟨map, metaCache, hmap, hfetch, hnext⟩ :=
    tryFetch_spec hcache relation
  · rw [columnMetaMap_copyOf hfind] at herr
    cases herr
  rw [columnMetaMap_copyOf hfind] at hmap
  cases hmap
  rw [applyChange, Option.any_none, if_neg (by simp), captured_relation,
    hrelation, hfetch]
  simp only [targetColumns_captured]
  rw [TableDef.replayedOn] at hreplayed
  cases hdml : buildDml (t.captured micros rows change) t.metas with
  | none =>
      rw [hdml] at hreplayed
      cases hreplayed
      exact ⟨_, rfl, (Function.update_eq_self relation st.server).symm, hnext⟩
  | some dml =>
      have hdmlRelation : dml.relation = relation := by
        rw [buildDml_relation hdml, captured_relation, hrelation]
      simp only [hdml, Option.bind_eq_some_iff] at hreplayed
      obtain ⟨statement, hstatement, hexec⟩ := hreplayed
      have hexecute : (copyOf tables).execute st.server dml =
          .ok (Function.update st.server relation next) := by
        simp only [copyOf, hdmlRelation, hfind, hstatement, hexec]
      simp only [hexecute]
      exact ⟨_, rfl, rfl, hnext⟩

end Target

section Run

variable {tables : Tables} {d : Decoder} {sent : List Nat} {db : Database}

/-- The decoder holds the relations that were told. -/
def Told (tables : Tables) (sent : List Nat) (d : Decoder) : Prop :=
  ∀ t ∈ tables.defs, t.oid ∈ sent →
    d.rels.lookup (signed 32 t.oid) = some t.relMeta

theorem captureChanges_passes {data : List UInt8} {rest : List (List UInt8)}
    {next : Decoder} (hfeed : d.feed data = .ok (none, next)) :
    captureChanges d (data :: rest) = captureChanges next rest := by
  simp only [captureChanges, hfeed]

theorem captureChanges_takes {data : List UInt8} {rest : List (List UInt8)}
    {change : Change} {changes : List Change} {next : Decoder}
    (hfeed : d.feed data = .ok (some change, next))
    (hrest : captureChanges next rest = .ok changes) :
    captureChanges d (data :: rest) = .ok (change :: changes) := by
  simp only [captureChanges, hfeed, hrest]
  rfl

theorem feed_relationMessage {t : TableDef} (hfits : t.relationMessage.Fits) :
    d.feed t.relationMessage.encode =
      .ok (none, { d with rels := (signed 32 t.oid, t.relMeta) :: d.rels }) := by
  have hcols : relMeta t.schema t.table (t.columns.map fun col =>
      ⟨t.flags col, col.name, col.typeOid, col.typeModifier⟩) = t.relMeta := by
    simp [relMeta, TableDef.relMeta, Function.comp_def]
  rw [← hcols]
  exact feed_relation t.oid_lt hfits

/-- Telling a relation leaves those that were told before. -/
theorem Told.relation {t : TableDef} (ht : t ∈ tables.defs)
    (htold : Told tables sent d) :
    Told tables (t.oid :: sent)
      { d with rels := (signed 32 t.oid, t.relMeta) :: d.rels } := by
  intro other hother hsent
  rw [List.lookup_cons]
  by_cases hoid : other.oid = t.oid
  · have hsame : other = t :=
      List.inj_on_of_nodup_map tables.oids hother ht hoid
    simp [hsame]
  · have hkey : ¬ signed 32 other.oid = signed 32 t.oid := fun hsigned =>
      hoid (signed_inj other.oid_lt t.oid_lt hsigned)
    rw [beq_eq_false_iff_ne.mpr hkey]
    exact htold other hother (List.mem_of_ne_of_mem hoid hsent)

/-- The commit time that is held behind an event. -/
def microsBehind (micros : Int64) : ServerEvent → Int64
  | .begin_ _ commitTs _ => commitTs + PG_EPOCH_UNIX_SECS * 1000000
  | _ => micros

/-- The change that is captured of an event. -/
def capturedEvent (tables : Tables) (db : Database) (micros : Int64) :
    ServerEvent → Option Change
  | .change relation change => (tables.find relation).map fun t =>
      t.captured micros (db relation) change
  | _ => none

/-- The changes that are captured of a run. -/
def capturedRun (tables : Tables) (db : Database) (micros : Int64) :
    List ServerEvent → List Change
  | [] => []
  | event :: rest =>
      (capturedEvent tables db micros event).toList ++
        match serverStep tables db event with
        | none => []
        | some next => capturedRun tables next (microsBehind micros event) rest

/-- What a source's event needs for its replay. -/
def ReplayableEvent (tables : Tables) (db : Database) : ServerEvent → Prop
  | .change relation change =>
      ∀ t, tables.find relation = some t →
        t.Replayable (db relation) change
  | _ => True

/-- The messages of a change are captured as that change, once its relation is
told. -/
theorem captureChanges_change {relation : String × String} {t : TableDef}
    {change : RowChange} {rest : List (List UInt8)}
    (hfind : tables.find relation = some t)
    (hfits : ∀ m ∈ eventMessages tables db sent (.change relation change),
      m.Fits)
    (htold : Told tables sent d) :
    ∃ next, next.curCommitMicros = d.curCommitMicros ∧
      Told tables (t.oid :: sent) next ∧
      ∀ changes, captureChanges next rest = .ok changes →
        captureChanges d ((eventMessages tables db sent
            (.change relation change)).map Message.encode ++ rest) =
          .ok (t.captured d.curCommitMicros (db relation) change ::
            changes) := by
  obtain ⟨ht, -⟩ := Tables.relation_of_find hfind
  simp only [eventMessages, hfind] at hfits ⊢
  have hchange : (t.changeMessage (db relation) change).Fits :=
    hfits _ (List.mem_append_right _ (List.mem_singleton_self _))
  by_cases hsent : t.oid ∈ sent
  · have hfeed := feed_change hchange (htold t ht hsent)
    refine ⟨d, rfl, ?_, fun changes hrest => ?_⟩
    · intro other hother hmem
      rcases List.mem_cons.mp hmem with hoid | hmem
      · exact htold other hother (hoid ▸ hsent)
      · exact htold other hother hmem
    · rw [if_pos hsent]
      exact captureChanges_takes hfeed hrest
  · have htold' := htold.relation ht
    have hrelation : t.relationMessage.Fits := by
      apply hfits
      simp [hsent]
    have hfeed := feed_change hchange
      (htold' t ht List.mem_cons_self)
    refine ⟨{ d with rels := (signed 32 t.oid, t.relMeta) :: d.rels }, rfl,
      htold', fun changes hrest => ?_⟩
    rw [if_neg hsent]
    exact (captureChanges_passes (feed_relationMessage hrelation)).trans
      (captureChanges_takes hfeed hrest)

/-- The messages of any other event are captured as nothing. -/
theorem captureChanges_other {event : ServerEvent}
    {rest : List (List UInt8)}
    (hother : ∀ relation change, event ≠ .change relation change)
    (hfits : ∀ m ∈ eventMessages tables db sent event, m.Fits) :
    ∃ next, next.rels = d.rels ∧
      next.curCommitMicros = microsBehind d.curCommitMicros event ∧
      captureChanges d
          ((eventMessages tables db sent event).map Message.encode ++ rest) =
        captureChanges next rest := by
  cases event with
  | begin_ finalLsn commitTs xid =>
      have hfeed := @feed_begin d finalLsn xid commitTs
        (hfits _ (List.mem_singleton_self _))
      refine ⟨{ d with curCommitMicros :=
        commitTs + PG_EPOCH_UNIX_SECS * 1000000 }, rfl, rfl, ?_⟩
      exact captureChanges_passes hfeed
  | commit body =>
      have hfeed := @feed_commit d body (hfits _ (List.mem_singleton_self _))
      exact ⟨d, rfl, rfl, captureChanges_passes hfeed⟩
  | other tag body =>
      have hfeed := @feed_other d tag body
        (hfits _ (List.mem_singleton_self _))
      exact ⟨d, rfl, rfl, captureChanges_passes hfeed⟩
  | change relation change => exact absurd rfl (hother relation change)

theorem serverStep_other {event : ServerEvent} {next : Database}
    (hother : ∀ relation change, event ≠ .change relation change)
    (hstep : serverStep tables db event = some next) :
    next = db ∧ sentBehind tables sent event = sent ∧
      ∀ micros, capturedEvent tables db micros event = none := by
  cases event with
  | change relation change => exact absurd rfl (hother relation change)
  | _ => exact ⟨(Option.some.inj hstep).symm, rfl, fun _ => rfl⟩

theorem serverStep_change {relation : String × String} {change : RowChange}
    {next : Database}
    (hstep : serverStep tables db (.change relation change) = some next) :
    ∃ t rows, tables.find relation = some t ∧
      t.sourceRows (db relation) change = some rows ∧
      next = Function.update db relation rows := by
  simp only [serverStep, Option.bind_eq_some_iff,
    Option.map_eq_some_iff] at hstep
  obtain ⟨t, hfind, rows, hsource, rfl⟩ := hstep
  exact ⟨t, rows, hfind, hsource, rfl⟩

theorem eq_change_of_not_other {event : ServerEvent}
    (hother : ¬ ∀ relation change, event ≠ .change relation change) :
    ∃ relation change, event = .change relation change := by
  push Not at hother
  exact hother

/-- Capturing the messages of a run gives its changes. -/
theorem captureChanges_run {events : List ServerEvent} {last : Database}
    (hrun : run (serverStep tables) db events = some last)
    (hfits : ∀ m ∈ messages tables db sent events, m.Fits)
    (htold : Told tables sent d) :
    captureChanges d ((messages tables db sent events).map Message.encode) =
      .ok (capturedRun tables db d.curCommitMicros events) := by
  induction events generalizing d sent db with
  | nil => rfl
  | cons event events ih =>
      obtain ⟨next, hstep, hrest⟩ := run_cons_eq_some.mp hrun
      simp only [messages, capturedRun, hstep, List.forall_mem_append]
        at hfits ⊢
      obtain ⟨hevent, hmessages⟩ := hfits
      rw [List.map_append]
      by_cases hother : ∀ relation change, event ≠ .change relation change
      · obtain ⟨rfl, hsent, hnone⟩ := @serverStep_other tables sent db event
          next hother hstep
        rw [hsent] at hmessages ⊢
        obtain ⟨decoder, hrels, hmicros, hcapture⟩ :=
          @captureChanges_other tables d sent next event
            ((messages tables next sent events).map Message.encode) hother
            hevent
        have htold' : Told tables sent decoder := by
          rwa [Told, hrels]
        rw [hcapture, hnone, ← hmicros]
        exact ih hrest hmessages htold'
      · obtain ⟨relation, change, rfl⟩ := eq_change_of_not_other hother
        obtain ⟨t, rows, hfind, -, rfl⟩ := serverStep_change hstep
        obtain ⟨decoder, hmicros, htold', hcapture⟩ :=
          captureChanges_change hfind hevent htold
        have hsent : sentBehind tables sent (.change relation change) =
            t.oid :: sent := by
          simp only [sentBehind, hfind]
        have hcaptured : capturedEvent tables db d.curCommitMicros
            (.change relation change) =
              some (t.captured d.curCommitMicros (db relation) change) := by
          simp only [capturedEvent, hfind, Option.map_some]
        rw [hsent] at hmessages ⊢
        have hwhole := hcapture _ (ih hrest hmessages htold')
        rw [hmicros] at hwhole
        rw [hcaptured]
        exact hwhole

/-- The changes of a run are applied one by one as they were made. -/
theorem apply_run {events : List ServerEvent} {last : Database}
    {st : ApplyState Database} {micros : Int64} (hserver : st.server = db)
    (hrun : run (serverStep tables) db events = some last)
    (hmeet : StepsMeet (serverStep tables) (ReplayableEvent tables) db events)
    (hcache : Succeeded (columnMetaMap (copyOf tables)) st.metaCache) :
    ∃ st', (capturedRun tables db micros events).foldlM
        (applyChange (copyOf tables) none) st = .ok st' ∧
      st'.server = last := by
  induction events generalizing st db micros with
  | nil =>
      cases hrun
      exact ⟨st, rfl, hserver⟩
  | cons event events ih =>
      obtain ⟨next, hstep, hrest⟩ := run_cons_eq_some.mp hrun
      obtain ⟨hreplayable, hmeet⟩ := hmeet
      simp only [capturedRun, hstep]
      by_cases hother : ∀ relation change, event ≠ .change relation change
      · obtain ⟨rfl, -, hnone⟩ := @serverStep_other tables [] db event next
          hother hstep
        rw [hnone]
        exact ih hserver hrest (hmeet next hstep) hcache
      · obtain ⟨relation, change, rfl⟩ := eq_change_of_not_other hother
        obtain ⟨t, rows, hfind, hsource, rfl⟩ := serverStep_change hstep
        have hreplayed : t.replayedOn micros (db relation) change
            (st.server relation) = some rows := by
          rw [hserver]
          exact (TableDef.replayed_iff hsource).mpr (hreplayable t hfind)
        obtain ⟨middle, happly, hmiddle, hcache'⟩ :=
          applyChange_captured hfind hcache hreplayed
        rw [hserver] at hmiddle
        obtain ⟨st', hfold, hlast⟩ := ih hmiddle hrest (hmeet _ hstep) hcache'
        simp only [capturedEvent, hfind]
        exact ⟨st', foldlM_cons_eq_ok.mpr ⟨middle, happly, hfold⟩, hlast⟩

theorem told_nil : Told tables [] Decoder.new := by
  intro t _ hsent
  cases hsent

/-- Tables with a primary key as replica identity, and without GENERATED ALWAYS
columns, are replayable in every run. -/
theorem stepsMeet_of_keyed {events : List ServerEvent}
    (hkeyed : ∀ t ∈ tables.defs,
      t.identity = .primaryKey ∧ t.rowSchema.generatedAlways = [])
    (hadmits : ∀ t ∈ tables.defs,
      admits t.rowSchema (db t.relation) = true) :
    StepsMeet (serverStep tables) (ReplayableEvent tables) db events := by
  induction events generalizing db with
  | nil => trivial
  | cons event events ih =>
      refine ⟨?_, fun next hstep => ih ?_⟩
      · cases event with
        | change relation change =>
            intro t hfind
            obtain ⟨ht, rfl⟩ := Tables.relation_of_find hfind
            apply TableDef.replayable_of_primaryKey (hkeyed t ht).1
              (hadmits t ht)
            rw [(hkeyed t ht).2]
            simp
        | _ => trivial
      · cases event with
        | change relation change =>
            simp only [serverStep, Option.bind_eq_some_iff,
              Option.map_eq_some_iff] at hstep
            obtain ⟨t, hfind, rows, hsource, rfl⟩ := hstep
            intro other hother
            by_cases hrelation : other.relation = relation
            · obtain ⟨ht, htrelation⟩ := Tables.relation_of_find hfind
              have hsame : other = t :=
                List.inj_on_of_nodup_map tables.relations hother ht
                  (hrelation.trans htrelation.symm)
              rw [hrelation, Function.update_self, hsame]
              exact t.admits_of_sourceRows hsource
            · rw [Function.update_of_ne hrelation]
              exact hadmits other hother
        | _ =>
            cases hstep
            exact hadmits

/-- A table of a key and a note. -/
def noteTable (identity : Identity) : TableDef where
  oid := 16384
  schema := "public"
  table := "notes"
  columns :=
    [⟨"id", "bigint", false, true, 20, 0⟩, ⟨"note", "text", false, false, 25, 0⟩]
  identity := identity
  otherKeys := []
  equal _ left right := left = right
  equal_refl _ value := decide_eq_true rfl
  equal_symm _ left right hequal :=
    decide_eq_true (of_decide_eq_true hequal).symm
  equal_trans _ left middle right hleft hright := decide_eq_true
    ((of_decide_eq_true hleft).trans (of_decide_eq_true hright))
  oid_lt := by decide
  names := by decide
  hasKey _ := by decide

def noteTables (identity : Identity) : Tables where
  defs := [noteTable identity]
  oids := by simp
  relations := by simp

def noteEvents : List ServerEvent :=
  [.begin_ 1 0 7,
    .change ("public", "notes") (.insert [some "1", none]),
    .change ("public", "notes") (.insert [some "2", some "b"]),
    .change ("public", "notes")
      (.update 0 [some "3", some "a"] [] true),
    .change ("public", "notes") (.delete 1),
    .commit []]

end Run

end Postgres

end XBackup
