/-
A restore of what a dump writes, at a PostgreSQL server where every statement
does what it says.
-/
import XBackup.Engine.Catalog
import XBackup.Foundation.Overwrite

namespace XBackup

open Fallible Overwrite Rounds

namespace Postgres

/-- What a server holds of a table: its rows, as they are copied, and the tables
it inherits from, directly or not. -/
structure Holding where
  rows : List UInt8
  ancestors : List (String × String)

abbrev TableStore := Store (String × String) Holding

/-- A table is dropped, and with it those that inherit from it. -/
def cascade (held : TableStore) (key : String × String) : TableStore :=
  fun other =>
    if other = key then none
    else (held other).filter fun h => key ∉ h.ancestors

def ancestorsOf (held : TableStore) (key : String × String) :
    List (String × String) :=
  ((held key).map Holding.ancestors).getD []

def lineage (held : TableStore) (t : Table) : List (String × String) :=
  t.parents ++ t.parents.flatMap (ancestorsOf held)

def addRows (held : TableStore) (key : String × String) (bytes : List UInt8) :
    TableStore :=
  Function.update held key
    ((held key).map fun h => { h with rows := h.rows ++ bytes })

/-- What the restore of a table leaves at the server. -/
def place (held : TableStore) (t : Table) : TableStore :=
  Function.update (cascade held t.key) t.key
    (some ⟨t.carried.flatten, lineage (cascade held t.key) t⟩)

def dropText (t : Table) : String :=
  "DROP TABLE IF EXISTS " ++ t.quoted ++ " CASCADE"

def columnList (copyCols : List String) : String :=
  if copyCols.isEmpty then ""
  else " (" ++ String.intercalate ", " copyCols ++ ")"

def copyText (t : Table) : String :=
  "COPY " ++ t.quoted ++ columnList t.copyCols ++ " FROM STDIN (FORMAT text)"

def schemaText (schema : String) : String :=
  "CREATE SCHEMA IF NOT EXISTS " ++ schema

/-- The source of a copy, its tables in the order they are dumped in: a table
comes behind those it is a part of. -/
structure Source where
  createdAt : String
  pgVersion : String
  tables : List Table
  pre : Option String → List String
  sequences : Option String → List SequenceDump
  post : Option String → List String
  nodup : (tables.map fun t => t.key).Nodup
  ordered : tables.Pairwise fun t later => later.key ∉ t.parents
  closed : ∀ t ∈ tables, ∀ parent ∈ t.parents, ∃ p ∈ tables, p.key = parent
  apart : ∀ t ∈ tables, t.key ∉ t.parents

/-- The statements of a restore that are not about the rows of a table. -/
def Source.others (source : Source) (schemaFilter : Option String) :
    List String :=
  "SET check_function_bodies = false" :: (source.pre schemaFilter ++
    (source.sequences schemaFilter).flatMap (fun s =>
      [schemaText s.schema, s.createSql]) ++
    source.tables.flatMap (fun t =>
      schemaText t.schemaQuoted :: (t.constraints ++ t.indexes)) ++
    source.post schemaFilter)

/-- A server without an error: what a statement does to the tables, and the
table that a copy goes to. -/
structure Server (source : Source) where
  effect : String → TableStore → TableStore
  copyTarget : String → Option (String × String)
  drops : ∀ t ∈ source.tables, ∀ held,
    effect (dropText t) held = cascade held t.key
  creates : ∀ t ∈ source.tables, ∀ held : TableStore, held t.key = none →
    effect t.createSql held =
      Function.update held t.key (some ⟨[], lineage held t⟩)
  copies : ∀ t ∈ source.tables, copyTarget (copyText t) = some t.key
  keeps : ∀ schemaFilter, ∀ sql ∈ source.others schemaFilter, ∀ held,
    effect sql held = held

/-- The tables, and the copy that goes on with what it has brought. -/
abbrev Session := TableStore × Option ((String × String) × List UInt8)

def Server.client {source : Source} (server : Server source) :
    RestoreClient Session where
  batchExecute s sql := ((server.effect sql s.1, s.2), none)
  copyIn s sql := ((s.1, (server.copyTarget sql).map fun key => (key, [])), none)
  send s bytes := ((s.1, s.2.map fun copy => (copy.1, copy.2 ++ bytes)), none)
  finish s :=
    match s.2 with
    | some (key, bytes) =>
        ((addRows s.1 key bytes, none), .ok (bytes.count 0x0A))
    | none => (s, .ok 0)
  setval s _ _ _ := s
  resetIdentity s _ _ _ := s

def Source.dump (source : Source) (schemaFilter tableFilter : Option String) :
    Dump where
  createdAt := source.createdAt
  pgVersion := source.pgVersion
  pre := source.pre schemaFilter
  sequences := source.sequences schemaFilter
  tables := (source.tables.filter fun t =>
    picked schemaFilter tableFilter t.toRelation).map dumped
  post := source.post schemaFilter

section Frames

variable {source : Source} {server : Server source}
  {shown : ArchiveFrame → String} {st : RestoreState Session}
  {err : Option XBackupError} {frames : List ArchiveFrame} {t : Table}
  {drop : Bool} {schemaFilter : Option String}

theorem runIgnoreExists_keeps {sql : String}
    (hsql : sql ∈ source.others schemaFilter) (held : Session) :
    runIgnoreExists server.client held sql = (held, none) := by
  have hrun : server.client.batchExecute held sql = (held, none) :=
    Prod.ext (Prod.ext (server.keeps schemaFilter sql hsql held.1) rfl) rfl
  rw [runIgnoreExists, hrun]

/-- The statements that a restore keeps for later are none about rows. -/
structure Calm (source : Source) (schemaFilter : Option String)
    (st : RestoreState Session) : Prop where
  pre : st.preDdls ⊆ source.others schemaFilter
  unresolved : st.unresolvedPre ⊆ source.others schemaFilter
  constraints : st.deferredConstraints ⊆ source.others schemaFilter
  indexes : st.deferredIndexes ⊆ source.others schemaFilter
  post : st.postDdls ⊆ source.others schemaFilter

theorem foldl_keeps {sqls : List String}
    (hsqls : sqls ⊆ source.others schemaFilter) (held : Session) :
    sqls.foldl (fun held sql => (runIgnoreExists server.client held sql).1)
      held = held := by
  induction sqls with
  | nil => rfl
  | cons sql rest ih =>
      rw [List.foldl_cons, runIgnoreExists_keeps (hsqls List.mem_cons_self)]
      exact ih fun _ hother => hsqls (List.mem_cons_of_mem _ hother)

theorem smooth_keeps {sqls : List String}
    (hsqls : sqls ⊆ source.others schemaFilter) :
    ∀ held, ∀ sql ∈ sqls,
      (runIgnoreExists server.client held sql).2 = none := by
  intro held sql hsql
  rw [runIgnoreExists_keeps (hsqls hsql)]

theorem applyPre_keeps (hcalm : Calm source schemaFilter st) :
    (applyPre server.client st).server = st.server ∧
      (applyPre server.client st).copying = st.copying ∧
      Calm source schemaFilter (applyPre server.client st) := by
  rw [applyPre]
  split
  next => exact ⟨rfl, rfl, hcalm⟩
  next =>
    have hretry : retryApply server.client st.server st.preDdls =
        (st.server, []) := by
      rw [retryApply, settle_of_smooth (smooth_keeps hcalm.pre),
        foldl_keeps hcalm.pre]
    rw [hretry]
    exact ⟨rfl, rfl, ⟨hcalm.pre, List.nil_subset _, hcalm.constraints,
      hcalm.indexes, hcalm.post⟩⟩

theorem createSchema_keeps {schema : String}
    (hschema : schemaText schema ∈ source.others schemaFilter)
    (held : Session) :
    createSchema server.client held schema = .ok held := by
  rw [createSchema]
  split
  next => rfl
  next =>
    have hrun := @runIgnoreExists_keeps _ server _ _ hschema held
    unfold schemaText at hrun
    rw [hrun]

theorem applyAll_keeps {what : String} {sqls : List String}
    (hsqls : sqls ⊆ source.others schemaFilter) (held : Session) :
    applyAll server.client what held sqls = .ok held := by
  induction sqls with
  | nil => rfl
  | cons sql rest ih =>
      rw [applyAll, runIgnoreExists_keeps (hsqls List.mem_cons_self)]
      exact ih fun _ hother => hsqls (List.mem_cons_of_mem _ hother)

theorem applyWithRetry_keeps {what : String} {sqls : List String}
    (hsqls : sqls ⊆ source.others schemaFilter) (held : Session) :
    applyWithRetry server.client what held sqls = .ok held := by
  rw [applyWithRetry, exhaust_of_smooth (smooth_keeps hsqls),
    foldl_keeps hsqls]

theorem mem_others {sql : String} : sql ∈ source.others schemaFilter ↔
    sql = "SET check_function_bodies = false" ∨
      sql ∈ source.pre schemaFilter ∨
      (∃ s ∈ source.sequences schemaFilter,
        sql = schemaText s.schema ∨ sql = s.createSql) ∨
      (∃ t ∈ source.tables, sql = schemaText t.schemaQuoted ∨
        sql ∈ t.constraints ∨ sql ∈ t.indexes) ∨
      sql ∈ source.post schemaFilter := by
  simp only [Source.others, List.mem_cons, List.mem_append, List.mem_flatMap,
    List.not_mem_nil, or_false, or_assoc]

/-- A sequence leaves the tables as they are. -/
theorem restoreSequence_keeps {s : SequenceDump}
    (hs : s ∈ source.sequences schemaFilter)
    (hcalm : Calm source schemaFilter st) :
    ∃ next, restoreSequence server.client st s.info = .ok next ∧
      next.server = st.server ∧ next.copying = st.copying ∧
      Calm source schemaFilter next := by
  have hschema : schemaText s.schema ∈ source.others schemaFilter :=
    mem_others.mpr (.inr (.inr (.inl ⟨s, hs, .inl rfl⟩)))
  have hcreate : s.createSql ∈ source.others schemaFilter :=
    mem_others.mpr (.inr (.inr (.inl ⟨s, hs, .inr rfl⟩)))
  obtain ⟨hserver, hcopying, happlied⟩ :=
    @applyPre_keeps source server st schemaFilter hcalm
  have hname : s.info.getStr "name" = some s.name := rfl
  have hschemaOf : s.info.getStr "schema" = some s.schema := rfl
  have hsql : s.info.getStr "create_sql" = some s.createSql := rfl
  refine ⟨{ applyPre server.client st with
    server := st.server
    setvals := (applyPre server.client st).setvals ++
      [(s.name, s.lastValue, s.isCalled)] }, ?_, rfl, hcopying,
    ⟨happlied.pre, happlied.unresolved, happlied.constraints, happlied.indexes,
      happlied.post⟩⟩
  rw [restoreSequence, hname]
  dsimp only
  refine bind_eq_ok.mpr ⟨st.server, ?_, ?_⟩
  · rw [hschemaOf, hserver]
    exact createSchema_keeps hschema st.server
  · rw [hsql, Option.getD_some, runIgnoreExists_keeps hcreate]
    rfl

theorem strings_str {info : Document} {key : String} {values : List String}
    (hinfo : info.getArray key = some (values.map str)) :
    strings info key = values := by
  rw [strings, hinfo, Option.getD_some, List.filterMap_map]
  exact List.filterMap_some

/-- A table is dropped with its heirs and created empty. -/
def created (held : TableStore) (t : Table) : TableStore :=
  Function.update (cascade held t.key) t.key
    (some ⟨[], lineage (cascade held t.key) t⟩)

theorem batchExecute_drop (ht : t ∈ source.tables) (held : Session) :
    server.client.batchExecute held (dropText t) =
      ((cascade held.1 t.key, held.2), none) :=
  Prod.ext (Prod.ext (server.drops t ht _) rfl) rfl

theorem runIgnoreExists_create (ht : t ∈ source.tables) (held : Session) :
    runIgnoreExists server.client (cascade held.1 t.key, held.2) t.createSql =
      ((created held.1 t, held.2), none) := by
  have hroom : cascade held.1 t.key t.key = none := if_pos rfl
  have hrun : server.client.batchExecute (cascade held.1 t.key, held.2)
      t.createSql = ((created held.1 t, held.2), none) :=
    Prod.ext (Prod.ext (server.creates t ht _ hroom) rfl) rfl
  rw [runIgnoreExists, hrun]

theorem copyIn_serving (ht : t ∈ source.tables) (held : Session) :
    server.client.copyIn held (copyText t) =
      ((held.1, some (t.key, [])), none) := by
  change ((held.1, (server.copyTarget (copyText t)).map fun key => (key, [])),
    none) = _
  rw [server.copies t ht]
  rfl

/-- Behind the frame of a table a copy into it goes on. -/
theorem restoreTable_serving (ht : t ∈ source.tables)
    (hcalm : Calm source schemaFilter st) :
    ∃ next, restoreTable server.client true st (dumped t).info = .ok next ∧
      next.server = (created st.server.1 t, some (t.key, [])) ∧
      next.copying = some (qualified t.schema t.name) ∧
      Calm source schemaFilter next := by
  have hschema : schemaText t.schemaQuoted ∈ source.others schemaFilter :=
    mem_others.mpr (.inr (.inr (.inr (.inl ⟨t, ht, .inl rfl⟩))))
  have hlater : t.constraints ⊆ source.others schemaFilter ∧
      t.indexes ⊆ source.others schemaFilter :=
    ⟨fun _ hsql => mem_others.mpr
        (.inr (.inr (.inr (.inl ⟨t, ht, .inr (.inl hsql)⟩)))),
      fun _ hsql => mem_others.mpr
        (.inr (.inr (.inr (.inl ⟨t, ht, .inr (.inr hsql)⟩))))⟩
  obtain ⟨hserver, -, happlied⟩ :=
    @applyPre_keeps source server st schemaFilter hcalm
  have hns : (dumped t).info.getStr "ns" =
      some (qualified t.schema t.name) := rfl
  have hsql : (dumped t).info.getStr "create_sql" = some t.createSql := rfl
  have hquoted : (dumped t).info.getStr "quoted" = some t.quoted := rfl
  have hschemaOf : (dumped t).info.getStr "schema" = some t.schemaQuoted := rfl
  have hcols : strings (dumped t).info "copy_cols" = t.copyCols :=
    strings_str rfl
  have hconstraints : strings (dumped t).info "constraints" = t.constraints :=
    strings_str rfl
  have hindexes : strings (dumped t).info "indexes" = t.indexes :=
    strings_str rfl
  have hdrop := @batchExecute_drop source server t ht st.server
  have hcreate := @runIgnoreExists_create source server t ht st.server
  have hcopy := @copyIn_serving source server t ht
    (created st.server.1 t, st.server.2)
  unfold dropText at hdrop
  unfold copyText columnList at hcopy
  refine ⟨{ applyPre server.client st with
    server := (created st.server.1 t, some (t.key, []))
    deferredConstraints := (applyPre server.client st).deferredConstraints ++
      t.constraints
    deferredIndexes := (applyPre server.client st).deferredIndexes ++ t.indexes
    identityResets := (applyPre server.client st).identityResets ++
      (strings (dumped t).info "identity_cols").map fun col =>
        (qualified t.schema t.name, col)
    copying := some (qualified t.schema t.name) }, ?_, rfl, rfl,
    ⟨happlied.pre, happlied.unresolved,
      List.append_subset.mpr ⟨happlied.constraints, hlater.1⟩,
      List.append_subset.mpr ⟨happlied.indexes, hlater.2⟩, happlied.post⟩⟩
  rw [restoreTable, hns]
  dsimp only
  rw [hsql]
  dsimp only
  refine bind_eq_ok.mpr ⟨st.server, ?_, ?_⟩
  · rw [hschemaOf, hserver]
    exact createSchema_keeps hschema st.server
  · rw [if_pos rfl, hquoted, Option.getD_some, hdrop]
    dsimp only
    rw [hcreate]
    dsimp only
    rw [hcols, hcopy, hconstraints, hindexes]

/-- The data of a table arrives as it was sent. -/
theorem restoreLoop_data {ns : String} {key : String × String}
    {sent : List UInt8} (hcopying : st.copying = some ns)
    (hsession : st.server.2 = some (key, sent)) (chunks : List (List UInt8)) :
    ∃ inserted, restoreLoop server.client drop shown err st
        (chunks.map ArchiveFrame.data ++ .tableEnd :: frames) =
      restoreLoop server.client drop shown err { st with
        server := (addRows st.server.1 key (sent ++ chunks.flatten), none)
        inserted := inserted
        copying := none } frames := by
  induction chunks generalizing st sent with
  | nil =>
      have hfinish : server.client.finish st.server =
          ((addRows st.server.1 key sent, none), .ok (sent.count 0x0A)) := by
        change (match st.server.2 with
          | some (key, bytes) =>
              ((addRows st.server.1 key bytes, none),
                Except.ok (bytes.count 0x0A))
          | none => (st.server, .ok 0)) = _
        rw [hsession]
      refine ⟨st.inserted + sent.count 0x0A, ?_⟩
      rw [List.map_nil, List.nil_append, restoreLoop, restoreFrame, hcopying]
      dsimp only [copyFrame]
      rw [hfinish, List.flatten_nil, List.append_nil]
  | cons chunk rest ih =>
      have hsend : server.client.send st.server chunk =
          ((st.server.1, some (key, sent ++ chunk)), none) := by
        change ((st.server.1, st.server.2.map fun copy =>
          (copy.1, copy.2 ++ chunk)), none) = _
        rw [hsession]
        rfl
      obtain ⟨inserted, hloop⟩ := @ih { st with
        server := (st.server.1, some (key, sent ++ chunk)) } (sent ++ chunk)
          hcopying rfl
      refine ⟨inserted, ?_⟩
      rw [List.map_cons, List.cons_append, restoreLoop, restoreFrame, hcopying]
      dsimp only [copyFrame]
      rw [hsend, List.flatten_cons, ← List.append_assoc]
      exact hloop

theorem addRows_created (held : TableStore) (t : Table) :
    addRows (created held t) t.key t.carried.flatten = place held t := by
  rw [addRows, created, place, Function.update_self, Function.update_idem]
  rfl

/-- The frames of the tables place them one after the other. -/
theorem restoreLoop_tables {tables : List Table}
    (htables : tables ⊆ source.tables) (hcopying : st.copying = none)
    (hcalm : Calm source schemaFilter st) (hsession : st.server.2 = none) :
    ∃ next, restoreLoop server.client true shown err st
        ((tables.map dumped).flatMap TableDump.frames ++ frames) =
          restoreLoop server.client true shown err next frames ∧
      next.server = (tables.foldl place st.server.1, none) ∧
      next.copying = none ∧ Calm source schemaFilter next := by
  induction tables generalizing st with
  | nil => exact ⟨st, rfl, Prod.ext rfl hsession, hcopying, hcalm⟩
  | cons t rest ih =>
      have ht : t ∈ source.tables := htables List.mem_cons_self
      obtain ⟨opened, hopen, hserver, hns, hopened⟩ :=
        @restoreTable_serving source server st t schemaFilter ht hcalm
      have hcopy : opened.server.2 = some (t.key, []) := by
        rw [hserver]
      obtain ⟨inserted, hdata⟩ := @restoreLoop_data source server shown opened
        err ((rest.map dumped).flatMap TableDump.frames ++ frames) true _ _ _
        hns hcopy (t.carried.filter (· ≠ []))
      have hplaced : addRows opened.server.1 t.key
          ([] ++ (t.carried.filter (· ≠ [])).flatten) = place st.server.1 t := by
        rw [List.nil_append, List.flatten_filter_ne_nil, hserver]
        exact addRows_created st.server.1 t
      obtain ⟨next, hloop, hlast, hdone, hcalmed⟩ := @ih { opened with
          server := (place st.server.1 t, none)
          inserted := inserted
          copying := none } (fun _ h => htables (List.mem_cons_of_mem _ h)) rfl
        ⟨hopened.pre, hopened.unresolved, hopened.constraints, hopened.indexes,
          hopened.post⟩ rfl
      refine ⟨next, ?_, hlast, hdone, hcalmed⟩
      rw [List.map_cons, List.flatMap_cons, TableDump.frames, List.append_assoc,
        List.cons_append, List.append_assoc, restoreLoop, restoreFrame, hcopying]
      dsimp only
      rw [hopen]
      dsimp only
      rw [List.singleton_append]
      refine Eq.trans hdata ?_
      rw [hplaced]
      exact hloop

/-- The statements before the tables wait. -/
theorem restoreLoop_pre {pre : List String}
    (hpre : pre ⊆ source.others schemaFilter) (hcopying : st.copying = none)
    (hcalm : Calm source schemaFilter st) :
    ∃ next, restoreLoop server.client drop shown err st
        (pre.map (fun sql => .pre (sqlDoc sql)) ++ frames) =
          restoreLoop server.client drop shown err next frames ∧
      next.server = st.server ∧ next.copying = none ∧
      Calm source schemaFilter next := by
  induction pre generalizing st with
  | nil => exact ⟨st, rfl, rfl, hcopying, hcalm⟩
  | cons sql rest ih =>
      have hsql : [sql] ⊆ source.others schemaFilter := by
        simpa using hpre List.mem_cons_self
      obtain ⟨next, hloop, hserver, hdone, hcalmed⟩ := @ih { st with
          preDdls := st.preDdls ++ [sql]
          copying := none } (fun _ h => hpre (List.mem_cons_of_mem _ h)) rfl
        ⟨List.append_subset.mpr ⟨hcalm.pre, hsql⟩, hcalm.unresolved,
          hcalm.constraints, hcalm.indexes, hcalm.post⟩
      refine ⟨next, ?_, hserver, hdone, hcalmed⟩
      rw [List.map_cons, List.cons_append, restoreLoop, restoreFrame, hcopying]
      exact hloop

theorem restoreLoop_sequences {sequences : List SequenceDump}
    (hsequences : sequences ⊆ source.sequences schemaFilter)
    (hcopying : st.copying = none) (hcalm : Calm source schemaFilter st) :
    ∃ next, restoreLoop server.client drop shown err st
        (sequences.map (fun s => .sequence s.info) ++ frames) =
          restoreLoop server.client drop shown err next frames ∧
      next.server = st.server ∧ next.copying = none ∧
      Calm source schemaFilter next := by
  induction sequences generalizing st with
  | nil => exact ⟨st, rfl, rfl, hcopying, hcalm⟩
  | cons s rest ih =>
      obtain ⟨opened, hopen, hsame, hnone, hopened⟩ :=
        @restoreSequence_keeps source server st schemaFilter s
          (hsequences List.mem_cons_self) hcalm
      obtain ⟨next, hloop, hserver, hdone, hcalmed⟩ := @ih opened
        (fun _ h => hsequences (List.mem_cons_of_mem _ h))
        (hnone.trans hcopying) hopened
      refine ⟨next, ?_, hserver.trans hsame, hdone, hcalmed⟩
      rw [List.map_cons, List.cons_append, restoreLoop, restoreFrame, hcopying]
      dsimp only
      rw [hopen]
      exact hloop

theorem restoreLoop_post {post : List String}
    (hpost : post ⊆ source.others schemaFilter) (hcopying : st.copying = none)
    (hcalm : Calm source schemaFilter st) :
    ∃ next, restoreLoop server.client drop shown none st
        (post.map fun sql => .post (sqlDoc sql)) = .ok next ∧
      next.server = st.server ∧ Calm source schemaFilter next := by
  induction post generalizing st with
  | nil =>
      refine ⟨st, ?_, rfl, hcalm⟩
      rw [List.map_nil, restoreLoop, restoreFrame, hcopying]
  | cons sql rest ih =>
      have hsql : [sql] ⊆ source.others schemaFilter := by
        simpa using hpost List.mem_cons_self
      obtain ⟨next, hloop, hserver, hcalmed⟩ := @ih { st with
          postDdls := st.postDdls ++ [sql]
          copying := none } (fun _ h => hpost (List.mem_cons_of_mem _ h)) rfl
        ⟨hcalm.pre, hcalm.unresolved, hcalm.constraints, hcalm.indexes,
          List.append_subset.mpr ⟨hcalm.post, hsql⟩⟩
      refine ⟨next, ?_, hserver, hcalmed⟩
      rw [List.map_cons, restoreLoop, restoreFrame, hcopying]
      exact hloop

theorem applyDeferred_keeps (hcalm : Calm source schemaFilter st) :
    ∃ next, applyDeferred server.client st = .ok next ∧
      next.server = st.server := by
  obtain ⟨hserver, -, happlied⟩ :=
    @applyPre_keeps source server st schemaFilter hcalm
  have hbehind : applyWithRetry server.client "후행 DDL(함수/뷰/트리거)"
      (applyPre server.client st).server
      ((applyPre server.client st).unresolvedPre ++
        (applyPre server.client st).postDdls) = .ok st.server := by
    rw [hserver]
    exact applyWithRetry_keeps
      (List.append_subset.mpr ⟨happlied.unresolved, happlied.post⟩) _
  refine ⟨{ applyPre server.client st with server := st.server }, ?_, rfl⟩
  refine bind_eq_ok.mpr ⟨st.server, applyAll_keeps hcalm.constraints _, ?_⟩
  refine bind_eq_ok.mpr ⟨st.server, applyAll_keeps hcalm.indexes _, ?_⟩
  rw [@List.foldl_fixed' _ _ _ st.server ?setvals st.setvals]
  dsimp only
  rw [@List.foldl_fixed' _ _ _ st.server ?resets st.identityResets]
  · exact bind_eq_ok.mpr ⟨st.server, hbehind, rfl⟩
  · intro reset
    split
    next => rfl
    next => rfl
  · intro setval
    rfl

/-- A restore of a whole dump places the tables that are picked. -/
theorem restoreFrames_dump (held : TableStore)
    (schemaFilter tableFilter : Option String) :
    ∃ next, restoreFrames server.client true shown (held, none)
        ((source.dump schemaFilter tableFilter).frames, none) = .ok next ∧
      next.server = ((source.tables.filter fun t =>
        picked schemaFilter tableFilter t.toRelation).foldl place held,
          none) := by
  have hformat : ((source.dump schemaFilter tableFilter).header.getStr
      "format").getD "" = PG_FORMAT_ID := rfl
  have hcheck : (server.client.batchExecute (held, none)
      "SET check_function_bodies = false").1 = (held, none) :=
    Prod.ext (server.keeps schemaFilter _ (mem_others.mpr (.inl rfl)) held) rfl
  have hpre : source.pre schemaFilter ⊆ source.others schemaFilter :=
    fun _ hsql => mem_others.mpr (.inr (.inl hsql))
  have hpost : source.post schemaFilter ⊆ source.others schemaFilter :=
    fun _ hsql => mem_others.mpr (.inr (.inr (.inr (.inr hsql))))
  have hcalm : Calm source schemaFilter
      ⟨(held, none), 0, [], [], [], [], [], [], [], false, none⟩ :=
    ⟨List.nil_subset _, List.nil_subset _, List.nil_subset _,
      List.nil_subset _, List.nil_subset _⟩
  let picks := source.tables.filter fun t =>
    picked schemaFilter tableFilter t.toRelation
  let afterTables := (source.post schemaFilter).map fun sql =>
    ArchiveFrame.post (sqlDoc sql)
  let afterSequences := (picks.map dumped).flatMap TableDump.frames ++
    afterTables
  let afterPre := (source.sequences schemaFilter).map
    (fun s => ArchiveFrame.sequence s.info) ++ afterSequences
  obtain ⟨pre, hpreLoop, hpreServer, hpreNone, hpreCalm⟩ :=
    @restoreLoop_pre source server shown _ none afterPre true schemaFilter _
      hpre rfl hcalm
  obtain ⟨seq, hseqLoop, hseqServer, hseqNone, hseqCalm⟩ :=
    @restoreLoop_sequences source server shown _ none afterSequences true
      schemaFilter _ (List.Subset.refl _) hpreNone hpreCalm
  have hsession : seq.server.2 = none := by
    rw [hseqServer, hpreServer]
  obtain ⟨tab, htabLoop, htabServer, htabNone, htabCalm⟩ :=
    @restoreLoop_tables source server shown _ none afterTables schemaFilter
      picks (List.filter_subset_self _) hseqNone hseqCalm hsession
  obtain ⟨post, hpostLoop, hpostServer, hpostCalm⟩ :=
    @restoreLoop_post source server shown _ true schemaFilter _ hpost htabNone
      htabCalm
  obtain ⟨last, hdeferred, hlast⟩ :=
    @applyDeferred_keeps source server _ schemaFilter hpostCalm
  refine ⟨last, ?_, ?_⟩
  · have hrun := hpreLoop.trans (hseqLoop.trans (htabLoop.trans hpostLoop))
    rw [Dump.frames, restoreFrames, hcheck, if_neg (not_not.mpr hformat),
      List.append_assoc, List.append_assoc]
    refine Eq.trans ?_ hdeferred
    split
    next err herr => cases hrun.symm.trans herr
    next st hst => rw [Except.ok.inj (hrun.symm.trans hst)]
  · rw [hlast, hpostServer, htabServer, hseqServer, hpreServer]

end Frames

section Placing

variable {held : TableStore} {key : String × String} {t : Table}
  {tables : List Table}

theorem cascade_of_ne (hne : key ≠ t.key) :
    cascade held t.key key = (held key).filter fun h => t.key ∉ h.ancestors :=
  if_neg hne

theorem place_of_ne (hne : key ≠ t.key) :
    place held t key = (held key).filter fun h => t.key ∉ h.ancestors := by
  rw [place, Function.update_of_ne hne, cascade_of_ne hne]

theorem place_self : place held t t.key =
    some ⟨t.carried.flatten, lineage (cascade held t.key) t⟩ :=
  Function.update_self _ _ _

/-- Another table stays unless it inherits from one that is placed. -/
theorem placeAll_of_notMem (hkey : key ∉ tables.map fun t => t.key) :
    tables.foldl place held key =
      (held key).filter fun h => ∀ t ∈ tables, t.key ∉ h.ancestors := by
  induction tables generalizing held with
  | nil =>
      cases hheld : held key with
      | none => exact hheld
      | some h =>
          rw [Option.filter_some, if_pos (decide_eq_true (List.forall_mem_nil _))]
          exact hheld
  | cons t rest ih =>
      obtain ⟨hne, hrest⟩ := List.ne_and_not_mem_of_not_mem_cons hkey
      rw [List.foldl_cons, ih hrest, place_of_ne hne, Option.filter_filter]
      congr 1
      funext h
      rw [← Bool.decide_and, decide_eq_decide, List.forall_mem_cons]

theorem placeAll_kept_iff (hkey : key ∉ tables.map fun t => t.key) :
    tables.foldl place held key = held key ↔
      ∀ h, held key = some h → ∀ t ∈ tables, t.key ∉ h.ancestors := by
  rw [placeAll_of_notMem hkey]
  cases held key with
  | none => simp
  | some h => simp [Option.filter_eq_some_iff]

theorem ancestorsOf_cascade (held : TableStore) (dropped key : String × String) :
    ancestorsOf (cascade held dropped) key ⊆ ancestorsOf held key := by
  simp only [ancestorsOf, cascade]
  split
  · exact List.nil_subset _
  · cases held key with
    | none => exact List.Subset.refl _
    | some h =>
        rw [Option.filter_some]
        split
        · exact List.Subset.refl _
        · exact List.nil_subset _

/-- Tables in the order of a dump: each behind those it is a part of. What it
is a part of and is not among them has none of them as an ancestor. -/
structure Arranged (held : TableStore) (tables : List Table) : Prop where
  nodup : (tables.map fun t => t.key).Nodup
  ordered : tables.Pairwise fun t later => later.key ∉ t.parents
  apart : ∀ t ∈ tables, t.key ∉ t.parents
  free : ∀ t ∈ tables, ∀ parent ∈ t.parents,
    (parent ∉ tables.map fun t => t.key) →
      ∀ other ∈ tables, other.key ∉ ancestorsOf held parent

/-- A table that is placed has none of the later ones as an ancestor. -/
theorem Arranged.lineage_free {rest : List Table}
    (harranged : Arranged held (t :: rest)) :
    ∀ other ∈ rest, other.key ∉ lineage (cascade held t.key) t := by
  intro other hother hmem
  obtain ⟨hlater, -⟩ := List.pairwise_cons.mp harranged.ordered
  rcases List.mem_append.mp hmem with hparent | hmem
  · exact hlater other hother hparent
  · obtain ⟨parent, hparent, hancestor⟩ := List.mem_flatMap.mp hmem
    refine harranged.free t List.mem_cons_self parent hparent ?_ other
      (List.mem_cons_of_mem _ hother) (ancestorsOf_cascade _ _ _ hancestor)
    intro hkey
    obtain ⟨placed, hplaced, rfl⟩ := List.mem_map.mp hkey
    rcases List.mem_cons.mp hplaced with rfl | hplaced
    · exact harranged.apart placed List.mem_cons_self hparent
    · exact hlater placed hplaced hparent

theorem Arranged.place {rest : List Table}
    (harranged : Arranged held (t :: rest)) :
    Arranged (place held t) rest := by
  refine ⟨(List.nodup_cons.mp harranged.nodup).2,
    (List.pairwise_cons.mp harranged.ordered).2,
    fun later hlater => harranged.apart later (List.mem_cons_of_mem _ hlater),
    ?_⟩
  intro later hlater parent hparent hkey other hother hancestor
  by_cases hsame : parent = t.key
  · rw [hsame, ancestorsOf, place_self] at hancestor
    exact harranged.lineage_free other hother hancestor
  · refine harranged.free later (List.mem_cons_of_mem _ hlater) parent hparent
      (List.not_mem_cons_of_ne_of_not_mem hsame hkey) other
      (List.mem_cons_of_mem _ hother) (ancestorsOf_cascade held t.key parent ?_)
    rwa [ancestorsOf, Postgres.place, Function.update_of_ne hsame] at hancestor

theorem placeAll_of_mem (harranged : Arranged held tables) (ht : t ∈ tables) :
    ((tables.foldl place held t.key).map Holding.rows) =
      some t.carried.flatten := by
  induction tables generalizing held with
  | nil => cases ht
  | cons first rest ih =>
      rw [List.foldl_cons]
      rcases List.mem_cons.mp ht with rfl | ht
      · have hlast := (List.nodup_cons.mp harranged.nodup).1
        rw [(placeAll_kept_iff hlast).mpr, place_self, Option.map_some]
        intro h hheld
        rw [place_self] at hheld
        cases hheld
        exact harranged.lineage_free
      · exact ih harranged.place ht

end Placing

end Postgres

end XBackup
