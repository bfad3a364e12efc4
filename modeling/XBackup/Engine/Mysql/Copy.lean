/-
A restore of what a dump writes, at a MySQL server where every statement does
what it says.
-/
import XBackup.Engine.Catalog
import XBackup.Foundation.Overwrite

namespace XBackup

open Bytes Fallible Overwrite Rounds

namespace Mysql

abbrev TableStore := Store String (List String)

def columnList (insertCols : List String) : String :=
  if insertCols.isEmpty then ""
  else " (" ++ String.intercalate ", " insertCols ++ ")"

def dropText (table : Table) : String :=
  "DROP TABLE IF EXISTS " ++ quoteIdent table.name

def insertText (table : Table) (batch : List String) : String :=
  "INSERT INTO " ++ quoteIdent table.name ++ columnList table.insertCols ++
    " VALUES " ++ String.intercalate ", " batch

/-- An object as it is read back; settings that are empty are none. -/
def PostObj.readBack (obj : PostObj) : PostObj :=
  { obj with
    sqlMode := obj.sqlMode.filter fun value => value ≠ ""
    characterSetClient := obj.characterSetClient.filter fun value => value ≠ ""
    collationConnection :=
      obj.collationConnection.filter fun value => value ≠ ""
    timeZone := obj.timeZone.filter fun value => value ≠ "" }

def PostObj.statements (obj : PostObj) : List String :=
  obj.session.map Prod.fst ++ [obj.sql] ++
    (dropKeyword obj.kind).toList.map fun kw =>
      "DROP " ++ kw ++ " IF EXISTS " ++ quoteIdent obj.name

def defaultsText (database : String) (header : HeaderFrame) : String :=
  "ALTER DATABASE " ++ quoteIdent database ++ " CHARACTER SET " ++
    quoteIdent header.databaseCharset ++ " COLLATE " ++
    quoteIdent header.databaseCollation

/-- The source of a copy: its database, what its dumps carry behind the tables,
and their header. -/
structure Source where
  db : String
  tables : List Table
  post : List PostObj
  header : HeaderFrame
  nodup : (tables.map Table.name).Nodup

/-- The statements of a restore that are not about the rows of a table. -/
def Source.others (source : Source) (database : String) : List String :=
  sessionStatements ++ [defaultsText database source.header] ++
    source.post.flatMap fun obj => obj.readBack.statements

/-- A server without an error: what a statement does to the tables of the
database it works on. -/
structure Server (source : Source) where
  database : String
  effect : String → TableStore → TableStore
  drops : ∀ t ∈ source.tables, ∀ held,
    effect (dropText t) held = vacate held t.name
  creates : ∀ t ∈ source.tables, ∀ held : TableStore, held t.name = none →
    effect t.createSql held = Function.update held t.name (some [])
  inserts : ∀ t ∈ source.tables, ∀ (held : TableStore) (rows batch : List String),
    held t.name = some rows → batch ≠ [] → batch <:+: t.rows →
      effect (insertText t batch) held =
        Function.update held t.name (some (rows ++ batch))
  keeps : ∀ sql ∈ source.others database, ∀ held, effect sql held = held

def Server.conn {source : Source} (server : Server source) :
    RestoreConn TableStore where
  execute held sql _ := (server.effect sql held, none)
  database _ := .ok (some server.database)

/-- What is dumped: a dump of one table has nothing behind the tables. -/
def Source.dump (source : Source) (tableFilter : Option String) : Dump where
  header := source.header
  tables := (listTables source.tables tableFilter).map (dumped source.db)
  post := if tableFilter.isNone then source.post else []

section Frames

variable {source : Source} {server : Server source}
  {shown : ArchiveFrame → String} {utf8Error : List UInt8 → String}
  {st : RestoreState TableStore} {err : Option XBackupError}
  {frames : List ArchiveFrame} {t : Table} {drop : Bool}

theorem execute_keeps {sql : String} (hsql : sql ∈ source.others server.database)
    (held : TableStore) (params : List String) :
    server.conn.execute held sql params = (held, none) :=
  Prod.ext (server.keeps sql hsql held) rfl

theorem queryDrop_keeps {sql : String}
    (hsql : sql ∈ source.others server.database) (held : TableStore) :
    queryDrop server.conn held sql = (held, none) :=
  execute_keeps hsql held []

theorem openRestoreSession_keeps (held : TableStore) :
    openRestoreSession server.conn held sessionStatements = .ok held := by
  have hopen : ∀ stmts, stmts ⊆ source.others server.database →
      openRestoreSession server.conn held stmts = .ok held := by
    intro stmts hstmts
    induction stmts with
    | nil => rfl
    | cons stmt rest ih =>
        rw [openRestoreSession, queryDrop_keeps (hstmts List.mem_cons_self)]
        exact ih fun other hother => hstmts (List.mem_cons_of_mem _ hother)
  apply hopen
  intro stmt hstmt
  rw [Source.others, List.mem_append, List.mem_append]
  exact .inl (.inl hstmt)

theorem applyDatabaseDefaults_keeps (held : TableStore) :
    applyDatabaseDefaults server.conn held source.header.info = .ok held := by
  have hmem : defaultsText server.database source.header ∈
      source.others server.database := by
    rw [Source.others, List.mem_append, List.mem_append]
    exact .inl (.inr (List.mem_singleton_self _))
  have hrun : queryDrop server.conn held
      (defaultsText server.database source.header) = (held, none) :=
    queryDrop_keeps hmem held
  have hcharset : source.header.info.getStr "database_charset" =
      some source.header.databaseCharset := rfl
  have hcollation : source.header.info.getStr "database_collation" =
      some source.header.databaseCollation := rfl
  have hdatabase : server.conn.database held = .ok (some server.database) := rfl
  unfold defaultsText at hrun
  unfold applyDatabaseDefaults
  rw [hcharset, hcollation]
  dsimp only
  rw [hdatabase]
  dsimp only
  rw [hrun]

theorem postObj_info (obj : PostObj) : postObj obj.info = .ok obj.readBack := by
  obtain ⟨kind, name, sql, sqlMode, charset, collation, timeZone⟩ := obj
  cases sqlMode <;> cases charset <;> cases collation <;> cases timeZone <;>
    rfl

theorem post_keeps {obj : PostObj} (hobj : obj ∈ source.post) {sql : String}
    (hsql : sql ∈ obj.readBack.statements) :
    sql ∈ source.others server.database :=
  List.mem_append_right _ (List.mem_flatMap.mpr ⟨obj, hobj, hsql⟩)

theorem runSession_keeps (held : TableStore)
    (session : List (String × List String × String))
    (hsession : session.map Prod.fst ⊆ source.others server.database) :
    runSession server.conn held session = (held, none) := by
  induction session with
  | nil => rfl
  | cons statement rest ih =>
      rw [runSession, execute_keeps (hsession List.mem_cons_self)]
      exact ih fun other hother => hsession (List.mem_cons_of_mem _ hother)

theorem applyPostObject_keeps {obj : PostObj} (hobj : obj ∈ source.post)
    (held : TableStore) :
    applyPostObject server.conn held obj.readBack = (held, none) := by
  have hsession : obj.readBack.session.map Prod.fst ⊆
      source.others server.database := fun sql hsql =>
    post_keeps hobj (List.mem_append_left _ (List.mem_append_left _ hsql))
  have hsql : obj.readBack.sql ∈ source.others server.database :=
    post_keeps hobj (List.mem_append_left _
      (List.mem_append_right _ List.mem_cons_self))
  rw [applyPostObject, runSession_keeps held _ hsession]
  simp only [runIgnoreExists, queryDrop_keeps hsql held, Option.map_none]

theorem dropPost_keeps {obj : PostObj} (hobj : obj ∈ source.post)
    (held : TableStore) : dropPost server.conn held obj.readBack = held := by
  rw [dropPost]
  split
  next => rfl
  next kw hkw =>
    split
    next => rfl
    next =>
      have hsql : _ ∈ source.others server.database := post_keeps hobj
        (List.mem_append_right _ (List.mem_map_of_mem
          (Option.mem_toList.mpr hkw)))
      rw [queryDrop_keeps hsql held]

theorem applyPost_keeps {post : List PostObj} (hpost : post ⊆ source.post)
    (held : TableStore) : applyPost server.conn held
      (post.map PostObj.readBack) drop = .ok held := by
  have hfold : ∀ (run : TableStore → PostObj → TableStore),
      (∀ obj ∈ post, run held obj.readBack = held) →
      (post.map PostObj.readBack).foldl run held = held := by
    intro run hrun
    induction post with
    | nil => rfl
    | cons obj rest ih =>
        obtain ⟨hobj, hrest⟩ := List.forall_mem_cons.mp hrun
        rw [List.map_cons, List.foldl_cons, hobj]
        exact ih (fun _ hother => hpost (List.mem_cons_of_mem _ hother)) hrest
  have hdropped := hfold (dropPost server.conn)
    fun obj hobj => dropPost_keeps (hpost hobj) held
  have hsmooth : ∀ st, ∀ obj ∈ post.map PostObj.readBack,
      (applyPostObject server.conn st obj).2 = none := by
    intro st obj hobj
    obtain ⟨own, hown, rfl⟩ := List.mem_map.mp hobj
    rw [applyPostObject_keeps (hpost hown)]
  have happlied := hfold (fun st obj => (applyPostObject server.conn st obj).1)
    fun obj hobj => by rw [applyPostObject_keeps (hpost hobj)]
  rw [applyPost, hdropped, ite_self, exhaust_of_smooth hsmooth, happlied]

/-- The copying of a table, some of its rows in the batch. -/
def copyingOf (source : Source) (t : Table) (batch : List String)
    (batchBytes : Nat) : Copying :=
  ⟨source.db ++ "." ++ t.name, quoteIdent t.name, columnList t.insertCols,
    batch, batchBytes⟩

theorem insertCols_info (dump : TableDump) :
    ((dump.info.getArray "insert_cols").getD []).filterMap asStr =
      dump.insertCols := by
  change (dump.insertCols.map str).filterMap asStr = _
  rw [List.filterMap_map]
  exact List.filterMap_some

/-- A table that is dropped first is created empty. -/
theorem restoreTable_serving (ht : t ∈ source.tables) :
    restoreTable server.conn true st (dumped source.db t).info =
      .ok { st with
        server := Function.update (vacate st.server t.name) t.name (some [])
        copying := some (copyingOf source t [] 0) } := by
  have hdrop : queryDrop server.conn st.server
      ("DROP TABLE IF EXISTS " ++ quoteIdent t.name) =
        (vacate st.server t.name, none) :=
    Prod.ext (server.drops t ht st.server) rfl
  have hroom : vacate st.server t.name t.name = none :=
    Function.update_self _ _ _
  have hcreate : queryDrop server.conn (vacate st.server t.name) t.createSql =
      (Function.update (vacate st.server t.name) t.name (some []), none) :=
    Prod.ext (server.creates t ht _ hroom) rfl
  have hns : (dumped source.db t).info.getStr "ns" =
      some (source.db ++ "." ++ t.name) := rfl
  have hquoted : (dumped source.db t).info.getStr "quoted" =
      some (quoteIdent t.name) := rfl
  have hsql : (dumped source.db t).info.getStr "create_sql" =
      some t.createSql := rfl
  simp only [restoreTable, hns, hquoted, hsql, insertCols_info, if_true, hdrop,
    runIgnoreExists, hcreate]
  rfl

/-- The batch is sent; what is sent stays in the order of the rows. -/
theorem flushInsert_serving (ht : t ∈ source.tables)
    {sent batch rest : List String} {batchBytes : Nat}
    (hheld : st.server t.name = some sent)
    (hrows : sent ++ batch ++ rest <:+: t.rows) :
    ∃ inserted, flushInsert server.conn st
        (copyingOf source t batch batchBytes) = .ok { st with
      server := Function.update st.server t.name (some (sent ++ batch))
      inserted := inserted } := by
  by_cases hempty : batch = []
  · subst hempty
    refine ⟨st.inserted, ?_⟩
    rw [List.append_nil, Function.update_eq_self_iff.mpr hheld.symm]
    rfl
  · have hinsert : queryDrop server.conn st.server (insertText t batch) =
        (Function.update st.server t.name (some (sent ++ batch)), none) :=
      Prod.ext (server.inserts t ht st.server sent batch hheld
        hempty (List.IsInfix.trans ⟨sent, rest, rfl⟩ hrows)) rfl
    rw [insertText] at hinsert
    refine ⟨st.inserted + batch.length, ?_⟩
    have hsome : ¬ (copyingOf source t batch batchBytes).batch.isEmpty = true :=
      mt List.isEmpty_iff.mp hempty
    rw [flushInsert, if_neg hsome]
    dsimp only [copyingOf]
    rw [hinsert]

variable {sent batch rest : List String} {batchBytes : Nat}

/-- A row goes into the batch, which is sent when it is full. -/
theorem copyFrame_row (ht : t ∈ source.tables)
    (hheld : st.server t.name = some sent) {row : String}
    (hrows : sent ++ batch ++ row :: rest <:+: t.rows) :
    ∃ next sentNow batchNow bytesNow, copyFrame server.conn shown utf8Error st
        (copyingOf source t batch batchBytes) (.data (utf8 row)) = .ok next ∧
      next.copying = some (copyingOf source t batchNow bytesNow) ∧
      next.server = Function.update st.server t.name (some sentNow) ∧
      sentNow ++ batchNow = sent ++ batch ++ [row] ∧
      next.preDdls = st.preDdls ∧ next.post = st.post := by
  have hread : fromUtf8 (utf8 row) = some row := by
    rw [fromUtf8, fromUtf8Lossy_utf8, if_pos rfl]
  simp only [copyFrame, hread]
  split
  next =>
    have hpushed : sent ++ (batch ++ [row]) ++ rest <:+: t.rows := by
      simpa using hrows
    obtain ⟨inserted, hflush⟩ := @flushInsert_serving source server st t ht sent
      (batch ++ [row]) rest (batchBytes + row.utf8ByteSize + 1) hheld hpushed
    unfold copyingOf at hflush ⊢
    rw [hflush]
    exact ⟨_, sent ++ (batch ++ [row]), [], 0, rfl, rfl, rfl, by simp, rfl, rfl⟩
  next =>
    refine ⟨_, sent, batch ++ [row], batchBytes + row.utf8ByteSize + 1, rfl, rfl,
      ?_, by simp, rfl, rfl⟩
    exact (Function.update_eq_self_iff.mpr hheld.symm).symm

/-- The rows of a table arrive in their order. -/
theorem restoreLoop_rows (ht : t ∈ source.tables)
    (hcopying : st.copying = some (copyingOf source t batch batchBytes))
    (hheld : st.server t.name = some sent)
    (hrows : sent ++ batch ++ rest <:+: t.rows) :
    ∃ inserted, restoreLoop server.conn drop shown utf8Error err st
        (rest.map (fun row => .data (utf8 row)) ++ .tableEnd :: frames) =
      restoreLoop server.conn drop shown utf8Error err { st with
        server := Function.update st.server t.name
          (some (sent ++ batch ++ rest))
        inserted := inserted
        copying := none } frames := by
  induction rest generalizing st sent batch batchBytes with
  | nil =>
      obtain ⟨inserted, hflush⟩ := @flushInsert_serving source server st t ht
        sent batch [] batchBytes hheld hrows
      refine ⟨inserted, ?_⟩
      rw [List.map_nil, List.nil_append, restoreLoop, restoreFrame, hcopying]
      dsimp only [copyFrame]
      rw [hflush, List.append_nil]
      rfl
  | cons row rest ih =>
      obtain ⟨next, sentNow, batchNow, bytesNow, hcopy, hnext, hserver, hsame,
        hpre, hpost⟩ := @copyFrame_row source server shown utf8Error st t sent
          batch rest batchBytes ht hheld row hrows
      have hheldNow : next.server t.name = some sentNow := by
        rw [hserver, Function.update_self]
      have hall : sentNow ++ batchNow ++ rest = sent ++ batch ++ row :: rest := by
        rw [hsame, List.append_assoc]
        rfl
      obtain ⟨inserted, hloop⟩ := ih hnext hheldNow (hall ▸ hrows)
      refine ⟨inserted, ?_⟩
      rw [List.map_cons, List.cons_append, restoreLoop, restoreFrame, hcopying]
      dsimp only
      rw [hcopy]
      dsimp only
      rw [hloop, hserver, Function.update_idem, hpre, hpost, hall]

theorem carried_within (t : Table) : t.carried <:+: t.rows := by
  rw [Table.carried]
  split
  · exact List.nil_infix
  · exact List.infix_rfl

theorem frames_dumped (db : String) (t : Table) : (dumped db t).frames =
    .table (dumped db t).info ::
      (t.carried.map (fun row => .data (utf8 row)) ++ [.tableEnd]) := by
  have hsome : ∀ row ∈ t.carried, decide (utf8 row ≠ []) = true := by
    intro row hrow
    refine decide_eq_true fun hnil => ?_
    apply t.tuples row ((carried_within t).subset hrow)
    rw [← fromUtf8Lossy_utf8 row, hnil]
    rfl
  rw [TableDump.frames, List.filter_eq_self.mpr (by
    rw [List.forall_mem_map]
    exact hsome), List.map_map]
  rfl

/-- The frames of the tables put them in the place of what the server holds. -/
theorem restoreLoop_tables {tables : List Table}
    (htables : tables ⊆ source.tables) (hcopying : st.copying = none) :
    ∃ inserted, restoreLoop server.conn true shown utf8Error err st
        ((tables.map (dumped source.db)).flatMap TableDump.frames ++ frames) =
      restoreLoop server.conn true shown utf8Error err { st with
        server := replaceAll vacate st.server
          (tables.map fun t => (t.name, t.carried))
        inserted := inserted } frames := by
  induction tables generalizing st with
  | nil => exact ⟨st.inserted, rfl⟩
  | cons t rest ih =>
      have ht : t ∈ source.tables := htables List.mem_cons_self
      obtain ⟨filled, hrows⟩ := @restoreLoop_rows source server shown utf8Error
        { st with
          server := Function.update (vacate st.server t.name) t.name (some [])
          copying := some (copyingOf source t [] 0) } err
        ((rest.map (dumped source.db)).flatMap TableDump.frames ++ frames) t
        true [] [] t.carried 0 ht rfl (Function.update_self _ _ _)
        (carried_within t)
      obtain ⟨inserted, hloop⟩ := @ih { st with
          server := Function.update (vacate st.server t.name) t.name
            (some t.carried)
          inserted := filled
          copying := none } (fun _ h => htables (List.mem_cons_of_mem _ h)) rfl
      refine ⟨inserted, ?_⟩
      rw [List.map_cons, List.flatMap_cons, frames_dumped, List.append_assoc,
        List.cons_append, List.append_assoc, restoreLoop, restoreFrame, hcopying]
      dsimp only
      rw [restoreTable_serving ht]
      dsimp only
      rw [List.singleton_append, hrows, Function.update_idem]
      exact hloop

theorem restoreLoop_post {post : List PostObj} (hcopying : st.copying = none) :
    restoreLoop server.conn drop shown utf8Error none st
        (post.map fun obj => .post obj.info) =
      .ok { st with post := st.post ++ post.map PostObj.readBack } := by
  induction post generalizing st with
  | nil =>
      obtain ⟨held, inserted, pre, own, copying⟩ := st
      subst hcopying
      rw [List.map_nil, List.map_nil, List.append_nil]
      rfl
  | cons obj rest ih =>
      rw [List.map_cons, restoreLoop, restoreFrame, hcopying]
      dsimp only
      rw [postObj_info]
      dsimp only [Except.map]
      rw [ih rfl, List.append_assoc]
      rfl

/-- A restore of a whole dump puts the tables that are picked in the place of
what the server holds. -/
theorem restoreFrames_dump (held : TableStore) (tableFilter : Option String) :
    ∃ next, restoreFrames server.conn true shown utf8Error held
        ((source.dump tableFilter).frames, none) = .ok next ∧
      next.server = replaceAll vacate held
        ((listTables source.tables tableFilter).map
          fun t => (t.name, t.carried)) := by
  have hformat : ((source.dump tableFilter).header.info.getStr "format").getD ""
      = MYSQL_FORMAT_ID := rfl
  have hpicked : listTables source.tables tableFilter ⊆ source.tables :=
    List.filter_sublist.subset
  have hpost : (source.dump tableFilter).post ⊆ source.post := by
    change (if tableFilter.isNone then source.post else []) ⊆ source.post
    split
    · exact List.Subset.refl _
    · exact List.nil_subset _
  obtain ⟨inserted, hloop⟩ := @restoreLoop_tables source server shown utf8Error
    ⟨held, 0, [], [], none⟩ none
    ((source.dump tableFilter).post.map fun obj => .post obj.info) _ hpicked rfl
  have hread := @restoreLoop_post source server shown utf8Error
    ⟨replaceAll vacate held ((listTables source.tables tableFilter).map
      fun t => (t.name, t.carried)), inserted, [], [], none⟩ true
    (source.dump tableFilter).post rfl
  refine ⟨⟨replaceAll vacate held ((listTables source.tables tableFilter).map
    fun t => (t.name, t.carried)), inserted, [],
    (source.dump tableFilter).post.map PostObj.readBack, none⟩, ?_, rfl⟩
  refine bind_eq_ok.mpr ⟨held, openRestoreSession_keeps held, ?_⟩
  rw [Dump.frames]
  dsimp only
  rw [if_neg (not_not.mpr hformat)]
  refine bind_eq_ok.mpr ⟨held, applyDatabaseDefaults_keeps held, ?_⟩
  refine bind_eq_ok.mpr ⟨_, hloop.trans hread, ?_⟩
  refine bind_eq_ok.mpr ⟨_, applyPost_keeps hpost _, rfl⟩

end Frames

end Mysql

end XBackup
