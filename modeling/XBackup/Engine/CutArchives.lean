/-
Archives that are cut: what a restore of the bytes before the cut does.
-/
import XBackup.Engine.Encoding
import XBackup.Engine.Mysql.Backup
import XBackup.Engine.Native.Backup
import XBackup.Engine.Postgres.Backup
import XBackup.Foundation.Fallible

namespace XBackup

open Framing

namespace Native

section Cuts

variable {σ : Type} {client : Client σ} {drop : Bool}
  {nsInclude : Option String} {shown : Frame → String} {server : σ}
  {lib : BsonLib} {createdAt : String} {collections : List CollectionDump}
  {bytes part input : List UInt8}

theorem restoreLoop_some {err : XBackupError} (st : RestoreState σ)
    {frames : List Frame} (hframes : .end_ ∉ frames) :
    ∃ err', restoreLoop client drop nsInclude (some err) st frames =
      .error err' := by
  induction frames generalizing st with
  | nil => exact ⟨err, rfl⟩
  | cons frame rest ih =>
      rw [List.mem_cons, not_or] at hframes
      cases frame with
      | header doc => exact ⟨_, rfl⟩
      | end_ => exact absurd rfl hframes.1
      | collection info =>
          rw [restoreLoop]
          cases restoreCollection client drop nsInclude st info with
          | error err => exact ⟨err, rfl⟩
          | ok next => exact ih next hframes.2
      | document doc =>
          rw [restoreLoop]
          cases restoreDocument client st doc with
          | error err => exact ⟨err, rfl⟩
          | ok next => exact ih next hframes.2

theorem end_notMem_readFrames : .end_ ∉ (readFrames lib input).1 := by
  intro hmem
  refine decodeAll_forall (p := fun frame => frame ≠ .end_) ?_ _ hmem rfl
  rintro ⟨tag, payload⟩ frame hframe rfl
  cases payload with
  | bare => cases hframe
  | data bytes => cases hframe
  | document doc =>
      rw [Frame.ofItem] at hframe
      dsimp only at hframe
      split at hframe
      next => cases hframe
      next =>
        split at hframe
        next => cases hframe
        next => cases hframe

/-- Frames that end with an error are not restored to an end. -/
theorem nativeRestore_some (hread : (readFrames lib input).2 ≠ none) :
    ∃ err, nativeRestore client drop nsInclude lib shown server input =
      .error err := by
  have hend := @end_notMem_readFrames lib input
  rw [nativeRestore]
  cases hframes : readFrames lib input with
  | mk frames err =>
      rw [hframes] at hread hend
      obtain ⟨err, rfl⟩ := Option.ne_none_iff_exists'.mp hread
      cases frames with
      | nil => exact ⟨err, rfl⟩
      | cons frame rest =>
          cases frame with
          | collection info => exact ⟨_, rfl⟩
          | document doc => exact ⟨_, rfl⟩
          | end_ => exact ⟨_, rfl⟩
          | header doc =>
              rw [restoreFrames]
              split
              next => exact ⟨_, rfl⟩
              next =>
                exact restoreLoop_some _ fun hmem =>
                  hend (List.mem_cons_of_mem _ hmem)

/-- A cut archive is not restored to an end, unless it is cut behind a frame; then
the frames before the cut are restored. -/
theorem nativeRestore_cut (hfits : Fits lib createdAt collections)
    (hwrite : writeArchive lib createdAt collections = .ok bytes)
    (hbefore : part <+: bytes) (hcut : part ≠ bytes) :
    (∃ err, nativeRestore client drop nsInclude lib shown server part =
        .error err) ∨
      ∃ n, 0 < n ∧ writeItems lib TAG_END
          (((archiveFrames createdAt collections).take n).map Frame.item) =
            .ok (part ++ [TAG_END]) ∧
        nativeRestore client drop nsInclude lib shown server part =
          restoreFrames client drop nsInclude shown server
            ((archiveFrames createdAt collections).take n, none) := by
  rcases readFrames_cut hfits hwrite hbefore hcut with
    hsome | ⟨n, hwhole, hread⟩
  · exact Or.inl (nativeRestore_some hsome)
  · cases n with
    | zero =>
        rw [nativeRestore, hread]
        exact Or.inl ⟨_, rfl⟩
    | succ n =>
        exact Or.inr ⟨n + 1, Nat.succ_pos n, hwhole, by
          rw [nativeRestore, hread]⟩

end Cuts

end Native

namespace Postgres

/-- Whether a table is open behind a frame. -/
def opens (copying : Bool) : ArchiveFrame → Bool
  | .table _ => true
  | .tableEnd => false
  | _ => copying

/-- The frames end between a table and its end. -/
def LeavesOpen (frames : List ArchiveFrame) : Prop :=
  frames.foldl opens false = true

section Cuts

variable {σ : Type} {client : RestoreClient σ} {drop : Bool}
  {shown : ArchiveFrame → String} {server : σ} {st next : RestoreState σ}
  {lib : BsonLib} {d : Dump} {bytes part input : List UInt8}

theorem copying_applyPre : (applyPre client st).copying = st.copying := by
  rw [applyPre]
  split <;> rfl

theorem copying_restoreSequence {info : Document}
    (hnext : restoreSequence client st info = .ok next) :
    next.copying = st.copying := by
  rw [restoreSequence] at hnext
  cases hname : info.getStr "name" with
  | none => simp only [hname] at hnext; cases hnext
  | some name =>
      simp only [hname] at hnext
      obtain ⟨server, -, hnext⟩ := Fallible.bind_eq_ok.mp hnext
      split at hnext
      next => cases hnext
      next =>
        cases hnext
        exact copying_applyPre

theorem copying_restoreTable {info : Document}
    (hnext : restoreTable client drop st info = .ok next) :
    next.copying.isSome = true := by
  rw [restoreTable] at hnext
  cases hns : info.getStr "ns" with
  | none => simp only [hns] at hnext; cases hnext
  | some ns =>
      cases hcreate : info.getStr "create_sql" with
      | none => simp only [hns, hcreate] at hnext; cases hnext
      | some createSql =>
          simp only [hns, hcreate] at hnext
          obtain ⟨server, -, hnext⟩ := Fallible.bind_eq_ok.mp hnext
          split at hnext
          next => cases hnext
          next =>
            split at hnext
            next => cases hnext
            next => cases hnext; rfl

/-- A frame opens a table, closes it, or leaves it as it is. -/
theorem copying_restoreFrame {frame : ArchiveFrame}
    (hnext : restoreFrame client drop shown st frame = .ok next) :
    next.copying.isSome = opens st.copying.isSome frame := by
  cases hcopying : st.copying with
  | some ns =>
      simp only [restoreFrame, hcopying] at hnext
      cases frame with
      | data bytes =>
          rw [copyFrame] at hnext
          split at hnext
          next => cases hnext; rw [hcopying]; rfl
          next => cases hnext
      | tableEnd =>
          rw [copyFrame] at hnext
          split at hnext
          next => cases hnext; rfl
          next => cases hnext
      | _ => cases hnext
  | none =>
      simp only [restoreFrame, hcopying] at hnext
      cases frame with
      | header doc => cases hnext
      | pre info => cases hnext; rfl
      | post info => cases hnext; rfl
      | sequence info =>
          dsimp only at hnext
          rw [copying_restoreSequence hnext, hcopying]
          rfl
      | table info => exact copying_restoreTable hnext
      | data bytes => cases hnext
      | tableEnd => cases hnext
      | end_ => cases hnext; rw [hcopying]; rfl

/-- A loop that comes to an end has read the end of every table, and no
error. -/
theorem closed_of_restoreLoop {err : Option XBackupError}
    {frames : List ArchiveFrame}
    (hnext : restoreLoop client drop shown err st frames = .ok next) :
    err = none ∧ frames.foldl opens st.copying.isSome = false := by
  induction frames generalizing st with
  | nil =>
      cases err with
      | some err => cases hnext
      | none =>
          cases hcopying : st.copying with
          | none => exact ⟨rfl, rfl⟩
          | some ns =>
              simp only [restoreLoop, restoreFrame, hcopying] at hnext
              cases hnext
  | cons frame rest ih =>
      rw [restoreLoop] at hnext
      cases hstep : restoreFrame client drop shown st frame with
      | error err => rw [hstep] at hnext; cases hnext
      | ok after =>
          rw [hstep] at hnext
          rw [List.foldl_cons, ← copying_restoreFrame hstep]
          exact ih hnext

/-- A restore that comes to an end has read the header and the end of every
table, and no error. -/
theorem closed_of_restoreFrames {frames : List ArchiveFrame}
    {err : Option XBackupError}
    (hnext : restoreFrames client drop shown server (frames, err) = .ok next) :
    err = none ∧ frames ≠ [] ∧ ¬ LeavesOpen frames := by
  cases frames with
  | nil => cases err <;> cases hnext
  | cons frame rest =>
      cases frame with
      | header doc =>
          simp only [restoreFrames] at hnext
          split at hnext
          next => cases hnext
          next =>
            split at hnext
            next => cases hnext
            next st hloop =>
              obtain ⟨hnone, hclosed⟩ := closed_of_restoreLoop hloop
              refine ⟨hnone, List.cons_ne_nil _ _, ?_⟩
              rw [LeavesOpen, List.foldl_cons]
              exact Bool.eq_false_iff.mp hclosed
      | _ => cases hnext

/-- A cut archive is not restored to an end, unless it is cut behind a frame and
outside of the data of a table; then the frames before the cut are restored. -/
theorem restoreInto_cut (hfits : d.Fits lib)
    (hwrite : writeDump lib d = .ok bytes) (hbefore : part <+: bytes)
    (hcut : part ≠ bytes) :
    (∃ err, restoreInto client drop shown lib server part = .error err) ∨
      ∃ n, 0 < n ∧ ¬ LeavesOpen (d.frames.take n) ∧
        writeItems lib TAG_END ((d.frames.take n).map ArchiveFrame.item) =
          .ok (part ++ [TAG_END]) ∧
        restoreInto client drop shown lib server part =
          restoreFrames client drop shown server (d.frames.take n, none) := by
  cases hrestore : restoreInto client drop shown lib server part with
  | error err => exact Or.inl ⟨err, rfl⟩
  | ok next =>
      have hframes : restoreFrames client drop shown server
          ((readArchive lib part).1, (readArchive lib part).2) = .ok next :=
        hrestore
      obtain ⟨hnone, hsome, hclosed⟩ := closed_of_restoreFrames hframes
      rcases readArchive_cut hfits hwrite hbefore hcut with
        hfault | ⟨n, hwhole, hread⟩
      · exact absurd hnone hfault
      · rw [hread] at hframes hsome hclosed
        refine Or.inr ⟨n, ?_, hclosed, hwhole, hframes.symm⟩
        by_contra hzero
        rw [Nat.eq_zero_of_not_pos hzero] at hsome
        exact hsome rfl

end Cuts

end Postgres

namespace Mysql

/-- Whether a table is open behind a frame. -/
def opens (copying : Bool) : ArchiveFrame → Bool
  | .table _ => true
  | .tableEnd => false
  | _ => copying

/-- The frames end between a table and its end. -/
def LeavesOpen (frames : List ArchiveFrame) : Prop :=
  frames.foldl opens false = true

section Cuts

variable {σ : Type} {conn : RestoreConn σ} {drop : Bool}
  {shown : ArchiveFrame → String} {utf8Error : List UInt8 → String} {server : σ} {st next : RestoreState σ}
  {lib : BsonLib} {d : Dump} {bytes part input : List UInt8}

theorem copying_flushInsert {c : Copying}
    (hnext : flushInsert conn st c = .ok next) : next.copying = st.copying := by
  rw [flushInsert] at hnext
  split at hnext
  next => cases hnext; rfl
  next =>
    dsimp only at hnext
    split at hnext
    next => cases hnext; rfl
    next => cases hnext

theorem copying_restoreTable {info : Document}
    (hnext : restoreTable conn drop st info = .ok next) :
    next.copying.isSome = true := by
  rw [restoreTable] at hnext
  cases hquoted : info.getStr "quoted" with
  | none => simp only [hquoted] at hnext; cases hnext
  | some quoted =>
      cases hcreate : info.getStr "create_sql" with
      | none => simp only [hquoted, hcreate] at hnext; cases hnext
      | some createSql =>
          simp only [hquoted, hcreate] at hnext
          split at hnext
          next => cases hnext
          next => cases hnext; rfl

theorem copying_copyFrame {c : Copying} {frame : ArchiveFrame}
    (hnext : copyFrame conn shown utf8Error st c frame = .ok next) :
    next.copying.isSome = opens true frame := by
  cases frame with
  | data bytes =>
      rw [copyFrame] at hnext
      split at hnext
      next => cases hnext
      next tuple hutf8 =>
        dsimp only at hnext
        split at hnext
        next =>
          obtain ⟨flushed, -, rfl⟩ := Fallible.map_eq_ok.mp hnext
          rfl
        next => cases hnext; rfl
  | tableEnd =>
      obtain ⟨flushed, -, rfl⟩ := Fallible.map_eq_ok.mp hnext
      rfl
  | _ => cases hnext

/-- A frame opens a table, closes it, or leaves it as it is. -/
theorem copying_restoreFrame {frame : ArchiveFrame}
    (hnext : restoreFrame conn drop shown utf8Error st frame = .ok next) :
    next.copying.isSome = opens st.copying.isSome frame := by
  cases hcopying : st.copying with
  | some ns =>
      simp only [restoreFrame, hcopying] at hnext
      exact copying_copyFrame hnext
  | none =>
      simp only [restoreFrame, hcopying] at hnext
      cases frame with
      | header doc => cases hnext
      | pre info => cases hnext; rfl
      | post info =>
          obtain ⟨obj, -, rfl⟩ := Fallible.map_eq_ok.mp hnext
          rfl
      | table info => exact copying_restoreTable hnext
      | data bytes => cases hnext
      | tableEnd => cases hnext
      | end_ => cases hnext; rw [hcopying]; rfl

/-- A loop that comes to an end has read the end of every table, and no
error. -/
theorem closed_of_restoreLoop {err : Option XBackupError}
    {frames : List ArchiveFrame}
    (hnext : restoreLoop conn drop shown utf8Error err st frames = .ok next) :
    err = none ∧ frames.foldl opens st.copying.isSome = false := by
  induction frames generalizing st with
  | nil =>
      cases err with
      | some err => cases hnext
      | none =>
          cases hcopying : st.copying with
          | none => exact ⟨rfl, rfl⟩
          | some ns =>
              simp only [restoreLoop, restoreFrame, hcopying] at hnext
              cases hnext
  | cons frame rest ih =>
      rw [restoreLoop] at hnext
      cases hstep : restoreFrame conn drop shown utf8Error st frame with
      | error err => rw [hstep] at hnext; cases hnext
      | ok after =>
          rw [hstep] at hnext
          rw [List.foldl_cons, ← copying_restoreFrame hstep]
          exact ih hnext

/-- A restore that comes to an end has read the header and the end of every
table, and no error. -/
theorem closed_of_restoreFrames {frames : List ArchiveFrame}
    {err : Option XBackupError}
    (hnext : restoreFrames conn drop shown utf8Error server (frames, err) = .ok next) :
    err = none ∧ frames ≠ [] ∧ ¬ LeavesOpen frames := by
  obtain ⟨opened, -, hnext⟩ := Fallible.bind_eq_ok.mp hnext
  cases frames with
  | nil => cases err <;> cases hnext
  | cons frame rest =>
      cases frame with
      | header doc =>
          dsimp only at hnext
          split at hnext
          next => cases hnext
          next =>
            obtain ⟨defaults, -, hnext⟩ := Fallible.bind_eq_ok.mp hnext
            obtain ⟨st, hloop, -⟩ := Fallible.bind_eq_ok.mp hnext
            obtain ⟨hnone, hclosed⟩ := closed_of_restoreLoop hloop
            refine ⟨hnone, List.cons_ne_nil _ _, ?_⟩
            rw [LeavesOpen, List.foldl_cons]
            exact Bool.eq_false_iff.mp hclosed
      | _ => cases hnext

/-- A cut archive is not restored to an end, unless it is cut behind a frame and
outside of the data of a table; then the frames before the cut are restored. -/
theorem restoreInto_cut (hfits : d.Fits lib)
    (hwrite : writeDump lib d = .ok bytes) (hbefore : part <+: bytes)
    (hcut : part ≠ bytes) :
    (∃ err, restoreInto conn drop shown utf8Error lib server part = .error err) ∨
      ∃ n, 0 < n ∧ ¬ LeavesOpen (d.frames.take n) ∧
        writeItems lib TAG_END ((d.frames.take n).map ArchiveFrame.item) =
          .ok (part ++ [TAG_END]) ∧
        restoreInto conn drop shown utf8Error lib server part =
          restoreFrames conn drop shown utf8Error server (d.frames.take n, none) := by
  cases hrestore : restoreInto conn drop shown utf8Error lib server part with
  | error err => exact Or.inl ⟨err, rfl⟩
  | ok next =>
      have hframes : restoreFrames conn drop shown utf8Error server
          ((readArchive lib part).1, (readArchive lib part).2) = .ok next :=
        hrestore
      obtain ⟨hnone, hsome, hclosed⟩ := closed_of_restoreFrames hframes
      rcases readArchive_cut hfits hwrite hbefore hcut with
        hfault | ⟨n, hwhole, hread⟩
      · exact absurd hnone hfault
      · rw [hread] at hframes hsome hclosed
        refine Or.inr ⟨n, ?_, hclosed, hwhole, hframes.symm⟩
        by_contra hzero
        rw [Nat.eq_zero_of_not_pos hzero] at hsome
        exact hsome rfl

end Cuts

end Mysql

/-- Of the archives that are cut, none is restored to an end where it is cut
within a frame or, in PostgreSQL and MySQL, in the data of a table.  Where it is
cut behind any other frame, the frames before the cut are restored. -/
theorem truncated_restores {σ τ υ : Type} {native : Native.Client σ}
    {pg : Postgres.RestoreClient τ} {mysql : Mysql.RestoreConn υ} {drop : Bool}
    {nsInclude : Option String} {nativeShown : Native.Frame → String}
    {pgShown : Postgres.ArchiveFrame → String}
    {mysqlShown : Mysql.ArchiveFrame → String}
    {utf8Error : List UInt8 → String} {nativeServer : σ} {pgServer : τ}
    {mysqlServer : υ} {lib : BsonLib} {createdAt : String}
    {collections : List Native.CollectionDump} {pgDump : Postgres.Dump}
    {mysqlDump : Mysql.Dump}
    {nativeBytes nativePart pgBytes pgPart mysqlBytes mysqlPart : List UInt8}
    (hnative : Native.Fits lib createdAt collections)
    (hnativeWrite : Native.writeArchive lib createdAt collections =
      .ok nativeBytes)
    (hnativePrefix : nativePart <+: nativeBytes)
    (hnativeCut : nativePart ≠ nativeBytes)
    (hpg : pgDump.Fits lib)
    (hpgWrite : Postgres.writeDump lib pgDump = .ok pgBytes)
    (hpgPrefix : pgPart <+: pgBytes) (hpgCut : pgPart ≠ pgBytes)
    (hmysql : mysqlDump.Fits lib)
    (hmysqlWrite : Mysql.writeDump lib mysqlDump = .ok mysqlBytes)
    (hmysqlPrefix : mysqlPart <+: mysqlBytes)
    (hmysqlCut : mysqlPart ≠ mysqlBytes) :
    ((∃ err, Native.nativeRestore native drop nsInclude lib nativeShown
        nativeServer nativePart = .error err) ∨
      ∃ n, 0 < n ∧ writeItems lib TAG_END
          (((Native.archiveFrames createdAt collections).take n).map
            Native.Frame.item) = .ok (nativePart ++ [TAG_END]) ∧
        Native.nativeRestore native drop nsInclude lib nativeShown
            nativeServer nativePart =
          Native.restoreFrames native drop nsInclude nativeShown nativeServer
            ((Native.archiveFrames createdAt collections).take n, none)) ∧
    ((∃ err, Postgres.restoreInto pg drop pgShown lib pgServer pgPart =
        .error err) ∨
      ∃ n, 0 < n ∧ ¬ Postgres.LeavesOpen (pgDump.frames.take n) ∧
        writeItems lib TAG_END
            ((pgDump.frames.take n).map Postgres.ArchiveFrame.item) =
          .ok (pgPart ++ [TAG_END]) ∧
        Postgres.restoreInto pg drop pgShown lib pgServer pgPart =
          Postgres.restoreFrames pg drop pgShown pgServer
            (pgDump.frames.take n, none)) ∧
    ((∃ err, Mysql.restoreInto mysql drop mysqlShown utf8Error lib
        mysqlServer mysqlPart = .error err) ∨
      ∃ n, 0 < n ∧ ¬ Mysql.LeavesOpen (mysqlDump.frames.take n) ∧
        writeItems lib TAG_END
            ((mysqlDump.frames.take n).map Mysql.ArchiveFrame.item) =
          .ok (mysqlPart ++ [TAG_END]) ∧
        Mysql.restoreInto mysql drop mysqlShown utf8Error lib mysqlServer
            mysqlPart =
          Mysql.restoreFrames mysql drop mysqlShown utf8Error mysqlServer
            (mysqlDump.frames.take n, none)) :=
  ⟨Native.nativeRestore_cut hnative hnativeWrite hnativePrefix hnativeCut,
    Postgres.restoreInto_cut hpg hpgWrite hpgPrefix hpgCut,
    Mysql.restoreInto_cut hmysql hmysqlWrite hmysqlPrefix hmysqlCut⟩

section Notes

open BsonBytes

/-- A collection of one document. -/
def notesCollection : Native.CollectionDump where
  ns := "app.notes"
  options := []
  indexes := []
  docs := [[("_id", .scalar (.string "1"))]]

def pgNotesDump : Postgres.Dump where
  createdAt := "2026-01-01T00:00:00Z"
  pgVersion := "16.2"
  pre := []
  sequences := []
  tables := [
    { ns := "public.notes"
      quoted := "public.notes"
      schema := "public"
      createSql := "CREATE TABLE public.notes (\n  id text\n)"
      constraints := []
      indexes := []
      copyCols := ["id"]
      identityCols := []
      chunks := [[49, 10]] }]
  post := []

def mysqlNotesDump : Mysql.Dump where
  header :=
    { createdAt := "2026-01-01T00:00:00Z"
      mysqlVersion := "8.0.39"
      databaseCharset := "utf8mb4"
      databaseCollation := "utf8mb4_bin"
      binlogFile := "binlog.000001"
      binlogPos := 4
      gtidExecuted := "" }
  tables := [
    { ns := "app.notes"
      quoted := "notes"
      createSql := "CREATE TABLE notes (id varchar(9))"
      insertCols := ["id"]
      rows := ["('1')"] }]
  post := []

def cutDocs : List Document :=
  [Native.headerDoc "2026-01-01T00:00:00Z", notesCollection.info,
    [("_id", .scalar (.string "1"))], pgNotesDump.header,
    mysqlNotesDump.header.info] ++
  pgNotesDump.tables.map Postgres.TableDump.info ++
  mysqlNotesDump.tables.map Mysql.TableDump.info

def cutLib : BsonLib := BsonLib.of cutDocs

theorem cutLib_fits : ∀ doc ∈ cutDocs,
    cutLib.Fits doc (encode doc) ∧ (encode doc).length < 2 ^ 10 := by
  have hdistinct : (cutDocs.map encode).Nodup := by decide +kernel
  have hsmall : ∀ doc ∈ cutDocs, (encode doc).length < 2 ^ 10 := by
    have hall : (cutDocs.map encode).all (·.length < 2 ^ 10) = true := by
      decide +kernel
    rw [List.all_map, List.all_eq_true] at hall
    exact fun doc hdoc => of_decide_eq_true (hall doc hdoc)
  have hfits := BsonLib.of_fits hdistinct fun doc hdoc =>
    (hsmall doc hdoc).trans (by decide)
  exact fun doc hdoc => ⟨hfits doc hdoc, hsmall doc hdoc⟩

theorem cutDoc_fits {doc : Document} (hdoc : doc ∈ cutDocs) :
    ∃ bytes, cutLib.Fits doc bytes :=
  ⟨_, (cutLib_fits doc hdoc).1⟩

theorem notesCollection_fits :
    Native.Fits cutLib "2026-01-01T00:00:00Z" [notesCollection] := by
  refine ⟨cutDoc_fits (by simp [cutDocs]), ?_⟩
  rw [List.forall_mem_singleton]
  refine ⟨cutDoc_fits (by simp [cutDocs]), ?_⟩
  intro doc hdoc
  rw [List.mem_singleton.mp hdoc]
  exact cutDoc_fits (by simp [cutDocs])

theorem pgNotesDump_fits : pgNotesDump.Fits cutLib where
  header := cutDoc_fits (by simp [cutDocs])
  pre := nofun
  sequences := nofun
  tables t ht := by
    rw [List.mem_singleton.mp ht]
    exact ⟨cutDoc_fits (by simp [cutDocs, pgNotesDump]), by decide⟩
  post := nofun

theorem mysqlNotesDump_fits : mysqlNotesDump.Fits cutLib where
  header := cutDoc_fits (by simp [cutDocs])
  tables t ht := by
    rw [List.mem_singleton.mp ht]
    exact cutDoc_fits (by simp [cutDocs, mysqlNotesDump])
  post := nofun

theorem mysqlNotes_short : ∀ t ∈ mysqlNotesDump.tables, ∀ row ∈ t.rows,
    (Bytes.utf8 row).length ≤ Mysql.MAX_FRAME_BYTES := by
  decide +kernel

/-- Servers that take every command. -/
def nativeNotes : Native.Client Unit where
  drop _ _ _ := ((), none)
  runCreate _ _ _ := ((), none)
  createIndexes _ _ _ _ := ((), none)
  insertMany _ _ _ _ := ((), none)

def pgNotesServer : Postgres.RestoreClient Unit where
  batchExecute _ _ := ((), none)
  copyIn _ _ := ((), none)
  send _ _ := ((), none)
  finish _ := ((), .ok 1)
  setval _ _ _ _ := ()
  resetIdentity _ _ _ _ := ()

def mysqlNotesServer : Mysql.RestoreConn Unit where
  execute _ _ _ := ((), none)
  database _ := .ok (some "app")

theorem truncated_restores_notes :
    ∃ nativeBytes nativePart pgBytes pgPart mysqlBytes mysqlPart,
      nativePart <+: nativeBytes ∧ nativePart ≠ nativeBytes ∧
      pgPart <+: pgBytes ∧ pgPart ≠ pgBytes ∧
      mysqlPart <+: mysqlBytes ∧ mysqlPart ≠ mysqlBytes ∧
      ((∃ err, Native.nativeRestore nativeNotes true none cutLib (fun _ => "")
          () nativePart = .error err) ∨
        ∃ n, 0 < n ∧ writeItems cutLib TAG_END
            (((Native.archiveFrames "2026-01-01T00:00:00Z"
              [notesCollection]).take n).map Native.Frame.item) =
              .ok (nativePart ++ [TAG_END]) ∧
          Native.nativeRestore nativeNotes true none cutLib (fun _ => "") ()
              nativePart =
            Native.restoreFrames nativeNotes true none (fun _ => "") ()
              ((Native.archiveFrames "2026-01-01T00:00:00Z"
                [notesCollection]).take n, none)) ∧
      ((∃ err, Postgres.restoreInto pgNotesServer true (fun _ => "") cutLib ()
          pgPart = .error err) ∨
        ∃ n, 0 < n ∧ ¬ Postgres.LeavesOpen (pgNotesDump.frames.take n) ∧
          writeItems cutLib TAG_END
              ((pgNotesDump.frames.take n).map Postgres.ArchiveFrame.item) =
            .ok (pgPart ++ [TAG_END]) ∧
          Postgres.restoreInto pgNotesServer true (fun _ => "") cutLib ()
              pgPart =
            Postgres.restoreFrames pgNotesServer true (fun _ => "") ()
              (pgNotesDump.frames.take n, none)) ∧
      ((∃ err, Mysql.restoreInto mysqlNotesServer true (fun _ => "")
          (fun _ => "") cutLib () mysqlPart = .error err) ∨
        ∃ n, 0 < n ∧ ¬ Mysql.LeavesOpen (mysqlNotesDump.frames.take n) ∧
          writeItems cutLib TAG_END
              ((mysqlNotesDump.frames.take n).map Mysql.ArchiveFrame.item) =
            .ok (mysqlPart ++ [TAG_END]) ∧
          Mysql.restoreInto mysqlNotesServer true (fun _ => "") (fun _ => "")
              cutLib () mysqlPart =
            Mysql.restoreFrames mysqlNotesServer true (fun _ => "")
              (fun _ => "") () (mysqlNotesDump.frames.take n, none)) := by
  have hnative := Native.storable_archive notesCollection_fits
  have hpg := Postgres.storable_dump pgNotesDump_fits
  have hmysql := Mysql.storable_dump mysqlNotesDump_fits mysqlNotes_short
  obtain ⟨nativeBytes, hnativeItems⟩ := exists_written hnative
  obtain ⟨pgBytes, hpgItems⟩ := exists_written hpg
  obtain ⟨mysqlBytes, hmysqlItems⟩ := exists_written hmysql
  obtain ⟨nativePart, hnativePrefix, hnativeCut, -⟩ :=
    @exists_unnoticed_cut _ _ Native.wording _ _ hnative hnativeItems 2
  obtain ⟨pgPart, hpgPrefix, hpgCut, -⟩ :=
    @exists_unnoticed_cut _ _ Postgres.archiveWording _ _ hpg hpgItems 1
  obtain ⟨mysqlPart, hmysqlPrefix, hmysqlCut, -⟩ :=
    @exists_unnoticed_cut _ _ Mysql.archiveWording _ _ hmysql hmysqlItems 1
  exact ⟨nativeBytes, nativePart, pgBytes, pgPart, mysqlBytes, mysqlPart,
    hnativePrefix, hnativeCut, hpgPrefix, hpgCut, hmysqlPrefix, hmysqlCut,
    truncated_restores notesCollection_fits
      (Native.writeArchive_eq hnativeItems) hnativePrefix hnativeCut
      pgNotesDump_fits (Postgres.writeDump_eq hpgItems) hpgPrefix hpgCut
      mysqlNotesDump_fits (Mysql.writeDump_eq mysqlNotes_short hmysqlItems)
      hmysqlPrefix hmysqlCut⟩

theorem notesCollection_within : Within cutLib Native.framing
    ((Native.archiveFrames "2026-01-01T00:00:00Z" [notesCollection]).map
      Native.Frame.item) := by
  have hbound : ∀ doc ∈ cutDocs,
      (encode doc).length ≤ Native.framing.maxBytes := fun doc hdoc =>
    ((cutLib_fits doc hdoc).2.trans (by decide)).le
  have hitem : ∀ tag, ∀ doc ∈ cutDocs, tag ≠ TAG_END →
      Native.framing.shape tag = some .document →
      ∃ frame, Stores cutLib Native.framing ⟨tag, .document doc⟩ frame ∧
        frame.body.length ≤ Native.framing.maxBytes :=
    fun tag doc hdoc hend hshape =>
      ⟨_, .document tag doc _ hend hshape (cutLib_fits doc hdoc).1,
        hbound doc hdoc⟩
  rintro item hmem
  rcases List.mem_map.mp hmem with ⟨frame, hframe, rfl⟩
  rcases hframe with _ | ⟨_, _ | ⟨_, _ | ⟨_, ⟨⟩⟩⟩⟩
  · exact hitem TAG_HEADER _ (by simp [cutDocs]) (by decide) rfl
  · exact hitem Native.TAG_COLLECTION _ (by simp [cutDocs]) (by decide) rfl
  · exact hitem Native.TAG_DOCUMENT _ (by simp [cutDocs]) (by decide) rfl

/-- An archive that is cut behind a collection is restored to an end, and the
document of the collection is lost. -/
theorem truncated_restores_lostDocument :
    ∃ bytes part,
      Native.writeArchive cutLib "2026-01-01T00:00:00Z" [notesCollection] =
        .ok bytes ∧
      part <+: bytes ∧ part ++ [TAG_END] ≠ bytes ∧
      Native.nativeRestore nativeNotes true none cutLib (fun _ => "") () part =
        .ok ⟨(), 0, some ("app", "notes", false), []⟩ := by
  obtain ⟨bytes, hitems⟩ :=
    exists_written (storable_of_within notesCollection_within)
  obtain ⟨part, hbefore, -, hwhole, hread⟩ :=
    @exists_read_cut _ _ _ _ _ Native.wording _ _ notesCollection_within
      Native.ofItem_of_archive hitems 2
  refine ⟨bytes, part, Native.writeArchive_eq hitems, hbefore, ?_, ?_⟩
  · rintro rfl
    have hall := @readDecoded_whole _ _ _ _ _ Native.wording _ _
      notesCollection_within Native.ofItem_of_archive hitems
    have hsome := @readDecoded_whole _ _ _ _ _ Native.wording _ _
      (within_take notesCollection_within)
      (fun frame hframe => Native.ofItem_of_archive frame
        (List.mem_of_mem_take hframe)) hwhole
    cases hall.symm.trans hsome
  · rw [Native.nativeRestore, Native.readFrames, hread]
    rfl

end Notes

end XBackup
