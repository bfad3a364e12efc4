/-
Increments that are cut: what the replay of the bytes before the cut does.
-/
import XBackup.Engine.Increment
import XBackup.Engine.Mongo.Stream

namespace XBackup

open Framing Streams

section Cuts

variable {lib : BsonLib} {w : Wording} {header : Document}
  {changes : List Document} {bytes part : List UInt8} {maxBytes : Nat}

/-- A cut increment is empty, or is cut within a frame, or lacks just the end of
the increment that holds the changes before the cut. -/
theorem increment_cut
    (hfits : ∀ doc ∈ header :: changes, ∃ bytes, lib.Fits doc bytes)
    (hwrite : writeIncrement lib header changes = .ok bytes)
    (hbefore : part <+: bytes) (hcut : part ≠ bytes) :
    part = [] ∨ (readItems lib (incrFraming maxBytes) w part).2 ≠ none ∨
      ∃ n, writeIncrement lib header (changes.take n) =
          .ok (part ++ [TAG_END]) ∧
        readItems lib (incrFraming maxBytes) w part =
          readItems lib (incrFraming maxBytes) w (part ++ [TAG_END]) := by
  rcases readItems_cut (storable_incrItems maxBytes hfits) hwrite hbefore
    hcut with hsome | ⟨n, hwhole, hsame⟩
  · exact Or.inr (Or.inl hsome)
  · cases n with
    | zero =>
        have hnil : [TAG_END] = part ++ [TAG_END] := Except.ok.inj hwhole
        exact Or.inl (List.append_left_eq_self.mp hnil.symm)
    | succ n =>
        refine Or.inr (Or.inr ⟨n, ?_, hsame⟩)
        rw [incrItems, List.take_succ_cons, ← List.map_take] at hwhole
        exact hwhole

/-- Behind every frame but the end an increment can be cut unnoticed. -/
theorem increment_unnoticed_cut
    (hfits : ∀ doc ∈ header :: changes, ∃ bytes, lib.Fits doc bytes)
    (hwrite : writeIncrement lib header changes = .ok bytes) (n : Nat) :
    ∃ part, part <+: bytes ∧ part ≠ bytes ∧
      writeIncrement lib header (changes.take n) = .ok (part ++ [TAG_END]) ∧
      readItems lib (incrFraming maxBytes) w part =
        readItems lib (incrFraming maxBytes) w (part ++ [TAG_END]) := by
  obtain ⟨part, hbefore, hcut, hwhole, hsame⟩ :=
    exists_unnoticed_cut (storable_incrItems maxBytes hfits) hwrite (n + 1)
  rw [incrItems, List.take_succ_cons, ← List.map_take] at hwhole
  exact ⟨part, hbefore, hcut, hwhole, hsame⟩

end Cuts

namespace Postgres

section Replay

variable {σ : Type} (client : Client σ) (lib : BsonLib)
  (maxCommitMicros : Option Int64)

/-- The loop over the frames behind the header, and over the error that ends
them. -/
def applyFrames (err : Option XBackupError) (st : ApplyState σ) :
    List IncrFrame → Except XBackupError (ApplyState σ)
  | [] =>
      match err with
      | some err => .error err
      | none => .ok st
  | .header _ :: _ =>
      .error (.failure "duplicate PostgreSQL incremental header")
  | .end_ :: _ => .ok st
  | .change c :: rest =>
      match applyChange client maxCommitMicros st c with
      | .error err => .error err
      | .ok next => applyFrames err next rest

/-- `apply` on the bytes of an increment. -/
def applyArchive (server : σ) (input : List UInt8) :
    Except XBackupError (ApplyState σ) :=
  let headerMissing := fun found : IncrFrame =>
    XBackupError.failure
      ("PostgreSQL incremental header missing: " ++ found.describe)
  match readFrames lib input with
  | ([], some err) => .error err
  | ([], none) => .error (headerMissing .end_)
  | (.header doc :: rest, err) =>
      let fmt := (doc.getStr "format").getD ""
      if fmt ≠ PG_INCR_FORMAT_ID then
        .error (.failure
          ("PostgreSQL incremental format mismatch: '" ++ fmt ++ "'"))
      else applyFrames client maxCommitMicros err ⟨server, [], 0⟩ rest
  | (other :: _, _) => .error (headerMissing other)

variable {client lib maxCommitMicros} {server : σ} {createdAt : String}
  {changes : List Change} {input bytes part : List UInt8}

theorem applyFrames_some {err : XBackupError} (st : ApplyState σ)
    {frames : List IncrFrame} (hframes : .end_ ∉ frames) :
    ∃ err', applyFrames client maxCommitMicros (some err) st frames =
      .error err' := by
  induction frames generalizing st with
  | nil => exact ⟨err, rfl⟩
  | cons frame rest ih =>
      rw [List.mem_cons, not_or] at hframes
      cases frame with
      | header doc => exact ⟨_, rfl⟩
      | end_ => exact absurd rfl hframes.1
      | change c =>
          rw [applyFrames]
          cases applyChange client maxCommitMicros st c with
          | error err => exact ⟨err, rfl⟩
          | ok next => exact ih next hframes.2

theorem applyFrames_changes (st : ApplyState σ) :
    applyFrames client maxCommitMicros none st (changes.map .change) =
      changes.foldlM (applyChange client maxCommitMicros) st := by
  induction changes generalizing st with
  | nil => rfl
  | cons c rest ih =>
      rw [List.map_cons, applyFrames, List.foldlM_cons]
      cases applyChange client maxCommitMicros st c with
      | error err => rfl
      | ok next => exact ih next

theorem end_notMem_readFrames : .end_ ∉ (readFrames lib input).1 := by
  intro hmem
  refine decodeAll_forall (p := fun frame => frame ≠ .end_) ?_ _ hmem rfl
  rintro ⟨tag, payload⟩ frame hframe rfl
  cases payload with
  | bare => cases hframe
  | data bytes => cases hframe
  | document doc =>
      rw [IncrFrame.ofItem] at hframe
      dsimp only at hframe
      split at hframe
      next => cases hframe
      next =>
        cases hdoc : docToChange doc with
        | error err => rw [hdoc] at hframe; cases hframe
        | ok c => rw [hdoc] at hframe; cases hframe

/-- Frames that end with an error are not applied to an end. -/
theorem applyArchive_some (hread : (readFrames lib input).2 ≠ none) :
    ∃ err, applyArchive client lib maxCommitMicros server input =
      .error err := by
  have hend := @end_notMem_readFrames lib input
  rw [applyArchive]
  cases hframes : readFrames lib input with
  | mk frames err =>
      rw [hframes] at hread hend
      obtain ⟨err, rfl⟩ := Option.ne_none_iff_exists'.mp hread
      cases frames with
      | nil => exact ⟨err, rfl⟩
      | cons frame rest =>
          cases frame with
          | change c => exact ⟨_, rfl⟩
          | end_ => exact ⟨_, rfl⟩
          | header doc =>
              dsimp only
              split
              next => exact ⟨_, rfl⟩
              next =>
                exact applyFrames_some _ fun hmem =>
                  hend (List.mem_cons_of_mem _ hmem)

theorem writeIncrement_of_archive
    (hwrite : writeArchive lib createdAt changes = .ok bytes) :
    writeIncrement lib (incrHeader PG_INCR_FORMAT_ID createdAt)
      (changes.map changeToDoc) = .ok bytes := by
  rw [writeArchive] at hwrite
  cases hdocs : writeIncrement lib (incrHeader PG_INCR_FORMAT_ID createdAt)
      (changes.map changeToDoc) with
  | error e => rw [hdocs] at hwrite; cases hwrite
  | ok written => rw [hdocs] at hwrite; cases hwrite; rfl

/-- A cut increment is not applied to an end, unless it lacks just the end of
the increment that holds the changes before the cut. -/
theorem applyArchive_cut
    (hfits : ∀ doc ∈ documents createdAt changes, ∃ bytes, lib.Fits doc bytes)
    (hwrite : writeArchive lib createdAt changes = .ok bytes)
    (hbefore : part <+: bytes) (hcut : part ≠ bytes) :
    (∃ err, applyArchive client lib maxCommitMicros server part =
        .error err) ∨
      ∃ n, writeArchive lib createdAt (changes.take n) =
          .ok (part ++ [TAG_END]) ∧
        applyArchive client lib maxCommitMicros server part =
          applyArchive client lib maxCommitMicros server
            (part ++ [TAG_END]) := by
  have hincrement := writeIncrement_of_archive hwrite
  rcases @increment_cut _ incrWording _ _ _ _ (64 * 1024 * 1024) hfits
    hincrement hbefore hcut with rfl | hsome | ⟨n, hwhole, hsame⟩
  · have hread : readFrames lib [] = ([], none) := by
      rw [readFrames, readDecoded, readItems_nil]
      rfl
    rw [applyArchive, hread]
    exact Or.inl ⟨_, rfl⟩
  · exact Or.inl (applyArchive_some (decodeAll_some hsome))
  · refine Or.inr ⟨n, ?_, ?_⟩
    · rw [writeArchive, List.map_take, hwhole]
    · have hread : readFrames lib part = readFrames lib (part ++ [TAG_END]) := by
        rw [readFrames, readFrames, readDecoded, readDecoded, incrFraming, hsame]
      rw [applyArchive, applyArchive, hread]

/-- Behind the header and behind every change an increment can be cut, and is
applied as the increment of the changes before. -/
theorem exists_applied_cut
    (hfits : ∀ doc ∈ documents createdAt changes, ∃ bytes, lib.Fits doc bytes)
    (hwrite : writeArchive lib createdAt changes = .ok bytes) (n : Nat) :
    ∃ part, part <+: bytes ∧ part ≠ bytes ∧
      writeArchive lib createdAt (changes.take n) = .ok (part ++ [TAG_END]) ∧
      applyArchive client lib maxCommitMicros server part =
        applyArchive client lib maxCommitMicros server (part ++ [TAG_END]) := by
  obtain ⟨part, hbefore, hcut, hwhole, hsame⟩ :=
    @increment_unnoticed_cut _ incrWording _ _ _ (64 * 1024 * 1024) hfits
      (writeIncrement_of_archive hwrite) n
  refine ⟨part, hbefore, hcut, ?_, ?_⟩
  · rw [writeArchive, List.map_take, hwhole]
  · have hread : readFrames lib part = readFrames lib (part ++ [TAG_END]) := by
      rw [readFrames, readFrames, readDecoded, readDecoded, incrFraming, hsame]
    rw [applyArchive, applyArchive, hread]

/-- An increment that is read back is applied change by change. -/
theorem applyArchive_archived
    (hread : readFrames lib input = (archived createdAt changes, none)) :
    applyArchive client lib maxCommitMicros server input =
      apply client maxCommitMicros server changes := by
  rw [applyArchive, hread]
  exact applyFrames_changes _

end Replay

end Postgres

namespace Mysql

section Replay

variable {σ : Type} (target : Target σ) (lib : BsonLib)
  (maxCommitMicros : Option Int64)

/-- `apply` on the bytes of an increment: the frames up to the end, and behind
them the error that ends them. -/
def applyArchive (server : σ) (input : List UInt8) :
    ApplyState σ × Except XBackupError Nat :=
  let read := readItems lib incrFraming incrWording input
  let frames := read.1.map Frame.ofItem
  match read.2 with
  | none => apply target maxCommitMicros server frames
  | some err =>
      if frames = [] then (⟨server, [], 0, []⟩, .error err)
      else
        let (st, result) := apply target maxCommitMicros server frames
        match result with
        | .ok _ => (st, .error err)
        | .error earlier => (st, .error earlier)

variable {target lib maxCommitMicros} {server : σ} {createdAt : String}
  {changes : List Change} {bytes part : List UInt8}

theorem writeIncrement_of_archive
    (hwrite : writeArchive lib createdAt changes = some bytes) :
    writeIncrement lib (incrHeader MYSQL_INCR_FORMAT_ID createdAt)
      (changes.map changeToDoc) = .ok bytes := by
  rw [writeArchive] at hwrite
  cases hdocs : writeIncrement lib (incrHeader MYSQL_INCR_FORMAT_ID createdAt)
      (changes.map changeToDoc) with
  | error e => rw [hdocs] at hwrite; cases hwrite
  | ok written => rw [hdocs] at hwrite; cases hwrite; rfl

/-- A cut increment is not applied to an end, unless it lacks just the end of
the increment that holds the changes before the cut. -/
theorem applyArchive_cut
    (hfits : ∀ doc ∈ documents createdAt changes, ∃ bytes, lib.Fits doc bytes)
    (hwrite : writeArchive lib createdAt changes = some bytes)
    (hbefore : part <+: bytes) (hcut : part ≠ bytes) :
    (∃ err, (applyArchive target lib maxCommitMicros server part).2 =
        .error err) ∨
      ∃ n, writeArchive lib createdAt (changes.take n) =
          some (part ++ [TAG_END]) ∧
        applyArchive target lib maxCommitMicros server part =
          applyArchive target lib maxCommitMicros server
            (part ++ [TAG_END]) := by
  have hincrement := writeIncrement_of_archive hwrite
  rcases @increment_cut _ incrWording _ _ _ _ (256 * 1024 * 1024) hfits
    hincrement hbefore hcut with rfl | hsome | ⟨n, hwhole, hsame⟩
  · rw [applyArchive, readItems_nil]
    exact Or.inl ⟨_, rfl⟩
  · obtain ⟨err, herr⟩ := Option.ne_none_iff_exists'.mp hsome
    left
    rw [applyArchive, incrFraming]
    simp only [herr]
    split
    next => exact ⟨err, rfl⟩
    next => split <;> exact ⟨_, rfl⟩
  · refine Or.inr ⟨n, ?_, ?_⟩
    · rw [writeArchive, List.map_take, hwhole]
      rfl
    · rw [applyArchive, applyArchive, incrFraming, hsame]

/-- Behind the header and behind every change an increment can be cut, and is
applied as the increment of the changes before. -/
theorem exists_applied_cut
    (hfits : ∀ doc ∈ documents createdAt changes, ∃ bytes, lib.Fits doc bytes)
    (hwrite : writeArchive lib createdAt changes = some bytes) (n : Nat) :
    ∃ part, part <+: bytes ∧ part ≠ bytes ∧
      writeArchive lib createdAt (changes.take n) = some (part ++ [TAG_END]) ∧
      applyArchive target lib maxCommitMicros server part =
        applyArchive target lib maxCommitMicros server
          (part ++ [TAG_END]) := by
  obtain ⟨part, hbefore, hcut, hwhole, hsame⟩ :=
    @increment_unnoticed_cut _ incrWording _ _ _ (256 * 1024 * 1024) hfits
      (writeIncrement_of_archive hwrite) n
  refine ⟨part, hbefore, hcut, ?_, ?_⟩
  · rw [writeArchive, List.map_take, hwhole]
    rfl
  · rw [applyArchive, applyArchive, incrFraming, hsame]

end Replay

end Mysql

/-- Of the increments that are cut, those of PostgreSQL and MySQL are replayed
to an end only where the cut is behind a frame, and then as the increment of the
changes before it; an oplog stream that is cut behind the length of a document is
not, unless the limit stops its replay before. -/
theorem truncated_replays {σ τ : Type} {client : Postgres.Client σ}
    {target : Mysql.Target τ} {lib : BsonLib} {debug : BsonDebug}
    {maxCommitMicros : Option Int64} {limit : Option OplogTimestamp}
    {pgServer : σ} {mysqlServer : τ} {createdAt : String}
    {pg : List Postgres.Change} {mysql : List Mysql.Change}
    {chunks : List (List UInt8)}
    {pgBytes pgPart mysqlBytes mysqlPart part : List UInt8}
    (hpg : ∀ doc ∈ Postgres.documents createdAt pg, ∃ bytes,
      lib.Fits doc bytes)
    (hpgWrite : Postgres.writeArchive lib createdAt pg = .ok pgBytes)
    (hpgPrefix : pgPart <+: pgBytes) (hpgCut : pgPart ≠ pgBytes)
    (hmysql : ∀ doc ∈ Mysql.documents createdAt mysql, ∃ bytes,
      lib.Fits doc bytes)
    (hmysqlWrite : Mysql.writeArchive lib createdAt mysql = some mysqlBytes)
    (hmysqlPrefix : mysqlPart <+: mysqlBytes) (hmysqlCut : mysqlPart ≠ mysqlBytes)
    (hchunks : ∀ chunk ∈ chunks, Counted chunk)
    (hbefore : part <+: chunks.flatten) (hcut : part ≠ chunks.flatten) :
    ((∃ err, Postgres.applyArchive client lib maxCommitMicros pgServer pgPart =
        .error err) ∨
      ∃ n, Postgres.writeArchive lib createdAt (pg.take n) =
          .ok (pgPart ++ [TAG_END]) ∧
        Postgres.applyArchive client lib maxCommitMicros pgServer pgPart =
          Postgres.applyArchive client lib maxCommitMicros pgServer
            (pgPart ++ [TAG_END])) ∧
    ((∃ err, (Mysql.applyArchive target lib maxCommitMicros mysqlServer
        mysqlPart).2 = .error err) ∨
      ∃ n, Mysql.writeArchive lib createdAt (mysql.take n) =
          some (mysqlPart ++ [TAG_END]) ∧
        Mysql.applyArchive target lib maxCommitMicros mysqlServer mysqlPart =
          Mysql.applyArchive target lib maxCommitMicros mysqlServer
            (mysqlPart ++ [TAG_END])) ∧
    ∃ front chunk cut, front ++ [chunk] <+: chunks ∧
      part = front.flatten ++ cut ∧ cut <+: chunk ∧ cut ≠ chunk ∧
      (4 ≤ cut.length → BelowLimit lib debug limit front →
        ∃ err, applyBytes lib debug limit part = .error err) := by
  refine ⟨Postgres.applyArchive_cut hpg hpgWrite hpgPrefix hpgCut,
    Mysql.applyArchive_cut hmysql hmysqlWrite hmysqlPrefix hmysqlCut, ?_⟩
  have hsome : ∀ chunk ∈ chunks, chunk ≠ [] := by
    intro chunk hchunk hnil
    have hleast := (hchunks chunk hchunk).least
    rw [hnil] at hleast
    exact absurd hleast (by decide)
  obtain ⟨front, chunk, cut, hfront, rfl, hcutPrefix, hcutShort⟩ :=
    flatten_cut hsome hbefore hcut
  refine ⟨front, chunk, cut, hfront, rfl, hcutPrefix, hcutShort, ?_⟩
  intro hfour hbelow
  have hcounted : ∀ other ∈ front ++ [chunk], Counted other :=
    fun other hother => hchunks other (hfront.subset hother)
  rw [List.forall_mem_append, List.forall_mem_singleton] at hcounted
  exact applyBytes_cut hcounted.1 hcounted.2 hcutPrefix hcutShort hfour hbelow

section Notes

/-- A server that takes every statement, and remembers it. -/
def pgNotesClient : Postgres.Client (List Postgres.Dml) where
  columns _ _ := .ok [("id", ⟨"text", false⟩), ("body", ⟨"text", false⟩)]
  execute done dml := .ok (done ++ [dml])

def mysqlNotesTarget : Mysql.Target (List String) where
  columns _ := .ok [("id", "", "PRI"), ("body", "", "")]
  queryDrop done sql := .ok (done ++ [sql])

def notesDebug : BsonDebug := ⟨fun _ => "", fun _ => ""⟩

/-- An oplog entry: a document without fields. -/
def emptyEntry : List UInt8 := [5, 0, 0, 0, 0]

theorem truncated_replays_notes :
    ∃ pgBytes pgPart mysqlBytes mysqlPart,
      Postgres.writeArchive notesLib notesCreatedAt [pgNote 2] = .ok pgBytes ∧
      pgPart <+: pgBytes ∧ pgPart ≠ pgBytes ∧
      Mysql.writeArchive notesLib notesCreatedAt [mysqlNote] =
        some mysqlBytes ∧
      mysqlPart <+: mysqlBytes ∧ mysqlPart ≠ mysqlBytes ∧
      ((∃ err, Postgres.applyArchive pgNotesClient notesLib none [] pgPart =
          .error err) ∨
        ∃ n, Postgres.writeArchive notesLib notesCreatedAt
            ([pgNote 2].take n) = .ok (pgPart ++ [TAG_END]) ∧
          Postgres.applyArchive pgNotesClient notesLib none [] pgPart =
            Postgres.applyArchive pgNotesClient notesLib none []
              (pgPart ++ [TAG_END])) ∧
      ((∃ err, (Mysql.applyArchive mysqlNotesTarget notesLib none []
          mysqlPart).2 = .error err) ∨
        ∃ n, Mysql.writeArchive notesLib notesCreatedAt
            ([mysqlNote].take n) = some (mysqlPart ++ [TAG_END]) ∧
          Mysql.applyArchive mysqlNotesTarget notesLib none [] mysqlPart =
            Mysql.applyArchive mysqlNotesTarget notesLib none []
              (mysqlPart ++ [TAG_END])) ∧
      ∃ err, applyBytes notesLib notesDebug none (emptyEntry.take 4) =
        .error err := by
  obtain ⟨pgBytes, hpgWrite, -⟩ := Postgres.readFrames_writeArchive pgNotes_fit
  obtain ⟨mysqlBytes, hmysqlWrite, -⟩ :=
    Mysql.readFrames_writeArchive mysqlNotes_fit
  obtain ⟨pgPart, hpgPrefix, hpgCut, -⟩ :=
    @Postgres.exists_applied_cut _ pgNotesClient _ none [] _ _ _ pgNotes_fit
      hpgWrite 0
  obtain ⟨mysqlPart, hmysqlPrefix, hmysqlCut, -⟩ :=
    @Mysql.exists_applied_cut _ mysqlNotesTarget _ none [] _ _ _ mysqlNotes_fit
      hmysqlWrite 0
  have hchunks : ∀ chunk ∈ [emptyEntry], Counted chunk := by
    rw [List.forall_mem_singleton]
    exact ⟨by decide, by decide, by decide⟩
  obtain ⟨hpgReplay, hmysqlReplay, front, chunk, cut, hfront, hsplit, -, -,
    hreplay⟩ := @truncated_replays _ _ pgNotesClient mysqlNotesTarget notesLib
      notesDebug none none [] [] notesCreatedAt [pgNote 2] [mysqlNote]
      [emptyEntry] _ _ _ _ (emptyEntry.take 4) pgNotes_fit hpgWrite hpgPrefix
      hpgCut mysqlNotes_fit hmysqlWrite hmysqlPrefix hmysqlCut hchunks
      (by decide) (by decide)
  refine ⟨pgBytes, pgPart, mysqlBytes, mysqlPart, hpgWrite, hpgPrefix, hpgCut,
    hmysqlWrite, hmysqlPrefix, hmysqlCut, hpgReplay, hmysqlReplay,
    hreplay ?_ nofun⟩
  have hnone : front = [] := by
    have hlength := hfront.length_le
    rw [List.length_append, List.length_singleton, List.length_singleton]
      at hlength
    exact List.length_eq_zero_iff.mp (by omega)
  rw [hnone, List.flatten_nil, List.nil_append] at hsplit
  rw [← hsplit]
  decide

/-- An increment that is cut behind its header is replayed to an end, and its
change is not applied. -/
theorem truncated_replays_headerOnly :
    ∃ bytes part,
      Postgres.writeArchive notesLib notesCreatedAt [pgNote 2] = .ok bytes ∧
      part <+: bytes ∧ part ≠ bytes ∧
      Postgres.applyArchive pgNotesClient notesLib none [] part =
        .ok ⟨[], [], 0⟩ := by
  obtain ⟨bytes, hwrite, -⟩ := Postgres.readFrames_writeArchive pgNotes_fit
  obtain ⟨part, hbefore, hcut, hheader, hsame⟩ :=
    @Postgres.exists_applied_cut _ pgNotesClient _ none [] _ _ _ pgNotes_fit
      hwrite 0
  have hfits : ∀ doc ∈ Postgres.documents notesCreatedAt [],
      ∃ bytes, notesLib.Fits doc bytes := by
    intro doc hdoc
    rw [List.mem_singleton.mp hdoc]
    exact pgNotes_fit _ List.mem_cons_self
  obtain ⟨whole, hwhole, hread⟩ := Postgres.readFrames_writeArchive hfits
  have hbytes : part ++ [TAG_END] = whole :=
    Except.ok.inj (hheader.symm.trans hwhole)
  have hbounded : Bounded notesLib (64 * 1024 * 1024)
      (Postgres.documents notesCreatedAt []) := by
    refine notes_bounded (by decide) fun doc hdoc => ?_
    rw [List.mem_singleton.mp hdoc]
    exact List.mem_cons_self
  refine ⟨bytes, part, hwrite, hbefore, hcut, ?_⟩
  rw [hsame, hbytes, Postgres.applyArchive_archived (hread.mpr hbounded)]
  rfl

end Notes

end XBackup
