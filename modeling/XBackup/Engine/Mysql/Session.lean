/-
The session a restored view, trigger, routine or event is created in: settings
stay as the last statement has left them, and what fails is tried again later.
-/
import XBackup.Engine.Mysql.Copy

namespace XBackup

open Rounds

namespace Mysql

/-- The settings of a connection; no collation is the one its character set has
by default. -/
structure Session where
  sqlMode : String
  timeZone : String
  charset : String
  collation : Option String
deriving DecidableEq

/-- What `restore_into` sets at the start. -/
def startSession : Session :=
  ⟨"NO_AUTO_VALUE_ON_ZERO", "+00:00", "utf8mb4", none⟩

def TICK : Char := Char.ofNat 96

/-- A quoted name read behind its opening quote: a quote stands for itself where
it is doubled. -/
def readQuoted : List Char → Option (List Char × List Char)
  | [] => none
  | c :: rest =>
      if c ≠ TICK then
        (readQuoted rest).map fun read => (c :: read.1, read.2)
      else
        match rest with
        | [] => some ([], [])
        | d :: behind =>
            if d = TICK then
              (readQuoted behind).map fun read => (TICK :: read.1, read.2)
            else some ([], d :: behind)

/-- The names that `SET NAMES` is given. -/
def readNames (text : List Char) : Option (Session → Session) :=
  match readQuoted text with
  | none => none
  | some (charset, []) => some fun session => { session with
      charset := String.ofList charset
      collation := none }
  | some (charset, behind) =>
      match behind.dropPrefix? " COLLATE `".toList with
      | none => none
      | some text =>
          match readQuoted text with
          | some (collation, []) => some fun session => { session with
              charset := String.ofList charset
              collation := some (String.ofList collation) }
          | _ => none

/-- What a statement does to the settings of its session, where it does
something to them. -/
def effect (sql : String) (params : List String) : Option (Session → Session) :=
  match params with
  | [] =>
      if sql = "SET SQL_MODE = 'NO_AUTO_VALUE_ON_ZERO'" then
        some fun session => { session with sqlMode := "NO_AUTO_VALUE_ON_ZERO" }
      else if sql = "SET SESSION time_zone = '+00:00'" then
        some fun session => { session with timeZone := "+00:00" }
      else if sql = "SET NAMES utf8mb4" then
        some fun session => { session with
          charset := "utf8mb4"
          collation := none }
      else (sql.toList.dropPrefix? "SET NAMES `".toList).bind readNames
  | [value] =>
      if sql = "SET SESSION sql_mode = ?" then
        some fun session => { session with sqlMode := value }
      else if sql = "SET SESSION time_zone = ?" then
        some fun session => { session with timeZone := value }
      else none
  | _ => none

/-- A server whose settings change by the statements that set them, and not by
one that it answers with an error. -/
structure SessionServer (σ : Type) where
  conn : RestoreConn σ
  session : σ → Session
  session_execute : ∀ server sql params,
    session (conn.execute server sql params).1 =
      match (conn.execute server sql params).2 with
      | none => ((effect sql params).getD id) (session server)
      | some _ => session server

section Effects

variable {name : String} {text : List Char}

/-- A name between its quotes. -/
def escaped (letters : List Char) : List Char :=
  letters.flatMap fun c => if c = TICK then [c, c] else [c]

theorem toList_quoteIdent :
    (quoteIdent name).toList = TICK :: (escaped name.toList ++ [TICK]) := by
  simp only [quoteIdent, String.toList_append, String.toList_ofList]
  rfl

theorem readQuoted_escaped (letters : List Char)
    (hbehind : text.head? ≠ some TICK) :
    readQuoted (escaped letters ++ TICK :: text) = some (letters, text) := by
  induction letters with
  | nil =>
      cases text with
      | nil => rfl
      | cons d behind =>
          have hd : d ≠ TICK := fun heq => hbehind (congrArg some heq)
          change readQuoted (TICK :: d :: behind) = _
          rw [readQuoted]
          simp only [ne_eq, not_true, if_false, if_neg hd]
  | cons c rest ih =>
      rw [escaped, List.flatMap_cons, ← escaped, List.append_assoc]
      by_cases hc : c = TICK
      · subst hc
        rw [if_pos rfl, List.cons_append, List.cons_append, List.nil_append,
          readQuoted]
        simp only [ne_eq, not_true, if_false, if_true, ih, Option.map_some]
      · rw [if_neg hc, List.cons_append, List.nil_append, readQuoted.eq_def]
        simp only [ne_eq, hc, not_false_eq_true, if_true, ih, Option.map_some]

theorem dropPrefix?_self (pre rest : List Char) :
    (pre ++ rest).dropPrefix? pre = some rest :=
  List.dropPrefix?_append_of_beq rest (BEq.refl pre)

/-- A statement that sets something begins with an S. -/
theorem effect_of_head {sql : String} {params : List String} {c : Char}
    {rest : List Char} (htext : sql.toList = c :: rest) (hc : c ≠ 'S') :
    effect sql params = none := by
  have hne : ∀ other : String, other.toList.head? = some 'S' → sql ≠ other := by
    rintro other hother rfl
    rw [htext] at hother
    exact hc (Option.some.inj hother)
  have hnames : sql.toList.dropPrefix? "SET NAMES `".toList = none := by
    cases hdrop : sql.toList.dropPrefix? "SET NAMES `".toList with
    | none => rfl
    | some behind =>
        obtain ⟨pre, hpre, heq⟩ := List.dropPrefix?_eq_some_iff.mp hdrop
        rw [eq_of_beq heq, htext] at hpre
        exact absurd (List.cons.inj hpre).1 hc
  unfold effect
  split
  next =>
    rw [if_neg (hne _ rfl), if_neg (hne _ rfl), if_neg (hne _ rfl), hnames]
    rfl
  next => rw [if_neg (hne _ rfl), if_neg (hne _ rfl)]
  next => rfl

theorem effect_sqlMode (value : String) :
    effect "SET SESSION sql_mode = ?" [value] =
      some fun session => { session with sqlMode := value } := rfl

theorem effect_timeZone (value : String) :
    effect "SET SESSION time_zone = ?" [value] =
      some fun session => { session with timeZone := value } := rfl

/-- `SET NAMES` with a quoted name does what the text behind the quote says. -/
theorem effect_names (behind : String) :
    effect ("SET NAMES " ++ (quoteIdent name ++ behind)) [] =
      readNames (escaped name.toList ++ TICK :: behind.toList) := by
  have htext : ("SET NAMES " ++ (quoteIdent name ++ behind)).toList =
      "SET NAMES `".toList ++ (escaped name.toList ++ TICK :: behind.toList) := by
    rw [String.toList_append, String.toList_append, toList_quoteIdent]
    simp only [List.cons_append, List.append_assoc, List.nil_append]
    rfl
  have hne : ∀ other : String, other.toList[10]? ≠ some TICK →
      "SET NAMES " ++ (quoteIdent name ++ behind) ≠ other := by
    rintro other hother rfl
    rw [htext] at hother
    exact hother rfl
  rw [effect, if_neg (hne _ (by decide)), if_neg (hne _ (by decide)),
    if_neg (hne _ (by decide)), htext, dropPrefix?_self]
  rfl

theorem effect_charset (charset : String) :
    effect ("SET NAMES " ++ quoteIdent charset) [] =
      some fun session => { session with
        charset := charset
        collation := none } := by
  have hnames : effect ("SET NAMES " ++ (quoteIdent charset ++ "")) [] =
      readNames (escaped charset.toList ++ TICK :: "".toList) := effect_names ""
  rw [String.append_empty] at hnames
  rw [hnames, readNames, readQuoted_escaped _ (by decide)]
  refine congrArg some (funext fun session => ?_)
  rw [String.ofList_toList]

theorem effect_collation (charset collation : String) :
    effect ("SET NAMES " ++ quoteIdent charset ++
        (" COLLATE " ++ quoteIdent collation)) [] =
      some fun session => { session with
        charset := charset
        collation := some collation } := by
  have htext : (" COLLATE " ++ quoteIdent collation).toList =
      ' ' :: ("COLLATE `".toList ++ (escaped collation.toList ++ [TICK])) := by
    rw [String.toList_append, toList_quoteIdent]
    rfl
  have hdrop : (' ' :: ("COLLATE `".toList ++
      (escaped collation.toList ++ [TICK]))).dropPrefix? " COLLATE `".toList =
        some (escaped collation.toList ++ [TICK]) :=
    dropPrefix?_self " COLLATE `".toList _
  have hread : readQuoted (escaped collation.toList ++ [TICK]) =
      some (collation.toList, []) := readQuoted_escaped _ (by decide)
  rw [String.append_assoc, effect_names, htext, readNames,
    readQuoted_escaped _ (fun h => by cases h)]
  simp only [hdrop, hread, String.ofList_toList]

end Effects

section Statements

/-- The settings after statements that all succeed. -/
def changed (session : Session)
    (statements : List (String × List String × String)) : Session :=
  statements.foldl
    (fun session statement => (effect statement.1 statement.2.1).getD id session)
    session

theorem changed_session (session : Session) (obj : PostObj) :
    changed session obj.session =
      { sqlMode := obj.sqlMode.getD session.sqlMode
        timeZone := obj.timeZone.getD session.timeZone
        charset := obj.characterSetClient.getD session.charset
        collation := obj.characterSetClient.elim session.collation
          fun _ => obj.collationConnection } := by
  obtain ⟨kind, name, sql, sqlMode, charset, collation, timeZone⟩ := obj
  have hnames : ∀ session : Session, changed session
      (charset.toList.map fun charset =>
        ("SET NAMES " ++ quoteIdent charset ++
            ((collation.map fun collation =>
              " COLLATE " ++ quoteIdent collation).getD ""),
          [], "failed to restore the object-creation charset: ")) =
      { session with
        charset := charset.getD session.charset
        collation := charset.elim session.collation fun _ => collation } := by
    intro session
    cases charset with
    | none => rfl
    | some charset =>
        cases collation with
        | none =>
            simp only [changed, Option.toList_some, List.map_cons, List.map_nil,
              List.foldl_cons, List.foldl_nil, Option.map_none, Option.getD_none,
              String.append_empty, effect_charset]
            rfl
        | some collation =>
            simp only [changed, Option.toList_some, List.map_cons, List.map_nil,
              List.foldl_cons, List.foldl_nil, Option.map_some, Option.getD_some,
              effect_collation]
            rfl
  simp only [PostObj.session]
  rw [changed, List.foldl_append, List.foldl_append]
  refine (hnames _).trans ?_
  cases sqlMode <;> cases timeZone <;> rfl

variable {σ : Type} (server : SessionServer σ)

/-- A statement that sets nothing keeps the settings, whatever is answered. -/
theorem session_keeps {sql : String} {params : List String}
    (hnone : effect sql params = none) (st : σ) :
    server.session (server.conn.execute st sql params).1 = server.session st := by
  rw [server.session_execute, hnone]
  split <;> rfl

theorem runSession_ok {statements : List (String × List String × String)}
    {st created : σ}
    (hrun : runSession server.conn st statements = (created, none)) :
    server.session created = changed (server.session st) statements := by
  induction statements generalizing st with
  | nil =>
      cases hrun
      rfl
  | cons statement rest ih =>
      obtain ⟨sql, params, what⟩ := statement
      have hlaw := server.session_execute st sql params
      rw [runSession] at hrun
      split at hrun
      next next hexec =>
        rw [hexec] at hlaw
        rw [ih hrun, hlaw]
        rfl
      next => cases hrun

/-- What every one of some statements keeps is kept by as many as succeed. -/
theorem runSession_invariant {Q : Session → Prop}
    {statements : List (String × List String × String)} {st : σ}
    (hkeeps : ∀ statement ∈ statements, ∀ session, Q session →
      Q ((effect statement.1 statement.2.1).getD id session))
    (hst : Q (server.session st)) :
    Q (server.session (runSession server.conn st statements).1) := by
  induction statements generalizing st with
  | nil => exact hst
  | cons statement rest ih =>
      obtain ⟨hfirst, hrest⟩ := List.forall_mem_cons.mp hkeeps
      obtain ⟨sql, params, what⟩ := statement
      have hlaw := server.session_execute st sql params
      rw [runSession]
      split
      next next hexec =>
        rw [hexec] at hlaw
        exact ih hrest (hlaw ▸ hfirst _ hst)
      next next e hexec =>
        rw [hexec] at hlaw
        exact hlaw ▸ hst

theorem openRestoreSession_ok {statements : List String} {st opened : σ}
    (hopen : openRestoreSession server.conn st statements = .ok opened) :
    server.session opened = changed (server.session st)
      (statements.map fun sql => (sql, [], "")) := by
  induction statements generalizing st with
  | nil =>
      cases hopen
      rfl
  | cons sql rest ih =>
      have hlaw := server.session_execute st sql []
      rw [openRestoreSession, queryDrop] at hopen
      split at hopen
      next next hexec =>
        rw [hexec] at hlaw
        rw [ih hopen, hlaw]
        rfl
      next => cases hopen

/-- A restore starts with these settings. -/
theorem openRestoreSession_session {st opened : σ}
    (hopen : openRestoreSession server.conn st sessionStatements = .ok opened) :
    server.session opened = startSession :=
  (openRestoreSession_ok server hopen).trans rfl

/-- Whether a statement creates something. -/
def Creates (sql : String) : Prop := ∃ rest, sql = "CREATE " ++ rest

theorem effect_of_creates {sql : String} {params : List String}
    (hcreates : Creates sql) : effect sql params = none := by
  obtain ⟨rest, rfl⟩ := hcreates
  exact effect_of_head (String.toList_append ..) (by decide)

theorem session_runIgnoreExists {sql : String} (hcreates : Creates sql)
    (st : σ) : server.session (runIgnoreExists server.conn st sql).1 =
      server.session st := by
  have hkeeps : server.session (server.conn.execute st sql []).1 =
      server.session st := session_keeps server (effect_of_creates hcreates) st
  rw [runIgnoreExists, queryDrop]
  split
  next next hexec => rwa [hexec] at hkeeps
  next next e hexec =>
    rw [hexec] at hkeeps
    split <;> exact hkeeps

theorem session_dropPost (st : σ) (obj : PostObj) :
    server.session (dropPost server.conn st obj) = server.session st := by
  rw [dropPost]
  split
  next => rfl
  next kw _ =>
    split
    next => rfl
    next =>
      have htext : ("DROP " ++ kw ++ " IF EXISTS " ++
          quoteIdent obj.name).toList = 'D' :: ("ROP ".toList ++ kw.toList ++
            " IF EXISTS ".toList ++ (quoteIdent obj.name).toList) := by
        simp only [String.toList_append]
        rfl
      exact session_keeps server (effect_of_head htext (by decide)) st

theorem session_applyPostObject {Q : Session → Prop} {obj : PostObj}
    (hcreates : Creates obj.sql)
    (hkeeps : ∀ statement ∈ obj.session, ∀ session, Q session →
      Q ((effect statement.1 statement.2.1).getD id session))
    {st : σ} (hst : Q (server.session st)) :
    Q (server.session (applyPostObject server.conn st obj).1) := by
  have hsession := runSession_invariant server hkeeps hst
  rw [applyPostObject]
  split
  next next e hrun => rwa [hrun] at hsession
  next next hrun =>
    rw [hrun] at hsession
    change Q (server.session (runIgnoreExists server.conn next obj.sql).1)
    rwa [session_runIgnoreExists server hcreates]

end Statements

section Objects

/-- The settings of an object that the dump has recorded, and for one that it
has not what the restore starts with. -/
def PostObj.recordedSession (obj : PostObj) : Session where
  sqlMode := obj.sqlMode.getD startSession.sqlMode
  timeZone := obj.timeZone.getD startSession.timeZone
  charset := obj.characterSetClient.getD startSession.charset
  collation := obj.collationConnection.or startSession.collation

def Given (setting : Option String) : Prop :=
  ∃ value, setting = some value ∧ value ≠ ""

/-- An object as the dump records it: a view has no SQL mode, and only an event
has a time zone. -/
structure PostObj.Recorded (obj : PostObj) : Prop where
  creates : Creates obj.sql
  charset : Given obj.characterSetClient
  collation : Given obj.collationConnection
  sqlMode : obj.sqlMode = none ↔ obj.kind = "view"
  timeZone : if obj.kind = "event" then Given obj.timeZone else obj.timeZone = none

/-- The creations that `apply_post` tries, each with the server before the
settings of its object are restored. -/
def postCalls {σ : Type} (conn : RestoreConn σ) (st : σ) (post : List PostObj)
    (drop : Bool) : List (σ × PostObj) :=
  exhaustCalls (applyPostObject conn)
    (if drop then post.foldl (dropPost conn) st else st) post

/-- Every object is created under its own settings, and the retries end. -/
def OwnSettings (objs : List PostObj) : Prop :=
  ∀ (σ : Type) (server : SessionServer σ) (st : σ) (drop : Bool),
    server.session st = startSession →
    (∀ call ∈ postCalls server.conn st (objs.map PostObj.readBack) drop,
      ∀ obj ∈ objs, obj.readBack = call.2 → ∀ created,
        runSession server.conn call.1 call.2.session = (created, none) →
        server.session created = obj.recordedSession) ∧
    (postCalls server.conn st (objs.map PostObj.readBack) drop).length ≤
      objs.length * objs.length

/-- A setting that some object does not record is recorded by the others as it
is at the start; and no SQL mode is empty. -/
structure Uniform (objs : List PostObj) : Prop where
  given : ∀ obj ∈ objs, obj.sqlMode ≠ some ""
  sqlMode : (∃ obj ∈ objs, obj.sqlMode = none) →
    ∀ obj ∈ objs, obj.sqlMode.getD startSession.sqlMode = startSession.sqlMode
  timeZone : (∃ obj ∈ objs, obj.timeZone = none) →
    ∀ obj ∈ objs, obj.timeZone.getD startSession.timeZone = startSession.timeZone

variable {objs : List PostObj} {obj : PostObj}

theorem filter_of_ne {setting : Option String} (hne : setting ≠ some "") :
    setting.filter (fun value => value ≠ "") = setting := by
  cases setting with
  | none => rfl
  | some value =>
      have hvalue : value ≠ "" := fun hempty => hne (congrArg some hempty)
      exact if_pos (decide_eq_true hvalue)

theorem Given.filter_eq {setting : Option String} (hgiven : Given setting) :
    setting.filter (fun value => value ≠ "") = setting := by
  obtain ⟨value, rfl, hvalue⟩ := hgiven
  exact filter_of_ne fun hempty => hvalue (Option.some.inj hempty)

theorem PostObj.Recorded.timeZone_filter (hrecorded : obj.Recorded) :
    obj.timeZone.filter (fun value => value ≠ "") = obj.timeZone := by
  have hzone := hrecorded.timeZone
  split at hzone
  next => exact hzone.filter_eq
  next => rw [hzone, Option.filter_none]

/-- Only an SQL mode that is empty is lost. -/
theorem PostObj.Recorded.readBack_eq (hrecorded : obj.Recorded) :
    obj.readBack = { obj with
      sqlMode := obj.sqlMode.filter fun value => value ≠ "" } := by
  rw [PostObj.readBack, hrecorded.charset.filter_eq,
    hrecorded.collation.filter_eq, hrecorded.timeZone_filter]

theorem PostObj.Recorded.changed_readBack (hrecorded : obj.Recorded)
    (session : Session) :
    changed session obj.readBack.session =
      { sqlMode := (obj.sqlMode.filter fun value => value ≠ "").getD
          session.sqlMode
        timeZone := obj.timeZone.getD session.timeZone
        charset := obj.recordedSession.charset
        collation := obj.recordedSession.collation } := by
  obtain ⟨charset, hcharset, _⟩ := hrecorded.charset
  obtain ⟨collation, hcollation, _⟩ := hrecorded.collation
  rw [hrecorded.readBack_eq, changed_session]
  simp only [PostObj.recordedSession, hcharset, hcollation, Option.getD_some,
    Option.elim_some, Option.some_or]

/-- What no recorded setting of the objects changes. -/
def Untouched (objs : List PostObj) (session : Session) : Prop :=
  ((∃ obj ∈ objs, obj.sqlMode = none) →
    session.sqlMode = startSession.sqlMode) ∧
  ((∃ obj ∈ objs, obj.timeZone = none) →
    session.timeZone = startSession.timeZone)

/-- A statement of an object's session sets one of its settings. -/
theorem statement_cases {statement : String × List String × String}
    (hstatement : statement ∈ obj.session) :
    (∃ mode, obj.sqlMode = some mode ∧ effect statement.1 statement.2.1 =
      some fun session => { session with sqlMode := mode }) ∨
    (∃ zone, obj.timeZone = some zone ∧ effect statement.1 statement.2.1 =
      some fun session => { session with timeZone := zone }) ∨
    (∃ charset collation, effect statement.1 statement.2.1 =
      some fun session => { session with
        charset := charset
        collation := collation }) := by
  simp only [PostObj.session, List.mem_append, List.mem_map,
    Option.mem_toList] at hstatement
  rcases hstatement with (⟨mode, hmode, rfl⟩ | ⟨zone, hzone, rfl⟩) |
    ⟨charset, _, rfl⟩
  · exact .inl ⟨mode, hmode, effect_sqlMode mode⟩
  · exact .inr (.inl ⟨zone, hzone, effect_timeZone zone⟩)
  · refine .inr (.inr ⟨charset, obj.collationConnection, ?_⟩)
    cases obj.collationConnection with
    | none =>
        simp only [Option.map_none, Option.getD_none, String.append_empty]
        exact effect_charset charset
    | some collation => exact effect_collation charset collation

theorem Uniform.readBack_eq (huniform : Uniform objs) (hobj : obj ∈ objs)
    (hrecorded : obj.Recorded) : obj.readBack = obj := by
  rw [hrecorded.readBack_eq, filter_of_ne (huniform.given obj hobj)]

theorem Uniform.statement_keeps (huniform : Uniform objs)
    (hobj : obj ∈ objs) (hrecorded : obj.Recorded) :
    ∀ statement ∈ obj.readBack.session, ∀ session, Untouched objs session →
      Untouched objs ((effect statement.1 statement.2.1).getD id session) := by
  rintro statement hstatement session ⟨hmode, hzone⟩
  rw [huniform.readBack_eq hobj hrecorded] at hstatement
  rcases statement_cases hstatement with ⟨mode, hset, heffect⟩ |
    ⟨zone, hset, heffect⟩ | ⟨charset, collation, heffect⟩
  · rw [heffect]
    refine ⟨fun hsome => ?_, hzone⟩
    have hown := huniform.sqlMode hsome obj hobj
    rwa [hset] at hown
  · rw [heffect]
    refine ⟨hmode, fun hsome => ?_⟩
    have hown := huniform.timeZone hsome obj hobj
    rwa [hset] at hown
  · rw [heffect]
    exact ⟨hmode, hzone⟩

theorem Uniform.changed_readBack (huniform : Uniform objs)
    (hobj : obj ∈ objs) (hrecorded : obj.Recorded) {session : Session}
    (huntouched : Untouched objs session) :
    changed session obj.readBack.session = obj.recordedSession := by
  rw [hrecorded.changed_readBack, filter_of_ne (huniform.given obj hobj)]
  have hmode : obj.sqlMode.getD session.sqlMode =
      obj.sqlMode.getD startSession.sqlMode := by
    cases hset : obj.sqlMode with
    | none => exact huntouched.1 ⟨obj, hobj, hset⟩
    | some mode => rfl
  have hzone : obj.timeZone.getD session.timeZone =
      obj.timeZone.getD startSession.timeZone := by
    cases hset : obj.timeZone with
    | none => exact huntouched.2 ⟨obj, hobj, hset⟩
    | some zone => rfl
  rw [hmode, hzone]
  rfl

theorem length_postCalls_le {σ : Type} (conn : RestoreConn σ) (st : σ)
    (post : List PostObj) (drop : Bool) :
    (postCalls conn st post drop).length ≤ post.length * post.length :=
  length_exhaustCalls_le

/-- What `apply_post` leaves is what the last of its creations leaves. -/
theorem applyPost_last {σ : Type} {conn : RestoreConn σ} {st last : σ}
    {post : List PostObj} {drop : Bool}
    (hdone : applyPost conn st post drop = .ok last) :
    last = ((postCalls conn st post drop).getLast?.map fun call =>
      (applyPostObject conn call.1 call.2).1).getD
        (if drop then post.foldl (dropPost conn) st else st) := by
  rw [applyPost] at hdone
  split at hdone
  next done hexhaust =>
    cases hdone
    exact last_of_exhaust hexhaust
  next => cases hdone

theorem Uniform.ownSettings (huniform : Uniform objs)
    (hrecorded : ∀ obj ∈ objs, obj.Recorded) : OwnSettings objs := by
  intro σ server st drop hstart
  have hlength := length_postCalls_le server.conn st
    (objs.map PostObj.readBack) drop
  rw [List.length_map] at hlength
  refine ⟨fun call hcall obj hobj hsame created hrun => ?_, hlength⟩
  have hdropped : server.session
      (if drop then (objs.map PostObj.readBack).foldl (dropPost server.conn) st
        else st) = startSession := by
    split
    next =>
      refine List.foldlRecOn (motive := fun st => server.session st = startSession)
        _ _ hstart fun st hst obj _ => ?_
      rw [session_dropPost, hst]
    next => exact hstart
  have hstep : ∀ st, ∀ read ∈ objs.map PostObj.readBack,
      Untouched objs (server.session st) →
      Untouched objs (server.session (applyPostObject server.conn st read).1) := by
    intro st read hread hst
    obtain ⟨own, hown, rfl⟩ := List.mem_map.mp hread
    have hcreates : Creates own.readBack.sql := (hrecorded own hown).creates
    exact session_applyPostObject server hcreates
      (huniform.statement_keeps hown (hrecorded own hown)) hst
  have huntouched : Untouched objs (server.session call.1) :=
    (calls_invariant hstep (List.Subset.refl _)
      (hdropped ▸ ⟨fun _ => rfl, fun _ => rfl⟩) call hcall).1
  rw [runSession_ok server hrun, ← hsame,
    huniform.changed_readBack hobj (hrecorded obj hobj) huntouched]

end Objects

section Script

/-- A server that creates an object or not as a list of answers says, and any
object when the answers are used up. -/
def scriptServer : SessionServer (Session × List Bool) where
  conn :=
    { execute := fun st sql params =>
        match effect sql params with
        | some change => ((change st.1, st.2), none)
        | none =>
            if sql.toList.head? = some 'C' then
              ((st.1, st.2.tail),
                if st.2.head? = some false then some ⟨"refused", none⟩ else none)
            else (st, none)
      database := fun _ => .ok none }
  session := Prod.fst
  session_execute := by
    intro st sql params
    dsimp only
    split
    next change heffect =>
      rw [heffect]
      rfl
    next hnone =>
      rw [hnone]
      split
      next =>
        split
        next => rfl
        next => rfl
      next => rfl

variable {objs : List PostObj} {x y : PostObj}

theorem runSession_script (session : Session) (script : List Bool)
    (obj : PostObj) : runSession scriptServer.conn (session, script) obj.session =
      ((changed session obj.session, script), none) := by
  have hlist : ∀ statements : List (String × List String × String),
      (∀ statement ∈ statements, (effect statement.1 statement.2.1).isSome) →
      ∀ session, runSession scriptServer.conn (session, script) statements =
        ((changed session statements, script), none) := by
    intro statements hsome
    induction statements with
    | nil => exact fun _ => rfl
    | cons statement rest ih =>
        obtain ⟨hfirst, hrest⟩ := List.forall_mem_cons.mp hsome
        obtain ⟨sql, params, what⟩ := statement
        obtain ⟨change, hchange⟩ := Option.isSome_iff_exists.mp hfirst
        dsimp only at hchange
        intro session
        have hexec : scriptServer.conn.execute (session, script) sql params =
            ((change session, script), none) := by
          simp only [scriptServer, hchange]
        rw [runSession, hexec, changed, List.foldl_cons, hchange]
        exact ih hrest _
  refine hlist _ (fun statement hstatement => ?_) session
  rcases statement_cases hstatement with ⟨_, _, heffect⟩ | ⟨_, _, heffect⟩ |
    ⟨_, _, heffect⟩
  · rw [heffect]; rfl
  · rw [heffect]; rfl
  · rw [heffect]; rfl

theorem applyPostObject_script (hcreates : Creates x.sql) (session : Session)
    (script : List Bool) :
    applyPostObject scriptServer.conn (session, script) x =
      ((changed session x.session, script.tail),
        if script.head? = some false then some "refused" else none) := by
  have hnone : effect x.sql [] = none := effect_of_creates hcreates
  have hhead : x.sql.toList.head? = some 'C' := by
    obtain ⟨rest, heq⟩ := hcreates
    rw [heq, String.toList_append]
    rfl
  have hexec : scriptServer.conn.execute (changed session x.session, script)
      x.sql [] = ((changed session x.session, script.tail),
        if script.head? = some false then some ⟨"refused", none⟩ else none) := by
    simp only [scriptServer, hnone, hhead, if_true]
  rw [applyPostObject, runSession_script]
  simp only [runIgnoreExists, queryDrop, hexec]
  by_cases hrefused : script.head? = some false
  · rw [if_pos hrefused, if_pos hrefused]
    rfl
  · rw [if_neg hrefused, if_neg hrefused]
    rfl

/-- Which objects a round leaves over can be chosen. -/
theorem round_script {kept pending : List PostObj} (hkept : kept.Sublist pending)
    (hcreates : ∀ obj ∈ pending, Creates obj.sql) (script : List Bool) :
    ∃ answers, ∀ session, ∃ after,
      (Rounds.round (applyPostObject scriptServer.conn) (session, answers) pending).1 =
        (after, script) ∧
      still (applyPostObject scriptServer.conn) (session, answers) pending =
        kept := by
  induction hkept with
  | slnil => exact ⟨script, fun session => ⟨session, rfl, rfl⟩⟩
  | cons obj hrest ih =>
      obtain ⟨hobj, hcreates⟩ := List.forall_mem_cons.mp hcreates
      obtain ⟨answers, hround⟩ := ih hcreates
      refine ⟨true :: answers, fun session => ?_⟩
      obtain ⟨after, hst, hstill⟩ := hround (changed session obj.session)
      have hrun : applyPostObject scriptServer.conn (session, true :: answers)
          obj = ((changed session obj.session, answers), none) :=
        applyPostObject_script hobj session (true :: answers)
      refine ⟨after, ?_, ?_⟩
      · rwa [fst_round_cons, hrun]
      · rw [still, Rounds.round, hrun]
        exact hstill
  | cons_cons obj hrest ih =>
      obtain ⟨hobj, hcreates⟩ := List.forall_mem_cons.mp hcreates
      obtain ⟨answers, hround⟩ := ih hcreates
      refine ⟨false :: answers, fun session => ?_⟩
      obtain ⟨after, hst, hstill⟩ := hround (changed session obj.session)
      have hrun : applyPostObject scriptServer.conn (session, false :: answers)
          obj = ((changed session obj.session, answers), some "refused") :=
        applyPostObject_script hobj session (false :: answers)
      refine ⟨after, ?_, ?_⟩
      · rwa [fst_round_cons, hrun]
      · rw [still, Rounds.round, hrun]
        exact congrArg (obj :: ·) hstill

/-- Some of the objects can be made the ones that are tried next. -/
theorem calls_of_sublist {kept pending : List PostObj} (hkept : kept.Sublist pending)
    (hcreates : ∀ obj ∈ pending, Creates obj.sql) (script : List Bool) :
    ∃ answers after,
      exhaustCalls (applyPostObject scriptServer.conn) (after, script) kept ⊆
        exhaustCalls (applyPostObject scriptServer.conn)
          (startSession, answers) pending := by
  by_cases hlength : kept.length = pending.length
  · rw [hkept.eq_of_length hlength]
    exact ⟨script, startSession, List.Subset.refl _⟩
  · obtain ⟨answers, hround⟩ := round_script hkept hcreates script
    obtain ⟨after, hst, hstill⟩ := hround startSession
    refine ⟨answers, after, ?_⟩
    rw [← hst, ← hstill]
    exact exhaustCalls_still_subset (by rwa [hstill])

theorem pair_sublist {α : Type} {a b : α} {items : List α} (ha : a ∈ items)
    (hb : b ∈ items) (hne : a ≠ b) :
    [a, b].Sublist items ∨ [b, a].Sublist items := by
  obtain ⟨front, back, rfl⟩ := List.append_of_mem ha
  rcases List.mem_append.mp hb with hfront | hback
  · exact .inr ((List.singleton_sublist.mpr hfront).append
      (List.singleton_sublist.mpr List.mem_cons_self))
  · rcases List.mem_cons.mp hback with heq | hback
    · exact absurd heq.symm hne
    · exact .inl (((List.singleton_sublist.mpr hback).cons_cons a).trans
        (List.sublist_append_right front _))

/-- An object can be tried right after the settings of any other. -/
theorem tried_after (hx : x ∈ objs) (hy : y ∈ objs) (hne : x ≠ y)
    (hcreates : ∀ obj ∈ objs, Creates obj.sql) :
    ∃ answers before, ((changed before x.session, []), y) ∈
      exhaustCalls (applyPostObject scriptServer.conn)
        (startSession, answers) objs := by
  rcases pair_sublist hx hy hne with hpair | hpair
  · obtain ⟨answers, after, hsub⟩ := calls_of_sublist hpair hcreates []
    refine ⟨answers, after, hsub (roundCalls_subset ?_)⟩
    rw [roundCalls, applyPostObject_script (hcreates x hx)]
    exact List.mem_cons_of_mem _ List.mem_cons_self
  · obtain ⟨answers, after, hsub⟩ := calls_of_sublist hpair hcreates [false]
    refine ⟨answers, changed after y.session, hsub ?_⟩
    have hfirst : applyPostObject scriptServer.conn (after, [false]) y =
        ((changed after y.session, []), some "refused") :=
      applyPostObject_script (hcreates y hy) after [false]
    have hsecond : applyPostObject scriptServer.conn
        (changed after y.session, []) x =
          ((changed (changed after y.session) x.session, []), none) :=
      applyPostObject_script (hcreates x hx) (changed after y.session) []
    have hround : Rounds.round (applyPostObject scriptServer.conn) (after, [false])
        [y, x] = ((changed (changed after y.session) x.session, []),
          [(y, "refused")]) := by
      simp only [Rounds.round, hfirst, hsecond]
    have hstill : still (applyPostObject scriptServer.conn) (after, [false])
        [y, x] = [y] := by
      rw [still, hround]
      rfl
    have hless : (still (applyPostObject scriptServer.conn) (after, [false])
        [y, x]).length ≠ [y, x].length := by
      rw [hstill]
      exact Nat.one_lt_two.ne
    have hnext := exhaustCalls_still_subset hless
    rw [hstill, hround] at hnext
    exact hnext (roundCalls_subset List.mem_cons_self)

variable {objs : List PostObj}

/-- A call of the script server that is tried creates its object. -/
theorem OwnSettings.of_call (hown : OwnSettings objs) {answers : List Bool}
    {before : Session} {script : List Bool} {obj : PostObj} (hobj : obj ∈ objs)
    (hcall : ((before, script), obj.readBack) ∈
      exhaustCalls (applyPostObject scriptServer.conn) (startSession, answers)
        (objs.map PostObj.readBack)) :
    changed before obj.readBack.session = obj.recordedSession :=
  (hown _ scriptServer (startSession, answers) false rfl).1 _ hcall obj hobj rfl
    _ (runSession_script before script obj.readBack)

/-- An object can be created right after the settings of any other. -/
theorem OwnSettings.after (hown : OwnSettings objs)
    (hrecorded : ∀ obj ∈ objs, obj.Recorded) (hx : x ∈ objs) (hy : y ∈ objs)
    (hne : x.readBack ≠ y.readBack) :
    ∃ before, changed (changed before x.readBack.session) y.readBack.session =
      y.recordedSession := by
  have hcreates : ∀ obj ∈ objs.map PostObj.readBack, Creates obj.sql := by
    rintro _ hread
    obtain ⟨own, hmem, rfl⟩ := List.mem_map.mp hread
    exact (hrecorded own hmem).creates
  obtain ⟨answers, before, hcall⟩ := tried_after (List.mem_map_of_mem hx)
    (List.mem_map_of_mem hy) hne hcreates
  exact ⟨before, hown.of_call hy hcall⟩

/-- The SQL mode is never set to nothing. -/
theorem OwnSettings.given (hown : OwnSettings objs)
    (hrecorded : ∀ obj ∈ objs, obj.Recorded) :
    ∀ obj ∈ objs, obj.sqlMode ≠ some "" := by
  intro obj hobj hempty
  have hstep : ∀ st, ∀ read ∈ objs.map PostObj.readBack,
      (scriptServer.session st).sqlMode ≠ "" →
      (scriptServer.session
        (applyPostObject scriptServer.conn st read).1).sqlMode ≠ "" := by
    intro st read hread hst
    obtain ⟨own, hmem, rfl⟩ := List.mem_map.mp hread
    have hcreates : Creates own.readBack.sql := (hrecorded own hmem).creates
    have hkeeps : ∀ statement ∈ own.readBack.session, ∀ session : Session,
        session.sqlMode ≠ "" →
        ((effect statement.1 statement.2.1).getD id session).sqlMode ≠ "" := by
      intro statement hstatement session hsession
      rcases statement_cases hstatement with ⟨mode, hset, heffect⟩ |
        ⟨zone, hset, heffect⟩ | ⟨charset, collation, heffect⟩
      · rw [heffect]
        exact of_decide_eq_true (Option.filter_eq_some_iff.mp hset).2
      · rwa [heffect]
      · rwa [heffect]
    exact session_applyPostObject scriptServer hcreates hkeeps hst
  obtain ⟨⟨before, script⟩, hcall⟩ : ∃ before, (before, obj.readBack) ∈
      roundCalls (applyPostObject scriptServer.conn) (startSession, [])
        (objs.map PostObj.readBack) :=
    exists_roundCalls (List.mem_map_of_mem hobj)
  have hcall := roundCalls_subset hcall
  have hbefore : before.sqlMode ≠ "" :=
    (calls_invariant hstep (List.Subset.refl _) (by decide) _ hcall).1
  have hcreated := hown.of_call hobj hcall
  rw [(hrecorded obj hobj).changed_readBack, PostObj.recordedSession,
    hempty] at hcreated
  exact hbefore (congrArg Session.sqlMode hcreated)

theorem OwnSettings.uniform (hown : OwnSettings objs)
    (hrecorded : ∀ obj ∈ objs, obj.Recorded) : Uniform objs where
  given := hown.given hrecorded
  sqlMode := by
    rintro ⟨y, hy, hnone⟩ x hx
    cases hset : x.sqlMode with
    | none => rfl
    | some mode =>
        have hread : x.readBack.sqlMode = some mode := by
          rw [← hset]
          exact filter_of_ne (hown.given hrecorded x hx)
        have hreadNone : y.readBack.sqlMode = none := by
          rw [PostObj.readBack, hnone]
          rfl
        have hne : x.readBack ≠ y.readBack := by
          intro heq
          rw [heq, hreadNone] at hread
          cases hread
        obtain ⟨before, hcreated⟩ := hown.after hrecorded hx hy hne
        rw [changed_session, changed_session] at hcreated
        have hmode := congrArg Session.sqlMode hcreated
        simpa only [hread, hreadNone, PostObj.recordedSession, hnone,
          Option.getD_none, Option.getD_some] using hmode
  timeZone := by
    rintro ⟨y, hy, hnone⟩ x hx
    cases hset : x.timeZone with
    | none => rfl
    | some zone =>
        have hread : x.readBack.timeZone = some zone := by
          rw [← hset]
          exact (hrecorded x hx).timeZone_filter
        have hreadNone : y.readBack.timeZone = none := by
          rw [PostObj.readBack, hnone]
          rfl
        have hne : x.readBack ≠ y.readBack := by
          intro heq
          rw [heq, hreadNone] at hread
          cases hread
        obtain ⟨before, hcreated⟩ := hown.after hrecorded hx hy hne
        rw [changed_session, changed_session] at hcreated
        have hzone := congrArg Session.timeZone hcreated
        simpa only [hread, hreadNone, PostObj.recordedSession, hnone,
          Option.getD_none, Option.getD_some] using hzone

/-- Every object is created under its own settings exactly where no SQL mode is
empty and what some object does not record no other changes. -/
theorem ownSettings_iff_uniform (hrecorded : ∀ obj ∈ objs, obj.Recorded) :
    OwnSettings objs ↔ Uniform objs :=
  ⟨fun hown => hown.uniform hrecorded,
    fun huniform => huniform.ownSettings hrecorded⟩

def plainView : PostObj where
  kind := "view"
  name := "v"
  sql := "CREATE VIEW v AS SELECT 1"
  sqlMode := none
  characterSetClient := some "utf8mb4"
  collationConnection := some "utf8mb4_general_ci"
  timeZone := none

/-- A trigger, with the SQL mode it was created under. -/
def triggerOf (sqlMode : String) : PostObj where
  kind := "trigger"
  name := "t"
  sql := "CREATE TRIGGER t BEFORE INSERT ON orders FOR EACH ROW SET NEW.n = 1"
  sqlMode := some sqlMode
  characterSetClient := some "latin1"
  collationConnection := some "latin1_swedish_ci"
  timeZone := none

theorem recorded_plainView : plainView.Recorded where
  creates := ⟨"VIEW v AS SELECT 1", rfl⟩
  charset := ⟨_, rfl, by decide⟩
  collation := ⟨_, rfl, by decide⟩
  sqlMode := iff_of_true rfl rfl
  timeZone := rfl

theorem recorded_triggerOf (sqlMode : String) : (triggerOf sqlMode).Recorded where
  creates := ⟨"TRIGGER t BEFORE INSERT ON orders FOR EACH ROW SET NEW.n = 1", rfl⟩
  charset := ⟨_, rfl, by decide⟩
  collation := ⟨_, rfl, by decide⟩
  sqlMode := iff_of_false nofun (by decide : "trigger" ≠ "view")
  timeZone := rfl

theorem ownSettings_uniformPair :
    OwnSettings [triggerOf "NO_AUTO_VALUE_ON_ZERO", plainView] :=
  (ownSettings_iff_uniform (List.forall_mem_cons.mpr
    ⟨recorded_triggerOf _, List.forall_mem_singleton.mpr recorded_plainView⟩)).mpr
    { given := by decide
      sqlMode := fun _ => by decide
      timeZone := fun _ => by decide }

/-- A view is created under the SQL mode of the trigger before it, and a trigger
without an SQL mode under the one that the restore starts with. -/
theorem leftover_sqlMode :
    ((∀ obj ∈ [triggerOf "ANSI_QUOTES", plainView], obj.Recorded) ∧
      ¬ OwnSettings [triggerOf "ANSI_QUOTES", plainView]) ∧
    ((triggerOf "").Recorded ∧ ¬ OwnSettings [triggerOf ""]) := by
  have hpair : ∀ obj ∈ [triggerOf "ANSI_QUOTES", plainView], obj.Recorded :=
    List.forall_mem_cons.mpr ⟨recorded_triggerOf _,
      List.forall_mem_singleton.mpr recorded_plainView⟩
  refine ⟨⟨hpair, fun hown => ?_⟩, recorded_triggerOf "", fun hown => ?_⟩
  · have hne : (triggerOf "ANSI_QUOTES").readBack ≠ plainView.readBack :=
      fun heq => absurd (congrArg PostObj.kind heq) (by decide)
    obtain ⟨before, hcreated⟩ := hown.after hpair List.mem_cons_self
      (List.mem_cons_of_mem _ List.mem_cons_self) hne
    rw [changed_session, changed_session] at hcreated
    have hmode : "ANSI_QUOTES" = "NO_AUTO_VALUE_ON_ZERO" :=
      congrArg Session.sqlMode hcreated
    exact absurd hmode (by decide)
  · exact hown.given (List.forall_mem_singleton.mpr (recorded_triggerOf ""))
      _ List.mem_cons_self rfl

end Script

end Mysql

end XBackup
