/-
The lock of a profile: a file that is created exclusively, and taken away from a
process that is dead.
-/
import Mathlib.Logic.Function.Basic
import XBackup.Manifest.Schema

namespace XBackup

namespace Lock

def STALE_AGE_SECS : Int := 24 * 60 * 60

/-- Who holds a lock. -/
structure LockData where
  pid : UInt32
  startedAt : String
  profile : String
  hostname : String
deriving DecidableEq, Repr

/-- The JSON library on the contents of a lock file. -/
structure Json where
  toVecPretty : LockData → List UInt8
  fromStr : List UInt8 → Option LockData

/-- What is written is read back, and nothing of it while a part is missing. -/
structure Json.Faithful (json : Json) : Prop where
  read : ∀ data, json.fromStr (json.toVecPretty data) = some data
  torn : ∀ data part, part <+: json.toVecPretty data →
    part ≠ json.toVecPretty data → json.fromStr part = none

/-- The host: its name, whether `kill(pid, 0)` finds a process, and how long ago
a text says it was. -/
structure Host where
  hostname : String
  kill : UInt32 → Bool
  lockAgeSecs : String → Option Int

def Host.pidAlive (host : Host) (pid : UInt32) : Bool :=
  pid = 0 || host.kill pid

inductive StaleDecision where
  | reclaim (reason : String)
  | conflict (extra : Option String)

def classify (host : Host) : Option LockData → StaleDecision
  | none => .conflict (some
      ("the lock file could not be read (it may be corrupt, or another " ++
        "process is writing it right now). Check it by hand and delete the " ++
        "lock file if it's safe to"))
  | some h =>
      if h.hostname ≠ host.hostname then .conflict (some
        ("this is another host's ('" ++ h.hostname ++ "') lock — this host " ++
          "will not reclaim it automatically. Check whether that host's " ++
          "operation has finished"))
      else if host.pidAlive h.pid = false then .reclaim
        ("the process holding the lock (pid " ++ toString h.pid ++
          ") no longer exists")
      else if (host.lockAgeSecs h.startedAt).any (STALE_AGE_SECS < ·) then
        .conflict (some
          ("the lock has been held for over 24 hours (pid " ++
            toString h.pid ++ " is still alive) — it may be abnormally old, " ++
            "but since the process is alive it will not be released " ++
            "automatically. If that operation is stuck, kill the process and " ++
            "then delete the lock file"))
      else .conflict none

def conflictError (path : String) (holder : Option LockData)
    (extra : Option String) : String :=
  let msg :=
    match holder with
    | some h => "another instance of the same profile '" ++ h.profile ++
        "' is running (pid " ++ toString h.pid ++ ", started " ++ h.startedAt ++
        "). Wait for it to finish, or stop that operation"
    | none => "another instance holds the lock '" ++ path ++ "'"
  msg ++ ((extra.map fun extra => ". " ++ extra).getD "") ++
    " (lock file: " ++ path ++ ")"

/-- Where a process is in `acquire_in`, or with its guard. -/
inductive Phase where
  | idle
  | creating (again : Bool)
  | writing (data : LockData) (written : Nat)
  | cleaning (e : String)
  | reading
  | removing
  | rereading
  | holding (data : LockData)
  /-- Another instance holds the lock. -/
  | refused (message : String)
  | failed (err : XBackupError)

/-- The lock file, and which process created it; none for the one that was left
by a dead process. -/
structure LockFile (ι : Type) where
  creator : Option ι
  contents : List UInt8

structure State (ι : Type) where
  file : Option (LockFile ι)
  phase : ι → Phase

/-- A step of a process.  A removal may fail, which no caller looks at. -/
inductive Label (ι : Type) where
  | start (p : ι)
  | create (p : ι) (startedAt : String)
  | createFails (p : ι) (e : String)
  | write (p : ι) (n : Nat)
  | writeFails (p : ι) (e : String)
  | clean (p : ι) (done : Bool)
  | read (p : ι)
  | remove (p : ι) (done : Bool)
  | reread (p : ι)
  | release (p : ι) (done : Bool)

section Step

variable {ι : Type} [DecidableEq ι] (json : Json) (host : Host)
  (profile path : String) (pid : ι → UInt32)

/-- A process goes on, and nothing else changes. -/
def State.goes (st : State ι) (p : ι) (phase : Phase) : State ι :=
  { st with phase := Function.update st.phase p phase }

/-- A process removes what is at the path, whatever it is. -/
def State.removed (st : State ι) (done : Bool) : State ι :=
  { st with file := if done then none else st.file }

def LockData.forCurrent (p : ι) (startedAt : String) : LockData :=
  ⟨pid p, startedAt, profile, host.hostname⟩

def readHolder (file : Option (LockFile ι)) : Option LockData :=
  file.bind fun file => json.fromStr file.contents

/-- So many bytes are in the file that the process created, wherever it is. -/
def State.written (st : State ι) (p : ι) (bytes : List UInt8) : State ι :=
  { st with file := st.file.map fun file =>
      if file.creator = some p then { file with contents := bytes } else file }

def step (st : State ι) : Label ι → Option (State ι)
  | .start p =>
      match st.phase p with
      | .idle => some (st.goes p (.creating false))
      | .refused _ => some (st.goes p (.creating false))
      | .failed _ => some (st.goes p (.creating false))
      | _ => none
  | .create p startedAt =>
      match st.phase p with
      | .creating again =>
          match st.file with
          | some _ => some (st.goes p (if again then .rereading else .reading))
          | none =>
              let data := LockData.forCurrent host profile pid p startedAt
              some (State.goes ⟨some ⟨some p, []⟩, st.phase⟩ p
                (.writing data 0))
      | _ => none
  | .createFails p e =>
      match st.phase p with
      | .creating _ => some (st.goes p (.failed (.failure
          ("failed to create the lock file (" ++ path ++ "): " ++ e))))
      | _ => none
  | .write p n =>
      match st.phase p with
      | .writing data written =>
          let bytes := json.toVecPretty data
          let st := st.written p (bytes.take (written + n))
          some (st.goes p
            (if bytes.length ≤ written + n then .holding data
            else .writing data (written + n)))
      | _ => none
  | .writeFails p e =>
      match st.phase p with
      | .writing _ _ => some (st.goes p (.cleaning e))
      | _ => none
  | .clean p done =>
      match st.phase p with
      | .cleaning e => some ((st.removed done).goes p (.failed (.failure
          ("failed to write the lock metadata (" ++ path ++ "): " ++ e))))
      | _ => none
  | .read p =>
      match st.phase p with
      | .reading =>
          let holder := readHolder json st.file
          match classify host holder with
          | .reclaim _ => some (st.goes p .removing)
          | .conflict extra =>
              some (st.goes p (.refused (conflictError path holder extra)))
      | _ => none
  | .remove p done =>
      match st.phase p with
      | .removing => some ((st.removed done).goes p (.creating true))
      | _ => none
  | .reread p =>
      match st.phase p with
      | .rereading => some (st.goes p (.refused
          (conflictError path (readHolder json st.file) none)))
      | _ => none
  | .release p done =>
      match st.phase p with
      | .holding _ => some ((st.removed done).goes p .idle)
      | _ => none

end Step

end Lock

end XBackup
