/-
The decoder of pgoutput messages: what a relation and a transaction say is held
and put into the changes that follow.
-/
import XBackup.Foundation.Bytes
import XBackup.Foundation.Parsing
import XBackup.Manifest.Schema

namespace XBackup

namespace Postgres

open Bytes Parsing

inductive Op where
  | insert
  | update
  | delete
deriving DecidableEq, Repr

structure Change where
  op : Op
  schema : String
  table : String
  colnames : List String
  keycols : List Bool
  newVals : List (Option String)
  /-- The columns whose value was not sent, as it did not change. -/
  newUnchanged : List Bool
  keyVals : List (Option String)
  commitUnixMicros : Int64
deriving DecidableEq, Repr

structure RelMeta where
  schema : String
  table : String
  cols : List (String × Bool)
deriving DecidableEq, Repr

def PG_EPOCH_UNIX_SECS : Int64 := 946684800

structure Decoder where
  rels : List (Int × RelMeta)
  curCommitMicros : Int64

def Decoder.new : Decoder := ⟨[], 0⟩

/-- Why a function did not return: an error, or a panic. -/
inductive Halt where
  | error (err : XBackupError)
  | panicked
deriving DecidableEq, Repr

structure Cur where
  b : List UInt8
  i : Nat

abbrev CurM := Parser Cur Halt

namespace Cur

/-- The sum of `usize` values. -/
def usizeAdd (left right : Nat) : Nat :=
  (left + right) % 2 ^ 64

def need (n : Nat) : CurM Unit := do
  let c ← get
  if c.b.length < usizeAdd c.i n then
    throw (.error (.failure "the pgoutput message was truncated"))

/-- The bytes from the position to `stop`, and the position behind. -/
def slice (n : Nat) : CurM (List UInt8) := do
  let c ← get
  let stop := usizeAdd c.i n
  if stop < c.i ∨ c.b.length < stop then throw .panicked
  else
    set (Cur.mk c.b stop)
    pure ((c.b.drop c.i).take n)

def bytes (n : Nat) : CurM (List UInt8) := do
  need n
  slice n

def u8 : CurM UInt8 := do
  let taken ← bytes 1
  pure (taken.headD 0)

def i16 : CurM Int := do
  let taken ← bytes 2
  pure (signed 16 (ofBigEndian taken))

def i32 : CurM Int := do
  let taken ← bytes 4
  pure (signed 32 (ofBigEndian taken))

def i64 : CurM Int64 := do
  let taken ← bytes 8
  pure (UInt64.ofNat (ofBigEndian taken)).toInt64

def skip (n : Nat) : CurM Unit := do
  need n
  modify fun c => ⟨c.b, usizeAdd c.i n⟩

def cstr : CurM String := do
  let c ← get
  let text := (c.b.drop c.i).takeWhile fun byte => byte ≠ 0
  set (Cur.mk c.b (c.i + text.length))
  -- the NUL
  need 1
  modify fun c => ⟨c.b, usizeAdd c.i 1⟩
  pure (fromUtf8Lossy text)

/-- `as usize` -/
def asUsize (n : Int) : Nat :=
  (n % 2 ^ 64).toNat

def asChar (byte : UInt8) : String :=
  String.singleton (Char.ofNat byte.toNat)

def byte (c : Char) : UInt8 :=
  UInt8.ofNat c.toNat

/-- The value of a column, and whether it was left out as unchanged. -/
def column : CurM (Option String × Bool) := do
  let kind ← u8
  if kind = byte 'n' then pure (none, false)
  else if kind = byte 'u' then pure (none, true)
  else if kind = byte 't' then
    let len ← i32
    let text ← bytes (asUsize len)
    pure (some (fromUtf8Lossy text), false)
  else
    throw (.error (.failure
      ("pgoutput tuple: unknown column kind " ++ asChar kind)))

def tuple : CurM (List (Option String) × List Bool) := do
  let n ← i16
  let columns ← times column n.toNat
  pure (columns.map Prod.fst, columns.map Prod.snd)

end Cur

namespace Decoder

open Cur

def rel (d : Decoder) (relId : Int) : CurM RelMeta :=
  match d.rels.lookup relId with
  | some found => pure found
  | none => throw (.error (.failure
      ("pgoutput: no metadata for rel_id " ++ toString relId ++
        " (missing Relation message)")))

def make (d : Decoder) (rel : RelMeta) (op : Op)
    (newVals : List (Option String)) (newUnchanged : List Bool)
    (keyVals : List (Option String)) : Change where
  op := op
  schema := rel.schema
  table := rel.table
  colnames := rel.cols.map Prod.fst
  keycols := rel.cols.map Prod.snd
  newVals := newVals
  newUnchanged := newUnchanged
  keyVals := keyVals
  commitUnixMicros := d.curCommitMicros

def relationColumn : CurM (String × Bool) := do
  let flags ← u8
  let name ← cstr
  -- the type and its modifier
  skip 8
  pure (name, flags &&& 1 = 1)

/-- The old tuple of an update, if it has one, and the tag behind it. -/
def oldTuple (first : UInt8) : CurM (List (Option String) × UInt8) :=
  if first = byte 'K' ∨ first = byte 'O' then do
    let (keyVals, _) ← tuple
    let tag ← u8
    pure (keyVals, tag)
  else pure ([], first)

/-- What one message does: the change it carries, and the decoder behind it. -/
def message (d : Decoder) : CurM (Option Change × Decoder) := do
  let tag ← u8
  if tag = byte 'B' then
    skip 8
    let pgMicros ← i64
    pure (none, { d with
      curCommitMicros := pgMicros + PG_EPOCH_UNIX_SECS * 1000000 })
  else if tag = byte 'C' then pure (none, d)
  else if tag = byte 'R' then
    let relId ← i32
    let schema ← cstr
    let table ← cstr
    skip 1
    let ncol ← i16
    let cols ← times relationColumn ncol.toNat
    pure (none, { d with rels := (relId, ⟨schema, table, cols⟩) :: d.rels })
  else if tag = byte 'I' then
    let relId ← i32
    skip 1
    let (newVals, newUnchanged) ← tuple
    let rel ← d.rel relId
    pure (some (d.make rel .insert newVals newUnchanged []), d)
  else if tag = byte 'U' then
    let relId ← i32
    let first ← u8
    let (keyVals, tag) ← oldTuple first
    if tag ≠ byte 'N' then
      throw (.error (.failure
        ("pgoutput UPDATE: unexpected tuple tag " ++ asChar tag)))
    else
      let (newVals, newUnchanged) ← tuple
      let rel ← d.rel relId
      pure (some (d.make rel .update newVals newUnchanged keyVals), d)
  else if tag = byte 'D' then
    let relId ← i32
    skip 1
    let (keyVals, _) ← tuple
    let rel ← d.rel relId
    pure (some (d.make rel .delete [] [] keyVals), d)
  -- types, origins, truncations and others are passed over
  else pure (none, d)

def feed (d : Decoder) (data : List UInt8) :
    Except Halt (Option Change × Decoder) :=
  ((message d).run ⟨data, 0⟩).map Prod.fst

end Decoder

end Postgres

end XBackup
