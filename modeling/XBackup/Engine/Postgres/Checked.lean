/-
The decoder of pgoutput messages with every addition checked: where a sum leaves
its type the decoder panics, as it does in a build with overflow checks.
-/
import XBackup.Engine.Postgres.Messages
import XBackup.Foundation.ReaderLanguage

namespace XBackup

namespace Postgres

open Bytes Parsing

namespace Checked

open Cur (asUsize asChar byte)

/-- The sum of `usize` values. -/
def add (left right : Nat) : CurM Nat :=
  if left + right < 2 ^ 64 then pure (left + right) else throw .panicked

def need (n : Nat) : CurM Unit := do
  let c ← get
  let stop ← add c.i n
  if c.b.length < stop then
    throw (.error (.failure "the pgoutput message was truncated"))

def slice (n : Nat) : CurM (List UInt8) := do
  let c ← get
  let stop ← add c.i n
  if stop < c.i ∨ c.b.length < stop then throw .panicked
  else
    set (Cur.mk c.b stop)
    pure ((c.b.drop c.i).take n)

def bytes (n : Nat) : CurM (List UInt8) := do
  need n
  slice n

def u8 : CurM UInt8 := do
  let taken ← bytes 1
  pure (taken.headD 0)

def i16 : CurM Int := do
  let taken ← bytes 2
  pure (signed 16 (ofBigEndian taken))

def i32 : CurM Int := do
  let taken ← bytes 4
  pure (signed 32 (ofBigEndian taken))

def i64 : CurM Int64 := do
  let taken ← bytes 8
  pure (UInt64.ofNat (ofBigEndian taken)).toInt64

def step (n : Nat) : CurM Unit := do
  let c ← get
  let stop ← add c.i n
  set (Cur.mk c.b stop)

def skip (n : Nat) : CurM Unit := do
  need n
  step n

def cstr : CurM String := do
  let c ← get
  let text := (c.b.drop c.i).takeWhile fun byte => byte ≠ 0
  set (Cur.mk c.b (c.i + text.length))
  -- the NUL
  need 1
  step 1
  pure (fromUtf8Lossy text)

/-- The value of a column, and whether it was left out as unchanged. -/
def column : CurM (Option String × Bool) := do
  let kind ← u8
  if kind = byte 'n' then pure (none, false)
  else if kind = byte 'u' then pure (none, true)
  else if kind = byte 't' then
    let len ← i32
    let text ← bytes (asUsize len)
    pure (some (fromUtf8Lossy text), false)
  else
    throw (.error (.failure
      ("pgoutput tuple: unknown column kind " ++ asChar kind)))

def tuple : CurM (List (Option String) × List Bool) := do
  let n ← i16
  let columns ← times column n.toNat
  pure (columns.map Prod.fst, columns.map Prod.snd)

def relationColumn : CurM (String × Bool) := do
  let flags ← u8
  let name ← cstr
  -- the type and its modifier
  skip 8
  pure (name, flags &&& 1 = 1)

/-- The old tuple of an update, if it has one, and the tag behind it. -/
def oldTuple (first : UInt8) : CurM (List (Option String) × UInt8) :=
  if first = byte 'K' ∨ first = byte 'O' then do
    let (keyVals, _) ← tuple
    let tag ← u8
    pure (keyVals, tag)
  else pure ([], first)

def EPOCH_MICROS : Int64 := PG_EPOCH_UNIX_SECS * 1000000

def commitMicros (pgMicros : Int64) : CurM Int64 :=
  if pgMicros.toInt + EPOCH_MICROS.toInt < 2 ^ 63 then
    pure (pgMicros + EPOCH_MICROS)
  else throw .panicked

def message (d : Decoder) : CurM (Option Change × Decoder) := do
  let tag ← u8
  if tag = byte 'B' then
    skip 8
    let pgMicros ← i64
    let micros ← commitMicros pgMicros
    pure (none, { d with curCommitMicros := micros })
  else if tag = byte 'C' then pure (none, d)
  else if tag = byte 'R' then
    let relId ← i32
    let schema ← cstr
    let table ← cstr
    skip 1
    let ncol ← i16
    let cols ← times relationColumn ncol.toNat
    pure (none, { d with rels := (relId, ⟨schema, table, cols⟩) :: d.rels })
  else if tag = byte 'I' then
    let relId ← i32
    skip 1
    let (newVals, newUnchanged) ← tuple
    let rel ← d.rel relId
    pure (some (d.make rel .insert newVals newUnchanged []), d)
  else if tag = byte 'U' then
    let relId ← i32
    let first ← u8
    let (keyVals, tag) ← oldTuple first
    if tag ≠ byte 'N' then
      throw (.error (.failure
        ("pgoutput UPDATE: unexpected tuple tag " ++ asChar tag)))
    else
      let (newVals, newUnchanged) ← tuple
      let rel ← d.rel relId
      pure (some (d.make rel .update newVals newUnchanged keyVals), d)
  else if tag = byte 'D' then
    let relId ← i32
    skip 1
    let (keyVals, _) ← tuple
    let rel ← d.rel relId
    pure (some (d.make rel .delete [] [] keyVals), d)
  -- types, origins, truncations and others are passed over
  else pure (none, d)

def feed (d : Decoder) (data : List UInt8) :
    Except Halt (Option Change × Decoder) :=
  ((message d).run ⟨data, 0⟩).map Prod.fst

end Checked

section Refines

variable {α β : Type}

/-- A checked reader does what the other does, or it panics. -/
def Refines (checked plain : CurM α) : Prop :=
  ∀ c, checked c = .error .panicked ∨ checked c = plain c

theorem Refines.refl (reader : CurM α) : Refines reader reader :=
  fun _ => .inr rfl

theorem Refines.bind {first plain : CurM α} {next after : α → CurM β}
    (hfirst : Refines first plain) (hnext : ∀ value, Refines (next value)
      (after value)) : Refines (first >>= next) (plain >>= after) := by
  intro c
  simp only [Bind.bind, StateT.bind]
  rcases hfirst c with hpanic | hsame
  · left
    rw [hpanic]
    rfl
  · rw [hsame]
    cases plain c with
    | error e => exact .inr rfl
    | ok pair => exact hnext pair.1 pair.2

theorem Refines.bind_pure {first plain : CurM α} (hfirst : Refines first plain)
    (result : α → β) :
    Refines (first >>= fun value => pure (result value))
      (plain >>= fun value => pure (result value)) :=
  hfirst.bind fun _ => .refl _

theorem Refines.ite {c : Prop} [Decidable c] {first plain other rest : CurM α}
    (hyes : Refines first plain) (hno : Refines other rest) :
    Refines (if c then first else other) (if c then plain else rest) := by
  by_cases hc : c
  · rwa [if_pos hc, if_pos hc]
  · rwa [if_neg hc, if_neg hc]

theorem Refines.times {first plain : CurM α} (hfirst : Refines first plain)
    (n : Nat) : Refines (times first n) (times plain n) := by
  induction n with
  | zero => exact .refl _
  | succ n ih => exact hfirst.bind fun value => ih.bind_pure fun values =>
      value :: values

theorem add_cases (left right : Nat) :
    Checked.add left right = throw .panicked ∨
      Checked.add left right = pure (Cur.usizeAdd left right) := by
  rw [Checked.add, Cur.usizeAdd]
  by_cases hfits : left + right < 2 ^ 64
  · right
    rw [if_pos hfits, Nat.mod_eq_of_lt hfits]
  · left
    rw [if_neg hfits]

theorem refines_need (n : Nat) : Refines (Checked.need n) (Cur.need n) := by
  refine (Refines.refl get).bind fun c => ?_
  rcases add_cases c.i n with hadd | hadd
  · rw [hadd]
    exact fun _ => .inl rfl
  · rw [hadd]
    exact .refl _

theorem refines_slice (n : Nat) : Refines (Checked.slice n) (Cur.slice n) := by
  refine (Refines.refl get).bind fun c => ?_
  rcases add_cases c.i n with hadd | hadd
  · rw [hadd]
    exact fun _ => .inl rfl
  · rw [hadd]
    exact .refl _

theorem refines_bytes (n : Nat) : Refines (Checked.bytes n) (Cur.bytes n) :=
  (refines_need n).bind fun _ => refines_slice n

theorem refines_u8 : Refines Checked.u8 Cur.u8 :=
  (refines_bytes 1).bind_pure _

theorem refines_i16 : Refines Checked.i16 Cur.i16 :=
  (refines_bytes 2).bind_pure _

theorem refines_i32 : Refines Checked.i32 Cur.i32 :=
  (refines_bytes 4).bind_pure _

theorem refines_i64 : Refines Checked.i64 Cur.i64 :=
  (refines_bytes 8).bind_pure _

theorem refines_step (n : Nat) :
    Refines (Checked.step n) (modify fun c => ⟨c.b, Cur.usizeAdd c.i n⟩) := by
  intro c
  rcases add_cases c.i n with hadd | hadd
  · left
    simp only [Checked.step, Bind.bind, StateT.bind, get, getThe,
      MonadStateOf.get, StateT.get, Pure.pure, Except.pure, Except.bind, hadd]
    rfl
  · right
    simp only [Checked.step, Bind.bind, StateT.bind, get, getThe,
      MonadStateOf.get, StateT.get, Pure.pure, Except.pure, Except.bind, hadd]
    rfl

theorem refines_skip (n : Nat) : Refines (Checked.skip n) (Cur.skip n) :=
  (refines_need n).bind fun _ => refines_step n

theorem refines_cstr : Refines Checked.cstr Cur.cstr :=
  (Refines.refl get).bind fun _ => (Refines.refl _).bind fun _ =>
    (refines_need 1).bind fun _ => (refines_step 1).bind fun _ => .refl _

theorem refines_column : Refines Checked.column Cur.column :=
  refines_u8.bind fun _ => .ite (.refl _) (.ite (.refl _)
    (.ite (refines_i32.bind fun _ => (refines_bytes _).bind_pure _) (.refl _)))

theorem refines_tuple : Refines Checked.tuple Cur.tuple :=
  refines_i16.bind fun _ => (refines_column.times _).bind_pure _

theorem refines_relationColumn :
    Refines Checked.relationColumn Decoder.relationColumn :=
  refines_u8.bind fun _ => refines_cstr.bind fun _ =>
    (refines_skip 8).bind fun _ => .refl _

theorem refines_oldTuple (first : UInt8) :
    Refines (Checked.oldTuple first) (Decoder.oldTuple first) :=
  .ite (refines_tuple.bind fun _ => refines_u8.bind_pure _) (.refl _)

theorem refines_commitMicros (pgMicros : Int64) :
    Refines (Checked.commitMicros pgMicros)
      (pure (pgMicros + PG_EPOCH_UNIX_SECS * 1000000)) := by
  rw [Checked.commitMicros]
  split
  next => exact .refl _
  next => exact fun _ => .inl rfl

theorem refines_message (d : Decoder) :
    Refines (Checked.message d) d.message := by
  refine refines_u8.bind fun tag => .ite ?_ (.ite (.refl _) (.ite ?_ (.ite ?_
    (.ite ?_ (.ite ?_ (.refl _))))))
  · exact (refines_skip 8).bind fun _ => refines_i64.bind fun pgMicros =>
      (refines_commitMicros pgMicros).bind_pure fun micros =>
        (none, { d with curCommitMicros := micros })
  · exact refines_i32.bind fun _ => refines_cstr.bind fun _ =>
      refines_cstr.bind fun _ => (refines_skip 1).bind fun _ =>
        refines_i16.bind fun _ => (refines_relationColumn.times _).bind_pure _
  · exact refines_i32.bind fun _ => (refines_skip 1).bind fun _ =>
      refines_tuple.bind fun _ => .refl _
  · refine refines_i32.bind fun _ => refines_u8.bind fun first =>
      (refines_oldTuple first).bind fun _ => .ite (.refl _) ?_
    exact refines_tuple.bind fun _ => .refl _
  · exact refines_i32.bind fun _ => (refines_skip 1).bind fun _ =>
      refines_tuple.bind fun _ => .refl _

/-- Where the checked decoder does not panic, the one of a release does the
same. -/
theorem feed_of_checked {d : Decoder} {data : List UInt8}
    (hfeed : Checked.feed d data ≠ .error .panicked) :
    d.feed data = Checked.feed d data := by
  rcases refines_message d ⟨data, 0⟩ with hpanic | hsame
  · refine absurd ?_ hfeed
    rw [Checked.feed, StateT.run, hpanic]
    rfl
  · rw [Checked.feed, StateT.run, hsame]
    rfl

end Refines

end Postgres

end XBackup
