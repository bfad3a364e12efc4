/-
The pgoutput messages a server writes, and what the decoder makes of each of
them.
-/
import XBackup.Engine.Postgres.Pgoutput

namespace XBackup

namespace Postgres

open Bytes Parsing Cur

/-- A column of a tuple as it is sent. -/
inductive ColumnData where
  | null
  | unchanged
  | text (value : String)
deriving DecidableEq, Repr

structure RelationColumn where
  key : Bool
  name : String
  typeOid : Nat
  typeModifier : Nat
deriving DecidableEq, Repr

/-- Which columns an old tuple holds. -/
inductive OldTuple where
  | key
  | full
deriving DecidableEq, Repr

/-- Protocol version 1; of a commit only the tag is read.  Types, origins and
what else has another tag are passed over. -/
inductive Message where
  | begin_ (finalLsn : Nat) (commitTs : Int64) (xid : Nat)
  | commit (body : List UInt8)
  | relation (oid : Nat) (schema table : String) (identity : UInt8)
      (cols : List RelationColumn)
  | insert (oid : Nat) (new : List ColumnData)
  | update (oid : Nat) (old : Option (OldTuple × List ColumnData))
      (new : List ColumnData)
  | delete (oid : Nat) (kind : OldTuple) (old : List ColumnData)
  | other (tag : UInt8) (body : List UInt8)
deriving DecidableEq, Repr

def cstring (text : String) : List UInt8 :=
  utf8 text ++ [0]

namespace ColumnData

def encode : ColumnData → List UInt8
  | null => [byte 'n']
  | unchanged => [byte 'u']
  | text value =>
      [byte 't'] ++ (bigEndian 4 (utf8 value).length ++ utf8 value)

def value : ColumnData → Option String
  | text value => some value
  | _ => none

def isUnchanged : ColumnData → Bool
  | unchanged => true
  | _ => false

end ColumnData

def encodeTuple (columns : List ColumnData) : List UInt8 :=
  bigEndian 2 columns.length ++ columns.flatMap ColumnData.encode

def RelationColumn.encode (col : RelationColumn) : List UInt8 :=
  [if col.key then 1 else 0] ++ (cstring col.name ++
    (bigEndian 4 col.typeOid ++ bigEndian 4 col.typeModifier))

def OldTuple.tag : OldTuple → UInt8
  | key => byte 'K'
  | full => byte 'O'

def encodeOld : Option (OldTuple × List ColumnData) → List UInt8
  | none => []
  | some (kind, old) => [kind.tag] ++ encodeTuple old

def Message.encode : Message → List UInt8
  | .begin_ finalLsn commitTs xid =>
      [byte 'B'] ++ (bigEndian 8 finalLsn ++
        (bigEndian 8 commitTs.toUInt64.toNat ++ bigEndian 4 xid))
  | .commit body => [byte 'C'] ++ body
  | .relation oid schema table identity cols =>
      [byte 'R'] ++ (bigEndian 4 oid ++ (cstring schema ++ (cstring table ++
        ([identity] ++ (bigEndian 2 cols.length ++
          cols.flatMap RelationColumn.encode)))))
  | .insert oid new =>
      [byte 'I'] ++ (bigEndian 4 oid ++ ([byte 'N'] ++ encodeTuple new))
  | .update oid old new =>
      [byte 'U'] ++ (bigEndian 4 oid ++
        (encodeOld old ++ ([byte 'N'] ++ encodeTuple new)))
  | .delete oid kind old =>
      [byte 'D'] ++ (bigEndian 4 oid ++ ([kind.tag] ++ encodeTuple old))
  | .other tag body => [tag] ++ body

/-- The limits of a server: a message is shorter than 2 GiB, a table has fewer
than 2¹⁵ columns, and no name holds a NUL. -/
def Message.Fits (m : Message) : Prop :=
  m.encode.length < 2 ^ 31 ∧
    match m with
    | .begin_ _ _ _ => True
    | .commit _ => True
    | .relation _ schema table _ cols =>
        0 ∉ utf8 schema ∧ 0 ∉ utf8 table ∧ cols.length < 2 ^ 15 ∧
          ∀ col ∈ cols, 0 ∉ utf8 col.name
    | .insert _ new => new.length < 2 ^ 15
    | .update _ old new =>
        (∀ tuple ∈ old, tuple.2.length < 2 ^ 15) ∧ new.length < 2 ^ 15
    | .delete _ _ old => old.length < 2 ^ 15
    | .other tag _ => tag ∉ ['B', 'C', 'R', 'I', 'U', 'D'].map byte

instance : (m : Message) → Decidable m.Fits
  | .begin_ _ _ _ => inferInstanceAs (Decidable (_ ∧ True))
  | .commit _ => inferInstanceAs (Decidable (_ ∧ True))
  | .relation _ schema table _ cols =>
      inferInstanceAs (Decidable (_ ∧ 0 ∉ utf8 schema ∧ 0 ∉ utf8 table ∧
        cols.length < 2 ^ 15 ∧ ∀ col ∈ cols, 0 ∉ utf8 col.name))
  | .insert _ new => inferInstanceAs (Decidable (_ ∧ new.length < 2 ^ 15))
  | .update _ none new =>
      inferInstanceAs (Decidable (_ ∧ (∀ tuple ∈ none, _) ∧
        new.length < 2 ^ 15))
  | .update _ (some old) new =>
      inferInstanceAs (Decidable (_ ∧ (∀ tuple ∈ some old, _) ∧
        new.length < 2 ^ 15))
  | .delete _ _ old => inferInstanceAs (Decidable (_ ∧ old.length < 2 ^ 15))
  | .other tag _ =>
      inferInstanceAs (Decidable
        (_ ∧ tag ∉ ['B', 'C', 'R', 'I', 'U', 'D'].map byte))

/-- The cursor stands before `tail`. -/
def Shows (c : Cur) (tail : List UInt8) : Prop :=
  c.b.drop c.i = tail ∧ c.i ≤ c.b.length ∧ c.b.length < 2 ^ 63

section Rules

theorem Shows.length {c : Cur} {taken tail : List UInt8}
    (hshows : Shows c (taken ++ tail)) :
    c.i + taken.length ≤ c.b.length := by
  obtain ⟨hdrop, hle, -⟩ := hshows
  have hlength := congrArg List.length hdrop
  rw [List.length_drop, List.length_append] at hlength
  omega

theorem Shows.usizeAdd {c : Cur} {taken tail : List UInt8}
    (hshows : Shows c (taken ++ tail)) :
    usizeAdd c.i taken.length = c.i + taken.length := by
  have hlength := hshows.length
  have hbound := hshows.2.2
  rw [Cur.usizeAdd]
  omega

theorem Shows.behind {c : Cur} {taken tail : List UInt8}
    (hshows : Shows c (taken ++ tail)) :
    Shows ⟨c.b, c.i + taken.length⟩ tail := by
  refine ⟨?_, hshows.length, hshows.2.2⟩
  rw [← List.drop_drop, hshows.1, List.drop_left]

theorem reads_need (taken : List UInt8) {c : Cur} {tail : List UInt8}
    (hshows : Shows c (taken ++ tail)) :
    need taken.length c = .ok ((), c) := by
  have hlength := hshows.length
  have hbound := hshows.usizeAdd
  have henough : ¬ c.b.length < usizeAdd c.i taken.length := by omega
  simp only [need, get, getThe, MonadStateOf.get, StateT.get, Bind.bind,
    StateT.bind, Pure.pure, StateT.pure, Except.pure, Except.bind,
    if_neg henough]

theorem reads_slice (taken : List UInt8) {c : Cur} {tail : List UInt8}
    (hshows : Shows c (taken ++ tail)) :
    slice taken.length c = .ok (taken, ⟨c.b, c.i + taken.length⟩) := by
  have hlength := hshows.length
  have hstop := hshows.usizeAdd
  have hinside : ¬ (c.i + taken.length < c.i ∨
      c.b.length < c.i + taken.length) := by
    omega
  have htaken : (c.b.drop c.i).take taken.length = taken := by
    rw [hshows.1, List.take_left]
  simp only [slice, get, getThe, MonadStateOf.get, StateT.get, Bind.bind,
    StateT.bind, Pure.pure, StateT.pure, Except.pure, Except.bind, hstop,
    if_neg hinside, set, StateT.set, htaken]

theorem reads_bytes (taken : List UInt8) :
    Reads Shows (bytes taken.length) taken taken := by
  intro c tail hshows
  refine ⟨⟨c.b, c.i + taken.length⟩, ?_, hshows.behind⟩
  simp only [bytes, Bind.bind, StateT.bind, reads_need taken hshows,
    Except.bind, reads_slice taken hshows]

theorem reads_u8 (value : UInt8) : Reads Shows u8 [value] value := by
  exact (reads_bytes [value]).bind_pure _

theorem reads_i16 {n : Nat} (hn : n < 2 ^ 15) :
    Reads Shows i16 (bigEndian 2 n) n := by
  have hbytes := reads_bytes (bigEndian 2 n)
  rw [length_bigEndian] at hbytes
  have hvalue : signed 16 (ofBigEndian (bigEndian 2 n)) = n := by
    rw [ofBigEndian_bigEndian, Nat.mod_eq_of_lt (by omega),
      signed_of_lt (by omega)]
  rw [← hvalue]
  exact hbytes.bind_pure _

theorem reads_i32 {n : Nat} (hn : n < 2 ^ 32) :
    Reads Shows i32 (bigEndian 4 n) (signed 32 n) := by
  have hbytes := reads_bytes (bigEndian 4 n)
  rw [length_bigEndian] at hbytes
  have hvalue : ofBigEndian (bigEndian 4 n) = n := by
    rw [ofBigEndian_bigEndian, Nat.mod_eq_of_lt (by omega)]
  have hread : Reads Shows i32 (bigEndian 4 n)
      (signed 32 (ofBigEndian (bigEndian 4 n))) := hbytes.bind_pure _
  rwa [hvalue] at hread

theorem reads_i64 (value : Int64) :
    Reads Shows i64 (bigEndian 8 value.toUInt64.toNat) value := by
  have hbytes := reads_bytes (bigEndian 8 value.toUInt64.toNat)
  rw [length_bigEndian] at hbytes
  have hvalue : (UInt64.ofNat (ofBigEndian
      (bigEndian 8 value.toUInt64.toNat))).toInt64 = value := by
    have hsize : value.toUInt64.toNat < 256 ^ 8 := value.toUInt64.toNat_lt_size
    rw [ofBigEndian_bigEndian, Nat.mod_eq_of_lt hsize, UInt64.ofNat_toNat]
    rfl
  have hread : Reads Shows i64 (bigEndian 8 value.toUInt64.toNat)
      (UInt64.ofNat (ofBigEndian
        (bigEndian 8 value.toUInt64.toNat))).toInt64 := hbytes.bind_pure _
  rwa [hvalue] at hread

theorem reads_skip (taken : List UInt8) :
    Reads Shows (skip taken.length) taken () := by
  intro c tail hshows
  refine ⟨⟨c.b, c.i + taken.length⟩, ?_, hshows.behind⟩
  simp only [skip, Bind.bind, StateT.bind, reads_need taken hshows,
    Except.bind, modify, modifyGet, MonadStateOf.modifyGet, StateT.modifyGet,
    Pure.pure, Except.pure, hshows.usizeAdd]

theorem reads_cstr {text : String} (htext : 0 ∉ utf8 text) :
    Reads Shows cstr (cstring text) text := by
  intro c tail hshows
  have hrest : Shows ⟨c.b, c.i + (utf8 text).length⟩ ([0] ++ tail) := by
    apply Shows.behind
    rwa [cstring, List.append_assoc] at hshows
  have htake : (c.b.drop c.i).takeWhile (fun byte => byte ≠ 0) =
      utf8 text := by
    rw [hshows.1, cstring, List.append_assoc,
      List.takeWhile_append_of_pos]
    · simp
    · intro byte hbyte
      exact decide_eq_true (ne_of_mem_of_not_mem hbyte htext)
  have hneed := reads_need [0] hrest
  have hbehind := hrest.usizeAdd
  rw [List.length_singleton] at hneed hbehind
  refine ⟨_, ?_, hrest.behind⟩
  simp only [cstr, get, getThe, MonadStateOf.get, StateT.get, Bind.bind,
    StateT.bind, Pure.pure, StateT.pure, Except.pure, Except.bind, set,
    StateT.set, htake, modify, modifyGet, MonadStateOf.modifyGet,
    StateT.modifyGet, fromUtf8Lossy_utf8]
  rw [hneed]
  simp only [hbehind, List.length_singleton]

/-- A part of a message is as short as the message. -/
theorem length_le_of_mem {α : Type} {items : List α} {item : α}
    {encode : α → List UInt8} (hitem : item ∈ items) :
    (encode item).length ≤ (items.flatMap encode).length := by
  rw [List.flatMap_def]
  exact (List.sublist_flatten_of_mem
    (List.mem_map_of_mem hitem)).length_le

theorem reads_column {col : ColumnData}
    (hcol : col.encode.length < 2 ^ 31) :
    Reads Shows column col.encode (col.value, col.isUnchanged) := by
  cases col with
  | null => exact (reads_u8 (byte 'n')).bind (reads_pure _)
  | unchanged => exact (reads_u8 (byte 'u')).bind (reads_pure _)
  | text value =>
      have hlength : (utf8 value).length < 2 ^ 31 := by
        simp only [ColumnData.encode, List.length_append] at hcol
        omega
      have hsize : asUsize (signed 32 (utf8 value).length) =
          (utf8 value).length := by
        rw [signed_of_lt (by omega), asUsize]
        omega
      refine (reads_u8 (byte 't')).bind ?_
      refine (reads_i32 (by omega)).bind ?_
      have htext := (reads_bytes (utf8 value)).bind_pure fun text =>
        (some (fromUtf8Lossy text), false)
      rw [fromUtf8Lossy_utf8] at htext
      rw [hsize]
      exact htext

theorem reads_tuple {columns : List ColumnData}
    (hcount : columns.length < 2 ^ 15)
    (hlength : (encodeTuple columns).length < 2 ^ 31) :
    Reads Shows tuple (encodeTuple columns)
      (columns.map ColumnData.value, columns.map ColumnData.isUnchanged) := by
  have hcolumns : ∀ col ∈ columns, Reads Shows column col.encode
      (col.value, col.isUnchanged) := by
    intro col hcol
    have hle := @length_le_of_mem _ _ _ ColumnData.encode hcol
    rw [encodeTuple, List.length_append] at hlength
    exact reads_column (by omega)
  refine (reads_i16 hcount).bind ?_
  have htimes := (reads_times hcolumns).bind_pure fun columns =>
    (columns.map Prod.fst, columns.map Prod.snd)
  rw [List.map_map, List.map_map] at htimes
  rw [Int.toNat_natCast]
  exact htimes

theorem reads_relationColumn {col : RelationColumn}
    (hname : 0 ∉ utf8 col.name) :
    Reads Shows Decoder.relationColumn col.encode (col.name, col.key) := by
  refine (reads_u8 _).bind ?_
  refine (reads_cstr hname).bind ?_
  have hskip := reads_skip
    (bigEndian 4 col.typeOid ++ bigEndian 4 col.typeModifier)
  rw [List.length_append, length_bigEndian, length_bigEndian] at hskip
  have hflag : decide ((if col.key then 1 else 0 : UInt8) &&& 1 = 1) =
      col.key := by
    cases col.key <;> rfl
  have hread := hskip.bind_pure fun _ => (col.name, col.key)
  rw [hflag]
  exact hread

end Rules

/-- The decoder's entry of a relation. -/
def relMeta (schema table : String) (cols : List RelationColumn) : RelMeta :=
  ⟨schema, table, cols.map fun col => (col.name, col.key)⟩

section Feed

variable {d : Decoder} {found : RelMeta} {oid : Nat}

theorem feed_of_reads {taken tail : List UInt8}
    {result : Option Change × Decoder}
    (hreads : Reads Shows (d.message) taken result)
    (hlength : (taken ++ tail).length < 2 ^ 31) :
    d.feed (taken ++ tail) = .ok result := by
  have hshows : Shows ⟨taken ++ tail, 0⟩ (taken ++ tail) :=
    ⟨rfl, Nat.zero_le _, by dsimp only; omega⟩
  obtain ⟨last, hlast, -⟩ := hreads _ _ hshows
  rw [Decoder.feed, StateT.run, hlast]
  rfl

theorem feed_begin {finalLsn xid : Nat} {commitTs : Int64}
    (hfits : (Message.begin_ finalLsn commitTs xid).Fits) :
    d.feed (Message.begin_ finalLsn commitTs xid).encode =
      .ok (none, { d with
        curCommitMicros := commitTs + PG_EPOCH_UNIX_SECS * 1000000 }) := by
  have hreads : Reads Shows d.message
      ([byte 'B'] ++ (bigEndian 8 finalLsn ++
        bigEndian 8 commitTs.toUInt64.toNat))
      (none, { d with
        curCommitMicros := commitTs + PG_EPOCH_UNIX_SECS * 1000000 }) := by
    have hskip := reads_skip (bigEndian 8 finalLsn)
    rw [length_bigEndian] at hskip
    refine (reads_u8 _).bind ?_
    exact hskip.bind ((reads_i64 commitTs).bind_pure _)
  have hencode : (Message.begin_ finalLsn commitTs xid).encode =
      [byte 'B'] ++ (bigEndian 8 finalLsn ++
        bigEndian 8 commitTs.toUInt64.toNat) ++ bigEndian 4 xid := by
    simp [Message.encode]
  have hlength := hfits.1
  rw [hencode] at hlength ⊢
  exact feed_of_reads hreads hlength

theorem feed_commit {body : List UInt8} (hfits : (Message.commit body).Fits) :
    d.feed (Message.commit body).encode = .ok (none, d) := by
  apply feed_of_reads _ hfits.1
  exact (reads_u8 _).bind (reads_pure _)

theorem feed_other {tag : UInt8} {body : List UInt8}
    (hfits : (Message.other tag body).Fits) :
    d.feed (Message.other tag body).encode = .ok (none, d) := by
  apply feed_of_reads _ hfits.1
  have htag := hfits.2
  simp only [List.map_cons, List.map_nil, List.mem_cons, List.not_mem_nil,
    or_false, not_or] at htag
  obtain ⟨hbegin, hcommit, hrelation, hinsert, hupdate, hdelete⟩ := htag
  refine (reads_u8 tag).bind ?_
  rw [if_neg hbegin, if_neg hcommit, if_neg hrelation, if_neg hinsert,
    if_neg hupdate, if_neg hdelete]
  exact reads_pure _

theorem feed_relation {schema table : String} {identity : UInt8}
    {cols : List RelationColumn} (hoid : oid < 2 ^ 32)
    (hfits : (Message.relation oid schema table identity cols).Fits) :
    d.feed (Message.relation oid schema table identity cols).encode =
      .ok (none, { d with
        rels := (signed 32 oid, relMeta schema table cols) :: d.rels }) := by
  obtain ⟨hlength, hschema, htable, hcount, hnames⟩ := hfits
  rw [← List.append_nil (Message.encode _)] at hlength ⊢
  apply feed_of_reads _ hlength
  have hcols : ∀ col ∈ cols, Reads Shows Decoder.relationColumn col.encode
      (col.name, col.key) := fun col hcol =>
    reads_relationColumn (hnames col hcol)
  refine (reads_u8 _).bind ?_
  refine (reads_i32 hoid).bind ?_
  refine (reads_cstr hschema).bind ?_
  refine (reads_cstr htable).bind ?_
  refine (reads_skip [identity]).bind ?_
  refine (reads_i16 hcount).bind ?_
  rw [Int.toNat_natCast]
  exact (reads_times hcols).bind_pure _

theorem reads_rel (hfound : d.rels.lookup (signed 32 oid) = some found) :
    Reads Shows (d.rel (signed 32 oid)) [] found := by
  rw [Decoder.rel, hfound]
  exact reads_pure _

theorem reads_lastTuple {columns : List ColumnData}
    (hcount : columns.length < 2 ^ 15)
    (hlength : (encodeTuple columns).length < 2 ^ 31)
    (hfound : d.rels.lookup (signed 32 oid) = some found)
    (result : List (Option String) × List Bool → RelMeta → Change) :
    Reads Shows
      (tuple >>= fun columns => d.rel (signed 32 oid) >>= fun rel =>
        pure (some (result columns rel), d))
      (encodeTuple columns)
      (some (result (columns.map ColumnData.value,
        columns.map ColumnData.isUnchanged) found), d) := by
  rw [← List.append_nil (encodeTuple columns)]
  exact (reads_tuple hcount hlength).bind
    ((reads_rel hfound).bind_pure fun rel => (some (result _ rel), d))

theorem feed_insert {new : List ColumnData} (hoid : oid < 2 ^ 32)
    (hfits : (Message.insert oid new).Fits)
    (hfound : d.rels.lookup (signed 32 oid) = some found) :
    d.feed (Message.insert oid new).encode =
      .ok (some (d.make found .insert (new.map ColumnData.value)
        (new.map ColumnData.isUnchanged) []), d) := by
  obtain ⟨hlength, hcount⟩ := hfits
  have htuple : (encodeTuple new).length < 2 ^ 31 := by
    simp only [Message.encode, List.length_append] at hlength
    omega
  rw [← List.append_nil (Message.encode _)] at hlength ⊢
  apply feed_of_reads _ hlength
  refine (reads_u8 _).bind ?_
  refine (reads_i32 hoid).bind ?_
  refine (reads_skip [byte 'N']).bind ?_
  exact reads_lastTuple hcount htuple hfound fun columns rel =>
    d.make rel .insert columns.1 columns.2 []

theorem feed_delete {kind : OldTuple} {old : List ColumnData}
    (hoid : oid < 2 ^ 32) (hfits : (Message.delete oid kind old).Fits)
    (hfound : d.rels.lookup (signed 32 oid) = some found) :
    d.feed (Message.delete oid kind old).encode =
      .ok (some (d.make found .delete [] [] (old.map ColumnData.value)),
        d) := by
  obtain ⟨hlength, hcount⟩ := hfits
  have htuple : (encodeTuple old).length < 2 ^ 31 := by
    simp only [Message.encode, List.length_append] at hlength
    omega
  rw [← List.append_nil (Message.encode _)] at hlength ⊢
  apply feed_of_reads _ hlength
  refine (reads_u8 _).bind ?_
  refine (reads_i32 hoid).bind ?_
  refine (reads_skip [kind.tag]).bind ?_
  exact reads_lastTuple hcount htuple hfound fun columns rel =>
    d.make rel .delete [] [] columns.1

theorem reads_oldTuple {kind : OldTuple} {old : List ColumnData}
    (hcount : old.length < 2 ^ 15) (hlength : (encodeTuple old).length < 2 ^ 31) :
    Reads Shows (Decoder.oldTuple kind.tag) (encodeTuple old ++ [byte 'N'])
      (old.map ColumnData.value, byte 'N') := by
  have hkind : kind.tag = byte 'K' ∨ kind.tag = byte 'O' := by
    cases kind
    · exact Or.inl rfl
    · exact Or.inr rfl
  rw [Decoder.oldTuple, if_pos hkind]
  exact (reads_tuple hcount hlength).bind ((reads_u8 _).bind_pure _)

/-- Without an old tuple the changed row has the key of the new one. -/
theorem feed_update {old : Option (OldTuple × List ColumnData)}
    {new : List ColumnData} (hoid : oid < 2 ^ 32)
    (hfits : (Message.update oid old new).Fits)
    (hfound : d.rels.lookup (signed 32 oid) = some found) :
    d.feed (Message.update oid old new).encode =
      .ok (some (d.make found .update (new.map ColumnData.value)
        (new.map ColumnData.isUnchanged)
        (old.elim [] fun tuple => tuple.2.map ColumnData.value)), d) := by
  obtain ⟨hlength, hold, hcount⟩ := hfits
  have htuple : (encodeTuple new).length < 2 ^ 31 := by
    simp only [Message.encode, List.length_append] at hlength
    omega
  have holdLength : (encodeOld old).length < 2 ^ 31 := by
    simp only [Message.encode, List.length_append] at hlength
    omega
  rw [← List.append_nil (Message.encode _)] at hlength ⊢
  apply feed_of_reads _ hlength
  refine (reads_u8 _).bind ?_
  refine (reads_i32 hoid).bind ?_
  cases old with
  | none =>
      refine (reads_u8 (byte 'N')).bind ?_
      refine (reads_pure _).bind ?_
      exact reads_lastTuple hcount htuple hfound fun columns rel =>
        d.make rel .update columns.1 columns.2 []
  | some old =>
      obtain ⟨kind, old⟩ := old
      have holdTuple : (encodeTuple old).length < 2 ^ 31 := by
        rw [encodeOld, List.length_append] at holdLength
        omega
      have hbytes : encodeOld (some (kind, old)) ++
          ([byte 'N'] ++ encodeTuple new) =
            [kind.tag] ++ (encodeTuple old ++ [byte 'N'] ++
              encodeTuple new) := by
        simp [encodeOld]
      rw [hbytes]
      refine (reads_u8 _).bind ?_
      refine (reads_oldTuple (hold _ rfl) holdTuple).bind ?_
      exact reads_lastTuple hcount htuple hfound fun columns rel =>
        d.make rel .update columns.1 columns.2 (old.map ColumnData.value)

end Feed

end Postgres

end XBackup
