/-
Which messages of a stream are heard: a row that is inserted, updated or deleted
comes out as a change, and whatever else is sent as nothing.
-/
import XBackup.Engine.Postgres.Apply
import XBackup.Engine.Postgres.Messages
import XBackup.Foundation.Fallible

namespace XBackup

namespace Postgres

open Bytes Cur Fallible

/-- The relation of which a message changes a row, and how. -/
def Message.row : Message → Option (Nat × Op)
  | .insert oid _ => some (oid, .insert)
  | .update oid _ _ => some (oid, .update)
  | .delete oid _ _ => some (oid, .delete)
  | _ => none

/-- The relation that a message describes. -/
def Message.described : Message → Option Nat
  | .relation oid _ _ _ _ => some oid
  | _ => none

/-- All rows of relations are removed. -/
def Message.truncate (options : UInt8) (oids : List Nat) : Message :=
  .other (byte 'T')
    (bigEndian 4 oids.length ++ (options :: oids.flatMap (bigEndian 4)))

/-- A message as a server sends it. -/
def Message.WellFormed (m : Message) : Prop :=
  m.Fits ∧ (∀ oid ∈ m.described, oid < 2 ^ 32) ∧ ∀ row ∈ m.row, row.1 < 2 ^ 32

/-- Every relation is described before a row of it is changed. -/
def Described (known : List Nat) : List Message → Prop
  | [] => True
  | m :: rest => (∀ row ∈ m.row, row.1 ∈ known) ∧
      Described (m.described.toList ++ known) rest

/-- What the decoder makes of the messages, one by one. -/
def Decoder.feedAll (d : Decoder) :
    List Message → Except Halt (List (Option Change) × Decoder)
  | [] => .ok ([], d)
  | m :: rest => do
      let (heard, next) ← d.feed m.encode
      let (others, last) ← next.feedAll rest
      return (heard :: others, last)

/-- A change is heard just of a message that changes a row, and tells how. -/
def Heard (m : Message) (heard : Option Change) : Prop :=
  heard.map Change.op = m.row.map Prod.snd

section Feed

variable {d : Decoder} {m : Message} {known : List Nat}
  {messages : List Message}

/-- The relations that were described are held. -/
def Holds (rels : List (Int × RelMeta)) (known : List Nat) : Prop :=
  ∀ oid ∈ known, ∃ found, rels.lookup (signed 32 oid) = some found

theorem Holds.cons {rels : List (Int × RelMeta)} {oid : Nat}
    {found : RelMeta} (hholds : Holds rels known) :
    Holds ((signed 32 oid, found) :: rels) (oid :: known) := by
  intro other hother
  rw [List.lookup_cons]
  cases hsame : signed 32 other == signed 32 oid with
  | true => exact ⟨found, rfl⟩
  | false =>
      rcases List.mem_cons.mp hother with rfl | hother
      · rw [beq_self_eq_true] at hsame
        cases hsame
      · exact hholds other hother

/-- One message. -/
theorem feed_heard (hwell : m.WellFormed) (hholds : Holds d.rels known)
    (hrow : ∀ row ∈ m.row, row.1 ∈ known) :
    ∃ heard next, d.feed m.encode = .ok (heard, next) ∧ Heard m heard ∧
      Holds next.rels (m.described.toList ++ known) := by
  obtain ⟨hfits, hdescribed, hlt⟩ := hwell
  cases m with
  | begin_ finalLsn commitTs xid =>
      exact ⟨none, _, feed_begin hfits, rfl, hholds⟩
  | commit body => exact ⟨none, d, feed_commit hfits, rfl, hholds⟩
  | relation oid schema table identity cols =>
      exact ⟨none, _, feed_relation (hdescribed oid rfl) hfits, rfl,
        hholds.cons⟩
  | insert oid new =>
      obtain ⟨found, hfound⟩ := hholds oid (hrow _ rfl)
      exact ⟨_, d, feed_insert (hlt _ rfl) hfits hfound, rfl, hholds⟩
  | update oid old new =>
      obtain ⟨found, hfound⟩ := hholds oid (hrow _ rfl)
      exact ⟨_, d, feed_update (hlt _ rfl) hfits hfound, rfl, hholds⟩
  | delete oid kind old =>
      obtain ⟨found, hfound⟩ := hholds oid (hrow _ rfl)
      exact ⟨_, d, feed_delete (hlt _ rfl) hfits hfound, rfl, hholds⟩
  | other tag body => exact ⟨none, d, feed_other hfits, rfl, hholds⟩

/-- A stream of messages. -/
theorem feedAll_heard (hwell : ∀ m ∈ messages, m.WellFormed)
    (hholds : Holds d.rels known) (hdescribed : Described known messages) :
    ∃ heard last, d.feedAll messages = .ok (heard, last) ∧
      List.Forall₂ Heard messages heard := by
  induction messages generalizing d known with
  | nil => exact ⟨[], d, rfl, .nil⟩
  | cons m rest ih =>
      obtain ⟨hfirst, hrest⟩ := List.forall_mem_cons.mp hwell
      obtain ⟨hrow, hlater⟩ := hdescribed
      obtain ⟨heard, next, hfeed, hheard, hnext⟩ :=
        feed_heard hfirst hholds hrow
      obtain ⟨others, last, hothers, hall⟩ := ih hrest hnext hlater
      refine ⟨heard :: others, last, ?_, .cons hheard hall⟩
      rw [Decoder.feedAll, hfeed]
      show (next.feedAll rest >>= fun _ => _) = _
      rw [hothers]
      rfl

end Feed

/-- What a replay leaves out: a row that no key finds, and an update with no
column to set. -/
def Change.Skipped (c : Change) (cols : List ColMeta) : Prop :=
  (c.op ≠ .insert ∧ true ∉ c.keycols) ∨
    (c.op = .update ∧ ∀ i < c.colnames.length,
      (cols.getD i ⟨"", false⟩).generatedAlways = true ∨
        c.newUnchanged.getD i false = true)

section Replay

variable {c : Change} {cols : List ColMeta}

theorem true_notMem_of_isEmpty {flags : List Bool}
    (hempty : ((List.range flags.length).filter fun i =>
      flags.getD i false).isEmpty = true) : true ∉ flags := by
  intro hmem
  obtain ⟨i, hi, htrue⟩ := List.getElem_of_mem hmem
  rw [List.isEmpty_iff, List.filter_eq_nil_iff] at hempty
  refine hempty i (List.mem_range.mpr hi) ?_
  rw [List.getD_eq_getElem _ _ hi, htrue]

theorem skipped_of_buildDml (hlength : c.colnames.length = cols.length)
    (hnone : buildDml c cols = none) : c.Skipped cols := by
  rw [buildDml, if_neg (not_not_intro hlength)] at hnone
  dsimp only at hnone
  cases hop : c.op with
  | insert => simp only [hop] at hnone; cases hnone
  | update =>
      simp only [hop] at hnone
      split at hnone
      next hempty =>
        exact Or.inl ⟨hop ▸ nofun, true_notMem_of_isEmpty hempty⟩
      next =>
        split at hnone
        next hempty =>
          refine Or.inr ⟨hop, fun i hi => ?_⟩
          rw [List.isEmpty_iff, List.filter_eq_nil_iff] at hempty
          by_contra hset
          obtain ⟨hgenerated, hunchanged⟩ := not_or.mp hset
          refine hempty i (List.mem_filter.mpr ⟨List.mem_range.mpr hi, ?_⟩) ?_
          · simpa using hgenerated
          · simpa using hunchanged
        next => cases hnone
  | delete =>
      simp only [hop] at hnone
      split at hnone
      next hempty =>
        exact Or.inl ⟨hop ▸ nofun, true_notMem_of_isEmpty hempty⟩
      next => cases hnone

variable {σ : Type} {client : Client σ} {st next : ApplyState σ}

/-- A change is executed, or it is one that is left out. -/
theorem executed_or_skipped (happly : applyChange client none st c = .ok next) :
    ∃ cols, (∃ dml, buildDml c cols = some dml ∧
        client.execute st.server dml = .ok next.server) ∨
      (c.Skipped cols ∧ next.server = st.server) := by
  simp only [applyChange, Option.any_none, Bool.false_eq_true, if_false]
    at happly
  split at happly
  next => cases happly
  next map metaCache hfetch =>
    split at happly
    next => cases happly
    next cols hcols =>
      refine ⟨cols, ?_⟩
      split at happly
      next hnone =>
        cases happly
        exact Or.inr ⟨skipped_of_buildDml (length_of_mapM hcols).symm hnone, rfl⟩
      next dml hdml =>
        split at happly
        next => cases happly
        next server hserver =>
          cases happly
          exact Or.inl ⟨dml, hdml, hserver⟩

end Replay

section Notes

/-- A row is inserted, and all rows are removed. -/
def clearedNotes : List Message :=
  [.relation 16384 "public" "notes" (byte 'd') [⟨true, "id", 25, 0⟩],
    .insert 16384 [.text "1"], .truncate 0 [16384], .commit []]

theorem clearedNotes_wellFormed : ∀ m ∈ clearedNotes, m.WellFormed := by
  have hlt : (16384 : Nat) < 2 ^ 32 := by decide
  rw [clearedNotes, List.forall_mem_cons, List.forall_mem_cons,
    List.forall_mem_cons, List.forall_mem_singleton]
  exact ⟨⟨by decide, by simp [Message.described], nofun⟩,
    ⟨by decide, nofun, by simp [Message.row]⟩,
    ⟨by decide, nofun, nofun⟩, ⟨by decide, nofun, nofun⟩⟩

theorem clearedNotes_described : Described [] clearedNotes := by
  simp [clearedNotes, Described, Message.row, Message.described,
    Message.truncate]

end Notes

end Postgres

end XBackup
