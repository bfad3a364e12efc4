/-
Increments applied again, to what they made or to a base that holds a part of
them already.
-/
import XBackup.Engine.Mysql.Reapply
import XBackup.Engine.Postgres.Reapply

namespace XBackup

open KeyedDatabase Rows Transition

namespace Postgres

variable (tables : Tables) (db : Database) (events : List ServerEvent)

/-- Rows keep their keys in a run, and no other unique key is handed over from
one of them to another. -/
structure KeepsKeys : Prop where
  keyed : ∀ t ∈ tables.defs, t.identity = .primaryKey
  admits : ∀ t ∈ tables.defs, admits t.rowSchema (db t.relation) = true
  steps : StepsMeet (serverStep tables) (KeepsKeyEvent tables) db events
  apart : AllApart (keyedTables tables) (HeldDuring tables db events)

def SameRows (left right : Database) : Prop :=
  ∀ t ∈ tables.defs, (left t.relation).Perm (right t.relation)

/-- The changes that are captured of a run, applied to a base that holds a part
of it, leave what the run left, and applied again change nothing. -/
def Reapplies : Prop :=
  ∀ front base last copy, front <+: events →
    run (serverStep tables) db front = some base →
    run (serverStep tables) db events = some last →
    SameRows tables copy base →
      ∃ changes, captureChanges Decoder.new
          ((messages tables db [] events).map Message.encode) = .ok changes ∧
        ∃ st, apply (copyOf tables) none copy changes = .ok st ∧
          SameRows tables st.server last ∧
          ∃ again, apply (copyOf tables) none st.server changes = .ok again ∧
            SameRows tables again.server st.server

end Postgres

namespace Mysql

variable (tables : Tables) (db : Database) (events : List SourceEvent)

/-- Rows keep their keys in a run, and no other unique key is handed over from
one of them to another. -/
structure KeepsKeys : Prop where
  keyed : ∀ t ∈ tables.defs, t.HasKey
  sound : ∀ t ∈ tables.defs, t.Sound (db t.name)
  steps : StepsMeet (serverStep tables) (KeepsKeyEvent tables) db events
  apart : AllApart (keyedTables tables) (HeldDuring tables db events)

def SameRows (left right : Database) : Prop :=
  ∀ t ∈ tables.defs, (left t.name).Perm (right t.name)

/-- The changes that are captured of a run, executed on a base that holds a part
of it, leave what the run left, and executed again change nothing. -/
def Reapplies (dbName : String) (scan : Nat → Database → Database) : Prop :=
  ∀ front base last copy, front <+: events →
    run (serverStep tables) db front = some base →
    run (serverStep tables) db events = some last →
    SameRows tables copy base →
      let changes := capturedRun tables dbName db events
      ∃ final, Executes tables scan 0 copy changes final ∧
        SameRows tables final last ∧
        ∃ again, Executes tables scan changes.length final changes again ∧
          SameRows tables again final

end Mysql

section Notes

/-- A note is written, changed, deleted and written again. -/
def pgNoteEvents : List Postgres.ServerEvent :=
  [.begin_ 1 0 7,
    .change ("public", "notes") (.insert [some "1", none]),
    .change ("public", "notes") (.insert [some "2", some "b"]),
    .change ("public", "notes") (.update 0 [some "1", some "a"] [] false),
    .change ("public", "notes") (.delete 1),
    .change ("public", "notes") (.insert [some "2", some "c"]),
    .commit []]

theorem keepsKeys_pgNoteEvents :
    Postgres.KeepsKeys (Postgres.noteTables .primaryKey) (fun _ => [])
      pgNoteEvents where
  keyed := by simp [Postgres.noteTables, Postgres.noteTable]
  admits := by simp [Postgres.noteTables, Rows.admits]
  steps := by
    refine ⟨trivial, fun _ hbegin => ⟨fun _ _ => trivial, fun _ hfirst => ?_⟩⟩
    cases hbegin
    cases hfirst
    refine ⟨fun _ _ => trivial, fun _ hsecond => ⟨?_, fun _ hupdate => ?_⟩⟩
    · intro t hfind old hold c hc
      cases hfind
      cases hsecond
      cases hold
      rcases hc with hc | hc
      · obtain rfl := List.mem_singleton.mp hc
        rfl
      · cases hc
    · exact ⟨fun _ _ => trivial, fun _ _ => ⟨fun _ _ => trivial, fun _ _ =>
        ⟨trivial, fun _ _ => trivial⟩⟩⟩
  apart := by
    apply allApart_of_single
    intro relation k hk
    obtain ⟨t, hidentity, hfind, rfl⟩ := Postgres.find_of_keyedTables hk
    obtain ⟨ht, -⟩ := Postgres.Tables.relation_of_find hfind
    obtain rfl := List.mem_singleton.mp ht
    rfl

/-- A table of a key and a note. -/
def mysqlNoteTable : Mysql.TableDef where
  name := "notes"
  columns := [⟨"id", "", "PRI"⟩, ⟨"note", "", ""⟩]
  otherKeys := []
  generate _ _ := none
  equal _ left right := left = right
  holds _ left right := left = right
  names := by decide
  equal_refl _ value := decide_eq_true rfl
  equal_symm _ left right hequal :=
    decide_eq_true (of_decide_eq_true hequal).symm
  equal_trans _ left middle right hleft hright := decide_eq_true
    ((of_decide_eq_true hleft).trans (of_decide_eq_true hright))
  generate_congr _ _ _ := rfl

def mysqlNoteTables : Mysql.Tables where
  defs := [mysqlNoteTable]
  names := by simp

theorem note_ne_null : "'a'" ≠ "NULL" := by decide

open Mysql in
def mysqlNoteEvents : List Mysql.SourceEvent :=
  [⟨"notes", 1, .insert [word "1", none]⟩,
    ⟨"notes", 1, .insert [word "2", word "'b'"]⟩,
    ⟨"notes", 2, .update 0 [word "1", word "'a'" note_ne_null]⟩,
    ⟨"notes", 3, .delete 1⟩,
    ⟨"notes", 4, .insert [word "2", word "'c'"]⟩]

theorem keepsKeys_mysqlNoteEvents :
    Mysql.KeepsKeys mysqlNoteTables (fun _ => []) mysqlNoteEvents where
  keyed := by
    intro t ht
    obtain rfl := List.mem_singleton.mp ht
    exact ⟨by decide, by decide, fun _ _ => rfl⟩
  sound := by
    intro t ht
    obtain rfl := List.mem_singleton.mp ht
    exact ⟨rfl, by simp⟩
  steps := by
    have hinsert : ∀ db micros values, Mysql.KeepsKeyEvent mysqlNoteTables db
        ⟨"notes", micros, .insert values⟩ := by
      intro db micros values t hfind
      cases hfind
      exact Mysql.keepsKey_insert (by decide) values
    refine ⟨hinsert _ _ _, fun _ hfirst => ⟨hinsert _ _ _, fun _ hsecond =>
      ⟨?_, fun _ _ => ⟨fun _ _ => trivial, fun _ _ =>
        ⟨hinsert _ _ _, fun _ _ => trivial⟩⟩⟩⟩⟩
    intro t hfind old hold c hc
    cases hfind
    cases hfirst
    cases hsecond
    cases hold
    obtain rfl := List.mem_singleton.mp hc
    rfl
  apart := by
    apply allApart_of_single
    intro name k hk
    obtain ⟨t, hkey, hfind, rfl⟩ := Mysql.find_of_keyedTables hk
    obtain ⟨ht, -⟩ := Mysql.Tables.find_name hfind
    obtain rfl := List.mem_singleton.mp ht
    rfl

end Notes

end XBackup
