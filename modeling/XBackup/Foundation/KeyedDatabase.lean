/-
Databases of keyed tables: a run of writes, and the same run again on a database
that holds a part of it already.
-/
import XBackup.Foundation.KeyedRows
import XBackup.Foundation.Transition

namespace KeyedDatabase

open Rows RowActs Transition

universe u v w

variable {κ : Type u} {V : Type v} {N : Type w} [DecidableEq κ] [DecidableEq N]

/-- A table with a primary key, the only columns that take no NULL. -/
structure Keyed (κ : Type u) (V : Type v) [DecidableEq κ] where
  schema : Schema κ V
  key : List κ
  form : Finishing κ V
  primary : schema.IsPrimary key
  notNull : ∀ c ∈ schema.notNull, c ∈ key

abbrev Database (N : Type w) (κ : Type u) (V : Type v) := N → List (Row κ V)

/-- A write of the row of a key in a table. -/
abbrev Write (N : Type w) (κ : Type u) (V : Type v) := (N × Row κ V) × Act κ V

variable (tables : N → Option (Keyed κ V))

def samePlace (left right : N × Row κ V) : Bool :=
  decide (left.1 = right.1) &&
    (tables left.1).any fun t => sameKey t.schema t.key left.2 right.2

/-- What a database shows under each key. -/
def seen (db : Database N κ V) : N × Row κ V → Option (Row κ V) :=
  fun place => (tables place.1).bind fun t =>
    (rowAt t.schema t.key (db place.1) place.2).map t.form.view

def step (db : Database N κ V) (write : Write N κ V) :
    Option (Database N κ V) :=
  (tables write.1.1).bind fun t =>
    (checked t.schema
      (writeRows t.schema t.form t.key (db write.1.1) write.1.2 write.2)).map
        (Function.update db write.1.1)

variable (Held : N → Row κ V → Prop)

/-- A write of values that are held under its key. -/
def Good (write : Write N κ V) : Prop :=
  ∃ t, tables write.1.1 = some t ∧
    Writes t.schema t.form t.key write.1.2 write.2 ∧
    Sourced t.schema t.form t.key (Held write.1.1) write.1.2 write.2

def Sound (db : Database N κ V) : Prop :=
  ∀ n t, tables n = some t →
    admits t.schema (db n) = true ∧
      ∀ row ∈ db n, Assembled t.schema t.form t.key (Held n) row

def AllApart : Prop :=
  ∀ n t, tables n = some t → Apart t.schema t.form t.key (Held n)

omit [DecidableEq N] in
theorem allApart_of_single
    (hsingle : ∀ n t, tables n = some t → t.schema.uniqueKeys = [t.key]) :
    AllApart tables Held := by
  intro n t ht other hother left right _ _ hsame
  rw [hsingle n t ht, List.mem_singleton] at hother
  rwa [← hother]

variable {tables Held} {db base last copy : Database N κ V}
  {writes front : List (Write N κ V)}

theorem seen_update {n : N} {t : Keyed κ V} {spot : Row κ V} {act : Act κ V}
    {rows : List (Row κ V)} (ht : tables n = some t)
    (hrows : ∀ place, (rowAt t.schema t.key rows place).map t.form.view =
      if sameKey t.schema t.key spot place then
        act.apply ((rowAt t.schema t.key (db n) place).map t.form.view)
      else (rowAt t.schema t.key (db n) place).map t.form.view) :
    seen tables (Function.update db n rows) =
      afterWrite (samePlace tables) (seen tables db) ((n, spot), act) := by
  funext ⟨m, place⟩
  rw [afterWrite, seen, samePlace]
  by_cases hm : n = m
  · subst hm
    simp only [ht, Option.bind_some, Function.update_self, decide_true,
      Bool.true_and, Option.any_some, hrows]
    rw [seen, ht, Option.bind_some]
  · have hother : Function.update db n rows m = db m :=
      Function.update_of_ne (Ne.symm hm) _ _
    simp only [decide_eq_false hm, Bool.false_and, Bool.false_eq_true,
      if_false, hother]
    rfl

/-- A write is valid at its key if it is at the row that has it. -/
theorem valid_seen {n : N} {t : Keyed κ V} {spot : Row κ V} {act : Act κ V}
    (ht : tables n = some t)
    (hvalid : act.Valid (rowAt t.schema t.key (db n) spot)) :
    ∀ place, samePlace tables (n, spot) place = true →
      act.Valid (seen tables db place) := by
  rintro ⟨m, place⟩ hplace
  simp only [samePlace, ht, Option.any_some, Bool.and_eq_true,
    decide_eq_true_eq] at hplace
  obtain ⟨rfl, hsame⟩ := hplace
  simp only [seen, ht, Option.bind_some]
  rw [Act.valid_map, rowAt_congr hsame]
  exact hvalid

/-- A good write on a sound database is done, and shows at its key only. -/
theorem step_spec (hapart : AllApart tables Held) (hdb : Sound tables Held db)
    {write : Write N κ V} (hgood : Good tables Held write) :
    ∃ next, step tables db write = some next ∧ Sound tables Held next ∧
      seen tables next =
        afterWrite (samePlace tables) (seen tables db) write ∧
      ∀ n, n ≠ write.1.1 → next n = db n := by
  obtain ⟨t, ht, hwrites, hsourced⟩ := hgood
  obtain ⟨hadmits, hrows⟩ := hdb _ t ht
  have hnext := admits_writeRows t.primary t.notNull hadmits hwrites hsourced
    hrows (hapart _ t ht)
  refine ⟨Function.update db write.1.1
    (writeRows t.schema t.form t.key (db write.1.1) write.1.2 write.2),
    ?_, ?_, ?_, fun n hn => Function.update_of_ne hn _ _⟩
  · rw [step, ht, Option.bind_some, checked_of_admits hnext]
    rfl
  · intro n other hother
    by_cases hn : n = write.1.1
    · subst hn
      rw [ht] at hother
      cases hother
      rw [Function.update_self]
      exact ⟨hnext, assembled_writeRows hwrites hsourced hrows⟩
    · rw [Function.update_of_ne hn]
      exact hdb n other hother
  · exact seen_update ht fun place => rowAt_writeRows hwrites

/-- A write that is done leaves what its table admits. -/
theorem admits_of_step {write : Write N κ V} {next : Database N κ V}
    (hadmits : ∀ n t, tables n = some t → admits t.schema (db n) = true)
    (hstep : step tables db write = some next) :
    ∀ n t, tables n = some t → admits t.schema (next n) = true := by
  obtain ⟨t, ht, hmap⟩ := Option.bind_eq_some_iff.mp hstep
  obtain ⟨rows, hrows, rfl⟩ := Option.map_eq_some_iff.mp hmap
  obtain ⟨hnext, rfl⟩ := checked_eq_some.mp hrows
  intro n other hother
  by_cases hn : n = write.1.1
  · subst hn
    rw [ht] at hother
    cases hother
    rwa [Function.update_self]
  · rw [Function.update_of_ne hn]
    exact hadmits n other hother

theorem run_spec (hapart : AllApart tables Held) (hdb : Sound tables Held db)
    (hgood : ∀ write ∈ writes, Good tables Held write) :
    ∃ final, run (step tables) db writes = some final ∧
      Sound tables Held final ∧
      seen tables final =
        writes.foldl (afterWrite (samePlace tables)) (seen tables db) := by
  induction writes generalizing db with
  | nil => exact ⟨db, rfl, hdb, rfl⟩
  | cons write rest ih =>
      obtain ⟨hwrite, hrest⟩ := List.forall_mem_cons.mp hgood
      obtain ⟨next, hstep, hnext, hseen, -⟩ := step_spec hapart hdb hwrite
      obtain ⟨final, hrun, hfinal, hfold⟩ := ih hnext hrest
      refine ⟨final, run_cons_eq_some.mpr ⟨next, hstep, hrun⟩, hfinal, ?_⟩
      rw [hfold, hseen, List.foldl_cons]

omit [DecidableEq N] in
/-- What is shown makes up the rows. -/
theorem perm_of_seen (hdb : Sound tables Held db)
    (hlast : Sound tables Held last)
    (hseen : seen tables db = seen tables last) {n : N} {t : Keyed κ V}
    (ht : tables n = some t) : (db n).Perm (last n) := by
  obtain ⟨hadmits, hrows⟩ := hdb n t ht
  obtain ⟨hadmits', hrows'⟩ := hlast n t ht
  apply perm_of_rowAt t.primary hadmits hadmits'
  intro place
  have hplace := congrFun hseen (n, place)
  simp only [seen, ht, Option.bind_some] at hplace
  cases hrow : rowAt t.schema t.key (db n) place with
  | none =>
      rw [hrow, Option.map_none, eq_comm, Option.map_eq_none_iff] at hplace
      exact hplace.symm
  | some row =>
      rw [hrow, Option.map_some, eq_comm, Option.map_eq_some_iff] at hplace
      obtain ⟨row', hrow', hview⟩ := hplace
      have hmem := ((rowAt_eq_some_iff t.primary hadmits).mp hrow).1
      have hmem' := ((rowAt_eq_some_iff t.primary hadmits').mp hrow').1
      rw [hrow', t.form.eq_of_view row' row (hrows' row' hmem').1
        (hrows row hmem).1 hview]

omit [DecidableEq N] in
theorem sound_of_perm
    (hcopy : ∀ n t, tables n = some t → (copy n).Perm (base n))
    (hbase : Sound tables Held base) : Sound tables Held copy := by
  intro n t ht
  obtain ⟨hadmits, hrows⟩ := hbase n t ht
  have hperm := hcopy n t ht
  exact ⟨admits_of_perm hperm.symm hadmits, fun row hrow =>
    hrows row (hperm.mem_iff.mp hrow)⟩

omit [DecidableEq N] in
theorem seen_of_perm
    (hcopy : ∀ n t, tables n = some t → (copy n).Perm (base n))
    (hbase : Sound tables Held base) :
    seen tables copy = seen tables base := by
  funext place
  rw [seen, seen]
  cases ht : tables place.1 with
  | none => rfl
  | some t =>
      rw [Option.bind_some, Option.bind_some,
        rowAt_of_perm t.primary (hcopy _ t ht).symm (hbase _ t ht).1]

/-- The writes of a source, shown by a copy of what was behind a part of them,
show all that the source did. -/
theorem perm_of_shown (hfront : front <+: writes)
    (hvalid : ValidRun (samePlace tables) (seen tables db) writes)
    (hbase : Sound tables Held base) (hlast : Sound tables Held last)
    (hseenBase : seen tables base =
      front.foldl (afterWrite (samePlace tables)) (seen tables db))
    (hseenLast : seen tables last =
      writes.foldl (afterWrite (samePlace tables)) (seen tables db))
    (hcopy : ∀ n t, tables n = some t → (copy n).Perm (base n))
    {final : Database N κ V} (hfinal : Sound tables Held final)
    (hseen : seen tables final =
      writes.foldl (afterWrite (samePlace tables)) (seen tables copy)) :
    ∀ n t, tables n = some t → (final n).Perm (last n) := by
  refine fun n t ht => perm_of_seen hfinal hlast ?_ ht
  rw [hseen, seen_of_perm hcopy hbase, hseenBase, hseenLast,
    foldl_afterWrite_again hvalid hfront]

/-- The writes of a source, done again on a copy of what was behind a part of
them, end as the source did. -/
theorem rerun (hapart : AllApart tables Held) (hfront : front <+: writes)
    (hvalid : ValidRun (samePlace tables) (seen tables db) writes)
    (hgood : ∀ write ∈ writes, Good tables Held write)
    (hbase : Sound tables Held base) (hlast : Sound tables Held last)
    (hseenBase : seen tables base =
      front.foldl (afterWrite (samePlace tables)) (seen tables db))
    (hseenLast : seen tables last =
      writes.foldl (afterWrite (samePlace tables)) (seen tables db))
    (hcopy : ∀ n t, tables n = some t → (copy n).Perm (base n)) :
    ∃ final, run (step tables) copy writes = some final ∧
      ∀ n t, tables n = some t → (final n).Perm (last n) := by
  obtain ⟨final, hrun, hfinal, hseen⟩ :=
    run_spec hapart (sound_of_perm hcopy hbase) hgood
  exact ⟨final, hrun, perm_of_shown hfront hvalid hbase hlast hseenBase
    hseenLast hcopy hfinal hseen⟩

end KeyedDatabase
