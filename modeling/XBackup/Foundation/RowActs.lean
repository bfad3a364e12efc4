/-
What a sequence of writes does to one row, and why doing it again changes
nothing: the row ends as the last writes of its columns say.
-/
import XBackup.Foundation.Rows

namespace RowActs

open Rows

universe u v

variable {κ : Type u} {V : Type v} [DecidableEq κ]

/-- A write of a row.  A row that is put where one is updates some of its
columns; a row that is not there is neither set nor deleted. -/
inductive Act (κ : Type u) (V : Type v) where
  | put (new : Row κ V) (updated : List κ)
  | set (sets : List (κ × Option V))
  | del

namespace Act

def apply : Act κ V → Option (Row κ V) → Option (Row κ V)
  | .put new _, none => some new
  | .put new updated, some old => some (assign old (cells updated new))
  | .set sets, row => row.map fun row => assign row sets
  | .del, _ => none

omit [DecidableEq κ] in
/-- The writes of a source: a row is put where none is, and set or deleted where
one is. -/
def Valid : Act κ V → Option (Row κ V) → Prop
  | .put _ _, row => row = none
  | .set _, row => row ≠ none
  | .del, row => row ≠ none

omit [DecidableEq κ] in
theorem valid_map {act : Act κ V} {row : Option (Row κ V)}
    {f : Row κ V → Row κ V} : act.Valid (row.map f) ↔ act.Valid row := by
  cases act <;> simp [Valid]

end Act

def applyAll (row : Option (Row κ V)) (acts : List (Act κ V)) :
    Option (Row κ V) :=
  acts.foldl (fun row act => act.apply row) row

def Valid : Option (Row κ V) → List (Act κ V) → Prop
  | _, [] => True
  | row, act :: rest => act.Valid row ∧ Valid (act.apply row) rest

theorem assign_assign (row : Row κ V) (first second : List (κ × Option V)) :
    assign (assign row first) second = assign row (second ++ first) := by
  funext c
  rw [assign, assign, assign, List.lookup_append]
  cases second.lookup c <;> rfl

theorem applyAll_append (row : Option (Row κ V)) (first second : List (Act κ V)) :
    applyAll row (first ++ second) = applyAll (applyAll row first) second :=
  List.foldl_append

/-- Nothing from before a deletion is left behind it. -/
theorem applyAll_del (row : Option (Row κ V)) (before after : List (Act κ V)) :
    applyAll row (before ++ .del :: after) = applyAll none after := by
  rw [applyAll_append]
  rfl

theorem applyAll_sets (row : Row κ V) (sets : List (List (κ × Option V))) :
    applyAll (some row) (sets.map .set) =
      some (assign row sets.reverse.flatten) := by
  induction sets generalizing row with
  | nil => rfl
  | cons first rest ih =>
      rw [List.reverse_cons, List.flatten_append, List.flatten_singleton,
        ← assign_assign]
      exact ih (assign row first)

/-- A row that is there and not deleted is only set. -/
theorem eq_sets_of_valid {row : Row κ V} {acts : List (Act κ V)}
    (hvalid : Valid (some row) acts) (hkept : Act.del ∉ acts) :
    ∃ sets : List (List (κ × Option V)), acts = sets.map .set := by
  induction acts generalizing row with
  | nil => exact ⟨[], rfl⟩
  | cons act rest ih =>
      obtain ⟨hact, hrest⟩ := hvalid
      rw [List.mem_cons, not_or] at hkept
      cases act with
      | put new updated => cases hact
      | set sets =>
          obtain ⟨more, hmore⟩ := ih hrest hkept.2
          exact ⟨sets :: more, by rw [List.map_cons, hmore]⟩
      | del => exact absurd rfl hkept.1

/-- What was set by a part of the writes is set again by all of them. -/
theorem assign_again (row : Row κ V) (first second : List (κ × Option V)) :
    assign (assign row first) (second ++ first) =
      assign row (second ++ first) := by
  funext c
  rw [assign_assign, assign, assign]
  simp only [List.lookup_append]
  cases second.lookup c <;> cases first.lookup c <;> rfl

/-- Putting the row again before that only gives columns their first values
back. -/
theorem assign_put_again (new : Row κ V) (updated : List κ)
    (first second : List (κ × Option V)) :
    assign (assign (assign new first) (cells updated new)) (second ++ first) =
      assign new (second ++ first) := by
  funext c
  have hput : assign (assign new first) (cells updated new) c = _ :=
    assign_cells (assign new first) c
  simp only [assign] at hput ⊢
  simp only [List.lookup_append]
  cases hsecond : second.lookup c with
  | some value => rfl
  | none =>
      cases hfirst : first.lookup c with
      | some value => rfl
      | none =>
          rw [hfirst] at hput
          simpa using hput

omit [DecidableEq κ] in
theorem prefix_of_map_prefix {sets : List (List (κ × Option V))}
    {front : List (Act κ V)} (hfront : front <+: sets.map .set) :
    ∃ first second, front = first.map .set ∧ sets = first ++ second := by
  obtain ⟨back, hback⟩ := hfront
  obtain ⟨first, second, hsets, hfirst, -⟩ := List.map_eq_append_iff.mp
    hback.symm
  exact ⟨first, second, hfirst.symm, hsets⟩

/-- The writes of a source, done again where some of them were done already, end
as they did. -/
theorem applyAll_again {row : Option (Row κ V)} {acts front : List (Act κ V)}
    (hvalid : Valid row acts) (hfront : front <+: acts) :
    applyAll (applyAll row front) acts = applyAll row acts := by
  by_cases hdel : Act.del ∈ acts
  · obtain ⟨before, after, hsplit⟩ := List.append_of_mem hdel
    rw [hsplit, applyAll_del, applyAll_del]
  cases row with
  | some row =>
      obtain ⟨sets, rfl⟩ := eq_sets_of_valid hvalid hdel
      obtain ⟨first, second, rfl, rfl⟩ := prefix_of_map_prefix hfront
      simp only [applyAll_sets, List.reverse_append, List.flatten_append]
      rw [assign_again]
  | none =>
      cases acts with
      | nil =>
          rw [List.prefix_nil.mp hfront]
          rfl
      | cons act rest =>
          obtain ⟨hact, hrest⟩ := hvalid
          rw [List.mem_cons, not_or] at hdel
          cases act with
          | put new updated =>
              obtain ⟨sets, rfl⟩ := eq_sets_of_valid hrest hdel.2
              cases front with
              | nil => rfl
              | cons head front =>
                  obtain ⟨rfl, htail⟩ := List.cons_prefix_cons.mp hfront
                  obtain ⟨first, second, rfl, rfl⟩ :=
                    prefix_of_map_prefix htail
                  change applyAll (Act.apply _ (applyAll (some new)
                    (first.map .set))) _ = applyAll (some new) _
                  simp only [applyAll_sets, Act.apply, List.reverse_append,
                    List.flatten_append]
                  rw [assign_put_again]
          | set sets => exact absurd rfl hact
          | del => exact absurd rfl hdel.1

section Places

variable {P : Type*} (same : P → P → Bool)

/-- A state of many rows behind a write at one place. -/
def afterWrite (st : P → Option (Row κ V)) (write : P × Act κ V) :
    P → Option (Row κ V) :=
  fun place =>
    if same write.1 place then write.2.apply (st place) else st place

omit [DecidableEq κ] in
/-- The writes that concern a place. -/
def actsAt (writes : List (P × Act κ V)) (place : P) : List (Act κ V) :=
  writes.filterMap fun write =>
    if same write.1 place then some write.2 else none

/-- The writes of a source, each as it may be at its place. -/
def ValidRun (st : P → Option (Row κ V)) : List (P × Act κ V) → Prop
  | [] => True
  | write :: rest =>
      (∀ place, same write.1 place = true → write.2.Valid (st place)) ∧
        ValidRun (afterWrite same st write) rest

omit [DecidableEq κ] in
theorem actsAt_cons (write : P × Act κ V) (writes : List (P × Act κ V))
    (place : P) :
    actsAt same (write :: writes) place =
      if same write.1 place then write.2 :: actsAt same writes place
      else actsAt same writes place := by
  rw [actsAt, List.filterMap_cons]
  cases same write.1 place <;> rfl

variable {same} {st : P → Option (Row κ V)} {writes front : List (P × Act κ V)}

theorem foldl_afterWrite (place : P) :
    writes.foldl (afterWrite same) st place =
      applyAll (st place) (actsAt same writes place) := by
  induction writes generalizing st with
  | nil => rfl
  | cons write rest ih =>
      rw [List.foldl_cons, ih, actsAt_cons, afterWrite]
      by_cases hplace : same write.1 place = true
      · rw [if_pos hplace, if_pos hplace]
        rfl
      · rw [if_neg hplace, if_neg hplace]

theorem valid_actsAt (hvalid : ValidRun same st writes) (place : P) :
    Valid (st place) (actsAt same writes place) := by
  induction writes generalizing st with
  | nil => trivial
  | cons write rest ih =>
      obtain ⟨hwrite, hrest⟩ := hvalid
      have htail := ih hrest
      rw [actsAt_cons]
      rw [afterWrite] at htail
      by_cases hplace : same write.1 place = true
      · rw [if_pos hplace] at htail ⊢
        exact ⟨hwrite place hplace, htail⟩
      · rw [if_neg hplace] at htail ⊢
        exact htail

/-- The writes of a run, done again where a part of it was done already, end as
the run did. -/
theorem foldl_afterWrite_again (hvalid : ValidRun same st writes)
    (hfront : front <+: writes) :
    writes.foldl (afterWrite same) (front.foldl (afterWrite same) st) =
      writes.foldl (afterWrite same) st := by
  funext place
  have hacts : actsAt same front place <+: actsAt same writes place :=
    hfront.filterMap _
  rw [foldl_afterWrite, foldl_afterWrite, foldl_afterWrite,
    applyAll_again (valid_actsAt hvalid place) hacts]

end Places

end RowActs
