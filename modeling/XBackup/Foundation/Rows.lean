/-
Tables of rows with NULLs under keys, and the statements that insert a row or
name the rows they change by the values of some columns.
-/
import Mathlib

namespace Rows

universe u v

variable {κ : Type u} {V : Type v}

/-- The values of a row by column; `none` is NULL. -/
abbrev Row (κ : Type u) (V : Type v) := κ → Option V

/-- What a table demands of its rows, and what its columns take as equal. -/
structure Schema (κ : Type u) (V : Type v) where
  uniqueKeys : List (List κ)
  notNull : List κ
  /-- Columns that no statement may set. -/
  generatedAlways : List κ
  equal : κ → V → V → Bool
  equal_refl : ∀ c value, equal c value value = true
  equal_symm : ∀ c left right, equal c left right = true →
    equal c right left = true
  equal_trans : ∀ c left middle right, equal c left middle = true →
    equal c middle right = true → equal c left right = true

/-- Equality in three-valued logic: unknown if a side is NULL. -/
def equals (equal : V → V → Bool) : Option V → Option V → Option Bool
  | some left, some right => some (equal left right)
  | _, _ => none

def conj : Option Bool → Option Bool → Option Bool
  | some false, _ => some false
  | _, some false => some false
  | some true, some true => some true
  | _, _ => none

variable (schema : Schema κ V)

/-- A condition `c₁ = v₁ AND c₂ = v₂ ...` on a row. -/
def condition (keys : List (κ × Option V)) (row : Row κ V) : Option Bool :=
  keys.foldr (fun key rest =>
    conj (equals (schema.equal key.1) (row key.1) key.2) rest) (some true)

/-- The rows a statement touches: those its condition is true of. -/
def matched (keys : List (κ × Option V)) (row : Row κ V) : Bool :=
  condition schema keys row = some true

def cells (columns : List κ) (row : Row κ V) : List (κ × Option V) :=
  columns.map fun c => (c, row c)

/-- Two rows agree in columns none of which is NULL. -/
def sameKey (columns : List κ) (left right : Row κ V) : Bool :=
  matched schema (cells columns right) left

/-- Rows a table admits. -/
def admits (rows : List (Row κ V)) : Bool :=
  (schema.uniqueKeys.all fun key =>
    decide (rows.Pairwise fun left right =>
      sameKey schema key left right = false)) &&
  rows.all fun row => schema.notNull.all fun c => (row c).isSome

variable [DecidableEq κ]

def assign (row : Row κ V) (sets : List (κ × Option V)) : Row κ V :=
  fun c => (sets.lookup c).getD (row c)

/-- The columns of an ON CONFLICT clause are those of a unique key. -/
def isArbiter (columns : List κ) : Bool :=
  schema.uniqueKeys.any fun key =>
    (key.all fun c => decide (c ∈ columns)) &&
      columns.all fun c => decide (c ∈ key)

/-- The statements; an INSERT may name the columns of a conflict, and those that
are set to the new values then. -/
inductive Statement (κ : Type u) (V : Type v) where
  | insert (values : List (κ × Option V)) (conflict updated : List κ)
  | update (sets keys : List (κ × Option V))
  | delete (keys : List (κ × Option V))

def checked (rows : List (Row κ V)) : Option (List (Row κ V)) :=
  if admits schema rows then some rows else none

def upsert (new : Row κ V) (conflict updated : List κ) (rows : List (Row κ V)) :
    List (Row κ V) :=
  if rows.any fun row => sameKey schema conflict row new then
    rows.map fun row =>
      if sameKey schema conflict row new then assign row (cells updated new)
      else row
  else rows ++ [new]

/-- The rows behind a statement; `none` when it is rejected. -/
def exec (rows : List (Row κ V)) : Statement κ V → Option (List (Row κ V))
  | .insert values conflict updated =>
      let new := assign (fun _ => none) values
      if conflict = [] then checked schema (rows ++ [new])
      else if isArbiter schema conflict then
        checked schema (upsert schema new conflict updated rows)
      else none
  | .update sets keys =>
      if sets.any fun cell => decide (cell.1 ∈ schema.generatedAlways) then none
      else
        checked schema (rows.map fun row =>
          if matched schema keys row then assign row sets else row)
  | .delete keys => checked schema (rows.filter fun row =>
      !matched schema keys row)

section Conditions

omit [DecidableEq κ]

variable {schema} {keys : List (κ × Option V)} {columns : List κ}
  {row left right : Row κ V}

theorem conj_eq_true {left right : Option Bool} :
    conj left right = some true ↔ left = some true ∧ right = some true := by
  rcases left with _ | _ | _ <;> rcases right with _ | _ | _ <;> simp [conj]

theorem equals_eq_true {equal : V → V → Bool} {left right : Option V} :
    equals equal left right = some true ↔
      ∃ l r, left = some l ∧ right = some r ∧ equal l r = true := by
  cases left <;> cases right <;> simp [equals]

theorem matched_iff :
    matched schema keys row = true ↔
      ∀ key ∈ keys,
        equals (schema.equal key.1) (row key.1) key.2 = some true := by
  rw [matched, decide_eq_true_iff]
  induction keys with
  | nil => simp [condition]
  | cons key keys ih =>
      rw [List.forall_mem_cons, ← ih, condition, List.foldr_cons, conj_eq_true]
      rfl

theorem sameKey_iff :
    sameKey schema columns left right = true ↔
      ∀ c ∈ columns,
        equals (schema.equal c) (left c) (right c) = some true := by
  rw [sameKey, matched_iff, cells, List.forall_mem_map]

theorem sameKey_symm (hsame : sameKey schema columns left right = true) :
    sameKey schema columns right left = true := by
  rw [sameKey_iff] at hsame ⊢
  intro c hc
  obtain ⟨l, r, hl, hr, hequal⟩ := equals_eq_true.mp (hsame c hc)
  exact equals_eq_true.mpr ⟨r, l, hr, hl, schema.equal_symm c l r hequal⟩

theorem sameKey_trans {middle : Row κ V}
    (hleft : sameKey schema columns left middle = true)
    (hright : sameKey schema columns middle right = true) :
    sameKey schema columns left right = true := by
  rw [sameKey_iff] at hleft hright ⊢
  intro c hc
  obtain ⟨l, m, hl, hm, hlm⟩ := equals_eq_true.mp (hleft c hc)
  obtain ⟨m', r, hm', hr, hmr⟩ := equals_eq_true.mp (hright c hc)
  rw [hm] at hm'
  cases hm'
  exact equals_eq_true.mpr ⟨l, r, hl, hr, schema.equal_trans c l m r hlm hmr⟩

theorem sameKey_self_iff :
    sameKey schema columns row row = true ↔ ∀ c ∈ columns, row c ≠ none := by
  rw [sameKey_iff]
  refine forall₂_congr fun c _ => ?_
  rw [equals_eq_true]
  cases row c with
  | none => simp
  | some value => simp [schema.equal_refl]

theorem admits_iff {rows : List (Row κ V)} :
    admits schema rows = true ↔
      (∀ key ∈ schema.uniqueKeys, rows.Pairwise fun left right =>
        sameKey schema key left right = false) ∧
      ∀ row ∈ rows, ∀ c ∈ schema.notNull, row c ≠ none := by
  simp [admits, Option.isSome_iff_ne_none]

/-- What a table admits does not depend on the order of the rows. -/
theorem admits_of_perm {rows next : List (Row κ V)} (hperm : rows.Perm next)
    (hadmits : admits schema rows = true) : admits schema next = true := by
  rw [admits_iff] at hadmits ⊢
  obtain ⟨hunique, hnotNull⟩ := hadmits
  refine ⟨fun key hkey => ?_, fun row hrow =>
    hnotNull row (hperm.mem_iff.mpr hrow)⟩
  refine (hperm.pairwise_iff fun {left right} hdiffers => ?_).mp
    (hunique key hkey)
  rw [Bool.eq_false_iff] at hdiffers ⊢
  exact fun hsame => hdiffers (sameKey_symm hsame)

end Conditions

section Statements

variable {schema} {front back rows next : List (Row κ V)}
  {old new : Row κ V} {columns conflict updated : List κ}
  {values sets keys : List (κ × Option V)}

omit [DecidableEq κ] in
theorem checked_of_admits (hadmits : admits schema rows = true) :
    checked schema rows = some rows :=
  if_pos hadmits

omit [DecidableEq κ] in
theorem checked_eq_some :
    checked schema rows = some next ↔
      admits schema rows = true ∧ rows = next := by
  simp [checked]

theorem isArbiter_iff :
    isArbiter schema conflict = true ↔
      ∃ key ∈ schema.uniqueKeys, ∀ c, c ∈ key ↔ c ∈ conflict := by
  simp only [isArbiter, List.any_eq_true, Bool.and_eq_true, List.all_eq_true,
    decide_eq_true_eq]
  refine exists_congr fun key => and_congr_right fun _ => ?_
  exact ⟨fun h c => ⟨h.1 c, h.2 c⟩, fun h => ⟨fun c => (h c).mp,
    fun c => (h c).mpr⟩⟩

/-- Columns set to their values in another row. -/
theorem assign_cells (row : Row κ V) (c : κ) :
    assign row (cells columns new) c =
      if c ∈ columns then new c else row c := by
  rw [assign, cells]
  induction columns with
  | nil => rfl
  | cons column columns ih =>
      rw [List.map_cons, List.lookup_cons]
      by_cases hc : c = column
      · simp [hc]
      · rw [beq_eq_false_iff_ne.mpr hc]
        simpa [hc] using ih

@[simp] theorem assign_nil (row : Row κ V) : assign row [] = row := rfl

/-- Setting columns to values they have changes nothing. -/
theorem assign_cells_eq_iff (row : Row κ V) :
    assign row (cells columns new) = new ↔
      ∀ c, c ∉ columns → new c = row c := by
  rw [funext_iff]
  refine forall_congr' fun c => ?_
  rw [assign_cells]
  by_cases hc : c ∈ columns
  · simp [hc]
  · simp [hc, eq_comm]

theorem assign_cells_eq_self_iff (row : Row κ V) :
    assign row (cells columns new) = row ↔
      ∀ c ∈ columns, row c = new c := by
  rw [funext_iff]
  refine forall_congr' fun c => ?_
  rw [assign_cells]
  by_cases hc : c ∈ columns
  · simp [hc, eq_comm]
  · simp [hc]

/-- Columns that are not set keep their values. -/
theorem assign_of_notMem {row : Row κ V} {names : List κ}
    {values : List (Option V)} {c : κ} (hc : c ∉ names) :
    assign row (names.zip values) c = row c := by
  have hlookup : (names.zip values).lookup c = none := by
    rw [List.lookup_eq_none_iff]
    intro cell hcell
    have hname := (List.of_mem_zip hcell).1
    exact bne_iff_ne.mpr (ne_of_mem_of_not_mem hname hc).symm
  rw [assign, hlookup]
  rfl

/-- No row is in the way of a new one that is admitted. -/
theorem upsert_of_admits (harbiter : isArbiter schema conflict = true)
    (hadmits : admits schema (rows ++ [new]) = true) :
    upsert schema new conflict updated rows = rows ++ [new] := by
  obtain ⟨key, hkey, hcolumns⟩ := isArbiter_iff.mp harbiter
  have hpairs := (admits_iff.mp hadmits).1 key hkey
  rw [List.pairwise_append] at hpairs
  have hfree : ¬ (rows.any fun row => sameKey schema conflict row new) =
      true := by
    rw [List.any_eq_true]
    rintro ⟨row, hrow, hsame⟩
    have hother := hpairs.2.2 row hrow new (List.mem_singleton_self new)
    rw [sameKey_iff] at hsame
    have hkeySame : sameKey schema key row new = true :=
      sameKey_iff.mpr fun c hc => hsame c ((hcolumns c).mp hc)
    rw [hkeySame] at hother
    cases hother
  rw [upsert, if_neg hfree]

/-- A row that may be added is added, if a key is named. -/
theorem exec_insert_iff (hvalues : assign (fun _ => none) values = new)
    (hconflict : conflict ≠ [])
    (hadmits : admits schema (rows ++ [new]) = true) :
    exec schema rows (.insert values conflict updated) = some (rows ++ [new]) ↔
      isArbiter schema conflict = true := by
  rw [exec]
  simp only [hvalues, if_neg hconflict]
  by_cases harbiter : isArbiter schema conflict = true
  · rw [if_pos harbiter, upsert_of_admits harbiter hadmits,
      checked_of_admits hadmits]
    exact iff_of_true rfl harbiter
  · rw [if_neg harbiter]
    exact iff_of_false (by simp) harbiter

omit [DecidableEq κ] in
theorem map_replaces_iff {f : Row κ V → Row κ V} :
    (front ++ old :: back).map f = front ++ new :: back ↔
      f old = new ∧ ∀ other ∈ front ++ back, f other = other := by
  have hfixed : ∀ others : List (Row κ V),
      others.map f = others ↔ ∀ other ∈ others, f other = other := by
    intro others
    rw [← List.map_inj_left, List.map_id']
  rw [List.map_append, List.map_cons, List.forall_mem_append, ← hfixed,
    ← hfixed]
  constructor
  · intro hmap
    obtain ⟨hfront, hrest⟩ := List.append_inj hmap (List.length_map f)
    obtain ⟨hold, hback⟩ := List.cons.inj hrest
    exact ⟨hold, hfront, hback⟩
  · rintro ⟨hold, hfront, hback⟩
    rw [hold, hfront, hback]

/-- An update replaces just one row if it makes the new row of it and leaves
each of the others as it is. -/
theorem exec_update_iff
    (hsets : ∀ cell ∈ sets, cell.1 ∉ schema.generatedAlways)
    (hadmits : admits schema (front ++ new :: back) = true) :
    exec schema (front ++ old :: back) (.update sets keys) =
        some (front ++ new :: back) ↔
      (matched schema keys old = true → assign old sets = new) ∧
      (¬ matched schema keys old = true → old = new) ∧
      ∀ other ∈ front ++ back, matched schema keys other = true →
        assign other sets = other := by
  have hallowed : ¬ (sets.any fun cell =>
      decide (cell.1 ∈ schema.generatedAlways)) = true := by
    simpa using hsets
  have hchanged : ∀ before after : Row κ V,
      (if matched schema keys before then assign before sets else before) =
          after ↔
        (matched schema keys before = true → assign before sets = after) ∧
        (¬ matched schema keys before = true → before = after) := by
    intro before after
    by_cases hmatched : matched schema keys before = true
    · simp [hmatched]
    · simp [hmatched]
  have hothers : (∀ other ∈ front ++ back,
      (if matched schema keys other then assign other sets else other) =
        other) ↔
      ∀ other ∈ front ++ back, matched schema keys other = true →
        assign other sets = other :=
    forall₂_congr fun other _ => by rw [hchanged]; simp
  rw [exec, if_neg hallowed, ← and_assoc, ← hchanged, ← hothers, checked]
  refine Iff.trans ?_ (@map_replaces_iff _ _ front back old new fun row =>
    if matched schema keys row then assign row sets else row)
  constructor
  · intro hexec
    split at hexec
    next => exact Option.some.inj hexec
    next => cases hexec
  · intro hmap
    rw [hmap, if_pos hadmits]

/-- A deletion takes just one row away if its condition holds of no other. -/
theorem exec_delete_iff (hadmits : admits schema (front ++ back) = true) :
    exec schema (front ++ old :: back) (.delete keys) =
        some (front ++ back) ↔
      matched schema keys old = true ∧
        ∀ other ∈ front ++ back, ¬ matched schema keys other = true := by
  rw [exec, checked]
  constructor
  · intro hexec
    split at hexec
    next =>
      have hfilter := Option.some.inj hexec
      have hothers : ∀ other ∈ front ++ back,
          ¬ matched schema keys other = true := by
        intro other hother
        rw [← hfilter] at hother
        simpa using (List.mem_filter.mp hother).2
      refine ⟨?_, hothers⟩
      -- otherwise nothing was taken away
      by_contra hold
      have hall : ∀ row ∈ front ++ old :: back,
          (!matched schema keys row) = true := by
        intro row hrow
        rw [List.mem_append, List.mem_cons] at hrow
        rcases hrow with hfront | rfl | hback
        · simpa using hothers row (List.mem_append_left back hfront)
        · simpa using hold
        · simpa using hothers row (List.mem_append_right front hback)
      rw [List.filter_eq_self.mpr hall] at hfilter
      simpa using congrArg List.length hfilter
    next => cases hexec
  · rintro ⟨hold, hothers⟩
    have hfilter : (front ++ old :: back).filter (fun row =>
        !matched schema keys row) = front ++ back := by
      rw [List.forall_mem_append] at hothers
      rw [List.filter_append, List.filter_cons_of_neg (by simp [hold]),
        List.filter_eq_self.mpr (by simpa using hothers.1),
        List.filter_eq_self.mpr (by simpa using hothers.2)]
    rw [hfilter, if_pos hadmits]

omit [DecidableEq κ] in
/-- The rows before and behind a place. -/
theorem split_at {index : Nat} (hold : rows[index]? = some old) :
    ∃ front back, rows = front ++ old :: back ∧
      (∀ new : Row κ V, rows.set index new = front ++ new :: back) ∧
      rows.eraseIdx index = front ++ back := by
  obtain ⟨hindex, hget⟩ := List.getElem?_eq_some_iff.mp hold
  refine ⟨rows.take index, rows.drop (index + 1), ?_, fun new => ?_,
    List.eraseIdx_eq_take_drop_succ rows index⟩
  · rw [← hget, ← List.drop_eq_getElem_cons hindex, List.take_append_drop]
  · rw [List.set_eq_take_append_cons_drop, if_pos hindex]

omit [DecidableEq κ] in
/-- No other row has the values of a row in a unique key. -/
theorem not_sameKey_of_admits {index : Nat} {key : List κ}
    (hkey : key ∈ schema.uniqueKeys) (hadmits : admits schema rows = true)
    (hold : rows[index]? = some old) :
    ∀ other ∈ rows.eraseIdx index, ¬ sameKey schema key other old = true := by
  obtain ⟨front, back, hrows, -, herase⟩ := split_at hold
  have hpairs := (admits_iff.mp hadmits).1 key hkey
  rw [hrows, List.pairwise_append, List.pairwise_cons] at hpairs
  obtain ⟨-, ⟨hbehind, -⟩, hbefore⟩ := hpairs
  intro other hother hsame
  rw [herase, List.mem_append] at hother
  rcases hother with hfront | hback
  · have hdiffers := hbefore other hfront old List.mem_cons_self
    rw [hsame] at hdiffers
    cases hdiffers
  · have hdiffers := hbehind other hback
    rw [sameKey_symm hsame] at hdiffers
    cases hdiffers

omit [DecidableEq κ] in
theorem eq_set_iff {index : Nat} (hold : rows[index]? = some old) :
    rows = rows.set index new ↔ new = old := by
  obtain ⟨front, back, hrows, hset, -⟩ := split_at hold
  rw [hset, hrows]
  simp [eq_comm]

theorem exec_update_set_iff {index : Nat} (hold : rows[index]? = some old)
    (hsets : ∀ cell ∈ sets, cell.1 ∉ schema.generatedAlways)
    (hadmits : admits schema (rows.set index new) = true) :
    exec schema rows (.update sets keys) = some (rows.set index new) ↔
      (matched schema keys old = true → assign old sets = new) ∧
      (¬ matched schema keys old = true → old = new) ∧
      ∀ other ∈ rows.eraseIdx index, matched schema keys other = true →
        assign other sets = other := by
  obtain ⟨front, back, hrows, hset, herase⟩ := split_at hold
  rw [hset] at hadmits ⊢
  rw [herase, hrows]
  exact exec_update_iff hsets hadmits

theorem exec_delete_eraseIdx_iff {index : Nat}
    (hold : rows[index]? = some old)
    (hadmits : admits schema (rows.eraseIdx index) = true) :
    exec schema rows (.delete keys) = some (rows.eraseIdx index) ↔
      matched schema keys old = true ∧
        ∀ other ∈ rows.eraseIdx index, ¬ matched schema keys other = true := by
  obtain ⟨front, back, hrows, -, herase⟩ := split_at hold
  rw [herase] at hadmits ⊢
  rw [hrows]
  exact exec_delete_iff hadmits

end Statements

end Rows
