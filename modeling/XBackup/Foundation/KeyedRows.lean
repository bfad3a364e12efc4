/-
Rows found by a key: which row a key has, how the statements on one key change
that, and that it makes up the rows.
-/
import XBackup.Foundation.RowActs

namespace Rows

universe u v

variable {κ : Type u} {V : Type v} {schema : Schema κ V} {key : List κ}

/-- The key is unique and has no NULL. -/
structure Schema.IsPrimary (schema : Schema κ V) (key : List κ) : Prop where
  unique : key ∈ schema.uniqueKeys
  notNull : ∀ c ∈ key, c ∈ schema.notNull

/-- The row that has the key of another. -/
def rowAt (schema : Schema κ V) (key : List κ) (rows : List (Row κ V))
    (place : Row κ V) : Option (Row κ V) :=
  rows.find? fun row => sameKey schema key row place

section Lookup

variable {rows next : List (Row κ V)} {row other place new : Row κ V}

theorem sameKey_of_mem (hprimary : schema.IsPrimary key)
    (hadmits : admits schema rows = true) (hrow : row ∈ rows) :
    sameKey schema key row row = true :=
  sameKey_self_iff.mpr fun c hc =>
    (admits_iff.mp hadmits).2 row hrow c (hprimary.notNull c hc)

theorem eq_of_sameKey (hprimary : schema.IsPrimary key)
    (hadmits : admits schema rows = true) (hrow : row ∈ rows)
    (hother : other ∈ rows) (hsame : sameKey schema key row other = true) :
    row = other := by
  by_contra hne
  have hsymm : Std.Symm fun left right : Row κ V =>
      sameKey schema key left right = false := by
    refine ⟨fun left right hdiffers => ?_⟩
    rw [Bool.eq_false_iff] at hdiffers ⊢
    exact fun hback => hdiffers (sameKey_symm hback)
  have hdiffers := ((admits_iff.mp hadmits).1 key hprimary.unique).forall
    hrow hother hne
  rw [hsame] at hdiffers
  cases hdiffers

theorem rowAt_eq_some_iff (hprimary : schema.IsPrimary key)
    (hadmits : admits schema rows = true) :
    rowAt schema key rows place = some row ↔
      row ∈ rows ∧ sameKey schema key row place = true := by
  constructor
  · intro hfound
    have hkey := List.find?_some hfound
    exact ⟨List.mem_of_find?_eq_some hfound, hkey⟩
  · rintro ⟨hrow, hsame⟩
    cases hfound : rowAt schema key rows place with
    | none =>
        have hnone := List.find?_eq_none.mp hfound row hrow
        exact absurd hsame hnone
    | some found =>
        have hmem := List.mem_of_find?_eq_some hfound
        have hkey := List.find?_some hfound
        rw [eq_of_sameKey hprimary hadmits hmem hrow
          (sameKey_trans hkey (sameKey_symm hsame))]

theorem rowAt_eq_none_iff :
    rowAt schema key rows place = none ↔
      ∀ row ∈ rows, ¬ sameKey schema key row place = true :=
  List.find?_eq_none

theorem rowAt_self (hprimary : schema.IsPrimary key)
    (hadmits : admits schema rows = true) (hrow : row ∈ rows) :
    rowAt schema key rows row = some row :=
  (rowAt_eq_some_iff hprimary hadmits).mpr
    ⟨hrow, sameKey_of_mem hprimary hadmits hrow⟩

/-- Which rows are found does not depend on their order. -/
theorem rowAt_of_perm (hprimary : schema.IsPrimary key)
    (hperm : rows.Perm next) (hadmits : admits schema rows = true) :
    rowAt schema key next place = rowAt schema key rows place := by
  have hnext := admits_of_perm hperm hadmits
  refine Option.ext fun row => ?_
  rw [rowAt_eq_some_iff hprimary hnext, rowAt_eq_some_iff hprimary hadmits,
    hperm.mem_iff]

theorem nodup_of_admits (hprimary : schema.IsPrimary key)
    (hadmits : admits schema rows = true) : rows.Nodup := by
  refine ((admits_iff.mp hadmits).1 key hprimary.unique).imp_of_mem ?_
  rintro left right hleft hright hdiffers rfl
  rw [sameKey_of_mem hprimary hadmits hleft] at hdiffers
  cases hdiffers

/-- The rows are those found at some key. -/
theorem perm_of_rowAt (hprimary : schema.IsPrimary key)
    (hadmits : admits schema rows = true) (hnext : admits schema next = true)
    (hsame : ∀ place, rowAt schema key rows place =
      rowAt schema key next place) : rows.Perm next := by
  rw [List.perm_ext_iff_of_nodup (nodup_of_admits hprimary hadmits)
    (nodup_of_admits hprimary hnext)]
  intro row
  constructor
  · intro hrow
    have hfound := rowAt_self hprimary hadmits hrow
    rw [hsame] at hfound
    exact ((rowAt_eq_some_iff hprimary hnext).mp hfound).1
  · intro hrow
    have hfound := rowAt_self hprimary hnext hrow
    rw [← hsame] at hfound
    exact ((rowAt_eq_some_iff hprimary hadmits).mp hfound).1

end Lookup

section Writes

variable {rows : List (Row κ V)} {row place new spot : Row κ V}

/-- A row added where its key has none. -/
theorem rowAt_append (hfree : rowAt schema key rows new = none) :
    rowAt schema key (rows ++ [new]) place =
      if sameKey schema key new place then some new
      else rowAt schema key rows place := by
  rw [rowAt, List.find?_append]
  by_cases hsame : sameKey schema key new place = true
  · have hnone : rowAt schema key rows place = none := by
      rw [rowAt_eq_none_iff] at hfree ⊢
      intro row hrow hkey
      exact hfree row hrow (sameKey_trans hkey (sameKey_symm hsame))
    rw [rowAt] at hnone
    rw [hnone, if_pos hsame, List.find?_singleton, if_pos hsame]
    rfl
  · rw [if_neg hsame, List.find?_singleton, if_neg hsame, Option.or_none]
    rfl

theorem sameKey_congr (hsame : sameKey schema key row spot = true) :
    sameKey schema key row place = sameKey schema key spot place := by
  rw [Bool.eq_iff_iff]
  exact ⟨sameKey_trans (sameKey_symm hsame), sameKey_trans hsame⟩

theorem rowAt_cons :
    rowAt schema key (row :: rows) place =
      if sameKey schema key row place then some row
      else rowAt schema key rows place := by
  rw [rowAt, List.find?_cons]
  cases sameKey schema key row place <;> rfl

/-- The row of a key replaced by one of the same key. -/
theorem rowAt_map {f : Row κ V → Row κ V}
    (hkept : ∀ row ∈ rows, sameKey schema key row spot = true →
      sameKey schema key (f row) row = true) :
    rowAt schema key (rows.map fun row =>
        if sameKey schema key row spot then f row else row) place =
      if sameKey schema key spot place then
        (rowAt schema key rows place).map f
      else rowAt schema key rows place := by
  induction rows with
  | nil => simp [rowAt]
  | cons row rows ih =>
      obtain ⟨hrow, hrows⟩ := List.forall_mem_cons.mp hkept
      rw [List.map_cons, rowAt_cons, rowAt_cons, ih hrows]
      by_cases hspot : sameKey schema key row spot = true
      · have hnew : sameKey schema key (f row) place =
            sameKey schema key spot place :=
          sameKey_congr (sameKey_trans (hrow hspot) hspot)
        rw [if_pos hspot, hnew, sameKey_congr hspot]
        split <;> rfl
      · rw [if_neg hspot]
        by_cases hplace : sameKey schema key row place = true
        · have hother : ¬ sameKey schema key spot place = true :=
            fun hsame => hspot (sameKey_trans hplace (sameKey_symm hsame))
          simp only [if_pos hplace, if_neg hother]
        · simp only [if_neg hplace]

/-- The row of a key taken away. -/
theorem rowAt_filter :
    rowAt schema key (rows.filter fun row => !sameKey schema key row spot)
        place =
      if sameKey schema key spot place then none
      else rowAt schema key rows place := by
  induction rows with
  | nil => simp [rowAt]
  | cons row rows ih =>
      rw [List.filter_cons, rowAt_cons]
      by_cases hspot : sameKey schema key row spot = true
      · rw [hspot, if_neg (by simp), ih, sameKey_congr hspot]
        split <;> rfl
      · rw [Bool.eq_false_iff.mpr hspot, if_pos (by simp), rowAt_cons, ih]
        by_cases hplace : sameKey schema key row place = true
        · have hother : ¬ sameKey schema key spot place = true :=
            fun hsame => hspot (sameKey_trans hplace (sameKey_symm hsame))
          simp only [if_pos hplace, if_neg hother]
        · simp only [if_neg hplace]

end Writes

section Acts

open RowActs

variable [DecidableEq κ]

/-- How a table finishes the rows that are written, as by computing columns, and
what is seen of a row: the columns that are written make a finished row. -/
structure Finishing (κ : Type u) (V : Type v) [DecidableEq κ] where
  finish : Row κ V → Row κ V
  view : Row κ V → Row κ V
  written : List κ
  Formed : Row κ V → Prop
  view_assign : ∀ row sets, (∀ cell ∈ sets, cell.1 ∈ written) →
    view (finish (assign row sets)) = assign (view row) sets
  view_finish : ∀ new, view new = new → view (finish new) = new
  finish_apply : ∀ row, ∀ c ∈ written, finish row c = row c
  formed_assign : ∀ row sets, Formed row →
    (∀ cell ∈ sets, cell.1 ∈ written) → Formed (finish (assign row sets))
  formed_finish : ∀ new, view new = new → Formed (finish new)
  eq_of_view : ∀ left right, Formed left → Formed right →
    view left = view right → left = right

/-- The rows behind a write on the key of `spot`; a row that is put has that key
itself. -/
def writeRows (schema : Schema κ V) (f : Finishing κ V) (key : List κ) (rows : List (Row κ V))
    (spot : Row κ V) : Act κ V → List (Row κ V)
  | .put new updated =>
      if rows.any fun row => sameKey schema key row spot then
        rows.map fun row =>
          if sameKey schema key row spot then
            f.finish (assign row (cells updated new))
          else row
      else rows ++ [f.finish new]
  | .set sets =>
      rows.map fun row =>
        if sameKey schema key row spot then f.finish (assign row sets) else row
  | .del => rows.filter fun row => !sameKey schema key row spot

/-- A write that sets only written columns and keeps the key. -/
def Writes (schema : Schema κ V) (f : Finishing κ V) (key : List κ) (spot : Row κ V) :
    Act κ V → Prop
  | .put new updated =>
      f.finish new = spot ∧ f.view new = new ∧
        (∀ c ∈ updated, c ∈ f.written) ∧
        ∀ row, sameKey schema key row spot = true →
          sameKey schema key (f.finish (assign row (cells updated new))) row =
            true
  | .set sets =>
      (∀ cell ∈ sets, cell.1 ∈ f.written) ∧
        ∀ row, sameKey schema key row spot = true →
          sameKey schema key (f.finish (assign row sets)) row = true
  | .del => True

variable {f : Finishing κ V} {rows : List (Row κ V)} {spot place : Row κ V}
  {act : Act κ V}

omit [DecidableEq κ] in
theorem any_sameKey_iff :
    (rows.any fun row => sameKey schema key row spot) = true ↔
      rowAt schema key rows spot ≠ none := by
  rw [List.any_eq_true, Ne, rowAt_eq_none_iff]
  push Not
  rfl

omit [DecidableEq κ] in
theorem rowAt_congr (hsame : sameKey schema key spot place = true) :
    rowAt schema key rows place = rowAt schema key rows spot := by
  rw [rowAt, rowAt]
  congr 1
  funext row
  rw [Bool.eq_iff_iff]
  exact ⟨fun h => sameKey_trans h (sameKey_symm hsame),
    fun h => sameKey_trans h hsame⟩

/-- What is seen at a key behind a write. -/
theorem rowAt_writeRows (hwrites : Writes schema f key spot act) :
    (rowAt schema key (writeRows schema f key rows spot act) place).map f.view =
      if sameKey schema key spot place then
        act.apply ((rowAt schema key rows place).map f.view)
      else (rowAt schema key rows place).map f.view := by
  cases act with
  | put new updated =>
      obtain ⟨hspot, hview, hupdated, hkept⟩ := hwrites
      have hcells : ∀ cell ∈ cells updated new, cell.1 ∈ f.written := by
        rwa [cells, List.forall_mem_map]
      rw [writeRows]
      by_cases hany : (rows.any fun row => sameKey schema key row spot) = true
      · rw [if_pos hany, rowAt_map fun row _ => hkept row]
        by_cases hplace : sameKey schema key spot place = true
        · have hsome := any_sameKey_iff.mp hany
          rw [if_pos hplace, if_pos hplace, rowAt_congr hplace]
          cases hrow : rowAt schema key rows spot with
          | none => exact absurd hrow hsome
          | some row =>
              simp only [Option.map_some, Act.apply]
              rw [f.view_assign row _ hcells]
        · rw [if_neg hplace, if_neg hplace]
      · have hfree : rowAt schema key rows (f.finish new) = none := by
          rw [hspot]
          exact not_not.mp fun hsome => hany (any_sameKey_iff.mpr hsome)
        rw [if_neg hany, rowAt_append hfree, hspot]
        by_cases hplace : sameKey schema key spot place = true
        · rw [hspot] at hfree
          rw [if_pos hplace, if_pos hplace, rowAt_congr hplace, hfree, ← hspot]
          simp only [Option.map_some, Option.map_none, Act.apply]
          rw [f.view_finish new hview]
        · rw [if_neg hplace, if_neg hplace]
  | set sets =>
      obtain ⟨hsets, hkept⟩ := hwrites
      rw [writeRows, rowAt_map fun row _ => hkept row]
      by_cases hplace : sameKey schema key spot place = true
      · rw [if_pos hplace, if_pos hplace]
        simp only [Act.apply, Option.map_map]
        congr 1
        funext row
        exact f.view_assign row sets hsets
      · rw [if_neg hplace, if_neg hplace]
  | del =>
      rw [writeRows, rowAt_filter]
      split <;> rfl

/-- A write on the key of a row that is there. -/
theorem writeRows_perm {old : Row κ V} {rest : List (Row κ V)}
    (hrows : rows.Perm (old :: rest))
    (hold : sameKey schema key old spot = true)
    (hrest : ∀ row ∈ rest, ¬ sameKey schema key row spot = true) :
    (∀ sets, (writeRows schema f key rows spot (.set sets)).Perm
        (f.finish (assign old sets) :: rest)) ∧
      (writeRows schema f key rows spot .del).Perm rest := by
  refine ⟨fun sets => ?_, ?_⟩
  · refine (hrows.map _).trans ?_
    rw [List.map_cons, if_pos hold]
    refine List.Perm.cons _ (List.Perm.of_eq ?_)
    refine (List.map_congr_left fun row hrow => ?_).trans (List.map_id rest)
    exact if_neg (hrest row hrow)
  · refine (hrows.filter _).trans ?_
    rw [List.filter_cons_of_neg (by simp [hold])]
    refine List.Perm.of_eq (List.filter_eq_self.mpr fun row hrow => ?_)
    simpa using hrest row hrow

section Admission

/-- Every written value of the row is one that a held row of its key has. -/
def Assembled (schema : Schema κ V) (f : Finishing κ V) (key : List κ)
    (Held : Row κ V → Prop) (row : Row κ V) : Prop :=
  f.Formed row ∧ ∀ c ∈ f.written,
    ∃ held, Held held ∧ sameKey schema key held row = true ∧ row c = held c

/-- Rows of different keys have no other unique key in common, whichever of the
values held under their keys they are assembled of. -/
def Apart (schema : Schema κ V) (f : Finishing κ V) (key : List κ)
    (Held : Row κ V → Prop) : Prop :=
  ∀ other ∈ schema.uniqueKeys, ∀ left right,
    Assembled schema f key Held left → Assembled schema f key Held right →
      sameKey schema other left right = true →
        sameKey schema key left right = true

/-- The values of a write are those of a held row of the key. -/
def Sourced (schema : Schema κ V) (f : Finishing κ V) (key : List κ)
    (Held : Row κ V → Prop) (spot : Row κ V) : Act κ V → Prop
  | .put new _ => Held spot ∧ sameKey schema key spot spot = true ∧
      ∀ c ∈ f.written, new c = spot c
  | .set sets => ∃ held, Held held ∧ sameKey schema key held spot = true ∧
      ∀ cell ∈ sets, cell.2 = held cell.1
  | .del => True

variable {Held : Row κ V → Prop} {row : Row κ V}

theorem assembled_of_held (hformed : f.Formed row) (hheld : Held row)
    (hself : sameKey schema key row row = true) :
    Assembled schema f key Held row :=
  ⟨hformed, fun _ _ => ⟨row, hheld, hself, rfl⟩⟩

/-- Setting values held under its key assembles a row again. -/
theorem assembled_assign {sets : List (κ × Option V)} {held : Row κ V}
    (hrow : Assembled schema f key Held row)
    (hspot : sameKey schema key row spot = true)
    (hkept : sameKey schema key (f.finish (assign row sets)) row = true)
    (hwritten : ∀ cell ∈ sets, cell.1 ∈ f.written) (hheld : Held held)
    (hkey : sameKey schema key held spot = true)
    (hsets : ∀ cell ∈ sets, cell.2 = held cell.1) :
    Assembled schema f key Held (f.finish (assign row sets)) := by
  obtain ⟨hformed, hvalues⟩ := hrow
  refine ⟨f.formed_assign row sets hformed hwritten, fun c hc => ?_⟩
  rw [f.finish_apply _ c hc, assign]
  cases hlookup : sets.lookup c with
  | none =>
      obtain ⟨other, hother, hsame, hvalue⟩ := hvalues c hc
      exact ⟨other, hother, sameKey_trans hsame (sameKey_symm hkept), hvalue⟩
  | some value =>
      obtain ⟨before, after, hsplit, -⟩ := List.lookup_eq_some_iff.mp hlookup
      have hvalue := hsets (c, value) (by simp [hsplit])
      exact ⟨held, hheld, sameKey_trans hkey (sameKey_trans
        (sameKey_symm hspot) (sameKey_symm hkept)), hvalue⟩

theorem assembled_writeRows (hwrites : Writes schema f key spot act)
    (hsourced : Sourced schema f key Held spot act)
    (hrows : ∀ row ∈ rows, Assembled schema f key Held row) :
    ∀ row ∈ writeRows schema f key rows spot act,
      Assembled schema f key Held row := by
  intro row hrow
  cases act with
  | put new updated =>
      obtain ⟨hfinish, hview, hupdated, hkept⟩ := hwrites
      obtain ⟨hheld, hself, hvalues⟩ := hsourced
      rw [writeRows] at hrow
      split at hrow
      next =>
        obtain ⟨old, hold, rfl⟩ := List.mem_map.mp hrow
        split
        next hspot =>
          refine assembled_assign (hrows old hold) hspot (hkept old hspot)
            ?_ hheld hself ?_
          · rwa [cells, List.forall_mem_map]
          · rw [cells, List.forall_mem_map]
            exact fun c hc => hvalues c (hupdated c hc)
        next => exact hrows old hold
      next =>
        rcases List.mem_append.mp hrow with hmem | hmem
        · exact hrows row hmem
        · rw [List.mem_singleton.mp hmem]
          have hformed := f.formed_finish new hview
          rw [hfinish] at hformed ⊢
          exact assembled_of_held hformed hheld hself
  | set sets =>
      obtain ⟨hwritten, hkept⟩ := hwrites
      obtain ⟨held, hheld, hkey, hsets⟩ := hsourced
      obtain ⟨old, hold, rfl⟩ := List.mem_map.mp hrow
      split
      next hspot =>
        exact assembled_assign (hrows old hold) hspot (hkept old hspot)
          hwritten hheld hkey hsets
      next => exact hrows old hold
  | del => exact hrows row (List.mem_filter.mp hrow).1

omit [DecidableEq κ] in
/-- Rows that differ in their key, and are apart by it, are admitted. -/
theorem admits_of_apart {P : Row κ V → Prop}
    (hnotNull : ∀ c ∈ schema.notNull, c ∈ key)
    (hself : ∀ row ∈ rows, sameKey schema key row row = true)
    (hpairs : rows.Pairwise fun left right =>
      sameKey schema key left right = false)
    (hrows : ∀ row ∈ rows, P row)
    (hapart : ∀ other ∈ schema.uniqueKeys, ∀ left right, P left → P right →
      sameKey schema other left right = true →
        sameKey schema key left right = true) :
    admits schema rows = true := by
  rw [admits_iff]
  refine ⟨fun other hother => hpairs.imp_of_mem ?_, fun row hrow c hc => ?_⟩
  · intro left right hleft hright hdiffers
    rw [Bool.eq_false_iff] at hdiffers ⊢
    exact fun hsame => hdiffers (hapart other hother left right
      (hrows left hleft) (hrows right hright) hsame)
  · exact sameKey_self_iff.mp (hself row hrow) c (hnotNull c hc)

omit [DecidableEq κ] in
/-- Rows whose keys are kept differ in them as before. -/
theorem pairwise_map_kept {g : Row κ V → Row κ V}
    (hkept : ∀ row ∈ rows, sameKey schema key (g row) row = true)
    (hpairs : rows.Pairwise fun left right =>
      sameKey schema key left right = false) :
    (rows.map g).Pairwise fun left right =>
      sameKey schema key left right = false := by
  rw [List.pairwise_map]
  refine hpairs.imp_of_mem ?_
  intro left right hleft hright hdiffers
  rw [Bool.eq_false_iff] at hdiffers ⊢
  intro hsame
  exact hdiffers (sameKey_trans (sameKey_symm (hkept left hleft))
    (sameKey_trans hsame (hkept right hright)))

omit [DecidableEq κ] in
theorem sameKey_of_kept (hkept : sameKey schema key spot row = true) :
    sameKey schema key spot spot = true :=
  sameKey_trans hkept (sameKey_symm hkept)

/-- The rows behind a write are admitted, other unique keys telling rows apart
only as their key does. -/
theorem admits_writeRows (hprimary : schema.IsPrimary key)
    (hnotNull : ∀ c ∈ schema.notNull, c ∈ key)
    (hadmits : admits schema rows = true)
    (hwrites : Writes schema f key spot act)
    (hsourced : Sourced schema f key Held spot act)
    (hrows : ∀ row ∈ rows, Assembled schema f key Held row)
    (hapart : Apart schema f key Held) :
    admits schema (writeRows schema f key rows spot act) = true := by
  have hpairs := (admits_iff.mp hadmits).1 key hprimary.unique
  have hselves : ∀ row ∈ rows, sameKey schema key row row = true :=
    fun row hrow => sameKey_of_mem hprimary hadmits hrow
  have hmapped : ∀ g : Row κ V → Row κ V, (∀ row ∈ rows,
      sameKey schema key row spot = true →
        sameKey schema key (g row) row = true) →
      ∀ row ∈ rows, sameKey schema key
        (if sameKey schema key row spot then g row else row) row = true := by
    intro g hkept row hrow
    split
    next hspot => exact hkept row hrow hspot
    next => exact hselves row hrow
  have hassembled := assembled_writeRows hwrites hsourced hrows
  have hresult : (writeRows schema f key rows spot act).Pairwise
        (fun left right => sameKey schema key left right = false) ∧
      ∀ row ∈ writeRows schema f key rows spot act,
        sameKey schema key row row = true := by
    cases act with
    | put new updated =>
        obtain ⟨hfinish, -, -, hkept⟩ := hwrites
        obtain ⟨-, hself, -⟩ := hsourced
        rw [writeRows]
        by_cases hany : (rows.any fun row => sameKey schema key row spot) = true
        · have hkeys := hmapped _ fun row _ => hkept row
          rw [if_pos hany]
          refine ⟨pairwise_map_kept hkeys hpairs, ?_⟩
          rw [List.forall_mem_map]
          exact fun row hrow => sameKey_of_kept (hkeys row hrow)
        · rw [if_neg hany, hfinish, List.pairwise_append]
          refine ⟨⟨hpairs, List.pairwise_singleton _ _, ?_⟩, ?_⟩
          · intro row hrow other hother
            rw [List.mem_singleton.mp hother, Bool.eq_false_iff]
            exact fun hsame => hany (List.any_eq_true.mpr ⟨row, hrow, hsame⟩)
          · rw [List.forall_mem_append, List.forall_mem_singleton]
            exact ⟨hselves, hself⟩
    | set sets =>
        have hkeys := hmapped _ fun row _ => hwrites.2 row
        refine ⟨pairwise_map_kept hkeys hpairs, ?_⟩
        rw [writeRows, List.forall_mem_map]
        exact fun row hrow => sameKey_of_kept (hkeys row hrow)
    | del =>
        exact ⟨hpairs.filter _, fun row hrow =>
          hselves row (List.mem_filter.mp hrow).1⟩
  exact admits_of_apart hnotNull hresult.2 hresult.1 hassembled hapart

end Admission

end Acts

end Rows
