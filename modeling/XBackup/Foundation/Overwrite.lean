/-
Values put into a store one after the other, each in the place of what stands
there, and what such a copy leaves of the rest.
-/
import Mathlib

namespace Overwrite

universe u v w

variable {κ : Type u} {τ : Type v} [DecidableEq κ]

/-- What is at each place. -/
abbrev Store (κ : Type u) (τ : Type v) := κ → Option τ

/-- One value after the other; `clear` makes room for each. -/
def replaceAll (clear : Store κ τ → κ → Store κ τ) (store : Store κ τ)
    (items : List (κ × τ)) : Store κ τ :=
  items.foldl (fun st item =>
    Function.update (clear st item.1) item.1 (some item.2)) store

/-- Only the place itself is cleared. -/
def vacate (store : Store κ τ) (key : κ) : Store κ τ :=
  Function.update store key none

section Plain

variable {store : Store κ τ} {items : List (κ × τ)} {key : κ} {value : τ}

theorem replaceAll_cons {clear : Store κ τ → κ → Store κ τ} {item : κ × τ} :
    replaceAll clear store (item :: items) = replaceAll clear
      (Function.update (clear store item.1) item.1 (some item.2)) items :=
  rfl

theorem vacate_replaceAll_of_notMem (hkey : key ∉ items.map Prod.fst) :
    replaceAll vacate store items key = store key := by
  induction items generalizing store with
  | nil => rfl
  | cons item rest ih =>
      obtain ⟨hne, hrest⟩ := List.ne_and_not_mem_of_not_mem_cons hkey
      rw [replaceAll_cons, ih hrest, Function.update_of_ne hne, vacate,
        Function.update_of_ne hne]

theorem vacate_replaceAll_of_mem (hnodup : (items.map Prod.fst).Nodup)
    (hmem : (key, value) ∈ items) :
    replaceAll vacate store items key = some value := by
  induction items generalizing store with
  | nil => cases hmem
  | cons item rest ih =>
      obtain ⟨hnew, hrest⟩ := List.nodup_cons.mp hnodup
      rw [replaceAll_cons]
      rcases List.mem_cons.mp hmem with rfl | hmem
      · rw [vacate_replaceAll_of_notMem hnew, Function.update_self]
      · exact ih hrest hmem

end Plain

section Exact

variable {ρ : Type w}

/-- A copy has brought over just what is in its scope: what the source holds is
there, and nothing else has changed. -/
structure Exact (scope : κ → Prop) (holds : κ → ρ → Prop) (read : τ → ρ)
    (before after : Store κ τ) : Prop where
  copied : ∀ key, scope key → ∀ content, holds key content →
    (after key).map read = some content
  untouched : ∀ key, ¬ scope key → after key = before key

/-- A plain copy leaves what is outside of its scope when it is put there as it
was. -/
theorem untouched_iff {scope : κ → Prop} {before : Store κ τ}
    {items : List (κ × τ)} (hnodup : (items.map Prod.fst).Nodup) :
    (∀ key, ¬ scope key → replaceAll vacate before items key = before key) ↔
      ∀ item ∈ items, ¬ scope item.1 → before item.1 = some item.2 := by
  constructor
  · rintro hkept ⟨key, value⟩ hitem hout
    rw [← hkept key hout, vacate_replaceAll_of_mem hnodup hitem]
  · intro hsame key hout
    by_cases hkey : key ∈ items.map Prod.fst
    · obtain ⟨item, hitem, rfl⟩ := List.mem_map.mp hkey
      rw [hsame item hitem hout, vacate_replaceAll_of_mem hnodup hitem]
    · exact vacate_replaceAll_of_notMem hkey

end Exact

end Overwrite
