/-
Items taken in order by a taker that passes over the ones not chosen and stops
at the first one it refuses: when every group of them is taken as a whole or not
at all.
-/
import Mathlib

namespace Groups

universe u v

variable {α : Type u} {σ : Type v}

/-- Of each group all items were taken, or none. -/
def AllOrNone : List (List α) → List Bool → Prop
  | [], _ => True
  | group :: rest, taken =>
      (taken.take group.length = List.replicate group.length true ∨
        true ∉ taken.take group.length) ∧
      AllOrNone rest (taken.drop group.length)

section Taker

variable (chosen : α → Bool) (take : σ → α → Option σ)

/-- Which items are taken, up to the refused one. -/
def taken : σ → List α → List Bool
  | _, [] => []
  | s, item :: rest =>
      if chosen item then
        match take s item with
        | none => []
        | some next => true :: taken next rest
      else false :: taken s rest

/-- The state behind items none of which is refused. -/
def behind (s : σ) (items : List α) : Option σ :=
  (items.filter chosen).foldlM take s

variable {chosen take} {s next : σ} {item : α} {items rest : List α}

theorem taken_refused (hchosen : chosen item = true)
    (hrefused : take s item = none) :
    taken chosen take s (item :: rest) = [] := by
  rw [taken, if_pos hchosen, hrefused]

theorem taken_accepted (hchosen : chosen item = true)
    (haccepted : take s item = some next) :
    taken chosen take s (item :: rest) =
      true :: taken chosen take next rest := by
  rw [taken, if_pos hchosen, haccepted]

theorem taken_passed (hchosen : ¬ chosen item = true) :
    taken chosen take s (item :: rest) =
      false :: taken chosen take s rest := by
  rw [taken, if_neg hchosen]

theorem behind_refused (hchosen : chosen item = true)
    (hrefused : take s item = none) :
    behind chosen take s (item :: rest) = none := by
  rw [behind, List.filter_cons_of_pos hchosen, List.foldlM_cons, hrefused]
  rfl

theorem behind_accepted (hchosen : chosen item = true)
    (haccepted : take s item = some next) :
    behind chosen take s (item :: rest) = behind chosen take next rest := by
  rw [behind, List.filter_cons_of_pos hchosen, List.foldlM_cons, haccepted]
  rfl

theorem behind_passed (hchosen : ¬ chosen item = true) :
    behind chosen take s (item :: rest) = behind chosen take s rest := by
  rw [behind, List.filter_cons_of_neg hchosen, behind]

theorem behind_append :
    behind chosen take s (items ++ rest) =
      (behind chosen take s items).bind
        fun next => behind chosen take next rest := by
  rw [behind, List.filter_append, List.foldlM_append]
  rfl

theorem taken_append :
    taken chosen take s (items ++ rest) = taken chosen take s items ++
      ((behind chosen take s items).map
        fun next => taken chosen take next rest).getD [] := by
  induction items generalizing s with
  | nil => rfl
  | cons item items ih =>
      rw [List.cons_append]
      by_cases hchosen : chosen item = true
      · cases htake : take s item with
        | none =>
            rw [taken_refused hchosen htake, taken_refused hchosen htake,
              behind_refused hchosen htake]
            rfl
        | some next =>
            rw [taken_accepted hchosen htake, taken_accepted hchosen htake,
              behind_accepted hchosen htake, ih]
            rfl
      · rw [taken_passed hchosen, taken_passed hchosen, behind_passed hchosen,
          ih]
        rfl

theorem length_taken_le :
    (taken chosen take s items).length ≤ items.length := by
  induction items generalizing s with
  | nil => exact Nat.le_refl _
  | cons item items ih =>
      by_cases hchosen : chosen item = true
      · cases htake : take s item with
        | none => simp [taken_refused hchosen htake]
        | some next => simpa [taken_accepted hchosen htake] using ih
      · simpa [taken_passed hchosen] using ih

theorem length_taken (hbehind : behind chosen take s items = some next) :
    (taken chosen take s items).length = items.length := by
  induction items generalizing s with
  | nil => rfl
  | cons item items ih =>
      by_cases hchosen : chosen item = true
      · cases htake : take s item with
        | none =>
            rw [behind_refused hchosen htake] at hbehind
            cases hbehind
        | some middle =>
            rw [behind_accepted hchosen htake] at hbehind
            simpa [taken_accepted hchosen htake] using ih hbehind
      · rw [behind_passed hchosen] at hbehind
        simpa [taken_passed hchosen] using ih hbehind

theorem taken_all_iff :
    taken chosen take s items = List.replicate items.length true ↔
      (∀ item ∈ items, chosen item = true) ∧
        (behind chosen take s items).isSome := by
  induction items generalizing s with
  | nil => simp [taken, behind]
  | cons item items ih =>
      rw [List.length_cons, List.replicate_succ, List.forall_mem_cons]
      by_cases hchosen : chosen item = true
      · cases htake : take s item with
        | none =>
            simp [taken_refused hchosen htake, behind_refused hchosen htake]
        | some next =>
            rw [taken_accepted hchosen htake, behind_accepted hchosen htake,
              List.cons_inj_right, ih]
            simp [hchosen]
      · simp [taken_passed hchosen, hchosen]

theorem taken_none_iff :
    true ∉ taken chosen take s items ↔
      ∀ item ∈ items.find? chosen, take s item = none := by
  induction items generalizing s with
  | nil => simp [taken]
  | cons item items ih =>
      by_cases hchosen : chosen item = true
      · rw [List.find?_cons_of_pos hchosen]
        cases htake : take s item with
        | none => simp [taken_refused hchosen htake, htake]
        | some next => simp [taken_accepted hchosen htake, htake]
      · rw [List.find?_cons_of_neg hchosen, ← ih, taken_passed hchosen]
        simp

end Taker

variable {chosen : α → Bool} {take : σ → α → Option σ} {s : σ}

theorem allOrNone_nil (groups : List (List α)) : AllOrNone groups [] := by
  induction groups with
  | nil => trivial
  | cons group rest ih => exact ⟨Or.inr (by simp), by simpa using ih⟩

/-- A group that is not split: its first chosen item is refused, or all its
items are chosen and accepted. -/
def Unsplit (chosen : α → Bool) (take : σ → α → Option σ) (s : σ)
    (group : List α) : Prop :=
  (∀ item ∈ group.find? chosen, take s item = none) ∨
    (∀ item ∈ group, chosen item = true) ∧ (behind chosen take s group).isSome

theorem unsplit_iff {group : List α} :
    Unsplit chosen take s group ↔
      taken chosen take s group = List.replicate group.length true ∨
        true ∉ taken chosen take s group := by
  rw [Unsplit, taken_all_iff, taken_none_iff, or_comm]

theorem allOrNone_cons_iff {group : List α} {rest : List (List α)} :
    AllOrNone (group :: rest)
        (taken chosen take s (group :: rest).flatten) ↔
      Unsplit chosen take s group ∧
        ∀ next, behind chosen take s group = some next →
          AllOrNone rest (taken chosen take next rest.flatten) := by
  rw [List.flatten_cons, taken_append, AllOrNone, unsplit_iff]
  cases hbehind : behind chosen take s group with
  | none =>
      simp only [Option.map_none, Option.getD_none, List.append_nil]
      rw [List.take_of_length_le length_taken_le,
        List.drop_of_length_le length_taken_le]
      simp [allOrNone_nil]
  | some next =>
      simp only [Option.map_some, Option.getD_some]
      rw [List.take_left' (length_taken hbehind),
        List.drop_left' (length_taken hbehind)]
      simp

/-- Every group is taken as a whole or not at all just if none of those reached
is split. -/
theorem allOrNone_taken_iff {groups : List (List α)} :
    AllOrNone groups (taken chosen take s groups.flatten) ↔
      ∀ front group, front ++ [group] <+: groups →
        ∀ next, behind chosen take s front.flatten = some next →
          Unsplit chosen take next group := by
  induction groups generalizing s with
  | nil => simp [AllOrNone]
  | cons first rest ih =>
      rw [allOrNone_cons_iff]
      constructor
      · rintro ⟨hfirst, hrest⟩ front group hfirsts next hbehind
        cases front with
        | nil =>
            cases hbehind
            obtain rfl := (List.cons_prefix_cons.mp hfirsts).1
            exact hfirst
        | cons head front =>
            obtain ⟨rfl, htail⟩ := List.cons_prefix_cons.mp hfirsts
            rw [List.flatten_cons, behind_append] at hbehind
            obtain ⟨middle, hmiddle, hbehind⟩ :=
              Option.bind_eq_some_iff.mp hbehind
            exact ih.mp (hrest middle hmiddle) front group htail next hbehind
      · intro hgroups
        constructor
        · exact hgroups [] first (by simp) s rfl
        · intro middle hmiddle
          apply ih.mpr
          intro front group hfirsts next hbehind
          apply hgroups (first :: front) group
          · exact List.cons_prefix_cons.mpr ⟨rfl, hfirsts⟩
          · rw [List.flatten_cons, behind_append, hmiddle]
            exact hbehind

end Groups
