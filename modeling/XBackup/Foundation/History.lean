/-
Append-only histories.  A property of every entry and what was recorded before
it is kept by recording one more entry that has it.
-/
import Mathlib

namespace History

universe u

variable {α : Type u}

/-- Every entry is good with respect to the entries recorded before it. -/
def Each (good : List α → α → Prop) (history : List α) : Prop :=
  ∀ earlier entry later, history = earlier ++ entry :: later →
    good earlier entry

theorem each_nil (good : List α → α → Prop) : Each good [] := by
  intro earlier entry later hsplit
  simp at hsplit

theorem append_singleton_eq_iff {history earlier later : List α}
    {last entry : α} :
    history ++ [last] = earlier ++ entry :: later ↔
      (history = earlier ∧ last = entry ∧ later = []) ∨
        ∃ rest, later = rest ++ [last] ∧ history = earlier ++ entry :: rest := by
  rcases List.eq_nil_or_concat later with rfl | ⟨rest, final, rfl⟩
  · simp
  · rw [List.concat_eq_append, ← List.cons_append, ← List.append_assoc,
      List.append_singleton_inj]
    constructor
    · rintro ⟨hhistory, rfl⟩
      exact Or.inr ⟨rest, rfl, hhistory⟩
    · rintro (⟨-, -, hnil⟩ | ⟨rest', hrest, hhistory⟩)
      · simp at hnil
      · obtain ⟨rfl, rfl⟩ := List.append_singleton_inj.mp hrest
        exact ⟨hhistory, rfl⟩

theorem each_append_singleton {good : List α → α → Prop} {history : List α}
    {last : α} :
    Each good (history ++ [last]) ↔ Each good history ∧ good history last := by
  constructor
  · intro heach
    refine ⟨?_, heach history last [] rfl⟩
    intro earlier entry later hsplit
    exact heach earlier entry (later ++ [last]) (by simp [hsplit])
  · rintro ⟨heach, hlast⟩ earlier entry later hsplit
    rcases append_singleton_eq_iff.mp hsplit with
      ⟨rfl, rfl, -⟩ | ⟨rest, -, hhistory⟩
    · exact hlast
    · exact heach earlier entry rest hhistory

theorem Each.of_mem {good : List α → α → Prop} {history : List α} {entry : α}
    (heach : Each good history) (hentry : entry ∈ history) :
    ∃ earlier, earlier ⊆ history ∧ good earlier entry := by
  obtain ⟨earlier, later, rfl⟩ := List.append_of_mem hentry
  exact ⟨earlier, List.subset_append_left earlier (entry :: later),
    heach earlier entry later rfl⟩

theorem Each.imp {good better : List α → α → Prop} {history : List α}
    (heach : Each good history)
    (himp : ∀ earlier, ∀ entry ∈ history, good earlier entry →
      better earlier entry) : Each better history := by
  intro earlier entry later hsplit
  exact himp earlier entry (by simp [hsplit])
    (heach earlier entry later hsplit)

end History
