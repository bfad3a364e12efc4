/-
Texts made of parts: a separator tells the parts behind it apart, and a word
that cannot cross a border lies on one side of it.
-/
import Mathlib

namespace Infixes

universe u

variable {α : Type u}

theorem append_sep_inj {sep : α} {left right leftRest rightRest : List α}
    (hleft : sep ∉ leftRest) (hright : sep ∉ rightRest)
    (heq : left ++ sep :: leftRest = right ++ sep :: rightRest) :
    left = right ∧ leftRest = rightRest := by
  rcases List.append_eq_append_iff.mp heq with
    ⟨mid, hlong, htail⟩ | ⟨mid, hlong, htail⟩
  · cases mid with
    | nil => exact ⟨by simpa using hlong.symm, by simpa using htail⟩
    | cons head mid =>
        obtain ⟨-, htail⟩ := List.cons.inj htail
        exact absurd (htail ▸ by simp) hleft
  · cases mid with
    | nil => exact ⟨by simpa using hlong, by simpa using htail.symm⟩
    | cons head mid =>
        obtain ⟨-, htail⟩ := List.cons.inj htail
        exact absurd (htail ▸ by simp) hright

/-- Two texts with a first letter of their kind each are cut there alike. -/
theorem append_first_inj {P : α → Prop} {a b : α}
    {left right leftRest rightRest : List α} (hleft : ∀ c ∈ left, P c)
    (hright : ∀ c ∈ right, P c) (ha : ¬ P a) (hb : ¬ P b)
    (heq : left ++ a :: leftRest = right ++ b :: rightRest) :
    left = right ∧ a = b ∧ leftRest = rightRest := by
  induction left generalizing right with
  | nil =>
      cases right with
      | nil =>
          obtain ⟨rfl, rfl⟩ := List.cons.inj heq
          exact ⟨rfl, rfl, rfl⟩
      | cons c right =>
          obtain ⟨rfl, -⟩ := List.cons.inj heq
          exact absurd (hright _ List.mem_cons_self) ha
  | cons c left ih =>
      obtain ⟨hc, hmore⟩ := List.forall_mem_cons.mp hleft
      cases right with
      | nil =>
          obtain ⟨rfl, -⟩ := List.cons.inj heq
          exact absurd hc hb
      | cons d right =>
          obtain ⟨rfl, hrest⟩ := List.cons.inj heq
          obtain ⟨rfl, hsame⟩ :=
            ih hmore (List.forall_mem_cons.mp hright).2 hrest
          exact ⟨rfl, hsame⟩

/-- A word that does not cross the border of two texts is in one of them. -/
theorem infix_append_iff_of_border {word left right : List α}
    (hborder : ∀ front back, front ≠ [] → back ≠ [] → word = front ++ back →
      front <:+ left → ¬ back <+: right) :
    word <:+: left ++ right ↔ word <:+: left ∨ word <:+: right := by
  rw [List.infix_append_iff_ne_nil]
  constructor
  · rintro (hleft | hright | ⟨front, back, hfront, hback, hword, hend, hstart⟩)
    · exact Or.inl hleft
    · exact Or.inr hright
    · exact absurd hstart (hborder front back hfront hback hword hend)
  · rintro (hleft | hright)
    · exact Or.inl hleft
    · exact Or.inr (Or.inl hright)

/-- A letter the word does not hold is a border on either side. -/
theorem infix_sep_iff {word left right : List α} {sep : α} (hsep : sep ∉ word) :
    word <:+: left ++ sep :: right ↔ word <:+: left ∨ word <:+: right := by
  have hbehind : word <:+: sep :: right ↔ word <:+: right := by
    rw [List.infix_cons_iff]
    refine ⟨?_, Or.inr⟩
    rintro (⟨tail, htail⟩ | hinside)
    · cases word with
      | nil => exact List.nil_infix
      | cons head word =>
          obtain ⟨rfl, -⟩ := List.cons.inj htail
          exact absurd List.mem_cons_self hsep
    · exact hinside
  rw [infix_append_iff_of_border, hbehind]
  intro front back _ hback hword _ hstart
  obtain ⟨tail, htail⟩ := hstart
  cases back with
  | nil => exact hback rfl
  | cons head back =>
      obtain ⟨rfl, -⟩ := List.cons.inj htail
      exact hsep (by simp [hword])

end Infixes
