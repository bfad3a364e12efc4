/-
What comes before what in a list: one item precedes another when no first part
of the list holds the second without the first.
-/
import Mathlib

namespace Precedence

universe u v

variable {α : Type u} {β : Type v}

/-- Wherever the list is cut, `last` is only reached after `first`. -/
def Precedes (items : List α) (first last : α) : Prop :=
  ∀ front, front <+: items → last ∈ front → first ∈ front

variable {items front rest : List α} {first last : α}

theorem precedes_self (items : List α) (item : α) : Precedes items item item :=
  fun _ _ hmem => hmem

theorem precedes_of_notMem (hlast : last ∉ items) :
    Precedes items first last :=
  fun _ hfront hmem => absurd (hfront.subset hmem) hlast

/-- A cut of an appended list lies in its front or behind it. -/
theorem prefix_append_cases {cut : List α} (hcut : cut <+: front ++ rest) :
    cut <+: front ∨ ∃ part, cut = front ++ part ∧ part <+: rest := by
  obtain ⟨left, hleft⟩ := hcut
  rcases List.append_eq_append_iff.mp hleft with
    ⟨mid, hfront, -⟩ | ⟨mid, hcut, hrest⟩
  · exact Or.inl ⟨mid, hfront.symm⟩
  · exact Or.inr ⟨mid, hcut, left, hrest.symm⟩

theorem Precedes.append (hfront : Precedes front first last)
    (hrest : last ∈ rest → first ∈ front ∨ Precedes rest first last) :
    Precedes (front ++ rest) first last := by
  intro cut hcut hmem
  rcases prefix_append_cases hcut with hinside | ⟨part, rfl, hpart⟩
  · exact hfront cut hinside hmem
  · rcases List.mem_append.mp hmem with hold | hnew
    · exact List.mem_append_left part
        (hfront front (List.prefix_refl front) hold)
    · rcases hrest (hpart.subset hnew) with hearlier | hprecedes
      · exact List.mem_append_left part hearlier
      · exact List.mem_append_right front (hprecedes part hpart hnew)

theorem Precedes.flatMap {groups : List β} {members : β → List α}
    (hgroups : ∀ group ∈ groups, Precedes (members group) first last) :
    Precedes (groups.flatMap members) first last := by
  induction groups with
  | nil => exact precedes_of_notMem List.not_mem_nil
  | cons group groups ih =>
      rw [List.flatMap_cons]
      refine (hgroups group List.mem_cons_self).append fun _ => Or.inr ?_
      exact ih fun other hother =>
        hgroups other (List.mem_cons_of_mem group hother)

/-- The item in front of another one, in a list without repetition. -/
theorem precedes_of_split {before after : List α} (hmem : first ∈ before)
    (hafter : last ∉ before) : Precedes (before ++ last :: after) first last :=
  (precedes_of_notMem hafter).append fun _ => Or.inl hmem

/-- In the reverse of a list without repetition the later items come first. -/
theorem precedes_reverse (hnodup : items.Nodup) :
    items.Pairwise fun first last => Precedes items.reverse last first := by
  induction items with
  | nil => exact List.Pairwise.nil
  | cons head rest ih =>
      obtain ⟨hhead, hrest⟩ := List.nodup_cons.mp hnodup
      rw [List.reverse_cons]
      refine List.pairwise_cons.mpr ⟨?_, (ih hrest).imp_of_mem ?_⟩
      · intro other hother
        apply precedes_of_split (List.mem_reverse.mpr hother)
        rwa [List.mem_reverse]
      · intro first last hfirst _ hprecedes
        refine hprecedes.append fun hmem => ?_
        rw [List.mem_singleton.mp hmem] at hfirst
        exact absurd hfirst hhead

/-- A cut through groups completes some and begins at most one. -/
theorem prefix_flatMap {groups : List β} {members : β → List α} {cut : List α}
    (hcut : cut <+: groups.flatMap members) :
    ∃ front part, front <+: groups ∧ cut = front.flatMap members ++ part ∧
      (part = [] ∨ ∃ group, front ++ [group] <+: groups ∧
        part <+: members group) := by
  induction groups generalizing cut with
  | nil =>
      refine ⟨[], [], List.prefix_refl _, ?_, Or.inl rfl⟩
      simpa using hcut
  | cons group groups ih =>
      rw [List.flatMap_cons] at hcut
      rcases prefix_append_cases hcut with hinside | ⟨later, rfl, hlater⟩
      · exact ⟨[], cut, List.nil_prefix, rfl,
          Or.inr ⟨group, by simp, hinside⟩⟩
      · obtain ⟨front, part, hfront, rfl, hpart⟩ := ih hlater
        refine ⟨group :: front, part, ?_, by simp, ?_⟩
        · exact List.cons_prefix_cons.mpr ⟨rfl, hfront⟩
        · refine hpart.imp_right ?_
          rintro ⟨next, hnext, hinside⟩
          exact ⟨next, List.cons_prefix_cons.mpr ⟨rfl, hnext⟩, hinside⟩

/-- Where the last item of each group is its own, reaching it means the group
is complete. -/
theorem complete_of_last {groups : List β} {members : β → List α}
    {close : β → α} {cut : List α} {group : β}
    (hcut : cut <+: groups.flatMap members) (hmem : close group ∈ cut)
    (hown : ∀ other, close group ∈ members other → other = group)
    (hlast : ∀ part, part <+: members group → close group ∈ part →
      part = members group) :
    ∃ front, front <+: groups ∧ group ∈ front ∧
      front.flatMap members <+: cut := by
  obtain ⟨front, part, hfront, rfl, hpart⟩ := prefix_flatMap hcut
  rcases List.mem_append.mp hmem with hdone | hopen
  · obtain ⟨other, hother, hclose⟩ := List.mem_flatMap.mp hdone
    exact ⟨front, hfront, hown other hclose ▸ hother, List.prefix_append _ _⟩
  · rcases hpart with rfl | ⟨other, hother, hinside⟩
    · cases hopen
    · obtain rfl := hown other (hinside.subset hopen)
      refine ⟨front ++ [other], hother, by simp, ?_⟩
      rw [hlast part hinside hopen]
      simp

/-- Where an item only stays if the ones before it stay, a first part stays. -/
theorem filter_isPrefix {keep : α → Bool}
    (hkeep : items.Pairwise fun first last =>
      keep last = true → keep first = true) :
    items.filter keep <+: items := by
  induction items with
  | nil => exact List.prefix_refl _
  | cons head rest ih =>
      obtain ⟨hhead, hrest⟩ := List.pairwise_cons.mp hkeep
      by_cases hstays : keep head = true
      · rw [List.filter_cons_of_pos hstays, List.cons_prefix_cons]
        exact ⟨rfl, ih hrest⟩
      · rw [List.filter_cons_of_neg hstays, List.filter_eq_nil_iff.mpr]
        · exact List.nil_prefix
        · intro other hother hkept
          exact hstays (hhead other hother hkept)

end Precedence
