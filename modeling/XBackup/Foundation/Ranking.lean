/-
Places in a ranking: what stands ahead of an item in a strictly sorted list,
and lists in which the items with a property lead.
-/
import Mathlib

namespace Ranking

universe u v

variable {α : Type u} {κ : Type v} [LinearOrder κ] (key : α → κ)

/-- The items that rank ahead of one of them. -/
def ahead (items : List α) (item : α) : List α :=
  items.filter fun other => key other < key item

variable {key}

@[simp] theorem mem_ahead {items : List α} {item other : α} :
    other ∈ ahead key items item ↔ other ∈ items ∧ key other < key item := by
  simp [ahead]

theorem ahead_perm {items sorted : List α} (hperm : sorted.Perm items)
    (item : α) : (ahead key sorted item).Perm (ahead key items item) :=
  hperm.filter _

/-- In a strictly sorted list the items ahead are the ones in front. -/
theorem ahead_of_sorted {front rest : List α} {item : α}
    (hsorted : (front ++ item :: rest).Pairwise fun left right =>
      key left < key right) : ahead key (front ++ item :: rest) item = front := by
  obtain ⟨-, hback, hcross⟩ := List.pairwise_append.mp hsorted
  obtain ⟨hrest, -⟩ := List.pairwise_cons.mp hback
  have hfront : front.filter (fun other => key other < key item) = front := by
    apply List.filter_eq_self.mpr
    intro other hother
    exact decide_eq_true (hcross other hother item List.mem_cons_self)
  have hbehind : (item :: rest).filter (fun other => key other < key item) =
      [] := by
    apply List.filter_eq_nil_iff.mpr
    intro other hother
    rcases List.mem_cons.mp hother with rfl | hlater
    · simp
    · simpa using (hrest other hlater).le
  rw [ahead, List.filter_append, hfront, hbehind, List.append_nil]

theorem sorted_strict {items : List α}
    (hsorted : items.Pairwise fun left right => key left ≤ key right)
    (hkeys : (items.map key).Nodup) :
    items.Pairwise fun left right => key left < key right := by
  have hne := List.pairwise_map.mp hkeys
  exact hsorted.imp₂ (fun _ _ hle hne => lt_of_le_of_ne hle hne) hne

/-- The first item with a property, seen from its place. -/
theorem findIdx_eq_length_iff {p : α → Bool} {front rest : List α} {item : α} :
    (front ++ item :: rest).findIdx? p = some front.length ↔
      p item = true ∧ ∀ other ∈ front, p other = false := by
  induction front with
  | nil => simp [List.findIdx?_cons]
  | cons head front ih =>
      rw [List.cons_append, List.findIdx?_cons, List.length_cons]
      by_cases hhead : p head = true
      · simp [hhead]
      · rw [if_neg hhead, Option.map_eq_some_iff]
        simp only [Nat.add_right_cancel_iff, exists_eq_right, ih,
          List.forall_mem_cons, hhead, true_and]

/-- Sorting by a comparison that reads off the keys sorts by the keys. -/
theorem mergeSort_sorted {le : α → α → Bool}
    (hle : ∀ left right, le left right = true ↔ key left ≤ key right)
    (items : List α) :
    (items.mergeSort le).Pairwise fun left right => key left ≤ key right := by
  have htrans : ∀ first second third, le first second = true →
      le second third = true → le first third = true := by
    intro first second third hfirst hsecond
    rw [hle] at hfirst hsecond ⊢
    exact hfirst.trans hsecond
  have htotal : ∀ first second, (le first second || le second first) = true := by
    intro first second
    rw [Bool.or_eq_true, hle, hle]
    exact le_total (key first) (key second)
  exact (List.pairwise_mergeSort htrans htotal items).imp fun {left right} hlr =>
    (hle left right).mp hlr

/-- The items with the property stand in front of those without it. -/
def Leading (p : α → Bool) (items : List α) : Prop :=
  items.Pairwise fun left right => p right = true → p left = true

theorem leading_iff_of_sorted {p : α → Bool} {items : List α}
    (hsorted : items.Pairwise fun left right => key left < key right) :
    Leading p items ↔ ∀ left ∈ items, ∀ right ∈ items, key left < key right →
      p right = true → p left = true := by
  constructor
  · intro hleads left hleft right hright
    have hforward : items.Pairwise fun left right =>
        key left < key right → p right = true → p left = true :=
      hleads.imp fun {left right} hlead (_ : key left < key right) => hlead
    have hbackward : items.Pairwise fun right left =>
        key left < key right → p right = true → p left = true :=
      hsorted.imp fun {right left} hlt (hgt : key left < key right) =>
        absurd hgt hlt.asymm
    exact hforward.forall_of_forall_of_flip
      (fun item _ hlt => absurd hlt (lt_irrefl _)) hbackward hleft hright
  · intro hall
    exact hsorted.imp_of_mem fun {left right} hleft hright hlt =>
      hall left hleft right hright hlt

/-- They lead exactly when every cut of the list holds as many of them as it
can. -/
theorem countP_take_iff {p : α → Bool} {items : List α} :
    (∀ n, min n (items.countP p) ≤ (items.take n).countP p) ↔
      Leading p items := by
  induction items with
  | nil => simp [Leading]
  | cons head tail ih =>
      rw [Leading, List.pairwise_cons]
      by_cases hhead : p head = true
      · have htail : (∀ n, min n ((head :: tail).countP p) ≤
              ((head :: tail).take n).countP p) ↔
            ∀ n, min n (tail.countP p) ≤ (tail.take n).countP p := by
          constructor
          · intro hcuts n
            have hcut := hcuts (n + 1)
            simp only [List.take_succ_cons, List.countP_cons_of_pos hhead] at hcut
            omega
          · intro hcuts n
            cases n with
            | zero => simp
            | succ n =>
                have hcut := hcuts n
                simp only [List.take_succ_cons, List.countP_cons_of_pos hhead]
                omega
        rw [htail, ih]
        exact ⟨fun hleads => ⟨fun _ _ _ => hhead, hleads⟩, fun hboth => hboth.2⟩
      · constructor
        · intro hcuts
          have hnone : ∀ other ∈ tail, ¬ p other = true := by
            have hcut := hcuts 1
            rw [List.take_succ_cons, List.take_zero,
              List.countP_cons_of_neg hhead, List.countP_cons_of_neg hhead,
              List.countP_nil] at hcut
            exact List.countP_eq_zero.mp (by omega)
          refine ⟨fun other hother hp => absurd hp (hnone other hother), ?_⟩
          apply List.pairwise_of_forall_mem_list
          intro left _ right hright hp
          exact absurd hp (hnone right hright)
        · rintro ⟨hnone, -⟩ n
          have hzero : (head :: tail).countP p = 0 := by
            rw [List.countP_cons_of_neg hhead, List.countP_eq_zero]
            exact fun other hother hp => hhead (hnone other hother hp)
          simp [hzero]

/-- A round of a search for the best admissible item keeps the better of two. -/
structure KeepsBest (key : α → κ) (admissible : α → Prop)
    (step : Option α → α → Option α) : Prop where
  skip : ∀ best item, ¬ admissible item → step best item = best
  first : ∀ item, admissible item → step none item = some item
  better : ∀ cur item, admissible cur → admissible item →
    step (some cur) item = if key cur < key item then some item else some cur

/-- The best admissible item of a list. -/
structure Best (key : α → κ) (admissible : α → Prop) (items : List α)
    (best : α) : Prop where
  listed : best ∈ items
  allowed : admissible best
  greatest : ∀ other ∈ items, admissible other → key other ≤ key best

section Search

variable {admissible : α → Prop} {items fewer : List α} {best : α}

/-- The best item stays the best of any part of the list that holds it. -/
theorem Best.of_subset (hbest : Best key admissible items best)
    (hsub : fewer ⊆ items) (hmem : best ∈ fewer) :
    Best key admissible fewer best :=
  ⟨hmem, hbest.allowed, fun other hother hok =>
    hbest.greatest other (hsub hother) hok⟩

/-- It stays the best when nothing better is added. -/
theorem Best.extend (hbest : Best key admissible fewer best)
    (hsub : fewer ⊆ items) (hadded : ∀ item ∈ items, item ∉ fewer →
      admissible item → key item ≤ key best) :
    Best key admissible items best := by
  refine ⟨hsub hbest.listed, hbest.allowed, ?_⟩
  intro other hother hok
  by_cases hold : other ∈ fewer
  · exact hbest.greatest other hold hok
  · exact hadded other hother hold hok

variable {step : Option α → α → Option α}
  (hstep : KeepsBest key admissible step)

include hstep

theorem foldl_some_spec {cur : α} (hcur : admissible cur) :
    ∃ best, items.foldl step (some cur) = some best ∧
      Best key admissible (cur :: items) best := by
  induction items generalizing cur with
  | nil =>
      refine ⟨cur, rfl, List.mem_cons_self, hcur, ?_⟩
      intro other hother _
      rw [List.mem_singleton.mp hother]
  | cons head tail ih =>
      have hskipHead : cur :: tail ⊆ cur :: head :: tail :=
        List.cons_subset_cons cur (List.subset_cons_self head tail)
      rw [List.foldl_cons]
      by_cases hhead : admissible head
      · rw [hstep.better cur head hcur hhead]
        by_cases hlt : key cur < key head
        · rw [if_pos hlt]
          obtain ⟨best, hfold, hbest⟩ := ih hhead
          refine ⟨best, hfold, hbest.extend (List.subset_cons_self _ _) ?_⟩
          intro item hitem hadded _
          obtain rfl := (List.mem_cons.mp hitem).resolve_right hadded
          exact hlt.le.trans (hbest.greatest head List.mem_cons_self hhead)
        · rw [if_neg hlt]
          obtain ⟨best, hfold, hbest⟩ := ih hcur
          refine ⟨best, hfold, hbest.extend hskipHead ?_⟩
          intro item hitem hadded _
          simp only [List.mem_cons, not_or] at hitem hadded
          obtain rfl : item = head := by tauto
          exact (not_lt.mp hlt).trans
            (hbest.greatest cur List.mem_cons_self hcur)
      · rw [hstep.skip (some cur) head hhead]
        obtain ⟨best, hfold, hbest⟩ := ih hcur
        refine ⟨best, hfold, hbest.extend hskipHead ?_⟩
        intro item hitem hadded hok
        simp only [List.mem_cons, not_or] at hitem hadded
        obtain rfl : item = head := by tauto
        exact absurd hok hhead

/-- The search finds the best admissible item, if there is one. -/
theorem foldl_none_spec :
    match items.foldl step none with
    | none => ∀ item ∈ items, ¬ admissible item
    | some best => Best key admissible items best := by
  induction items with
  | nil => simp
  | cons head tail ih =>
      rw [List.foldl_cons]
      by_cases hhead : admissible head
      · rw [hstep.first head hhead]
        obtain ⟨best, hfold, hbest⟩ := @foldl_some_spec _ _ _ _ _ tail _ hstep
          head hhead
        rw [hfold]
        exact hbest
      · rw [hstep.skip none head hhead]
        cases hfold : tail.foldl step none with
        | none =>
            rw [hfold] at ih
            exact List.forall_mem_cons.mpr ⟨hhead, ih⟩
        | some best =>
            rw [hfold] at ih
            refine Best.extend ih (List.subset_cons_self head tail) ?_
            intro item hitem hadded hok
            obtain rfl := (List.mem_cons.mp hitem).resolve_right hadded
            exact absurd hok hhead

theorem foldl_eq_some_of_best (hbest : Best key admissible items best) :
    ∃ found, items.foldl step none = some found ∧ key found = key best := by
  have hspec := @foldl_none_spec _ _ _ _ _ items _ hstep
  cases hfold : items.foldl step none with
  | none =>
      rw [hfold] at hspec
      exact absurd hbest.allowed (hspec best hbest.listed)
  | some found =>
      rw [hfold] at hspec
      exact ⟨found, rfl, le_antisymm
        (hbest.greatest found hspec.listed hspec.allowed)
        (hspec.greatest best hbest.listed hbest.allowed)⟩

end Search

end Ranking
