/-
Changing the items of a bag that are found: all of them, or just one.  Which one
is found first depends on the order the bag is read in.
-/
import Mathlib

namespace Touching

universe u

variable {α : Type u}

/-- The first item that is found, changed or taken away. -/
def touchFirst (found : α → Bool) (make : α → Option α) : List α → List α
  | [] => []
  | item :: rest =>
      if found item then (make item).toList ++ rest
      else item :: touchFirst found make rest

def touch (limited : Bool) (found : α → Bool) (make : α → Option α)
    (items : List α) : List α :=
  if limited then touchFirst found make items
  else items.filterMap fun item => if found item then make item else some item

/-- How many items are touched. -/
def touched (limited : Bool) (found : α → Bool) (items : List α) : Nat :=
  if limited then min 1 (items.countP found) else items.countP found

variable {found : α → Bool} {make : α → Option α} {items rest : List α}
  {item : α}

/-- Some item that is found is the one touched. -/
theorem touchFirst_perm (hfound : ∃ item ∈ items, found item = true) :
    ∃ first others, items.Perm (first :: others) ∧ found first = true ∧
      (touchFirst found make items).Perm ((make first).toList ++ others) := by
  induction items with
  | nil => simp at hfound
  | cons head items ih =>
      rw [touchFirst]
      by_cases hhead : found head = true
      · rw [if_pos hhead]
        exact ⟨head, items, .refl _, hhead, .refl _⟩
      · rw [if_neg hhead]
        obtain ⟨item, hitem, hitemFound⟩ := hfound
        have htail : item ∈ items := by
          refine (List.mem_cons.mp hitem).resolve_left fun hsame => ?_
          exact hhead (hsame ▸ hitemFound)
        obtain ⟨first, others, hperm, hfirst, htouch⟩ :=
          ih ⟨item, htail, hitemFound⟩
        refine ⟨first, head :: others, ?_, hfirst, ?_⟩
        · exact (hperm.cons head).trans (.swap first head others)
        · exact (htouch.cons head).trans List.perm_middle.symm

theorem touchFirst_of_not_found (hfound : ∀ item ∈ items, ¬ found item = true) :
    touchFirst found make items = items := by
  induction items with
  | nil => rfl
  | cons head items ih =>
      obtain ⟨hhead, htail⟩ := List.forall_mem_cons.mp hfound
      rw [touchFirst, if_neg hhead, ih htail]

/-- In whatever order the bag is read: if an item is found, and every other that
is found is one the limit lets pass and is the same, then just that item is
touched. -/
theorem touch_perm {limited : Bool} (hitems : items.Perm (item :: rest))
    (hfound : found item = true)
    (hothers : ∀ other ∈ rest, found other = true →
      limited = true ∧ other = item) :
    (touch limited found make items).Perm ((make item).toList ++ rest) ∧
      touched limited found items = 1 := by
  rw [touch, touched, hitems.countP_eq, List.countP_cons_of_pos hfound]
  cases limited with
  | true =>
      refine ⟨?_, by simp⟩
      obtain ⟨first, others, hperm, hfirst, htouch⟩ :=
        @touchFirst_perm α found make items
          ⟨item, hitems.mem_iff.mpr List.mem_cons_self, hfound⟩
      have hmem : first ∈ item :: rest :=
        hitems.mem_iff.mp (hperm.mem_iff.mpr List.mem_cons_self)
      have hsame : first = item :=
        (List.mem_cons.mp hmem).elim id fun hrest =>
          (hothers first hrest hfirst).2
      have hrest : others.Perm rest := by
        rw [hsame] at hperm
        exact (hperm.symm.trans hitems).cons_inv
      rw [if_pos rfl, ← hsame]
      exact htouch.trans (hrest.append_left _)
  | false =>
      have hnone : ∀ other ∈ rest, ¬ found other = true := fun other hother hf =>
        Bool.noConfusion (hothers other hother hf).1
      have hkept : rest.filterMap (fun item =>
          if found item = true then make item else some item) = rest :=
        (List.filterMap_congr fun other hother =>
          if_neg (hnone other hother)).trans List.filterMap_some
      refine ⟨?_, by simp [List.countP_eq_zero.mpr hnone]⟩
      rw [if_neg Bool.false_ne_true]
      refine (hitems.filterMap _).trans ?_
      rw [List.filterMap_cons, if_pos hfound, hkept]
      cases make item <;> rfl

/-- Without a limit every item that is found is changed. -/
theorem touch_some {f : α → α} :
    touch false found (some ∘ f) items =
      items.map fun item => if found item then f item else item := by
  rw [touch, if_neg Bool.false_ne_true, ← List.filterMap_eq_map]
  refine List.filterMap_congr fun item _ => ?_
  rw [Function.comp_apply, Function.comp_apply]
  split <;> rfl

theorem touch_none :
    touch false found (fun _ => none) items =
      items.filter fun item => !found item := by
  rw [touch, if_neg Bool.false_ne_true, ← List.filterMap_eq_filter]
  refine List.filterMap_congr fun item _ => ?_
  rw [Option.guard]
  cases found item <;> rfl

/-- Where no two items are found, the first one is the only one. -/
theorem modify_findIdx? {f : α → α} {index : Nat}
    (honly : items.Pairwise fun left right =>
      found left = true → ¬ found right = true)
    (hindex : items.findIdx? found = some index) :
    items.modify index f =
      items.map fun item => if found item then f item else item := by
  induction items generalizing index with
  | nil => cases hindex
  | cons head items ih =>
      obtain ⟨hhead, htail⟩ := List.pairwise_cons.mp honly
      rw [List.findIdx?_cons] at hindex
      rw [List.map_cons]
      by_cases hfound : found head = true
      · rw [if_pos hfound] at hindex
        cases hindex
        rw [List.modify_zero_cons, if_pos hfound]
        congr 1
        refine ((List.map_congr_left fun item hitem => ?_).trans
          (List.map_id items)).symm
        exact if_neg (hhead item hitem hfound)
      · rw [if_neg hfound] at hindex ⊢
        obtain ⟨before, hbefore, rfl⟩ := Option.map_eq_some_iff.mp hindex
        rw [List.modify_succ_cons, ih htail hbefore]

end Touching
