/-
Times at which something occurs, and a scan that goes from each to the next.
-/
import Mathlib

namespace Occurrences

universe u

variable {T : Type u} [LinearOrder T]

/-- The first of some times; none if there are none. -/
def First (times : Set T) : Option T → Prop
  | some found => IsLeast times found
  | none => times = ∅

theorem First.unique {times : Set T} {left right : Option T}
    (hleft : First times left) (hright : First times right) : left = right := by
  cases left with
  | none =>
      cases right with
      | none => rfl
      | some found =>
          have hnone : times = ∅ := hleft
          rw [hnone] at hright
          exact absurd hright.1 (Set.notMem_empty found)
  | some found =>
      cases right with
      | none =>
          have hnone : times = ∅ := hright
          rw [hnone] at hleft
          exact absurd hleft.1 (Set.notMem_empty found)
      | some other => rw [IsLeast.unique hleft hright]

/-- `next` gives the first occurrence after a time, if there is one. -/
def Finds (occurs : T → Prop) (next : T → Option T) : Prop :=
  ∀ after, First {time | occurs time ∧ after < time} (next after)

theorem Finds.least {occurs : T → Prop} {next : T → Option T}
    (hnext : Finds occurs next) (after found : T)
    (hfound : next after = some found) :
    IsLeast {time | occurs time ∧ after < time} found := by
  have hfirst := hnext after
  rwa [hfound] at hfirst

theorem Finds.none_later {occurs : T → Prop} {next : T → Option T}
    (hnext : Finds occurs next) (after : T) (hnone : next after = none)
    (time : T) (hoccurs : occurs time) : ¬ after < time := by
  intro hlater
  have hempty := hnext after
  rw [hnone] at hempty
  exact (Set.eq_empty_iff_forall_notMem.mp hempty time) ⟨hoccurs, hlater⟩

/-- The occurrences after a time and up to `now`, at most so many of them. -/
def scan (next : T → Option T) (now : T) : Nat → T → List T
  | 0, _ => []
  | count + 1, after =>
      match next after with
      | some found =>
          if found ≤ now then found :: scan next now count found else []
      | none => []

section Scanning

variable {occurs : T → Prop} {next : T → Option T} {now after time found : T}
  {count : Nat}

theorem mem_scan (hnext : Finds occurs next)
    (htime : time ∈ scan next now count after) :
    occurs time ∧ after < time ∧ time ≤ now := by
  induction count generalizing after with
  | zero => cases htime
  | succ count ih =>
      rw [scan] at htime
      split at htime
      next found hfound =>
        obtain ⟨⟨hoccurs, hlater⟩, -⟩ := hnext.least after found hfound
        split at htime
        next hnow =>
          rcases List.mem_cons.mp htime with rfl | htime
          · exact ⟨hoccurs, hlater, hnow⟩
          · obtain ⟨hother, hbehind, hbefore⟩ := ih htime
            exact ⟨hother, hlater.trans hbehind, hbefore⟩
        next => cases htime
      next => cases htime

theorem scan_pairwise (hnext : Finds occurs next) (now after : T)
    (count : Nat) : (scan next now count after).Pairwise (· < ·) := by
  induction count generalizing after with
  | zero => exact List.Pairwise.nil
  | succ count ih =>
      rw [scan]
      split
      next found hfound =>
        split
        next =>
          refine List.pairwise_cons.mpr ⟨fun other hother => ?_, ih found⟩
          exact (mem_scan hnext hother).2.1
        next => exact List.Pairwise.nil
      next => exact List.Pairwise.nil

theorem length_scan_le (now after : T) (count : Nat) :
    (scan next now count after).length ≤ count := by
  induction count generalizing after with
  | zero => exact Nat.le_refl 0
  | succ count ih =>
      rw [scan]
      split
      next found _ =>
        split
        next => exact Nat.succ_le_succ (ih found)
        next => exact Nat.zero_le _
      next => exact Nat.zero_le _

/-- An occurrence is found, or the scan has ended before it with all that it
may find. -/
theorem mem_scan_or (hnext : Finds occurs next) (hoccurs : occurs time)
    (hlater : after < time) (hnow : time ≤ now) :
    time ∈ scan next now count after ∨
      (scan next now count after).length = count ∧
        ∀ found ∈ scan next now count after, found < time := by
  induction count generalizing after with
  | zero => exact Or.inr ⟨rfl, fun found hfound => by cases hfound⟩
  | succ count ih =>
      rw [scan]
      cases hfound : next after with
      | none => exact absurd hlater (hnext.none_later after hfound time hoccurs)
      | some found =>
          obtain ⟨-, hleast⟩ := hnext.least after found hfound
          have hle : found ≤ time := hleast ⟨hoccurs, hlater⟩
          simp only [hle.trans hnow, if_true]
          rcases hle.eq_or_lt with rfl | hlt
          · exact Or.inl List.mem_cons_self
          · rcases ih hlt with hmem | ⟨hlength, hbefore⟩
            · exact Or.inl (List.mem_cons_of_mem _ hmem)
            · refine Or.inr ⟨congrArg Nat.succ hlength, ?_⟩
              intro other hother
              rcases List.mem_cons.mp hother with rfl | hother
              · exact hlt
              · exact hbefore other hother

/-- What stands in a scan before one of its times is found too. -/
theorem mem_scan_of_le (hnext : Finds occurs next)
    (hfound : found ∈ scan next now count after) (hoccurs : occurs time)
    (hlater : after < time) (hle : time ≤ found) :
    time ∈ scan next now count after := by
  have hnow := (mem_scan hnext hfound).2.2
  have hfinds : time ∈ scan next now count after ∨ _ :=
    mem_scan_or hnext hoccurs hlater (hle.trans hnow)
  rcases hfinds with hmem | ⟨-, hbefore⟩
  · exact hmem
  · exact absurd hle (not_le.mpr (hbefore found hfound))

theorem encard_scan (hnext : Finds occurs next) (now after : T) (count : Nat) :
    {time | time ∈ scan next now count after}.encard =
      (scan next now count after).length := by
  have hnodup : (scan next now count after).Nodup :=
    (scan_pairwise hnext now after count).imp ne_of_lt
  rw [← List.toFinset_card_of_nodup hnodup, ← Set.encard_coe_eq_coe_finsetCard]
  congr 1
  ext time
  simp

/-- A scan that may find as many times as there are finds them all. -/
theorem mem_scan_of_encard (hnext : Finds occurs next)
    (hcount : {other | occurs other ∧ after < other ∧ other ≤ now}.encard ≤
      count)
    (hoccurs : occurs time) (hlater : after < time) (hnow : time ≤ now) :
    time ∈ scan next now count after := by
  have hfinds : time ∈ scan next now count after ∨ _ :=
    mem_scan_or hnext hoccurs hlater hnow
  rcases hfinds with hmem | ⟨hlength, hbefore⟩
  · exact hmem
  · exfalso
    have hout : time ∉ {other | other ∈ scan next now count after} :=
      fun hmem => lt_irrefl time (hbefore time hmem)
    have hsub : insert time {other | other ∈ scan next now count after} ⊆
        {other | occurs other ∧ after < other ∧ other ≤ now} := by
      rintro other (rfl | hother)
      · exact ⟨hoccurs, hlater, hnow⟩
      · exact mem_scan hnext hother
    have hcard := (Set.encard_le_encard hsub).trans hcount
    rw [Set.encard_insert_of_notMem hout, encard_scan hnext,
      hlength] at hcard
    exact absurd hcard (by norm_cast; omega)

/-- The last occurrences up to a time: so many before it, and itself. -/
def Trailing (occurs : T → Prop) (last : T) (others : Nat) : Set T :=
  {time | occurs time ∧ time ≤ last ∧
    {other | occurs other ∧ time < other ∧ other ≤ last}.encard ≤ others}

theorem le_getLast_scan (hnext : Finds occurs next) {last : T}
    (hlast : (scan next now count after).getLast? = some last)
    (htime : time ∈ scan next now count after) : time ≤ last := by
  obtain ⟨front, hfront⟩ := List.getLast?_eq_some_iff.mp hlast
  have hsorted := scan_pairwise hnext now after count
  rw [hfront] at htime hsorted
  rcases List.mem_append.mp htime with htime | htime
  · exact le_of_lt ((List.pairwise_append.mp hsorted).2.2 time htime last
      (List.mem_singleton.mpr rfl))
  · exact le_of_eq (List.mem_singleton.mp htime)

/-- What a scan finds lies up to where it has come. -/
theorem le_getD_scan (hnext : Finds occurs next)
    (htime : time ∈ scan next now count after) :
    time ≤ (scan next now count after).getLast?.getD after := by
  cases hlast : (scan next now count after).getLast? with
  | none =>
      rw [List.getLast?_eq_none_iff.mp hlast] at htime
      cases htime
  | some last => exact le_getLast_scan hnext hlast htime

/-- A scan comes to a time up to `now`, or stays where it was. -/
theorem getD_scan (hnext : Finds occurs next) (now after : T) (count : Nat) :
    after ≤ (scan next now count after).getLast?.getD after ∧
      ((scan next now count after).getLast?.getD after ≤ now ∨
        (scan next now count after).getLast?.getD after = after) := by
  cases hlast : (scan next now count after).getLast? with
  | none => exact ⟨le_refl after, Or.inr rfl⟩
  | some last =>
      obtain ⟨-, hlater, hnow⟩ := mem_scan hnext (List.mem_of_getLast? hlast)
      exact ⟨le_of_lt hlater, Or.inl hnow⟩

/-- The last time of a scan and the number of the others tell what it found. -/
theorem trailing_scan (hnext : Finds occurs next) {last : T}
    (hlast : (scan next now count after).getLast? = some last) :
    Trailing occurs last ((scan next now count after).length - 1) =
      {time | time ∈ scan next now count after} := by
  have hmem : last ∈ scan next now count after := List.mem_of_getLast? hlast
  have hpos := List.length_pos_of_mem hmem
  ext time
  constructor
  · rintro ⟨hoccurs, hle, hcard⟩
    by_contra hout
    have hbefore : ¬ after < time := fun hlater =>
      hout (mem_scan_of_le hnext hmem hoccurs hlater hle)
    have hsub : {other | other ∈ scan next now count after} ⊆
        {other | occurs other ∧ time < other ∧ other ≤ last} := by
      intro other hother
      obtain ⟨hfound, hlater, -⟩ := mem_scan hnext hother
      exact ⟨hfound, (not_lt.mp hbefore).trans_lt hlater,
        le_getLast_scan hnext hlast hother⟩
    have hcards := (Set.encard_le_encard hsub).trans hcard
    rw [encard_scan hnext] at hcards
    exact absurd hcards (by norm_cast; omega)
  · intro htime
    obtain ⟨hoccurs, hlater, -⟩ := mem_scan hnext htime
    refine ⟨hoccurs, le_getLast_scan hnext hlast htime, ?_⟩
    have hout : time ∉ {other | occurs other ∧ time < other ∧ other ≤ last} :=
      fun hother => lt_irrefl time hother.2.1
    have hsub : insert time
        {other | occurs other ∧ time < other ∧ other ≤ last} ⊆
          {other | other ∈ scan next now count after} := by
      rintro other (rfl | ⟨hfound, hbehind, hle⟩)
      · exact htime
      · exact mem_scan_of_le hnext hmem hfound (hlater.trans hbehind) hle
    have hcards := Set.encard_le_encard hsub
    rw [Set.encard_insert_of_notMem hout,
      encard_scan hnext] at hcards
    have hsplit : ((scan next now count after).length : ℕ∞) =
        ((scan next now count after).length - 1 : ℕ) + 1 := by
      norm_cast
      omega
    rw [hsplit] at hcards
    exact (ENat.add_le_add_iff_right ENat.one_ne_top).mp hcards

end Scanning

end Occurrences
