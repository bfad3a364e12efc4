/-
Maps as lists of entries with ascending keys: insertion, lookup, and the map
that a list of entries builds.
-/
import Mathlib

namespace SortedMap

universe u v

variable {κ : Type u} {ν : Type v}

theorem lookup_eq_some_iff_mem [BEq κ] [LawfulBEq κ]
    {entries : List (κ × ν)} {key : κ} {value : ν}
    (hkeys : (entries.map Prod.fst).Nodup) :
    entries.lookup key = some value ↔ (key, value) ∈ entries := by
  induction entries with
  | nil => simp
  | cons entry rest ih =>
      obtain ⟨hfirst, hrest⟩ := List.nodup_cons.mp hkeys
      obtain ⟨first, held⟩ := entry
      rw [List.lookup_cons]
      by_cases hkey : key = first
      · subst hkey
        have hnot : (key, value) ∉ rest := fun hmem =>
          hfirst (List.mem_map.mpr ⟨_, hmem, rfl⟩)
        simp [hnot, eq_comm]
      · rw [beq_eq_false_iff_ne.mpr hkey]
        simp [hkey, ih hrest]

/-- What only the entry of one key contributes to. -/
theorem flatMap_eq_of_lookup {β : Type*} [BEq κ] [LawfulBEq κ] (key : κ)
    (empty : ν) {entries : List (κ × ν)}
    (hkeys : (entries.map Prod.fst).Nodup) {f : κ × ν → List β}
    (hothers : ∀ entry ∈ entries, entry.1 ≠ key → f entry = [])
    (hempty : f (key, empty) = []) :
    entries.flatMap f = f (key, (entries.lookup key).getD empty) := by
  induction entries with
  | nil => exact hempty.symm
  | cons entry rest ih =>
      obtain ⟨hfirst, hrest⟩ := List.nodup_cons.mp hkeys
      have hbehind := ih hrest fun other hother =>
        hothers other (List.mem_cons_of_mem _ hother)
      obtain ⟨first, held⟩ := entry
      rw [List.flatMap_cons, List.lookup_cons, hbehind]
      by_cases hkey : key = first
      · have hnone : rest.lookup key = none := by
          rw [List.lookup_eq_none_iff]
          intro other hother
          rw [bne_iff_ne]
          intro hsame
          refine hfirst (List.mem_map.mpr ⟨other, hother, ?_⟩)
          rw [← hsame, hkey]
        rw [hnone, beq_iff_eq.mpr hkey, hkey]
        dsimp only
        rw [hkey] at hempty
        rw [Option.getD_none, hempty, List.append_nil, Option.getD_some]
      · rw [beq_eq_false_iff_ne.mpr hkey,
          hothers _ List.mem_cons_self (Ne.symm hkey), List.nil_append]

variable [LinearOrder κ]

def insertEntry (key : κ) (value : ν) : List (κ × ν) → List (κ × ν)
  | [] => [(key, value)]
  | entry :: rest =>
      if key < entry.1 then (key, value) :: entry :: rest
      else if key = entry.1 then (key, value) :: rest
      else entry :: insertEntry key value rest

theorem mem_insertEntry {key : κ} {value : ν} {entries : List (κ × ν)}
    (hsorted : (entries.map Prod.fst).Pairwise (· < ·)) {entry : κ × ν} :
    entry ∈ insertEntry key value entries ↔
      entry = (key, value) ∨ entry.1 ≠ key ∧ entry ∈ entries := by
  induction entries with
  | nil => simp [insertEntry]
  | cons first rest ih =>
      obtain ⟨hfirst, hrest⟩ := List.pairwise_cons.mp hsorted
      have hbehind : ∀ other ∈ rest, first.1 < other.1 := fun other hother =>
        hfirst other.1 (List.mem_map_of_mem hother)
      rw [insertEntry]
      split
      next hlt =>
        have hall : ∀ other ∈ first :: rest, other.1 ≠ key := by
          intro other hother
          rcases List.mem_cons.mp hother with rfl | hlater
          · exact hlt.ne'
          · exact (hlt.trans (hbehind other hlater)).ne'
        rw [List.mem_cons]
        refine or_congr_right ⟨fun hmem => ⟨hall entry hmem, hmem⟩, And.right⟩
      next hnot =>
        split
        next heq =>
          have hall : ∀ other ∈ rest, other.1 ≠ key := by
            intro other hother
            rw [heq]
            exact (hbehind other hother).ne'
          rw [List.mem_cons, List.mem_cons]
          refine or_congr_right ⟨fun hmem => ⟨hall entry hmem, Or.inr hmem⟩, ?_⟩
          rintro ⟨hne, rfl | hmem⟩
          · exact absurd heq.symm hne
          · exact hmem
        next hne =>
          rw [List.mem_cons, ih hrest, List.mem_cons]
          constructor
          · rintro (rfl | rfl | ⟨hkey, hmem⟩)
            · exact Or.inr ⟨fun heq => hne heq.symm, Or.inl rfl⟩
            · exact Or.inl rfl
            · exact Or.inr ⟨hkey, Or.inr hmem⟩
          · rintro (rfl | ⟨hkey, rfl | hmem⟩)
            · exact Or.inr (Or.inl rfl)
            · exact Or.inl rfl
            · exact Or.inr (Or.inr ⟨hkey, hmem⟩)

theorem insertEntry_sorted {key : κ} {value : ν} {entries : List (κ × ν)}
    (hsorted : (entries.map Prod.fst).Pairwise (· < ·)) :
    ((insertEntry key value entries).map Prod.fst).Pairwise (· < ·) := by
  induction entries with
  | nil => exact List.pairwise_singleton _ _
  | cons first rest ih =>
      obtain ⟨hfirst, hrest⟩ := List.pairwise_cons.mp hsorted
      rw [insertEntry]
      split
      next hlt =>
        refine List.pairwise_cons.mpr ⟨?_, hsorted⟩
        intro other hother
        rcases List.mem_cons.mp hother with rfl | hlater
        · exact hlt
        · exact hlt.trans (hfirst other hlater)
      next hnot =>
        split
        next heq =>
          refine List.pairwise_cons.mpr ⟨?_, hrest⟩
          intro other hother
          exact heq ▸ hfirst other hother
        next hne =>
          refine List.pairwise_cons.mpr ⟨?_, ih hrest⟩
          intro other hother
          obtain ⟨entry, hentry, rfl⟩ := List.mem_map.mp hother
          rcases (mem_insertEntry hrest).mp hentry with rfl | ⟨-, hlater⟩
          · exact lt_of_le_of_ne (not_lt.mp hnot) fun heq => hne heq.symm
          · exact hfirst entry.1 (List.mem_map_of_mem hlater)

structure Map (κ : Type u) (ν : Type v) [LinearOrder κ] where
  entries : List (κ × ν)
  sorted : (entries.map Prod.fst).Pairwise (· < ·)

namespace Map

def empty : Map κ ν where
  entries := []
  sorted := List.Pairwise.nil

def insert (map : Map κ ν) (key : κ) (value : ν) : Map κ ν where
  entries := insertEntry key value map.entries
  sorted := insertEntry_sorted map.sorted

def get (map : Map κ ν) (key : κ) : Option ν :=
  map.entries.lookup key

def keys (map : Map κ ν) : List κ :=
  map.entries.map Prod.fst

/-- The entries inserted one after the other. -/
def ofEntries (entries : List (κ × ν)) : Map κ ν :=
  entries.foldl (fun map entry => map.insert entry.1 entry.2) empty

theorem get_eq_some_iff {map : Map κ ν} {key : κ} {value : ν} :
    map.get key = some value ↔ (key, value) ∈ map.entries :=
  lookup_eq_some_iff_mem (map.sorted.imp ne_of_lt)

theorem get_insert (map : Map κ ν) (key other : κ) (value : ν) :
    (map.insert key value).get other =
      if other = key then some value else map.get other := by
  have hentries : ∀ found, (map.insert key value).get other = some found ↔
      (if other = key then some value else map.get other) = some found := by
    intro found
    rw [get_eq_some_iff, insert, mem_insertEntry map.sorted, Prod.mk.injEq]
    split
    next hsame => simp [hsame, eq_comm]
    next hother => simp [hother, get_eq_some_iff]
  cases hget : (map.insert key value).get other with
  | some found => exact ((hentries found).mp hget).symm
  | none =>
      cases hif : (if other = key then some value else map.get other) with
      | none => rfl
      | some found =>
          rw [(hentries found).mpr hif] at hget
          cases hget

theorem mem_keys_iff {map : Map κ ν} {key : κ} :
    key ∈ map.keys ↔ (map.get key).isSome := by
  rw [Option.isSome_iff_exists]
  simp only [get_eq_some_iff, keys, List.mem_map, Prod.exists, exists_and_right,
    exists_eq_right]

theorem mem_foldl_insert {map : Map κ ν} {entries : List (κ × ν)}
    (hkeys : (entries.map Prod.fst).Nodup) {entry : κ × ν} :
    entry ∈ (entries.foldl (fun map entry => map.insert entry.1 entry.2)
        map).entries ↔
      entry ∈ entries ∨ entry.1 ∉ entries.map Prod.fst ∧
        entry ∈ map.entries := by
  induction entries generalizing map with
  | nil => simp
  | cons first rest ih =>
      obtain ⟨hfirst, hrest⟩ := List.nodup_cons.mp hkeys
      rw [List.foldl_cons, ih hrest, insert, mem_insertEntry map.sorted,
        List.mem_cons, List.map_cons, List.mem_cons]
      constructor
      · rintro (hlater | ⟨hnot, rfl | ⟨hne, hmem⟩⟩)
        · exact Or.inl (Or.inr hlater)
        · exact Or.inl (Or.inl rfl)
        · exact Or.inr ⟨not_or.mpr ⟨hne, hnot⟩, hmem⟩
      · rintro ((rfl | hlater) | ⟨hnot, hmem⟩)
        · exact Or.inr ⟨hfirst, Or.inl rfl⟩
        · exact Or.inl hlater
        · obtain ⟨hne, hnot⟩ := not_or.mp hnot
          exact Or.inr ⟨hnot, Or.inr ⟨hne, hmem⟩⟩

/-- With one entry for each key, all of them are found again. -/
theorem get_ofEntries_eq_some_iff {entries : List (κ × ν)}
    (hkeys : (entries.map Prod.fst).Nodup) {key : κ} {value : ν} :
    (ofEntries entries).get key = some value ↔ (key, value) ∈ entries := by
  rw [get_eq_some_iff, ofEntries, mem_foldl_insert hkeys]
  simp [empty]

/-- The entries of a second map stand before those of a first. -/
def overlay (map upper : Map κ ν) : Map κ ν :=
  upper.entries.foldl (fun map entry => map.insert entry.1 entry.2) map

theorem get_overlay (map upper : Map κ ν) (key : κ) :
    (map.overlay upper).get key = (upper.get key).or (map.get key) := by
  have hkeys : (upper.entries.map Prod.fst).Nodup := upper.sorted.imp ne_of_lt
  have hnone : upper.get key = none ↔ key ∉ upper.entries.map Prod.fst := by
    rw [← Option.not_isSome_iff_eq_none, ← mem_keys_iff, keys]
  cases hover : upper.get key with
  | some value =>
      have hmem : (key, value) ∈ (map.overlay upper).entries :=
        (mem_foldl_insert hkeys).mpr (Or.inl (get_eq_some_iff.mp hover))
      rw [get_eq_some_iff.mpr hmem]
      rfl
  | none =>
      have hnot := hnone.mp hover
      cases hmap : map.get key with
      | some value =>
          have hmem : (key, value) ∈ (map.overlay upper).entries :=
            (mem_foldl_insert hkeys).mpr
              (Or.inr ⟨hnot, get_eq_some_iff.mp hmap⟩)
          rw [get_eq_some_iff.mpr hmem]
          rfl
      | none =>
          cases hget : (map.overlay upper).get key with
          | none => rfl
          | some value =>
              rcases (mem_foldl_insert hkeys).mp (get_eq_some_iff.mp hget) with
                hmem | ⟨-, hmem⟩
              · exact absurd (List.mem_map_of_mem hmem) hnot
              · rw [get_eq_some_iff.mpr hmem] at hmap
                cases hmap

def erase (map : Map κ ν) (key : κ) : Map κ ν where
  entries := map.entries.filter fun entry => entry.1 ≠ key
  sorted := map.sorted.sublist (List.filter_sublist.map _)

theorem get_erase (map : Map κ ν) (key other : κ) :
    (map.erase key).get other = if other = key then none else map.get other := by
  have hentries : ∀ value, (map.erase key).get other = some value ↔
      other ≠ key ∧ map.get other = some value := by
    intro value
    rw [get_eq_some_iff, get_eq_some_iff, erase, List.mem_filter,
      decide_eq_true_eq, and_comm]
  split
  next hsame =>
    rw [Option.eq_none_iff_forall_ne_some]
    exact fun value hvalue => ((hentries value).mp hvalue).1 hsame
  next hother =>
    refine Option.ext fun value => ?_
    rw [hentries, and_iff_right hother]

/-- A map is what can be found in it. -/
theorem ext_get {map other : Map κ ν} (hget : ∀ key, map.get key = other.get key) :
    map = other := by
  have hmem : ∀ entry, entry ∈ map.entries ↔ entry ∈ other.entries := by
    rintro ⟨key, value⟩
    rw [← get_eq_some_iff, ← get_eq_some_iff, hget]
  have hnodup : ∀ m : Map κ ν, m.entries.Nodup := fun m =>
    (m.sorted.imp ne_of_lt).of_map Prod.fst fun _ _ hne heq =>
      hne (congrArg Prod.fst heq)
  have hperm := (List.perm_ext_iff_of_nodup (hnodup map) (hnodup other)).mpr hmem
  have hsame : map.entries = other.entries :=
    hperm.eq_of_pairwise (fun a b _ _ hab hba => absurd hba (lt_asymm hab))
      (List.pairwise_map.mp map.sorted) (List.pairwise_map.mp other.sorted)
  cases map
  cases other
  cases hsame
  rfl

@[simp] theorem ofEntries_entries (map : Map κ ν) : ofEntries map.entries = map := by
  refine ext_get fun key => Option.ext fun value => ?_
  rw [get_ofEntries_eq_some_iff (map.sorted.imp ne_of_lt), get_eq_some_iff]

theorem entries_ofEntries {entries : List (κ × ν)}
    (hsorted : (entries.map Prod.fst).Pairwise (· < ·)) :
    (ofEntries entries).entries = entries :=
  congrArg Map.entries (ofEntries_entries ⟨entries, hsorted⟩)

theorem ofEntries_concat (entries : List (κ × ν)) (key : κ) (value : ν) :
    ofEntries (entries ++ [(key, value)]) = (ofEntries entries).insert key value := by
  rw [ofEntries, List.foldl_append]
  rfl

theorem insert_insert (map : Map κ ν) (key : κ) (value other : ν) :
    (map.insert key value).insert key other = map.insert key other := by
  refine ext_get fun found => ?_
  rw [get_insert, get_insert, get_insert]
  split <;> rfl

theorem get_ofEntries_eq_none {entries : List (κ × ν)} {key : κ}
    (hkey : key ∉ entries.map Prod.fst) : (ofEntries entries).get key = none := by
  induction entries using List.reverseRecOn with
  | nil => rfl
  | append_singleton entries entry ih =>
      rw [List.map_append, List.mem_append, not_or] at hkey
      rw [ofEntries_concat, get_insert, ih hkey.1, if_neg]
      exact fun heq => hkey.2 (by simp [heq])

/-- The last entry that has a value for something is the one of the greatest
key. -/
theorem findSome?_reverse_eq_some_iff {β : Type*} {map : Map κ ν}
    {f : κ × ν → Option β} {b : β} :
    map.entries.reverse.findSome? f = some b ↔
      ∃ entry ∈ map.entries, f entry = some b ∧
        ∀ other ∈ map.entries, (f other).isSome → other.1 ≤ entry.1 := by
  have hsorted := List.pairwise_map.mp map.sorted
  rw [List.findSome?_eq_some_iff]
  constructor
  · rintro ⟨after, entry, before, hsplit, hvalue, hafter⟩
    rw [List.reverse_eq_iff, List.reverse_append, List.reverse_cons,
      List.append_assoc, List.singleton_append] at hsplit
    rw [hsplit] at hsorted ⊢
    refine ⟨entry, by simp, hvalue, fun other hother hsome => ?_⟩
    rcases List.mem_append.mp hother with hbefore | hother
    · exact ((List.pairwise_append.mp hsorted).2.2 other hbefore entry
        List.mem_cons_self).le
    · rcases List.mem_cons.mp hother with rfl | hlater
      · exact le_rfl
      · rw [hafter other (List.mem_reverse.mp hlater)] at hsome
        cases hsome
  · rintro ⟨entry, hentry, hvalue, hlast⟩
    obtain ⟨before, after, hsplit⟩ := List.append_of_mem hentry
    refine ⟨after.reverse, entry, before.reverse, ?_, hvalue, ?_⟩
    · rw [hsplit, List.reverse_append, List.reverse_cons, List.append_assoc,
        List.singleton_append]
    · intro other hother
      have hother := List.mem_reverse.mp hother
      rw [hsplit] at hsorted
      have hlt := (List.pairwise_cons.mp
        (List.pairwise_append.mp hsorted).2.1).1 other hother
      rw [← Option.not_isSome_iff_eq_none]
      refine fun hsome => hlt.not_ge (hlast other ?_ hsome)
      rw [hsplit]
      exact List.mem_append_right _ (List.mem_cons_of_mem _ hother)

end Map

end SortedMap
