/-
Streams of marks that open a section, give numbers of items in it and close it:
the items of every section are counted, or recorded as each section ends.
-/
import XBackup.Foundation.SortedMap

namespace Tally

open SortedMap

universe u v

inductive Mark (κ : Type u) where
  | opens (key : κ)
  | items (count : Nat)
  | closes
  | stops
  | other

variable {κ : Type u} [LinearOrder κ] {ε : Type v}

/-- A key that is new is counted from zero. -/
def opened (counts : Map κ Nat) (key : κ) : Map κ Nat :=
  if (counts.get key).isSome then counts else counts.insert key 0

def added (counts : Map κ Nat) (key : κ) (count : Nat) : Map κ Nat :=
  match counts.get key with
  | some total => counts.insert key (total + count)
  | none => counts

/-- Count the items of the sections up to a mark that stops, or up to the end of
the marks; items outside of a section are an error. -/
def tally (outside : ε) (ended : Option ε) (counts : Map κ Nat)
    (current : Option κ) : List (Mark κ) → Except ε (Map κ Nat)
  | [] =>
      match ended with
      | some err => .error err
      | none => .ok counts
  | .opens key :: rest =>
      tally outside ended (opened counts key) (some key) rest
  | .items count :: rest =>
      match current with
      | none => .error outside
      | some key => tally outside ended (added counts key count) current rest
  | .closes :: rest => tally outside ended counts none rest
  | .stops :: _ => .ok counts
  | .other :: rest => tally outside ended counts current rest

/-- A section as it is counted: with its key, the items of all its parts. -/
def counted (counts : Map κ Nat) (part : κ × List Nat) : Map κ Nat :=
  added (opened counts part.1) part.1 part.2.sum

def tallied (parts : List (κ × List Nat)) : Map κ Nat :=
  parts.foldl counted .empty

/-- What is recorded of each section behind it. -/
def recorded (parts : List (κ × List Nat)) : Map κ Nat :=
  .ofEntries (parts.map fun part => (part.1, part.2.sum))

/-- The marks of a section, which may be closed by the next one. -/
def marks (closing : List (Mark κ)) (part : κ × List Nat) : List (Mark κ) :=
  .opens part.1 :: (part.2.map Mark.items ++ closing)

section Counts

variable {counts : Map κ Nat} {key other : κ} {count : Nat}
  {part : κ × List Nat} {parts : List (κ × List Nat)}

theorem get_opened : (opened counts key).get other =
    if other = key then some ((counts.get key).getD 0)
    else counts.get other := by
  rw [opened]
  cases hget : counts.get key with
  | some total =>
      rw [if_pos Option.isSome_some]
      split
      next hsame => rw [hsame, hget, Option.getD_some]
      next => rfl
  | none =>
      rw [if_neg (by simp), Map.get_insert]
      rfl

theorem get_added (hkey : (counts.get key).isSome) :
    (added counts key count).get other =
      if other = key then some ((counts.get key).getD 0 + count)
      else counts.get other := by
  obtain ⟨total, htotal⟩ := Option.isSome_iff_exists.mp hkey
  simp only [added, htotal, Map.get_insert, Option.getD_some]

theorem get_counted : (counted counts part).get other =
    if other = part.1 then some ((counts.get part.1).getD 0 + part.2.sum)
    else counts.get other := by
  rw [counted, get_added (by simp [get_opened]), get_opened, get_opened,
    if_pos rfl, Option.getD_some]
  split <;> rfl

theorem added_added (hkey : (counts.get key).isSome) (more : Nat) :
    added (added counts key count) key more =
      added counts key (count + more) := by
  refine Map.ext_get fun found => ?_
  rw [get_added (by simp [get_added hkey]), get_added hkey, get_added hkey,
    get_added hkey, if_pos rfl, Option.getD_some, Nat.add_assoc]
  split <;> rfl

theorem added_zero : added counts key 0 = counts := by
  refine Map.ext_get fun found => ?_
  cases hget : counts.get key with
  | none => rw [added, hget]
  | some total =>
      rw [get_added (by simp [hget]), hget]
      split
      next hsame => rw [hsame, hget, Option.getD_some, Nat.add_zero]
      next => rfl

theorem tallied_concat :
    tallied (parts ++ [part]) = counted (tallied parts) part := by
  rw [tallied, List.foldl_concat, tallied]

theorem recorded_concat :
    recorded (parts ++ [part]) =
      (recorded parts).insert part.1 part.2.sum := by
  rw [recorded, List.map_append, List.map_singleton, Map.ofEntries_concat, recorded]

def total (parts : List (κ × List Nat)) (key : κ) : Nat :=
  ((parts.filter fun part => part.1 = key).map fun part => part.2.sum).sum

theorem isSome_tallied :
    ((tallied parts).get key).isSome ↔ key ∈ parts.map Prod.fst := by
  induction parts using List.reverseRecOn with
  | nil => exact iff_of_false Bool.false_ne_true List.not_mem_nil
  | append_singleton parts part ih =>
      rw [tallied_concat, get_counted, List.map_append, List.mem_append, ← ih]
      by_cases hkey : key = part.1
      · simp [hkey]
      · simp [hkey]

/-- All items of the sections of a key are counted for it. -/
theorem getD_tallied : ((tallied parts).get key).getD 0 = total parts key := by
  induction parts using List.reverseRecOn with
  | nil => rfl
  | append_singleton parts part ih =>
      rw [tallied_concat, get_counted, total, List.filter_append,
        List.map_append, List.sum_append, ← total, ← ih]
      by_cases hkey : key = part.1
      · subst hkey
        simp
      · simp [hkey, Ne.symm hkey]

theorem get_tallied : (tallied parts).get key =
    if key ∈ parts.map Prod.fst then some (total parts key) else none := by
  have hmem := @isSome_tallied _ _ key parts
  rw [← getD_tallied]
  cases hget : (tallied parts).get key with
  | none =>
      rw [hget] at hmem
      exact (if_neg (mt hmem.mpr Bool.false_ne_true)).symm
  | some count =>
      rw [hget] at hmem
      exact (if_pos (hmem.mp rfl)).symm

/-- Sections of other keys do not matter. -/
theorem get_tallied_filter {keep : κ × List Nat → Bool}
    (hkeep : ∀ part ∈ parts, part.1 = key → keep part = true) :
    (tallied (parts.filter keep)).get key = (tallied parts).get key := by
  have hmem : key ∈ (parts.filter keep).map Prod.fst ↔
      key ∈ parts.map Prod.fst := by
    constructor
    · exact fun hkey => (List.filter_sublist.map _).subset hkey
    · intro hkey
      obtain ⟨part, hpart, rfl⟩ := List.mem_map.mp hkey
      exact List.mem_map_of_mem
        (List.mem_filter.mpr ⟨hpart, hkeep part hpart rfl⟩)
  have htotal : total (parts.filter keep) key = total parts key := by
    rw [total, total, List.filter_filter]
    refine congrArg (fun held => (List.map _ held).sum)
      (List.filter_congr fun part hpart => ?_)
    by_cases hsame : part.1 = key
    · rw [hkeep part hpart hsame, Bool.and_true]
    · rw [decide_eq_false hsame, Bool.false_and]
  rw [get_tallied, get_tallied, htotal]
  exact if_congr hmem rfl rfl

theorem total_eq_zero_iff : total parts key = 0 ↔
    ∀ part ∈ parts, part.1 = key → part.2.sum = 0 := by
  rw [total, List.sum_eq_zero_iff_forall_eq_nat, List.forall_mem_map]
  simp only [List.mem_filter, decide_eq_true_eq, and_imp]

theorem isSome_recorded :
    ((recorded parts).get key).isSome ↔ key ∈ parts.map Prod.fst := by
  induction parts using List.reverseRecOn with
  | nil => exact iff_of_false Bool.false_ne_true List.not_mem_nil
  | append_singleton parts part ih =>
      rw [recorded_concat, Map.get_insert, List.map_append, List.mem_append,
        ← ih]
      by_cases hkey : key = part.1
      · simp [hkey]
      · simp [hkey]

/-- The two agree on a key just if only its last section has items. -/
theorem get_tallied_eq_iff :
    (tallied parts).get key = (recorded parts).get key ↔
      parts.Pairwise fun first second =>
        first.1 = key → second.1 = key → first.2.sum = 0 := by
  induction parts using List.reverseRecOn with
  | nil => exact iff_of_true rfl List.Pairwise.nil
  | append_singleton parts part ih =>
      rw [tallied_concat, recorded_concat, get_counted, Map.get_insert,
        List.pairwise_append]
      by_cases hkey : key = part.1
      · subst hkey
        rw [if_pos rfl, if_pos rfl, Option.some.injEq, getD_tallied,
          Nat.add_eq_right, total_eq_zero_iff]
        constructor
        · intro hparts
          refine ⟨?_, List.pairwise_singleton _ _, ?_⟩
          · apply List.pairwise_of_forall_mem_list
            exact fun first hfirst _ _ hsame _ => hparts first hfirst hsame
          · intro first hfirst second hsecond hsame _
            exact hparts first hfirst hsame
        · rintro ⟨-, -, hcross⟩ first hfirst hsame
          exact hcross first hfirst part (List.mem_singleton_self part) hsame rfl
      · rw [if_neg hkey, if_neg hkey, ih]
        constructor
        · refine fun hparts => ⟨hparts, List.pairwise_singleton _ _, ?_⟩
          intro first hfirst second hsecond _ hsame
          rw [List.mem_singleton.mp hsecond] at hsame
          exact absurd hsame.symm hkey
        · exact And.left

theorem tallied_eq_recorded (hkeys : (parts.map Prod.fst).Nodup) :
    tallied parts = recorded parts := by
  refine Map.ext_get fun key => get_tallied_eq_iff.mpr ?_
  refine (List.pairwise_map.mp hkeys).imp ?_
  intro first second hne hfirst hsecond
  exact absurd (hfirst.trans hsecond.symm) hne

end Counts

section Marks

variable {outside : ε} {ended : Option ε} {counts : Map κ Nat}
  {current : Option κ} {rest : List (Mark κ)}

theorem tally_items {key : κ} (hkey : (counts.get key).isSome)
    (parts : List Nat) :
    tally outside ended counts (some key) (parts.map Mark.items ++ rest) =
      tally outside ended (added counts key parts.sum) (some key) rest := by
  induction parts generalizing counts with
  | nil => rw [List.sum_nil, added_zero]; rfl
  | cons count parts ih =>
      rw [List.map_cons, List.cons_append, tally, ih (by simp [get_added hkey]),
        added_added hkey, List.sum_cons]

theorem tally_marks (closed : Bool) (part : κ × List Nat) :
    ∃ next, tally outside ended counts current
        (marks (if closed then [.closes] else []) part ++ rest) =
      tally outside ended (counted counts part) next rest := by
  have hopen : ((opened counts part.1).get part.1).isSome := by
    simp [get_opened]
  rw [marks, List.cons_append, List.append_assoc, tally, tally_items hopen]
  cases closed with
  | true => exact ⟨none, rfl⟩
  | false => exact ⟨some part.1, rfl⟩

theorem tally_others (hrest : ∀ mark ∈ rest, mark = .other) :
    tally outside ended counts current rest =
      tally outside ended counts current [] := by
  induction rest with
  | nil => rfl
  | cons mark rest ih =>
      obtain ⟨rfl, hothers⟩ := List.forall_mem_cons.mp hrest
      rw [tally, ih hothers]

theorem tally_front {front : List (Mark κ)}
    (hfront : ∀ mark ∈ front, mark = .other) :
    tally outside ended counts current (front ++ rest) =
      tally outside ended counts current rest := by
  induction front with
  | nil => rfl
  | cons mark front ih =>
      obtain ⟨rfl, hothers⟩ := List.forall_mem_cons.mp hfront
      rw [List.cons_append, tally, ih hothers]

theorem tally_parts (closed : Bool) (parts : List (κ × List Nat))
    (hrest : ∀ mark ∈ rest, mark = .other) :
    tally outside none counts current
        (parts.flatMap (marks (if closed then [.closes] else [])) ++ rest) =
      .ok (parts.foldl counted counts) := by
  induction parts generalizing counts current with
  | nil =>
      rw [List.flatMap_nil, List.nil_append, tally_others hrest]
      rfl
  | cons part parts ih =>
      rw [List.flatMap_cons, List.append_assoc]
      obtain ⟨next, hpart⟩ := @tally_marks _ _ _ outside none counts current
        (parts.flatMap (marks (if closed then [.closes] else [])) ++ rest) closed
        part
      rw [hpart, ih, List.foldl_cons]

/-- The sections of a stream are counted, whatever stands around them. -/
theorem tally_sections (outside : ε) (closed : Bool)
    (parts : List (κ × List Nat)) {front : List (Mark κ)}
    (hfront : ∀ mark ∈ front, mark = .other)
    (hrest : ∀ mark ∈ rest, mark = .other) :
    tally outside none .empty none (front ++
        (parts.flatMap (marks (if closed then [.closes] else [])) ++ rest)) =
      .ok (tallied parts) := by
  rw [tally_front hfront, tally_parts closed parts hrest, tallied]

/-- Marks that do not stop lead to the error that ends them. -/
theorem tally_failed {err : ε} (hrest : .stops ∉ rest) :
    ∃ failed, tally outside (some err) counts current rest = .error failed := by
  induction rest generalizing counts current with
  | nil => exact ⟨err, rfl⟩
  | cons mark rest ih =>
      rw [List.mem_cons, not_or] at hrest
      cases mark with
      | opens key => exact ih hrest.2
      | closes => exact ih hrest.2
      | other => exact ih hrest.2
      | stops => exact absurd rfl hrest.1
      | items count =>
          cases current with
          | none => exact ⟨outside, rfl⟩
          | some key => exact ih hrest.2

end Marks

end Tally
