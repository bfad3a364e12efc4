/-
Process tables.  A number is given to a new process only when no process has it
and no process is in the group that it names.
-/
import Mathlib

namespace ProcessTable

universe u v

/-- A process of a family, with what else is known of it. -/
structure Process (φ : Type u) (ι : Type v) where
  number : Nat
  group : Nat
  family : φ
  zombie : Bool
  info : ι

/-- What the kernel does with a table. -/
inductive Event (ι : Type v) where
  | fork (parent child : Nat) (leads : Bool) (info : ι)
  | exit (number : Nat)
  | reap (number : Nat)

variable {φ : Type u} {ι : Type v}

def find (table : List (Process φ ι)) (number : Nat) : Option (Process φ ι) :=
  table.find? fun p => p.number = number

def members (table : List (Process φ ι)) (group : Nat) :
    List (Process φ ι) :=
  table.filter fun p => p.group = group

def Process.Uses (p : Process φ ι) (number : Nat) : Prop :=
  p.number = number ∨ p.group = number

instance (p : Process φ ι) (number : Nat) : Decidable (p.Uses number) :=
  inferInstanceAs (Decidable (_ ∨ _))

/-- A child is of its parent's family, in its group or at the head of a new
one. -/
def Process.child (parent : Process φ ι) (number : Nat) (leads : Bool)
    (info : ι) : Process φ ι where
  number := number
  group := if leads then number else parent.group
  family := parent.family
  zombie := false
  info := info

def step (table : List (Process φ ι)) :
    Event ι → Option (List (Process φ ι))
  | .fork parent child leads info =>
      (find table parent).bind fun p =>
        if p.zombie = false ∧ ∀ q ∈ table, ¬ q.Uses child then
          some (p.child child leads info :: table)
        else none
  | .exit number =>
      some (table.map fun p =>
        if p.number = number then { p with zombie := true } else p)
  | .reap number =>
      if ∃ p ∈ table, p.number = number ∧ p.zombie = true then
        some (table.filter fun p => p.number ≠ number)
      else none

/-- The family that a new group of this number goes to. -/
def takenBy (table : List (Process φ ι)) (number : Nat) :
    Event ι → Option φ
  | .fork parent child leads _ =>
      if leads = true ∧ child = number then
        (find table parent).map Process.family
      else none
  | .exit _ => none
  | .reap _ => none

/-- A number is used by one family, and who has it without leading its group
has no group of that number beside it. -/
structure Settled (table : List (Process φ ι)) (number : Nat) : Prop where
  oneFamily : ∀ p ∈ table, ∀ q ∈ table, p.Uses number → q.Uses number →
    p.family = q.family
  alone : ∀ p ∈ table, p.number = number → p.group ≠ number →
    ∀ q ∈ table, q.group ≠ number

/-- The group of a number holds one family only. -/
def Holds (table : List (Process φ ι)) (number : Nat) (family : φ) : Prop :=
  ∀ p ∈ table, p.group = number → p.family = family

section Tables

variable {table next : List (Process φ ι)} {number : Nat} {event : Event ι}
  {family : φ}

theorem mem_of_find {p : Process φ ι} (hfind : find table number = some p) :
    p ∈ table ∧ p.number = number :=
  ⟨List.mem_of_find?_eq_some hfind, by simpa using List.find?_some hfind⟩

theorem step_fork_eq_some {parent child : Nat} {leads : Bool} {info : ι} :
    step table (.fork parent child leads info) = some next ↔
      ∃ p, find table parent = some p ∧ p.zombie = false ∧
        (∀ q ∈ table, ¬ q.Uses child) ∧
          next = p.child child leads info :: table := by
  rw [step, Option.bind_eq_some_iff]
  constructor
  · rintro ⟨p, hfind, hsome⟩
    split at hsome
    next hfree =>
      cases hsome
      exact ⟨p, hfind, hfree.1, hfree.2, rfl⟩
    next => cases hsome
  · rintro ⟨p, hfind, hrunning, hfree, rfl⟩
    exact ⟨p, hfind, if_pos ⟨hrunning, hfree⟩⟩

/-- Processes that differ in nothing but their state and what is known of them
are as settled. -/
theorem Settled.of_forall_mem (hsettled : Settled table number)
    (hfrom : ∀ p ∈ next, ∃ q ∈ table, p.number = q.number ∧
      p.group = q.group ∧ p.family = q.family) :
    Settled next number := by
  constructor
  · intro p hp q hq hpuses hquses
    obtain ⟨p', hp', hpnumber, hpgroup, hpfamily⟩ := hfrom p hp
    obtain ⟨q', hq', hqnumber, hqgroup, hqfamily⟩ := hfrom q hq
    rw [Process.Uses, hpnumber, hpgroup] at hpuses
    rw [Process.Uses, hqnumber, hqgroup] at hquses
    rw [hpfamily, hqfamily]
    exact hsettled.oneFamily p' hp' q' hq' hpuses hquses
  · intro p hp hnumber hgroup q hq
    obtain ⟨p', hp', hpnumber, hpgroup, -⟩ := hfrom p hp
    obtain ⟨q', hq', -, hqgroup, -⟩ := hfrom q hq
    rw [hpnumber] at hnumber
    rw [hpgroup] at hgroup
    rw [hqgroup]
    exact hsettled.alone p' hp' hnumber hgroup q' hq'

theorem Holds.of_forall_mem (hholds : Holds table number family)
    (hfrom : ∀ p ∈ next, ∃ q ∈ table, p.number = q.number ∧
      p.group = q.group ∧ p.family = q.family) :
    Holds next number family := by
  intro p hp hgroup
  obtain ⟨q, hq, -, hqgroup, hqfamily⟩ := hfrom p hp
  rw [hqgroup] at hgroup
  rw [hqfamily]
  exact hholds q hq hgroup

/-- Where nothing is forked, all processes were there before. -/
theorem from_of_step (hstep : step table event = some next)
    (hfork : ∀ parent child leads info,
      event ≠ .fork parent child leads info) :
    ∀ p ∈ next, ∃ q ∈ table, p.number = q.number ∧ p.group = q.group ∧
      p.family = q.family := by
  intro p hp
  cases event with
  | fork parent child leads info => exact absurd rfl (hfork _ _ _ _)
  | exit gone =>
      cases hstep
      obtain ⟨q, hq, rfl⟩ := List.mem_map.mp hp
      refine ⟨q, hq, ?_⟩
      split
      next => exact ⟨rfl, rfl, rfl⟩
      next => exact ⟨rfl, rfl, rfl⟩
  | reap gone =>
      rw [step] at hstep
      split at hstep
      next =>
        cases hstep
        exact ⟨p, List.mem_of_mem_filter hp, rfl, rfl, rfl⟩
      next => cases hstep

/-- A child that does not take a number uses it only in its parent's group. -/
theorem Process.child_uses {parent : Process φ ι} {child : Nat} {leads : Bool}
    {info : ι} (hother : child ≠ number)
    (huses : (parent.child child leads info).Uses number) :
    leads = false ∧ parent.group = number := by
  cases leads with
  | true => exact absurd (huses.elim id id) hother
  | false => exact ⟨rfl, huses.resolve_left hother⟩

theorem Settled.step (hsettled : Settled table number)
    (hstep : ProcessTable.step table event = some next) :
    Settled next number := by
  cases event with
  | exit gone =>
      exact hsettled.of_forall_mem (from_of_step hstep (by simp))
  | reap gone =>
      exact hsettled.of_forall_mem (from_of_step hstep (by simp))
  | fork parent child leads info =>
      obtain ⟨p, hfind, -, hfree, rfl⟩ := step_fork_eq_some.mp hstep
      obtain ⟨hp, -⟩ := mem_of_find hfind
      by_cases hchild : child = number
      · -- the new process is the only one that uses the number
        subst hchild
        constructor
        · intro a ha b hb hause hbuse
          rcases List.mem_cons.mp ha with rfl | ha
          · rcases List.mem_cons.mp hb with rfl | hb
            · rfl
            · exact absurd hbuse (hfree b hb)
          · exact absurd hause (hfree a ha)
        · intro a ha hnumber hgroup b hb
          rcases List.mem_cons.mp ha with rfl | ha
          · rcases List.mem_cons.mp hb with rfl | hb
            · exact hgroup
            · exact fun hbgroup => hfree b hb (Or.inr hbgroup)
          · exact absurd (Or.inl hnumber) (hfree a ha)
      · constructor
        · intro a ha b hb hause hbuse
          rcases List.mem_cons.mp ha with rfl | ha
          · have hparent := (Process.child_uses hchild hause).2
            rcases List.mem_cons.mp hb with rfl | hb
            · rfl
            · exact hsettled.oneFamily p hp b hb (Or.inr hparent) hbuse
          · rcases List.mem_cons.mp hb with rfl | hb
            · have hparent := (Process.child_uses hchild hbuse).2
              exact hsettled.oneFamily a ha p hp hause (Or.inr hparent)
            · exact hsettled.oneFamily a ha b hb hause hbuse
        · intro a ha hnumber hgroup b hb
          rcases List.mem_cons.mp ha with rfl | ha
          · exact absurd hnumber hchild
          · rcases List.mem_cons.mp hb with rfl | hb
            · intro hbgroup
              have hparent :=
                (Process.child_uses hchild (Or.inr hbgroup)).2
              exact hsettled.alone a ha hnumber hgroup p hp hparent
            · exact hsettled.alone a ha hnumber hgroup b hb

/-- A group keeps its family unless its number goes to another one. -/
theorem Holds.step (hholds : Holds table number family)
    (htaken : ∀ taker, takenBy table number event = some taker →
      taker = family)
    (hstep : ProcessTable.step table event = some next) :
    Holds next number family := by
  cases event with
  | exit gone => exact hholds.of_forall_mem (from_of_step hstep (by simp))
  | reap gone => exact hholds.of_forall_mem (from_of_step hstep (by simp))
  | fork parent child leads info =>
      obtain ⟨p, hfind, -, hfree, rfl⟩ := step_fork_eq_some.mp hstep
      intro q hq hgroup
      rcases List.mem_cons.mp hq with rfl | hq
      · by_cases hchild : child = number
        · cases leads with
          | true =>
              apply htaken
              rw [takenBy, if_pos ⟨rfl, hchild⟩, hfind]
              rfl
          | false =>
              have hparent : p.group = child := by
                rw [hchild]
                exact hgroup
              exact absurd (Or.inr hparent) (hfree p (mem_of_find hfind).1)
        · exact hholds p (mem_of_find hfind).1
            (Process.child_uses hchild (Or.inr hgroup)).2
      · exact hholds q hq hgroup

/-- Who leads a group, or has its number with none beside it, speaks for all
of it. -/
theorem Settled.holds (hsettled : Settled table number) {p : Process φ ι}
    (hp : p ∈ table) (hnumber : p.number = number)
    (hleader : p.group = number → p.family = family) :
    Holds table number family := by
  intro q hq hgroup
  by_cases hleads : p.group = number
  · rw [← hleader hleads]
    exact hsettled.oneFamily q hq p hp (Or.inr hgroup) (Or.inl hnumber)
  · exact absurd hgroup (hsettled.alone p hp hnumber hleads q hq)

/-- A number in use is not taken. -/
theorem takenBy_of_used {p : Process φ ι} (hp : p ∈ table)
    (huses : p.Uses number) (hstep : step table event = some next) :
    takenBy table number event = none := by
  cases event with
  | exit gone => rfl
  | reap gone => rfl
  | fork parent child leads info =>
      obtain ⟨_, -, -, hfree, -⟩ := step_fork_eq_some.mp hstep
      rw [takenBy, if_neg]
      rintro ⟨-, rfl⟩
      exact hfree p hp huses

end Tables

end ProcessTable
