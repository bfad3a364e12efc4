/-
Keyed buffers.  A stream of events passes items on, holds them back under a
key, releases what a key holds, or drops it.  The main result says when a
stream may be cut into pieces that are run one by one from empty buffers.
-/
import Mathlib

namespace KeyedBuffer

universe u v

inductive Event (κ : Type u) (α : Type v) where
  | pass (items : List α)
  | hold (key : κ) (items : List α)
  | release (key : κ) (items : List α)
  | drop (key : κ)
deriving DecidableEq, Repr

variable {κ : Type u} {α : Type v} [DecidableEq κ]

/-- The items held back under every key. -/
abbrev Held (κ : Type u) (α : Type v) := κ → List α

def empty : Held κ α := fun _ => []

namespace Event

def apply (held : Held κ α) : Event κ α → Held κ α
  | .pass _ => held
  | .hold key items => Function.update held key (held key ++ items)
  | .release key _ => Function.update held key []
  | .drop key => Function.update held key []

/-- What one event lets through. -/
def emit (held : Held κ α) : Event κ α → List α
  | .pass items => items
  | .hold _ _ => []
  | .release key items => held key ++ items
  | .drop _ => []

end Event

def heldAfter (held : Held κ α) (events : List (Event κ α)) : Held κ α :=
  events.foldl Event.apply held

def emitted (held : Held κ α) : List (Event κ α) → List α
  | [] => []
  | event :: rest => event.emit held ++ emitted (event.apply held) rest

@[simp] theorem heldAfter_nil (held : Held κ α) :
    heldAfter held [] = held := rfl

@[simp] theorem heldAfter_cons (held : Held κ α) (event : Event κ α)
    (rest : List (Event κ α)) :
    heldAfter held (event :: rest) = heldAfter (event.apply held) rest := rfl

@[simp] theorem emitted_nil (held : Held κ α) : emitted held [] = [] := rfl

theorem emitted_cons (held : Held κ α) (event : Event κ α)
    (rest : List (Event κ α)) :
    emitted held (event :: rest) =
      event.emit held ++ emitted (event.apply held) rest := rfl

theorem emitted_append (held : Held κ α) (first second : List (Event κ α)) :
    emitted held (first ++ second) =
      emitted held first ++ emitted (heldAfter held first) second := by
  induction first generalizing held with
  | nil => rfl
  | cons event rest ih =>
      rw [List.cons_append, emitted_cons, ih, emitted_cons, heldAfter_cons,
        List.append_assoc]

/-- The next event that settles `key` is a release. -/
def releasesNext (key : κ) : List (Event κ α) → Bool
  | [] => false
  | .release other _ :: rest =>
      if other = key then true else releasesNext key rest
  | .drop other :: rest =>
      if other = key then false else releasesNext key rest
  | .pass _ :: rest => releasesNext key rest
  | .hold _ _ :: rest => releasesNext key rest

/-- Holding `extra` in front of `low`. -/
def prepend (extra low : Held κ α) : Held κ α :=
  fun key => extra key ++ low key

omit [DecidableEq κ] in
theorem prepend_empty (extra : Held κ α) : prepend extra empty = extra := by
  funext key
  simp [prepend, empty]

theorem apply_prepend_hold (extra low : Held κ α) (key : κ) (items : List α) :
    (Event.hold key items).apply (prepend extra low) =
      prepend extra ((Event.hold key items).apply low) := by
  funext other
  by_cases heq : other = key
  · subst heq
    simp [Event.apply, prepend]
  · simp [Event.apply, prepend, heq]

theorem update_prepend_nil (extra low : Held κ α) (key : κ) :
    Function.update (prepend extra low) key [] =
      prepend (Function.update extra key []) (Function.update low key []) := by
  funext other
  by_cases heq : other = key
  · subst heq
    simp [prepend]
  · simp [prepend, heq]

/-- Items held in addition never remove anything from the output. -/
theorem emitted_prepend_sublist (extra low : Held κ α)
    (events : List (Event κ α)) :
    (emitted low events).Sublist (emitted (prepend extra low) events) := by
  induction events generalizing extra low with
  | nil => exact List.Sublist.slnil
  | cons event rest ih =>
      cases event with
      | pass items => exact (List.Sublist.refl items).append (ih extra low)
      | hold key items =>
          rw [emitted_cons, emitted_cons, apply_prepend_hold]
          exact ih extra _
      | release key items =>
          rw [emitted_cons, emitted_cons]
          refine List.Sublist.append ?_ ?_
          · simp [Event.emit, prepend]
          · change (emitted (Function.update low key []) rest).Sublist
              (emitted (Function.update (prepend extra low) key []) rest)
            rw [update_prepend_nil]
            exact ih _ _
      | drop key =>
          change (emitted (Function.update low key []) rest).Sublist
            (emitted (Function.update (prepend extra low) key []) rest)
          rw [update_prepend_nil]
          exact ih _ _

omit [DecidableEq κ] in
private theorem append_cancel_of_sublist {extra low items high rest : List α}
    (hsub : rest.Sublist high) :
    extra ++ low ++ items ++ high = low ++ items ++ rest ↔
      extra = [] ∧ high = rest := by
  constructor
  · intro heq
    have hlen := congrArg List.length heq
    have hle := hsub.length_le
    simp only [List.length_append] at hlen
    have hextra : extra = [] := List.length_eq_zero_iff.mp (by omega)
    subst hextra
    simpa using heq
  · rintro ⟨rfl, rfl⟩
    simp

private theorem forall_update_nil_iff (extra : Held κ α) (key : κ)
    (bad : κ → Prop) :
    (∀ other, Function.update extra key [] other ≠ [] → ¬ bad other) ↔
      ∀ other, other ≠ key → extra other ≠ [] → ¬ bad other := by
  constructor
  · intro hall other hne hextra
    exact hall other (by simpa [hne] using hextra)
  · intro hall other hextra
    by_cases heq : other = key
    · subst heq
      simp at hextra
    · exact hall other heq (by simpa [heq] using hextra)

/-- Additional items change the output exactly when some key that holds them
is settled by a release. -/
theorem emitted_prepend_eq_iff (extra low : Held κ α)
    (events : List (Event κ α)) :
    emitted (prepend extra low) events = emitted low events ↔
      ∀ key, extra key ≠ [] → ¬ releasesNext key events = true := by
  induction events generalizing extra low with
  | nil => simp [releasesNext]
  | cons event rest ih =>
      cases event with
      | pass items =>
          simp only [emitted_cons, Event.emit, Event.apply,
            List.append_cancel_left_eq, releasesNext]
          exact ih extra low
      | hold key items =>
          rw [emitted_cons, emitted_cons, apply_prepend_hold]
          simp only [Event.emit, List.nil_append, releasesNext]
          exact ih extra _
      | release key items =>
          have hsub := emitted_prepend_sublist (Function.update extra key [])
            (Function.update low key []) rest
          simp only [emitted_cons, Event.emit, Event.apply,
            update_prepend_nil, releasesNext]
          simp only [prepend] at hsub ⊢
          rw [append_cancel_of_sublist hsub]
          change (_ ∧ emitted (prepend _ _) rest = _) ↔ _
          rw [ih, forall_update_nil_iff]
          constructor
          · rintro ⟨hkey, hrest⟩ other hextra
            by_cases heq : key = other
            · subst heq
              exact absurd hkey hextra
            · simpa [heq] using hrest other (Ne.symm heq) hextra
          · intro hall
            refine ⟨?_, ?_⟩
            · by_contra hkey
              simpa using hall key hkey
            · intro other hne hextra
              simpa [hne.symm] using hall other hextra
      | drop key =>
          simp only [emitted_cons, Event.emit, Event.apply, List.nil_append,
            update_prepend_nil, releasesNext]
          rw [ih, forall_update_nil_iff]
          constructor
          · intro hrest other hextra
            by_cases heq : key = other
            · simp [heq]
            · simpa [heq] using hrest other (Ne.symm heq) hextra
          · intro hall other hne hextra
            simpa [hne.symm] using hall other hextra

/-- `key` is settled somewhere in the stream. -/
def settles (key : κ) (events : List (Event κ α)) : Bool :=
  events.any fun event =>
    match event with
    | .release other _ => other = key
    | .drop other => other = key
    | _ => false

/-- Some items are held under `key` and nothing settles it afterwards. -/
def leavesOpen (key : κ) : List (Event κ α) → Bool
  | [] => false
  | .hold other items :: rest =>
      (other = key && !items.isEmpty && !settles key rest) ||
        leavesOpen key rest
  | _ :: rest => leavesOpen key rest

theorem heldAfter_ne_nil_iff (held : Held κ α) (key : κ)
    (events : List (Event κ α)) :
    heldAfter held events key ≠ [] ↔
      (held key ≠ [] ∧ settles key events = false) ∨
        leavesOpen key events = true := by
  induction events generalizing held with
  | nil => simp [settles, leavesOpen]
  | cons event rest ih =>
      rw [heldAfter_cons, ih]
      cases event with
      | pass items => simp [Event.apply, settles, leavesOpen]
      | hold other items =>
          by_cases heq : key = other
          · subst heq
            simp only [Event.apply, Function.update_self, settles, leavesOpen,
              List.any_cons, Bool.false_or, ne_eq, List.append_eq_nil_iff,
              decide_true, Bool.true_and, Bool.or_eq_true, Bool.and_eq_true,
              Bool.not_eq_true', List.isEmpty_eq_false_iff]
            tauto
          · simp [Event.apply, settles, leavesOpen, heq, Ne.symm heq]
      | release other items =>
          by_cases heq : key = other
          · subst heq
            simp [Event.apply, settles, leavesOpen]
          · simp [Event.apply, settles, leavesOpen, heq, Ne.symm heq]
      | drop other =>
          by_cases heq : key = other
          · subst heq
            simp [Event.apply, settles, leavesOpen]
          · simp [Event.apply, settles, leavesOpen, heq, Ne.symm heq]

/-- No cut separates held items from the release that lets them through. -/
def Seamless : List (List (Event κ α)) → Prop
  | [] => True
  | piece :: rest =>
      (∀ key, leavesOpen key piece = true →
        ¬ releasesNext key rest.flatten = true) ∧ Seamless rest

/-- Cutting never adds output. -/
theorem flatMap_emitted_sublist (pieces : List (List (Event κ α))) :
    (pieces.flatMap (emitted empty)).Sublist
      (emitted empty pieces.flatten) := by
  induction pieces with
  | nil => exact List.Sublist.slnil
  | cons piece rest ih =>
      rw [List.flatMap_cons, List.flatten_cons, emitted_append]
      refine (List.Sublist.refl _).append (ih.trans ?_)
      have hlonger := emitted_prepend_sublist (heldAfter empty piece) empty
        rest.flatten
      rwa [prepend_empty] at hlonger

/-- Running the pieces one by one from empty buffers yields the output of the
uncut stream exactly for the seamless cuts. -/
theorem flatMap_emitted_eq_iff (pieces : List (List (Event κ α))) :
    pieces.flatMap (emitted empty) = emitted empty pieces.flatten ↔
      Seamless pieces := by
  induction pieces with
  | nil => simp [Seamless]
  | cons piece rest ih =>
      have hopen : ∀ key, heldAfter empty piece key ≠ [] ↔
          leavesOpen key piece = true := by
        intro key
        rw [heldAfter_ne_nil_iff]
        simp [empty]
      have hcarry := emitted_prepend_eq_iff (heldAfter empty piece) empty
        rest.flatten
      have hpieces := flatMap_emitted_sublist rest
      have hlonger := emitted_prepend_sublist (heldAfter empty piece) empty
        rest.flatten
      rw [prepend_empty] at hcarry hlonger
      simp only [hopen] at hcarry
      rw [List.flatMap_cons, List.flatten_cons, emitted_append,
        List.append_cancel_left_eq, Seamless, ← hcarry, ← ih]
      constructor
      · intro heq
        have hlen := congrArg List.length heq
        have hle := hpieces.length_le
        have hle' := hlonger.length_le
        exact ⟨(hlonger.eq_of_length (by omega)).symm,
          hpieces.eq_of_length (by omega)⟩
      · rintro ⟨hheld, hrest⟩
        rw [hrest, hheld]

end KeyedBuffer
