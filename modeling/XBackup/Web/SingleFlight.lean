/-
Every interleaving of fetches, looks and invalidations: the callers of a key
share its gate, so one of them makes the value and the others find it.
-/
import XBackup.Web.TtlCache

namespace XBackup

namespace Web

namespace TtlCache

open Transition

section Views

variable {ι κ ν : Type}

/-- The key and the gate of a fetch that has come to its gate. -/
def Phase.gated : Phase κ ν → Option (κ × Nat)
  | .waiting key gate => some (key, gate)
  | .rechecking key gate => some (key, gate)
  | .starting key gate => some (key, gate)
  | .producing key gate => some (key, gate)
  | .produced key gate _ => some (key, gate)
  | .stamped key gate _ _ => some (key, gate)
  | .leaving key gate _ => some (key, gate)
  | _ => none

def Phase.holds : Phase κ ν → Bool
  | .waiting _ _ => false
  | phase => phase.gated.isSome

/-- The fetch has found nothing, and has not stored its own value yet. -/
def Phase.makes : Phase κ ν → Bool
  | .starting _ _ => true
  | .producing _ _ => true
  | .produced _ _ _ => true
  | .stamped _ _ _ _ => true
  | _ => false

/-- The value that a producer has finished with. -/
def Phase.made : Phase κ ν → Option (κ × ν)
  | .produced key _ value => some (key, value)
  | .stamped key _ value _ => some (key, value)
  | _ => none

def Phase.result : Phase κ ν → Option (κ × Cached ν)
  | .leaving key _ (some cached) => some (key, cached)
  | .returned key cached => some (key, cached)
  | _ => none

variable [DecidableEq κ]

/-- The keys whose values a step drops. -/
def Label.drops : Label ι κ ν → κ → Bool
  | .invalidate key, other => decide (other = key)
  | .invalidateMatching hit, other => hit other
  | .invalidateAll, _ => true
  | _, _ => false

end Views

variable {ι κ ν : Type} {ttl : Nat} {st next : State ι κ ν} {key : κ}

section Peek

theorem peek_eq_none_iff : st.peek ttl key = none ↔
    ∀ slot, st.slots key = some slot → ∀ value storedAt,
      slot.stored = some (value, storedAt) → ttl ≤ st.now - storedAt := by
  rw [State.peek]
  constructor
  · intro hnone slot hslot value storedAt hstored
    simp only [hslot, hstored] at hnone
    by_contra hlive
    rw [if_neg hlive] at hnone
    cases hnone
  · intro hdead
    split
    next => rfl
    next slot hslot =>
      split
      next => rfl
      next value storedAt hstored =>
        exact if_pos (hdead slot hslot value storedAt hstored)

theorem peek_eq_some {cached : Cached ν} (hpeek : st.peek ttl key = some cached) :
    ∃ slot storedAt, st.slots key = some slot ∧
      slot.stored = some (cached.value, storedAt) ∧
      st.now - storedAt < ttl ∧ cached.hit = true := by
  rw [State.peek] at hpeek
  split at hpeek
  next => cases hpeek
  next slot hslot =>
    split at hpeek
    next => cases hpeek
    next value storedAt hstored =>
      dsimp only at hpeek
      split at hpeek
      next => cases hpeek
      next hlive =>
        cases hpeek
        exact ⟨slot, storedAt, hslot, hstored, Nat.lt_of_not_le hlive, rfl⟩

end Peek

variable [DecidableEq ι] [DecidableEq κ] {label : Label ι κ ν} {t u : ι}

/-- What a step does: a fetch goes on, or the table changes under the lock. -/
inductive Moves (ttl : Nat) (st : State ι κ ν) :
    Label ι κ ν → State ι κ ν → Prop where
  | turned (label : Label ι κ ν) (t : ι) (phase : Phase κ ν)
      (hdrops : ∀ key, label.drops key = false)
      (hgated : ∀ kg, phase.gated = some kg → (st.phase t).gated = some kg)
      (hholds : phase.holds = true → (st.phase t).holds = true)
      (hmakes : phase.makes = true → (st.phase t).makes = true ∨
        ∀ key gate, phase.gated = some (key, gate) → st.peek ttl key = none)
      (hstamped : ∀ key gate value storedAt,
        phase = .stamped key gate value storedAt → storedAt = st.now)
      (hmade : ∀ key value, phase.made = some (key, value) →
        (st.phase t).made = some (key, value) ∨
          label = .finish t value ∧ ∃ gate, st.phase t = .producing key gate)
      (hresult : ∀ key cached, phase.result = some (key, cached) →
        st.peek ttl key = some cached) :
      Moves ttl st label (st.goes t phase)
  | gated (t : ι) (key : κ) (hphase : st.phase t = .missed key) :
      Moves ttl st (.gateFor t)
        ((st.gateFor key).2.goes t (.waiting key (st.gateFor key).1))
  | locked (t : ι) (key : κ) (gate : Nat)
      (hphase : st.phase t = .waiting key gate) (hfree : st.gates gate = none) :
      Moves ttl st (.lock t)
        (State.goes { st with gates := Function.update st.gates gate (some t) }
          t (.rechecking key gate))
  | stored (t : ι) (key : κ) (gate : Nat) (value : ν) (storedAt : Nat)
      (hphase : st.phase t = .stamped key gate value storedAt) :
      Moves ttl st (.store t)
        ((st.store key value storedAt).goes t
          (.leaving key gate (some ⟨value, false, 0⟩)))
  | left (t : ι) (key : κ) (gate : Nat) (result : Option (Cached ν))
      (phase : Phase κ ν) (hphase : st.phase t = .leaving key gate result)
      (hnext : phase = result.elim .idle (.returned key)) :
      Moves ttl st (.leave t)
        (State.goes { st with gates := Function.update st.gates gate none }
          t phase)
  | dropped (label : Label ι κ ν) (slots : κ → Option (Slot ν))
      (hslots : ∀ key, slots key = (st.slots key).map fun slot =>
        if label.drops key then { slot with stored := none } else slot) :
      Moves ttl st label { st with slots := slots }
  | waited (ticks : Nat) :
      Moves ttl st (.wait ticks) { st with now := st.now + ticks }

theorem moves_of_step (hstep : step ttl st label = some next) :
    Moves ttl st label next := by
  cases label with
  | call t key =>
      rw [step] at hstep
      split at hstep
      next =>
        cases hstep
        exact .turned _ t _ (fun _ => rfl) nofun nofun nofun nofun nofun nofun
      next => cases hstep
  | look t =>
      rw [step] at hstep
      split at hstep
      next key _ =>
        split at hstep
        next cached hpeek =>
          cases hstep
          refine .turned _ t _ (fun _ => rfl) nofun nofun nofun nofun nofun ?_
          intro key' cached' hresult
          cases hresult
          exact hpeek
        next =>
          cases hstep
          exact .turned _ t _ (fun _ => rfl) nofun nofun nofun nofun nofun nofun
      next => cases hstep
  | gateFor t =>
      rw [step] at hstep
      split at hstep
      next key hphase =>
        cases hstep
        exact .gated t key hphase
      next => cases hstep
  | lock t =>
      rw [step] at hstep
      split at hstep
      next key gate hphase =>
        split at hstep
        next hfree =>
          cases hstep
          exact .locked t key gate hphase hfree
        next => cases hstep
      next => cases hstep
  | lookAgain t =>
      rw [step] at hstep
      split at hstep
      next key gate hphase =>
        split at hstep
        next cached hpeek =>
          cases hstep
          refine .turned _ t _ (fun _ => rfl) (fun kg hkg => ?_) (fun _ => ?_)
            nofun nofun nofun ?_
          · rw [hphase]; exact hkg
          · rw [hphase]; rfl
          · intro key' cached' hresult
            cases hresult
            exact hpeek
        next hpeek =>
          cases hstep
          refine .turned _ t _ (fun _ => rfl) (fun kg hkg => ?_) (fun _ => ?_)
            (fun _ => .inr ?_) nofun nofun nofun
          · rw [hphase]; exact hkg
          · rw [hphase]; rfl
          · intro key' gate' hgated
            cases hgated
            exact hpeek
      next => cases hstep
  | start t =>
      rw [step] at hstep
      split at hstep
      next key gate hphase =>
        cases hstep
        refine .turned _ t _ (fun _ => rfl) (fun kg hkg => ?_) (fun _ => ?_)
          (fun _ => .inl ?_) nofun nofun nofun
        · rw [hphase]; exact hkg
        · rw [hphase]; rfl
        · rw [hphase]; rfl
      next => cases hstep
  | finish t value =>
      rw [step] at hstep
      split at hstep
      next key gate hphase =>
        cases hstep
        refine .turned _ t _ (fun _ => rfl) (fun kg hkg => ?_) (fun _ => ?_)
          (fun _ => .inl ?_) nofun ?_ nofun
        · rw [hphase]; exact hkg
        · rw [hphase]; rfl
        · rw [hphase]; rfl
        · intro key' value' hmade
          cases hmade
          exact .inr ⟨rfl, gate, hphase⟩
      next => cases hstep
  | stamp t =>
      rw [step] at hstep
      split at hstep
      next key gate value hphase =>
        cases hstep
        refine .turned _ t _ (fun _ => rfl) (fun kg hkg => ?_) (fun _ => ?_)
          (fun _ => .inl ?_) ?_ ?_ nofun
        · rw [hphase]; exact hkg
        · rw [hphase]; rfl
        · rw [hphase]; rfl
        · intro key' gate' value' storedAt hstamped
          cases hstamped
          rfl
        · intro key' value' hmade
          rw [hphase]
          exact .inl hmade
      next => cases hstep
  | store t =>
      rw [step] at hstep
      split at hstep
      next key gate value storedAt hphase =>
        cases hstep
        exact .stored t key gate value storedAt hphase
      next => cases hstep
  | leave t =>
      rw [step] at hstep
      split at hstep
      next key gate result hphase =>
        dsimp only at hstep
        split at hstep
        next cached =>
          cases hstep
          exact .left t key gate _ _ hphase rfl
        next =>
          cases hstep
          exact .left t key gate _ _ hphase rfl
      next => cases hstep
  | cancel t =>
      rw [step] at hstep
      split at hstep
      next =>
        cases hstep
        exact .turned _ t _ (fun _ => rfl) nofun nofun nofun nofun nofun nofun
      next key gate hphase =>
        cases hstep
        refine .turned _ t _ (fun _ => rfl) (fun kg hkg => ?_) (fun _ => ?_)
          nofun nofun nofun nofun
        · rw [hphase]; exact hkg
        · rw [hphase]; rfl
      next => cases hstep
  | peek key =>
      cases hstep
      exact .dropped _ st.slots fun key => Option.map_id'.symm
  | invalidate key =>
      rw [step, State.invalidate] at hstep
      split at hstep
      next slot hslot =>
        cases hstep
        refine .dropped _ _ fun other => ?_
        by_cases hother : other = key
        · rw [hother, Function.update_self, hslot, Option.map_some]
          exact congrArg some (if_pos (decide_eq_true rfl)).symm
        · rw [Function.update_of_ne hother]
          have hkept : Label.drops (Label.invalidate key : Label ι κ ν) other =
            false := decide_eq_false hother
          rw [hkept]
          exact Option.map_id'.symm
      next hslot =>
        cases hstep
        refine .dropped _ st.slots fun other => ?_
        by_cases hother : other = key
        · rw [hother, hslot]
          rfl
        · have hkept : Label.drops (Label.invalidate key : Label ι κ ν) other =
            false := decide_eq_false hother
          rw [hkept]
          exact Option.map_id'.symm
  | invalidateMatching hit =>
      cases hstep
      exact .dropped _ _ fun _ => rfl
  | invalidateAll =>
      cases hstep
      exact .dropped _ _ fun _ => rfl
  | wait ticks =>
      cases hstep
      exact .waited ticks

section Slots

omit [DecidableEq ι] in
theorem gateFor_frame (st : State ι κ ν) (key : κ) :
    (st.gateFor key).2.phase = st.phase ∧ (st.gateFor key).2.gates = st.gates ∧
      (st.gateFor key).2.now = st.now := by
  rw [State.gateFor]
  split
  next => exact ⟨rfl, rfl, rfl⟩
  next => exact ⟨rfl, rfl, rfl⟩

omit [DecidableEq ι] in
theorem store_frame (st : State ι κ ν) (key : κ) (value : ν) (storedAt : Nat) :
    (st.store key value storedAt).phase = st.phase ∧
      (st.store key value storedAt).gates = st.gates ∧
      (st.store key value storedAt).now = st.now := by
  rw [State.store]
  split
  next => exact ⟨rfl, rfl, rfl⟩
  next => exact ⟨rfl, rfl, rfl⟩

omit [DecidableEq ι] in
/-- A gate that is asked for is the gate of the key from then on. -/
theorem gateFor_slot (st : State ι κ ν) (key : κ) :
    ∃ slot, (st.gateFor key).2.slots key = some slot ∧
      slot.gate = (st.gateFor key).1 := by
  rw [State.gateFor]
  split
  next slot hslot => exact ⟨slot, hslot, rfl⟩
  next => exact ⟨_, Function.update_self .., rfl⟩

omit [DecidableEq ι] in
theorem gateFor_keeps {other : κ} {slot : Slot ν}
    (hslot : st.slots other = some slot) :
    (st.gateFor key).2.slots other = some slot := by
  rw [State.gateFor]
  split
  next => exact hslot
  next hnone =>
    have hne : other ≠ key := by
      rintro rfl
      rw [hslot] at hnone
      cases hnone
    exact (Function.update_of_ne hne ..).trans hslot

omit [DecidableEq ι] in
theorem gateFor_stored {other : κ} {slot : Slot ν} {value : ν} {storedAt : Nat}
    (hslot : (st.gateFor key).2.slots other = some slot)
    (hstored : slot.stored = some (value, storedAt)) :
    st.slots other = some slot := by
  rw [State.gateFor] at hslot
  split at hslot
  next => exact hslot
  next =>
    dsimp only at hslot
    by_cases hother : other = key
    · rw [hother, Function.update_self] at hslot
      rw [← Option.some.inj hslot] at hstored
      cases hstored
    · rwa [Function.update_of_ne hother] at hslot

omit [DecidableEq ι] in
theorem store_cases {other : κ} {slot : Slot ν} {value : ν} {storedAt : Nat}
    (hslot : (st.store key value storedAt).slots other = some slot) :
    (other = key ∧ slot.stored = some (value, storedAt)) ∨
      (other ≠ key ∧ st.slots other = some slot) := by
  rw [State.store] at hslot
  by_cases hother : other = key
  · refine .inl ⟨hother, ?_⟩
    split at hslot
    next =>
      dsimp only at hslot
      rw [hother, Function.update_self] at hslot
      rw [← Option.some.inj hslot]
    next =>
      dsimp only at hslot
      rw [hother, Function.update_self] at hslot
      rw [← Option.some.inj hslot]
  · refine .inr ⟨hother, ?_⟩
    split at hslot
    next =>
      dsimp only at hslot
      rwa [Function.update_of_ne hother] at hslot
    next =>
      dsimp only at hslot
      rwa [Function.update_of_ne hother] at hslot

omit [DecidableEq ι] in
/-- A slot stays, and so does its gate. -/
theorem store_keeps {other : κ} {slot : Slot ν} {value : ν} {storedAt : Nat}
    (hslot : st.slots other = some slot) :
    ∃ after, (st.store key value storedAt).slots other = some after ∧
      after.gate = slot.gate := by
  rw [State.store]
  by_cases hother : other = key
  · subst hother
    rw [hslot]
    exact ⟨_, Function.update_self .., rfl⟩
  · split
    next => exact ⟨slot, (Function.update_of_ne hother ..).trans hslot, rfl⟩
    next => exact ⟨slot, (Function.update_of_ne hother ..).trans hslot, rfl⟩

omit [DecidableEq ι] in
theorem peek_store_of_ne {other : κ} {value : ν} {storedAt : Nat}
    (hne : other ≠ key) (hpeek : st.peek ttl other = none) :
    (st.store key value storedAt).peek ttl other = none := by
  rw [peek_eq_none_iff, (store_frame st key value storedAt).2.2]
  intro slot hslot
  rcases store_cases hslot with ⟨heq, _⟩ | ⟨_, hbefore⟩
  · exact absurd heq hne
  · exact peek_eq_none_iff.mp hpeek slot hbefore

omit [DecidableEq ι] in
theorem dropped_cases {slots : κ → Option (Slot ν)}
    (hslots : ∀ key, slots key = (st.slots key).map fun slot =>
      if label.drops key then { slot with stored := none } else slot)
    {slot : Slot ν} {value : ν} {storedAt : Nat} (hslot : slots key = some slot)
    (hstored : slot.stored = some (value, storedAt)) :
    label.drops key = false ∧ st.slots key = some slot := by
  rw [hslots, Option.map_eq_some_iff] at hslot
  obtain ⟨before, hbefore, hafter⟩ := hslot
  cases hdrops : label.drops key with
  | true =>
      rw [hdrops, if_pos rfl] at hafter
      rw [← hafter] at hstored
      cases hstored
  | false =>
      rw [hdrops, if_neg (by decide)] at hafter
      exact ⟨rfl, hafter ▸ hbefore⟩

/-- The values in the table after a step: they were there before, and the step
has not dropped them, or a fetch has stored them. -/
theorem stored_cases (hstep : step ttl st label = some next) {slot : Slot ν}
    {value : ν} {storedAt : Nat} (hslot : next.slots key = some slot)
    (hstored : slot.stored = some (value, storedAt)) :
    (label.drops key = false ∧ st.slots key = some slot) ∨
    ∃ t gate, label = .store t ∧
      st.phase t = .stamped key gate value storedAt := by
  cases moves_of_step hstep with
  | turned label t phase hdrops _ _ _ _ _ _ => exact .inl ⟨hdrops key, hslot⟩
  | gated t other hphase => exact .inl ⟨rfl, gateFor_stored hslot hstored⟩
  | locked t other gate hphase hfree => exact .inl ⟨rfl, hslot⟩
  | stored t other gate made madeAt hphase =>
      rcases store_cases hslot with ⟨rfl, hown⟩ | ⟨_, hbefore⟩
      · rw [hstored] at hown
        cases hown
        exact .inr ⟨t, gate, rfl, hphase⟩
      · exact .inl ⟨rfl, hbefore⟩
  | left t other gate result phase hphase hnext => exact .inl ⟨rfl, hslot⟩
  | dropped label slots hslots =>
      exact .inl (dropped_cases hslots hslot hstored)
  | waited ticks => exact .inl ⟨rfl, hslot⟩

end Slots

/-- Who holds what, and what is in the table while a value is made. -/
structure Inv (ttl : Nat) (st : State ι κ ν) : Prop where
  shares : ∀ t key gate, (st.phase t).gated = some (key, gate) →
    ∃ slot, st.slots key = some slot ∧ slot.gate = gate
  holder : ∀ t key gate, (st.phase t).gated = some (key, gate) →
    (st.phase t).holds = true → st.gates gate = some t
  missing : ∀ t key gate, (st.phase t).gated = some (key, gate) →
    (st.phase t).makes = true → st.peek ttl key = none
  stamped : ∀ t key gate value storedAt,
    st.phase t = .stamped key gate value storedAt → storedAt ≤ st.now

omit [DecidableEq ι] [DecidableEq κ] in
theorem holds_of_makes {phase : Phase κ ν} (hmakes : phase.makes = true) :
    phase.holds = true := by
  cases phase with
  | starting => rfl
  | producing => rfl
  | produced => rfl
  | stamped => rfl
  | _ => cases hmakes

omit [DecidableEq ι] [DecidableEq κ] in
theorem gated_of_made {phase : Phase κ ν} {value : ν}
    (hmade : phase.made = some (key, value)) :
    ∃ gate, phase.gated = some (key, gate) ∧ phase.holds = true := by
  cases phase with
  | produced other gate made =>
      cases hmade
      exact ⟨gate, rfl, rfl⟩
  | stamped other gate made storedAt =>
      cases hmade
      exact ⟨gate, rfl, rfl⟩
  | _ => cases hmade

omit [DecidableEq ι] [DecidableEq κ] in
/-- The callers of a key share its gate, so one of them holds it. -/
theorem Inv.alone (hinv : Inv ttl st) {gate gate' : Nat}
    (ht : (st.phase t).gated = some (key, gate))
    (hu : (st.phase u).gated = some (key, gate'))
    (hholds : (st.phase t).holds = true) (hholds' : (st.phase u).holds = true) :
    t = u := by
  obtain ⟨slot, hslot, hgate⟩ := hinv.shares t key gate ht
  obtain ⟨slot', hslot', hgate'⟩ := hinv.shares u key gate' hu
  have hsame : gate' = gate := by
    rw [← hgate, ← hgate', Option.some.inj (hslot'.symm.trans hslot)]
  have hheld := hinv.holder t key gate ht hholds
  rw [hsame] at hu
  exact Option.some.inj (hheld.symm.trans (hinv.holder u key gate hu hholds'))

omit [DecidableEq ι] [DecidableEq κ] in
theorem inv_init : Inv ttl (init : State ι κ ν) where
  shares := nofun
  holder := nofun
  missing := nofun
  stamped := nofun

section Steps

variable {mid : State ι κ ν} {phase : Phase κ ν}

omit [DecidableEq κ] in
theorem goes_self : (st.goes t phase).phase t = phase :=
  Function.update_self ..

omit [DecidableEq κ] in
theorem goes_of_ne (hne : u ≠ t) : (st.goes t phase).phase u = st.phase u :=
  Function.update_of_ne hne ..

omit [DecidableEq κ] in
/-- What a step of one fetch has to keep for the others, and to give for its
own. -/
theorem inv_goes (hinv : Inv ttl st) (hphase : mid.phase = st.phase)
    (hslots : ∀ key slot, st.slots key = some slot →
      ∃ after, mid.slots key = some after ∧ after.gate = slot.gate)
    (hgates : ∀ u, u ≠ t → ∀ gate, st.gates gate = some u →
      mid.gates gate = some u)
    (hpeek : ∀ u key gate, u ≠ t → (st.phase u).gated = some (key, gate) →
      (st.phase u).makes = true → mid.peek ttl key = none)
    (hnow : mid.now = st.now)
    (hshares : ∀ key gate, phase.gated = some (key, gate) →
      ∃ slot, mid.slots key = some slot ∧ slot.gate = gate)
    (hholder : ∀ key gate, phase.gated = some (key, gate) →
      phase.holds = true → mid.gates gate = some t)
    (hmissing : ∀ key gate, phase.gated = some (key, gate) →
      phase.makes = true → mid.peek ttl key = none)
    (hstamped : ∀ key gate value storedAt,
      phase = .stamped key gate value storedAt → storedAt ≤ mid.now) :
    Inv ttl (mid.goes t phase) := by
  have hother : ∀ {u}, u ≠ t → (mid.goes t phase).phase u = st.phase u :=
    fun hne => (goes_of_ne hne).trans (congrFun hphase _)
  refine ⟨fun u key gate hgated => ?_, fun u key gate hgated hholds => ?_,
    fun u key gate hgated hmakes => ?_, fun u key gate value storedAt hu => ?_⟩
  · by_cases hne : u = t
    · rw [hne, goes_self] at hgated
      exact hshares key gate hgated
    · rw [hother hne] at hgated
      obtain ⟨slot, hslot, rfl⟩ := hinv.shares u key gate hgated
      exact hslots key slot hslot
  · by_cases hne : u = t
    · rw [hne, goes_self] at hgated hholds
      rw [hne]
      exact hholder key gate hgated hholds
    · rw [hother hne] at hgated hholds
      exact hgates u hne gate (hinv.holder u key gate hgated hholds)
  · by_cases hne : u = t
    · rw [hne, goes_self] at hgated hmakes
      exact hmissing key gate hgated hmakes
    · rw [hother hne] at hgated hmakes
      exact hpeek u key gate hne hgated hmakes
  · by_cases hne : u = t
    · rw [hne, goes_self] at hu
      exact hstamped key gate value storedAt hu
    · rw [hother hne] at hu
      exact hnow ▸ hinv.stamped u key gate value storedAt hu

theorem inv_step (hinv : Inv ttl st) (hstep : step ttl st label = some next) :
    Inv ttl next := by
  cases moves_of_step hstep with
  | turned label t phase hdrops hgated hholds hmakes hstamped hmade hresult =>
      refine inv_goes hinv rfl (fun key slot hslot => ⟨slot, hslot, rfl⟩)
        (fun u _ gate hheld => hheld)
        (fun u key gate _ hu hmaking => hinv.missing u key gate hu hmaking) rfl
        (fun key gate hown => hinv.shares t key gate (hgated _ hown))
        (fun key gate hown hholding =>
          hinv.holder t key gate (hgated _ hown) (hholds hholding))
        (fun key gate hown hmaking => ?_)
        (fun key gate value storedAt hown =>
          (hstamped key gate value storedAt hown).le)
      rcases hmakes hmaking with hbefore | hnone
      · exact hinv.missing t key gate (hgated _ hown) hbefore
      · exact hnone key gate hown
  | gated t key hphase =>
      obtain ⟨hphases, hgates, hnow⟩ := gateFor_frame st key
      refine inv_goes hinv hphases
        (fun other slot hslot => ⟨slot, gateFor_keeps hslot, rfl⟩)
        (fun u _ gate hheld => hgates ▸ hheld)
        (fun u other gate _ hu hmakes => ?_) hnow ?_ nofun nofun nofun
      · have hnone := hinv.missing u other gate hu hmakes
        rw [peek_eq_none_iff] at hnone ⊢
        intro slot hslot value storedAt hstored
        rw [hnow]
        exact hnone slot (gateFor_stored hslot hstored) value storedAt hstored
      · intro other gate hown
        cases hown
        exact gateFor_slot st key
  | locked t key gate hphase hfree =>
      have hshared := hinv.shares t key gate (by rw [hphase]; rfl)
      refine inv_goes hinv rfl (fun other slot hslot => ⟨slot, hslot, rfl⟩)
        (fun u hne other hheld => ?_)
        (fun u other gate _ hu hmakes => hinv.missing u other gate hu hmakes)
        rfl (fun other gate hown => ?_) (fun other gate hown _ => ?_) nofun nofun
      · have hother : other ≠ gate := by
          rintro rfl
          rw [hfree] at hheld
          cases hheld
        exact (Function.update_of_ne hother ..).trans hheld
      · cases hown
        exact hshared
      · cases hown
        exact Function.update_self ..
  | stored t key gate value storedAt hphase =>
      obtain ⟨hphases, hgates, hnow⟩ := store_frame st key value storedAt
      have hown : (st.phase t).gated = some (key, gate) := by
        rw [hphase]
        rfl
      have hholds : (st.phase t).holds = true := by
        rw [hphase]
        rfl
      obtain ⟨slot, hslot, hgate⟩ := hinv.shares t key gate hown
      refine inv_goes hinv hphases (fun other slot hslot => store_keeps hslot)
        (fun u _ other hheld => hgates ▸ hheld)
        (fun u other gate' hne hu hmakes => ?_) hnow ?_ ?_ nofun nofun
      · -- no other fetch of the key is as far
        have hother : other ≠ key := by
          rintro rfl
          exact hne (hinv.alone hu hown (holds_of_makes hmakes) hholds)
        exact peek_store_of_ne hother (hinv.missing u other gate' hu hmakes)
      · intro other gate' hleaving
        cases hleaving
        obtain ⟨after, hafter, hsame⟩ : ∃ after,
            (st.store key value storedAt).slots key = some after ∧
              after.gate = slot.gate := store_keeps hslot
        exact ⟨after, hafter, hsame.trans hgate⟩
      · intro other gate' hleaving _
        cases hleaving
        rw [hgates]
        exact hinv.holder t key gate hown hholds
  | left t key gate result phase hphase hnext =>
      have hheld := hinv.holder t key gate (by rw [hphase]; rfl)
        (by rw [hphase]; rfl)
      have hgated : phase.gated = none := by
        rw [hnext]
        cases result with
        | none => rfl
        | some cached => rfl
      refine inv_goes hinv rfl (fun other slot hslot => ⟨slot, hslot, rfl⟩)
        (fun u hne other hother => ?_)
        (fun u other gate _ hu hmakes => hinv.missing u other gate hu hmakes)
        rfl (fun _ _ hown => ?_) (fun _ _ hown _ => ?_) (fun _ _ hown _ => ?_)
        (fun _ _ _ _ hown => ?_)
      · have hdiffer : other ≠ gate := by
          rintro rfl
          exact hne (Option.some.inj (hother.symm.trans hheld))
        exact (Function.update_of_ne hdiffer ..).trans hother
      · rw [hgated] at hown
        cases hown
      · rw [hgated] at hown
        cases hown
      · rw [hgated] at hown
        cases hown
      · rw [hown] at hgated
        cases hgated
  | dropped label slots hslots =>
      refine ⟨fun u key gate hgated => ?_, hinv.holder,
        fun u key gate hgated hmakes => ?_, hinv.stamped⟩
      · obtain ⟨slot, hslot, rfl⟩ := hinv.shares u key gate hgated
        refine ⟨_, (hslots key).trans (by rw [hslot]; rfl), ?_⟩
        split
        next => rfl
        next => rfl
      · have hnone := hinv.missing u key gate hgated hmakes
        rw [peek_eq_none_iff] at hnone ⊢
        intro slot hslot value storedAt hstored
        exact hnone slot (dropped_cases hslots hslot hstored).2 value storedAt
          hstored
  | waited ticks =>
      refine ⟨hinv.shares, hinv.holder, fun u key gate hgated hmakes => ?_,
        fun u key gate value storedAt hu => ?_⟩
      · have hnone := hinv.missing u key gate hgated hmakes
        rw [peek_eq_none_iff] at hnone ⊢
        intro slot hslot value storedAt hstored
        have hdead := hnone slot hslot value storedAt hstored
        change ttl ≤ st.now + ticks - storedAt
        omega
      · exact (hinv.stamped u key gate value storedAt hu).trans
          (Nat.le_add_right _ _)

/-- A fetch stands where it stood, or its own step was made: a value in its
hands is its producer's, and a hit is what was found in the table. -/
theorem phase_cases (hstep : step ttl st label = some next) (t : ι) :
    next.phase t = st.phase t ∨
    ((∀ key value, (next.phase t).made = some (key, value) →
        (st.phase t).made = some (key, value) ∨
          label = .finish t value ∧ ∃ gate, st.phase t = .producing key gate) ∧
      ∀ key cached, (next.phase t).result = some (key, cached) →
        cached.hit = true → (st.phase t).result = some (key, cached) ∨
          st.peek ttl key = some cached) := by
  cases moves_of_step hstep with
  | turned label u phase _ _ _ _ _ hmade hresult =>
      by_cases hne : t = u
      · rw [hne, goes_self]
        exact .inr ⟨hmade, fun key cached hown _ => .inr (hresult key cached hown)⟩
      · exact .inl (goes_of_ne hne)
  | gated u key hphase =>
      by_cases hne : t = u
      · rw [hne, goes_self]
        exact .inr ⟨nofun, nofun⟩
      · rw [goes_of_ne hne, (gateFor_frame st key).1]
        exact .inl rfl
  | locked u key gate hphase hfree =>
      by_cases hne : t = u
      · rw [hne, goes_self]
        exact .inr ⟨nofun, nofun⟩
      · exact .inl (goes_of_ne hne)
  | stored u key gate value storedAt hphase =>
      by_cases hne : t = u
      · rw [hne, goes_self]
        refine .inr ⟨nofun, fun other cached hown hhit => ?_⟩
        cases hown
        cases hhit
      · rw [goes_of_ne hne, (store_frame st key value storedAt).1]
        exact .inl rfl
  | left u key gate result phase hphase hnext =>
      by_cases hne : t = u
      · rw [hne, goes_self, hnext, hphase]
        refine .inr ?_
        cases result with
        | none => exact ⟨nofun, nofun⟩
        | some cached => exact ⟨nofun, fun other cached hown _ => .inl hown⟩
      · exact .inl (goes_of_ne hne)
  | dropped label slots hslots => exact .inl rfl
  | waited ticks => exact .inl rfl

end Steps

section Runs

variable {labels rest : List (Label ι κ ν)} {value : ν} {cached : Cached ν}
variable {time : Nat}

/-- A producer of the key has finished in a run with the value. -/
def Finished (ttl : Nat) (labels : List (Label ι κ ν)) (t : ι) (key : κ)
    (value : ν) : Prop :=
  ∃ before after mid gate, labels = before ++ .finish t value :: after ∧
    run (step ttl) init before = some mid ∧ mid.phase t = .producing key gate

/-- A fetch has stored the value that its producer finished with, and no step
since then has dropped the values of the key. -/
def StoredAt (ttl : Nat) (labels : List (Label ι κ ν)) (key : κ) (value : ν)
    (time : Nat) : Prop :=
  ∃ before after t mid gate storedAt, labels = before ++ .store t :: after ∧
    run (step ttl) init before = some mid ∧ mid.now = time ∧
    mid.phase t = .stamped key gate value storedAt ∧
    Finished ttl before t key value ∧
    ∀ label ∈ after, label.drops key = false

/-- A hit was found in the table, and was stored less than the lifetime before
it was. -/
def Served (ttl : Nat) (labels : List (Label ι κ ν)) (key : κ)
    (cached : Cached ν) : Prop :=
  ∃ before after mid time, labels = before ++ after ∧
    run (step ttl) init before = some mid ∧ mid.peek ttl key = some cached ∧
    StoredAt ttl before key cached.value time ∧ mid.now < time + ttl

theorem Finished.append (hfinished : Finished ttl labels t key value)
    (rest : List (Label ι κ ν)) : Finished ttl (labels ++ rest) t key value := by
  obtain ⟨before, after, mid, gate, rfl, hrun, hphase⟩ := hfinished
  exact ⟨before, after ++ rest, mid, gate, by simp, hrun, hphase⟩

theorem StoredAt.append (hstored : StoredAt ttl labels key value time)
    (hrest : ∀ label ∈ rest, label.drops key = false) :
    StoredAt ttl (labels ++ rest) key value time := by
  obtain ⟨before, after, t, mid, gate, storedAt, rfl, hrun, hnow, hphase,
    hfinished, hafter⟩ := hstored
  exact ⟨before, after ++ rest, t, mid, gate, storedAt, by simp, hrun, hnow,
    hphase, hfinished, List.forall_mem_append.mpr ⟨hafter, hrest⟩⟩

theorem Served.append (hserved : Served ttl labels key cached)
    (rest : List (Label ι κ ν)) : Served ttl (labels ++ rest) key cached := by
  obtain ⟨before, after, mid, time, rfl, hserved⟩ := hserved
  exact ⟨before, after ++ rest, mid, time, List.append_assoc .., hserved⟩

/-- What a run has done for what is in the table and in the hands of the
fetches. -/
structure Earned (ttl : Nat) (labels : List (Label ι κ ν)) (st : State ι κ ν) :
    Prop where
  made : ∀ t key value, (st.phase t).made = some (key, value) →
    Finished ttl labels t key value
  stored : ∀ key slot value storedAt, st.slots key = some slot →
    slot.stored = some (value, storedAt) →
    ∃ time, StoredAt ttl labels key value time ∧ storedAt ≤ time ∧
      time ≤ st.now
  served : ∀ t key cached, (st.phase t).result = some (key, cached) →
    cached.hit = true → Served ttl labels key cached

/-- A hit is a value that was stored less than the lifetime before. -/
theorem Earned.of_peek (hearned : Earned ttl labels st)
    (hpeek : st.peek ttl key = some cached) :
    ∃ time, StoredAt ttl labels key cached.value time ∧ st.now < time + ttl := by
  obtain ⟨slot, storedAt, hslot, hstored, hlive, _⟩ := peek_eq_some hpeek
  obtain ⟨time, hat, hle, hnow⟩ :=
    hearned.stored key slot cached.value storedAt hslot hstored
  exact ⟨time, hat, by omega⟩

theorem now_le_step (hstep : step ttl st label = some next) :
    st.now ≤ next.now := by
  cases moves_of_step hstep with
  | turned => exact Nat.le_refl _
  | gated u key => exact (gateFor_frame st key).2.2.ge
  | locked => exact Nat.le_refl _
  | stored u key gate value storedAt =>
      exact (store_frame st key value storedAt).2.2.ge
  | left => exact Nat.le_refl _
  | dropped => exact Nat.le_refl _
  | waited ticks => exact Nat.le_add_right ..

theorem Earned.step (hearned : Earned ttl labels st) (hinv : Inv ttl st)
    (hrun : run (step ttl) init labels = some st)
    (hstep : TtlCache.step ttl st label = some next) :
    Earned ttl (labels ++ [label]) next where
  made := by
    intro t key value hmade
    rcases phase_cases hstep t with hsame | ⟨hown, _⟩
    · rw [hsame] at hmade
      exact (hearned.made t key value hmade).append _
    · rcases hown key value hmade with hbefore | ⟨rfl, gate, hphase⟩
      · exact (hearned.made t key value hbefore).append _
      · exact ⟨labels, [], st, gate, rfl, hrun, hphase⟩
  stored := by
    intro key slot value storedAt hslot hstored
    rcases stored_cases hstep hslot hstored with ⟨hdrops, hbefore⟩ |
      ⟨t, gate, rfl, hphase⟩
    · obtain ⟨time, hat, hle, hnow⟩ :=
        hearned.stored key slot value storedAt hbefore hstored
      exact ⟨time, hat.append (List.forall_mem_singleton.mpr hdrops), hle,
        hnow.trans (now_le_step hstep)⟩
    · have hfinished := hearned.made t key value (by rw [hphase]; rfl)
      exact ⟨st.now, ⟨labels, [], t, st, gate, storedAt, rfl, hrun, rfl, hphase,
        hfinished, nofun⟩, hinv.stamped t key gate value storedAt hphase,
        now_le_step hstep⟩
  served := by
    intro t key cached hresult hhit
    have hbefore : (st.phase t).result = some (key, cached) ∨
        st.peek ttl key = some cached := by
      rcases phase_cases hstep t with hsame | ⟨_, hown⟩
      · rw [hsame] at hresult
        exact .inl hresult
      · exact hown key cached hresult hhit
    rcases hbefore with hbefore | hpeek
    · exact (hearned.served t key cached hbefore hhit).append _
    · obtain ⟨time, hat, hlive⟩ := hearned.of_peek hpeek
      exact ⟨labels, [label], st, time, rfl, hrun, hpeek, hat, hlive⟩

theorem earned_init : Earned ttl ([] : List (Label ι κ ν)) init where
  made := nofun
  stored := nofun
  served := nofun

/-- What the runs of the cache keep. -/
theorem inv_and_earned (hrun : run (step ttl) init labels = some st) :
    Inv ttl st ∧ Earned ttl labels st := by
  induction labels using List.reverseRecOn generalizing st with
  | nil =>
      cases hrun
      exact ⟨inv_init, earned_init⟩
  | append_singleton front label ih =>
      obtain ⟨mid, hfront, hlast⟩ := run_append_eq_some.mp hrun
      obtain ⟨next, hstep, hnil⟩ := run_cons_eq_some.mp hlast
      cases hnil
      obtain ⟨hinv, hearned⟩ := ih hfront
      exact ⟨inv_step hinv hstep, hearned.step hinv hfront hstep⟩

/-- At most one producer of a key runs; a hit was stored by a finished producer
of the key less than the lifetime before it was read, and not dropped since; and
no producer starts or runs while a value of its key is live, or is about to be
stored. -/
theorem fetches_single_flight (hrun : run (step ttl) init labels = some st) :
    (∀ t u key gate gate', st.phase t = .producing key gate →
      st.phase u = .producing key gate' → t = u) ∧
    (∀ key cached, st.peek ttl key = some cached →
      ∃ time, StoredAt ttl labels key cached.value time ∧
        st.now < time + ttl) ∧
    (∀ t key cached, st.phase t = .returned key cached → cached.hit = true →
      Served ttl labels key cached) ∧
    ∀ t key gate, (st.phase t = .starting key gate ∨
        st.phase t = .producing key gate) →
      st.peek ttl key = none ∧
        ∀ u value, (st.phase u).made ≠ some (key, value) := by
  obtain ⟨hinv, hearned⟩ := inv_and_earned hrun
  refine ⟨fun t u key gate gate' ht hu => ?_,
    fun key cached hpeek => hearned.of_peek hpeek,
    fun t key cached ht hhit => hearned.served t key cached (by rw [ht]; rfl) hhit,
    fun t key gate ht => ?_⟩
  · have hown : (st.phase t).gated = some (key, gate) := by rw [ht]; rfl
    have hother : (st.phase u).gated = some (key, gate') := by rw [hu]; rfl
    exact hinv.alone hown hother (by rw [ht]; rfl) (by rw [hu]; rfl)
  · have hown : (st.phase t).gated = some (key, gate) ∧
        (st.phase t).makes = true ∧ (st.phase t).made = none := by
      rcases ht with ht | ht
      · rw [ht]
        exact ⟨rfl, rfl, rfl⟩
      · rw [ht]
        exact ⟨rfl, rfl, rfl⟩
    obtain ⟨hgated, hmakes, hnone⟩ := hown
    refine ⟨hinv.missing t key gate hgated hmakes, fun u value hmade => ?_⟩
    obtain ⟨gate', hother, hholds⟩ := gated_of_made hmade
    have hsame := hinv.alone hgated hother (holds_of_makes hmakes) hholds
    rw [← hsame, hnone] at hmade
    cases hmade

/-- A fetch that waits while another one makes the value finds it. -/
def waitingRun : List (Label Nat String Nat) :=
  [.call 0 "db", .call 1 "db", .look 0, .look 1, .gateFor 1, .gateFor 0, .lock 0,
    .lookAgain 0, .start 0, .finish 0 7, .stamp 0, .wait 2, .store 0, .leave 0,
    .lock 1, .lookAgain 1, .leave 1]

theorem served_waitingRun :
    Served 5 waitingRun "db" (⟨7, true, 2⟩ : Cached Nat) := by
  have hrun : ∃ st, run (step 5) init waitingRun = some st ∧
      st.phase 1 = .returned "db" ⟨7, true, 2⟩ := ⟨_, rfl, rfl⟩
  obtain ⟨st, hrun, hphase⟩ := hrun
  exact (fetches_single_flight hrun).2.2.1 1 "db" _ hphase rfl

end Runs

end TtlCache

end Web

end XBackup
