/-
Runs of a partial step function over a list of labels.  A run exists when every
step is enabled where it is taken.
-/
import Mathlib

namespace Transition

universe u v

variable {σ : Type u} {α : Type v}

def run (step : σ → α → Option σ) : σ → List α → Option σ
  | st, [] => some st
  | st, label :: rest => (step st label).bind fun next => run step next rest

variable {step : σ → α → Option σ}

@[simp] theorem run_nil (st : σ) : run step st [] = some st := rfl

theorem run_cons_eq_some {st last : σ} {label : α} {rest : List α} :
    run step st (label :: rest) = some last ↔
      ∃ next, step st label = some next ∧ run step next rest = some last := by
  rw [run, Option.bind_eq_some_iff]

theorem run_cons_of_step {st next last : σ} {label : α} {rest : List α}
    (hnext : step st label = some next) (hrest : run step next rest = some last) :
    run step st (label :: rest) = some last :=
  run_cons_eq_some.mpr ⟨next, hnext, hrest⟩

theorem run_append_eq_some {st last : σ} {first second : List α} :
    run step st (first ++ second) = some last ↔
      ∃ mid, run step st first = some mid ∧ run step mid second = some last := by
  induction first generalizing st with
  | nil => simp
  | cons label rest ih =>
      rw [List.cons_append, run_cons_eq_some]
      constructor
      · rintro ⟨next, hstep, hrun⟩
        obtain ⟨mid, hfirst, hsecond⟩ := ih.mp hrun
        exact ⟨mid, run_cons_eq_some.mpr ⟨next, hstep, hfirst⟩, hsecond⟩
      · rintro ⟨mid, hfirst, hsecond⟩
        obtain ⟨next, hstep, hrest⟩ := run_cons_eq_some.mp hfirst
        exact ⟨next, hstep, ih.mpr ⟨mid, hrest, hsecond⟩⟩

/-- Every step of the run is taken in a state where it meets `ok`. -/
def StepsMeet (step : σ → α → Option σ) (ok : σ → α → Prop) :
    σ → List α → Prop
  | _, [] => True
  | st, label :: rest =>
      ok st label ∧
        ∀ next, step st label = some next → StepsMeet step ok next rest

/-- One step that meets `ok` before a run whose steps do. -/
theorem run_and_stepsMeet_cons {ok : σ → α → Prop} {st next last : σ}
    {label : α} {rest : List α} (hnext : step st label = some next)
    (hok : ok st label)
    (hrest : run step next rest = some last ∧ StepsMeet step ok next rest) :
    run step st (label :: rest) = some last ∧
      StepsMeet step ok st (label :: rest) := by
  refine ⟨run_cons_of_step hnext hrest.1, hok, ?_⟩
  intro other hother
  cases hnext.symm.trans hother
  exact hrest.2

/-- What the steps that meet `ok` preserve holds at the end of every run made
of such steps. -/
theorem run_invariant_of_stepsMeet (inv : σ → Prop) {ok : σ → α → Prop}
    (hstep : ∀ st label next, inv st → ok st label →
      step st label = some next → inv next)
    {st last : σ} {labels : List α} (hinit : inv st)
    (hmeet : StepsMeet step ok st labels)
    (hrun : run step st labels = some last) : inv last := by
  induction labels generalizing st with
  | nil =>
      cases hrun
      exact hinit
  | cons label rest ih =>
      obtain ⟨next, hnext, hrest⟩ := run_cons_eq_some.mp hrun
      exact ih (hstep st label next hinit hmeet.1 hnext) (hmeet.2 next hnext)
        hrest

/-- Steps that meet `ok` in states with the invariant meet what follows of
both. -/
theorem stepsMeet_imp (inv : σ → Prop) {ok ok' : σ → α → Prop}
    (hstep : ∀ st label next, inv st → ok st label →
      step st label = some next → inv next)
    (himp : ∀ st label next, inv st → ok st label →
      step st label = some next → ok' st label)
    {st last : σ} {labels : List α} (hinit : inv st)
    (hmeet : StepsMeet step ok st labels)
    (hrun : run step st labels = some last) :
    StepsMeet step ok' st labels := by
  induction labels generalizing st with
  | nil => trivial
  | cons label rest ih =>
      obtain ⟨next, hnext, hrest⟩ := run_cons_eq_some.mp hrun
      refine ⟨himp st label next hinit hmeet.1 hnext, fun other hother => ?_⟩
      cases hnext.symm.trans hother
      exact ih (hstep st label next hinit hmeet.1 hnext) (hmeet.2 next hnext)
        hrest

theorem stepsMeet_of_forall_mem {ok : σ → α → Prop} {labels : List α}
    (hok : ∀ label ∈ labels, ∀ st, ok st label) (st : σ) :
    StepsMeet step ok st labels := by
  induction labels generalizing st with
  | nil => trivial
  | cons label rest ih =>
      refine ⟨hok label (by simp) st, fun next _ => ih ?_ next⟩
      intro other hother
      exact hok other (List.mem_cons_of_mem label hother)

theorem stepsMeet_front {ok : σ → α → Prop} {st : σ} {front labels : List α}
    (hfront : front <+: labels) (hmeet : StepsMeet step ok st labels) :
    StepsMeet step ok st front := by
  induction front generalizing st labels with
  | nil => trivial
  | cons label front ih =>
      obtain ⟨rest, rfl⟩ := hfront
      exact ⟨hmeet.1, fun next hstep =>
        ih (List.prefix_append front rest) (hmeet.2 next hstep)⟩

/-- What every enabled step preserves holds at the end of every run. -/
theorem run_invariant (inv : σ → Prop)
    (hstep : ∀ st label next, inv st → step st label = some next → inv next)
    {st last : σ} {labels : List α} (hinit : inv st)
    (hrun : run step st labels = some last) : inv last :=
  run_invariant_of_stepsMeet inv
    (fun st label next hst (_ : True) => hstep st label next hst) hinit
    (stepsMeet_of_forall_mem (fun _ _ _ => trivial) st) hrun

/-- A quantity that every step extends by what its label contributes is, at
the end of a run, the fold of the contributions. -/
theorem run_foldl {β : Type*} {γ : Type*} (observe : σ → β) (of : α → List γ)
    (extend : β → γ → β)
    (hstep : ∀ st label next, step st label = some next →
      observe next = (of label).foldl extend (observe st))
    {st last : σ} {labels : List α} (hrun : run step st labels = some last) :
    observe last = (labels.flatMap of).foldl extend (observe st) := by
  induction labels generalizing st with
  | nil =>
      cases hrun
      rfl
  | cons label rest ih =>
      obtain ⟨next, hnext, hrest⟩ := run_cons_eq_some.mp hrun
      rw [ih hrest, hstep st label next hnext, List.flatMap_cons,
        List.foldl_append]

end Transition
