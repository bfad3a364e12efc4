/-
Folds whose steps may fail: what holds of the final state when every step
succeeded.
-/
import Mathlib

namespace Fallible

universe u v w

variable {ε : Type u} {σ : Type v} {α : Type w}

theorem bind_eq_ok {β γ : Type v} {first : Except ε β} {next : β → Except ε γ}
    {result : γ} :
    (first >>= next) = .ok result ↔
      ∃ value, first = .ok value ∧ next value = .ok result := by
  cases first with
  | error err => simp [bind, Except.bind]
  | ok value => simp [bind, Except.bind]

theorem map_eq_ok {β γ : Type v} {wrap : β → γ} {first : Except ε β}
    {result : γ} :
    wrap <$> first = .ok result ↔
      ∃ value, first = .ok value ∧ wrap value = result := by
  cases first with
  | error err => simp [Functor.map, Except.map]
  | ok value => simp [Functor.map, Except.map]

/-- Mapping succeeds when it does on every item. -/
theorem mapM_map_eq_ok {β γ : Type v} {wrap : α → β} {step : β → Except ε γ}
    {result : α → γ} {items : List α}
    (hstep : ∀ item ∈ items, step (wrap item) = .ok (result item)) :
    (items.map wrap).mapM step = .ok (items.map result) := by
  induction items with
  | nil => rfl
  | cons item rest ih =>
      obtain ⟨hitem, hrest⟩ := List.forall_mem_cons.mp hstep
      rw [List.map_cons, List.mapM_cons, hitem, ih hrest]
      rfl

/-- A map succeeds with what each step gives. -/
theorem mapM_eq_ok_iff {β : Type v} {step : α → Except ε β} {items : List α}
    {results : List β} :
    items.mapM step = .ok results ↔
      List.Forall₂ (fun item result => step item = .ok result) items results := by
  induction items generalizing results with
  | nil =>
      rw [List.mapM_nil, List.forall₂_nil_left_iff]
      exact ⟨fun h => (Except.ok.inj h).symm, fun h => h ▸ rfl⟩
  | cons item rest ih =>
      rw [List.mapM_cons, List.forall₂_cons_left_iff, bind_eq_ok]
      constructor
      · rintro ⟨result, hitem, hrest⟩
        obtain ⟨others, hothers, hresults⟩ := bind_eq_ok.mp hrest
        exact ⟨result, others, hitem, ih.mp hothers,
          (Except.ok.inj hresults).symm⟩
      · rintro ⟨result, others, hitem, hothers, rfl⟩
        exact ⟨result, hitem, bind_eq_ok.mpr ⟨others, ih.mpr hothers, rfl⟩⟩

theorem length_of_mapM {β : Type v} {step : α → Except ε β} {items : List α}
    {results : List β} (hmap : items.mapM step = .ok results) :
    results.length = items.length := by
  induction items generalizing results with
  | nil => cases hmap; rfl
  | cons item rest ih =>
      rw [List.mapM_cons] at hmap
      obtain ⟨result, -, hmap⟩ := bind_eq_ok.mp hmap
      obtain ⟨others, hothers, hmap⟩ := bind_eq_ok.mp hmap
      cases hmap
      rw [List.length_cons, List.length_cons, ih hothers]

theorem mem_of_mapM {β : Type v} {step : α → Except ε β} {items : List α}
    {results : List β} {item : α} (hmap : items.mapM step = .ok results)
    (hitem : item ∈ items) : ∃ result ∈ results, step item = .ok result := by
  induction items generalizing results with
  | nil => cases hitem
  | cons first rest ih =>
      rw [List.mapM_cons] at hmap
      obtain ⟨result, hfirst, hmap⟩ := bind_eq_ok.mp hmap
      obtain ⟨others, hothers, hmap⟩ := bind_eq_ok.mp hmap
      cases hmap
      rcases List.mem_cons.mp hitem with rfl | hitem
      · exact ⟨result, List.mem_cons_self, hfirst⟩
      · obtain ⟨found, hfound, hstep⟩ := ih hothers hitem
        exact ⟨found, List.mem_cons_of_mem _ hfound, hstep⟩

theorem foldlM_cons_eq_ok {step : σ → α → Except ε σ} {start final : σ}
    {item : α} {rest : List α} :
    (item :: rest).foldlM step start = .ok final ↔
      ∃ middle, step start item = .ok middle ∧
        rest.foldlM step middle = .ok final := by
  rw [List.foldlM_cons, bind_eq_ok]

theorem foldlM_append_eq_ok {step : σ → α → Except ε σ} {start final : σ}
    {first rest : List α} :
    (first ++ rest).foldlM step start = .ok final ↔
      ∃ middle, first.foldlM step start = .ok middle ∧
        rest.foldlM step middle = .ok final := by
  rw [List.foldlM_append, bind_eq_ok]

/-- What every successful step preserves, a successful fold preserves. -/
theorem foldlM_invariant (inv : σ → Prop) {step : σ → α → Except ε σ}
    {start final : σ} {items : List α} (hstart : inv start)
    (hstep : ∀ state, ∀ item ∈ items, inv state →
      ∀ next, step state item = .ok next → inv next)
    (hfold : items.foldlM step start = .ok final) : inv final := by
  induction items generalizing start with
  | nil =>
      cases hfold
      exact hstart
  | cons item rest ih =>
      obtain ⟨middle, hfirst, hrest⟩ := foldlM_cons_eq_ok.mp hfold
      have hmiddle := hstep start item List.mem_cons_self hstart middle hfirst
      exact ih hmiddle
        (fun state other hother => hstep state other
          (List.mem_cons_of_mem item hother)) hrest

/-- A record that grows by the item of each step ends up with all of them. -/
theorem foldlM_trace (trace : σ → List α) {step : σ → α → Except ε σ}
    {start final : σ} {items : List α}
    (hstep : ∀ state item next, step state item = .ok next →
      trace next = trace state ++ [item])
    (hfold : items.foldlM step start = .ok final) :
    trace final = trace start ++ items := by
  induction items generalizing start with
  | nil =>
      cases hfold
      simp
  | cons item rest ih =>
      obtain ⟨middle, hfirst, hrest⟩ := foldlM_cons_eq_ok.mp hfold
      rw [ih hrest, hstep start item middle hfirst, List.append_assoc]
      rfl

/-- A fold succeeds when every step does. -/
theorem foldlM_isOk {step : σ → α → Except ε σ} (start : σ) {items : List α}
    (hstep : ∀ state, ∀ item ∈ items, ∃ next, step state item = .ok next) :
    ∃ final, items.foldlM step start = .ok final := by
  induction items generalizing start with
  | nil => exact ⟨start, rfl⟩
  | cons item rest ih =>
      obtain ⟨middle, hfirst⟩ := hstep start item List.mem_cons_self
      obtain ⟨final, hrest⟩ := ih middle fun state other hother =>
        hstep state other (List.mem_cons_of_mem item hother)
      exact ⟨final, foldlM_cons_eq_ok.mpr ⟨middle, hfirst, hrest⟩⟩

end Fallible
