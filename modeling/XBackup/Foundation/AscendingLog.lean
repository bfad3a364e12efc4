/-
Logs whose entries carry strictly ascending positions, and their half-open
windows.
-/
import Mathlib

namespace AscendingLog

universe u v

variable {ε : Type u} {τ : Type v} [LinearOrder τ] (pos : ε → τ)

def Ascending (log : List ε) : Prop :=
  log.Pairwise fun left right => pos left < pos right

instance (log : List ε) : Decidable (Ascending pos log) :=
  inferInstanceAs (Decidable (log.Pairwise _))

/-- The entries behind `lo`, up to `hi` included. -/
def window (lo hi : τ) (log : List ε) : List ε :=
  log.filter fun entry => lo < pos entry ∧ pos entry ≤ hi

variable {pos}

@[simp] theorem mem_window {lo hi : τ} {log : List ε} {entry : ε} :
    entry ∈ window pos lo hi log ↔
      entry ∈ log ∧ lo < pos entry ∧ pos entry ≤ hi := by
  simp [window]

theorem Ascending.window {log : List ε} (hlog : Ascending pos log)
    (lo hi : τ) : Ascending pos (window pos lo hi log) :=
  hlog.sublist List.filter_sublist

/-- Stopping at the first entry at or behind `limit` keeps exactly the entries
below it. -/
theorem mem_takeWhile_lt {limit : τ} {log : List ε} {entry : ε}
    (hlog : Ascending pos log) :
    entry ∈ log.takeWhile (fun e => pos e < limit) ↔
      entry ∈ log ∧ pos entry < limit := by
  induction log with
  | nil => simp
  | cons head tail ih =>
      obtain ⟨hhead, htail⟩ := List.pairwise_cons.mp hlog
      by_cases hlt : pos head < limit
      · rw [List.takeWhile_cons_of_pos (by simpa using hlt), List.mem_cons,
          List.mem_cons, ih htail]
        constructor
        · rintro (rfl | ⟨hmem, hentry⟩)
          · exact ⟨Or.inl rfl, hlt⟩
          · exact ⟨Or.inr hmem, hentry⟩
        · rintro ⟨rfl | hmem, hentry⟩
          · exact Or.inl rfl
          · exact Or.inr ⟨hmem, hentry⟩
      · rw [List.takeWhile_cons_of_neg (by simpa using hlt)]
        constructor
        · intro hmem
          exact absurd hmem List.not_mem_nil
        · rintro ⟨hmem, hentry⟩
          rcases List.mem_cons.mp hmem with rfl | hmem
          · exact absurd hentry hlt
          · exact absurd ((hhead entry hmem).trans hentry) hlt

/-- Two ascending logs join when the first one ends where the second starts. -/
theorem Ascending.append {first second : List ε} {joint : τ}
    (hfirst : Ascending pos first) (hsecond : Ascending pos second)
    (hbelow : ∀ entry ∈ first, pos entry ≤ joint)
    (habove : ∀ entry ∈ second, joint < pos entry) :
    Ascending pos (first ++ second) := by
  refine List.pairwise_append.mpr ⟨hfirst, hsecond, ?_⟩
  intro left hleft right hright
  exact (hbelow left hleft).trans_lt (habove right hright)

theorem Ascending.eq_of_pos_eq {log : List ε} (hlog : Ascending pos log)
    {left right : ε} (hleft : left ∈ log) (hright : right ∈ log)
    (heq : pos left = pos right) : left = right := by
  induction log with
  | nil => exact absurd hleft List.not_mem_nil
  | cons head tail ih =>
      obtain ⟨hhead, htail⟩ := List.pairwise_cons.mp hlog
      rcases List.mem_cons.mp hleft with rfl | hleftTail
      · rcases List.mem_cons.mp hright with rfl | hrightTail
        · rfl
        · exact absurd heq (hhead right hrightTail).ne
      · rcases List.mem_cons.mp hright with rfl | hrightTail
        · exact absurd heq.symm (hhead left hleftTail).ne
        · exact ih htail hleftTail hrightTail

/-- An ascending log is determined by its entries. -/
theorem Ascending.ext {left right : List ε} (hleft : Ascending pos left)
    (hright : Ascending pos right) (hmem : ∀ entry, entry ∈ left ↔ entry ∈ right) :
    left = right := by
  have hnodup : ∀ {log : List ε}, Ascending pos log → log.Nodup := fun hlog =>
    hlog.imp fun hlt heq => hlt.ne (congrArg pos heq)
  apply ((List.perm_ext_iff_of_nodup (hnodup hleft) (hnodup hright)).mpr
    hmem).eq_of_pairwise ?_ hleft hright
  intro first second _ _ hlt hgt
  exact absurd hlt hgt.asymm

/-- No entry lies behind the last one. -/
theorem Ascending.le_last {log : List ε} {latest : τ} (hlog : Ascending pos log)
    (hlatest : log.getLast?.map pos = some latest) {entry : ε}
    (hentry : entry ∈ log) : pos entry ≤ latest := by
  obtain ⟨last, hlast, rfl⟩ := Option.map_eq_some_iff.mp hlatest
  obtain ⟨init, rfl⟩ := List.getLast?_eq_some_iff.mp hlast
  rcases List.mem_append.mp hentry with hinit | hsame
  · exact ((List.pairwise_append.mp hlog).2.2 entry hinit last (by simp)).le
  · rw [List.mem_singleton.mp hsame]

/-- The entries from one position on are a suffix. -/
theorem Ascending.filter_ge {before after : List ε} {latest : ε}
    (hlog : Ascending pos (before ++ latest :: after)) :
    (before ++ latest :: after).filter (fun e => pos latest ≤ pos e) =
      latest :: after := by
  obtain ⟨-, hsuffix, hcross⟩ := List.pairwise_append.mp hlog
  rw [List.filter_append, List.filter_eq_nil_iff.mpr, List.nil_append,
    List.filter_eq_self.mpr]
  · intro entry hentry
    rcases List.mem_cons.mp hentry with rfl | hafter
    · simp
    · simpa using ((List.pairwise_cons.mp hsuffix).1 entry hafter).le
  · intro entry hentry
    simpa using hcross entry hentry latest List.mem_cons_self

/-- The entries behind the last one of `before` are those that follow it. -/
theorem Ascending.filter_gt_last {before after : List ε} {latest : τ}
    (hlog : Ascending pos (before ++ after))
    (hlatest : before.getLast?.map pos = some latest) :
    (before ++ after).filter (fun entry => latest < pos entry) = after := by
  obtain ⟨last, hlast, rfl⟩ := Option.map_eq_some_iff.mp hlatest
  obtain ⟨init, rfl⟩ := List.getLast?_eq_some_iff.mp hlast
  obtain ⟨hinit, -, hcross⟩ := List.pairwise_append.mp hlog
  have hlow := (List.pairwise_append.mp hinit).2.2
  rw [List.filter_append, List.filter_eq_nil_iff.mpr, List.nil_append,
    List.filter_eq_self.mpr]
  · intro later hlater
    simpa using hcross last (by simp) later hlater
  · intro other hother
    rcases List.mem_append.mp hother with hmem | hsame
    · simpa using (hlow other hmem last (by simp)).le
    · simp [List.mem_singleton.mp hsame]

/-- An entry outside a segment, or closing it, does not lie inside it. -/
theorem Ascending.segment_le_or_gt {before parts after : List ε}
    {closing entry : ε}
    (hlog : Ascending pos (before ++ (parts ++ closing :: after)))
    (hentry : entry ∈ before ++ (parts ++ closing :: after))
    (hparts : entry ∉ parts) :
    (∀ part ∈ parts ++ [closing], pos part ≤ pos entry) ∨
      ∀ part ∈ parts ++ [closing], pos entry < pos part := by
  obtain ⟨-, hsegment, hbefore⟩ := List.pairwise_append.mp hlog
  obtain ⟨-, hclosing, hcross⟩ := List.pairwise_append.mp hsegment
  obtain ⟨hafter, -⟩ := List.pairwise_cons.mp hclosing
  have hin : ∀ part ∈ parts ++ [closing], part ∈ parts ++ closing :: after := by
    intro part hpart
    simp only [List.mem_append, List.mem_cons] at hpart ⊢
    tauto
  rcases List.mem_append.mp hentry with hfirst | hrest
  · right
    intro part hpart
    exact hbefore entry hfirst part (hin part hpart)
  · left
    intro part hpart
    rcases List.mem_append.mp hrest with hinside | htail
    · exact absurd hinside hparts
    · rcases List.mem_append.mp hpart with hpart | hpart
      · exact (hcross part hpart entry htail).le
      · rw [List.mem_singleton.mp hpart]
        rcases List.mem_cons.mp htail with rfl | hlater
        · exact le_rfl
        · exact (hafter entry hlater).le

end AscendingLog
