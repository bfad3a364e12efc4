/-
Texts from which the occurrences of patterns are taken out, one pattern after
the other, with a marker in the place of each.
-/
import Mathlib

namespace Redaction

universe u

variable {α : Type u}

section Replace

variable [DecidableEq α]

/-- The text with each occurrence of a pattern replaced, from the left; an
occurrence that begins inside a replaced one is passed over. -/
def replaceFrom (pattern marker : List α) : Nat → List α → List α
  | _, [] => []
  | skip + 1, _ :: rest => replaceFrom pattern marker skip rest
  | 0, c :: rest =>
      if pattern <+: c :: rest then
        marker ++ replaceFrom pattern marker (pattern.length - 1) rest
      else c :: replaceFrom pattern marker 0 rest

def replace (pattern marker text : List α) : List α :=
  replaceFrom pattern marker 0 text

variable {pattern marker : List α}

theorem replaceFrom_eq_drop (skip : Nat) (text : List α) :
    replaceFrom pattern marker skip text =
      replace pattern marker (text.drop skip) := by
  induction skip generalizing text with
  | zero => rfl
  | succ skip ih =>
      cases text with
      | nil => rfl
      | cons c rest => exact ih rest

theorem replace_append (hpattern : pattern ≠ []) (rest : List α) :
    replace pattern marker (pattern ++ rest) =
      marker ++ replace pattern marker rest := by
  cases pattern with
  | nil => exact absurd rfl hpattern
  | cons c tail =>
      have hfront : c :: tail <+: c :: (tail ++ rest) :=
        List.prefix_append (c :: tail) rest
      rw [List.cons_append, replace, replaceFrom, if_pos hfront,
        replaceFrom_eq_drop, List.length_cons, Nat.add_sub_cancel,
        List.drop_left]

theorem replace_cons {c : α} {rest : List α} (hnot : ¬ pattern <+: c :: rest) :
    replace pattern marker (c :: rest) = c :: replace pattern marker rest :=
  if_neg hnot

theorem replace_of_not_infix {text : List α} (hnot : ¬ pattern <:+: text) :
    replace pattern marker text = text := by
  induction text with
  | nil => rfl
  | cons c rest ih =>
      rw [replace_cons fun hfront => hnot hfront.isInfix,
        ih fun hwithin => hnot (List.infix_cons hwithin)]

/-- Letters that the pattern does not hold stay as they are. -/
theorem replace_append_of_free {front text : List α} (hpattern : pattern ≠ [])
    (hfree : ∀ c ∈ pattern, c ∉ front) :
    replace pattern marker (front ++ text) =
      front ++ replace pattern marker text := by
  induction front with
  | nil => rfl
  | cons c rest ih =>
      have hnot : ¬ pattern <+: c :: (rest ++ text) := by
        intro hfront
        obtain ⟨d, tail, rfl⟩ := List.exists_cons_of_ne_nil hpattern
        obtain ⟨rfl, -⟩ := List.cons_prefix_cons.mp hfront
        exact hfree d List.mem_cons_self List.mem_cons_self
      rw [List.cons_append, replace_cons hnot,
        ih fun d hd hmem => hfree d hd (List.mem_cons_of_mem _ hmem)]
      rfl

end Replace

/-- A letter that is kept, or a part of the text that a marker stands for. -/
inductive Piece (α : Type u) where
  | kept (c : α)
  | removed (part : List α)

namespace Piece

def source : Piece α → List α
  | kept c => [c]
  | removed part => part

def render (marker : List α) : Piece α → List α
  | kept c => [c]
  | removed _ => marker

end Piece

/-- The text that pieces are made of. -/
def source (pieces : List (Piece α)) : List α :=
  pieces.flatMap Piece.source

def render (marker : List α) (pieces : List (Piece α)) : List α :=
  pieces.flatMap (Piece.render marker)

/-- A part of the text is kept as it is. -/
def keptAll (text : List α) : List (Piece α) :=
  text.map Piece.kept

@[simp] theorem source_cons (piece : Piece α) (pieces : List (Piece α)) :
    source (piece :: pieces) = piece.source ++ source pieces :=
  List.flatMap_cons

@[simp] theorem source_append (front back : List (Piece α)) :
    source (front ++ back) = source front ++ source back :=
  List.flatMap_append

@[simp] theorem source_removed (part : List α) :
    source [.removed part] = part :=
  List.append_nil part

@[simp] theorem source_keptAll (text : List α) : source (keptAll text) = text := by
  induction text with
  | nil => rfl
  | cons c rest ih => exact congrArg (c :: ·) ih

theorem render_keptAll (marker text : List α) :
    render marker (keptAll text) = text := by
  induction text with
  | nil => rfl
  | cons c rest ih => exact congrArg (c :: ·) ih

theorem render_cons (marker : List α) (piece : Piece α) (pieces : List (Piece α)) :
    render marker (piece :: pieces) =
      piece.render marker ++ render marker pieces :=
  List.flatMap_cons

theorem render_append (marker : List α) (front back : List (Piece α)) :
    render marker (front ++ back) = render marker front ++ render marker back :=
  List.flatMap_append

/-- What a pattern is replaced by in pieces that are already taken out of. -/
inductive Cut (pattern : List α) : List (Piece α) → List (Piece α) → Prop
  | nil : Cut pattern [] []
  | hit {rest rest' : List (Piece α)} (hrest : Cut pattern rest rest') :
      Cut pattern (keptAll pattern ++ rest) (.removed pattern :: rest')
  | pass {piece : Piece α} {rest rest' : List (Piece α)}
      (hnot : ¬ keptAll pattern <+: piece :: rest)
      (hrest : Cut pattern rest rest') :
      Cut pattern (piece :: rest) (piece :: rest')

section Cut

variable {pattern marker : List α}

theorem exists_cut (hpattern : pattern ≠ []) (pieces : List (Piece α)) :
    ∃ pieces', Cut pattern pieces pieces' := by
  induction hlength : pieces.length using Nat.strong_induction_on
    generalizing pieces with
  | _ n ih =>
      by_cases hfront : keptAll pattern <+: pieces
      · obtain ⟨rest, rfl⟩ := hfront
        have hlt : rest.length < n := by
          have hpos := List.length_pos_iff.mpr hpattern
          rw [← hlength, keptAll, List.length_append, List.length_map]
          omega
        obtain ⟨rest', hrest⟩ := ih rest.length hlt rest rfl
        exact ⟨_, .hit hrest⟩
      · cases pieces with
        | nil => exact ⟨[], .nil⟩
        | cons piece rest =>
            have hlt : rest.length < n := by
              rw [← hlength]
              exact Nat.lt_succ_self _
            obtain ⟨rest', hrest⟩ := ih rest.length hlt rest rfl
            exact ⟨_, .pass hfront hrest⟩

theorem source_cut {pieces pieces' : List (Piece α)}
    (hcut : Cut pattern pieces pieces') : source pieces' = source pieces := by
  induction hcut with
  | nil => rfl
  | hit _ ih => rw [source_cons, ih, source_append, source_keptAll]; rfl
  | pass _ _ ih => rw [source_cons, ih, source_cons]

/-- A text that begins with letters the marker does not hold begins with as many
that are kept. -/
theorem keptAll_prefix_of_render {text : List α} {pieces : List (Piece α)}
    (hmarker : marker ≠ []) (hfree : ∀ c ∈ text, c ∉ marker)
    (hfront : text <+: render marker pieces) : keptAll text <+: pieces := by
  induction text generalizing pieces with
  | nil => exact List.nil_prefix
  | cons c rest ih =>
      cases pieces with
      | nil =>
          exact absurd (List.prefix_nil.mp hfront) (List.cons_ne_nil c rest)
      | cons piece pieces =>
          rw [render_cons] at hfront
          cases piece with
          | kept d =>
              obtain ⟨rfl, hrest⟩ := List.cons_prefix_cons.mp hfront
              exact List.cons_prefix_cons.mpr ⟨rfl,
                ih (fun c hc => hfree c (List.mem_cons_of_mem _ hc)) hrest⟩
          | removed part =>
              obtain ⟨m, marker', rfl⟩ := List.exists_cons_of_ne_nil hmarker
              obtain ⟨rfl, -⟩ := List.cons_prefix_cons.mp hfront
              exact absurd List.mem_cons_self (hfree c List.mem_cons_self)

theorem infix_of_append_of_free {text front back : List α} (htext : text ≠ [])
    (hfree : ∀ c ∈ text, c ∉ front) (hwithin : text <:+: front ++ back) :
    text <:+: back := by
  induction front with
  | nil => exact hwithin
  | cons c rest ih =>
      rw [List.cons_append, List.infix_cons_iff] at hwithin
      rcases hwithin with hfront | hwithin
      · obtain ⟨d, tail, rfl⟩ := List.exists_cons_of_ne_nil htext
        obtain ⟨rfl, -⟩ := List.cons_prefix_cons.mp hfront
        exact absurd List.mem_cons_self (hfree d List.mem_cons_self)
      · exact ih (fun d hd hmem => hfree d hd (List.mem_cons_of_mem _ hmem))
          hwithin

theorem keptAll_infix_of_render {text : List α} {pieces : List (Piece α)}
    (hmarker : marker ≠ []) (htext : text ≠ []) (hfree : ∀ c ∈ text, c ∉ marker)
    (hwithin : text <:+: render marker pieces) : keptAll text <:+: pieces := by
  induction pieces with
  | nil => exact absurd (List.infix_nil.mp hwithin) htext
  | cons piece rest ih =>
      cases piece with
      | kept c =>
          rw [render_cons, Piece.render, List.singleton_append,
            List.infix_cons_iff] at hwithin
          rcases hwithin with hfront | hrest
          · have hkept : keptAll text <+: .kept c :: rest :=
              keptAll_prefix_of_render hmarker hfree hfront
            exact hkept.isInfix
          · exact List.infix_cons (ih hrest)
      | removed part =>
          rw [render_cons] at hwithin
          exact List.infix_cons (ih (infix_of_append_of_free htext hfree hwithin))

theorem replace_render [DecidableEq α] (hpattern : pattern ≠ [])
    (hmarker : marker ≠ []) (hfree : ∀ c ∈ pattern, c ∉ marker)
    {pieces pieces' : List (Piece α)} (hcut : Cut pattern pieces pieces') :
    replace pattern marker (render marker pieces) = render marker pieces' := by
  induction hcut with
  | nil => rfl
  | hit _ ih =>
      rw [render_append, render_keptAll, replace_append hpattern, ih, render_cons]
      rfl
  | @pass piece rest rest' hnot hrest ih =>
      cases piece with
      | kept c =>
          have hcons : ¬ pattern <+: c :: render marker rest := fun hfront =>
            hnot (keptAll_prefix_of_render hmarker hfree hfront)
          rw [render_cons, render_cons, ← ih]
          exact replace_cons hcons
      | removed part =>
          rw [render_cons, render_cons, ← ih]
          exact replace_append_of_free hpattern hfree

/-- What is still kept in front was kept before. -/
theorem keptAll_prefix_of_cut {text : List α} {pieces pieces' : List (Piece α)}
    (hcut : Cut pattern pieces pieces') (hfront : keptAll text <+: pieces') :
    keptAll text <+: pieces := by
  induction hcut generalizing text with
  | nil => exact hfront
  | hit _ _ =>
      cases text with
      | nil => exact List.nil_prefix
      | cons c rest => exact nomatch (List.cons_prefix_cons.mp hfront).1
  | pass _ _ ih =>
      cases text with
      | nil => exact List.nil_prefix
      | cons c rest =>
          obtain ⟨hc, hrest⟩ := List.cons_prefix_cons.mp hfront
          exact List.cons_prefix_cons.mpr ⟨hc, ih hrest⟩

theorem keptAll_infix_of_cut {text : List α} {pieces pieces' : List (Piece α)}
    (hcut : Cut pattern pieces pieces') (hwithin : keptAll text <:+: pieces') :
    keptAll text <:+: pieces := by
  induction hcut with
  | nil => exact hwithin
  | hit _ ih =>
      rcases List.infix_cons_iff.mp hwithin with hfront | hrest
      · cases text with
        | nil => exact List.nil_infix
        | cons c rest => exact nomatch (List.cons_prefix_cons.mp hfront).1
      · exact (ih hrest).trans (List.suffix_append _ _).isInfix
  | pass hnot hrest ih =>
      rcases List.infix_cons_iff.mp hwithin with hfront | hbehind
      · exact (keptAll_prefix_of_cut (.pass hnot hrest) hfront).isInfix
      · exact List.infix_cons (ih hbehind)

/-- The pattern is kept nowhere. -/
theorem not_infix_of_cut (hpattern : pattern ≠ []) {pieces pieces' : List (Piece α)}
    (hcut : Cut pattern pieces pieces') : ¬ keptAll pattern <:+: pieces' := by
  have hne : keptAll pattern ≠ [] := fun h => hpattern (List.map_eq_nil_iff.mp h)
  induction hcut with
  | nil => exact fun hwithin => hne (List.infix_nil.mp hwithin)
  | hit _ ih =>
      intro hwithin
      rcases List.infix_cons_iff.mp hwithin with hfront | hrest
      · obtain ⟨c, rest, rfl⟩ := List.exists_cons_of_ne_nil hpattern
        exact nomatch (List.cons_prefix_cons.mp hfront).1
      · exact ih hrest
  | pass hnot hrest ih =>
      intro hwithin
      rcases List.infix_cons_iff.mp hwithin with hfront | hbehind
      · exact hnot (keptAll_prefix_of_cut (.pass hnot hrest) hfront)
      · exact ih hbehind

end Cut

/-- Pieces that stand in others, at a position of the text. -/
def At (pieces : List (Piece α)) (p : Nat) (part : List (Piece α)) : Prop :=
  ∃ front back, pieces = front ++ part ++ back ∧ (source front).length = p

def RemovedAt (pieces : List (Piece α)) (p : Nat) (part : List α) : Prop :=
  At pieces p [.removed part]

section At

variable {pieces front back part : List (Piece α)} {piece : Piece α} {p : Nat}

theorem at_cons_iff : At (piece :: pieces) p part ↔
    (part <+: piece :: pieces ∧ p = 0) ∨
      ∃ q, At pieces q part ∧ p = piece.source.length + q := by
  constructor
  · rintro ⟨front, back, hsplit, rfl⟩
    cases front with
    | nil => exact .inl ⟨⟨back, hsplit.symm⟩, rfl⟩
    | cons first front =>
        obtain ⟨rfl, hrest⟩ := List.cons.inj hsplit
        refine .inr ⟨_, ⟨front, back, hrest, rfl⟩, ?_⟩
        rw [source_cons, List.length_append]
  · rintro (⟨⟨back, hback⟩, rfl⟩ | ⟨q, ⟨front, back, rfl, rfl⟩, rfl⟩)
    · exact ⟨[], back, hback.symm, rfl⟩
    · refine ⟨piece :: front, back, rfl, ?_⟩
      rw [source_cons, List.length_append]

theorem removedAt_cons_iff {x : List α} : RemovedAt (piece :: pieces) p x ↔
    (piece = .removed x ∧ p = 0) ∨
      ∃ q, RemovedAt pieces q x ∧ p = piece.source.length + q := by
  rw [RemovedAt, at_cons_iff, List.cons_prefix_cons,
    and_iff_left List.nil_prefix, @eq_comm _ _ piece]
  rfl

theorem not_removedAt_nil {x : List α} : ¬ RemovedAt [] p x := by
  rintro ⟨front, back, hsplit, -⟩
  simp at hsplit

theorem removedAt_append_iff {x : List α} : RemovedAt (front ++ back) p x ↔
    RemovedAt front p x ∨
      ∃ q, RemovedAt back q x ∧ p = (source front).length + q := by
  induction front generalizing p with
  | nil =>
      rw [or_iff_right not_removedAt_nil]
      simp [source]
  | cons piece front ih =>
      rw [List.cons_append, removedAt_cons_iff, removedAt_cons_iff, or_assoc,
        source_cons, List.length_append]
      refine or_congr_right ⟨?_, ?_⟩
      · rintro ⟨q, hq, rfl⟩
        rcases ih.mp hq with hfront | ⟨r, hr, rfl⟩
        · exact .inl ⟨q, hfront, rfl⟩
        · exact .inr ⟨r, hr, (Nat.add_assoc _ _ _).symm⟩
      · rintro (⟨q, hq, rfl⟩ | ⟨r, hr, rfl⟩)
        · exact ⟨q, ih.mpr (.inl hq), rfl⟩
        · exact ⟨_, ih.mpr (.inr ⟨r, hr, rfl⟩), Nat.add_assoc _ _ _⟩

theorem not_removedAt_keptAll {text x : List α} :
    ¬ RemovedAt (keptAll text) p x := by
  rintro ⟨front, back, hsplit, -⟩
  have hmem : Piece.removed x ∈ keptAll text := by rw [hsplit]; simp
  obtain ⟨c, -, hc⟩ := List.mem_map.mp hmem
  cases hc

theorem removedAt_keptAll_append_iff {text x : List α} :
    RemovedAt (keptAll text ++ pieces) p x ↔
      ∃ q, RemovedAt pieces q x ∧ p = text.length + q := by
  rw [removedAt_append_iff, or_iff_right not_removedAt_keptAll, source_keptAll]

theorem RemovedAt.le {x : List α} (hremoved : RemovedAt pieces p x) :
    p + x.length ≤ (source pieces).length := by
  obtain ⟨front, back, rfl, rfl⟩ := hremoved
  rw [source_append, source_append, source_removed, List.length_append,
    List.length_append]
  omega

end At

section Cut

variable {pattern x : List α} {pieces pieces' : List (Piece α)} {p : Nat}

theorem removedAt_cut (hcut : Cut pattern pieces pieces')
    (hremoved : RemovedAt pieces p x) : RemovedAt pieces' p x := by
  induction hcut generalizing p with
  | nil => exact hremoved
  | hit _ ih =>
      obtain ⟨q, hq, rfl⟩ := removedAt_keptAll_append_iff.mp hremoved
      exact removedAt_cons_iff.mpr (.inr ⟨q, ih hq, rfl⟩)
  | pass _ _ ih =>
      rcases removedAt_cons_iff.mp hremoved with hhead | ⟨q, hq, hp⟩
      · exact removedAt_cons_iff.mpr (.inl hhead)
      · exact removedAt_cons_iff.mpr (.inr ⟨q, ih hq, hp⟩)

/-- What is removed was removed before, or is the pattern, which was kept. -/
theorem removedAt_cut_cases (hcut : Cut pattern pieces pieces')
    (hremoved : RemovedAt pieces' p x) :
    RemovedAt pieces p x ∨ x = pattern ∧ At pieces p (keptAll pattern) := by
  induction hcut generalizing p with
  | nil => exact .inl hremoved
  | @hit rest rest' _ ih =>
      rcases removedAt_cons_iff.mp hremoved with ⟨hpattern, rfl⟩ | ⟨q, hq, rfl⟩
      · exact .inr ⟨(Piece.removed.inj hpattern).symm, [], rest, rfl, rfl⟩
      · rcases ih hq with hold | ⟨hx, front, back, rfl, rfl⟩
        · exact .inl (removedAt_keptAll_append_iff.mpr ⟨q, hold, rfl⟩)
        · refine .inr ⟨hx, keptAll pattern ++ front, back, ?_, ?_⟩
          · simp only [List.append_assoc]
          · rw [source_append, List.length_append, source_keptAll]
            rfl
  | pass _ _ ih =>
      rcases removedAt_cons_iff.mp hremoved with hhead | ⟨q, hq, rfl⟩
      · exact .inl (removedAt_cons_iff.mpr (.inl hhead))
      · rcases ih hq with hold | ⟨hx, hkept⟩
        · exact .inl (removedAt_cons_iff.mpr (.inr ⟨q, hold, rfl⟩))
        · exact .inr ⟨hx, at_cons_iff.mpr (.inr ⟨q, hkept, rfl⟩)⟩

end Cut

/-- Two parts of a text have a position in common. -/
def Meet (p : Nat) (x : List α) (q : Nat) (y : List α) : Prop :=
  p < q + y.length ∧ q < p + x.length

section Visible

variable {pieces : List (Piece α)} {x u v : List α}

/-- A part of the text that meets nothing that is removed is kept. -/
theorem prefix_of_not_meet (hsource : source pieces = x ++ v)
    (hproper : ∀ q y, RemovedAt pieces q y → y ≠ [])
    (hfree : ∀ q y, RemovedAt pieces q y → ¬ Meet 0 x q y) :
    keptAll x <+: pieces := by
  induction pieces generalizing x with
  | nil =>
      obtain ⟨rfl, -⟩ := List.append_eq_nil_iff.mp hsource.symm
      exact List.nil_prefix
  | cons piece rest ih =>
      cases x with
      | nil => exact List.nil_prefix
      | cons c x =>
          cases piece with
          | kept d =>
              obtain ⟨rfl, hrest⟩ := List.cons.inj hsource
              refine List.cons_prefix_cons.mpr ⟨rfl, ih hrest ?_ ?_⟩
              · intro q y hq
                exact hproper (1 + q) y (removedAt_cons_iff.mpr (.inr ⟨q, hq, rfl⟩))
              · intro q y hq hmeet
                refine hfree (1 + q) y
                  (removedAt_cons_iff.mpr (.inr ⟨q, hq, rfl⟩)) ?_
                obtain ⟨hleft, hright⟩ := hmeet
                rw [Meet, List.length_cons]
                omega
          | removed y =>
              have hhead : RemovedAt (.removed y :: rest) 0 y :=
                removedAt_cons_iff.mpr (.inl ⟨rfl, rfl⟩)
              have hpos := List.length_pos_iff.mpr (hproper 0 y hhead)
              refine absurd ?_ (hfree 0 y hhead)
              rw [Meet, List.length_cons]
              omega

theorem at_of_not_meet (hx : x ≠ []) (hsource : source pieces = u ++ (x ++ v))
    (hproper : ∀ q y, RemovedAt pieces q y → y ≠ [])
    (hfree : ∀ q y, RemovedAt pieces q y → ¬ Meet u.length x q y) :
    At pieces u.length (keptAll x) := by
  induction pieces generalizing u with
  | nil => simp [source, hx] at hsource
  | cons piece rest ih =>
      have hbehind : ∀ {q y}, RemovedAt rest q y →
          RemovedAt (piece :: rest) (piece.source.length + q) y :=
        fun hq => removedAt_cons_iff.mpr (.inr ⟨_, hq, rfl⟩)
      cases piece with
      | kept d =>
          cases u with
          | nil =>
              have hfront : keptAll x <+: .kept d :: rest :=
                prefix_of_not_meet hsource hproper hfree
              obtain ⟨back, hback⟩ := hfront
              exact ⟨[], back, hback.symm, rfl⟩
          | cons c u =>
              obtain ⟨rfl, hrest⟩ := List.cons.inj hsource
              refine at_cons_iff.mpr (.inr ⟨u.length, ih hrest ?_ ?_, ?_⟩)
              · exact fun q y hq => hproper _ y (hbehind hq)
              · intro q y hq hmeet
                refine hfree _ y (hbehind hq) ?_
                obtain ⟨hleft, hright⟩ := hmeet
                rw [Meet, Piece.source, List.length_singleton, List.length_cons]
                omega
              · exact Nat.add_comm _ _
      | removed y =>
          have hlength : y.length ≤ u.length := by
            by_contra hlt
            refine hfree 0 y (removedAt_cons_iff.mpr (.inl ⟨rfl, rfl⟩)) ?_
            have hpos := List.length_pos_iff.mpr hx
            rw [Meet]
            omega
          have hrest : source rest = u.drop y.length ++ (x ++ v) := by
            have hdrop := congrArg (List.drop y.length) hsource
            rwa [source_cons, Piece.source, List.drop_left,
              List.drop_append_of_le_length hlength] at hdrop
          have hu : u.length = y.length + (u.drop y.length).length := by
            rw [List.length_drop]
            omega
          refine at_cons_iff.mpr (.inr ⟨_, ih hrest ?_ ?_, hu⟩)
          · exact fun q z hq => hproper _ z (hbehind hq)
          · intro q z hq hmeet
            refine hfree _ z (hbehind hq) ?_
            obtain ⟨hleft, hright⟩ := hmeet
            rw [Meet, Piece.source, hu]
            omega

end Visible

/-- A part of a text, at its position. -/
def Occurs (text : List α) (p : Nat) (x : List α) : Prop :=
  ∃ u v, text = u ++ (x ++ v) ∧ u.length = p

/-- One part of a text lies in another. -/
def Inside (p : Nat) (x : List α) (q : Nat) (y : List α) : Prop :=
  q ≤ p ∧ p + x.length ≤ q + y.length

/-- An occurrence of a pattern that lies in no longer one. -/
def Maximal (patterns : List (List α)) (text : List α) (p : Nat) (x : List α) :
    Prop :=
  x ∈ patterns ∧ Occurs text p x ∧
    ∀ q, ∀ y ∈ patterns, Occurs text q y → Inside p x q y →
      y.length ≤ x.length

/-- The occurrences that lie in no longer one have nothing in common. -/
def Apart (patterns : List (List α)) (text : List α) : Prop :=
  ∀ p x q y, Maximal patterns text p x → Maximal patterns text q y →
    Meet p x q y → p = q ∧ x = y

/-- No pattern stands before a longer one that it is a part of. -/
def Ordered (patterns : List (List α)) : Prop :=
  patterns.Pairwise fun x y => x <:+: y → x = y

section Occurs

variable {patterns : List (List α)} {text x y : List α} {p q : Nat}

theorem Occurs.eq_take (hx : Occurs text p x) :
    x = (text.drop p).take x.length := by
  obtain ⟨u, v, rfl, rfl⟩ := hx
  rw [List.drop_left, List.take_left]

theorem Occurs.le (hx : Occurs text p x) : p + x.length ≤ text.length := by
  obtain ⟨u, v, rfl, rfl⟩ := hx
  rw [List.length_append, List.length_append]
  omega

theorem infix_of_inside (hx : Occurs text p x) (hy : Occurs text q y)
    (hinside : Inside p x q y) : x <:+: y := by
  obtain ⟨hleft, hright⟩ := hinside
  have hpart : x = (y.drop (p - q)).take x.length := by
    rw [hy.eq_take, List.drop_take, List.drop_drop, List.take_take,
      Nat.add_sub_cancel' hleft, min_eq_left (by omega)]
    exact hx.eq_take
  rw [hpart]
  exact (List.take_prefix _ _).isInfix.trans (List.drop_suffix _ _).isInfix

theorem eq_of_inside (hx : Occurs text p x) (hy : Occurs text q y)
    (hinside : Inside p x q y) (hlength : y.length ≤ x.length) :
    p = q ∧ x = y :=
  ⟨by obtain ⟨hleft, hright⟩ := hinside; omega,
    (infix_of_inside hx hy hinside).eq_of_length_le hlength⟩

/-- Each occurrence lies in one that is in no longer one. -/
theorem exists_maximal (hmem : x ∈ patterns) (hx : Occurs text p x) :
    ∃ q y, Maximal patterns text q y ∧ Inside p x q y := by
  induction hroom : text.length - x.length using Nat.strong_induction_on
    generalizing p x with
  | _ n ih =>
      by_cases hmaximal : Maximal patterns text p x
      · exact ⟨p, x, hmaximal, le_rfl, le_rfl⟩
      · have hlonger : ∃ q, ∃ y ∈ patterns, Occurs text q y ∧ Inside p x q y ∧
            x.length < y.length := by
          by_contra hnone
          refine hmaximal ⟨hmem, hx, fun q y hy hoccurs hinside => ?_⟩
          exact not_lt.mp fun hlt => hnone ⟨q, y, hy, hoccurs, hinside, hlt⟩
        obtain ⟨q, y, hy, hoccurs, hinside, hlt⟩ := hlonger
        have hle := hoccurs.le
        obtain ⟨r, z, hz, houter⟩ := ih _ (by omega) hy hoccurs rfl
        exact ⟨r, z, hz, houter.1.trans hinside.1, hinside.2.trans houter.2⟩

theorem At.occurs {pieces : List (Piece α)} (hx : At pieces p (keptAll x)) :
    Occurs (source pieces) p x := by
  obtain ⟨front, back, rfl, rfl⟩ := hx
  refine ⟨source front, source back, ?_, rfl⟩
  rw [source_append, source_append, source_keptAll, List.append_assoc]

theorem RemovedAt.occurs {pieces : List (Piece α)}
    (hremoved : RemovedAt pieces p x) : Occurs (source pieces) p x := by
  obtain ⟨front, back, rfl, rfl⟩ := hremoved
  refine ⟨source front, source back, ?_, rfl⟩
  rw [source_append, source_append, source_removed, List.append_assoc]

/-- What is kept meets nothing that is removed. -/
theorem At.not_meet {pieces : List (Piece α)} (hkept : At pieces p (keptAll x))
    (hremoved : RemovedAt pieces q y) : ¬ Meet p x q y := by
  obtain ⟨front, back, rfl, rfl⟩ := hkept
  rintro ⟨hleft, hright⟩
  rw [List.append_assoc, removedAt_append_iff] at hremoved
  rcases hremoved with hfront | ⟨r, hr, rfl⟩
  · have hle := hfront.le
    omega
  · obtain ⟨s, -, rfl⟩ := removedAt_keptAll_append_iff.mp hr
    omega

end Occurs

/-- The patterns taken out of a text, one after the other. -/
inductive Run (text : List α) : List (List α) → List (Piece α) → Prop
  | start : Run text [] (keptAll text)
  | next {done : List (List α)} {pattern : List α} {pieces pieces' : List (Piece α)}
      (hdone : Run text done pieces) (hcut : Cut pattern pieces pieces') :
      Run text (done ++ [pattern]) pieces'

section Run

variable {text : List α} {done patterns : List (List α)} {pieces : List (Piece α)}

theorem exists_run (text : List α) (hpatterns : ∀ x ∈ patterns, x ≠ []) :
    ∃ pieces, Run text patterns pieces := by
  induction patterns using List.reverseRecOn with
  | nil => exact ⟨_, .start⟩
  | append_singleton done x ih =>
      obtain ⟨pieces, hpieces⟩ := ih fun y hy =>
        hpatterns y (List.mem_append_left _ hy)
      obtain ⟨pieces', hcut⟩ := exists_cut (hpatterns x (by simp)) pieces
      exact ⟨pieces', .next hpieces hcut⟩

theorem Run.source (hrun : Run text patterns pieces) :
    source pieces = text := by
  induction hrun with
  | start => exact source_keptAll text
  | next _ hcut ih => rw [source_cut hcut, ih]

/-- Each of the patterns replaced, one after the other. -/
def replaceAll [DecidableEq α] (marker : List α) (patterns : List (List α))
    (text : List α) : List α :=
  patterns.foldl (fun out pattern => replace pattern marker out) text

theorem Run.render [DecidableEq α] {marker : List α} (hmarker : marker ≠ [])
    (hrun : Run text patterns pieces)
    (hpatterns : ∀ x ∈ patterns, x ≠ [] ∧ ∀ c ∈ x, c ∉ marker) :
    replaceAll marker patterns text = render marker pieces := by
  induction hrun with
  | start => exact (render_keptAll marker text).symm
  | @next done x pieces pieces' _ hcut ih =>
      obtain ⟨hne, hfree⟩ := hpatterns x (by simp)
      rw [replaceAll, List.foldl_concat, ← replaceAll,
        ih fun y hy => hpatterns y (List.mem_append_left _ hy)]
      exact replace_render hne hmarker hfree hcut

theorem Run.mem_of_removed (hrun : Run text patterns pieces) {p : Nat}
    {x : List α} (hremoved : RemovedAt pieces p x) : x ∈ patterns := by
  induction hrun generalizing p with
  | start => exact absurd hremoved not_removedAt_keptAll
  | next _ hcut ih =>
      rcases removedAt_cut_cases hcut hremoved with hold | ⟨rfl, -⟩
      · exact List.mem_append_left _ (ih hold)
      · exact List.mem_append_right _ (List.mem_singleton_self x)

/-- No pattern that was taken out is left. -/
theorem Run.not_infix (hrun : Run text patterns pieces)
    (hpatterns : ∀ x ∈ patterns, x ≠ []) {x : List α} (hx : x ∈ patterns) :
    ¬ keptAll x <:+: pieces := by
  induction hrun with
  | start => cases hx
  | @next done y pieces pieces' _ hcut ih =>
      rcases List.mem_append.mp hx with hdone | hlast
      · intro hwithin
        exact ih (fun z hz => hpatterns z (List.mem_append_left _ hz)) hdone
          (keptAll_infix_of_cut hcut hwithin)
      · rw [List.mem_singleton.mp hlast]
        exact not_infix_of_cut (hpatterns y (by simp)) hcut

/-- Of occurrences that are apart, those that lie in no longer one are removed,
and nothing else. -/
theorem Run.removedAt_iff (hrun : Run text done pieces)
    (hdone : done <+: patterns) (hpatterns : ∀ x ∈ patterns, x ≠ [])
    (hordered : Ordered patterns) (hapart : Apart patterns text) {p : Nat}
    {x : List α} :
    RemovedAt pieces p x ↔ x ∈ done ∧ Maximal patterns text p x := by
  induction hrun generalizing p x with
  | start =>
      exact iff_of_false not_removedAt_keptAll fun h => List.not_mem_nil h.1
  | @next done pattern pieces pieces' hrun hcut ih =>
      have hbefore : done <+: patterns := (List.prefix_append _ _).trans hdone
      have hmem : pattern ∈ patterns := hdone.subset (by simp)
      have hnew : ∀ {p}, At pieces p (keptAll pattern) →
          Maximal patterns text p pattern := by
        intro p hkept
        have hoccurs : Occurs text p pattern := hrun.source ▸ hkept.occurs
        obtain ⟨r, z, hz, hinside⟩ := exists_maximal hmem hoccurs
        by_cases hlonger : pattern.length < z.length
        · have hwithin := infix_of_inside hoccurs hz.2.1 hinside
          have hearlier : z ∈ done := by
            obtain ⟨later, rfl⟩ := hdone
            rcases List.mem_append.mp hz.1 with hz' | hlater
            · rcases List.mem_append.mp hz' with hz' | hz'
              · exact hz'
              · rw [List.mem_singleton.mp hz'] at hlonger
                exact absurd hlonger (lt_irrefl _)
            · have hsame := (List.pairwise_append.mp hordered).2.2 pattern
                (by simp) z hlater hwithin
              rw [hsame] at hlonger
              exact absurd hlonger (lt_irrefl _)
          have hpos := List.length_pos_iff.mpr (hpatterns pattern hmem)
          refine absurd ?_ (hkept.not_meet ((ih hbefore).mpr ⟨hearlier, hz⟩))
          obtain ⟨hleft, hright⟩ := hinside
          exact ⟨by omega, by omega⟩
        · obtain ⟨rfl, rfl⟩ := eq_of_inside hoccurs hz.2.1 hinside
            (not_lt.mp hlonger)
          exact hz
      have hmaximal : ∀ {p x}, RemovedAt pieces' p x →
          x ∈ done ++ [pattern] ∧ Maximal patterns text p x := by
        intro p x hremoved
        rcases removedAt_cut_cases hcut hremoved with hold | ⟨rfl, hkept⟩
        · obtain ⟨hx, hmax⟩ := (ih hbefore).mp hold
          exact ⟨List.mem_append_left _ hx, hmax⟩
        · exact ⟨by simp, hnew hkept⟩
      refine ⟨hmaximal, ?_⟩
      rintro ⟨hx, hmax⟩
      rcases List.mem_append.mp hx with hx | hx
      · exact removedAt_cut hcut ((ih hbefore).mpr ⟨hx, hmax⟩)
      · obtain rfl := List.mem_singleton.mp hx
        have hmet : ∃ q y, RemovedAt pieces' q y ∧ Meet p x q y := by
          by_contra hnone
          obtain ⟨u, v, hsplit, rfl⟩ := hmax.2.1
          have hsource := (hrun.next hcut).source
          obtain ⟨front, back, rfl, -⟩ := at_of_not_meet (hpatterns x hmem)
            (hsource.trans hsplit)
            (fun q y hq => hpatterns y (hmaximal hq).2.1)
            (fun q y hq hmeet => hnone ⟨q, y, hq, hmeet⟩)
          exact not_infix_of_cut (hpatterns x hmem) hcut ⟨front, back, rfl⟩
        obtain ⟨q, y, hq, hmeet⟩ := hmet
        obtain ⟨rfl, rfl⟩ := hapart p x q y hmax (hmaximal hq).2 hmeet
        exact hq

end Run

/-- The positions of the text, those that are removed marked. -/
def flags (pieces : List (Piece α)) : List Bool :=
  pieces.flatMap fun
    | .kept _ => [false]
    | .removed part => List.replicate part.length true

def Hidden (pieces : List (Piece α)) (i : Nat) : Prop :=
  (flags pieces)[i]? = some true

/-- A position inside an occurrence of a pattern. -/
def Covered (patterns : List (List α)) (text : List α) (i : Nat) : Prop :=
  ∃ p, ∃ x ∈ patterns, Occurs text p x ∧ p ≤ i ∧ i < p + x.length

section Hidden

variable {pieces : List (Piece α)} {i : Nat}

theorem length_flags (pieces : List (Piece α)) :
    (flags pieces).length = (source pieces).length := by
  induction pieces with
  | nil => rfl
  | cons piece rest ih =>
      rw [source_cons, List.length_append, ← ih, flags, List.flatMap_cons,
        List.length_append, ← flags]
      cases piece with
      | kept c => rfl
      | removed part => rw [List.length_replicate]; rfl

theorem removed_cons_iff {piece : Piece α} :
    (∃ p x, RemovedAt (piece :: pieces) p x ∧ p ≤ i ∧ i < p + x.length) ↔
      (∃ x, piece = .removed x ∧ i < x.length) ∨
        ∃ j, i = piece.source.length + j ∧
          ∃ p x, RemovedAt pieces p x ∧ p ≤ j ∧ j < p + x.length := by
  constructor
  · rintro ⟨p, x, hremoved, hleft, hright⟩
    rcases removedAt_cons_iff.mp hremoved with ⟨hpiece, rfl⟩ | ⟨q, hq, rfl⟩
    · exact .inl ⟨x, hpiece, by omega⟩
    · exact .inr ⟨i - piece.source.length, by omega, q, x, hq, by omega, by omega⟩
  · rintro (⟨x, rfl, hlt⟩ | ⟨j, rfl, q, x, hq, hleft, hright⟩)
    · exact ⟨0, x, removedAt_cons_iff.mpr (.inl ⟨rfl, rfl⟩), by omega, by omega⟩
    · exact ⟨_, x, removedAt_cons_iff.mpr (.inr ⟨q, hq, rfl⟩), by omega, by omega⟩

/-- What is hidden lies in a part that is removed. -/
theorem hidden_iff : Hidden pieces i ↔
    ∃ p x, RemovedAt pieces p x ∧ p ≤ i ∧ i < p + x.length := by
  induction pieces generalizing i with
  | nil =>
      refine iff_of_false nofun ?_
      rintro ⟨p, x, hremoved, -⟩
      exact not_removedAt_nil hremoved
  | cons piece rest ih =>
      rw [removed_cons_iff]
      simp only [← ih]
      cases piece with
      | kept c =>
          change (false :: flags rest)[i]? = some true ↔ _
          cases i with
          | zero =>
              refine iff_of_false nofun ?_
              rintro (⟨x, hx, -⟩ | ⟨j, hj, -⟩)
              · cases hx
              · rw [Piece.source, List.length_singleton] at hj
                omega
          | succ i =>
              rw [List.getElem?_cons_succ, ← Hidden]
              simp [Piece.source, Nat.add_comm 1]
      | removed part =>
          change (List.replicate part.length true ++ flags rest)[i]? =
            some true ↔ _
          by_cases hlt : i < part.length
          · rw [List.getElem?_append_left (by rwa [List.length_replicate]),
              List.getElem?_replicate, if_pos hlt]
            exact iff_of_true rfl (.inl ⟨part, rfl, hlt⟩)
          · rw [List.getElem?_append_right
                (by rw [List.length_replicate]; omega), List.length_replicate,
              ← Hidden]
            constructor
            · exact fun h => .inr ⟨_, by rw [Piece.source]; omega, h⟩
            · rintro (⟨x, hx, hin⟩ | ⟨j, rfl, hj⟩)
              · cases hx
                exact absurd hin hlt
              · rwa [Piece.source, Nat.add_sub_cancel_left]

end Hidden

theorem removedAt_of_meet {pieces : List (Piece α)} {p q : Nat} {x y : List α}
    (hx : RemovedAt pieces p x) (hy : RemovedAt pieces q y)
    (hmeet : Meet p x q y) : p = q ∧ x = y := by
  obtain ⟨front, back, rfl, rfl⟩ := hx
  obtain ⟨hleft, hright⟩ := hmeet
  rw [List.append_assoc, List.singleton_append, removedAt_append_iff] at hy
  rcases hy with hfront | ⟨r, hr, rfl⟩
  · have hle := hfront.le
    omega
  · rcases removedAt_cons_iff.mp hr with ⟨hsame, rfl⟩ | ⟨s, -, rfl⟩
    · exact ⟨rfl, Piece.removed.inj hsame⟩
    · rw [Piece.source] at hright
      omega

theorem removedAt_shift_iff {pieces : List (Piece α)} {piece : Piece α} {q : Nat}
    {x : List α} (hpiece : 0 < piece.source.length) :
    RemovedAt (piece :: pieces) (piece.source.length + q) x ↔
      RemovedAt pieces q x := by
  rw [removedAt_cons_iff]
  constructor
  · rintro (⟨-, hzero⟩ | ⟨r, hr, heq⟩)
    · omega
    · rwa [Nat.add_left_cancel heq]
  · exact fun h => .inr ⟨q, h, rfl⟩

/-- Pieces of one text, of which the same parts are removed, are the same. -/
theorem eq_of_removedAt_iff {pieces pieces' : List (Piece α)}
    (hsource : source pieces = source pieces')
    (hproper : ∀ p x, RemovedAt pieces p x → x ≠ [])
    (hsame : ∀ p x, RemovedAt pieces p x ↔ RemovedAt pieces' p x) :
    pieces = pieces' := by
  have hhead : ∀ {y : List α} {rest : List (Piece α)},
      RemovedAt (.removed y :: rest) 0 y :=
    fun {y rest} => removedAt_cons_iff.mpr (.inl ⟨rfl, rfl⟩)
  have hkept : ∀ {c : α} {y : List α} {rest : List (Piece α)},
      ¬ RemovedAt (.kept c :: rest) 0 y := by
    intro c y rest hremoved
    rcases removedAt_cons_iff.mp hremoved with ⟨hpiece, -⟩ | ⟨q, -, hq⟩
    · cases hpiece
    · rw [Piece.source, List.length_singleton] at hq
      omega
  induction pieces generalizing pieces' with
  | nil =>
      cases pieces' with
      | nil => rfl
      | cons piece rest =>
          cases piece with
          | kept c => cases hsource
          | removed y => exact absurd ((hsame 0 y).mpr hhead) not_removedAt_nil
  | cons piece rest ih =>
      have hsize : 0 < piece.source.length := by
        cases piece with
        | kept c => exact Nat.one_pos
        | removed y => exact List.length_pos_iff.mpr (hproper 0 y hhead)
      cases pieces' with
      | nil =>
          cases piece with
          | kept c => cases hsource
          | removed y => exact absurd ((hsame 0 y).mp hhead) not_removedAt_nil
      | cons piece' rest' =>
          have hpiece : piece = piece' := by
            cases piece with
            | kept c =>
                cases piece' with
                | kept d => rw [(List.cons.inj hsource).1]
                | removed y => exact absurd ((hsame 0 y).mpr hhead) hkept
            | removed y =>
                rcases removedAt_cons_iff.mp ((hsame 0 y).mp hhead) with
                  ⟨hy, -⟩ | ⟨q, -, hq⟩
                · exact hy.symm
                · cases piece' with
                  | kept d => exact absurd ((hsame 0 y).mp hhead) hkept
                  | removed z =>
                      have hz := List.length_pos_iff.mpr
                        (hproper 0 z ((hsame 0 z).mpr hhead))
                      rw [Piece.source] at hq
                      omega
          subst hpiece
          rw [source_cons, source_cons] at hsource
          rw [ih (List.append_cancel_left hsource)
            (fun q x hq => hproper _ x ((removedAt_shift_iff hsize).mpr hq))
            (fun q x => by
              rw [← removedAt_shift_iff hsize, hsame, removedAt_shift_iff hsize])]

section Count

variable {marker : List α}

/-- A letter that stays and that is none of the marker's. -/
def shown [DecidableEq α] (marker : List α) (m : α × Bool) : Bool :=
  !m.2 && decide (m.1 ∉ marker)

theorem countP_render [DecidableEq α] (pieces : List (Piece α)) :
    (render marker pieces).countP (fun c => c ∉ marker) =
      ((source pieces).zip (flags pieces)).countP (shown marker) := by
  induction pieces with
  | nil => rfl
  | cons piece rest ih =>
      rw [render_cons, List.countP_append, ih, source_cons]
      cases piece with
      | kept c =>
          change _ = List.countP (shown marker)
            ((c, false) :: (source rest).zip (flags rest))
          rw [List.countP_cons, Nat.add_comm]
          congr 1
          simp [Piece.render, shown, List.countP_singleton]
      | removed part =>
          have hnone : ∀ m ∈ part.zip (List.replicate part.length true),
              ¬ shown marker m = true := by
            intro m hm
            have hflag := List.eq_of_mem_replicate (List.of_mem_zip hm).2
            simp [shown, hflag]
          have hmarker : ∀ c ∈ marker, ¬ decide (c ∉ marker) = true := by
            intro c hc
            simp [hc]
          change _ = List.countP (shown marker) ((part ++ source rest).zip
            (List.replicate part.length true ++ flags rest))
          rw [List.zip_append (List.length_replicate).symm, List.countP_append,
            List.countP_eq_zero.mpr hnone]
          congr 1
          exact List.countP_eq_zero.mpr hmarker

theorem shown_of_le [DecidableEq α] (marker : List α) (c : α) {b b' : Bool}
    (hb : b = true → b' = true) :
    shown marker (c, b') = true → shown marker (c, b) = true := by
  cases b <;> simp_all [shown]

theorem countP_shown_le [DecidableEq α] {text : List α} {hid hid' : List Bool}
    (hlength : hid.length = text.length) (hlength' : hid'.length = text.length)
    (hle : ∀ i : Nat, hid[i]? = some true → hid'[i]? = some true) :
    (text.zip hid').countP (shown marker) ≤
      (text.zip hid).countP (shown marker) := by
  induction text generalizing hid hid' with
  | nil => exact le_rfl
  | cons c rest ih =>
      obtain ⟨b, hid, rfl⟩ := List.exists_cons_of_length_eq_add_one hlength
      obtain ⟨b', hid', rfl⟩ := List.exists_cons_of_length_eq_add_one hlength'
      have hhead := shown_of_le marker c (by simpa using hle 0)
      have hrest := ih (Nat.succ.inj hlength) (Nat.succ.inj hlength')
        fun i => by simpa using hle (i + 1)
      rw [List.zip_cons_cons, List.zip_cons_cons, List.countP_cons,
        List.countP_cons]
      split <;> split <;> grind

/-- Where more is hidden, and a letter of its own among it, less is shown. -/
theorem countP_shown_lt [DecidableEq α] {text : List α} {hid hid' : List Bool}
    (hlength : hid.length = text.length) (hlength' : hid'.length = text.length)
    (hle : ∀ i : Nat, hid[i]? = some true → hid'[i]? = some true) {i : Nat}
    {a : α} (ha : text[i]? = some a) (hfree : a ∉ marker)
    (hhid : hid[i]? ≠ some true) (hhid' : hid'[i]? = some true) :
    (text.zip hid').countP (shown marker) <
      (text.zip hid).countP (shown marker) := by
  induction text generalizing hid hid' i with
  | nil => cases ha
  | cons c rest ih =>
      obtain ⟨b, hid, rfl⟩ := List.exists_cons_of_length_eq_add_one hlength
      obtain ⟨b', hid', rfl⟩ := List.exists_cons_of_length_eq_add_one hlength'
      have hbehind : ∀ i : Nat, hid[i]? = some true → hid'[i]? = some true :=
        fun i => by simpa using hle (i + 1)
      rw [List.zip_cons_cons, List.zip_cons_cons, List.countP_cons,
        List.countP_cons]
      cases i with
      | zero =>
          have hrest : (rest.zip hid').countP (shown marker) ≤
              (rest.zip hid).countP (shown marker) :=
            countP_shown_le (Nat.succ.inj hlength) (Nat.succ.inj hlength') hbehind
          obtain rfl : b' = true := by simpa using hhid'
          obtain rfl : b = false := by simpa using hhid
          obtain rfl : c = a := by simpa using ha
          have hshown : shown marker (c, false) = true := by simp [shown, hfree]
          have hhidden : shown marker (c, true) = false := rfl
          rw [hshown, hhidden, if_pos rfl, if_neg Bool.false_ne_true]
          omega
      | succ i =>
          have hrest := ih (Nat.succ.inj hlength) (Nat.succ.inj hlength') hbehind
            ha hhid hhid'
          have hhead := shown_of_le marker c (by simpa using hle 0)
          split <;> split <;> grind

end Count

/-- A text without the occurrences of the patterns: what is inside one is
removed, and the rest is kept in order. -/
def Hides (marker : List α) (patterns : List (List α)) (text out : List α) :
    Prop :=
  ∃ pieces, source pieces = text ∧ render marker pieces = out ∧
    ∀ i, Hidden pieces i ↔ Covered patterns text i

/-- A position that lies in a single occurrence. -/
def OwnPosition (patterns : List (List α)) (text : List α) (p : Nat)
    (x : List α) : Prop :=
  ∃ i, p ≤ i ∧ i < p + x.length ∧
    ∀ q, ∀ y ∈ patterns, Occurs text q y → q ≤ i → i < q + y.length →
      q = p ∧ y = x

/-- Two occurrences have positions in common, and each one has others of its
own. -/
def Torn (patterns : List (List α)) (text : List α) : Prop :=
  ∃ p, ∃ x ∈ patterns, ∃ q, ∃ y ∈ patterns, Occurs text p x ∧ Occurs text q y ∧
    Meet p x q y ∧ ¬ (p = q ∧ x = y) ∧ OwnPosition patterns text p x ∧
      OwnPosition patterns text q y

/-- The patterns that can be taken out: none is empty, and none has a letter of
the marker. -/
structure Proper (marker : List α) (patterns : List (List α)) : Prop where
  marker_ne : marker ≠ []
  ne_nil : ∀ x ∈ patterns, x ≠ []
  free : ∀ x ∈ patterns, ∀ c ∈ x, c ∉ marker

section Results

variable {marker text : List α} {patterns patterns' : List (List α)}

theorem Run.covered {pieces : List (Piece α)} (hrun : Run text patterns pieces)
    {i : Nat} (hhidden : Hidden pieces i) : Covered patterns text i := by
  obtain ⟨p, x, hremoved, hleft, hright⟩ := hidden_iff.mp hhidden
  exact ⟨p, x, hrun.mem_of_removed hremoved, hrun.source ▸ hremoved.occurs, hleft,
    hright⟩

variable [DecidableEq α]

theorem Proper.exists_run (hproper : Proper marker patterns) (text : List α) :
    ∃ pieces, Run text patterns pieces ∧
      replaceAll marker patterns text = render marker pieces := by
  obtain ⟨pieces, hrun⟩ := Redaction.exists_run text hproper.ne_nil
  exact ⟨pieces, hrun, hrun.render hproper.marker_ne fun x hx =>
    ⟨hproper.ne_nil x hx, hproper.free x hx⟩⟩

/-- No pattern is left in the text. -/
theorem not_infix_replaceAll (hproper : Proper marker patterns) (text : List α)
    {x : List α} (hx : x ∈ patterns) :
    ¬ x <:+: replaceAll marker patterns text := by
  obtain ⟨pieces, hrun, hrender⟩ := hproper.exists_run text
  intro hwithin
  rw [hrender] at hwithin
  exact hrun.not_infix hproper.ne_nil hx (keptAll_infix_of_render
    hproper.marker_ne (hproper.ne_nil x hx) (hproper.free x hx) hwithin)

theorem replaceAll_of_not_infix (hnot : ∀ x ∈ patterns, ¬ x <:+: text) :
    replaceAll marker patterns text = text := by
  refine List.foldlRecOn (motive := fun out => out = text) patterns _ rfl ?_
  rintro _ rfl x hx
  exact replace_of_not_infix (hnot x hx)

theorem replaceAll_replaceAll (hproper : Proper marker patterns)
    (text : List α) :
    replaceAll marker patterns (replaceAll marker patterns text) =
      replaceAll marker patterns text :=
  replaceAll_of_not_infix fun _ hx => not_infix_replaceAll hproper text hx

theorem hides_of_apart (hproper : Proper marker patterns)
    (hordered : Ordered patterns) (hapart : Apart patterns text) :
    Hides marker patterns text (replaceAll marker patterns text) := by
  obtain ⟨pieces, hrun, hrender⟩ := hproper.exists_run text
  refine ⟨pieces, hrun.source, hrender.symm, fun i => ⟨hrun.covered, ?_⟩⟩
  rintro ⟨p, x, hx, hoccurs, hleft, hright⟩
  obtain ⟨q, y, hy, hinside⟩ := exists_maximal hx hoccurs
  have hremoved := (hrun.removedAt_iff (List.prefix_refl _) hproper.ne_nil hordered
    hapart).mpr ⟨hy.1, hy⟩
  exact hidden_iff.mpr ⟨q, y, hremoved, hinside.1.trans hleft,
    hright.trans_le hinside.2⟩

/-- The order of the patterns does not matter, as far as both are ordered. -/
theorem replaceAll_congr (hproper : Proper marker patterns)
    (hordered : Ordered patterns) (hordered' : Ordered patterns')
    (hsame : ∀ x, x ∈ patterns' ↔ x ∈ patterns) (hapart : Apart patterns text) :
    replaceAll marker patterns' text = replaceAll marker patterns text := by
  have hmaximal : ∀ p x, Maximal patterns' text p x ↔ Maximal patterns text p x := by
    intro p x
    simp only [Maximal, hsame]
  have hproper' : Proper marker patterns' := ⟨hproper.marker_ne,
    fun x hx => hproper.ne_nil x ((hsame x).mp hx),
    fun x hx => hproper.free x ((hsame x).mp hx)⟩
  have hapart' : Apart patterns' text := by
    intro p x q y hx hy
    exact hapart p x q y ((hmaximal p x).mp hx) ((hmaximal q y).mp hy)
  obtain ⟨pieces, hrun, hrender⟩ := hproper.exists_run text
  obtain ⟨pieces', hrun', hrender'⟩ := hproper'.exists_run text
  rw [hrender, hrender']
  congr 1
  refine eq_of_removedAt_iff (hrun'.source.trans hrun.source.symm)
    (fun p x hx => hproper'.ne_nil x (hrun'.mem_of_removed hx)) fun p x => ?_
  rw [hrun'.removedAt_iff (List.prefix_refl _) hproper'.ne_nil hordered' hapart',
    hrun.removedAt_iff (List.prefix_refl _) hproper.ne_nil hordered hapart,
    hmaximal, hsame]

theorem not_hides_of_torn (hproper : Proper marker patterns)
    (htorn : Torn patterns text) :
    ¬ Hides marker patterns text (replaceAll marker patterns text) := by
  obtain ⟨pieces, hrun, hrender⟩ := hproper.exists_run text
  rintro ⟨pieces', hsource', hrender', hcovered⟩
  obtain ⟨p, x, hx, q, y, hy, hoccurs, hoccurs', hmeet, hne, hown, hown'⟩ := htorn
  -- one of the two is not removed, and what is its own is left
  have hleft : ∃ p, ∃ x ∈ patterns, Occurs text p x ∧ ¬ RemovedAt pieces p x ∧
      OwnPosition patterns text p x := by
    by_cases hremoved : RemovedAt pieces p x
    · refine ⟨q, y, hy, hoccurs', fun hremoved' => hne ?_, hown'⟩
      exact removedAt_of_meet hremoved hremoved' hmeet
    · exact ⟨p, x, hx, hoccurs, hremoved, hown⟩
  clear hx hoccurs hown hne hmeet
  obtain ⟨p, x, hx, hoccurs, hkept, i, hi, hi', honly⟩ := hleft
  have hshown : ¬ Hidden pieces i := by
    intro hhidden
    obtain ⟨r, z, hremoved, hr, hr'⟩ := hidden_iff.mp hhidden
    obtain ⟨rfl, rfl⟩ := honly r z (hrun.mem_of_removed hremoved)
      (hrun.source ▸ hremoved.occurs) hr hr'
    exact hkept hremoved
  have hhidden : Hidden pieces' i :=
    (hcovered i).mpr ⟨p, x, hx, hoccurs, hi, hi'⟩
  obtain ⟨a, ha, hmem⟩ : ∃ a, text[i]? = some a ∧ a ∈ x := by
    obtain ⟨u, v, rfl, rfl⟩ := hoccurs
    have hlt : i - u.length < x.length := by omega
    refine ⟨x[i - u.length], ?_, List.getElem_mem hlt⟩
    rw [List.getElem?_append_right hi, List.getElem?_append_left hlt,
      List.getElem?_eq_getElem hlt]
  have hflags := length_flags pieces
  have hflags' := length_flags pieces'
  rw [hrun.source] at hflags
  rw [hsource'] at hflags'
  have hlt := countP_shown_lt hflags hflags'
    (fun j hj => (hcovered j).mpr (hrun.covered hj)) ha (hproper.free x hx a hmem)
    hshown hhidden
  have hcount := @countP_render α marker _ pieces
  have hcount' := @countP_render α marker _ pieces'
  rw [hrun.source, ← hrender] at hcount
  rw [hsource', hrender'] at hcount'
  omega

end Results

end Redaction
