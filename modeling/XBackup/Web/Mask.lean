/-
The secrets that are masked in what the server sends out.
-/
import XBackup.Foundation.Bytes
import XBackup.Foundation.Redaction

namespace XBackup

namespace Web

open Bytes Redaction

def REDACTED_PLACEHOLDER : String := "[REDACTED]"

def MIN_SECRET_LEN : Nat := 8

/-- The secrets, the longest of them first. -/
structure SecretRegistry where
  secrets : List String
  sorted : secrets.Pairwise fun s t => (utf8 t).length ≤ (utf8 s).length
  long : ∀ s ∈ secrets, MIN_SECRET_LEN ≤ (utf8 s).length

namespace SecretRegistry

def new : SecretRegistry where
  secrets := []
  sorted := .nil
  long := nofun

/-- The secrets that are no shorter than a value. -/
def noShorter (value : String) (secrets : List String) : List String :=
  secrets.takeWhile fun s => (utf8 value).length ≤ (utf8 s).length

def shorter (value : String) (secrets : List String) : List String :=
  secrets.dropWhile fun s => (utf8 value).length ≤ (utf8 s).length

def inserted (value : String) (secrets : List String) : List String :=
  noShorter value secrets ++ value :: shorter value secrets

theorem mem_inserted {value s : String} {secrets : List String} :
    s ∈ inserted value secrets ↔ s = value ∨ s ∈ secrets := by
  have hsplit : s ∈ noShorter value secrets ∨ s ∈ shorter value secrets ↔
      s ∈ secrets := by
    rw [← List.mem_append, noShorter, shorter, List.takeWhile_append_dropWhile]
  rw [inserted, List.mem_append, List.mem_cons, ← hsplit]
  exact or_left_comm

theorem sorted_inserted {secrets : List String} (value : String)
    (hsorted : secrets.Pairwise fun s t => (utf8 t).length ≤ (utf8 s).length) :
    (inserted value secrets).Pairwise
      fun s t => (utf8 t).length ≤ (utf8 s).length := by
  induction secrets with
  | nil => exact List.pairwise_singleton _ _
  | cons s rest ih =>
      obtain ⟨hhead, hrest⟩ := List.pairwise_cons.mp hsorted
      by_cases hlong : (utf8 value).length ≤ (utf8 s).length
      · have hcons : inserted value (s :: rest) = s :: inserted value rest := by
          rw [inserted, noShorter, shorter, List.takeWhile_cons_of_pos (by simpa),
            List.dropWhile_cons_of_pos (by simpa)]
          rfl
        rw [hcons]
        refine List.pairwise_cons.mpr ⟨fun t ht => ?_, ih hrest⟩
        rcases mem_inserted.mp ht with rfl | ht
        · exact hlong
        · exact hhead t ht
      · have hcons : inserted value (s :: rest) = value :: s :: rest := by
          rw [inserted, noShorter, shorter, List.takeWhile_cons_of_neg (by simpa using hlong),
            List.dropWhile_cons_of_neg (by simpa using hlong)]
          rfl
        have hshort := (not_le.mp hlong).le
        rw [hcons]
        refine List.pairwise_cons.mpr ⟨fun t ht => ?_, hsorted⟩
        rcases List.mem_cons.mp ht with rfl | ht
        · exact hshort
        · exact (hhead t ht).trans hshort

/-- A value that is too short is refused, and one that is known is not added
again. -/
def register (r : SecretRegistry) (value : String) : SecretRegistry × Bool :=
  if hshort : (utf8 value).length < MIN_SECRET_LEN then (r, false)
  else if value ∈ r.secrets then (r, true)
  else
    ({ secrets := inserted value r.secrets
       sorted := sorted_inserted value r.sorted
       long := fun _ hs => (mem_inserted.mp hs).elim
        (fun hvalue => hvalue ▸ not_lt.mp hshort) (r.long _) }, true)

def contains (out secret : String) : Bool :=
  secret.toList <:+: out.toList

def replaced (secret out : String) : String :=
  String.ofList (replace secret.toList REDACTED_PLACEHOLDER.toList out.toList)

def mask (r : SecretRegistry) (input : String) : String :=
  if r.secrets.isEmpty ∨ input.isEmpty then input
  else
    r.secrets.foldl (fun out secret =>
      if contains out secret then replaced secret out else out) input

/-- The registry after calls of `register`. -/
def registered (calls : List String) : SecretRegistry :=
  calls.foldl (fun r value => (r.register value).1) new

theorem mem_register {r : SecretRegistry} {value s : String} :
    s ∈ (r.register value).1.secrets ↔
      s ∈ r.secrets ∨ s = value ∧ MIN_SECRET_LEN ≤ (utf8 value).length := by
  rw [register]
  split
  next hshort =>
    refine ⟨.inl, fun h => h.resolve_right ?_⟩
    rintro ⟨-, hlong⟩
    exact absurd hshort (not_lt.mpr hlong)
  next hlong =>
    split
    next hknown =>
      refine ⟨.inl, fun h => h.elim id ?_⟩
      rintro ⟨rfl, -⟩
      exact hknown
    next =>
      rw [mem_inserted, and_iff_left (not_lt.mp hlong), or_comm]

theorem mem_registered {calls : List String} {s : String} :
    s ∈ (registered calls).secrets ↔
      s ∈ calls ∧ MIN_SECRET_LEN ≤ (utf8 s).length := by
  induction calls using List.reverseRecOn with
  | nil => exact iff_of_false List.not_mem_nil fun h => List.not_mem_nil h.1
  | append_singleton calls value ih =>
      rw [registered, List.foldl_concat, ← registered, mem_register, ih,
        List.mem_append, List.mem_singleton]
      constructor
      · rintro (⟨hs, hlong⟩ | ⟨rfl, hlong⟩)
        · exact ⟨.inl hs, hlong⟩
        · exact ⟨.inr rfl, hlong⟩
      · rintro ⟨hs | rfl, hlong⟩
        · exact .inl ⟨hs, hlong⟩
        · exact .inr ⟨rfl, hlong⟩

/-- The letters of the secrets. -/
def patterns (r : SecretRegistry) : List (List Char) :=
  r.secrets.map String.toList

theorem ordered_patterns (r : SecretRegistry) : Ordered r.patterns := by
  refine List.pairwise_map.mpr (r.sorted.imp fun {s t} hlength hinfix => ?_)
  obtain ⟨u, v, hsplit⟩ := hinfix
  have hbytes : ∀ chars : List Char, chars.length ≤
      (chars.flatMap String.utf8EncodeChar).length := length_le_length_utf8
  have hu := hbytes u
  have hv := hbytes v
  rw [utf8, utf8, ← hsplit, List.flatMap_append, List.flatMap_append,
    List.length_append, List.length_append] at hlength
  obtain rfl := List.length_eq_zero_iff.mp (show u.length = 0 by omega)
  obtain rfl := List.length_eq_zero_iff.mp (show v.length = 0 by omega)
  rw [← hsplit, List.nil_append, List.append_nil]

/-- The loop of `mask` replaces each secret, the longest of them first. -/
theorem toList_mask (r : SecretRegistry) (input : String) :
    (r.mask input).toList =
      replaceAll REDACTED_PLACEHOLDER.toList r.patterns input.toList := by
  have hloop : ∀ secrets : List String,
      (secrets.foldl (fun out secret =>
        if contains out secret then replaced secret out else out) input).toList =
        replaceAll REDACTED_PLACEHOLDER.toList (secrets.map String.toList)
          input.toList := by
    intro secrets
    rw [replaceAll, List.foldl_map]
    refine (List.foldl_hom String.toList fun out secret => ?_).symm
    by_cases hcontains : secret.toList <:+: out.toList
    · have hyes : contains out secret = true := decide_eq_true hcontains
      rw [if_pos hyes, replaced, String.toList_ofList]
    · rw [if_neg (by simpa [contains] using hcontains),
        replace_of_not_infix hcontains]
  rw [mask]
  split
  next hempty =>
    rcases hempty with hnone | hinput
    · rw [patterns, List.isEmpty_iff.mp hnone]
      rfl
    · obtain rfl := String.isEmpty_iff.mp hinput
      refine (List.foldlRecOn (motive := fun out => out = []) r.patterns _ rfl ?_).symm
      rintro _ rfl x -
      rfl
  next => exact hloop r.secrets

/-- Masking hides every occurrence of a secret, and nothing else; no secret is
left; the order of the calls does not matter, nor does masking again. -/
def Masks (calls : List String) (input : String) : Prop :=
  let r := registered calls
  Hides REDACTED_PLACEHOLDER.toList r.patterns input.toList
      (r.mask input).toList ∧
    (∀ s ∈ r.secrets, ¬ s.toList <:+: (r.mask input).toList) ∧
    (∀ calls', calls'.Perm calls →
      (registered calls').mask input = r.mask input) ∧
    r.mask (r.mask input) = r.mask input

theorem proper_patterns {r : SecretRegistry}
    (hfree : ∀ s ∈ r.secrets, ∀ c ∈ s.toList, c ∉ REDACTED_PLACEHOLDER.toList) :
    Proper REDACTED_PLACEHOLDER.toList r.patterns where
  marker_ne := by decide
  ne_nil := by
    intro x hx hnil
    obtain ⟨s, hs, rfl⟩ := List.mem_map.mp hx
    have hlong := r.long s hs
    rw [utf8, hnil] at hlong
    exact absurd hlong (by decide)
  free := by
    intro x hx
    obtain ⟨s, hs, rfl⟩ := List.mem_map.mp hx
    exact hfree s hs

/-- No secret is left, and nothing is masked twice, whatever overlaps. Where the
occurrences that lie in no longer one are apart, masking does all it should; it
does not where two of them overlap and each has a position of its own. -/
theorem masks_of_apart (calls : List String) (input : String)
    (hfree : ∀ s ∈ (registered calls).secrets,
      ∀ c ∈ s.toList, c ∉ REDACTED_PLACEHOLDER.toList) :
    ((∀ s ∈ (registered calls).secrets,
        ¬ s.toList <:+: ((registered calls).mask input).toList) ∧
      (registered calls).mask ((registered calls).mask input) =
        (registered calls).mask input) ∧
      (Apart (registered calls).patterns input.toList → Masks calls input) ∧
      (Torn (registered calls).patterns input.toList → ¬ Masks calls input) := by
  have hproper := proper_patterns hfree
  have hnone : ∀ s ∈ (registered calls).secrets,
      ¬ s.toList <:+: ((registered calls).mask input).toList := by
    intro s hs
    rw [toList_mask]
    exact not_infix_replaceAll hproper _ (List.mem_map_of_mem hs)
  have hagain : (registered calls).mask ((registered calls).mask input) =
      (registered calls).mask input := by
    rw [← String.toList_inj, toList_mask, toList_mask]
    exact replaceAll_replaceAll hproper _
  refine ⟨⟨hnone, hagain⟩, fun hapart => ⟨?_, hnone, ?_, hagain⟩, ?_⟩
  · rw [toList_mask]
    exact hides_of_apart hproper (ordered_patterns _) hapart
  · intro calls' hperm
    rw [← String.toList_inj, toList_mask, toList_mask]
    refine replaceAll_congr hproper (ordered_patterns _) (ordered_patterns _)
      (fun x => ?_) hapart
    simp only [patterns, List.mem_map, mem_registered, hperm.mem_iff]
  · intro htorn hmasks
    refine not_hides_of_torn hproper htorn ?_
    rw [← toList_mask]
    exact hmasks.1

theorem occurs_iff {α : Type*} {text x : List α} {p : Nat} :
    Occurs text p x ↔ p ≤ text.length ∧ x <+: text.drop p := by
  constructor
  · rintro ⟨u, v, rfl, rfl⟩
    rw [List.drop_left, List.length_append]
    exact ⟨Nat.le_add_right _ _, List.prefix_append x v⟩
  · rintro ⟨hp, v, hv⟩
    refine ⟨text.take p, v, ?_, List.length_take_of_le hp⟩
    rw [hv, List.take_append_drop]

theorem free_of_all {r : SecretRegistry}
    (hall : r.secrets.all fun s =>
      s.toList.all fun c => !REDACTED_PLACEHOLDER.toList.contains c) :
    ∀ s ∈ r.secrets, ∀ c ∈ s.toList, c ∉ REDACTED_PLACEHOLDER.toList := by
  intro s hs c hc
  simpa using List.all_eq_true.mp (List.all_eq_true.mp hall s hs) c hc

/-- A password with another text around it. -/
theorem masks_password :
    Masks ["hunter2pass"] "with 'hunter2pass'" := by
  refine (masks_of_apart ["hunter2pass"] "with 'hunter2pass'" ?_).2.1 ?_
  · exact free_of_all (by decide +kernel)
  · rintro p x q y ⟨hx, hxp, -⟩ ⟨hy, hyq, -⟩ -
    have honly : ∀ p < 19, ∀ x ∈ (registered ["hunter2pass"]).patterns,
        x <+: "with 'hunter2pass'".toList.drop p → p = 6 ∧
          x = "hunter2pass".toList := by
      decide +kernel
    obtain ⟨hp, hprefix⟩ := occurs_iff.mp hxp
    obtain ⟨hq, hprefix'⟩ := occurs_iff.mp hyq
    obtain ⟨rfl, rfl⟩ := honly p (Nat.lt_succ_of_le hp) x hx hprefix
    obtain ⟨rfl, rfl⟩ := honly q (Nat.lt_succ_of_le hq) y hy hprefix'
    exact ⟨rfl, rfl⟩

/-- Of two secrets, of which the one begins in the other, four letters are
left. -/
theorem mask_torn :
    (registered ["abcdefgh", "efghijkl"]).mask "abcdefghijkl" =
        "[REDACTED]ijkl" ∧
      ¬ Masks ["abcdefgh", "efghijkl"] "abcdefghijkl" := by
  have hproper : Proper REDACTED_PLACEHOLDER.toList
      (registered ["abcdefgh", "efghijkl"]).patterns :=
    proper_patterns (free_of_all (by decide +kernel))
  refine ⟨by decide +kernel, fun hmasks => ?_⟩
  refine not_hides_of_torn hproper ?_ (toList_mask _ _ ▸ hmasks.1)
  have hown : ∀ p x i, p ≤ i → i < p + x.length →
      (∀ q < 13, ∀ y ∈ (registered ["abcdefgh", "efghijkl"]).patterns,
        y <+: "abcdefghijkl".toList.drop q → q ≤ i → i < q + y.length →
          q = p ∧ y = x) →
      OwnPosition (registered ["abcdefgh", "efghijkl"]).patterns
        "abcdefghijkl".toList p x := by
    intro p x i hp hi honly
    refine ⟨i, hp, hi, fun q y hy hoccurs => ?_⟩
    obtain ⟨hq, hprefix⟩ := occurs_iff.mp hoccurs
    exact honly q (Nat.lt_succ_of_le hq) y hy hprefix
  refine ⟨0, "abcdefgh".toList, by decide +kernel, 4, "efghijkl".toList,
    by decide +kernel, occurs_iff.mpr (by decide +kernel),
    occurs_iff.mpr (by decide +kernel), ?_, by decide +kernel,
    hown _ _ 0 (by decide) (by decide +kernel) (by decide +kernel),
    hown _ _ 11 (by decide) (by decide +kernel) (by decide +kernel)⟩
  exact ⟨by decide +kernel, by decide +kernel⟩

end SecretRegistry

end Web

end XBackup
