/-
The depth of a JSON text, which is measured before the text is parsed.
-/
import XBackup.Foundation.JsonGrammar

namespace XBackup

namespace Web

open Bytes JsonGrammar

def MAX_JSON_DEPTH : Nat := 127

structure TooDeep where
  found : Nat
  max : Nat
deriving DecidableEq

/-- The registers of the scan. -/
structure DepthScan where
  depth : Nat
  maxDepth : Nat
  inString : Bool
  escaped : Bool
deriving DecidableEq

/-- The difference, or zero where it would fall below. -/
def saturatingSub (a b : Nat) : Nat :=
  if b ≤ a then a - b else 0

namespace DepthScan

def start : DepthScan where
  depth := 0
  maxDepth := 0
  inString := false
  escaped := false

/-- The scan of a single byte. -/
def step (s : DepthScan) (b : UInt8) : DepthScan :=
  if s.inString then
    if s.escaped then { s with escaped := false }
    else if b = 92 then { s with escaped := true }
    else if b = 34 then { s with inString := false }
    else s
  else if b = 34 then { s with inString := true }
  else if b = 123 ∨ b = 91 then
    { s with depth := s.depth + 1, maxDepth := max s.maxDepth (s.depth + 1) }
  else if b = 125 ∨ b = 93 then { s with depth := saturatingSub s.depth 1 }
  else s

def run (s : DepthScan) (bytes : List UInt8) : DepthScan :=
  bytes.foldl step s

end DepthScan

def maxDepth (text : String) : Nat :=
  (DepthScan.start.run (utf8 text)).maxDepth

def checkDepth (text : String) : Except TooDeep Unit :=
  let found := maxDepth text
  if MAX_JSON_DEPTH < found then
    .error { found := found, max := MAX_JSON_DEPTH }
  else .ok ()

example : maxDepth "\x7b\"a\":\"x\\\"[[[[y\",\"b\":[[]]\x7d" = 3 := by decide +kernel

/-- Only a character of seven bits is written with a byte of seven bits. -/
theorem eq_of_mem_utf8EncodeChar {c : Char} {b : UInt8}
    (hmem : b ∈ String.utf8EncodeChar c) (hb : b.toNat < 128) :
    c.toNat = b.toNat := by
  have hsize : c.val.toNat < 1114112 := by
    have := c.valid
    simp only [UInt32.isValidChar, Nat.isValidChar] at this
    omega
  simp only [String.utf8EncodeChar] at hmem
  change c.val.toNat = b.toNat
  split at hmem
  next hshort =>
    rw [List.mem_singleton.mp hmem, UInt8.toNat_ofNat']
    omega
  next =>
    exfalso
    split at hmem
    · simp only [List.mem_cons, List.not_mem_nil, or_false] at hmem
      rcases hmem with rfl | rfl <;> rw [UInt8.toNat_ofNat'] at hb <;> omega
    · split at hmem
      · simp only [List.mem_cons, List.not_mem_nil, or_false] at hmem
        rcases hmem with rfl | rfl | rfl <;> rw [UInt8.toNat_ofNat'] at hb <;>
          omega
      · simp only [List.mem_cons, List.not_mem_nil, or_false] at hmem
        rcases hmem with rfl | rfl | rfl | rfl <;>
          rw [UInt8.toNat_ofNat'] at hb <;> omega

theorem ne_of_mem_utf8EncodeChar {c special : Char} {b : UInt8}
    (hmem : b ∈ String.utf8EncodeChar c) (hsmall : special.toNat < 128)
    (hne : c ≠ special) : b ≠ UInt8.ofNat special.toNat := by
  rintro rfl
  have hbyte : (UInt8.ofNat special.toNat).toNat = special.toNat := by
    rw [UInt8.toNat_ofNat']
    omega
  have hcode := eq_of_mem_utf8EncodeChar hmem (hbyte.symm ▸ hsmall)
  exact hne (Char.toNat_inj.mp (hcode.trans hbyte))

section Scan

/-- The bytes of a part of a text. -/
def encoded (chars : List Char) : List UInt8 :=
  chars.flatMap String.utf8EncodeChar

theorem encoded_append (front back : List Char) :
    encoded (front ++ back) = encoded front ++ encoded back :=
  List.flatMap_append

theorem encoded_cons (c : Char) (chars : List Char) :
    encoded (c :: chars) = String.utf8EncodeChar c ++ encoded chars :=
  List.flatMap_cons

theorem DepthScan.run_append (s : DepthScan) (front back : List UInt8) :
    s.run (front ++ back) = (s.run front).run back :=
  List.foldl_append

/-- A scan outside of strings. -/
def DepthScan.outside (depth deepest : Nat) : DepthScan where
  depth := depth
  maxDepth := deepest
  inString := false
  escaped := false

def DepthScan.inside (depth deepest : Nat) : DepthScan where
  depth := depth
  maxDepth := deepest
  inString := true
  escaped := false

theorem DepthScan.run_fixed {s : DepthScan} {bytes : List UInt8}
    (hfixed : ∀ b ∈ bytes, s.step b = s) : s.run bytes = s :=
  List.foldlRecOn (motive := fun t => t = s) bytes step rfl
    fun _ ht b hb => ht ▸ hfixed b hb

/-- A part of a text in which every bracket is closed, nested this deep. -/
def Opens (nested : Nat) (chars : List Char) : Prop :=
  ∀ depth deepest, depth ≤ deepest →
    (DepthScan.outside depth deepest).run (encoded chars) =
      DepthScan.outside depth (max deepest (depth + nested))

theorem Opens.append {front back : List Char} {j k : Nat} (hfront : Opens j front)
    (hback : Opens k back) : Opens (max j k) (front ++ back) := by
  intro depth deepest hle
  rw [encoded_append, DepthScan.run_append, hfront depth deepest hle,
    hback depth _ (hle.trans (le_max_left _ _))]
  congr 1
  omega

theorem Opens.bracket {chars : List Char} {k : Nat} {opening closing : Char}
    (hchars : Opens k chars) (hopening : opening ∈ ['{', '['])
    (hclosing : closing ∈ ['}', ']']) :
    Opens (k + 1) (opening :: (chars ++ [closing])) := by
  intro depth deepest hle
  have hopen : (DepthScan.outside depth deepest).run
      (String.utf8EncodeChar opening) =
        DepthScan.outside (depth + 1) (max deepest (depth + 1)) := by
    fin_cases hopening <;> rfl
  have hclose : ∀ deepest', (DepthScan.outside (depth + 1) deepest').run
      (encoded [closing]) = DepthScan.outside depth deepest' := by
    intro deepest'
    fin_cases hclosing <;> rfl
  rw [encoded_cons, encoded_append, DepthScan.run_append, DepthScan.run_append,
    hopen, hchars _ _ (le_max_right _ _), hclose]
  congr 1
  omega

/-- What the scan passes over outside of strings. -/
def Quiet (c : Char) : Prop :=
  c ∉ ['"', '{', '[', '}', ']']

instance : DecidablePred Quiet := fun c =>
  inferInstanceAs (Decidable (c ∉ ['"', '{', '[', '}', ']']))

theorem opens_of_quiet {chars : List Char} (hquiet : ∀ c ∈ chars, Quiet c) :
    Opens 0 chars := by
  intro depth deepest hle
  rw [Nat.add_zero, max_eq_left hle]
  refine DepthScan.run_fixed fun b hb => ?_
  obtain ⟨c, hc, hbc⟩ := List.mem_flatMap.mp hb
  have hne : ∀ special ∈ ['"', '{', '[', '}', ']'], special.toNat < 128 →
      b ≠ UInt8.ofNat special.toNat := fun special hspecial hsmall =>
    ne_of_mem_utf8EncodeChar hbc hsmall fun heq => hquiet c hc (heq ▸ hspecial)
  have hquote : b ≠ 34 := hne '"' (by decide) (by decide)
  have hbrace : b ≠ 123 := hne '{' (by decide) (by decide)
  have hbracket : b ≠ 91 := hne '[' (by decide) (by decide)
  have hbrace' : b ≠ 125 := hne '}' (by decide) (by decide)
  have hbracket' : b ≠ 93 := hne ']' (by decide) (by decide)
  simp [DepthScan.step, DepthScan.outside, hquote, hbrace, hbracket, hbrace',
    hbracket']

theorem inside_plain {c : Char} (hquote : c ≠ '"') (hbackslash : c ≠ '\\')
    (depth deepest : Nat) :
    (DepthScan.inside depth deepest).run (String.utf8EncodeChar c) =
      DepthScan.inside depth deepest := by
  refine DepthScan.run_fixed fun b hb => ?_
  have hquote' : b ≠ 34 := ne_of_mem_utf8EncodeChar hb (by decide) hquote
  have hbackslash' : b ≠ 92 :=
    ne_of_mem_utf8EncodeChar hb (by decide) hbackslash
  simp [DepthScan.step, DepthScan.inside, hquote', hbackslash']

/-- Between the quotes of a string nothing is counted. -/
theorem inside_part {part : List Char} (hpart : IsStringPart part)
    (depth deepest : Nat) :
    (DepthScan.inside depth deepest).run (encoded part) =
      DepthScan.inside depth deepest := by
  have hhex : ∀ c ∈ hexDigits, c ≠ '"' ∧ c ≠ '\\' := by
    simp [hexDigits]
  cases hpart with
  | plain hquote hbackslash _ =>
      rw [encoded_cons, DepthScan.run_append,
        inside_plain hquote hbackslash depth deepest]
      rfl
  | escaped hc =>
      fin_cases hc <;> rfl
  | @unicode a b c d ha hb hc hd =>
      rw [show ['\\', 'u', a, b, c, d] = ['\\', 'u'] ++ [a, b, c, d] from rfl,
        encoded_append, DepthScan.run_append]
      change (DepthScan.inside depth deepest).run (encoded [a, b, c, d]) = _
      rw [encoded_cons, encoded_cons, encoded_cons, encoded_cons,
        DepthScan.run_append, DepthScan.run_append, DepthScan.run_append,
        DepthScan.run_append, inside_plain (hhex a ha).1 (hhex a ha).2,
        inside_plain (hhex b hb).1 (hhex b hb).2,
        inside_plain (hhex c hc).1 (hhex c hc).2,
        inside_plain (hhex d hd).1 (hhex d hd).2]
      rfl

theorem opens_string {text : List Char} (htext : IsString text) :
    Opens 0 text := by
  obtain ⟨parts, hparts, rfl⟩ := htext
  intro depth deepest hle
  have hinside : (DepthScan.inside depth deepest).run (encoded parts.flatten) =
      DepthScan.inside depth deepest := by
    induction parts with
    | nil => rfl
    | cons part rest ih =>
        rw [List.flatten_cons, encoded_append, DepthScan.run_append,
          inside_part (hparts part List.mem_cons_self),
          ih fun other hother => hparts other (List.mem_cons_of_mem _ hother)]
  rw [Nat.add_zero, max_eq_left hle, encoded_cons, encoded_append,
    DepthScan.run_append, DepthScan.run_append]
  change ((DepthScan.inside depth deepest).run (encoded parts.flatten)).run
    (encoded ['"']) = _
  rw [hinside]
  rfl

theorem opens_blank {text : List Char} (hblank : Blank text) : Opens 0 text := by
  have hquiet : ∀ c ∈ [' ', '\t', '\n', '\r'], Quiet c := by simp [Quiet]
  exact opens_of_quiet fun c hc => hquiet c (hblank c hc)

theorem quiet_of_digits {text : List Char} (htext : Digits text) :
    ∀ c ∈ text, Quiet c := by
  have hquiet : ∀ c ∈ ['0', '1', '2', '3', '4', '5', '6', '7', '8', '9'],
      Quiet c := by simp [Quiet]
  exact fun c hc => hquiet c (htext.2 c hc)

theorem opens_number {text : List Char} (htext : IsNumber text) :
    Opens 0 text := by
  have hmarks : ∀ c ∈ ['0', '.', 'e', 'E', '+', '-'], Quiet c := by simp [Quiet]
  have hsigns : ∀ sign ∈ [[], ['+'], ['-']], ∀ c ∈ sign, Quiet c := by
    simp [Quiet]
  obtain ⟨sign, hsign, int, frac, exp, hint, hfrac, hexp, rfl⟩ := htext
  have hsign' : Opens 0 sign := opens_of_quiet (hsigns sign (by
    simp only [List.mem_cons, List.not_mem_nil, or_false] at hsign ⊢
    exact hsign.imp_right .inr))
  have hint' : Opens 0 int := by
    rcases hint with rfl | ⟨hdigits, -⟩
    · exact opens_of_quiet (List.forall_mem_singleton.mpr (hmarks _ (by simp)))
    · exact opens_of_quiet (quiet_of_digits hdigits)
  have hfrac' : Opens 0 frac := by
    rcases hfrac with rfl | ⟨digits, hdigits, rfl⟩
    · exact opens_of_quiet nofun
    · exact opens_of_quiet (List.forall_mem_cons.mpr
        ⟨hmarks _ (by simp), quiet_of_digits hdigits⟩)
  have hexp' : Opens 0 exp := by
    rcases hexp with rfl | ⟨e, he, sign', hsign', digits, hdigits, rfl⟩
    · exact opens_of_quiet nofun
    · refine opens_of_quiet (List.forall_mem_cons.mpr ⟨hmarks e ?_, ?_⟩)
      · rcases List.mem_pair.mp he with rfl | rfl <;> simp
      · exact List.forall_mem_append.mpr
          ⟨hsigns sign' hsign', quiet_of_digits hdigits⟩
  exact ((hsign'.append hint').append hfrac').append hexp'

theorem opens_array {text : List Char} {k : Nat} (htext : Opens k text) :
    Opens (k + 1) ('[' :: (text ++ [']'])) :=
  htext.bracket (by simp) (by simp)

theorem opens_object {text : List Char} {k : Nat} (htext : Opens k text) :
    Opens (k + 1) ('{' :: (text ++ ['}'])) :=
  htext.bracket (by simp) (by simp)

theorem opens_comma {text rest : List Char} {j k : Nat} (htext : Opens j text)
    (hrest : Opens k rest) : Opens (max j k) (text ++ ',' :: rest) := by
  have hcomma : Opens 0 [','] :=
    opens_of_quiet (List.forall_mem_singleton.mpr (by simp [Quiet]))
  have h := htext.append (hcomma.append hrest)
  rwa [Nat.zero_max] at h

theorem opens_key {before key after text : List Char} {k : Nat}
    (hbefore : Blank before) (hkey : IsString key) (hafter : Blank after)
    (htext : Opens k text) : Opens k (before ++ key ++ after ++ ':' :: text) := by
  have hcolon : Opens 0 [':'] :=
    opens_of_quiet (List.forall_mem_singleton.mpr (by simp [Quiet]))
  have h := (((opens_blank hbefore).append (opens_string hkey)).append
    (opens_blank hafter)).append (hcolon.append htext)
  rwa [Nat.max_self, Nat.max_self, Nat.zero_max, Nat.zero_max] at h

theorem opens_last {text : List Char} {k : Nat} (htext : Opens k text) :
    Opens (max k 0) text := by
  rwa [Nat.max_zero]

mutual

theorem opens_value : ∀ {text : List Char} {v : Json}, Value text v →
    Opens v.depth text
  | _, _, .null => opens_of_quiet (by simp [Quiet])
  | _, _, .true => opens_of_quiet (by simp [Quiet])
  | _, _, .false => opens_of_quiet (by simp [Quiet])
  | _, _, .number htext => opens_number htext
  | _, _, .string htext => opens_string htext
  | _, _, .emptyArray hblank => opens_array (opens_blank hblank)
  | _, _, .array hitems => opens_array (opens_items hitems)
  | _, _, .emptyObject hblank => opens_object (opens_blank hblank)
  | _, _, .object hmembers => opens_object (opens_members hmembers)

theorem opens_items : ∀ {text : List Char} {items : List Json},
    Items text items → Opens (Json.depthOfItems items) text
  | _, _, .last hvalue => opens_last (opens_denotes hvalue)
  | _, _, .next hvalue hrest => opens_comma (opens_denotes hvalue) (opens_items hrest)

theorem opens_members : ∀ {text : List Char} {members : List (List Char × Json)},
    Members text members → Opens (Json.depthOfMembers members) text
  | _, _, .last hbefore hkey hafter hvalue =>
      opens_last (opens_key hbefore hkey hafter (opens_denotes hvalue))
  | _, _, .next hbefore hkey hafter hvalue hrest =>
      opens_key hbefore hkey hafter
        (opens_comma (opens_denotes hvalue) (opens_members hrest))

theorem opens_denotes : ∀ {text : List Char} {v : Json}, Denotes text v →
    Opens v.depth text
  | _, _, .intro hbefore hvalue hafter => by
      have h := ((opens_blank hbefore).append (opens_value hvalue)).append
        (opens_blank hafter)
      rwa [Nat.zero_max, Nat.max_zero] at h

end

end Scan

/-- The deepest nesting of a valid text is the depth of its value. -/
theorem maxDepth_of_denotes {text : String} {v : Json}
    (hdenotes : Denotes text.toList v) : maxDepth text = v.depth := by
  have hrun := opens_denotes hdenotes 0 0 le_rfl
  rw [Nat.zero_add, Nat.zero_max] at hrun
  exact congrArg DepthScan.maxDepth hrun

theorem checkDepth_eq_ok_iff {text : String} :
    checkDepth text = .ok () ↔ maxDepth text ≤ MAX_JSON_DEPTH := by
  rw [checkDepth]
  split
  next hdeep => exact iff_of_false nofun (not_le.mpr hdeep)
  next hshallow => exact iff_of_true rfl (not_lt.mp hshallow)

theorem checkDepth_eq_error_iff {text : String} {err : TooDeep} :
    checkDepth text = .error err ↔
      MAX_JSON_DEPTH < maxDepth text ∧
        err = { found := maxDepth text, max := MAX_JSON_DEPTH } := by
  rw [checkDepth]
  split
  next hdeep => rw [and_iff_right hdeep, Except.error.injEq, eq_comm]
  next hshallow => exact iff_of_false nofun fun h => hshallow h.1

def isOpening (b : UInt8) : Bool :=
  b = 123 ∨ b = 91

/-- The registers of a scan stay within the brackets that were opened: neither
has gone round. -/
def DepthScan.Bounded (opened : Nat) (s : DepthScan) : Prop :=
  s.depth ≤ s.maxDepth ∧ s.maxDepth ≤ opened

theorem DepthScan.Bounded.step {s : DepthScan} {opened : Nat}
    (hs : s.Bounded opened) (b : UInt8) :
    (s.step b).Bounded (opened + if isOpening b then 1 else 0) := by
  obtain ⟨hdepth, hmax⟩ := hs
  unfold DepthScan.step isOpening Bounded saturatingSub
  grind

theorem DepthScan.bounded_run (bytes : List UInt8) :
    (start.run bytes).Bounded (bytes.countP isOpening) := by
  induction bytes using List.reverseRecOn with
  | nil => exact ⟨le_rfl, le_rfl⟩
  | append_singleton front b ih =>
      rw [run_append, List.countP_append, List.countP_singleton]
      exact ih.step b

theorem DepthScan.maxDepth_le_step (s : DepthScan) (b : UInt8) :
    s.maxDepth ≤ (s.step b).maxDepth := by
  unfold DepthScan.step
  grind

theorem DepthScan.maxDepth_le_run (s : DepthScan) (bytes : List UInt8) :
    s.maxDepth ≤ (s.run bytes).maxDepth :=
  List.foldlRecOn (motive := fun t => s.maxDepth ≤ t.maxDepth) bytes step le_rfl
    fun t ht b _ => ht.trans (t.maxDepth_le_step b)

/-- The gate measures the depth of every valid text, keeps out the texts that no
parser of its limit reads and no others, and its registers stay in bounds for
whatever it is given. -/
theorem checkDepth_exact (text : String) :
    (∀ v, Denotes text.toList v →
      maxDepth text = v.depth ∧
        (checkDepth text = .ok () ↔ v.depth ≤ MAX_JSON_DEPTH) ∧
        (checkDepth text = .error { found := v.depth, max := MAX_JSON_DEPTH } ↔
          MAX_JSON_DEPTH < v.depth)) ∧
      (∀ parse, DepthLimited MAX_JSON_DEPTH parse → (parse text).isSome →
        checkDepth text = .ok ()) ∧
      ∀ front, front <+: utf8 text →
        (DepthScan.start.run front).Bounded (front.countP isOpening) ∧
          (DepthScan.start.run front).maxDepth ≤ maxDepth text := by
  refine ⟨fun v hdenotes => ?_, fun parse hparse hsome => ?_, ?_⟩
  · have hdepth := maxDepth_of_denotes hdenotes
    refine ⟨hdepth, ?_, ?_⟩
    · rw [checkDepth_eq_ok_iff, hdepth]
    · rw [checkDepth_eq_error_iff, hdepth, and_iff_left rfl]
  · obtain ⟨v, hv⟩ := Option.isSome_iff_exists.mp hsome
    rw [checkDepth_eq_ok_iff, maxDepth_of_denotes (hparse.valid text v hv)]
    exact hparse.limited text v hv
  · rintro front ⟨rest, hrest⟩
    refine ⟨DepthScan.bounded_run front, ?_⟩
    rw [maxDepth, ← hrest, DepthScan.run_append]
    exact DepthScan.maxDepth_le_run _ rest

theorem nested_denotes : Denotes "[[]]".toList (.array [.array []]) := by
  have hinner : Denotes ([] ++ '[' :: ([] ++ [']']) ++ []) (.array []) :=
    .intro Blank.nil (.emptyArray Blank.nil) Blank.nil
  have houter : Denotes ([] ++ '[' :: ("[]".toList ++ [']']) ++ [])
      (.array [.array []]) :=
    .intro Blank.nil (.array (.last hinner)) Blank.nil
  exact houter

theorem checkDepth_nested : maxDepth "[[]]" = 2 ∧ checkDepth "[[]]" = .ok () := by
  obtain ⟨hdepth, hok, -⟩ := (checkDepth_exact "[[]]").1 _ nested_denotes
  exact ⟨hdepth, hok.mpr (by decide)⟩

end Web

end XBackup
