/-
Texts that say where they end: JSON strings and numbers, one behind the other.
-/
import XBackup.Foundation.Bytes

namespace JsonText

open Bytes

universe u v

/-- What is encoded ends by itself: what stands behind it is determined. -/
def Delimited {α : Type u} (encode : α → List UInt8) : Prop :=
  ∀ left right rest others, encode left ++ rest = encode right ++ others →
    left = right ∧ rest = others

/-- The bytes that a JSON string escapes. -/
def specials : List UInt8 :=
  34 :: 92 :: (List.range 32).map UInt8.ofNat

def hexDigit (n : UInt8) : UInt8 :=
  if n < 10 then 48 + n else 87 + n

def escape (byte : UInt8) : List UInt8 :=
  if byte ∉ specials then [byte]
  else 92 ::
    if byte = 34 ∨ byte = 92 then [byte]
    else if byte = 8 then [98]
    else if byte = 9 then [116]
    else if byte = 10 then [110]
    else if byte = 12 then [102]
    else if byte = 13 then [114]
    else [117, 48, 48, hexDigit (byte / 16), hexDigit (byte % 16)]

def quote (text : String) : List UInt8 :=
  34 :: ((utf8 text).flatMap escape ++ [34])

theorem cases_specials {byte : UInt8} (hbyte : byte ∈ specials) :
    (byte = 34 ∨ byte = 92) ∨ byte.toNat < 32 := by
  rcases List.mem_cons.mp hbyte with rfl | hbyte
  · exact .inl (.inl rfl)
  rcases List.mem_cons.mp hbyte with rfl | hbyte
  · exact .inl (.inr rfl)
  obtain ⟨n, hn, rfl⟩ := List.mem_map.mp hbyte
  have hlt := List.mem_range.mp hn
  rw [UInt8.toNat_ofNat']
  omega

/-- The byte that a letter behind a backslash stands for. -/
def letterByte (letter : UInt8) : UInt8 :=
  if letter = 98 then 8
  else if letter = 116 then 9
  else if letter = 110 then 10
  else if letter = 102 then 12
  else if letter = 114 then 13
  else letter

theorem exists_nibbles (byte : UInt8) : ∃ high < 16, ∃ low < 16,
    byte / 16 = UInt8.ofNat high ∧ byte % 16 = UInt8.ofNat low ∧
      byte.toNat = high * 16 + low := by
  have hbyte := byte.toNat_lt
  have hsixteen : (16 : UInt8).toNat = 16 := rfl
  refine ⟨byte.toNat / 16, by omega, byte.toNat % 16, by omega, ?_, ?_, by omega⟩
  · rw [← UInt8.toNat_inj, UInt8.toNat_div, hsixteen, UInt8.toNat_ofNat']
    omega
  · rw [← UInt8.toNat_inj, UInt8.toNat_mod, hsixteen, UInt8.toNat_ofNat']
    omega

theorem hexDigit_spec : ∀ n < 16, 48 ≤ (hexDigit (UInt8.ofNat n)).toNat ∧
    ∀ m < 16, hexDigit (UInt8.ofNat n) = hexDigit (UInt8.ofNat m) → n = m := by
  decide +kernel

/-- A byte that is escaped has a letter of its own, or digits. -/
theorem escape_cases {byte : UInt8} (hbyte : byte ∈ specials) :
    (∃ letter, escape byte = [92, letter] ∧ letter ≠ 117 ∧
        32 ≤ letter.toNat ∧ letterByte letter = byte) ∨
      escape byte =
        [92, 117, 48, 48, hexDigit (byte / 16), hexDigit (byte % 16)] := by
  rw [escape, if_neg (not_not_intro hbyte)]
  split
  next h =>
    rcases h with rfl | rfl
    · exact .inl ⟨34, rfl, by decide, by decide, rfl⟩
    · exact .inl ⟨92, rfl, by decide, by decide, rfl⟩
  split
  next h => exact .inl ⟨98, rfl, by decide, by decide, h.symm⟩
  split
  next h => exact .inl ⟨116, rfl, by decide, by decide, h.symm⟩
  split
  next h => exact .inl ⟨110, rfl, by decide, by decide, h.symm⟩
  split
  next h => exact .inl ⟨102, rfl, by decide, by decide, h.symm⟩
  split
  next h => exact .inl ⟨114, rfl, by decide, by decide, h.symm⟩
  next => exact .inr rfl

theorem eq_of_hexDigits {left right : UInt8}
    (hhigh : hexDigit (left / 16) = hexDigit (right / 16))
    (hlow : hexDigit (left % 16) = hexDigit (right % 16)) : left = right := by
  obtain ⟨a, ha, b, hb, hdiv, hmod, hleft⟩ := exists_nibbles left
  obtain ⟨c, hc, d, hd, hdiv', hmod', hright⟩ := exists_nibbles right
  rw [hdiv, hdiv'] at hhigh
  rw [hmod, hmod'] at hlow
  rw [← UInt8.toNat_inj, hleft, hright, (hexDigit_spec a ha).2 c hc hhigh,
    (hexDigit_spec b hb).2 d hd hlow]

theorem escape_ne_of_specials : ∀ left ∈ specials, ∀ right ∈ specials,
    left ≠ right → ¬ escape left <+: escape right := by
  rintro left hleft right hright hne ⟨rest, hrest⟩
  rcases escape_cases hleft with ⟨letter, hcode, hunicode, -, hbyte⟩ | hcode
  · rcases escape_cases hright with ⟨other, hcode', -, -, hbyte'⟩ | hcode'
    · rw [hcode, hcode'] at hrest
      cases hrest
      exact hne (hbyte.symm.trans hbyte')
    · rw [hcode, hcode'] at hrest
      cases hrest
      exact hunicode rfl
  · rcases escape_cases hright with ⟨other, hcode', hunicode, -, -⟩ | hcode'
    · rw [hcode, hcode'] at hrest
      cases hrest
    · rw [hcode, hcode'] at hrest
      injection hrest with _ hrest
      injection hrest with _ hrest
      injection hrest with _ hrest
      injection hrest with _ hrest
      injection hrest with hhigh hrest
      injection hrest with hlow _
      exact hne (eq_of_hexDigits hhigh hlow)

theorem escape_delimited : Delimited escape := by
  intro left right rest others hsame
  have hleft : left ∉ specials → escape left = [left] := fun h => if_pos h
  have hright : right ∉ specials → escape right = [right] := fun h => if_pos h
  have hspecial : ∀ byte ∈ specials, ∃ code, escape byte = 92 :: code :=
    fun byte h => ⟨_, if_neg (not_not_intro h)⟩
  have hbackslash : (92 : UInt8) ∈ specials := by decide
  have heq : left = right := by
    by_cases hl : left ∈ specials <;> by_cases hr : right ∈ specials
    · by_contra hne
      rcases List.prefix_or_prefix_of_prefix
        (List.prefix_append (escape left) rest)
        (hsame ▸ List.prefix_append (escape right) others) with h | h
      · exact escape_ne_of_specials left hl right hr hne h
      · exact escape_ne_of_specials right hr left hl (Ne.symm hne) h
    · obtain ⟨code, hcode⟩ := hspecial left hl
      rw [hcode, hright hr] at hsame
      cases hsame
      exact absurd hbackslash hr
    · obtain ⟨code, hcode⟩ := hspecial right hr
      rw [hcode, hleft hl] at hsame
      cases hsame
      exact absurd hbackslash hl
    · rw [hleft hl, hright hr] at hsame
      exact (List.cons.inj hsame).1
  rw [heq] at hsame
  exact ⟨heq, List.append_cancel_left hsame⟩

theorem head_escape (byte : UInt8) : ∃ first rest,
    escape byte = first :: rest ∧ first ≠ 34 := by
  by_cases hspecial : byte ∈ specials
  · exact ⟨92, _, if_neg (not_not_intro hspecial), by decide⟩
  · refine ⟨byte, [], if_pos hspecial, ?_⟩
    rintro rfl
    exact hspecial (by decide)

theorem escaped_delimited {left right rest others : List UInt8}
    (hsame : left.flatMap escape ++ 34 :: rest =
      right.flatMap escape ++ 34 :: others) :
    left = right ∧ rest = others := by
  induction left generalizing right with
  | nil =>
      cases right with
      | nil => exact ⟨rfl, (List.cons.inj hsame).2⟩
      | cons byte right =>
          obtain ⟨first, code, hcode, hne⟩ := head_escape byte
          rw [List.flatMap_cons, hcode] at hsame
          exact absurd (List.cons.inj hsame).1.symm hne
  | cons byte left ih =>
      cases right with
      | nil =>
          obtain ⟨first, code, hcode, hne⟩ := head_escape byte
          rw [List.flatMap_cons, hcode] at hsame
          exact absurd (List.cons.inj hsame).1 hne
      | cons other right =>
          rw [List.flatMap_cons, List.flatMap_cons, List.append_assoc,
            List.append_assoc] at hsame
          obtain ⟨rfl, htails⟩ := escape_delimited _ _ _ _ hsame
          obtain ⟨rfl, hrest⟩ := ih htails
          exact ⟨rfl, hrest⟩

theorem quote_delimited : Delimited quote := by
  intro left right rest others hsame
  rw [quote, quote, List.cons_append, List.cons_append, List.append_assoc,
    List.append_assoc] at hsame
  obtain ⟨htexts, hrest⟩ := escaped_delimited (List.cons.inj hsame).2
  refine ⟨?_, hrest⟩
  rw [← fromUtf8Lossy_utf8 left, htexts, fromUtf8Lossy_utf8]

/-- The decimal digits of a number. -/
def digits (n : Nat) : List UInt8 :=
  (Nat.toDigits 10 n).map fun c => UInt8.ofNat c.toNat

/-- A number, which a comma ends. -/
def number (n : Nat) : List UInt8 :=
  digits n ++ [44]

theorem digit_bounds {n : Nat} {c : Char} (hc : c ∈ Nat.toDigits 10 n) :
    48 ≤ c.toNat ∧ c.toNat ≤ 57 := by
  have hdigit := Nat.isDigit_of_mem_toDigits (by decide) (by decide) hc
  rw [Char.isDigit, Bool.and_eq_true, decide_eq_true_eq, decide_eq_true_eq]
    at hdigit
  exact hdigit

theorem digits_bounds {n : Nat} {byte : UInt8} (hbyte : byte ∈ digits n) :
    48 ≤ byte.toNat ∧ byte.toNat ≤ 57 := by
  obtain ⟨c, hc, rfl⟩ := List.mem_map.mp hbyte
  obtain ⟨hlow, hhigh⟩ := digit_bounds hc
  rw [UInt8.toNat_ofNat_of_lt' (hhigh.trans_lt (by decide))]
  exact ⟨hlow, hhigh⟩

theorem comma_notMem_digits (n : Nat) : 44 ∉ digits n :=
  fun hmem => absurd (digits_bounds hmem).1 (by decide)

theorem toDigits_of_digits (n : Nat) :
    (digits n).map (fun byte => Char.ofNat byte.toNat) = Nat.toDigits 10 n := by
  rw [digits, List.map_map]
  refine (List.map_congr_left fun c hc => ?_).trans (List.map_id _)
  obtain ⟨-, hhigh⟩ := digit_bounds hc
  rw [Function.comp_apply,
    UInt8.toNat_ofNat_of_lt' (hhigh.trans_lt (by decide))]
  exact Char.ofNat_toNat c

theorem digits_injective : Function.Injective digits := by
  intro left right hsame
  apply Nat.repr_inj.mp
  rw [Nat.repr, Nat.repr, ← toDigits_of_digits, hsame, toDigits_of_digits]

/-- What does not hold the byte behind it ends there. -/
theorem append_cons_inj {left right rest others : List UInt8} {stop : UInt8}
    (hleft : stop ∉ left) (hright : stop ∉ right)
    (hsame : left ++ stop :: rest = right ++ stop :: others) :
    left = right ∧ rest = others := by
  rcases List.append_eq_append_iff.mp hsame with
    ⟨more, rfl, hmore⟩ | ⟨more, rfl, hmore⟩
  · cases more with
    | nil => exact ⟨(List.append_nil left).symm, (List.cons.inj hmore).2⟩
    | cons byte more =>
        cases hmore
        exact absurd (List.mem_append_right _ List.mem_cons_self) hright
  · cases more with
    | nil => exact ⟨List.append_nil right, (List.cons.inj hmore).2.symm⟩
    | cons byte more =>
        cases hmore
        exact absurd (List.mem_append_right _ List.mem_cons_self) hleft

theorem number_delimited : Delimited number := by
  intro left right rest others hsame
  rw [number, number, List.append_assoc, List.append_assoc,
    List.singleton_append, List.singleton_append] at hsame
  obtain ⟨hdigits, hrest⟩ := append_cons_inj (comma_notMem_digits left)
    (comma_notMem_digits right) hsame
  exact ⟨digits_injective hdigits, hrest⟩

/-- A fixed text before what ends by itself. -/
theorem Delimited.behind {α : Type u} {encode : α → List UInt8}
    (hencode : Delimited encode) (before : List UInt8) :
    Delimited fun value => before ++ encode value := by
  intro left right rest others hsame
  rw [List.append_assoc, List.append_assoc] at hsame
  exact hencode left right rest others (List.append_cancel_left hsame)

theorem Delimited.before {α : Type u} {encode : α → List UInt8}
    (hencode : Delimited encode) (behind : List UInt8) :
    Delimited fun value => encode value ++ behind := by
  intro left right rest others hsame
  rw [List.append_assoc, List.append_assoc] at hsame
  obtain ⟨heq, hrest⟩ := hencode left right _ _ hsame
  exact ⟨heq, List.append_cancel_left hrest⟩

theorem Delimited.pair {α : Type u} {β : Type v} {first : α → List UInt8}
    {second : β → List UInt8} (hfirst : Delimited first)
    (hsecond : Delimited second) :
    Delimited fun value : α × β => first value.1 ++ second value.2 := by
  intro left right rest others hsame
  rw [List.append_assoc, List.append_assoc] at hsame
  obtain ⟨hone, hsame⟩ := hfirst _ _ _ _ hsame
  obtain ⟨htwo, hrest⟩ := hsecond _ _ _ _ hsame
  exact ⟨Prod.ext hone htwo, hrest⟩

theorem Delimited.comap {α : Type u} {β : Type v} {encode : β → List UInt8}
    (hencode : Delimited encode) {fields : α → β}
    (hfields : Function.Injective fields) :
    Delimited fun value => encode (fields value) := by
  intro left right rest others hsame
  obtain ⟨heq, hrest⟩ := hencode _ _ _ _ hsame
  exact ⟨hfields heq, hrest⟩

section Decode

variable {α : Type u} {encode : α → List UInt8}

open Classical in
/-- What was encoded, if anything was. -/
noncomputable def decode (encode : α → List UInt8) (bytes : List UInt8) :
    Option α :=
  if h : ∃ value, encode value = bytes then some h.choose else none

theorem decode_encode (hencode : Delimited encode) (value : α) :
    decode encode (encode value) = some value := by
  have hsome : ∃ other, encode other = encode value := ⟨value, rfl⟩
  rw [decode, dif_pos hsome]
  have hsame : encode hsome.choose ++ [] = encode value ++ [] :=
    congrArg (· ++ []) hsome.choose_spec
  rw [(hencode _ _ _ _ hsame).1]

/-- A part of what ends by itself is nothing that was encoded. -/
theorem decode_torn (hencode : Delimited encode) {value : α}
    {part : List UInt8} (hbefore : part <+: encode value)
    (htorn : part ≠ encode value) : decode encode part = none := by
  refine dif_neg fun ⟨other, hother⟩ => htorn ?_
  obtain ⟨rest, hrest⟩ := hbefore
  rw [← hother, ← List.append_nil (encode value)] at hrest
  obtain ⟨rfl, -⟩ := hencode _ _ _ _ hrest
  exact hother.symm

end Decode

end JsonText
