/-
Which bytes are a text in UTF-8, and the parts of such bytes that are texts in
turn.
-/
import XBackup.Foundation.Bytes

namespace Bytes

theorem utf8_append (left right : String) :
    utf8 (left ++ right) = utf8 left ++ utf8 right := by
  rw [utf8, String.toList_append, List.flatMap_append]
  rfl

theorem utf8_ofList_cons (c : Char) (chars : List Char) :
    utf8 (String.ofList (c :: chars)) =
      String.utf8EncodeChar c ++ utf8 (String.ofList chars) := by
  rw [utf8, String.toList_ofList, List.flatMap_cons, utf8, String.toList_ofList]

/-- What one character is encoded as is no part of another. -/
theorem encodeChar_inj {c d : Char} {left right : List UInt8}
    (hsame : String.utf8EncodeChar c ++ left =
      String.utf8EncodeChar d ++ right) : c = d ∧ left = right := by
  have hdecode : ∀ (c : Char) (rest : List UInt8),
      (String.utf8EncodeChar c ++ rest).toByteArray.utf8DecodeChar? 0 =
        some c := by
    intro c rest
    rw [List.toByteArray_append]
    exact ByteArray.utf8DecodeChar?_utf8EncodeChar_append
  have hchar := hdecode c left
  rw [hsame, hdecode] at hchar
  cases hchar
  exact ⟨rfl, List.append_cancel_left hsame⟩

/-- A text whose bytes stand before others begins the whole text. -/
theorem exists_append_of_utf8 {left right : String} {rest : List UInt8}
    (hsame : utf8 left ++ rest = utf8 right) :
    ∃ more, right.toList = left.toList ++ more := by
  suffices hchars : ∀ chars others : List Char,
      chars.flatMap String.utf8EncodeChar ++ rest =
        others.flatMap String.utf8EncodeChar →
      ∃ more, others = chars ++ more from hchars _ _ hsame
  intro chars
  induction chars with
  | nil => exact fun others _ => ⟨others, rfl⟩
  | cons c chars ih =>
      intro others hsame
      cases others with
      | nil =>
          obtain ⟨head, tail, hcons⟩ := List.exists_cons_of_ne_nil
            (@String.utf8EncodeChar_ne_nil c)
          rw [List.flatMap_cons, hcons] at hsame
          cases hsame
      | cons d others =>
          rw [List.flatMap_cons, List.flatMap_cons, List.append_assoc] at hsame
          obtain ⟨rfl, hrest⟩ := encodeChar_inj hsame
          obtain ⟨more, rfl⟩ := ih others hrest
          exact ⟨more, rfl⟩

theorem utf8_injective : Function.Injective utf8 := by
  intro left right hsame
  rw [← fromUtf8Lossy_utf8 left, hsame, fromUtf8Lossy_utf8]

/-- `str::from_utf8`. -/
def fromUtf8 (bytes : List UInt8) : Option String :=
  if utf8 (fromUtf8Lossy bytes) = bytes then some (fromUtf8Lossy bytes)
  else none

theorem fromUtf8_eq_some_iff {bytes : List UInt8} {text : String} :
    fromUtf8 bytes = some text ↔ utf8 text = bytes := by
  rw [fromUtf8]
  constructor
  · intro hread
    split at hread
    next hvalid =>
      cases hread
      exact hvalid
    next => cases hread
  · rintro rfl
    rw [fromUtf8Lossy_utf8, if_pos rfl]

/-- The bytes are those of a text. -/
def IsText (bytes : List UInt8) : Prop :=
  ∃ text, utf8 text = bytes

theorem isText_utf8 (text : String) : IsText (utf8 text) :=
  ⟨text, rfl⟩

theorem IsText.append {left right : List UInt8} (hleft : IsText left)
    (hright : IsText right) : IsText (left ++ right) := by
  obtain ⟨front, rfl⟩ := hleft
  obtain ⟨back, rfl⟩ := hright
  exact ⟨front ++ back, utf8_append front back⟩

theorem IsText.flatMap {α : Type*} {encode : α → List UInt8}
    (hencode : ∀ value, IsText (encode value)) (values : List α) :
    IsText (values.flatMap encode) := by
  induction values with
  | nil => exact ⟨"", rfl⟩
  | cons value values ih => exact (hencode value).append ih

theorem encodeChar_ascii : ∀ n < 128,
    String.utf8EncodeChar (Char.ofNat n) = [UInt8.ofNat n] := by
  decide +kernel

theorem isText_singleton {byte : UInt8} (hbyte : byte.toNat < 128) :
    IsText [byte] := by
  refine ⟨String.ofList [Char.ofNat byte.toNat], ?_⟩
  rw [utf8_ofList_cons, encodeChar_ascii _ hbyte, UInt8.ofNat_toNat]
  rfl

theorem isText_ascii {bytes : List UInt8}
    (hbytes : ∀ byte ∈ bytes, byte.toNat < 128) : IsText bytes := by
  induction bytes with
  | nil => exact ⟨"", rfl⟩
  | cons byte bytes ih =>
      obtain ⟨hbyte, hrest⟩ := List.forall_mem_cons.mp hbytes
      exact (isText_singleton hbyte).append (ih hrest)

section Encoded

def encodeChars (chars : List Char) : List UInt8 :=
  chars.flatMap String.utf8EncodeChar

theorem encodeChars_cons (c : Char) (chars : List Char) :
    encodeChars (c :: chars) = String.utf8EncodeChar c ++ encodeChars chars :=
  List.flatMap_cons

theorem encodeChars_append (left right : List Char) :
    encodeChars (left ++ right) = encodeChars left ++ encodeChars right :=
  List.flatMap_append

theorem utf8_ofList (chars : List Char) :
    utf8 (String.ofList chars) = encodeChars chars := by
  rw [utf8, String.toList_ofList]
  rfl

theorem toNat_ofNat_of_lt {n : Nat} (hn : n < 256) : (UInt8.ofNat n).toNat = n :=
  UInt8.toNat_ofNat'.trans (Nat.mod_eq_of_lt hn)

theorem toNat_char_lt (c : Char) : c.toNat < 1114112 := by
  rcases c.valid with hlow | hhigh
  · change c.toNat < _ at hlow
    omega
  · have hlast := hhigh.2
    change c.toNat < _ at hlast
    omega

/-- A byte that begins a character of so many more bytes. -/
def Leads (byte : UInt8) (more : Nat) : Prop :=
  (byte.toNat / 32 = 6 ∧ more = 1) ∨ (byte.toNat / 16 = 14 ∧ more = 2) ∨
    (byte.toNat / 8 = 30 ∧ more = 3)

/-- A byte inside of a character. -/
def Follows (byte : UInt8) : Prop :=
  byte.toNat / 64 = 2

/-- A character is a byte of its own, or a byte that tells how many follow. -/
theorem encodeChar_cases (c : Char) :
    (c.toNat < 128 ∧ String.utf8EncodeChar c = [UInt8.ofNat c.toNat]) ∨
    (128 ≤ c.toNat ∧ ∃ byte tail, String.utf8EncodeChar c = byte :: tail ∧
      Leads byte tail.length ∧ ∀ other ∈ tail, Follows other) := by
  have hval : c.val.toNat = c.toNat := rfl
  have hlt := toNat_char_lt c
  have hfollows : ∀ n, Follows (UInt8.ofNat (n % 64 + 128)) := by
    intro n
    rw [Follows, toNat_ofNat_of_lt (by omega)]
    omega
  have hleads : ∀ {n} more, n < 256 → (n / 32 = 6 ∧ more = 1) ∨
      (n / 16 = 14 ∧ more = 2) ∨ (n / 8 = 30 ∧ more = 3) →
      Leads (UInt8.ofNat n) more := by
    intro n more hn hcases
    rwa [Leads, toNat_ofNat_of_lt hn]
  rw [String.utf8EncodeChar]
  simp only [hval]
  split
  next hone => exact .inl ⟨by omega, rfl⟩
  next hone =>
    refine .inr ⟨by omega, ?_⟩
    split
    next =>
      refine ⟨_, _, rfl, hleads 1 (by omega) (by omega), ?_⟩
      exact List.forall_mem_singleton.mpr (hfollows _)
    next =>
      split
      next =>
        refine ⟨_, _, rfl, hleads 2 (by omega) (by omega), ?_⟩
        exact List.forall_mem_cons.mpr
          ⟨hfollows _, List.forall_mem_singleton.mpr (hfollows _)⟩
      next =>
        refine ⟨_, _, rfl, hleads 3 (by omega) (by omega), ?_⟩
        exact List.forall_mem_cons.mpr ⟨hfollows _, List.forall_mem_cons.mpr
          ⟨hfollows _, List.forall_mem_singleton.mpr (hfollows _)⟩⟩

/-- A byte of a character that is not a byte of its own is none of ASCII. -/
theorem high_of_encodeChar {c : Char} (hc : 128 ≤ c.toNat) :
    ∀ byte ∈ String.utf8EncodeChar c, 128 ≤ byte.toNat := by
  rcases encodeChar_cases c with ⟨hlow, _⟩ | ⟨_, byte, tail, heq, hleads, htail⟩
  · omega
  · rw [heq]
    refine List.forall_mem_cons.mpr ⟨?_, fun other hother => ?_⟩
    · rcases hleads with h | h | h <;> omega
    · have hfollows := htail other hother
      rw [Follows] at hfollows
      omega

end Encoded

end Bytes
