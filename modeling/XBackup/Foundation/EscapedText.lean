/-
Escaping the bytes of a text one by one, where only ASCII is escaped: it escapes
the characters, also where bytes are no text and are read with replacement
characters.
-/
import XBackup.Foundation.Utf8

namespace EscapedText

open Bytes

section Lossy

/-- The characters that bytes are read as. -/
def lossy (bytes : List UInt8) : List Char :=
  lossyChars bytes.length bytes

theorem toList_fromUtf8Lossy (bytes : List UInt8) :
    (fromUtf8Lossy bytes).toList = lossy bytes :=
  String.toList_ofList

theorem exists_of_decode {bytes : List UInt8} {c : Char}
    (hdecode : bytes.toByteArray.utf8DecodeChar? 0 = some c) :
    ∃ rest, bytes = String.utf8EncodeChar c ++ rest := by
  obtain ⟨rest, hrest⟩ := ByteArray.exists_of_utf8DecodeChar?_eq_some hdecode
  refine ⟨rest.data.toList, ?_⟩
  have hdata := congrArg (fun array => array.data.toList) hrest
  simpa using hdata

theorem decode_encodeChar (c : Char) (rest : List UInt8) :
    (String.utf8EncodeChar c ++ rest).toByteArray.utf8DecodeChar? 0 =
      some c := by
  rw [List.toByteArray_append]
  exact ByteArray.utf8DecodeChar?_utf8EncodeChar_append

theorem invalidLength_pos (bytes : List UInt8) : 0 < invalidLength bytes := by
  rw [invalidLength.eq_def]
  split
  next => split <;> [decide; split <;> decide]
  next => split <;> decide
  next => decide

theorem lossyChars_cons (fuel : Nat) (byte : UInt8) (bytes : List UInt8) :
    lossyChars (fuel + 1) (byte :: bytes) =
      match (byte :: bytes).toByteArray.utf8DecodeChar? 0 with
      | some c => c :: lossyChars fuel ((byte :: bytes).drop c.utf8Size)
      | none => Char.ofNat 0xFFFD ::
          lossyChars fuel ((byte :: bytes).drop (invalidLength
            (byte :: bytes))) := by
  exact lossyChars.eq_3 _ _ (List.cons_ne_nil byte bytes)

/-- Fuel for every byte is enough. -/
theorem lossyChars_fuel {bytes : List UInt8} {fuel other : Nat}
    (hfuel : bytes.length ≤ fuel) (hother : bytes.length ≤ other) :
    lossyChars fuel bytes = lossyChars other bytes := by
  induction fuel generalizing bytes other with
  | zero =>
      obtain rfl := List.length_eq_zero_iff.mp (Nat.le_zero.mp hfuel)
      cases other <;> rfl
  | succ fuel ih =>
      cases bytes with
      | nil => cases other <;> rfl
      | cons byte bytes =>
          obtain ⟨other, rfl⟩ := Nat.exists_eq_succ_of_ne_zero
            (Nat.ne_of_gt (Nat.lt_of_lt_of_le (Nat.succ_pos _) hother))
          have hshorter : ∀ n, 0 < n →
              lossyChars fuel ((byte :: bytes).drop n) =
                lossyChars other ((byte :: bytes).drop n) := by
            intro n hn
            refine ih ?_ ?_
            · rw [List.length_drop]
              omega
            · rw [List.length_drop]
              omega
          rw [lossyChars_cons, lossyChars_cons]
          split
          next c _ => rw [hshorter _ c.utf8Size_pos]
          next => rw [hshorter _ (invalidLength_pos _)]

theorem lossy_cons (byte : UInt8) (bytes : List UInt8) :
    lossy (byte :: bytes) =
      match (byte :: bytes).toByteArray.utf8DecodeChar? 0 with
      | some c => c :: lossy ((byte :: bytes).drop c.utf8Size)
      | none => Char.ofNat 0xFFFD ::
          lossy ((byte :: bytes).drop (invalidLength (byte :: bytes))) := by
  have hshorter : ∀ n, 0 < n →
      lossyChars bytes.length ((byte :: bytes).drop n) =
        lossy ((byte :: bytes).drop n) := by
    intro n hn
    refine lossyChars_fuel ?_ (Nat.le_refl _)
    rw [List.length_drop, List.length_cons]
    omega
  rw [lossy, List.length_cons, lossyChars_cons]
  split
  next c _ => rw [hshorter _ c.utf8Size_pos]
  next => rw [hshorter _ (invalidLength_pos _)]

theorem lossy_char (c : Char) (rest : List UInt8) :
    lossy (String.utf8EncodeChar c ++ rest) = c :: lossy rest := by
  obtain ⟨head, tail, hcons⟩ := List.exists_cons_of_ne_nil
    (@String.utf8EncodeChar_ne_nil c)
  have hdecode := decode_encodeChar c rest
  have hdrop : (String.utf8EncodeChar c ++ rest).drop c.utf8Size = rest :=
    List.drop_left' (String.length_utf8EncodeChar c)
  rw [hcons, List.cons_append] at hdecode hdrop ⊢
  rw [lossy_cons, hdecode]
  simp only [hdrop]

theorem lossy_invalid {bytes : List UInt8} (hne : bytes ≠ [])
    (hdecode : bytes.toByteArray.utf8DecodeChar? 0 = none) :
    lossy bytes =
      Char.ofNat 0xFFFD :: lossy (bytes.drop (invalidLength bytes)) := by
  obtain ⟨byte, rest, rfl⟩ := List.exists_cons_of_ne_nil hne
  rw [lossy_cons, hdecode]

end Lossy

section Invalid

/-- A byte of no ASCII character. -/
def IsHigh (byte : UInt8) : Prop := 128 ≤ byte.toNat

instance (byte : UInt8) : Decidable (IsHigh byte) :=
  inferInstanceAs (Decidable (128 ≤ byte.toNat))

theorem isHigh_of_continues {first second : UInt8}
    (hcontinues : continues first second = true) : IsHigh second := by
  have hlow : (0x80 : UInt8) ≤ second := by
    rw [continues, decide_eq_true_eq] at hcontinues
    simp only [UInt8.le_iff_toNat_le] at hcontinues ⊢
    have hA0 : (0xA0 : UInt8).toNat = 160 := rfl
    have h90 : (0x90 : UInt8).toNat = 144 := rfl
    have h80 : (0x80 : UInt8).toNat = 128 := rfl
    omega
  exact UInt8.le_iff_toNat_le.mp hlow

/-- A replacement character for bytes stands for none of ASCII. -/
theorem take_invalidLength {byte : UInt8} {bytes : List UInt8}
    (hbyte : IsHigh byte) :
    ∀ other ∈ (byte :: bytes).take (invalidLength (byte :: bytes)),
      IsHigh other := by
  have hone : ∀ other ∈ (byte :: bytes).take 1, IsHigh other :=
    List.forall_mem_singleton.mpr hbyte
  match bytes with
  | [] => exact hone
  | [second] =>
      rw [invalidLength]
      split
      next hsecond =>
        exact List.forall_mem_cons.mpr ⟨hbyte, List.forall_mem_singleton.mpr
          (isHigh_of_continues hsecond)⟩
      next => exact hone
  | second :: third :: rest =>
      rw [invalidLength]
      split
      next => exact hone
      next hsecond =>
        rw [Bool.not_eq_true', Bool.not_eq_false] at hsecond
        have htwo := isHigh_of_continues hsecond
        split
        next hthird =>
          exact List.forall_mem_cons.mpr ⟨hbyte, List.forall_mem_cons.mpr
            ⟨htwo, List.forall_mem_singleton.mpr
              (UInt8.le_iff_toNat_le.mp hthird.1)⟩⟩
        next =>
          exact List.forall_mem_cons.mpr
            ⟨hbyte, List.forall_mem_singleton.mpr htwo⟩

theorem not_continues {first second : UInt8} (hsecond : ¬ IsHigh second) :
    continues first second = false :=
  Bool.eq_false_iff.mpr fun hcontinues =>
    hsecond (isHigh_of_continues hcontinues)

/-- A byte of ASCII ends what a replacement character stands for. -/
theorem invalidLength_ascii {byte low : UInt8} {high rest : List UInt8}
    (hlow : ¬ IsHigh low) :
    invalidLength (byte :: (high ++ low :: rest)) =
      invalidLength (byte :: high) := by
  match high with
  | [] =>
      cases rest with
      | nil => simp only [List.nil_append, invalidLength, not_continues hlow,
          Bool.false_eq_true, if_false]
      | cons third rest => simp only [List.nil_append, invalidLength,
          not_continues hlow, Bool.not_false, if_true]
  | [second] =>
      have hthird : ¬ (0x80 ≤ low ∧ low ≤ 0xBF) := fun hrange =>
        hlow (UInt8.le_iff_toNat_le.mp hrange.1)
      simp only [List.cons_append, List.nil_append, invalidLength,
        if_neg hthird]
      cases continues byte second <;> rfl
  | second :: third :: high => rfl

end Invalid

/-- A character that begins with no ASCII is none. -/
theorem le_of_encodeChar {c : Char} {b : UInt8} {bytes rest : List UInt8}
    (hb : IsHigh b) (hbytes : b :: bytes = String.utf8EncodeChar c ++ rest) :
    128 ≤ c.toNat := by
  rcases encodeChar_cases c with ⟨hlow, hone⟩ | ⟨hhigh, -⟩
  · rw [hone, List.singleton_append] at hbytes
    cases hbytes
    rw [IsHigh, toNat_ofNat_of_lt (by omega)] at hb
    exact hb
  · exact hhigh

/-- How bytes are escaped, and the same for characters: ASCII by ASCII, and all
else not at all. -/
structure Scheme where
  byte : UInt8 → List UInt8
  char : Char → List Char
  high : ∀ b, IsHigh b → byte b = [b]
  plain : ∀ c : Char, 128 ≤ c.toNat → char c = [c]
  low : ∀ b, ¬ IsHigh b → byte b = encodeChars (char (Char.ofNat b.toNat))
  ascii : ∀ c : Char, c.toNat < 128 →
    char c ≠ [] ∧ ∀ d ∈ char c, d.toNat < 128

namespace Scheme

variable (scheme : Scheme)

theorem encodeChars_head {chars : List Char} (hne : chars ≠ [])
    (hascii : ∀ c ∈ chars, c.toNat < 128) :
    ∃ byte rest, encodeChars chars = byte :: rest ∧ ¬ IsHigh byte := by
  obtain ⟨c, chars, rfl⟩ := List.exists_cons_of_ne_nil hne
  have hc := hascii c List.mem_cons_self
  rcases encodeChar_cases c with ⟨-, hone⟩ | ⟨hhigh, -⟩
  · refine ⟨UInt8.ofNat c.toNat, encodeChars chars, ?_, ?_⟩
    · rw [encodeChars_cons, hone, List.singleton_append]
    · rw [IsHigh, toNat_ofNat_of_lt (by omega)]
      omega
  · omega

theorem toNat_ofNat {b : UInt8} (hb : ¬ IsHigh b) :
    (Char.ofNat b.toNat).toNat < 128 := by
  rw [IsHigh] at hb
  rw [Char.toNat_ofNat]
  split
  next => omega
  next => decide

/-- Bytes of no ASCII at the front are escaped by themselves. -/
theorem front {bytes : List UInt8} {n : Nat}
    (hfront : ∀ b ∈ (bytes.flatMap scheme.byte).take n, IsHigh b) :
    (bytes.flatMap scheme.byte).take n = bytes.take n ∧
      (bytes.flatMap scheme.byte).drop n =
        (bytes.drop n).flatMap scheme.byte := by
  induction n generalizing bytes with
  | zero => exact ⟨rfl, rfl⟩
  | succ n ih =>
      cases bytes with
      | nil => exact ⟨rfl, rfl⟩
      | cons b bytes =>
          by_cases hb : IsHigh b
          · rw [List.flatMap_cons, scheme.high b hb, List.singleton_append]
              at hfront ⊢
            rw [List.take_succ_cons] at hfront
            obtain ⟨htake, hdrop⟩ := ih (List.forall_mem_cons.mp hfront).2
            rw [List.take_succ_cons, List.take_succ_cons, htake]
            exact ⟨rfl, hdrop⟩
          · obtain ⟨hne, hascii⟩ := scheme.ascii _ (toNat_ofNat hb)
            obtain ⟨first, rest, hfirst, hlow⟩ := encodeChars_head hne hascii
            rw [List.flatMap_cons, scheme.low b hb, hfirst, List.cons_append,
              List.take_succ_cons] at hfront
            exact absurd (hfront first List.mem_cons_self) hlow

theorem flatMap_high {bytes : List UInt8} (hbytes : ∀ b ∈ bytes, IsHigh b) :
    bytes.flatMap scheme.byte = bytes := by
  have hself : bytes.flatMap scheme.byte = bytes.flatMap fun b => [b] :=
    List.flatMap_congr fun b hb => scheme.high b (hbytes b hb)
  rw [hself, List.flatMap_singleton']

/-- Bytes that begin no character begin none when they are escaped. -/
theorem decode_flatMap {b : UInt8} {bytes : List UInt8} (hb : IsHigh b)
    (hdecode : (b :: bytes).toByteArray.utf8DecodeChar? 0 = none) :
    ((b :: bytes).flatMap scheme.byte).toByteArray.utf8DecodeChar? 0 =
      none := by
  cases hescaped : ((b :: bytes).flatMap
    scheme.byte).toByteArray.utf8DecodeChar? 0 with
  | none => rfl
  | some c =>
      obtain ⟨rest, hrest⟩ := exists_of_decode hescaped
      have hwhole : (b :: bytes).flatMap scheme.byte =
          b :: bytes.flatMap scheme.byte := by
        rw [List.flatMap_cons, scheme.high b hb, List.singleton_append]
      have hc := le_of_encodeChar hb (hwhole ▸ hrest)
      have htake : ((b :: bytes).flatMap scheme.byte).take c.utf8Size =
          String.utf8EncodeChar c := by
        rw [hrest, List.take_left' (String.length_utf8EncodeChar c)]
      have hsame := (@front scheme (b :: bytes) c.utf8Size (by
        rw [htake]
        exact high_of_encodeChar hc)).1
      rw [← List.take_append_drop c.utf8Size (b :: bytes), ← hsame, htake,
        decode_encodeChar] at hdecode
      cases hdecode

/-- A replacement character stands for as many bytes when they are escaped. -/
theorem invalidLength_flatMap {b : UInt8} {bytes : List UInt8} :
    invalidLength (b :: bytes.flatMap scheme.byte) =
      invalidLength (b :: bytes) := by
  have hsplit : ∃ high rest, bytes = high ++ rest ∧ (∀ b ∈ high, IsHigh b) ∧
      ∀ b ∈ rest.head?, ¬ IsHigh b := by
    refine ⟨bytes.takeWhile fun b => IsHigh b,
      bytes.dropWhile fun b => IsHigh b,
      List.takeWhile_append_dropWhile.symm, fun b hb => ?_, fun b hb => ?_⟩
    · have htaken := List.mem_takeWhile_imp hb
      exact of_decide_eq_true htaken
    · have hstop := List.head?_dropWhile_not
        (fun b : UInt8 => decide (IsHigh b)) bytes
      rw [hb] at hstop
      exact of_decide_eq_false hstop
  obtain ⟨high, rest, rfl, hhigh, hrest⟩ := hsplit
  rw [List.flatMap_append, scheme.flatMap_high hhigh]
  cases rest with
  | nil => rw [List.flatMap_nil]
  | cons low rest =>
      have hlow := hrest low rfl
      obtain ⟨hne, hascii⟩ := scheme.ascii _ (toNat_ofNat hlow)
      obtain ⟨first, more, hfirst, hfirstLow⟩ := encodeChars_head hne hascii
      rw [List.flatMap_cons, scheme.low low hlow, hfirst, List.cons_append,
        invalidLength_ascii hfirstLow, invalidLength_ascii hlow]

theorem lossy_encodeChars (chars : List Char) (rest : List UInt8) :
    lossy (encodeChars chars ++ rest) = chars ++ lossy rest := by
  induction chars with
  | nil => rfl
  | cons c chars ih =>
      rw [encodeChars_cons, List.append_assoc, lossy_char, ih,
        List.cons_append]

/-- What is read of bytes when they are escaped is what is read of them,
escaped. -/
theorem lossy_flatMap (bytes : List UInt8) :
    lossy (bytes.flatMap scheme.byte) = (lossy bytes).flatMap scheme.char := by
  induction hlength : bytes.length using Nat.strong_induction_on
    generalizing bytes with
  | _ length ih =>
    subst hlength
    cases bytes with
    | nil => rfl
    | cons b bytes =>
        by_cases hb : IsHigh b
        · have hwhole : (b :: bytes).flatMap scheme.byte =
              b :: bytes.flatMap scheme.byte := by
            rw [List.flatMap_cons, scheme.high b hb, List.singleton_append]
          cases hdecode : (b :: bytes).toByteArray.utf8DecodeChar? 0 with
          | some c =>
              obtain ⟨rest, hrest⟩ := exists_of_decode hdecode
              have hc := le_of_encodeChar hb hrest
              have hshorter : rest.length < (b :: bytes).length := by
                have hsize := String.length_utf8EncodeChar c
                have hpos := c.utf8Size_pos
                rw [hrest, List.length_append]
                omega
              rw [hrest, List.flatMap_append,
                scheme.flatMap_high (high_of_encodeChar hc), lossy_char,
                lossy_char, List.flatMap_cons, scheme.plain c hc,
                ih _ hshorter rest rfl, List.singleton_append]
          | none =>
              have hescaped := scheme.decode_flatMap hb hdecode
              have hsame := @invalidLength_flatMap scheme b bytes
              have hfront := (@front scheme (b :: bytes)
                (invalidLength (b :: bytes)) (by
                  rw [hwhole, ← hsame]
                  exact take_invalidLength hb)).2
              have hpos := invalidLength_pos (b :: bytes)
              have hshorter : ((b :: bytes).drop
                  (invalidLength (b :: bytes))).length <
                    (b :: bytes).length := by
                rw [List.length_drop, List.length_cons]
                omega
              rw [hwhole] at hescaped hfront
              rw [hwhole, lossy_invalid (List.cons_ne_nil _ _) hescaped, hsame,
                hfront, ih _ hshorter _ rfl,
                lossy_invalid (List.cons_ne_nil _ _) hdecode, List.flatMap_cons,
                scheme.plain _ (by decide), List.singleton_append]
        · have hself : encodeChars [Char.ofNat b.toNat] = [b] := by
            rw [IsHigh] at hb
            rw [encodeChars, List.flatMap_singleton,
              encodeChar_ascii _ (by omega), UInt8.ofNat_toNat]
          have hread := lossy_encodeChars [Char.ofNat b.toNat] bytes
          rw [hself] at hread
          rw [List.flatMap_cons, scheme.low b hb, lossy_encodeChars,
            ih _ (Nat.lt_succ_self _) bytes rfl]
          rw [List.singleton_append] at hread
          rw [hread, List.singleton_append, List.flatMap_cons]

end Scheme

theorem lossy_text (chars : List Char) : lossy (encodeChars chars) = chars := by
  have hread := Scheme.lossy_encodeChars chars []
  rwa [List.append_nil, show lossy [] = [] from rfl, List.append_nil] at hread

end EscapedText
