/-
Numbers and texts as bytes: integers in network order, and UTF-8 that is read
with a replacement character for what is not valid.
-/
import Mathlib

namespace Bytes

/-- The low bytes of a number, the highest of them first. -/
def bigEndian : Nat → Nat → List UInt8
  | 0, _ => []
  | width + 1, n => bigEndian width (n / 256) ++ [UInt8.ofNat n]

def ofBigEndian (bytes : List UInt8) : Nat :=
  bytes.foldl (fun value byte => value * 256 + byte.toNat) 0

@[simp] theorem length_bigEndian (width n : Nat) :
    (bigEndian width n).length = width := by
  induction width generalizing n with
  | zero => rfl
  | succ width ih => rw [bigEndian, List.length_append, ih]; rfl

theorem ofBigEndian_bigEndian (width n : Nat) :
    ofBigEndian (bigEndian width n) = n % 256 ^ width := by
  induction width generalizing n with
  | zero => rw [Nat.pow_zero, Nat.mod_one]; rfl
  | succ width ih =>
      have hbyte : (UInt8.ofNat n).toNat = n % 256 := UInt8.toNat_ofNat'
      have hfold := ih (n / 256)
      rw [ofBigEndian] at hfold ⊢
      rw [bigEndian, List.foldl_concat, hfold, hbyte, Nat.pow_succ,
        Nat.mul_comm (256 ^ width) 256, Nat.mod_mul]
      omega

theorem bigEndian_ofBigEndian (bytes : List UInt8) :
    bigEndian bytes.length (ofBigEndian bytes) = bytes := by
  induction bytes using List.reverseRecOn with
  | nil => rfl
  | append_singleton front byte ih =>
      have hfold : ofBigEndian (front ++ [byte]) =
          ofBigEndian front * 256 + byte.toNat := by
        rw [ofBigEndian, List.foldl_concat]
        rfl
      have hlow : byte.toNat < 256 := byte.toNat_lt
      have hhigh : (ofBigEndian front * 256 + byte.toNat) / 256 =
          ofBigEndian front := by omega
      have hbyte : UInt8.ofNat (ofBigEndian front * 256 + byte.toNat) = byte := by
        apply UInt8.toNat_inj.mp
        rw [UInt8.toNat_ofNat']
        omega
      rw [List.length_append, List.length_singleton, hfold, bigEndian, hhigh,
        hbyte, ih]

/-- A number of `width` bits in two's complement. -/
def signed (width n : Nat) : Int :=
  (BitVec.ofNat width n).toInt

theorem signed_of_lt {width n : Nat} (hn : 2 * n < 2 ^ width) :
    signed width n = n := by
  have hnat : (BitVec.ofNat width n).toNat = n :=
    Nat.mod_eq_of_lt (by omega)
  rw [signed, BitVec.toInt_eq_toNat_of_lt (by rwa [hnat]), hnat]

theorem signed_inj {width left right : Nat} (hleft : left < 2 ^ width)
    (hright : right < 2 ^ width)
    (hsame : signed width left = signed width right) : left = right := by
  have hbits := congrArg BitVec.toNat (BitVec.eq_of_toInt_eq hsame)
  rwa [BitVec.toNat_ofNat, BitVec.toNat_ofNat, Nat.mod_eq_of_lt hleft,
    Nat.mod_eq_of_lt hright] at hbits

def utf8 (text : String) : List UInt8 :=
  text.toList.flatMap String.utf8EncodeChar

/-- A second byte that continues the three or four byte character `first`
begins. -/
def continues (first second : UInt8) : Bool :=
  (first = 0xE0 ∧ 0xA0 ≤ second ∧ second ≤ 0xBF) ∨
    (0xE1 ≤ first ∧ first ≤ 0xEC ∧ 0x80 ≤ second ∧ second ≤ 0xBF) ∨
    (first = 0xED ∧ 0x80 ≤ second ∧ second ≤ 0x9F) ∨
    (0xEE ≤ first ∧ first ≤ 0xEF ∧ 0x80 ≤ second ∧ second ≤ 0xBF) ∨
    (first = 0xF0 ∧ 0x90 ≤ second ∧ second ≤ 0xBF) ∨
    (0xF1 ≤ first ∧ first ≤ 0xF3 ∧ 0x80 ≤ second ∧ second ≤ 0xBF) ∨
    (first = 0xF4 ∧ 0x80 ≤ second ∧ second ≤ 0x8F)

/-- How many bytes of an invalid text one replacement character stands for: the
beginning of a character as far as it is valid. -/
def invalidLength : List UInt8 → Nat
  | first :: second :: third :: _ =>
      if !continues first second then 1
      else if 0x80 ≤ third ∧ third ≤ 0xBF then 3 else 2
  | [first, second] => if continues first second then 2 else 1
  | _ => 1

def lossyChars : Nat → List UInt8 → List Char
  | 0, _ => []
  | _, [] => []
  | fuel + 1, bytes =>
      match bytes.toByteArray.utf8DecodeChar? 0 with
      | some c => c :: lossyChars fuel (bytes.drop c.utf8Size)
      | none =>
          Char.ofNat 0xFFFD :: lossyChars fuel (bytes.drop (invalidLength bytes))

/-- `String::from_utf8_lossy`. -/
def fromUtf8Lossy (bytes : List UInt8) : String :=
  String.ofList (lossyChars bytes.length bytes)

theorem lossyChars_utf8 {chars : List Char} {fuel : Nat}
    (hfuel : chars.length ≤ fuel) :
    lossyChars fuel (chars.flatMap String.utf8EncodeChar) = chars := by
  induction chars generalizing fuel with
  | nil => cases fuel <;> rfl
  | cons c chars ih =>
      cases fuel with
      | zero => simp at hfuel
      | succ fuel =>
          obtain ⟨head, tail, hcons⟩ := List.exists_cons_of_ne_nil
            (@String.utf8EncodeChar_ne_nil c)
          have hdecode : ((c :: chars).flatMap
              String.utf8EncodeChar).toByteArray.utf8DecodeChar? 0 =
                some c := by
            rw [List.flatMap_cons, List.toByteArray_append]
            exact ByteArray.utf8DecodeChar?_utf8EncodeChar_append
          have hdrop : ((c :: chars).flatMap String.utf8EncodeChar).drop
              c.utf8Size = chars.flatMap String.utf8EncodeChar := by
            rw [List.flatMap_cons]
            exact List.drop_left' (String.length_utf8EncodeChar c)
          have hhead : (c :: chars).flatMap String.utf8EncodeChar =
              head :: (tail ++ chars.flatMap String.utf8EncodeChar) := by
            rw [List.flatMap_cons, hcons, List.cons_append]
          rw [hhead, lossyChars, ← hhead, hdecode]
          · simp only [hdrop]
            rw [ih (by simpa using hfuel)]
          · simp

theorem length_le_length_utf8 (chars : List Char) :
    chars.length ≤ (chars.flatMap String.utf8EncodeChar).length := by
  induction chars with
  | nil => exact Nat.le_refl _
  | cons c chars ih =>
      rw [List.flatMap_cons, List.length_append, List.length_cons,
        String.length_utf8EncodeChar, Nat.add_comm chars.length]
      exact Nat.add_le_add c.utf8Size_pos ih

/-- A valid text is read as it is. -/
theorem fromUtf8Lossy_utf8 (text : String) :
    fromUtf8Lossy (utf8 text) = text := by
  have hfuel := length_le_length_utf8 text.toList
  rw [fromUtf8Lossy, utf8, lossyChars_utf8 hfuel, String.ofList_toList]

end Bytes
