/-
Credentials in what a hook writes: the text is walked over in bytes, and each
part of it that is kept is a slice.
-/
import XBackup.Foundation.TokenScan
import XBackup.Foundation.Utf8

namespace XBackup

namespace Hooks

open Bytes TokenScan

def utf8Len (b : UInt8) : Nat :=
  if b < 0x80 then 1
  else if b >>> 5 = 0b110 then 2
  else if b >>> 4 = 0b1110 then 3
  else if b >>> 3 = 0b11110 then 4
  else 1

/-- `is_char_boundary`, of the bytes from there on. -/
def isCharBoundary : List UInt8 → Bool
  | [] => true
  | b :: _ => b < 0x80 || 0xC0 ≤ b

/-- A slice of a text; none where it would panic. -/
def slice (bytes : List UInt8) (start stop : Nat) : Option (List UInt8) :=
  if start ≤ stop ∧ stop ≤ bytes.length ∧
      isCharBoundary (bytes.drop start) = true ∧
      isCharBoundary (bytes.drop stop) = true then
    some ((bytes.drop start).take (stop - start))
  else none

/-- A blank, a tab, an end of line, the beginning of a query or of a fragment. -/
def endsAuthority (b : UInt8) : Bool :=
  b = 0x20 || b = 0x09 || b = 0x0A || b = 0x0D || b = 0x3F || b = 0x23

/-- The end of the authority, and the last at sign before it. -/
def scanAuthority : List UInt8 → Nat → Option Nat → Nat × Option Nat
  | [], j, found => (j, found)
  | b :: rest, j, found =>
      if endsAuthority b then (j, found)
      else scanAuthority rest (j + 1) (if b = 0x40 then some j else found)

theorem le_scanAuthority (rest : List UInt8) (j : Nat) (found : Option Nat) :
    j ≤ (scanAuthority rest j found).1 := by
  induction rest generalizing j found with
  | nil => exact Nat.le_refl _
  | cons b rest ih =>
      rw [scanAuthority]
      split
      next => exact Nat.le_refl _
      next => exact (Nat.le_succ j).trans (ih _ _)

theorem utf8Len_pos (b : UInt8) : 0 < utf8Len b := by
  rw [utf8Len]
  repeat' split
  all_goals decide

def SCHEME_END : List UInt8 := [0x3A, 0x2F, 0x2F]

def STARS : List UInt8 := [0x2A, 0x2A, 0x2A]

/-- The walk from the byte `i` on, with what is written so far. -/
def maskFrom (bytes : List UInt8) (i : Nat) (out : List UInt8) :
    Option (List UInt8) :=
  if hi : i < bytes.length then
    if SCHEME_END <+: bytes.drop i then
      let start := i + 3
      let scanned := scanAuthority (bytes.drop start) start none
      match scanned.2.filter fun a => a < scanned.1 with
      | some a =>
          (slice bytes a scanned.1).bind fun kept =>
            maskFrom bytes scanned.1 (out ++ SCHEME_END ++ STARS ++ kept)
      | none =>
          (slice bytes start scanned.1).bind fun kept =>
            maskFrom bytes scanned.1 (out ++ SCHEME_END ++ kept)
    else
      (slice bytes i (min (i + utf8Len bytes[i]) bytes.length)).bind fun kept =>
        maskFrom bytes (i + utf8Len bytes[i]) (out ++ kept)
  else some out
termination_by bytes.length - i
decreasing_by
  · have hle := le_scanAuthority (bytes.drop (i + 3)) (i + 3) none
    omega
  · have hle := le_scanAuthority (bytes.drop (i + 3)) (i + 3) none
    omega
  · have hpos := utf8Len_pos bytes[i]
    omega

def maskSecrets (s : String) : Option (List UInt8) :=
  maskFrom (utf8 s) 0 []

end Hooks

end XBackup
