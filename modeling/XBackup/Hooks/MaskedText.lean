/-
What the walk over the bytes of a text makes of its characters.
-/
import XBackup.Hooks.MaskSecrets

namespace XBackup

namespace Hooks

open Bytes TokenScan

def isDelim (c : Char) : Bool :=
  c = ' ' || c = '\t' || c = '\n' || c = '\r' || c = '?' || c = '#'

/-- The text with the credentials of its URIs hidden. -/
def maskedText (text : List Char) : List Char :=
  scan [':', '/', '/'] isDelim (hideBefore '@' ['*', '*', '*']) text

section Text

variable {c : Char} {rest body behind : List Char}

theorem maskedText_cons (hnot : ¬ [':', '/', '/'] <+: c :: rest) :
    maskedText (c :: rest) = c :: maskedText rest := scan_cons hnot

theorem maskedText_token (hbody : ∀ c ∈ body, isDelim c = false)
    (hbehind : ∀ c ∈ behind.head?, isDelim c = true) :
    maskedText ([':', '/', '/'] ++ (body ++ behind)) =
      [':', '/', '/'] ++ hideBefore '@' ['*', '*', '*'] body ++ maskedText behind :=
  scan_token (by decide) hbody hbehind

end Text

section Bytes

/-- A character is a byte that is told apart like itself, or bytes that are
nothing to the walk. -/
theorem encodeChar_told (c : Char) :
    (∃ b, String.utf8EncodeChar c = [b] ∧ endsAuthority b = isDelim c ∧
      (b = 0x40 ↔ c = '@')) ∨
    ((∀ b ∈ String.utf8EncodeChar c, endsAuthority b = false ∧ b ≠ 0x40) ∧
      isDelim c = false ∧ c ≠ '@') := by
  rcases encodeChar_cases c with ⟨hlow, heq⟩ | ⟨hhigh, _⟩
  · have hascii : ∀ n < 128, endsAuthority (UInt8.ofNat n) =
        isDelim (Char.ofNat n) ∧ (UInt8.ofNat n = 0x40 ↔ Char.ofNat n = '@') := by
      decide +kernel
    have hown := hascii c.toNat hlow
    rw [Char.ofNat_toNat] at hown
    exact .inl ⟨_, heq, hown⟩
  · refine .inr ⟨fun b hb => ?_, ?_, ?_⟩
    · have hbyte := high_of_encodeChar hhigh b hb
      have hne : ∀ n : UInt8, n.toNat < 128 → b ≠ n := by
        rintro n hn rfl
        omega
      refine ⟨?_, hne _ (by decide)⟩
      simp only [endsAuthority, hne 0x20 (by decide), hne 0x09 (by decide),
        hne 0x0A (by decide), hne 0x0D (by decide), hne 0x3F (by decide),
        hne 0x23 (by decide), decide_false, Bool.or_self]
    · have hne : ∀ d : Char, d.toNat < 128 → c ≠ d := by
        rintro d hd rfl
        omega
      simp only [isDelim, hne ' ' (by decide), hne '\t' (by decide),
        hne '\n' (by decide), hne '\r' (by decide), hne '?' (by decide),
        hne '#' (by decide), decide_false, Bool.or_self]
    · rintro rfl
      exact absurd hhigh (by decide)

theorem scanAuthority_plain {plain : List UInt8}
    (hplain : ∀ b ∈ plain, endsAuthority b = false ∧ b ≠ 0x40)
    (rest : List UInt8) (j : Nat) (found : Option Nat) :
    scanAuthority (plain ++ rest) j found =
      scanAuthority rest (j + plain.length) found := by
  induction plain generalizing j with
  | nil => rfl
  | cons b plain ih =>
      obtain ⟨⟨hstop, hat⟩, hrest⟩ := List.forall_mem_cons.mp hplain
      rw [List.cons_append, scanAuthority, hstop, if_neg (by decide), if_neg hat,
        ih hrest, List.length_cons, Nat.add_assoc, Nat.add_comm 1]

/-- The authority is read as far as it goes, and its last at sign is found. -/
theorem scanAuthority_encoded {body behind : List Char}
    (hbody : ∀ c ∈ body, isDelim c = false)
    (hbehind : ∀ c ∈ behind.head?, isDelim c = true) (j : Nat)
    (found : Option Nat) :
    scanAuthority (encodeChars (body ++ behind)) j found =
      (j + (encodeChars body).length,
        match rsplitOnceAt '@' body with
        | some parts => some (j + (encodeChars parts.1).length)
        | none => found) := by
  induction body generalizing j found with
  | nil =>
      cases behind with
      | nil => rfl
      | cons d rest =>
          have hd := hbehind d rfl
          rcases encodeChar_told d with ⟨b, heq, hends, _⟩ | ⟨_, hnot, _⟩
          · rw [List.nil_append, encodeChars_cons, heq, List.cons_append,
              scanAuthority, hends, hd]
            rfl
          · rw [hd] at hnot
            cases hnot
  | cons c body ih =>
      obtain ⟨hc, hrest⟩ := List.forall_mem_cons.mp hbody
      rw [List.cons_append, encodeChars_cons, rsplitOnceAt]
      by_cases hat : c = '@'
      · subst hat
        have hencoded : String.utf8EncodeChar '@' = [0x40] := by decide
        rw [hencoded, List.cons_append, List.nil_append, scanAuthority,
          if_neg (by decide), if_pos rfl, ih hrest, encodeChars_cons, hencoded]
        refine Prod.ext ?_ ?_
        · simp only [List.length_append, List.length_cons, List.length_nil]
          omega
        · cases rsplitOnceAt '@' body with
          | none => rfl
          | some parts =>
              dsimp only
              rw [encodeChars_cons, hencoded]
              simp only [List.length_append, List.length_cons, List.length_nil]
              congr 1
              omega
      · have hplain : ∀ b ∈ String.utf8EncodeChar c,
            endsAuthority b = false ∧ b ≠ 0x40 := by
          rcases encodeChar_told c with ⟨b, heq, hends, hmark⟩ | ⟨hplain, _⟩
          · rw [heq]
            exact List.forall_mem_singleton.mpr
              ⟨hends.trans hc, fun hb => hat (hmark.mp hb)⟩
          · exact hplain
        rw [scanAuthority_plain hplain, ih hrest, encodeChars_cons]
        refine Prod.ext ?_ ?_
        · simp only [List.length_append]
          omega
        · cases rsplitOnceAt '@' body with
          | none => simp [hat]
          | some parts =>
              dsimp only
              rw [encodeChars_cons, List.length_append]
              congr 1
              omega

theorem isCharBoundary_encodeChars (chars : List Char) :
    isCharBoundary (encodeChars chars) = true := by
  cases chars with
  | nil => rfl
  | cons c rest =>
      have hbound : ∀ b : UInt8, b.toNat < 128 ∨ 192 ≤ b.toNat →
          (b < 0x80 || 0xC0 ≤ b) = true := by
        intro b hb
        rw [Bool.or_eq_true, decide_eq_true_eq, decide_eq_true_eq]
        exact hb.imp UInt8.lt_iff_toNat_lt.mpr UInt8.le_iff_toNat_le.mpr
      rw [encodeChars_cons]
      rcases encodeChar_cases c with ⟨hlow, heq⟩ | ⟨_, b, tail, heq, hleads, _⟩
      · rw [heq]
        refine hbound _ (.inl ?_)
        rwa [toNat_ofNat_of_lt (by omega)]
      · rw [heq]
        refine hbound b (.inr ?_)
        rcases hleads with h | h | h <;> omega

/-- A slice between two characters is the text between them. -/
theorem slice_encoded (front kept behind : List Char) :
    slice (encodeChars (front ++ (kept ++ behind))) (encodeChars front).length
      ((encodeChars front).length + (encodeChars kept).length) =
        some (encodeChars kept) := by
  have hstart : (encodeChars (front ++ (kept ++ behind))).drop
      (encodeChars front).length = encodeChars (kept ++ behind) := by
    rw [encodeChars_append, List.drop_left]
  have hstop : (encodeChars (front ++ (kept ++ behind))).drop
      ((encodeChars front).length + (encodeChars kept).length) =
        encodeChars behind := by
    rw [← List.drop_drop, hstart, encodeChars_append, List.drop_left]
  have hle : (encodeChars front).length + (encodeChars kept).length ≤
      (encodeChars (front ++ (kept ++ behind))).length := by
    rw [encodeChars_append, encodeChars_append, List.length_append,
      List.length_append]
    omega
  rw [slice, hstart, hstop, if_pos ⟨Nat.le_add_right .., hle,
    isCharBoundary_encodeChars _, isCharBoundary_encodeChars _⟩,
    Nat.add_sub_cancel_left, encodeChars_append, List.take_left]

theorem shiftRight_eq_iff (b : UInt8) {k n : Nat} (hk : k < 8) (hn : n < 256) :
    b >>> UInt8.ofNat k = UInt8.ofNat n ↔ b.toNat / 2 ^ k = n := by
  rw [← UInt8.toNat_inj, UInt8.toNat_shiftRight, toNat_ofNat_of_lt hn,
    toNat_ofNat_of_lt (hk.trans (by decide)), Nat.mod_eq_of_lt hk,
    Nat.shiftRight_eq_div_pow]

/-- The first byte of a character tells its length. -/
theorem utf8Len_encodeChar {c : Char} {b : UInt8} {tail : List UInt8}
    (heq : String.utf8EncodeChar c = b :: tail) :
    utf8Len b = (String.utf8EncodeChar c).length := by
  have hlow : b < 0x80 ↔ b.toNat < 128 := UInt8.lt_iff_toNat_lt
  have htwo : b >>> 5 = 0b110 ↔ b.toNat / 32 = 6 :=
    shiftRight_eq_iff b (by decide) (by decide)
  have hthree : b >>> 4 = 0b1110 ↔ b.toNat / 16 = 14 :=
    shiftRight_eq_iff b (by decide) (by decide)
  have hfour : b >>> 3 = 0b11110 ↔ b.toNat / 8 = 30 :=
    shiftRight_eq_iff b (by decide) (by decide)
  have hlen : utf8Len b = if b.toNat < 128 then 1
      else if b.toNat / 32 = 6 then 2
      else if b.toNat / 16 = 14 then 3
      else if b.toNat / 8 = 30 then 4 else 1 :=
    if_congr hlow rfl (if_congr htwo rfl (if_congr hthree rfl
      (if_congr hfour rfl rfl)))
  rcases encodeChar_cases c with ⟨hascii, hone⟩ | ⟨_, other, more, hmany, hleads, _⟩
  · rw [hone] at heq
    cases heq
    rw [hlen, hone, toNat_ofNat_of_lt (by omega), if_pos hascii]
    rfl
  · rw [hmany] at heq
    cases heq
    rw [hlen, hmany, List.length_cons]
    rcases hleads with ⟨hb, hmore⟩ | ⟨hb, hmore⟩ | ⟨hb, hmore⟩
    · rw [if_neg (by omega), if_pos hb, hmore]
    · rw [if_neg (by omega), if_neg (by omega), if_pos hb, hmore]
    · rw [if_neg (by omega), if_neg (by omega), if_neg (by omega), if_pos hb,
        hmore]

theorem schemeEnd_prefix_iff (rest : List Char) :
    SCHEME_END <+: encodeChars rest ↔ [':', '/', '/'] <+: rest := by
  have htoken : encodeChars [':', '/', '/'] = SCHEME_END := by decide
  constructor
  · rintro ⟨behind, hbehind⟩
    rw [← htoken, ← utf8_ofList, ← utf8_ofList] at hbehind
    obtain ⟨more, hmore⟩ := exists_append_of_utf8 hbehind
    rw [String.toList_ofList, String.toList_ofList] at hmore
    exact ⟨more, hmore.symm⟩
  · rintro ⟨behind, rfl⟩
    rw [encodeChars_append, htoken]
    exact List.prefix_append ..

end Bytes

section Walk

variable {bytes kept out : List UInt8} {i : Nat}

theorem maskFrom_char {b : UInt8} (hb : bytes[i]? = some b)
    (hnot : ¬ SCHEME_END <+: bytes.drop i)
    (hkept : slice bytes i (min (i + utf8Len b) bytes.length) = some kept) :
    maskFrom bytes i out = maskFrom bytes (i + utf8Len b) (out ++ kept) := by
  obtain ⟨hi, hget⟩ := List.getElem?_eq_some_iff.mp hb
  rw [maskFrom, dif_pos hi, if_neg hnot, hget, hkept]
  rfl

theorem maskFrom_token {stop : Nat} {found : Option Nat} (hi : i < bytes.length)
    (hfront : SCHEME_END <+: bytes.drop i)
    (hscan : scanAuthority (bytes.drop (i + 3)) (i + 3) none = (stop, found))
    (hfound : ∀ a ∈ found, a < stop)
    (hkept : slice bytes (found.getD (i + 3)) stop = some kept) :
    maskFrom bytes i out = maskFrom bytes stop
      (out ++ SCHEME_END ++ (if found.isSome then STARS ++ kept else kept)) := by
  rw [maskFrom, dif_pos hi, if_pos hfront]
  dsimp only
  rw [hscan]
  cases found with
  | none =>
      simp only [Option.filter_none, Option.getD_none] at hkept ⊢
      rw [hkept]
      rfl
  | some a =>
      have hfilter : (some a).filter (fun a => decide (a < stop)) = some a :=
        if_pos (decide_eq_true (hfound a rfl))
      simp only [hfilter, Option.getD_some] at hkept ⊢
      rw [hkept, Option.bind_some, List.append_assoc]
      rfl

/-- From a character on, the walk writes the rest of the masked text. -/
theorem maskFrom_encoded (rest : List Char) : ∀ front out,
    maskFrom (encodeChars (front ++ rest)) (encodeChars front).length out =
      some (out ++ encodeChars (maskedText rest)) := by
  have htoken : [':', '/', '/'] ≠ [] := by decide
  induction rest using scan_induction isDelim htoken with
  | nil =>
      intro front out
      rw [List.append_nil, maskFrom, dif_neg (Nat.lt_irrefl _)]
      exact congrArg some (List.append_nil out).symm
  | cons c rest hnot ih =>
      intro front out
      obtain ⟨b, tail, heq⟩ := List.exists_cons_of_ne_nil
        (@String.utf8EncodeChar_ne_nil c)
      have hdrop : (encodeChars (front ++ c :: rest)).drop
          (encodeChars front).length = encodeChars (c :: rest) := by
        rw [encodeChars_append, List.drop_left]
      have hb : (encodeChars (front ++ c :: rest))[(encodeChars front).length]? =
          some b := by
        rw [← List.head?_drop, hdrop, encodeChars_cons, heq]
        rfl
      have hone : encodeChars [c] = String.utf8EncodeChar c := by
        rw [encodeChars_cons]
        exact List.append_nil _
      have hstop : min ((encodeChars front).length + utf8Len b)
          (encodeChars (front ++ c :: rest)).length =
            (encodeChars front).length + (encodeChars [c]).length := by
        rw [utf8Len_encodeChar heq, hone, encodeChars_append, encodeChars_cons,
          List.length_append, List.length_append]
        omega
      have hkept := slice_encoded front [c] rest
      rw [← hstop] at hkept
      have hnext := ih (front ++ [c]) (out ++ encodeChars [c])
      have hlength : (encodeChars (front ++ [c])).length =
          (encodeChars front).length + (encodeChars [c]).length := by
        rw [encodeChars_append, List.length_append]
      rw [maskFrom_char hb (by rwa [hdrop, schemeEnd_prefix_iff]) hkept,
        utf8Len_encodeChar heq, ← hone]
      rw [List.append_assoc, hlength] at hnext
      refine hnext.trans ?_
      rw [maskedText_cons hnot, hone, encodeChars_cons, List.append_assoc]
  | found body behind hbody hbehind ih =>
      intro front out
      have hcolons : encodeChars [':', '/', '/'] = SCHEME_END := by decide
      have hdrop : (encodeChars (front ++ ([':', '/', '/'] ++ (body ++ behind)))).drop
          (encodeChars front).length =
            encodeChars ([':', '/', '/'] ++ (body ++ behind)) := by
        rw [encodeChars_append, List.drop_left]
      have hrest : (encodeChars (front ++ ([':', '/', '/'] ++ (body ++ behind)))).drop
          ((encodeChars front).length + 3) = encodeChars (body ++ behind) := by
        rw [← List.drop_drop, hdrop, encodeChars_append, hcolons]
        rfl
      have hthree : (encodeChars (front ++ [':', '/', '/'])).length =
          (encodeChars front).length + 3 := by
        rw [encodeChars_append, List.length_append, hcolons]
        rfl
      have hi : (encodeChars front).length <
          (encodeChars (front ++ ([':', '/', '/'] ++ (body ++ behind)))).length := by
        rw [encodeChars_append, encodeChars_append, hcolons, List.length_append,
          List.length_append]
        exact Nat.lt_add_of_pos_right (Nat.lt_of_lt_of_le (by decide)
          (Nat.le_add_right SCHEME_END.length _))
      have hscan := scanAuthority_encoded hbody hbehind
        ((encodeChars front).length + 3) none
      rw [← hrest] at hscan
      have hfront : SCHEME_END <+: (encodeChars
          (front ++ ([':', '/', '/'] ++ (body ++ behind)))).drop
            (encodeChars front).length := by
        rw [hdrop, schemeEnd_prefix_iff]
        exact List.prefix_append ..
      have hstop : (encodeChars (front ++ ([':', '/', '/'] ++ body))).length =
          (encodeChars front).length + 3 + (encodeChars body).length := by
        rw [← List.append_assoc, encodeChars_append, List.length_append, hthree]
      have hassoc : front ++ ([':', '/', '/'] ++ body) ++ behind =
          front ++ ([':', '/', '/'] ++ (body ++ behind)) := by
        simp only [List.append_assoc]
      have hnext := ih (front ++ ([':', '/', '/'] ++ body))
        (out ++ SCHEME_END ++ encodeChars (hideBefore '@' ['*', '*', '*'] body))
      rw [hassoc, hstop] at hnext
      have hgoal : maskFrom
          (encodeChars (front ++ ([':', '/', '/'] ++ (body ++ behind))))
          (encodeChars front).length out =
            maskFrom (encodeChars (front ++ ([':', '/', '/'] ++ (body ++ behind))))
              ((encodeChars front).length + 3 + (encodeChars body).length)
              (out ++ SCHEME_END ++
                encodeChars (hideBefore '@' ['*', '*', '*'] body)) := by
        by_cases hat : '@' ∈ body
        · obtain ⟨user, host, rfl, hhost⟩ := exists_last hat
          have hat : (encodeChars (front ++ ([':', '/', '/'] ++ user))).length =
              (encodeChars front).length + 3 + (encodeChars user).length := by
            rw [← List.append_assoc, encodeChars_append, List.length_append,
              hthree]
          have hsum : (encodeChars (user ++ '@' :: host)).length =
              (encodeChars user).length + (encodeChars ('@' :: host)).length := by
            rw [encodeChars_append, List.length_append]
          have hpos : 0 < (encodeChars ('@' :: host)).length := by
            rw [encodeChars_cons, List.length_append,
              String.length_utf8EncodeChar]
            exact Nat.lt_add_right _ (Char.utf8Size_pos '@')
          have hkept := slice_encoded (front ++ ([':', '/', '/'] ++ user))
            ('@' :: host) behind
          have hwhole : front ++ ([':', '/', '/'] ++ user) ++
              ('@' :: host ++ behind) = front ++
                ([':', '/', '/'] ++ (user ++ '@' :: host ++ behind)) := by
            simp only [List.append_assoc]
          have hend : (encodeChars front).length + 3 +
              (encodeChars user).length + (encodeChars ('@' :: host)).length =
                (encodeChars front).length + 3 +
                  (encodeChars (user ++ '@' :: host)).length := by
            rw [hsum]
            omega
          rw [hwhole, hat, hend] at hkept
          rw [rsplitOnceAt_append hhost] at hscan
          have hshown : encodeChars (hideBefore '@' ['*', '*', '*']
              (user ++ '@' :: host)) = STARS ++ encodeChars ('@' :: host) := by
            rw [hideBefore_append hhost, encodeChars_append]
            rfl
          have hbefore : ∀ a ∈ some ((encodeChars front).length + 3 +
              (encodeChars user).length), a < (encodeChars front).length + 3 +
                (encodeChars (user ++ '@' :: host)).length := by
            intro a ha
            rw [← Option.some.inj ha, hsum]
            omega
          rw [maskFrom_token hi hfront hscan hbefore hkept, hshown]
          rfl
        · have hkept := slice_encoded (front ++ [':', '/', '/']) body behind
          rw [List.append_assoc, hthree] at hkept
          rw [rsplitOnceAt_eq_none_iff.mpr hat] at hscan
          rw [maskFrom_token hi hfront hscan (fun _ ha => by cases ha) hkept,
            hideBefore_of_not_mem hat]
          rfl
      rw [hgoal, hnext, maskedText_token hbody hbehind, encodeChars_append,
        encodeChars_append, hcolons]
      simp only [List.append_assoc]

/-- The masked text is written, and no slice panics. -/
theorem maskSecrets_eq (s : String) :
    maskSecrets s = some (utf8 (String.ofList (maskedText s.toList))) := by
  rw [utf8_ofList]
  exact maskFrom_encoded s.toList [] []

end Walk

end Hooks

end XBackup
