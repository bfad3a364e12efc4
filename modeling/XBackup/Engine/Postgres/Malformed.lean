/-
Which messages make the decoder panic, and that it answers all others.
-/
import XBackup.Engine.Postgres.Checked

namespace XBackup

namespace Postgres

open Bytes Parsing

namespace Checked

open Cur (asUsize asChar byte)

/-- The bytes of a column that the decoder takes. -/
def IsColumn (taken : List UInt8) : Prop :=
  taken = [byte 'n'] ∨ taken = [byte 'u'] ∨
    ∃ len text, taken = byte 't' :: (len ++ text) ∧ len.length = 4 ∧
      signed 32 (ofBigEndian len) = text.length

def IsTuple (taken : List UInt8) : Prop :=
  ∃ (count : List UInt8) (cols : List (List UInt8)),
    taken = count ++ cols.flatten ∧ count.length = 2 ∧
      cols.length = (signed 16 (ofBigEndian count)).toNat ∧
      ∀ col ∈ cols, IsColumn col

/-- At the position there is a text whose negative length points back into the
message. -/
def LengthBack (i : Nat) (ahead : List UInt8) : Prop :=
  ∃ len tail, ahead = byte 't' :: (len ++ tail) ∧ len.length = 4 ∧
    signed 32 (ofBigEndian len) < 0 ∧
    0 ≤ (i : Int) + 5 + signed 32 (ofBigEndian len)

/-- The tuple at the position has such a text behind columns that are taken. -/
def TupleBack (i : Nat) (ahead : List UInt8) : Prop :=
  ∃ (count : List UInt8) (cols : List (List UInt8)) (tail : List UInt8),
    ahead = count ++ (cols.flatten ++ tail) ∧ count.length = 2 ∧
      cols.length < (signed 16 (ofBigEndian count)).toNat ∧
      (∀ col ∈ cols, IsColumn col) ∧
      LengthBack (i + 2 + cols.flatten.length) tail

/-- A tuple of the message has such a text. -/
def PointsBack (data : List UInt8) : Prop :=
  ∃ tag oid kind ahead, data = tag :: (oid ++ kind :: ahead) ∧
    oid.length = 4 ∧
    ((tag = byte 'I' ∨ tag = byte 'D' ∨ tag = byte 'U' ∧ kind = byte 'N') ∧
        TupleBack 6 ahead ∨
      tag = byte 'U' ∧ (kind = byte 'K' ∨ kind = byte 'O') ∧
        (TupleBack 6 ahead ∨ ∃ old rest, ahead = old ++ byte 'N' :: rest ∧
          IsTuple old ∧ TupleBack (7 + old.length) rest))

/-- The time of the commit is no `i64` when it counts from 1970. -/
def LateCommit (data : List UInt8) : Prop :=
  ∃ lsn ts tail, data = byte 'B' :: (lsn ++ (ts ++ tail)) ∧ lsn.length = 8 ∧
    ts.length = 8 ∧
    2 ^ 63 ≤ signed 64 (ofBigEndian ts) + 946684800 * 1000000

/-- The cursor stands between the two parts of a short message. -/
def Stands (c : Cur) (behind ahead : List UInt8) : Prop :=
  c.b = behind ++ ahead ∧ c.i = behind.length ∧ c.b.length < 2 ^ 31

section Languages

variable {α : Type} {c : Cur} {behind ahead taken tail : List UInt8}

theorem Stands.length_le (hst : Stands c behind ahead) :
    behind.length + ahead.length < 2 ^ 31 := by
  rw [← List.length_append, ← hst.1]
  exact hst.2.2

theorem Stands.step (hst : Stands c behind (taken ++ tail)) :
    Stands ⟨c.b, c.i + taken.length⟩ (behind ++ taken) tail := by
  refine ⟨?_, ?_, hst.2.2⟩
  · rw [List.append_assoc]
    exact hst.1
  · rw [List.length_append]
    exact congrArg (· + taken.length) hst.2.1

theorem need_of_fits {n : Nat} (hst : Stands c behind ahead)
    (hn : behind.length + n < 2 ^ 64) :
    need n c = if ahead.length < n then
      .error (.error (.failure "the pgoutput message was truncated"))
      else .ok ((), c) := by
  have hadd : add c.i n = pure (c.i + n) := by
    rw [add, hst.2.1, if_pos hn]
  have hiff : c.b.length < c.i + n ↔ ahead.length < n := by
    rw [hst.1, hst.2.1, List.length_append]
    omega
  simp only [need, Bind.bind, StateT.bind, get, getThe, MonadStateOf.get,
    StateT.get, Pure.pure, Except.pure, Except.bind, hadd, StateT.pure, hiff]
  split
  next => rfl
  next => rfl

theorem need_of_overflow {n : Nat} (hst : Stands c behind ahead)
    (hn : 2 ^ 64 ≤ behind.length + n) : need n c = .error .panicked := by
  have hadd : add c.i n = throw .panicked := by
    rw [add, hst.2.1, if_neg (not_lt.mpr hn)]
  simp only [need, Bind.bind, StateT.bind, get, getThe, MonadStateOf.get,
    StateT.get, Pure.pure, Except.pure, Except.bind, hadd]
  rfl

theorem slice_of_fits (hst : Stands c behind (taken ++ tail)) :
    slice taken.length c = .ok (taken, ⟨c.b, c.i + taken.length⟩) := by
  have hlength := hst.length_le
  rw [List.length_append] at hlength
  have hadd : add c.i taken.length = pure (c.i + taken.length) := by
    rw [add, hst.2.1, if_pos (by omega)]
  have hinside : ¬ (c.i + taken.length < c.i ∨
      c.b.length < c.i + taken.length) := by
    rw [hst.1, hst.2.1, List.length_append, List.length_append]
    omega
  have htaken : (c.b.drop c.i).take taken.length = taken := by
    rw [hst.1, hst.2.1, List.drop_left, List.take_left]
  simp only [slice, Bind.bind, StateT.bind, get, getThe, MonadStateOf.get,
    StateT.get, Pure.pure, Except.pure, Except.bind, hadd, StateT.pure,
    if_neg hinside, htaken]
  rfl

theorem bytes_of_overflow {n : Nat} (hst : Stands c behind ahead)
    (hn : 2 ^ 64 ≤ behind.length + n) : bytes n c = .error .panicked := by
  simp only [bytes, Bind.bind, StateT.bind, need_of_overflow hst hn, Except.bind]

theorem bytes_of_short {n : Nat} (hst : Stands c behind ahead)
    (hn : behind.length + n < 2 ^ 64) (hshort : ahead.length < n) :
    bytes n c = .error (.error
      (.failure "the pgoutput message was truncated")) := by
  simp only [bytes, Bind.bind, StateT.bind, need_of_fits hst hn, if_pos hshort,
    Except.bind]

theorem bytes_of_enough (hst : Stands c behind (taken ++ tail)) :
    bytes taken.length c = .ok (taken, ⟨c.b, c.i + taken.length⟩) := by
  have hlength := hst.length_le
  rw [List.length_append] at hlength
  have henough : ¬ (taken ++ tail).length < taken.length := by
    rw [List.length_append]
    omega
  have hfits : behind.length + taken.length < 2 ^ 64 := by omega
  simp only [bytes, Bind.bind, StateT.bind, need_of_fits hst hfits,
    if_neg henough, Except.bind, slice_of_fits hst]

/-- A number of bytes is taken as it is; the panic is that the number leads
around the end of `usize`. -/
theorem behaves_bytes (n : Nat) :
    Behaves Stands .panicked (bytes n)
      (fun value taken => value = taken ∧ taken.length = n)
      (fun behind _ => 2 ^ 64 ≤ behind.length + n) where
  takes := by
    intro c behind ahead value next hst hread
    by_cases hn : 2 ^ 64 ≤ behind.length + n
    · rw [bytes_of_overflow hst hn] at hread
      cases hread
    · by_cases hshort : ahead.length < n
      · rw [bytes_of_short hst (not_le.mp hn) hshort] at hread
        cases hread
      · have hlength : (ahead.take n).length = n := by
          rw [List.length_take]
          omega
        rw [← List.take_append_drop n ahead] at hst
        have henough := bytes_of_enough hst
        rw [hlength, hread] at henough
        cases henough
        refine ⟨_, _, (List.take_append_drop n ahead).symm, ⟨rfl, hlength⟩, ?_⟩
        have hnext := hst.step
        rwa [hlength] at hnext
  gives := by
    rintro c behind taken tail value hst ⟨rfl, rfl⟩
    exact ⟨_, bytes_of_enough hst, hst.step⟩
  fails := by
    intro c behind ahead hst
    by_cases hn : 2 ^ 64 ≤ behind.length + n
    · exact iff_of_true (bytes_of_overflow hst hn) hn
    · refine iff_of_false (fun hpanic => ?_) hn
      by_cases hshort : ahead.length < n
      · rw [bytes_of_short hst (not_le.mp hn) hshort] at hpanic
        cases hpanic
      · have hlength : (ahead.take n).length = n := by
          rw [List.length_take]
          omega
        rw [← List.take_append_drop n ahead] at hst
        have henough := bytes_of_enough hst
        rw [hlength, hpanic] at henough
        cases henough

/-- A reader that never panics. -/
abbrev Calm (reader : CurM α) (Takes : α → List UInt8 → Prop) : Prop :=
  Behaves Stands .panicked reader Takes fun _ _ => False

theorem calm_bytes {n : Nat} (hn : n < 2 ^ 32) :
    Calm (bytes n) fun value taken => value = taken ∧ taken.length = n := by
  refine (behaves_bytes n).congr (fun _ _ _ _ _ _ => Iff.rfl)
    fun c behind ahead hst => iff_of_false ?_ id
  have hlength := hst.length_le
  omega

/-- A calm reader before another. -/
theorem calm_bind {β : Type} {first : CurM α} {next : α → CurM β}
    {Takes : α → List UInt8 → Prop} {TakesNext : α → β → List UInt8 → Prop}
    {FailsNext : α → List UInt8 → List UInt8 → Prop} (hfirst : Calm first Takes)
    (hnext : ∀ value, Behaves Stands .panicked (next value) (TakesNext value)
      (FailsNext value)) :
    Behaves Stands .panicked (first >>= next)
      (fun result taken => ∃ value one more, taken = one ++ more ∧
        Takes value one ∧ TakesNext value result more)
      (fun behind ahead => ∃ value one tail, ahead = one ++ tail ∧
        Takes value one ∧ FailsNext value (behind ++ one) tail) :=
  (hfirst.bind hnext).congr (fun _ _ _ _ _ _ => Iff.rfl) fun _ _ _ _ =>
    or_iff_right id

theorem calm_u8 : Calm u8 fun value taken => taken = [value] := by
  refine ((calm_bytes (by decide)).map fun taken => taken.headD 0).congr
    (fun _ _ taken _ value _ => ⟨?_, ?_⟩) fun _ _ _ _ => Iff.rfl
  · rintro ⟨_, ⟨rfl, hone⟩, rfl⟩
    obtain ⟨byte, rfl⟩ := List.length_eq_one_iff.mp hone
    rfl
  · rintro rfl
    exact ⟨[value], ⟨rfl, rfl⟩, rfl⟩

/-- A number of a width. -/
theorem calm_number {n : Nat} (hn : n < 2 ^ 32) (number : List UInt8 → α) :
    Calm (bytes n >>= fun taken => pure (number taken))
      fun value taken => taken.length = n ∧ value = number taken := by
  refine ((calm_bytes hn).map number).congr (fun _ _ taken _ value _ => ⟨?_, ?_⟩)
    fun _ _ _ _ => Iff.rfl
  · rintro ⟨_, ⟨rfl, hlength⟩, rfl⟩
    exact ⟨hlength, rfl⟩
  · rintro ⟨hlength, rfl⟩
    exact ⟨taken, ⟨rfl, hlength⟩, rfl⟩

theorem calm_i16 : Calm i16 fun value taken =>
    taken.length = 2 ∧ value = signed 16 (ofBigEndian taken) :=
  calm_number (by decide) _

theorem calm_i32 : Calm i32 fun value taken =>
    taken.length = 4 ∧ value = signed 32 (ofBigEndian taken) :=
  calm_number (by decide) _

theorem calm_i64 : Calm i64 fun value taken =>
    taken.length = 8 ∧ value = (UInt64.ofNat (ofBigEndian taken)).toInt64 :=
  calm_number (by decide) _

/-- The bytes that are passed over are there. -/
theorem skip_of_fits {n : Nat} (hst : Stands c behind ahead) (hn : n < 2 ^ 32) :
    skip n c = if ahead.length < n then
      .error (.error (.failure "the pgoutput message was truncated"))
      else .ok ((), ⟨c.b, c.i + n⟩) := by
  have hlength := hst.length_le
  have hfits : behind.length + n < 2 ^ 64 := by omega
  have hadd : add c.i n = pure (c.i + n) := by
    rw [add, hst.2.1, if_pos hfits]
  have hstep : step n c = .ok ((), ⟨c.b, c.i + n⟩) := by
    simp only [step, Bind.bind, StateT.bind, get, getThe, MonadStateOf.get,
      StateT.get, Pure.pure, Except.pure, Except.bind, hadd, StateT.pure]
    rfl
  simp only [skip, Bind.bind, StateT.bind, need_of_fits hst hfits]
  split
  next => rfl
  next => exact hstep

theorem calm_skip {n : Nat} (hn : n < 2 ^ 32) :
    Calm (skip n) fun _ taken => taken.length = n where
  takes := by
    intro c behind ahead value next hst hread
    rw [skip_of_fits hst hn] at hread
    split at hread
    next => cases hread
    next henough =>
      have hlength : (ahead.take n).length = n := by
        rw [List.length_take]
        omega
      cases hread
      refine ⟨ahead.take n, ahead.drop n, (List.take_append_drop n ahead).symm,
        hlength, ?_⟩
      rw [← List.take_append_drop n ahead] at hst
      have hnext := hst.step
      rwa [hlength] at hnext
  gives := by
    rintro c behind taken tail value hst rfl
    have henough : ¬ (taken ++ tail).length < taken.length := by
      rw [List.length_append]
      omega
    rw [skip_of_fits hst hn, if_neg henough]
    exact ⟨_, rfl, hst.step⟩
  fails := by
    intro c behind ahead hst
    rw [skip_of_fits hst hn]
    refine iff_of_false ?_ id
    split
    next => exact fun h => by cases h
    next => exact fun h => by cases h

/-- A text is read up to its NUL. -/
theorem cstr_of_stands {text : List UInt8} (hst : Stands c behind (text ++ ahead))
    (htext : (text ++ ahead).takeWhile (fun byte => byte ≠ 0) = text) :
    cstr c = if ahead.length < 1 then
      .error (.error (.failure "the pgoutput message was truncated"))
      else .ok (fromUtf8Lossy text, ⟨c.b, c.i + text.length + 1⟩) := by
  have hskip := skip_of_fits hst.step (n := 1) (by decide)
  have hahead : c.b.drop c.i = text ++ ahead := by
    rw [hst.1, hst.2.1, List.drop_left]
  have hcstr : cstr c = (skip 1 >>= fun _ => pure (fromUtf8Lossy text))
      ⟨c.b, c.i + text.length⟩ := by
    simp only [cstr, skip, Bind.bind, StateT.bind, get, getThe,
      MonadStateOf.get, StateT.get, Pure.pure, Except.pure, Except.bind, set,
      StateT.set, hahead, htext]
    cases need 1 ⟨c.b, c.i + text.length⟩ with
    | error e => rfl
    | ok pair => rfl
  rw [hcstr]
  simp only [Bind.bind, StateT.bind, hskip]
  split
  next => rfl
  next => rfl

theorem calm_cstr : Calm cstr fun value taken =>
    ∃ text, 0 ∉ text ∧ taken = text ++ [0] ∧ value = fromUtf8Lossy text where
  takes := by
    intro c behind ahead value next hst hread
    have hsplit := List.takeWhile_append_dropWhile
      (p := fun byte : UInt8 => decide (byte ≠ 0)) (l := ahead)
    rw [← hsplit] at hst
    rw [cstr_of_stands hst (by rw [hsplit])] at hread
    split at hread
    next => cases hread
    next henough =>
      cases hread
      cases hrest : ahead.dropWhile fun byte => byte ≠ 0 with
      | nil =>
          rw [hrest] at henough
          exact absurd Nat.zero_lt_one henough
      | cons byte tail =>
          have hbyte := List.head?_dropWhile_not
            (fun byte : UInt8 => decide (byte ≠ 0)) ahead
          have hzero : byte = 0 := by
            rw [hrest] at hbyte
            simpa using hbyte
          rw [hzero] at hrest
          rw [hrest] at hst hsplit
          refine ⟨_ ++ [0], tail, ?_, ⟨_, ?_, rfl, rfl⟩, ?_⟩
          · rw [List.append_assoc]
            exact hsplit.symm
          · intro hmem
            have hne := List.mem_takeWhile_imp hmem
            simp at hne
          · rw [show ∀ front : List UInt8, front ++ 0 :: tail =
              (front ++ [0]) ++ tail from fun front => by simp] at hst
            have hnext := hst.step
            rwa [List.length_append, List.length_singleton, ← Nat.add_assoc]
              at hnext
  gives := by
    rintro c behind taken tail value hst ⟨text, htext, rfl, rfl⟩
    have hwhile : (text ++ ([0] ++ tail)).takeWhile
        (fun byte : UInt8 => byte ≠ 0) = text := by
      rw [List.takeWhile_append_of_pos]
      · simp
      · intro byte hbyte
        exact decide_eq_true (ne_of_mem_of_not_mem hbyte htext)
    have hnext := hst.step
    rw [List.append_assoc] at hst
    rw [cstr_of_stands hst hwhile, if_neg (by simp)]
    refine ⟨_, rfl, ?_⟩
    rwa [List.length_append, List.length_singleton, ← Nat.add_assoc] at hnext
  fails := by
    intro c behind ahead hst
    have hsplit := List.takeWhile_append_dropWhile
      (p := fun byte : UInt8 => decide (byte ≠ 0)) (l := ahead)
    rw [← hsplit] at hst
    rw [cstr_of_stands hst (by rw [hsplit])]
    refine iff_of_false ?_ id
    split
    next => exact fun h => by cases h
    next => exact fun h => by cases h

/-- The value of a column with its bytes. -/
def TakesColumn (given : Option String × Bool) (taken : List UInt8) : Prop :=
  given = (none, false) ∧ taken = [byte 'n'] ∨
    given = (none, true) ∧ taken = [byte 'u'] ∨
    ∃ len text, given = (some (fromUtf8Lossy text), false) ∧
      taken = byte 't' :: (len ++ text) ∧ len.length = 4 ∧
      signed 32 (ofBigEndian len) = text.length

theorem exists_takesColumn :
    (∃ given, TakesColumn given taken) ↔ IsColumn taken := by
  constructor
  · rintro ⟨given, ⟨-, rfl⟩ | ⟨-, rfl⟩ | ⟨len, text, -, rfl, hlen⟩⟩
    · exact .inl rfl
    · exact .inr (.inl rfl)
    · exact .inr (.inr ⟨len, text, rfl, hlen⟩)
  · rintro (rfl | rfl | ⟨len, text, rfl, hlen⟩)
    · exact ⟨_, .inl ⟨rfl, rfl⟩⟩
    · exact ⟨_, .inr (.inl ⟨rfl, rfl⟩)⟩
    · exact ⟨_, .inr (.inr ⟨len, text, rfl, rfl, hlen⟩)⟩

theorem signed_bounds (n : Nat) :
    -2 ^ 31 ≤ signed 32 n ∧ signed 32 n < 2 ^ 31 :=
  ⟨BitVec.le_toInt _, BitVec.toInt_lt⟩

/-- As `usize` a negative length is 2⁶⁴ too large. -/
theorem asUsize_of_neg {n : Int} (hlow : -2 ^ 31 ≤ n) (hneg : n < 0) :
    (asUsize n : Int) = n + 2 ^ 64 := by
  rw [asUsize]
  omega

theorem asUsize_of_nonneg {n : Int} (hhigh : n < 2 ^ 31) (hpos : 0 ≤ n) :
    (asUsize n : Int) = n := by
  rw [asUsize]
  omega

theorem behaves_text :
    Behaves Stands .panicked
      (do let len ← i32
          let text ← bytes (asUsize len)
          pure (some (fromUtf8Lossy text), false))
      (fun given taken => ∃ len text, given = (some (fromUtf8Lossy text), false) ∧
        taken = len ++ text ∧ len.length = 4 ∧
        signed 32 (ofBigEndian len) = text.length)
      (fun behind ahead => ∃ len tail, ahead = len ++ tail ∧ len.length = 4 ∧
        signed 32 (ofBigEndian len) < 0 ∧
        0 ≤ (behind.length : Int) + 4 + signed 32 (ofBigEndian len)) := by
  refine (calm_bind calm_i32 fun len => (behaves_bytes (asUsize len)).map
    fun text => (some (fromUtf8Lossy text), false)).congr
      (fun c behind taken tail given hst => ⟨?_, ?_⟩)
      fun c behind ahead hst => ⟨?_, ?_⟩
  · rintro ⟨n, len, text, rfl, ⟨hfour, rfl⟩, _, ⟨rfl, htext⟩, rfl⟩
    refine ⟨len, _, rfl, rfl, hfour, ?_⟩
    obtain ⟨hlow, hhigh⟩ := signed_bounds (ofBigEndian len)
    have hshort := hst.length_le
    simp only [List.length_append] at hshort
    rcases lt_or_ge (signed 32 (ofBigEndian len)) 0 with hneg | hpos
    · have hsize := asUsize_of_neg hlow hneg
      omega
    · rw [htext, asUsize_of_nonneg hhigh hpos]
  · rintro ⟨len, text, rfl, rfl, hfour, hlen⟩
    obtain ⟨-, hhigh⟩ := signed_bounds (ofBigEndian len)
    have hsize := asUsize_of_nonneg hhigh (hlen ▸ Int.natCast_nonneg _)
    exact ⟨_, len, text, rfl, ⟨hfour, rfl⟩, text, ⟨rfl, by omega⟩, rfl⟩
  · rintro ⟨n, len, tail, rfl, ⟨hfour, rfl⟩, hover⟩
    rw [List.length_append] at hover
    obtain ⟨hlow, hhigh⟩ := signed_bounds (ofBigEndian len)
    have hshort := hst.length_le
    refine ⟨len, tail, rfl, hfour, ?_⟩
    rcases lt_or_ge (signed 32 (ofBigEndian len)) 0 with hneg | hpos
    · have hsize := asUsize_of_neg hlow hneg
      omega
    · have hsize := asUsize_of_nonneg hhigh hpos
      omega
  · rintro ⟨len, tail, rfl, hfour, hneg, hback⟩
    refine ⟨_, len, tail, rfl, ⟨hfour, rfl⟩, ?_⟩
    have hsize := asUsize_of_neg (signed_bounds (ofBigEndian len)).1 hneg
    rw [List.length_append]
    omega

theorem behaves_column : Behaves Stands .panicked column TakesColumn
    fun behind ahead => LengthBack behind.length ahead := by
  have hn : byte 'n' ≠ byte 'u' := by decide
  have hn' : byte 'n' ≠ byte 't' := by decide
  have hu : byte 'u' ≠ byte 't' := by decide
  refine (calm_bind calm_u8 fun kind => Behaves.ite (fun _ => behaves_pure _)
    fun _ => Behaves.ite (fun _ => behaves_pure _)
      fun _ => Behaves.ite (fun _ => behaves_text)
        fun _ => behaves_throw (by simp)).congr
      (fun c behind taken tail given hst => ⟨?_, ?_⟩)
      fun c behind ahead hst => ⟨?_, ?_⟩
  · rintro ⟨kind, _, more, rfl, rfl, hvalue⟩
    split at hvalue
    next hkind =>
      obtain ⟨rfl, rfl⟩ := hvalue
      exact .inl ⟨rfl, by rw [hkind]; rfl⟩
    next =>
      split at hvalue
      next hkind =>
        obtain ⟨rfl, rfl⟩ := hvalue
        exact .inr (.inl ⟨rfl, by rw [hkind]; rfl⟩)
      next =>
        split at hvalue
        next hkind =>
          obtain ⟨len, text, rfl, rfl, hlen⟩ := hvalue
          exact .inr (.inr ⟨len, text, rfl, by rw [hkind]; rfl, hlen⟩)
        next => exact hvalue.elim
  · rintro (⟨rfl, rfl⟩ | ⟨rfl, rfl⟩ | ⟨len, text, rfl, rfl, hlen⟩)
    · exact ⟨byte 'n', [byte 'n'], [], rfl, rfl, by rw [if_pos rfl]; exact ⟨rfl, rfl⟩⟩
    · refine ⟨byte 'u', [byte 'u'], [], rfl, rfl, ?_⟩
      rw [if_neg hn.symm, if_pos rfl]
      exact ⟨rfl, rfl⟩
    · refine ⟨byte 't', [byte 't'], len ++ text, rfl, rfl, ?_⟩
      rw [if_neg hn'.symm, if_neg hu.symm, if_pos rfl]
      exact ⟨len, text, rfl, rfl, hlen⟩
  · rintro ⟨kind, _, tail, rfl, rfl, hfails⟩
    split at hfails
    next => exact hfails.elim
    next =>
      split at hfails
      next => exact hfails.elim
      next =>
        split at hfails
        next hkind =>
          obtain ⟨len, rest, rfl, hfour, hneg, hback⟩ := hfails
          refine ⟨len, rest, by rw [hkind]; rfl, hfour, hneg, ?_⟩
          rw [List.length_append, List.length_singleton] at hback
          push_cast at hback
          omega
        next => exact hfails.elim
  · rintro ⟨len, rest, rfl, hfour, hneg, hback⟩
    refine ⟨byte 't', [byte 't'], len ++ rest, rfl, rfl, ?_⟩
    rw [if_neg hn'.symm, if_neg hu.symm, if_pos rfl]
    refine ⟨len, rest, rfl, hfour, hneg, ?_⟩
    rw [List.length_append, List.length_singleton]
    push_cast
    omega

def TakesTuple (given : List (Option String) × List Bool)
    (taken : List UInt8) : Prop :=
  ∃ count texts values, taken = count ++ texts ∧ count.length = 2 ∧
    values.length = (signed 16 (ofBigEndian count)).toNat ∧
    TakesEach TakesColumn values texts ∧
    given = (values.map Prod.fst, values.map Prod.snd)

theorem exists_takesTuple :
    (∃ given, TakesTuple given taken) ↔ IsTuple taken := by
  constructor
  · rintro ⟨_, count, texts, values, rfl, htwo, hlength, heach, -⟩
    obtain ⟨cols, rfl, hcount, hcols⟩ :=
      exists_takesEach.mp ⟨values, hlength, heach⟩
    exact ⟨count, cols, rfl, htwo, hcount, fun col hcol =>
      exists_takesColumn.mp (hcols col hcol)⟩
  · rintro ⟨count, cols, rfl, htwo, hlength, hcols⟩
    obtain ⟨values, hvalues, heach⟩ := exists_takesEach.mpr
      ⟨cols, rfl, hlength, fun col hcol =>
        exists_takesColumn.mpr (hcols col hcol)⟩
    exact ⟨_, count, _, values, rfl, htwo, hvalues, heach, rfl⟩

theorem behaves_tuple : Behaves Stands .panicked tuple TakesTuple
    fun behind ahead => TupleBack behind.length ahead := by
  refine (calm_bind calm_i16 fun n => (behaves_column.times n.toNat).map
    fun columns => (columns.map Prod.fst, columns.map Prod.snd)).congr
      (fun c behind taken tail given hst => ⟨?_, ?_⟩)
      fun c behind ahead hst => ⟨?_, ?_⟩
  · rintro ⟨_, count, texts, rfl, ⟨htwo, rfl⟩, values, ⟨hlength, heach⟩, rfl⟩
    exact ⟨count, texts, values, rfl, htwo, hlength, heach, rfl⟩
  · rintro ⟨count, texts, values, rfl, htwo, hlength, heach, rfl⟩
    exact ⟨_, count, texts, rfl, ⟨htwo, rfl⟩, values, ⟨hlength, heach⟩, rfl⟩
  · rintro ⟨_, count, _, rfl, ⟨htwo, rfl⟩, cols, tail, rfl, hless, hcols, hback⟩
    rw [List.length_append, List.length_append, htwo] at hback
    exact ⟨count, cols, tail, rfl, htwo, hless,
      fun col hcol => exists_takesColumn.mp (hcols col hcol), hback⟩
  · rintro ⟨count, cols, tail, rfl, htwo, hless, hcols, hback⟩
    refine ⟨_, count, _, rfl, ⟨htwo, rfl⟩, cols, tail, rfl, hless,
      fun col hcol => exists_takesColumn.mpr (hcols col hcol), ?_⟩
    change LengthBack (behind ++ count ++ cols.flatten).length tail
    rwa [List.length_append, List.length_append, htwo]

theorem calm_rel (d : Decoder) (relId : Int) :
    Calm (d.rel relId) fun found taken =>
      d.rels.lookup relId = some found ∧ taken = [] := by
  rw [Decoder.rel]
  cases d.rels.lookup relId with
  | none =>
      refine (behaves_throw (by simp)).congr
        (fun _ _ _ _ _ _ => iff_of_false id fun h => ?_) fun _ _ _ _ => Iff.rfl
      cases h.1
  | some found =>
      refine (behaves_pure found).congr (fun _ _ _ _ value _ => ?_)
        fun _ _ _ _ => Iff.rfl
      rw [Option.some.injEq, eq_comm]

/-- A tuple, and the change that is made of it. -/
theorem failsAt_lastTuple (d : Decoder) (relId : Int)
    (result : List (Option String) × List Bool → RelMeta → Change) :
    FailsAt Stands .panicked
      (tuple >>= fun columns => d.rel relId >>= fun rel =>
        pure (some (result columns rel), d))
      fun behind ahead => TupleBack behind.length ahead := by
  intro c behind ahead hst
  refine (behaves_tuple.bind_failsAt (fun columns => ((calm_rel d relId).map
    fun rel => (some (result columns rel), d)).fails) hst).trans ?_
  exact or_iff_left fun ⟨_, _, _, _, _, hno⟩ => hno

theorem calm_failsAt {β : Type} {first : CurM α} {next : α → CurM β}
    {Takes : α → List UInt8 → Prop}
    {FailsNext : α → List UInt8 → List UInt8 → Prop} (hfirst : Calm first Takes)
    (hnext : ∀ value, FailsAt Stands .panicked (next value) (FailsNext value)) :
    FailsAt Stands .panicked (first >>= next)
      fun behind ahead => ∃ value one tail, ahead = one ++ tail ∧
        Takes value one ∧ FailsNext value (behind ++ one) tail := by
  intro c behind ahead hst
  exact (hfirst.bind_failsAt hnext hst).trans (or_iff_right id)

abbrev Never (reader : CurM α) : Prop :=
  FailsAt Stands .panicked reader fun _ _ => False

theorem never_bind {β : Type} {first : CurM α} {next : α → CurM β}
    {Takes : α → List UInt8 → Prop} (hfirst : Calm first Takes)
    (hnext : ∀ value, Never (next value)) : Never (first >>= next) := by
  intro c behind ahead hst
  refine (calm_failsAt hfirst hnext hst).trans (iff_of_false ?_ id)
  exact fun ⟨_, _, _, _, _, hno⟩ => hno

theorem never_pure (value : α) : Never (pure value) :=
  (behaves_pure value).fails

/-- The columns of a relation. -/
theorem exists_calm_relationColumn :
    ∃ Takes, Calm relationColumn Takes :=
  ⟨_, (calm_bind calm_u8 fun flags => calm_bind calm_cstr fun name =>
    (calm_skip (n := 8) (by decide)).map fun _ => (name, decide (flags &&& 1 = 1))).congr
      (fun _ _ _ _ _ _ => Iff.rfl) fun _ _ _ _ =>
        iff_of_false (by simp) id⟩

theorem never_relation (d : Decoder) :
    Never (do
      let relId ← i32
      let schema ← cstr
      let table ← cstr
      skip 1
      let ncol ← i16
      let cols ← times relationColumn ncol.toNat
      pure ((none : Option Change),
        { d with rels := (relId, ⟨schema, table, cols⟩) :: d.rels })) := by
  obtain ⟨Takes, hcolumn⟩ := exists_calm_relationColumn
  have hcolumns : ∀ n, Calm (times relationColumn n)
      fun values taken => values.length = n ∧ TakesEach Takes values taken :=
    fun n => (hcolumn.times n).congr (fun _ _ _ _ _ _ => Iff.rfl)
      fun _ _ _ _ => iff_of_false (fun ⟨_, _, _, _, _, hno⟩ => hno) id
  exact never_bind calm_i32 fun _ => never_bind calm_cstr fun _ =>
    never_bind calm_cstr fun _ => never_bind (calm_skip (n := 1) (by decide)) fun _ =>
      never_bind calm_i16 fun ncol => never_bind (hcolumns ncol.toNat) fun _ =>
        never_pure _

/-- The time of a transaction. -/
theorem failsAt_begin (d : Decoder) :
    FailsAt Stands .panicked
      (do skip 8
          let pgMicros ← i64
          let micros ← commitMicros pgMicros
          pure ((none : Option Change), { d with curCommitMicros := micros }))
      fun _ ahead => ∃ lsn ts tail, ahead = lsn ++ (ts ++ tail) ∧
        lsn.length = 8 ∧ ts.length = 8 ∧
        2 ^ 63 ≤ signed 64 (ofBigEndian ts) + 946684800 * 1000000 := by
  intro c behind ahead hst
  have hmicros : ∀ pgMicros, FailsAt Stands .panicked
      (do let micros ← commitMicros pgMicros
          pure ((none : Option Change), { d with curCommitMicros := micros }))
      fun _ _ => 2 ^ 63 ≤ pgMicros.toInt + EPOCH_MICROS.toInt := by
    intro pgMicros c behind ahead hst
    by_cases hfits : pgMicros.toInt + EPOCH_MICROS.toInt < 2 ^ 63
    · rw [commitMicros, if_pos hfits]
      exact iff_of_false (fun h => by cases h) (not_le.mpr hfits)
    · rw [commitMicros, if_neg hfits]
      exact iff_of_true rfl (not_lt.mp hfits)
  refine (calm_failsAt (calm_skip (by decide)) (fun _ =>
    calm_failsAt calm_i64 hmicros) hst).trans ⟨?_, ?_⟩
  · rintro ⟨_, lsn, _, rfl, hlsn, _, ts, tail, rfl, ⟨hts, rfl⟩, hlate⟩
    exact ⟨lsn, ts, tail, rfl, hlsn, hts, hlate⟩
  · rintro ⟨lsn, ts, tail, rfl, hlsn, hts, hlate⟩
    exact ⟨(), lsn, _, rfl, hlsn, _, ts, tail, rfl, ⟨hts, rfl⟩, hlate⟩

/-- A message of one tuple. -/
theorem failsAt_oneTuple (d : Decoder)
    (result : List (Option String) × List Bool → RelMeta → Change) :
    FailsAt Stands .panicked
      (do let relId ← i32
          skip 1
          let columns ← tuple
          let rel ← d.rel relId
          pure (some (result columns rel), d))
      fun behind ahead => ∃ oid kind rest, ahead = oid ++ kind :: rest ∧
        oid.length = 4 ∧ TupleBack (behind.length + 5) rest := by
  intro c behind ahead hst
  refine (calm_failsAt calm_i32 (fun relId => calm_failsAt
    (calm_skip (by decide)) fun _ => failsAt_lastTuple d relId result) hst).trans
      ⟨?_, ?_⟩
  · rintro ⟨_, oid, _, rfl, ⟨hfour, -⟩, _, skipped, rest, rfl, hone, hback⟩
    obtain ⟨kind, rfl⟩ := List.length_eq_one_iff.mp hone
    rw [List.length_append, List.length_append, hfour] at hback
    exact ⟨oid, kind, rest, rfl, hfour, hback⟩
  · rintro ⟨oid, kind, rest, rfl, hfour, hback⟩
    refine ⟨_, oid, _, rfl, ⟨hfour, rfl⟩, (), [kind], rest, rfl, rfl, ?_⟩
    rwa [List.length_append, List.length_append, hfour]

theorem behaves_oldTuple (first : UInt8) :
    Behaves Stands .panicked (oldTuple first)
      (fun given taken => if first = byte 'K' ∨ first = byte 'O' then
          ∃ columns old tag, taken = old ++ [tag] ∧ TakesTuple columns old ∧
            given = (columns.1, tag)
        else given = ([], first) ∧ taken = [])
      (fun behind ahead => if first = byte 'K' ∨ first = byte 'O' then
          TupleBack behind.length ahead else False) := by
  refine Behaves.ite (fun _ => ?_) fun _ => behaves_pure _
  refine (behaves_tuple.bind fun columns =>
    calm_u8.map fun tag => (columns.1, tag)).congr
      (fun _ _ taken _ given _ => ⟨?_, ?_⟩) fun _ behind ahead _ => ?_
  · rintro ⟨columns, old, _, rfl, hold, tag, rfl, rfl⟩
    exact ⟨columns, old, tag, rfl, hold, rfl⟩
  · rintro ⟨columns, old, tag, rfl, hold, rfl⟩
    exact ⟨columns, old, [tag], rfl, hold, tag, rfl, rfl⟩
  · exact or_iff_left fun ⟨_, _, _, _, _, hno⟩ => hno

/-- The new tuple stands behind its tag, and behind the old one if there is one. -/
theorem failsAt_newTuple (d : Decoder) (relId : Int) (first : UInt8) :
    FailsAt Stands .panicked
      (do let (keyVals, tag) ← oldTuple first
          if tag ≠ byte 'N' then
            throw (.error (.failure
              ("pgoutput UPDATE: unexpected tuple tag " ++ asChar tag)))
          else
            let (newVals, newUnchanged) ← tuple
            let rel ← d.rel relId
            pure (some (d.make rel .update newVals newUnchanged keyVals), d))
      fun behind ahead =>
        first = byte 'N' ∧ TupleBack behind.length ahead ∨
          (first = byte 'K' ∨ first = byte 'O') ∧
            (TupleBack behind.length ahead ∨
              ∃ old rest, ahead = old ++ byte 'N' :: rest ∧ IsTuple old ∧
                TupleBack (behind.length + old.length + 1) rest) := by
  intro c behind ahead hst
  have hlast : ∀ given : List (Option String) × UInt8,
      FailsAt Stands .panicked
        (if given.2 ≠ byte 'N' then
          throw (.error (.failure
            ("pgoutput UPDATE: unexpected tuple tag " ++ asChar given.2)))
        else
          tuple >>= fun columns => d.rel relId >>= fun rel =>
            pure (some (d.make rel .update columns.1 columns.2 given.1), d))
        fun behind ahead =>
          if given.2 ≠ byte 'N' then False else TupleBack behind.length ahead :=
    fun given => (behaves_throw (by simp)).fails.ite
      (failsAt_lastTuple d relId fun columns rel =>
        d.make rel .update columns.1 columns.2 given.1)
  have hN : ¬ (byte 'N' = byte 'K' ∨ byte 'N' = byte 'O') := by decide
  refine ((behaves_oldTuple first).bind_failsAt hlast hst).trans ?_
  by_cases hold : first = byte 'K' ∨ first = byte 'O'
  · have hfirst : first ≠ byte 'N' := fun h => hN (h ▸ hold)
    simp only [hold, if_true, hfirst, false_and, false_or, true_and]
    refine or_congr_right ⟨?_, ?_⟩
    · rintro ⟨_, _, rest, rfl, ⟨columns, old, tag, rfl, htuple, rfl⟩, hback⟩
      split at hback
      next => exact hback.elim
      next htag =>
        have htag : tag = byte 'N' := not_not.mp htag
        rw [List.length_append, List.length_append] at hback
        refine ⟨old, rest, ?_, exists_takesTuple.mp ⟨_, htuple⟩, hback⟩
        rw [htag, List.append_assoc]
        rfl
    · rintro ⟨old, rest, rfl, htuple, hback⟩
      obtain ⟨columns, hcolumns⟩ := exists_takesTuple.mpr htuple
      refine ⟨(columns.1, byte 'N'), old ++ [byte 'N'], rest, ?_,
        ⟨columns, old, _, rfl, hcolumns, rfl⟩, ?_⟩
      · rw [List.append_assoc]
        rfl
      · rw [if_neg (not_not.mpr rfl), List.length_append, List.length_append]
        exact hback
  · simp only [hold, if_false, false_and, or_false, false_or]
    constructor
    · rintro ⟨_, _, rest, rfl, ⟨rfl, rfl⟩, hback⟩
      split at hback
      next => exact hback.elim
      next htag =>
        rw [List.append_nil] at hback
        exact ⟨not_not.mp htag, hback⟩
    · rintro ⟨rfl, hback⟩
      refine ⟨([], byte 'N'), [], ahead, rfl, ⟨rfl, rfl⟩, ?_⟩
      rw [if_neg (not_not.mpr rfl), List.append_nil]
      exact hback

theorem failsAt_update (d : Decoder) :
    FailsAt Stands .panicked
      (do let relId ← i32
          let first ← u8
          let (keyVals, tag) ← oldTuple first
          if tag ≠ byte 'N' then
            throw (.error (.failure
              ("pgoutput UPDATE: unexpected tuple tag " ++ asChar tag)))
          else
            let (newVals, newUnchanged) ← tuple
            let rel ← d.rel relId
            pure (some (d.make rel .update newVals newUnchanged keyVals), d))
      fun behind ahead => ∃ oid kind rest, ahead = oid ++ kind :: rest ∧
        oid.length = 4 ∧
        (kind = byte 'N' ∧ TupleBack (behind.length + 5) rest ∨
          (kind = byte 'K' ∨ kind = byte 'O') ∧
            (TupleBack (behind.length + 5) rest ∨
              ∃ old last, rest = old ++ byte 'N' :: last ∧ IsTuple old ∧
                TupleBack (behind.length + 5 + old.length + 1) last)) := by
  intro c behind ahead hst
  refine (calm_failsAt calm_i32 (fun relId => calm_failsAt calm_u8
    fun first => failsAt_newTuple d relId first) hst).trans ⟨?_, ?_⟩
  · rintro ⟨_, oid, _, rfl, ⟨hfour, -⟩, kind, _, rest, rfl, rfl, hback⟩
    rw [List.length_append, List.length_append, hfour] at hback
    exact ⟨oid, kind, rest, rfl, hfour, hback⟩
  · rintro ⟨oid, kind, rest, rfl, hfour, hback⟩
    refine ⟨_, oid, _, rfl, ⟨hfour, rfl⟩, kind, [kind], rest, rfl, rfl, ?_⟩
    rwa [List.length_append, List.length_append, hfour]

/-- Where a message fails is told by its tag. -/
theorem fails_message (d : Decoder) {data : List UInt8}
    (hshort : data.length < 2 ^ 31) :
    message d ⟨data, 0⟩ = .error .panicked ↔
      PointsBack data ∨ LateCommit data := by
  have hinsert := failsAt_oneTuple d fun columns rel =>
    d.make rel .insert columns.1 columns.2 []
  have hdelete := failsAt_oneTuple d fun columns rel =>
    d.make rel .delete [] [] columns.1
  have htags := calm_failsAt calm_u8 fun tag =>
    FailsAt.ite (c := tag = byte 'B') (failsAt_begin d)
      (FailsAt.ite (c := tag = byte 'C') (never_pure (none, d))
        (FailsAt.ite (c := tag = byte 'R') (never_relation d)
          (FailsAt.ite (c := tag = byte 'I') hinsert
            (FailsAt.ite (c := tag = byte 'U') (failsAt_update d)
              (FailsAt.ite (c := tag = byte 'D') hdelete
                (never_pure (none, d)))))))
  have hst : Stands ⟨data, 0⟩ [] data := ⟨rfl, rfl, hshort⟩
  have hsum : ∀ (tag : UInt8) (old : List UInt8),
      ([] ++ [tag]).length + 5 + old.length + 1 = 7 + old.length := by
    intro tag old
    rw [List.nil_append, List.length_singleton]
    omega
  refine (htags hst).trans ⟨?_, ?_⟩
  · rintro ⟨tag, _, rest, rfl, rfl, hfails⟩
    by_cases hbegin : tag = byte 'B'
    · rw [if_pos hbegin] at hfails
      obtain ⟨lsn, ts, tail, rfl, hlate⟩ := hfails
      exact .inr ⟨lsn, ts, tail, by rw [hbegin]; rfl, hlate⟩
    rw [if_neg hbegin] at hfails
    by_cases hcommit : tag = byte 'C'
    · rw [if_pos hcommit] at hfails
      exact hfails.elim
    rw [if_neg hcommit] at hfails
    by_cases hrelation : tag = byte 'R'
    · rw [if_pos hrelation] at hfails
      exact hfails.elim
    rw [if_neg hrelation] at hfails
    by_cases hI : tag = byte 'I'
    · rw [if_pos hI] at hfails
      obtain ⟨oid, kind, ahead, rfl, hfour, hback⟩ := hfails
      exact .inl ⟨tag, oid, kind, ahead, rfl, hfour, .inl ⟨.inl hI, hback⟩⟩
    rw [if_neg hI] at hfails
    by_cases hU : tag = byte 'U'
    · rw [if_pos hU] at hfails
      obtain ⟨oid, kind, ahead, rfl, hfour, ⟨hnew, hback⟩ | ⟨hold, hback⟩⟩ :=
        hfails
      · exact .inl ⟨tag, oid, kind, ahead, rfl, hfour,
          .inl ⟨.inr (.inr ⟨hU, hnew⟩), hback⟩⟩
      · refine .inl ⟨tag, oid, kind, ahead, rfl, hfour, .inr ⟨hU, hold, ?_⟩⟩
        refine hback.imp_right fun ⟨old, last, hsplit, htuple, hback⟩ =>
          ⟨old, last, hsplit, htuple, ?_⟩
        rwa [hsum] at hback
    rw [if_neg hU] at hfails
    by_cases hD : tag = byte 'D'
    · rw [if_pos hD] at hfails
      obtain ⟨oid, kind, ahead, rfl, hfour, hback⟩ := hfails
      exact .inl ⟨tag, oid, kind, ahead, rfl, hfour, .inl ⟨.inr (.inl hD), hback⟩⟩
    · rw [if_neg hD] at hfails
      exact hfails.elim
  · rintro (⟨tag, oid, kind, ahead, rfl, hfour, ⟨htag, hback⟩ | ⟨rfl, hold, hback⟩⟩ |
      ⟨lsn, ts, tail, rfl, hlate⟩)
    · refine ⟨tag, [tag], _, rfl, rfl, ?_⟩
      rcases htag with rfl | rfl | ⟨rfl, rfl⟩
      · exact ⟨oid, kind, ahead, rfl, hfour, hback⟩
      · exact ⟨oid, kind, ahead, rfl, hfour, hback⟩
      · exact ⟨oid, _, ahead, rfl, hfour, .inl ⟨rfl, hback⟩⟩
    · refine ⟨_, [_], _, rfl, rfl, ?_⟩
      refine ⟨oid, kind, ahead, rfl, hfour, .inr ⟨hold, ?_⟩⟩
      refine hback.imp_right fun ⟨old, last, hsplit, htuple, hback⟩ =>
        ⟨old, last, hsplit, htuple, ?_⟩
      rwa [hsum]
    · exact ⟨_, [_], _, rfl, rfl, lsn, ts, tail, rfl, hlate⟩

end Languages

section Feeds

/-- What a decoder answers to one message after the other; an error leaves it as
it is, and a panic is the end of it. -/
def feeds (d : Decoder) :
    List (List UInt8) → List (Except Halt (Option Change))
  | [] => []
  | data :: rest =>
      match feed d data with
      | .ok (change, next) => .ok change :: feeds next rest
      | .error (.error err) => .error (.error err) :: feeds d rest
      | .error .panicked => [.error .panicked]

theorem feed_eq_panicked {d : Decoder} {data : List UInt8}
    (hshort : data.length < 2 ^ 31) :
    feed d data = .error .panicked ↔ PointsBack data ∨ LateCommit data := by
  rw [← fails_message d hshort, feed, StateT.run]
  cases message d ⟨data, 0⟩ with
  | error e => exact ⟨fun h => by cases h; rfl, fun h => by cases h; rfl⟩
  | ok pair => exact iff_of_false (fun h => by cases h) fun h => by cases h

/-- Every message is answered just if none of them points back and none is of a
commit beyond the times. -/
theorem feeds_answered_iff (d : Decoder) (messages : List (List UInt8))
    (hshort : ∀ data ∈ messages, data.length < 2 ^ 31) :
    (∀ answer ∈ feeds d messages, answer ≠ .error .panicked) ↔
      ∀ data ∈ messages, ¬ PointsBack data ∧ ¬ LateCommit data := by
  induction messages generalizing d with
  | nil => exact iff_of_true (List.forall_mem_nil _) (List.forall_mem_nil _)
  | cons data rest ih =>
      obtain ⟨hdata, hrest⟩ := List.forall_mem_cons.mp hshort
      have hpanics := feed_eq_panicked (d := d) hdata
      rw [List.forall_mem_cons, feeds, ← not_or, ← hpanics]
      split
      next change next hfeed =>
        rw [List.forall_mem_cons, ih next hrest, hfeed]
        exact and_congr_left' (iff_of_true (fun h => by cases h)
          fun h => by cases h)
      next err hfeed =>
        rw [List.forall_mem_cons, ih d hrest, hfeed]
        exact and_congr_left' (iff_of_true (fun h => by cases h)
          fun h => by cases h)
      next hfeed =>
        rw [List.forall_mem_singleton, hfeed]
        exact iff_of_false (fun h => h rfl) fun h => h.1 rfl

/-- A row whose only text is of one byte less than nothing. -/
def negativeText : List UInt8 :=
  [byte 'I', 0, 0, 0, 1, byte 'N', 0, 1, byte 't', 255, 255, 255, 255]

/-- A row whose text is cut. -/
def cutText : List UInt8 :=
  [byte 'I', 0, 0, 0, 1, byte 'N', 0, 1, byte 't', 0, 0, 0, 9, 120]

theorem feeds_answered_iff_cutText :
    cutText.length < 2 ^ 31 ∧
      ((∀ answer ∈ feeds .new [cutText], answer ≠ .error .panicked) ↔
        ∀ data ∈ [cutText], ¬ PointsBack data ∧ ¬ LateCommit data) :=
  ⟨by decide, feeds_answered_iff .new [cutText]
    (List.forall_mem_singleton.mpr (by decide))⟩

/-- A transaction at the last of the times. -/
def lastTime : List UInt8 :=
  byte 'B' :: (List.replicate 8 0 ++ 127 :: List.replicate 7 255)

/-- With overflow checks the addition panics, and without them the slice does. -/
theorem negativeText_panics :
    (negativeText.length < 2 ^ 31 ∧
        ¬ ∀ answer ∈ feeds .new [negativeText], answer ≠ .error .panicked) ∧
      (lastTime.length < 2 ^ 31 ∧
        ¬ ∀ answer ∈ feeds .new [lastTime], answer ≠ .error .panicked) ∧
      Decoder.new.feed negativeText = .error .panicked := by
  refine ⟨⟨by decide, fun hall => ?_⟩, ⟨by decide, fun hall => ?_⟩, rfl⟩
  · exact hall (.error .panicked) (by exact List.mem_singleton_self _) rfl
  · exact hall (.error .panicked) (by exact List.mem_singleton_self _) rfl

end Feeds

end Checked

end Postgres

end XBackup
