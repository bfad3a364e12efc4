/-
Streams of tagged frames: a byte that says what follows, and behind some tags a
body that is measured by a length.
-/
import XBackup.Foundation.Bytes
import XBackup.Foundation.Streams

namespace Framing

open Bytes Streams

def littleEndian (width n : Nat) : List UInt8 :=
  (bigEndian width n).reverse

def ofLittleEndian (bytes : List UInt8) : Nat :=
  ofBigEndian bytes.reverse

@[simp] theorem length_littleEndian (width n : Nat) :
    (littleEndian width n).length = width := by
  rw [littleEndian, List.length_reverse, length_bigEndian]

theorem ofLittleEndian_littleEndian {width n : Nat} (hn : n < 256 ^ width) :
    ofLittleEndian (littleEndian width n) = n := by
  rw [ofLittleEndian, littleEndian, List.reverse_reverse,
    ofBigEndian_bigEndian, Nat.mod_eq_of_lt hn]

/-- What follows a tag: nothing, a document whose first four bytes count all of
it, or data whose length stands before it. -/
inductive Shape where
  | bare
  | document
  | data
deriving DecidableEq, Repr

structure Format where
  shape : UInt8 → Option Shape
  endTag : UInt8
  maxBytes : Nat

structure Frame where
  tag : UInt8
  body : List UInt8
deriving DecidableEq, Repr, Inhabited

/-- Why a frame cannot be read. -/
inductive Fault where
  | corruptTag (tag : UInt8)
  | noLength (shape : Shape)
  | badLength (shape : Shape) (length : Nat)
  | noBody (shape : Shape)
deriving DecidableEq, Repr

/-- The next `n` bytes, and what is left behind them. -/
def readExact (n : Nat) (input : List UInt8) :
    Option (List UInt8 × List UInt8) :=
  if n ≤ input.length then some (input.take n, input.drop n) else none

def readDocument (maxBytes : Nat) (input : List UInt8) :
    Except Fault (List UInt8 × List UInt8) :=
  match readExact 4 input with
  | none => .error (.noLength .document)
  | some (head, rest) =>
      let length := ofLittleEndian head
      if 5 ≤ length ∧ length ≤ maxBytes then
        match readExact (length - 4) rest with
        | none => .error (.noBody .document)
        | some (body, rest) => .ok (head ++ body, rest)
      else .error (.badLength .document length)

def readData (maxBytes : Nat) (input : List UInt8) :
    Except Fault (List UInt8 × List UInt8) :=
  match readExact 4 input with
  | none => .error (.noLength .data)
  | some (head, rest) =>
      let length := ofLittleEndian head
      if length = 0 ∨ maxBytes < length then .error (.badLength .data length)
      else
        match readExact length rest with
        | none => .error (.noBody .data)
        | some (body, rest) => .ok (body, rest)

variable (f : Format)

def readBody : Shape → List UInt8 → Except Fault (List UInt8 × List UInt8)
  | .bare, input => .ok ([], input)
  | .document, input => readDocument f.maxBytes input
  | .data, input => readData f.maxBytes input

/-- The next frame; none at the end tag, and at the end of the stream. -/
def readFrame : List UInt8 → Except Fault (Option (Frame × List UInt8))
  | [] => .ok none
  | tag :: rest =>
      if tag = f.endTag then .ok none
      else
        match f.shape tag with
        | none => .error (.corruptTag tag)
        | some shape => (readBody f shape rest).map fun (body, rest) =>
            some (⟨tag, body⟩, rest)

def Frame.encode (frame : Frame) : List UInt8 :=
  frame.tag ::
    match f.shape frame.tag with
    | some .data => littleEndian 4 frame.body.length ++ frame.body
    | _ => frame.body

def encodeAll (frames : List Frame) : List UInt8 :=
  frames.flatMap (Frame.encode f)

/-- A frame as it is written: a document counts itself, and no data is empty.
Only the reader has a bound. -/
def Written (frame : Frame) : Prop :=
  frame.tag ≠ f.endTag ∧ frame.body.length < 2 ^ 32 ∧
    match f.shape frame.tag with
    | none => False
    | some .bare => frame.body = []
    | some .document => 5 ≤ frame.body.length ∧
        frame.body.take 4 = littleEndian 4 frame.body.length
    | some .data => frame.body ≠ []

section Reading

variable {f} {frame : Frame} {tail part : List UInt8} {maxBytes : Nat}

theorem readExact_append {taken : List UInt8} {n : Nat}
    (hn : taken.length = n) :
    readExact n (taken ++ tail) = some (taken, tail) := by
  subst hn
  rw [readExact, if_pos (by simp), List.take_left, List.drop_left]

theorem readExact_eq_none {n : Nat} (hn : part.length < n) :
    readExact n part = none :=
  if_neg (by omega)

theorem readExact_length {n : Nat} {taken rest : List UInt8}
    (hread : readExact n part = some (taken, rest)) :
    rest.length + n = part.length := by
  rw [readExact] at hread
  split at hread
  next hle =>
    cases hread
    rw [List.length_drop, Nat.sub_add_cancel hle]
  next => cases hread

/-- Of what is written of a document, just the bound of the reader may be in the
way. -/
theorem readDocument_append {body : List UInt8} (hfive : 5 ≤ body.length)
    (hlt : body.length < 2 ^ 32)
    (hcount : body.take 4 = littleEndian 4 body.length) :
    readDocument maxBytes (body ++ tail) =
      if body.length ≤ maxBytes then .ok (body, tail)
      else .error (.badLength .document body.length) := by
  have hsplit : body ++ tail = body.take 4 ++ (body.drop 4 ++ tail) := by
    rw [← List.append_assoc, List.take_append_drop]
  have hhead : (body.take 4).length = 4 := by
    rw [List.length_take]
    omega
  have hlength : ofLittleEndian (body.take 4) = body.length := by
    rw [hcount]
    exact ofLittleEndian_littleEndian hlt
  have hrest : (body.drop 4).length = body.length - 4 := List.length_drop
  rw [readDocument, hsplit, readExact_append hhead]
  simp only [hlength]
  by_cases hmax : body.length ≤ maxBytes
  · rw [if_pos ⟨hfive, hmax⟩, if_pos hmax, readExact_append hrest]
    simp only [List.take_append_drop]
  · rw [if_neg (fun h => hmax h.2), if_neg hmax]

theorem readData_append {body : List UInt8} (hsome : body ≠ [])
    (hlt : body.length < 2 ^ 32) :
    readData maxBytes (littleEndian 4 body.length ++ body ++ tail) =
      if body.length ≤ maxBytes then .ok (body, tail)
      else .error (.badLength .data body.length) := by
  have hlength : ofLittleEndian (littleEndian 4 body.length) = body.length :=
    ofLittleEndian_littleEndian hlt
  have hpos : body.length ≠ 0 := fun hzero =>
    hsome (List.length_eq_zero_iff.mp hzero)
  rw [readData, List.append_assoc, readExact_append (length_littleEndian 4 _)]
  simp only [hlength]
  by_cases hmax : body.length ≤ maxBytes
  · rw [if_neg (by omega), if_pos hmax, readExact_append rfl]
  · rw [if_pos (by omega), if_neg hmax]

/-- A written frame is read back, unless it is over the bound. -/
theorem readFrame_encode (hframe : Written f frame) :
    ∃ fault, ∀ tail, readFrame f (frame.encode f ++ tail) =
      if frame.body.length ≤ f.maxBytes then .ok (some (frame, tail))
      else .error fault := by
  obtain ⟨htag, hlt, hshape⟩ := hframe
  obtain ⟨tag, body⟩ := frame
  cases hkind : f.shape tag with
  | none =>
      rw [hkind] at hshape
      exact hshape.elim
  | some shape =>
      refine ⟨.badLength shape body.length, fun tail => ?_⟩
      rw [Frame.encode, List.cons_append, readFrame, if_neg htag]
      simp only [hkind] at hshape hlt ⊢
      cases shape with
      | bare =>
          dsimp only at hshape
          subst hshape
          simp [readBody, Except.map]
      | document =>
          have hread := @readDocument_append tail f.maxBytes body hshape.1 hlt
            hshape.2
          simp only [readBody, hread]
          split <;> rfl
      | data =>
          have hread := @readData_append tail f.maxBytes body hshape hlt
          simp only [readBody, hread]
          split <;> rfl

theorem readDocument_length {input body rest : List UInt8}
    (hread : readDocument maxBytes input = .ok (body, rest)) :
    rest.length < input.length := by
  rw [readDocument] at hread
  cases hhead : readExact 4 input with
  | none =>
      rw [hhead] at hread
      cases hread
  | some first =>
      obtain ⟨head, more⟩ := first
      simp only [hhead] at hread
      split at hread
      next =>
        cases hbody : readExact (ofLittleEndian head - 4) more with
        | none =>
            simp only [hbody] at hread
            cases hread
        | some second =>
            simp only [hbody] at hread
            cases hread
            have hfirst := readExact_length hhead
            have hsecond := readExact_length hbody
            omega
      next => cases hread

theorem readData_length {input body rest : List UInt8}
    (hread : readData maxBytes input = .ok (body, rest)) :
    rest.length ≤ input.length := by
  rw [readData] at hread
  cases hhead : readExact 4 input with
  | none =>
      rw [hhead] at hread
      cases hread
  | some first =>
      obtain ⟨head, more⟩ := first
      simp only [hhead] at hread
      split at hread
      next => cases hread
      next =>
        cases hbody : readExact (ofLittleEndian head) more with
        | none =>
            simp only [hbody] at hread
            cases hread
        | some second =>
            simp only [hbody] at hread
            cases hread
            have hfirst := readExact_length hhead
            have hsecond := readExact_length hbody
            omega

theorem readBody_length {shape : Shape} {input body rest : List UInt8}
    (hread : readBody f shape input = .ok (body, rest)) :
    rest.length ≤ input.length := by
  cases shape with
  | bare =>
      cases hread
      exact Nat.le_refl _
  | document => exact (readDocument_length hread).le
  | data => exact readData_length hread

/-- A frame that is read takes bytes away. -/
theorem readFrame_length {input rest : List UInt8}
    (hread : readFrame f input = .ok (some (frame, rest))) :
    rest.length < input.length := by
  cases input with
  | nil => cases hread
  | cons tag input =>
      rw [readFrame] at hread
      split at hread
      next => cases hread
      next =>
        cases hshape : f.shape tag with
        | none =>
            rw [hshape] at hread
            cases hread
        | some shape =>
            simp only [hshape] at hread
            cases hbody : readBody f shape input with
            | error fault =>
                simp only [hbody] at hread
                cases hread
            | ok taken =>
                simp only [hbody] at hread
                cases hread
                have hle := readBody_length hbody
                rw [List.length_cons]
                omega

theorem length_lt_of_cut {whole : List UInt8} (hbefore : part <+: whole)
    (hcut : part ≠ whole) : part.length < whole.length :=
  lt_of_le_of_ne hbefore.length_le fun hlength =>
    hcut (hbefore.eq_of_length hlength)

/-- A document that is cut behind its length. -/
theorem readDocument_cut_body {body : List UInt8} (hlt : body.length < 2 ^ 32)
    (hcount : body.take 4 = littleEndian 4 body.length)
    (hbefore : part <+: body) (hcut : part ≠ body) (hfour : 4 ≤ part.length) :
    ∃ fault, (∀ shape, fault ≠ .noLength shape) ∧
      readDocument maxBytes part = .error fault := by
  have hshort := length_lt_of_cut hbefore hcut
  have hhead : part.take 4 = body.take 4 := by
    obtain ⟨more, rfl⟩ := hbefore
    rw [List.take_append_of_le_length hfour]
  have hlength : ofLittleEndian (part.take 4) = body.length := by
    rw [hhead, hcount]
    exact ofLittleEndian_littleEndian hlt
  have hrest : (part.drop 4).length < body.length - 4 := by
    rw [List.length_drop]
    omega
  rw [readDocument, readExact, if_pos hfour]
  simp only [hlength, readExact_eq_none hrest]
  split
  next => exact ⟨.noBody .document, fun _ => nofun, rfl⟩
  next => exact ⟨.badLength .document _, fun _ => nofun, rfl⟩

theorem readDocument_cut {body : List UInt8} (hlt : body.length < 2 ^ 32)
    (hcount : body.take 4 = littleEndian 4 body.length)
    (hbefore : part <+: body) (hcut : part ≠ body) :
    ∃ fault, readDocument maxBytes part = .error fault := by
  by_cases hfour : part.length < 4
  · rw [readDocument, readExact_eq_none hfour]
    exact ⟨_, rfl⟩
  · obtain ⟨fault, -, hfault⟩ := readDocument_cut_body hlt hcount hbefore hcut
      (Nat.le_of_not_lt hfour)
    exact ⟨fault, hfault⟩

theorem readData_cut {body : List UInt8} (hlt : body.length < 2 ^ 32)
    (hbefore : part <+: littleEndian 4 body.length ++ body)
    (hcut : part ≠ littleEndian 4 body.length ++ body) :
    ∃ fault, readData maxBytes part = .error fault := by
  have hshort := length_lt_of_cut hbefore hcut
  rw [List.length_append, length_littleEndian] at hshort
  rw [readData]
  by_cases hfour : part.length < 4
  · rw [readExact_eq_none hfour]
    exact ⟨_, rfl⟩
  · have hhead : part.take 4 = littleEndian 4 body.length := by
      have htake := hbefore.take 4
      rw [List.take_left' (length_littleEndian 4 _)] at htake
      refine htake.eq_of_length ?_
      rw [List.length_take, length_littleEndian]
      omega
    have hlength : ofLittleEndian (part.take 4) = body.length := by
      rw [hhead]
      exact ofLittleEndian_littleEndian hlt
    have hrest : (part.drop 4).length < body.length := by
      rw [List.length_drop]
      omega
    rw [readExact, if_pos (by omega)]
    simp only [hlength, readExact_eq_none hrest]
    split <;> exact ⟨_, rfl⟩

/-- A written frame that is cut behind its tag cannot be read. -/
theorem readFrame_cut (hframe : Written f frame) (hpart : part ≠ [])
    (hbefore : part <+: frame.encode f) (hcut : part ≠ frame.encode f) :
    ∃ fault, readFrame f part = .error fault := by
  obtain ⟨htag, hlt, hshape⟩ := hframe
  obtain ⟨tag, body⟩ := frame
  obtain ⟨first, more, rfl⟩ := List.exists_cons_of_ne_nil hpart
  rw [Frame.encode] at hbefore hcut
  obtain ⟨rfl, hmore⟩ := List.cons_prefix_cons.mp hbefore
  have hcut' : more ≠ _ := fun hsame => hcut (congrArg _ hsame)
  rw [readFrame, if_neg htag]
  dsimp only at hshape hlt hmore hcut' ⊢
  cases hkind : f.shape first with
  | none =>
      rw [hkind] at hshape
      exact hshape.elim
  | some shape =>
      simp only [hkind] at hshape hmore hcut' ⊢
      cases shape with
      | bare =>
          dsimp only at hshape hmore hcut'
          subst hshape
          exact absurd (List.prefix_nil.mp hmore) hcut'
      | document =>
          obtain ⟨fault, hfault⟩ :=
            @readDocument_cut more f.maxBytes body hlt hshape.2 hmore hcut'
          exact ⟨fault, by rw [readBody, hfault]; rfl⟩
      | data =>
          obtain ⟨fault, hfault⟩ := @readData_cut more f.maxBytes body hlt hmore hcut'
          exact ⟨fault, by rw [readBody, hfault]; rfl⟩

end Reading

def frameReader : Reader Frame Fault where
  step := readFrame f
  shrinks := readFrame_length

/-- The frames of a stream up to its end, or up to a frame that cannot be
read. -/
def frames (input : List UInt8) : List Frame × Option Fault :=
  (frameReader f).all input

section Streams

variable {f} {frame : Frame} {written : List Frame} {part tail : List UInt8}

/-- The stream ends where a frame may begin. -/
def Ends (f : Format) (tail : List UInt8) : Prop :=
  tail = [] ∨ ∃ more, tail = f.endTag :: more

theorem frames_of_ends (hends : Ends f tail) : frames f tail = ([], none) := by
  rcases hends with rfl | ⟨more, rfl⟩
  · exact all_of_end rfl
  · exact all_of_end (if_pos rfl)

/-- A written frame is read before what stands behind it, unless it is over the
bound. -/
theorem frames_cons (hframe : Written f frame) :
    ∃ fault, ∀ tail, frames f (frame.encode f ++ tail) =
      if frame.body.length ≤ f.maxBytes then
        (frame :: (frames f tail).1, (frames f tail).2)
      else ([], some fault) := by
  obtain ⟨fault, hread⟩ := readFrame_encode hframe
  refine ⟨fault, fun tail => ?_⟩
  have hstep : (frameReader f).step (frame.encode f ++ tail) = _ := hread tail
  by_cases hmax : frame.body.length ≤ f.maxBytes
  · rw [if_pos hmax] at hstep ⊢
    exact all_of_item hstep
  · rw [if_neg hmax] at hstep ⊢
    exact all_of_error hstep

theorem encodeAll_cons (frame : Frame) (written : List Frame)
    (tail : List UInt8) :
    encodeAll f (frame :: written) ++ tail =
      frame.encode f ++ (encodeAll f written ++ tail) := by
  rw [encodeAll, List.flatMap_cons, List.append_assoc]
  rfl

/-- Written frames are read back, up to one that is over the bound. -/
theorem frames_encodeAll (hwritten : ∀ frame ∈ written, Written f frame) :
    (∀ frame ∈ written, frame.body.length ≤ f.maxBytes) ∧
        frames f (encodeAll f written ++ tail) =
          (written ++ (frames f tail).1, (frames f tail).2) ∨
      ∃ front frame fault, front ++ [frame] <+: written ∧
        f.maxBytes < frame.body.length ∧
        frames f (encodeAll f written ++ tail) = (front, some fault) := by
  induction written with
  | nil => exact Or.inl ⟨nofun, rfl⟩
  | cons frame written ih =>
      obtain ⟨hframe, hrest⟩ := List.forall_mem_cons.mp hwritten
      obtain ⟨fault, hcons⟩ := frames_cons hframe
      rw [encodeAll_cons, hcons]
      by_cases hmax : frame.body.length ≤ f.maxBytes
      · rw [if_pos hmax]
        rcases ih hrest with ⟨hall, hsame⟩ |
          ⟨front, other, fault, hfront, hover, hsame⟩
        · rw [hsame]
          exact Or.inl ⟨List.forall_mem_cons.mpr ⟨hmax, hall⟩, rfl⟩
        · rw [hsame]
          exact Or.inr ⟨frame :: front, other, fault,
            List.cons_prefix_cons.mpr ⟨rfl, hfront⟩, hover, rfl⟩
      · rw [if_neg hmax]
        exact Or.inr ⟨[], frame, fault, List.cons_prefix_cons.mpr
          ⟨rfl, List.nil_prefix⟩, Nat.lt_of_not_le hmax, rfl⟩

/-- The end of the frames is the same with the end tag and without. -/
theorem frames_append_of_ends (hwritten : ∀ frame ∈ written, Written f frame)
    (hends : Ends f tail) :
    frames f (encodeAll f written ++ tail) = frames f (encodeAll f written) := by
  induction written with
  | nil => exact (frames_of_ends hends).trans (frames_of_ends (Or.inl rfl)).symm
  | cons frame written ih =>
      obtain ⟨hframe, hrest⟩ := List.forall_mem_cons.mp hwritten
      obtain ⟨fault, hcons⟩ := frames_cons hframe
      have hsplit : encodeAll f (frame :: written) =
          frame.encode f ++ encodeAll f written := List.flatMap_cons
      rw [encodeAll_cons, hsplit, hcons, hcons, ih hrest]

/-- A stream that ends within a frame is not read to an end. -/
theorem frames_torn (hwritten : ∀ frame ∈ written, Written f frame)
    (hframe : Written f frame) (htorn : Torn (Frame.encode f) frame part) :
    ∃ front fault, front <+: written ∧
      frames f (encodeAll f written ++ part) = (front, some fault) := by
  obtain ⟨hpart, hbefore, hcut⟩ := htorn
  obtain ⟨fault, hread⟩ := readFrame_cut hframe hpart hbefore hcut
  have hstep : (frameReader f).step part = .error fault := hread
  have hlast : frames f part = ([], some fault) := all_of_error hstep
  rcases @frames_encodeAll f written part hwritten with
    ⟨-, hsame⟩ | ⟨front, other, fault', hfront, -, hsame⟩
  · rw [hlast, List.append_nil] at hsame
    exact ⟨written, fault, List.prefix_refl _, hsame⟩
  · exact ⟨front, _, (List.prefix_append _ _).trans hfront, hsame⟩

end Streams

end Framing
