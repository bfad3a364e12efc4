/-
Texts in which what stands behind each token, up to the next stop, is rewritten.
What is between a token and its stop is not searched for tokens again.
-/
import XBackup.Foundation.Infixes

namespace TokenScan

universe u

variable {α : Type u} [DecidableEq α]

/-- The parts before and behind the last `mark`. -/
def rsplitOnceAt (mark : α) : List α → Option (List α × List α)
  | [] => none
  | a :: rest =>
      match rsplitOnceAt mark rest with
      | some (front, behind) => some (a :: front, behind)
      | none => if a = mark then some ([], rest) else none

/-- The parts before and behind the first token. -/
def splitAtToken (token : List α) : List α → Option (List α × List α)
  | [] => none
  | a :: rest =>
      if token <+: a :: rest then some ([], (a :: rest).drop token.length)
      else (splitAtToken token rest).map fun parts => (a :: parts.1, parts.2)

/-- How much of a text is passed over is counted down. -/
def scanFrom (token : List α) (stops : α → Bool) (rewrite : List α → List α) :
    Nat → List α → List α
  | _, [] => []
  | skip + 1, _ :: rest => scanFrom token stops rewrite skip rest
  | 0, a :: rest =>
      if token <+: a :: rest then
        let body := ((a :: rest).drop token.length).takeWhile fun b => !stops b
        token ++ rewrite body ++
          scanFrom token stops rewrite (token.length + body.length - 1) rest
      else a :: scanFrom token stops rewrite 0 rest

def scan (token : List α) (stops : α → Bool) (rewrite : List α → List α)
    (text : List α) : List α :=
  scanFrom token stops rewrite 0 text

section Split

variable {mark : α} {token text front behind : List α}

theorem rsplitOnceAt_eq_none_iff : rsplitOnceAt mark text = none ↔ mark ∉ text := by
  induction text with
  | nil => exact iff_of_true rfl List.not_mem_nil
  | cons a rest ih =>
      rw [rsplitOnceAt, List.mem_cons, not_or, ← ih]
      cases hrest : rsplitOnceAt mark rest with
      | some parts => simp
      | none =>
          by_cases ha : a = mark
          · simp [ha]
          · simp [ha, Ne.symm ha]

theorem eq_of_rsplitOnceAt (hsplit : rsplitOnceAt mark text = some (front, behind)) :
    text = front ++ mark :: behind ∧ mark ∉ behind := by
  induction text generalizing front with
  | nil => cases hsplit
  | cons a rest ih =>
      rw [rsplitOnceAt] at hsplit
      cases hrest : rsplitOnceAt mark rest with
      | some parts =>
          rw [hrest] at hsplit
          cases hsplit
          obtain ⟨heq, hbehind⟩ := ih hrest
          exact ⟨congrArg (a :: ·) heq, hbehind⟩
      | none =>
          rw [hrest] at hsplit
          dsimp only at hsplit
          split at hsplit
          next ha =>
            cases hsplit
            refine ⟨?_, rsplitOnceAt_eq_none_iff.mp hrest⟩
            rw [ha, List.nil_append]
          next => cases hsplit

theorem rsplitOnceAt_append (hbehind : mark ∉ behind) :
    rsplitOnceAt mark (front ++ mark :: behind) = some (front, behind) := by
  cases hsplit : rsplitOnceAt mark (front ++ mark :: behind) with
  | none =>
      exact absurd (List.mem_append_right _ List.mem_cons_self)
        (rsplitOnceAt_eq_none_iff.mp hsplit)
  | some parts =>
      obtain ⟨heq, hother⟩ := eq_of_rsplitOnceAt hsplit
      obtain ⟨hfront, hsame⟩ := Infixes.append_sep_inj hbehind hother heq
      rw [hfront, hsame]

theorem splitAtToken_eq_none (htoken : token ≠ [])
    (hnone : splitAtToken token text = none) : ¬ token <:+: text := by
  induction text with
  | nil => exact fun hinfix => htoken (List.infix_nil.mp hinfix)
  | cons a rest ih =>
      rw [splitAtToken] at hnone
      split at hnone
      next => cases hnone
      next hfront =>
        rw [List.infix_cons_iff, not_or]
        exact ⟨hfront, ih (Option.map_eq_none_iff.mp hnone)⟩

theorem splitAtToken_of_not_infix (hnot : ¬ token <:+: text) :
    splitAtToken token text = none := by
  induction text with
  | nil => rfl
  | cons a rest ih =>
      rw [List.infix_cons_iff, not_or] at hnot
      rw [splitAtToken, if_neg hnot.1, ih hnot.2]
      rfl

theorem splitAtToken_append (htoken : token ≠ []) (behind : List α) :
    splitAtToken token (token ++ behind) = some ([], behind) := by
  cases token with
  | nil => exact absurd rfl htoken
  | cons a rest =>
      have hfront : a :: rest <+: a :: (rest ++ behind) :=
        List.prefix_append (a :: rest) behind
      rw [List.cons_append, splitAtToken, if_pos hfront, ← List.cons_append,
        List.drop_left]

theorem splitAtToken_front {t : α} {more : List α} (ht : t ∉ front)
    (behind : List α) :
    splitAtToken (t :: more) (front ++ (t :: more ++ behind)) =
      some (front, behind) := by
  induction front with
  | nil => exact splitAtToken_append (List.cons_ne_nil t more) behind
  | cons a front ih =>
      obtain ⟨ha, hfront⟩ := not_or.mp fun hor => ht (List.mem_cons.mpr hor)
      rw [List.cons_append, splitAtToken,
        if_neg fun hpre => ha (List.cons_prefix_cons.mp hpre).1, ih hfront]
      rfl

/-- The parts of a split make up the text, with the token between them. -/
theorem eq_of_splitAtToken
    (hsplit : splitAtToken token text = some (front, behind)) :
    text = front ++ (token ++ behind) := by
  induction text generalizing front with
  | nil => cases hsplit
  | cons a rest ih =>
      rw [splitAtToken] at hsplit
      split at hsplit
      next hfront =>
        cases hsplit
        exact (List.prefix_iff_eq_append.mp hfront).symm
      next =>
        obtain ⟨parts, hparts, heq⟩ := Option.map_eq_some_iff.mp hsplit
        cases heq
        exact congrArg (a :: ·) (ih hparts)

/-- What is behind the first token does not matter for where it is. -/
theorem splitAtToken_other (htoken : token ≠ [])
    (hsplit : splitAtToken token text = some (front, behind)) (other : List α) :
    splitAtToken token (front ++ (token ++ other)) = some (front, other) := by
  induction text generalizing front with
  | nil => cases hsplit
  | cons a rest ih =>
      have htext := eq_of_splitAtToken hsplit
      rw [splitAtToken] at hsplit
      split at hsplit
      next hfront =>
        cases hsplit
        exact splitAtToken_append htoken other
      next hnot =>
        obtain ⟨parts, hparts, heq⟩ := Option.map_eq_some_iff.mp hsplit
        cases heq
        have hearlier : ¬ token <+: a :: (parts.1 ++ (token ++ other)) := by
          intro hfront
          have hlong : token <+: (a :: parts.1) ++ token :=
            List.prefix_of_prefix_length_le hfront
              (by rw [← List.append_assoc]; exact List.prefix_append ..)
              (by simp only [List.length_append, List.length_cons]; omega)
          refine hnot (hlong.trans ?_)
          rw [htext, ← List.append_assoc]
          exact List.prefix_append ..
        rw [List.cons_append, splitAtToken, if_neg hearlier, ih hparts]
        rfl

end Split

section Hide

variable {mark : α} {marker text front behind : List α}

/-- A marker in the place of all that is before the last `mark`. -/
def hideBefore (mark : α) (marker text : List α) : List α :=
  match rsplitOnceAt mark text with
  | some (_, behind) => marker ++ mark :: behind
  | none => text

theorem hideBefore_of_not_mem (hmark : mark ∉ text) :
    hideBefore mark marker text = text := by
  rw [hideBefore, rsplitOnceAt_eq_none_iff.mpr hmark]

theorem hideBefore_append (hbehind : mark ∉ behind) :
    hideBefore mark marker (front ++ mark :: behind) =
      marker ++ mark :: behind := by
  rw [hideBefore, rsplitOnceAt_append hbehind]

theorem exists_last (hmark : mark ∈ text) :
    ∃ front behind, text = front ++ mark :: behind ∧ mark ∉ behind := by
  cases hsplit : rsplitOnceAt mark text with
  | none => exact absurd hmark (rsplitOnceAt_eq_none_iff.mp hsplit)
  | some parts => exact ⟨parts.1, parts.2, eq_of_rsplitOnceAt hsplit⟩

theorem hideBefore_idem (text : List α) :
    hideBefore mark marker (hideBefore mark marker text) =
      hideBefore mark marker text := by
  by_cases hmark : mark ∈ text
  · obtain ⟨front, behind, rfl, hbehind⟩ := exists_last hmark
    rw [hideBefore_append hbehind, hideBefore_append hbehind]
  · rw [hideBefore_of_not_mem hmark, hideBefore_of_not_mem hmark]

theorem mem_hideBefore (hmark : mark ∈ text) :
    mark ∈ hideBefore mark marker text := by
  obtain ⟨front, behind, rfl, hbehind⟩ := exists_last hmark
  rw [hideBefore_append hbehind]
  exact List.mem_append_right _ List.mem_cons_self

theorem forall_mem_hideBefore {P : α → Prop} (hmarker : ∀ a ∈ marker, P a)
    (htext : ∀ a ∈ text, P a) : ∀ a ∈ hideBefore mark marker text, P a := by
  by_cases hmark : mark ∈ text
  · obtain ⟨front, behind, rfl, hbehind⟩ := exists_last hmark
    rw [hideBefore_append hbehind]
    exact List.forall_mem_append.mpr
      ⟨hmarker, (List.forall_mem_append.mp htext).2⟩
  · rwa [hideBefore_of_not_mem hmark]

end Hide

section Scan

variable {token : List α} {stops : α → Bool} {rewrite : List α → List α}
variable {a d : α} {text rest front behind body : List α}

theorem scanFrom_eq_scan_drop (skip : Nat) (text : List α) :
    scanFrom token stops rewrite skip text =
      scan token stops rewrite (text.drop skip) := by
  induction skip generalizing text with
  | zero => rfl
  | succ skip ih =>
      cases text with
      | nil => rfl
      | cons a rest => exact ih rest

theorem scan_cons (hnot : ¬ token <+: a :: rest) :
    scan token stops rewrite (a :: rest) =
      a :: scan token stops rewrite rest := if_neg hnot

/-- What stands up to the stop behind a token is rewritten as a whole. -/
theorem scan_token (htoken : token ≠ []) (hbody : ∀ b ∈ body, stops b = false)
    (hbehind : ∀ b ∈ behind.head?, stops b = true) :
    scan token stops rewrite (token ++ (body ++ behind)) =
      token ++ rewrite body ++ scan token stops rewrite behind := by
  have htake : (body ++ behind).takeWhile (fun b => !stops b) = body := by
    rw [List.takeWhile_append_of_pos fun b hb => by rw [hbody b hb]; rfl]
    cases behind with
    | nil => simp
    | cons b rest => simp [hbehind b rfl]
  cases token with
  | nil => exact absurd rfl htoken
  | cons a more =>
      have hfront : a :: more <+: a :: (more ++ (body ++ behind)) :=
        List.prefix_append (a :: more) (body ++ behind)
      have hdrop : (a :: (more ++ (body ++ behind))).drop (a :: more).length =
          body ++ behind := List.drop_left
      rw [List.cons_append, scan, scanFrom, if_pos hfront]
      dsimp only
      rw [hdrop, htake, scanFrom_eq_scan_drop]
      have hskip : (more ++ (body ++ behind)).drop
          ((a :: more).length + body.length - 1) = behind := by
        rw [← List.append_assoc, List.length_cons]
        have hlength : more.length + 1 + body.length - 1 =
            (more ++ body).length := by
          rw [List.length_append]
          omega
        rw [hlength, List.drop_left]
      rw [hskip]

omit [DecidableEq α] in
/-- The text behind a token, cut at its stop. -/
theorem exists_body (stops : α → Bool) (text : List α) :
    ∃ body behind, text = body ++ behind ∧ (∀ b ∈ body, stops b = false) ∧
      ∀ b ∈ behind.head?, stops b = true := by
  refine ⟨text.takeWhile fun b => !stops b, text.dropWhile fun b => !stops b,
    List.takeWhile_append_dropWhile.symm, fun b hb => ?_, fun b hb => ?_⟩
  · simpa using List.mem_takeWhile_imp hb
  · have hhead := List.head?_dropWhile_not (fun b => !stops b) text
    rw [hb] at hhead
    simpa using hhead

/-- A text is empty, begins with a token up to its stop, or begins with a letter
that begins no token. -/
theorem scan_induction {motive : List α → Prop} (stops : α → Bool)
    (htoken : token ≠ []) (nil : motive [])
    (cons : ∀ a rest, ¬ token <+: a :: rest → motive rest → motive (a :: rest))
    (found : ∀ body behind, (∀ b ∈ body, stops b = false) →
      (∀ b ∈ behind.head?, stops b = true) → motive behind →
      motive (token ++ (body ++ behind)))
    (text : List α) : motive text := by
  induction hlength : text.length using Nat.strong_induction_on
    generalizing text with
  | _ n ih =>
      cases text with
      | nil => exact nil
      | cons a rest =>
          by_cases hfront : token <+: a :: rest
          · obtain ⟨after, hafter⟩ := hfront
            obtain ⟨body, behind, rfl, hbody, hbehind⟩ := exists_body stops after
            have hpos := List.length_pos_iff.mpr htoken
            have hshort : behind.length < n := by
              rw [← hlength, ← hafter]
              simp only [List.length_append]
              omega
            rw [← hafter]
            exact found body behind hbody hbehind (ih _ hshort behind rfl)
          · have hshort : rest.length < n := by
              rw [← hlength]
              exact Nat.lt_succ_self _
            exact cons a rest hfront (ih _ hshort rest rfl)

theorem mem_scan (htoken : token ≠ []) (hrewrite : ∀ body, a ∈ body →
    a ∈ rewrite body) (ha : a ∈ text) : a ∈ scan token stops rewrite text := by
  induction text using scan_induction stops htoken with
  | nil => cases ha
  | cons b rest hnot ih =>
      rw [scan_cons hnot]
      rcases List.mem_cons.mp ha with rfl | hrest
      · exact List.mem_cons_self
      · exact List.mem_cons_of_mem _ (ih hrest)
  | found body behind hbody hbehind ih =>
      rw [scan_token htoken hbody hbehind]
      simp only [List.mem_append] at ha ⊢
      rcases ha with htok | hin | hrest
      · exact .inl (.inl htok)
      · exact .inl (.inr (hrewrite body hin))
      · exact .inr (ih hrest)

theorem forall_mem_scan {P : α → Prop} (htoken : token ≠ [])
    (hrewrite : ∀ body, (∀ b ∈ body, P b) → ∀ b ∈ rewrite body, P b)
    (htext : ∀ b ∈ text, P b) : ∀ b ∈ scan token stops rewrite text, P b := by
  induction text using scan_induction stops htoken with
  | nil => exact fun b hb => htext b hb
  | cons b rest hnot ih =>
      obtain ⟨hb, hrest⟩ := List.forall_mem_cons.mp htext
      rw [scan_cons hnot]
      exact List.forall_mem_cons.mpr ⟨hb, ih hrest⟩
  | found body behind hbody hbehind ih =>
      obtain ⟨htok, hrest⟩ := List.forall_mem_append.mp htext
      obtain ⟨hown, hafter⟩ := List.forall_mem_append.mp hrest
      rw [scan_token htoken hbody hbehind]
      exact List.forall_mem_append.mpr ⟨List.forall_mem_append.mpr
        ⟨htok, hrewrite body hown⟩, ih hafter⟩

omit [DecidableEq α] in
theorem prefix_of_prefix_append_cons (front : List α) (hd : d ∉ token)
    (hfront : token <+: front ++ d :: rest) : token <+: front := by
  induction front generalizing token with
  | nil =>
      cases token with
      | nil => exact List.nil_prefix
      | cons b more =>
          obtain ⟨heq, _⟩ := List.cons_prefix_cons.mp hfront
          exact absurd (heq ▸ List.mem_cons_self) hd
  | cons b front ih =>
      cases token with
      | nil => exact List.nil_prefix
      | cons c more =>
          obtain ⟨rfl, hmore⟩ := List.cons_prefix_cons.mp hfront
          exact List.cons_prefix_cons.mpr
            ⟨rfl, ih (fun hin => hd (List.mem_cons_of_mem _ hin)) hmore⟩

/-- What is before a stop and what is behind it are scanned for themselves. -/
theorem scan_append_stop (htoken : token ≠ []) (hd : d ∉ token)
    (hstop : stops d = true) :
    scan token stops rewrite (front ++ d :: rest) =
      scan token stops rewrite front ++ d :: scan token stops rewrite rest := by
  induction front using scan_induction stops htoken with
  | nil =>
      refine scan_cons fun hfront => ?_
      exact htoken (List.prefix_nil.mp
        (prefix_of_prefix_append_cons [] hd hfront))
  | cons b front hnot ih =>
      have hlonger : ¬ token <+: b :: (front ++ d :: rest) := fun hfront =>
        hnot (prefix_of_prefix_append_cons (b :: front) hd hfront)
      rw [List.cons_append, scan_cons hlonger, ih, scan_cons hnot,
        List.cons_append]
  | found body behind hbody hbehind ih =>
      have hbehind' : ∀ b ∈ (behind ++ d :: rest).head?, stops b = true := by
        cases behind with
        | nil => exact fun b hb => Option.some.inj hb ▸ hstop
        | cons b behind => exact hbehind
      rw [scan_token htoken hbody hbehind, List.append_assoc, List.append_assoc,
        scan_token htoken hbody hbehind', ih]
      simp only [List.append_assoc]

/-- A text none of whose tokens stands before the mark stays as it is. -/
theorem scan_eq_self {mark : α} (htoken : token ≠ [])
    (hrewrite : ∀ body, mark ∉ body → rewrite body = body)
    (htame : ∀ front behind, text = front ++ (token ++ behind) → mark ∉ behind) :
    scan token stops rewrite text = text := by
  induction text using scan_induction stops htoken with
  | nil => rfl
  | cons b rest hnot ih =>
      rw [scan_cons hnot, ih fun front behind heq =>
        htame (b :: front) behind (congrArg (b :: ·) heq)]
  | found body behind hbody hbehind ih =>
      have hown : mark ∉ body ++ behind := htame [] _ rfl
      rw [scan_token htoken hbody hbehind,
        hrewrite body fun hin => hown (List.mem_append_left _ hin),
        ih fun front after heq =>
          htame (token ++ (body ++ front)) after (by rw [heq]; simp),
        List.append_assoc]

section Head

variable {t : α} {more : List α}

theorem scan_front (ht : t ∉ front) :
    scan (t :: more) stops rewrite (front ++ rest) =
      front ++ scan (t :: more) stops rewrite rest := by
  induction front with
  | nil => rfl
  | cons b front ih =>
      obtain ⟨hb, hfront⟩ := not_or.mp fun hor => ht (List.mem_cons.mpr hor)
      rw [List.cons_append, scan_cons fun hpre =>
        hb (List.cons_prefix_cons.mp hpre).1, ih hfront]
      rfl

/-- What does not hold the first letter of the token is not made by scanning. -/
theorem prefix_of_prefix_scan {word : List α} (ht : t ∉ word)
    (hword : word <+: scan (t :: more) stops rewrite text) : word <+: text := by
  induction word generalizing text with
  | nil => exact List.nil_prefix
  | cons b word ih =>
      obtain ⟨hb, hrest⟩ := not_or.mp fun hor => ht (List.mem_cons.mpr hor)
      cases text with
      | nil => exact hword
      | cons c rest =>
          by_cases hfront : t :: more <+: c :: rest
          · rw [scan, scanFrom, if_pos hfront] at hword
            exact absurd (List.cons_prefix_cons.mp hword).1.symm hb
          · rw [scan_cons hfront] at hword
            obtain ⟨heq, hword⟩ := List.cons_prefix_cons.mp hword
            exact List.cons_prefix_cons.mpr ⟨heq, ih hrest hword⟩

theorem head?_scan :
    (scan (t :: more) stops rewrite text).head? = text.head? := by
  cases text with
  | nil => rfl
  | cons b rest =>
      by_cases hfront : t :: more <+: b :: rest
      · rw [scan, scanFrom, if_pos hfront]
        exact congrArg some (List.cons_prefix_cons.mp hfront).1
      · rw [scan_cons hfront]
        rfl

/-- Scanning a second time changes nothing, where rewriting a second time does
not. -/
theorem scan_idem (ht : t ∉ more)
    (hstops : ∀ body, (∀ b ∈ body, stops b = false) →
      ∀ b ∈ rewrite body, stops b = false)
    (hrewrite : ∀ body, rewrite (rewrite body) = rewrite body) :
    scan (t :: more) stops rewrite (scan (t :: more) stops rewrite text) =
      scan (t :: more) stops rewrite text := by
  induction text using scan_induction stops
    (List.cons_ne_nil t more) with
  | nil => rfl
  | cons b rest hnot ih =>
      have hagain : ¬ t :: more <+: b :: scan (t :: more) stops rewrite rest := by
        intro hfront
        obtain ⟨heq, hmore⟩ := List.cons_prefix_cons.mp hfront
        exact hnot (List.cons_prefix_cons.mpr
          ⟨heq, prefix_of_prefix_scan ht hmore⟩)
      rw [scan_cons hnot, scan_cons hagain, ih]
  | found body behind hbody hbehind ih =>
      have hhead : ∀ b ∈ (scan (t :: more) stops rewrite behind).head?,
          stops b = true := by
        rw [head?_scan]
        exact hbehind
      rw [scan_token (List.cons_ne_nil t more) hbody hbehind, List.append_assoc,
        scan_token (List.cons_ne_nil t more) (hstops body hbody) hhead, ih,
        hrewrite, List.append_assoc]

end Head

end Scan

end TokenScan
