/-
What readers of a byte stream take, and where one of their errors comes up.
-/
import XBackup.Foundation.Parsing

namespace Parsing

universe u

variable {σ β ε α γ : Type u}

/-- From a state between two parts of the stream the reader gives the error just
at the places of a set. -/
def FailsAt (stands : σ → List β → List β → Prop) (err : ε)
    (reader : Parser σ ε α) (Fails : List β → List β → Prop) : Prop :=
  ∀ ⦃st behind ahead⦄, stands st behind ahead →
    (reader st = .error err ↔ Fails behind ahead)

/-- The reader takes the texts of a language, whatever follows, and gives the
error at the places of a set. -/
structure Behaves (stands : σ → List β → List β → Prop) (err : ε)
    (reader : Parser σ ε α) (Takes : α → List β → Prop)
    (Fails : List β → List β → Prop) : Prop where
  takes : ∀ {st behind ahead value next}, stands st behind ahead →
    reader st = .ok (value, next) →
      ∃ taken tail, ahead = taken ++ tail ∧ Takes value taken ∧
        stands next (behind ++ taken) tail
  gives : ∀ {st behind taken tail value}, stands st behind (taken ++ tail) →
    Takes value taken →
      ∃ next, reader st = .ok (value, next) ∧ stands next (behind ++ taken) tail
  fails : FailsAt stands err reader Fails

variable {stands : σ → List β → List β → Prop} {err : ε}
  {first : Parser σ ε α} {next : α → Parser σ ε γ}
  {Takes : α → List β → Prop} {Fails : List β → List β → Prop}
  {TakesNext : α → γ → List β → Prop}
  {FailsNext : α → List β → List β → Prop}

theorem behaves_pure (value : α) :
    Behaves stands err (pure value : Parser σ ε α)
      (fun given taken => given = value ∧ taken = []) (fun _ _ => False) where
  takes := by
    rintro st behind ahead given next hst hread
    cases hread
    exact ⟨[], ahead, rfl, ⟨rfl, rfl⟩, by rwa [List.append_nil]⟩
  gives := by
    rintro st behind taken tail given hst ⟨rfl, rfl⟩
    exact ⟨st, rfl, by rwa [List.append_nil]⟩
  fails _ _ _ _ := iff_of_false (fun h => by cases h) id

theorem behaves_throw {e : ε} (he : e ≠ err) :
    Behaves stands err (throw e : Parser σ ε α) (fun _ _ => False)
      (fun _ _ => False) where
  takes _ hread := by cases hread
  gives _ hvalue := hvalue.elim
  fails _ _ _ _ := iff_of_false (fun h => he (Except.error.inj h)) id

theorem behaves_throw_self :
    Behaves stands err (throw err : Parser σ ε α) (fun _ _ => False)
      (fun _ _ => True) where
  takes _ hread := by cases hread
  gives _ hvalue := hvalue.elim
  fails _ _ _ _ := iff_of_true rfl trivial

/-- A sequence fails in the first reader, or in the second behind what the first
has taken. -/
theorem Behaves.bind_failsAt (hfirst : Behaves stands err first Takes Fails)
    (hnext : ∀ value, FailsAt stands err (next value) (FailsNext value)) :
    FailsAt stands err (first >>= next)
      (fun behind ahead => Fails behind ahead ∨
        ∃ value one tail, ahead = one ++ tail ∧ Takes value one ∧
          FailsNext value (behind ++ one) tail) := by
  intro st behind ahead hst
  simp only [Bind.bind, StateT.bind]
  cases hone : first st with
  | error e =>
      have herr : (first st = .error err) ↔ Fails behind ahead :=
        hfirst.fails hst
      rw [hone] at herr
      refine Iff.trans ?_ (herr.trans (or_iff_left ?_).symm)
      · exact ⟨fun h => by cases h; rfl, fun h => by cases h; rfl⟩
      · rintro ⟨value, one, tail, rfl, hvalue, -⟩
        obtain ⟨middle, hmiddle, -⟩ := hfirst.gives hst hvalue
        rw [hone] at hmiddle
        cases hmiddle
  | ok pair =>
      obtain ⟨value, middle⟩ := pair
      obtain ⟨one, tail, rfl, hvalue, hmiddle⟩ := hfirst.takes hst hone
      have hgood : ¬ Fails behind (one ++ tail) := by
        rw [← hfirst.fails hst, hone]
        exact fun h => by cases h
      rw [or_iff_right hgood]
      refine (hnext value hmiddle).trans
        ⟨fun h => ⟨value, one, tail, rfl, hvalue, h⟩, ?_⟩
      rintro ⟨other, two, rest, hsplit, hother, hfails⟩
      rw [hsplit] at hst
      obtain ⟨stop, hstop, hstands⟩ := hfirst.gives hst hother
      cases hone.symm.trans hstop
      exact (hnext value hmiddle).mp
        ((hnext value hstands).mpr hfails)

/-- The languages of a sequence are joined. -/
theorem Behaves.bind (hfirst : Behaves stands err first Takes Fails)
    (hnext : ∀ value, Behaves stands err (next value) (TakesNext value)
      (FailsNext value)) :
    Behaves stands err (first >>= next)
      (fun result taken => ∃ value one more, taken = one ++ more ∧
        Takes value one ∧ TakesNext value result more)
      (fun behind ahead => Fails behind ahead ∨
        ∃ value one tail, ahead = one ++ tail ∧ Takes value one ∧
          FailsNext value (behind ++ one) tail) where
  takes := by
    intro st behind ahead result last hst hread
    simp only [Bind.bind, StateT.bind] at hread
    cases hone : first st with
    | error e =>
        rw [hone] at hread
        cases hread
    | ok pair =>
        obtain ⟨value, middle⟩ := pair
        rw [hone] at hread
        obtain ⟨one, tail, rfl, hvalue, hmiddle⟩ := hfirst.takes hst hone
        obtain ⟨more, rest, rfl, hresult, hlast⟩ :=
          (hnext value).takes hmiddle hread
        refine ⟨one ++ more, rest, (List.append_assoc _ _ _).symm,
          ⟨value, one, more, rfl, hvalue, hresult⟩, ?_⟩
        rwa [← List.append_assoc]
  gives := by
    rintro st behind taken tail result hst ⟨value, one, more, rfl, hvalue, hresult⟩
    rw [List.append_assoc] at hst
    obtain ⟨middle, hmiddle, hstands⟩ := hfirst.gives hst hvalue
    obtain ⟨last, hlast, hend⟩ := (hnext value).gives hstands hresult
    refine ⟨last, ?_, by rwa [← List.append_assoc]⟩
    simp only [Bind.bind, StateT.bind, hmiddle, Except.bind]
    exact hlast
  fails := hfirst.bind_failsAt fun value => (hnext value).fails

theorem Behaves.congr {reader : Parser σ ε α} {Takes' : α → List β → Prop}
    {Fails' : List β → List β → Prop}
    (hreader : Behaves stands err reader Takes Fails)
    (htakes : ∀ st behind taken tail value, stands st behind (taken ++ tail) →
      (Takes value taken ↔ Takes' value taken))
    (hfails : ∀ st behind ahead, stands st behind ahead →
      (Fails behind ahead ↔ Fails' behind ahead)) :
    Behaves stands err reader Takes' Fails' where
  takes hst hread := by
    obtain ⟨taken, tail, hsplit, hvalue, hnext⟩ := hreader.takes hst hread
    subst hsplit
    exact ⟨taken, tail, rfl, (htakes _ _ _ _ _ hst).mp hvalue, hnext⟩
  gives hst hvalue := hreader.gives hst ((htakes _ _ _ _ _ hst).mpr hvalue)
  fails _ _ _ hst := (hreader.fails hst).trans (hfails _ _ _ hst)

/-- What is made of the value of a reader. -/
theorem Behaves.map {reader : Parser σ ε α}
    (hreader : Behaves stands err reader Takes Fails) (result : α → γ) :
    Behaves stands err (reader >>= fun value => pure (result value))
      (fun given taken => ∃ value, Takes value taken ∧ given = result value)
      Fails := by
  refine (hreader.bind fun value => behaves_pure (result value)).congr
    (fun _ _ taken _ given _ => ⟨?_, ?_⟩) fun _ behind ahead _ => ?_
  · rintro ⟨value, one, _, rfl, hvalue, rfl, rfl⟩
    exact ⟨value, by rwa [List.append_nil], rfl⟩
  · rintro ⟨value, hvalue, rfl⟩
    exact ⟨value, taken, [], (List.append_nil _).symm, hvalue, rfl, rfl⟩
  · exact or_iff_left fun ⟨_, _, _, _, _, hno⟩ => hno

theorem FailsAt.ite {c : Prop} [Decidable c] {reader other : Parser σ ε α}
    {FailsOther : List β → List β → Prop}
    (hyes : FailsAt stands err reader Fails)
    (hno : FailsAt stands err other FailsOther) :
    FailsAt stands err (if c then reader else other)
      (fun behind ahead => if c then Fails behind ahead
        else FailsOther behind ahead) := by
  by_cases hc : c
  · simp only [if_pos hc]
    exact hyes
  · simp only [if_neg hc]
    exact hno

/-- A branch of a reader. -/
theorem Behaves.ite {c : Prop} [Decidable c] {other : Parser σ ε α}
    {TakesOther : α → List β → Prop} {FailsOther : List β → List β → Prop}
    (hyes : c → Behaves stands err first Takes Fails)
    (hno : ¬ c → Behaves stands err other TakesOther FailsOther) :
    Behaves stands err (if c then first else other)
      (fun value taken => if c then Takes value taken
        else TakesOther value taken)
      (fun behind ahead => if c then Fails behind ahead
        else FailsOther behind ahead) := by
  by_cases hc : c
  · simp only [if_pos hc]
    exact hyes hc
  · simp only [if_neg hc]
    exact hno hc

/-- What a reader takes when it is run a number of times: one text of the
language after the other. -/
def TakesEach (Takes : α → List β → Prop) (values : List α) (taken : List β) :
    Prop :=
  ∃ texts : List (List β), taken = texts.flatten ∧ List.Forall₂ Takes values texts

/-- It fails behind a smaller number of texts. -/
def FailsWithin (Takes : α → List β → Prop) (Fails : List β → List β → Prop)
    (n : Nat) (behind ahead : List β) : Prop :=
  ∃ (texts : List (List β)) (tail : List β),
    ahead = texts.flatten ++ tail ∧ texts.length < n ∧
    (∀ text ∈ texts, ∃ value, Takes value text) ∧
    Fails (behind ++ texts.flatten) tail

theorem exists_takesEach {taken : List β} {n : Nat} :
    (∃ values, values.length = n ∧ TakesEach Takes values taken) ↔
      ∃ texts : List (List β), taken = texts.flatten ∧ texts.length = n ∧
        ∀ text ∈ texts, ∃ value, Takes value text := by
  constructor
  · rintro ⟨values, rfl, texts, rfl, heach⟩
    refine ⟨texts, rfl, heach.length_eq.symm, ?_⟩
    induction heach with
    | nil => exact List.forall_mem_nil _
    | cons hvalue _ ih => exact List.forall_mem_cons.mpr ⟨⟨_, hvalue⟩, ih⟩
  · rintro ⟨texts, rfl, rfl, htexts⟩
    suffices heach : ∃ values, List.Forall₂ Takes values texts by
      obtain ⟨values, hvalues⟩ := heach
      exact ⟨values, hvalues.length_eq, texts, rfl, hvalues⟩
    induction texts with
    | nil => exact ⟨[], .nil⟩
    | cons text texts ih =>
        obtain ⟨⟨value, hvalue⟩, hrest⟩ := List.forall_mem_cons.mp htexts
        obtain ⟨values, hvalues⟩ := ih hrest
        exact ⟨value :: values, .cons hvalue hvalues⟩

theorem failsWithin_succ {n : Nat} {behind ahead : List β} :
    FailsWithin Takes Fails (n + 1) behind ahead ↔ Fails behind ahead ∨
      ∃ value one tail, ahead = one ++ tail ∧ Takes value one ∧
        FailsWithin Takes Fails n (behind ++ one) tail := by
  constructor
  · rintro ⟨texts, tail, rfl, hlength, htexts, hfails⟩
    cases texts with
    | nil =>
        left
        rwa [List.flatten_nil, List.append_nil] at hfails
    | cons text texts =>
        obtain ⟨⟨value, hvalue⟩, htexts⟩ := List.forall_mem_cons.mp htexts
        rw [List.flatten_cons, ← List.append_assoc] at hfails
        right
        refine ⟨value, text, texts.flatten ++ tail, ?_, hvalue, texts, tail, rfl,
          Nat.lt_of_succ_lt_succ hlength, htexts, hfails⟩
        rw [List.flatten_cons, List.append_assoc]
  · rintro (hfails | ⟨value, one, tail, rfl, hvalue, texts, rest, rfl, hlength,
      htexts, hfails⟩)
    · exact ⟨[], ahead, rfl, Nat.succ_pos n, List.forall_mem_nil _, by
        rwa [List.flatten_nil, List.append_nil]⟩
    · refine ⟨one :: texts, rest, ?_, Nat.succ_lt_succ hlength,
        List.forall_mem_cons.mpr ⟨⟨value, hvalue⟩, htexts⟩, ?_⟩
      · rw [List.flatten_cons, List.append_assoc]
      · rwa [List.flatten_cons, ← List.append_assoc]

theorem Behaves.times (hfirst : Behaves stands err first Takes Fails) (n : Nat) :
    Behaves stands err (times first n)
      (fun values taken => values.length = n ∧ TakesEach Takes values taken)
      (FailsWithin Takes Fails n) := by
  induction n with
  | zero =>
      refine (behaves_pure []).congr (fun _ _ taken _ values _ => ?_)
        fun _ behind ahead _ => ?_
      · constructor
        · rintro ⟨rfl, rfl⟩
          exact ⟨rfl, [], rfl, .nil⟩
        · rintro ⟨hnil, texts, rfl, htexts⟩
          cases List.eq_nil_of_length_eq_zero hnil
          cases htexts
          exact ⟨rfl, rfl⟩
      · exact iff_of_false id fun h => absurd h.choose_spec.choose_spec.2.1
          (Nat.not_lt_zero _)
  | succ n ih =>
      have hseq := hfirst.bind fun value => ih.bind fun values =>
        behaves_pure (value :: values)
      refine hseq.congr (fun _ _ taken _ values _ => ?_) fun _ behind ahead _ => ?_
      · constructor
        · rintro ⟨value, one, _, rfl, hvalue, rest, more, _, rfl,
            ⟨hlength, texts, rfl, htexts⟩, rfl, rfl⟩
          refine ⟨congrArg (· + 1) hlength, one :: texts, ?_,
            .cons hvalue htexts⟩
          rw [List.append_nil, List.flatten_cons]
        · rintro ⟨hlength, texts, rfl, htexts⟩
          cases htexts with
          | nil => cases hlength
          | @cons value one rest texts hvalue htexts =>
              refine ⟨value, one, texts.flatten, List.flatten_cons, hvalue, rest,
                texts.flatten, [], (List.append_nil _).symm,
                ⟨Nat.succ.inj hlength, texts, rfl, htexts⟩, rfl, rfl⟩
      · rw [failsWithin_succ]
        refine or_congr_right ⟨?_, ?_⟩
        · rintro ⟨value, one, tail, rfl, hvalue, hfails | ⟨_, _, _, _, _, hno⟩⟩
          · exact ⟨value, one, tail, rfl, hvalue, hfails⟩
          · exact hno.elim
        · rintro ⟨value, one, tail, rfl, hvalue, hfails⟩
          exact ⟨value, one, tail, rfl, hvalue, .inl hfails⟩

end Parsing
