/-
A connection URI as it is shown: without its credentials, and without the values
of the parameters that may hold one.
-/
import XBackup.Foundation.TokenScan

namespace XBackup

namespace Cli

open TokenScan

def SENSITIVE : List String :=
  ["password", "pwd", "sslpassword", "tlscertificatekeyfilepassword",
    "authmechanismproperties", "secret", "token", "accesskey", "secretkey",
    "awssessiontoken"]

/-- Parameters are told apart without regard to case. -/
def isSensitiveParam (key : List Char) : Bool :=
  SENSITIVE.contains (String.ofList (key.map Char.toLower))

def redactPair (pair : List Char) : List Char :=
  let key := pair.takeWhile fun c => c != '='
  if isSensitiveParam key then key ++ ['=', '*', '*', '*'] else pair

def redactPairs (query : List Char) : List Char :=
  ['&'].intercalate ((query.splitOn '&').map redactPair)

def redactQuery (tail : List Char) : List Char :=
  match splitAtToken ['?'] tail with
  | none => tail
  | some (path, query) => path ++ '?' :: redactPairs query

/-- The authority goes up to the path or the query. -/
def endsHost (c : Char) : Bool :=
  c = '/' || c = '?'

def redactRest (rest : List Char) : List Char :=
  hideBefore '@' ['*', '*', '*'] (rest.takeWhile fun c => !endsHost c) ++
    redactQuery (rest.dropWhile fun c => !endsHost c)

def redactUri (uri : String) : String :=
  match splitAtToken [':', '/', '/'] uri.toList with
  | some (scheme, rest) =>
      String.ofList (scheme ++ ([':', '/', '/'] ++ redactRest rest))
  | none => String.ofList (redactRest uri.toList)

section Query

variable {pair path query tail : List Char}

theorem redactPair_idem (pair : List Char) :
    redactPair (redactPair pair) = redactPair pair := by
  by_cases hkey : isSensitiveParam (pair.takeWhile fun c => c != '=') = true
  · have hnot : ∀ c ∈ pair.takeWhile (fun c => c != '='), (c != '=') = true :=
      fun c hc => List.mem_takeWhile_imp (p := fun c => c != '=') hc
    have htake : (pair.takeWhile (fun c => c != '=') ++ ['=', '*', '*', '*']).takeWhile
        (fun c => c != '=') = pair.takeWhile fun c => c != '=' := by
      rw [List.takeWhile_append_of_pos hnot]
      exact List.append_nil _
    have hfirst : redactPair pair = (pair.takeWhile fun c => c != '=') ++
        ['=', '*', '*', '*'] := if_pos hkey
    rw [hfirst, redactPair, htake, if_pos hkey]
  · have hfirst : redactPair pair = pair := if_neg hkey
    rw [hfirst, hfirst]

theorem forall_mem_redactPair {P : Char → Prop} (hmarks : ∀ c ∈ ['=', '*', '*', '*'], P c)
    (hpair : ∀ c ∈ pair, P c) : ∀ c ∈ redactPair pair, P c := by
  rw [redactPair]
  split
  next =>
    exact List.forall_mem_append.mpr
      ⟨fun c hc => hpair c ((List.takeWhile_sublist _).subset hc), hmarks⟩
  next => exact hpair

theorem splitAtToken_question (hpath : '?' ∉ path) :
    splitAtToken ['?'] (path ++ '?' :: query) = some (path, query) := by
  induction path with
  | nil => exact splitAtToken_append (List.cons_ne_nil _ _) query
  | cons c path ih =>
      obtain ⟨hc, hrest⟩ := not_or.mp fun hor => hpath (List.mem_cons.mpr hor)
      rw [List.cons_append, splitAtToken,
        if_neg fun hfront => hc (List.cons_prefix_cons.mp hfront).1, ih hrest]
      rfl

theorem redactQuery_append (hpath : '?' ∉ path) :
    redactQuery (path ++ '?' :: query) = path ++ '?' :: redactPairs query := by
  rw [redactQuery, splitAtToken_question hpath]

theorem redactQuery_of_not_mem (htail : '?' ∉ tail) : redactQuery tail = tail := by
  have hnot : ¬ ['?'] <:+: tail := fun htoken =>
    htail (htoken.subset List.mem_cons_self)
  rw [redactQuery, splitAtToken_of_not_infix hnot]

/-- A tail has a query or none. -/
theorem query_cases (tail : List Char) :
    '?' ∉ tail ∨ ∃ path query, tail = path ++ '?' :: query ∧ '?' ∉ path := by
  by_cases htail : '?' ∈ tail
  · obtain ⟨path, query, heq, hpath⟩ := List.eq_append_cons_of_mem htail
    exact .inr ⟨path, query, heq, hpath⟩
  · exact .inl htail

theorem not_mem_of_mem_splitOn (query : List Char) :
    ∀ pair ∈ query.splitOn '&', '&' ∉ pair := by
  induction hlength : query.length using Nat.strong_induction_on
    generalizing query with
  | _ n ih =>
      by_cases hquery : '&' ∈ query
      · obtain ⟨front, behind, rfl, hfront⟩ := List.eq_append_cons_of_mem hquery
        rw [List.splitOn_append_cons_self_of_not_mem hfront]
        refine List.forall_mem_cons.mpr ⟨hfront, ih _ ?_ behind rfl⟩
        rw [← hlength, List.length_append, List.length_cons]
        omega
      · rw [List.splitOn_eq_singleton hquery]
        exact List.forall_mem_singleton.mpr hquery

theorem redactPairs_idem (query : List Char) :
    redactPairs (redactPairs query) = redactPairs query := by
  have hpairs : ∀ pair ∈ (query.splitOn '&').map redactPair, '&' ∉ pair := by
    intro pair hpair
    obtain ⟨own, hown, rfl⟩ := List.mem_map.mp hpair
    have hmarks : ∀ c ∈ ['=', '*', '*', '*'], c ≠ '&' := by simp
    have hkept : ∀ c ∈ redactPair own, c ≠ '&' :=
      forall_mem_redactPair hmarks fun c hc heq =>
        not_mem_of_mem_splitOn query own hown (heq ▸ hc)
    exact fun hin => hkept '&' hin rfl
  have hne : (query.splitOn '&').map redactPair ≠ [] := fun hnil =>
    List.splitOn_ne_nil _ _ (List.map_eq_nil_iff.mp hnil)
  rw [redactPairs, redactPairs, List.splitOn_intercalate _ hpairs hne, List.map_map]
  congr 1
  exact List.map_congr_left fun pair _ => redactPair_idem pair

theorem redactQuery_idem (tail : List Char) :
    redactQuery (redactQuery tail) = redactQuery tail := by
  rcases query_cases tail with htail | ⟨path, query, rfl, hpath⟩
  · rw [redactQuery_of_not_mem htail, redactQuery_of_not_mem htail]
  · rw [redactQuery_append hpath, redactQuery_append hpath, redactPairs_idem]

theorem head?_redactQuery (tail : List Char) :
    (redactQuery tail).head? = tail.head? := by
  rcases query_cases tail with htail | ⟨path, query, rfl, hpath⟩
  · rw [redactQuery_of_not_mem htail]
  · rw [redactQuery_append hpath]
    cases path <;> rfl

end Query

section Rest

variable {authority tail rest : List Char}

theorem redactRest_append (hauthority : ∀ c ∈ authority, endsHost c = false)
    (htail : ∀ c ∈ tail.head?, endsHost c = true) :
    redactRest (authority ++ tail) =
      hideBefore '@' ['*', '*', '*'] authority ++ redactQuery tail := by
  have hall : ∀ c ∈ authority, (!endsHost c) = true :=
    fun c hc => by rw [hauthority c hc]; rfl
  rw [redactRest, List.takeWhile_append_of_pos hall,
    List.dropWhile_append_of_pos hall]
  cases tail with
  | nil => rw [List.takeWhile_nil, List.dropWhile_nil, List.append_nil]
  | cons c tail =>
      have hc : ¬ (!endsHost c) = true := by
        rw [htail c rfl]
        decide
      rw [List.takeWhile_cons_of_neg (p := fun c => !endsHost c) hc,
        List.dropWhile_cons_of_neg (p := fun c => !endsHost c) hc,
        List.append_nil]

theorem redactRest_idem (rest : List Char) :
    redactRest (redactRest rest) = redactRest rest := by
  obtain ⟨authority, tail, rfl, hauthority, htail⟩ := exists_body endsHost rest
  have hstars : ∀ c ∈ ['*', '*', '*'], endsHost c = false := by
    simp [endsHost]
  have hhead : ∀ c ∈ (redactQuery tail).head?, endsHost c = true := by
    rwa [head?_redactQuery]
  rw [redactRest_append hauthority htail,
    redactRest_append (forall_mem_hideBefore hstars hauthority) hhead,
    hideBefore_idem, redactQuery_idem]

/-- No scheme ends in the text. -/
def Schemeless (text : List Char) : Prop := ¬ [':', '/', '/'] <:+: text

theorem schemeless_cons_iff {c : Char} {front behind : List Char}
    (hc : c ∉ [':', '/', '/']) :
    Schemeless (front ++ c :: behind) ↔
      Schemeless front ∧ Schemeless behind := by
  rw [Schemeless, Infixes.infix_sep_iff hc, not_or]
  rfl

theorem Schemeless.of_part {text part : List Char} (htext : Schemeless text)
    (hpart : part <:+: text) : Schemeless part :=
  fun htoken => htext (htoken.trans hpart)

theorem schemeless_intercalate_iff (pairs : List (List Char)) :
    Schemeless (['&'].intercalate pairs) ↔ ∀ pair ∈ pairs, Schemeless pair := by
  induction pairs with
  | nil => exact iff_of_true (by decide : ¬ _ <:+: []) (List.forall_mem_nil _)
  | cons pair rest ih =>
      cases rest with
      | nil => simp
      | cons other rest =>
          rw [List.intercalate_cons_cons, List.append_assoc,
            List.singleton_append, schemeless_cons_iff (by decide), ih,
            List.forall_mem_cons (l := other :: rest)]

theorem Schemeless.redactPairs {query : List Char} (hquery : Schemeless query) :
    Schemeless (redactPairs query) := by
  rw [Cli.redactPairs, schemeless_intercalate_iff]
  intro pair hpair
  obtain ⟨own, hown, rfl⟩ := List.mem_map.mp hpair
  have hwhole : Schemeless own := by
    have hjoin : ['&'].intercalate (query.splitOn '&') = query :=
      List.intercalate_splitOn '&'
    rw [← hjoin, schemeless_intercalate_iff] at hquery
    exact hquery own hown
  rw [redactPair]
  split
  next =>
    exact (schemeless_cons_iff (by decide)).mpr
      ⟨hwhole.of_part (List.takeWhile_prefix _).isInfix,
        (by decide : ¬ [':', '/', '/'] <:+: ['*', '*', '*'])⟩
  next => exact hwhole

theorem Schemeless.hide (hrest : Schemeless (authority ++ tail)) :
    Schemeless (hideBefore '@' ['*', '*', '*'] authority ++ tail) := by
  by_cases hat : '@' ∈ authority
  · obtain ⟨user, host, rfl, hhost⟩ := exists_last hat
    rw [List.append_assoc, List.cons_append, schemeless_cons_iff (by decide)]
      at hrest
    rw [hideBefore_append hhost, List.append_assoc]
    exact (schemeless_cons_iff (by decide)).mpr
      ⟨(by decide : ¬ [':', '/', '/'] <:+: ['*', '*', '*']), hrest.2⟩
  · rwa [hideBefore_of_not_mem hat]

theorem Schemeless.redactRest (hrest : Schemeless rest) :
    Schemeless (redactRest rest) := by
  obtain ⟨authority, tail, rfl, hauthority, htail⟩ := exists_body endsHost rest
  rw [redactRest_append hauthority htail]
  rcases query_cases tail with hnone | ⟨path, query, rfl, hpath⟩
  · rw [redactQuery_of_not_mem hnone]
    exact hrest.hide
  · rw [← List.append_assoc, schemeless_cons_iff (by decide)] at hrest
    rw [redactQuery_append hpath, ← List.append_assoc,
      schemeless_cons_iff (by decide)]
    exact ⟨hrest.1.hide, hrest.2.redactPairs⟩

/-- Redacting a second time changes nothing. -/
theorem redactUri_redactUri (uri : String) :
    redactUri (redactUri uri) = redactUri uri := by
  have htoken : [':', '/', '/'] ≠ [] := by decide
  cases hsplit : splitAtToken [':', '/', '/'] uri.toList with
  | none =>
      have hfirst : redactUri uri = String.ofList (redactRest uri.toList) := by
        rw [redactUri, hsplit]
      have hplain : Schemeless (redactRest uri.toList) :=
        Schemeless.redactRest (splitAtToken_eq_none htoken hsplit)
      rw [hfirst, redactUri, String.toList_ofList,
        splitAtToken_of_not_infix hplain]
      exact congrArg String.ofList (redactRest_idem _)
  | some parts =>
      have hfirst : redactUri uri = String.ofList
          (parts.1 ++ ([':', '/', '/'] ++ redactRest parts.2)) := by
        rw [redactUri, hsplit]
      rw [hfirst, redactUri, String.toList_ofList,
        splitAtToken_other htoken hsplit]
      dsimp only
      rw [redactRest_idem]

end Rest

end Cli

end XBackup
