/-
What is written of settings is a document, and the tables it stands for.
-/
import XBackup.Config.WriteV2

namespace XBackup

namespace Config

open TomlText

section Scalars

def Clean (s : String) : Prop :=
  ∀ c ∈ s.toList, c.toNat ≠ 0x7F

theorem hexValue_hex4 {n : Nat} (hn : n < 0x20) :
    hexValue (hex4 n) = some n := by
  have hall : ∀ n < 0x20, hexValue (hex4 n) = some n := by decide +kernel
  exact hall n hn

theorem charText_escChar {c : Char} (hdelete : c.toNat ≠ 0x7F) :
    CharText c (escChar c) := by
  rw [escChar]
  split
  next h =>
    subst h
    exact .short (by decide)
  split
  next h =>
    subst h
    exact .short (by decide)
  split
  next h =>
    subst h
    exact .short (by decide)
  split
  next h =>
    subst h
    exact .short (by decide)
  split
  next h =>
    subst h
    exact .short (by decide)
  split
  next hlow => exact .unicode rfl (hexValue_hex4 hlow)
  next hquote hslash _ _ _ hlow =>
    refine .plain hquote hslash ?_
    rintro (⟨h, -⟩ | h)
    · exact hlow h
    · exact hdelete h

theorem stringText_esc {s : List Char} (hclean : ∀ c ∈ s, c.toNat ≠ 0x7F) :
    StringText s (s.flatMap escChar) := by
  induction s with
  | nil => exact .nil
  | cons c rest ih =>
      obtain ⟨hc, hrest⟩ := List.forall_mem_cons.mp hclean
      rw [List.flatMap_cons]
      exact .cons (charText_escChar hc) (ih hrest)

/-- A value that has a text. -/
def Writable : Scalar → Prop
  | .string s => Clean s
  | .integer n => -2 ^ 63 ≤ n ∧ n < 2 ^ 63
  | .boolean _ => True

theorem scalarText_spec {v : Scalar} (hv : Writable v) :
    ScalarText v (scalarText v) := by
  cases v with
  | string s => exact .string (stringText_esc hv)
  | integer n => exact .integer hv.1 hv.2
  | boolean b => exact .boolean b

theorem pairsText_line {pairs : List Pair}
    (hpairs : ∀ pair ∈ pairs, BareKey pair.1 ∧ Writable pair.2) :
    PairsText pairs (pairs.flatMap line) := by
  induction pairs with
  | nil => exact .nil
  | cons pair rest ih =>
      obtain ⟨⟨hkey, hv⟩, hrest⟩ := List.forall_mem_cons.mp hpairs
      exact (PairsText.one hkey (scalarText_spec hv)).append (ih hrest)

end Scalars

namespace Lines

def keys (ls : Lines) : List String :=
  ls.map Prod.fst

theorem mem_pairs {ls : Lines} {key : String} {v : Scalar} :
    (key, v) ∈ ls.pairs ↔ (key, some v) ∈ ls := by
  rw [pairs, List.mem_filterMap]
  constructor
  · rintro ⟨⟨k, value⟩, hmem, hvalue⟩
    obtain ⟨found, hfound, heq⟩ := Option.map_eq_some_iff.mp hvalue
    cases heq
    rw [← hfound]
    exact hmem
  · exact fun hmem => ⟨_, hmem, rfl⟩

theorem fst_pairs_sublist (ls : Lines) :
    List.Sublist (ls.pairs.map Prod.fst) ls.keys := by
  induction ls with
  | nil => exact .slnil
  | cons l rest ih =>
      obtain ⟨key, value⟩ := l
      cases value with
      | none => exact ih.cons key
      | some v => exact ih.cons_cons key

end Lines

/-- The keys of the table of a profile, by those of its single destination. -/
def generalKeys (single : List String) : List String :=
  ["uri", "uri_env", "prefer_secondary", "connect_timeout_secs", "backup_type",
    "output_mode", "precheck", "engine"] ++ single ++ ["compress"] ++ ["encrypt", "encrypt_algorithm", "recipient_file"] ++
  ["incr_interval", "incr_on_gap", "pg_logical", "mysql_binlog", "keep_full",
    "keep_days", "keep_last"]

def bodyKeys : List String :=
  generalKeys ["dest_name", "dest", "s3_region", "s3_endpoint", "s3_creds"]

/-- The keys of the table of one of several destinations. -/
def elementKeys : List String :=
  ["name", "dest", "type", "path", "s3_bucket", "s3_prefix", "s3_region",
    "s3_endpoint", "s3_creds"]

theorem bodyKeys_spec : bodyKeys.Nodup ∧ ∀ key ∈ bodyKeys, BareKey key := by
  decide +kernel

theorem elementKeys_spec :
    elementKeys.Nodup ∧ ∀ key ∈ elementKeys, BareKey key := by
  decide +kernel

theorem keys_emitSingleDest (d : DestinationConfig) :
    List.Sublist (emitSingleDest d).keys
      ["dest_name", "dest", "s3_region", "s3_endpoint", "s3_creds"] := by
  rw [emitSingleDest]
  split
  next =>
    change List.Sublist ["dest_name", "dest"] _
    decide
  next =>
    cases d.s3 with
    | none =>
        change List.Sublist ["dest_name"] _
        decide
    | some s3 => exact List.Sublist.refl _
  next =>
    change List.Sublist ["dest_name"] _
    decide

theorem keys_emitCompression (c : CompressionConfig) :
    List.Sublist (emitCompression c).keys ["compress"] := by
  rw [emitCompression]
  split
  next => exact List.Sublist.refl _
  next =>
    split
    next => exact List.Sublist.refl _
    next => exact List.nil_sublist _

theorem keys_emitEncryption (e : EncryptionConfig) :
    List.Sublist (emitEncryption e).keys
      ["encrypt", "encrypt_algorithm", "recipient_file"] := by
  rw [emitEncryption]
  split
  next =>
    change List.Sublist ["encrypt"] _
    decide
  next =>
    split
    next =>
      change List.Sublist ["encrypt"] _
      decide
    next =>
      change List.Sublist ["encrypt_algorithm", "recipient_file"] _
      decide

theorem keys_append (first second : Lines) :
    Lines.keys (first ++ second) = first.keys ++ second.keys :=
  List.map_append

theorem keys_emitProfileBody (p : Profile) :
    List.Sublist p.emitProfileBody.keys bodyKeys := by
  rw [Profile.emitProfileBody, keys_append, keys_append, keys_append,
    keys_append]
  refine .append (.append (.append (.append (.refl _) ?_) ?_) ?_) (.refl _)
  · split
    next => exact keys_emitSingleDest p.destination
    next => exact List.nil_sublist _
  · exact keys_emitCompression p.features.compression
  · exact keys_emitEncryption p.features.encryption

theorem keys_destinationLines (d : DestinationConfig) :
    List.Sublist (destinationLines d).keys elementKeys := by
  rw [destinationLines]
  split
  next compact hcompact =>
    split
    next =>
      cases d.s3 with
      | none =>
          change List.Sublist ["name", "dest"] _
          decide
      | some s3 =>
          change List.Sublist
            ["name", "dest", "s3_region", "s3_endpoint", "s3_creds"] _
          decide
    next =>
      change List.Sublist ["name", "dest"] _
      decide
  next =>
    cases d.s3 with
    | none =>
        change List.Sublist ["name", "type", "path"] _
        decide
    | some s3 =>
        change List.Sublist ["name", "type", "path", "s3_bucket", "s3_prefix",
          "s3_region", "s3_endpoint", "s3_creds"] _
        decide

section Values

theorem clean_append {s t : String} (hs : Clean s) (ht : Clean t) :
    Clean (s ++ t) := by
  intro c hc
  rw [String.toList_append] at hc
  rcases List.mem_append.mp hc with h | h
  · exact hs c h
  · exact ht c h

theorem clean_of_all {s : String}
    (hall : s.toList.all (fun c => c.toNat ≠ 0x7F) = true) : Clean s := by
  intro c hc
  exact of_decide_eq_true (List.all_eq_true.mp hall c hc)

theorem clean_toString (n : Int) : Clean (toString n) := by
  have hnat : ∀ m : Nat, Clean m.repr := by
    intro m c hc
    rw [Nat.repr, String.toList_ofList] at hc
    have hdigit := Nat.isDigit_of_mem_toDigits (by decide) (by decide) hc
    intro h
    rw [Char.isDigit, Bool.and_eq_true, decide_eq_true_iff, decide_eq_true_iff]
      at hdigit
    have hle : c.toNat ≤ 57 := hdigit.2
    omega
  cases n with
  | ofNat m => exact hnat m
  | negSucc m => exact clean_append (clean_of_all (by decide +kernel)) (hnat _)

/-- Lines whose values all have a text. -/
def Lines.Fit (ls : Lines) : Prop :=
  ∀ l ∈ ls, ∀ v, l.2 = some v → Writable v

theorem Lines.fit_append {first second : Lines} (hfirst : first.Fit)
    (hsecond : second.Fit) : Lines.Fit (first ++ second) := by
  intro l hl
  rcases List.mem_append.mp hl with h | h
  · exact hfirst l h
  · exact hsecond l h

theorem Lines.fit_nil : Lines.Fit [] :=
  nofun

theorem Lines.fit_cons {key : String} {value : Option Scalar} {rest : Lines}
    (hvalue : ∀ v, value = some v → Writable v) (hrest : rest.Fit) :
    Lines.Fit ((key, value) :: rest) := by
  intro l hl
  rcases List.mem_cons.mp hl with rfl | h
  · exact hvalue
  · exact hrest l h

variable {key : String} {rest : Lines}

theorem fit_strLine {s : Option String} (hs : ∀ x ∈ s, Clean x)
    (hrest : rest.Fit) : Lines.Fit (strLine key s :: rest) := by
  refine Lines.fit_cons (fun v hv => ?_) hrest
  obtain ⟨x, hx, rfl⟩ := Option.map_eq_some_iff.mp hv
  exact hs x hx

theorem fit_numLine {n : Option Nat} (hn : ∀ m ∈ n, m < 2 ^ 63)
    (hrest : rest.Fit) : Lines.Fit (numLine key n :: rest) := by
  refine Lines.fit_cons (fun v hv => ?_) hrest
  obtain ⟨m, hm, rfl⟩ := Option.map_eq_some_iff.mp hv
  have hlt := hn m hm
  exact ⟨by omega, by omega⟩

theorem fit_unlessLine {default s : String} (hs : Clean s)
    (hrest : rest.Fit) : Lines.Fit (unlessLine key default s :: rest) := by
  refine Lines.fit_cons (fun v hv => ?_) hrest
  split at hv
  next =>
    cases hv
    exact hs
  next => cases hv

theorem fit_flagLine {b : Bool} (hrest : rest.Fit) :
    Lines.Fit (flagLine key b :: rest) := by
  refine Lines.fit_cons (fun v hv => ?_) hrest
  split at hv
  next =>
    cases hv
    trivial
  next => cases hv

end Values

def S3Config.texts (s3 : S3Config) : List String :=
  s3.endpoint.toList ++ s3.bucket.toList ++ s3.pre.toList ++
    s3.region.toList ++ s3.credentialsEnv.toList

def DestinationConfig.texts (d : DestinationConfig) : List String :=
  d.name.toList ++ d.type.toList ++ d.path.toList ++
    (d.s3.map S3Config.texts).getD []

/-- The texts among the settings of a profile that are written. -/
def Profile.texts (p : Profile) : List String :=
  p.source.uri.toList ++ p.source.uriEnv.toList ++
    [p.mode.backupType, p.mode.output, p.mode.engine] ++
    (if p.destinations.isEmpty then p.destination.texts else []) ++
    p.destinations.flatMap DestinationConfig.texts ++
    [p.features.compression.algorithm, p.features.encryption.algorithm] ++
    p.features.encryption.recipientFile.toList ++
    [p.features.incremental.interval, p.features.incremental.onGap]

/-- The ranges of the numbers in settings that have been read. -/
structure Profile.InRange (p : Profile) : Prop where
  connectTimeoutSecs : ∀ n ∈ p.source.connectTimeoutSecs, n < 2 ^ 63
  keepFull : ∀ n ∈ p.retention.keepFull, n < 2 ^ 32
  keepDays : ∀ n ∈ p.retention.keepDays, n < 2 ^ 32
  keepLast : ∀ n ∈ p.retention.keepLast, n < 2 ^ 32
  level : -2 ^ 31 ≤ p.features.compression.level ∧
    p.features.compression.level < 2 ^ 31

section Fit

theorem clean_s3Compact {bucket : String} {pre : Option String}
    (hbucket : Clean bucket) (hpre : ∀ x ∈ pre, Clean x) :
    Clean (s3Compact bucket pre) := by
  have hscheme : Clean "s3:" := clean_of_all (by decide +kernel)
  have hslash : Clean "/" := clean_of_all (by decide +kernel)
  rw [s3Compact]
  split
  next p hp =>
    have hclean := hpre p (Option.filter_eq_some_iff.mp hp).1
    exact clean_append (clean_append (clean_append hscheme hbucket) hslash)
      hclean
  next => exact clean_append hscheme hbucket

theorem fit_s3Lines {s3 : S3Config} (hclean : ∀ s ∈ s3.texts, Clean s) :
    (s3Lines s3).Fit := by
  simp only [S3Config.texts, List.mem_append, Option.mem_toList] at hclean
  exact fit_strLine (fun x hx => hclean x (by tauto)) <|
    fit_strLine (fun x hx => hclean x (by tauto)) <|
    fit_strLine (fun x hx => hclean x (by tauto)) Lines.fit_nil

variable {d : DestinationConfig}

theorem clean_s3 (hclean : ∀ s ∈ d.texts, Clean s) {s3 : S3Config}
    (hs3 : d.s3 = some s3) : ∀ s ∈ s3.texts, Clean s := by
  intro s hs
  refine hclean s (List.mem_append_right _ ?_)
  rw [hs3]
  exact hs

theorem clean_local {path : String} (hpath : Clean path) :
    Clean ("local:" ++ path) :=
  clean_append (clean_of_all (by decide +kernel)) hpath

theorem fit_emitSingleDest (hclean : ∀ s ∈ d.texts, Clean s) :
    (emitSingleDest d).Fit := by
  have hall := hclean
  simp only [DestinationConfig.texts, List.mem_append, Option.mem_toList] at hall
  refine fit_strLine (fun x hx => hall x (by tauto)) ?_
  split
  next =>
    refine fit_strLine (fun x hx => ?_) Lines.fit_nil
    obtain ⟨path, hpath, rfl⟩ := Option.map_eq_some_iff.mp hx
    exact clean_local (hall path (by tauto))
  next =>
    split
    next s3 hs3 =>
      have hs3 := clean_s3 hclean hs3
      have hparts := hs3
      simp only [S3Config.texts, List.mem_append, Option.mem_toList] at hparts
      refine fit_strLine ?_ (fit_s3Lines hs3)
      rintro x ⟨⟩
      split
      next b hb =>
        exact clean_s3Compact (hparts b (by tauto))
          fun y hy => hparts y (by tauto)
      next => exact clean_of_all (by decide +kernel)
    next => exact Lines.fit_nil
  next => exact Lines.fit_nil

theorem clean_destCompact (hclean : ∀ s ∈ d.texts, Clean s) {compact : String}
    (hcompact : destCompact d = some compact) : Clean compact := by
  have hall := hclean
  simp only [DestinationConfig.texts, List.mem_append, Option.mem_toList] at hall
  rw [destCompact] at hcompact
  split at hcompact
  next =>
    obtain ⟨path, hpath, rfl⟩ := Option.map_eq_some_iff.mp hcompact
    exact clean_local (hall path (by tauto))
  next =>
    obtain ⟨s3, hs3, hcompact⟩ := Option.bind_eq_some_iff.mp hcompact
    obtain ⟨b, hb, rfl⟩ := Option.map_eq_some_iff.mp hcompact
    have hparts := clean_s3 hclean hs3
    simp only [S3Config.texts, List.mem_append, Option.mem_toList] at hparts
    exact clean_s3Compact (hparts b (by tauto)) fun y hy => hparts y (by tauto)
  next => cases hcompact

theorem fit_destinationLines (hclean : ∀ s ∈ d.texts, Clean s) :
    (destinationLines d).Fit := by
  have hall := hclean
  simp only [DestinationConfig.texts, List.mem_append, Option.mem_toList] at hall
  refine fit_strLine (fun x hx => hall x (by tauto)) ?_
  split
  next compact hcompact =>
    refine fit_strLine ?_ ?_
    · rintro x ⟨⟩
      exact clean_destCompact hclean hcompact
    · split
      next =>
        cases hs3 : d.s3 with
        | none => exact Lines.fit_nil
        | some s3 => exact fit_s3Lines (clean_s3 hclean hs3)
      next => exact Lines.fit_nil
  next =>
    refine fit_strLine (fun x hx => hall x (by tauto)) ?_
    refine fit_strLine (fun x hx => hall x (by tauto)) ?_
    cases hs3 : d.s3 with
    | none => exact Lines.fit_nil
    | some s3 =>
        have hs3 := clean_s3 hclean hs3
        have hparts := hs3
        simp only [S3Config.texts, List.mem_append, Option.mem_toList] at hparts
        refine fit_strLine (fun x hx => hparts x (by tauto)) ?_
        exact fit_strLine (fun x hx => hparts x (by tauto)) (fit_s3Lines hs3)

theorem fit_emitCompression {c : CompressionConfig}
    (hclean : Clean c.algorithm) : (emitCompression c).Fit := by
  rw [emitCompression]
  split
  next =>
    refine fit_strLine ?_ Lines.fit_nil
    rintro x ⟨⟩
    exact clean_of_all (by decide +kernel)
  next =>
    split
    next =>
      refine fit_strLine ?_ Lines.fit_nil
      rintro x ⟨⟩
      exact clean_append (clean_append hclean (clean_of_all (by decide +kernel)))
        (clean_toString c.level)
    next => exact Lines.fit_nil

theorem fit_emitEncryption {e : EncryptionConfig} (hclean : Clean e.algorithm)
    (hrecipient : ∀ x ∈ e.recipientFile, Clean x) : (emitEncryption e).Fit := by
  rw [emitEncryption]
  split
  next =>
    refine Lines.fit_cons ?_ Lines.fit_nil
    rintro v ⟨⟩
    trivial
  next =>
    split
    next =>
      refine fit_strLine (fun x hx => ?_) Lines.fit_nil
      obtain ⟨rf, hrf, rfl⟩ := Option.map_eq_some_iff.mp hx
      exact clean_append (clean_of_all (by decide +kernel)) (hrecipient rf hrf)
    next =>
      refine fit_strLine ?_ (fit_strLine hrecipient Lines.fit_nil)
      rintro x ⟨⟩
      exact hclean

/-- All that is written of a profile has a text. -/
theorem fit_emitProfileBody {p : Profile} (hclean : ∀ s ∈ p.texts, Clean s)
    (hrange : p.InRange) : p.emitProfileBody.Fit := by
  have hall := hclean
  simp only [Profile.texts, List.mem_append, Option.mem_toList, List.mem_cons,
    List.mem_flatMap, List.not_mem_nil, or_false] at hall
  have hsmall : ∀ {n : Option Nat}, (∀ m ∈ n, m < 2 ^ 32) →
      ∀ m ∈ n, m < 2 ^ 63 := fun h m hm => (h m hm).trans (by decide)
  rw [Profile.emitProfileBody]
  refine Lines.fit_append (Lines.fit_append (Lines.fit_append
    (Lines.fit_append ?_ ?_) ?_) ?_) ?_
  · refine fit_strLine (fun x hx => hall x (by tauto)) ?_
    refine fit_strLine (fun x hx => hall x (by tauto)) ?_
    refine fit_flagLine ?_
    refine fit_numLine hrange.connectTimeoutSecs ?_
    refine fit_unlessLine (hall _ (by tauto)) ?_
    refine fit_unlessLine (hall _ (by tauto)) ?_
    refine Lines.fit_cons (fun v hv => ?_) ?_
    · split at hv
      next => cases hv
      next =>
        cases hv
        trivial
    · exact fit_unlessLine (hall _ (by tauto)) Lines.fit_nil
  · split
    next hsingle =>
      have hempty := (Bool.and_eq_true_iff.mp hsingle).1
      rw [if_pos hempty] at hall
      exact fit_emitSingleDest fun s hs => hall s (by tauto)
    next => exact Lines.fit_nil
  · exact fit_emitCompression (hall _ (by tauto))
  · exact fit_emitEncryption (hall _ (by tauto)) fun x hx => hall x (by tauto)
  · refine fit_unlessLine (hall _ (by tauto)) ?_
    refine fit_unlessLine (hall _ (by tauto)) ?_
    refine fit_flagLine (fit_flagLine ?_)
    refine fit_numLine (hsmall hrange.keepFull) ?_
    refine fit_numLine (hsmall hrange.keepDays) ?_
    exact fit_numLine (hsmall hrange.keepLast) Lines.fit_nil

end Fit

/-- The table of a profile, as a part of a document. -/
def Profile.block (name : String) (p : Profile) : Block where
  path := ["profile", name]
  pairs := p.emitProfileBody.pairs
  arrayKey := "dest"
  elements := p.destinations.map fun d => (destinationLines d).pairs

def outputBlocks (output : Option OutputSection) : List Block :=
  match output.bind OutputSection.language with
  | some lang => [⟨["output"], [("language", .string lang)], "dest", []⟩]
  | none => []

namespace Settings

variable (c : Settings)

def document : TomlText.Document where
  pairs := Lines.pairs [strLine "default_profile" c.defaultProfile]
  blocks := outputBlocks c.output ++
    c.profiles.entries.map fun entry => entry.2.block entry.1

/-- Names that stand without quotation marks, and texts without a character that
has to be escaped and is not. -/
structure Plain : Prop where
  names : ∀ entry ∈ c.profiles.entries, BareKey entry.1
  defaultProfile : ∀ s ∈ c.defaultProfile, Clean s
  language : ∀ s ∈ c.output.bind OutputSection.language, Clean s
  texts : ∀ entry ∈ c.profiles.entries, ∀ s ∈ entry.2.texts, Clean s

def InRange : Prop :=
  ∀ entry ∈ c.profiles.entries, entry.2.InRange

end Settings

section DocumentText

theorem pairsText_lines {ls : Lines} (hkeys : ∀ key ∈ ls.keys, BareKey key)
    (hfit : ls.Fit) : PairsText ls.pairs ls.text := by
  refine pairsText_line fun pair hpair => ?_
  have hmem := Lines.mem_pairs.mp hpair
  exact ⟨hkeys pair.1 (List.mem_map_of_mem hmem), hfit _ hmem _ rfl⟩

theorem blocksText_append {first second : List Block} {text more : List Char}
    (h : BlocksText first text) (hmore : BlocksText second more) :
    BlocksText (first ++ second) (text ++ more) := by
  induction h with
  | nil => exact hmore
  | blank _ ih => exact .blank ih
  | cons hpath hbare hpairs helements _ ih =>
      rw [List.append_assoc _ _ more]
      exact .cons hpath hbare hpairs helements ih

theorem elementsText_emitMultiDest {name : String}
    {dests : List DestinationConfig}
    (hclean : ∀ d ∈ dests, ∀ s ∈ d.texts, Clean s) :
    ElementsText ["profile", name, "dest"]
      (dests.map fun d => (destinationLines d).pairs)
      (emitMultiDest name dests) := by
  induction dests with
  | nil => exact .nil
  | cons d rest ih =>
      obtain ⟨hd, hrest⟩ := List.forall_mem_cons.mp hclean
      have hkeys : ∀ key ∈ (destinationLines d).keys, BareKey key :=
        fun key hkey =>
          elementKeys_spec.2 key ((keys_destinationLines d).subset hkey)
      have hbody := pairsText_lines hkeys (fit_destinationLines hd)
      have htext := ElementsText.cons hbody (.blank (ih hrest))
      have hwritten : emitMultiDest name (d :: rest) =
          "[[".toList ++ dotted ["profile", name, "dest"] ++ "]]\n".toList ++
            (destinationLines d).text ++ '\n' :: emitMultiDest name rest := by
        have hheader : "[[profile.".toList ++ name.toList ++
            ".dest]]\n".toList = "[[".toList ++
              dotted ["profile", name, "dest"] ++ "]]\n".toList := by
          simp [dotted, List.intercalate]
        rw [emitMultiDest, List.flatMap_cons, hheader, List.append_assoc _ ['\n'],
          emitMultiDest, hheader]
        rfl
      rw [hwritten]
      exact htext

theorem blocksText_emitProfile {name : String} {p : Profile}
    (hname : BareKey name) (hclean : ∀ s ∈ p.texts, Clean s)
    (hrange : p.InRange) :
    BlocksText [p.block name] (emitProfile name p) := by
  have hkeys : ∀ key ∈ p.emitProfileBody.keys, BareKey key := fun key hkey =>
    bodyKeys_spec.2 key ((keys_emitProfileBody p).subset hkey)
  have hbody := pairsText_lines hkeys (fit_emitProfileBody hclean hrange)
  have hbare : ∀ key ∈ ["profile", name, "dest"], BareKey key := by
    intro key hkey
    simp only [List.mem_cons, List.not_mem_nil, or_false] at hkey
    rcases hkey with rfl | rfl | rfl
    · decide +kernel
    · exact hname
    · decide +kernel
  have helements : ElementsText ["profile", name, "dest"] (p.block name).elements
      (if p.destinations.isEmpty then []
        else '\n' :: emitMultiDest name p.destinations) := by
    have hdests : ∀ d ∈ p.destinations, ∀ s ∈ d.texts, Clean s := by
      intro d hd s hs
      refine hclean s ?_
      simp only [Profile.texts, List.mem_append, List.mem_flatMap]
      exact .inl (.inl (.inl (.inr ⟨d, hd, hs⟩)))
    split
    next hempty =>
      rw [Profile.block, List.isEmpty_iff.mp hempty]
      exact .nil
    next => exact .blank (elementsText_emitMultiDest hdests)
  have hwritten : emitProfile name p =
      '\n' :: ("[".toList ++ dotted ["profile", name] ++ "]\n".toList ++
        p.emitProfileBody.text ++ (if p.destinations.isEmpty then []
          else '\n' :: emitMultiDest name p.destinations) ++ []) := by
    have hopen : "\n[profile.".toList = '\n' :: ("[".toList ++
        "profile.".toList) := by decide +kernel
    have hpath : dotted ["profile", name] = "profile.".toList ++ name.toList := by
      simp [dotted, List.intercalate]
    unfold emitProfile
    simp only [hopen, hpath, List.append_assoc, List.cons_append,
      List.append_nil]
  rw [hwritten]
  exact .blank (.cons (List.cons_ne_nil _ _) hbare hbody helements .nil)

theorem blocksText_profiles {entries : List (String × Profile)}
    (hnames : ∀ entry ∈ entries, BareKey entry.1)
    (htexts : ∀ entry ∈ entries, ∀ s ∈ entry.2.texts, Clean s)
    (hrange : ∀ entry ∈ entries, entry.2.InRange) :
    BlocksText (entries.map fun entry => entry.2.block entry.1)
      (entries.flatMap fun entry => emitProfile entry.1 entry.2) := by
  induction entries with
  | nil => exact .nil
  | cons entry rest ih =>
      obtain ⟨hname, hnames⟩ := List.forall_mem_cons.mp hnames
      obtain ⟨htext, htexts⟩ := List.forall_mem_cons.mp htexts
      obtain ⟨hin, hrange⟩ := List.forall_mem_cons.mp hrange
      rw [List.flatMap_cons, List.map_cons, ← List.singleton_append]
      exact blocksText_append (blocksText_emitProfile hname htext hin)
        (ih hnames htexts hrange)

theorem blocksText_emitOutput {output : Option OutputSection}
    (hclean : ∀ s ∈ output.bind OutputSection.language, Clean s) :
    BlocksText (outputBlocks output) (emitOutput output) := by
  rw [outputBlocks, emitOutput]
  cases hlang : output.bind OutputSection.language with
  | none => exact .nil
  | some lang =>
      have hpairs : PairsText [("language", .string lang)]
          (line ("language", .string lang)) :=
        .one (by decide +kernel) (scalarText_spec (hclean lang hlang))
      have hbare : ∀ key ∈ ["output", "dest"], BareKey key := by decide +kernel
      have hwritten : "\n[output]\n".toList ++ line ("language", .string lang) =
          '\n' :: ("[".toList ++ dotted ["output"] ++ "]\n".toList ++
            line ("language", .string lang) ++ [] ++ []) := by
        simp [dotted, List.intercalate]
      simp only
      rw [hwritten]
      exact .blank (.cons (List.cons_ne_nil _ _) hbare hpairs .nil .nil)

variable {c : Settings}

/-- What is written is the text of the document. -/
theorem text_toV2String (hplain : c.Plain) (hrange : c.InRange) :
    c.document.Text (toV2String c).toList := by
  refine ⟨_, _, pairsText_lines ?_ ?_, ?_,
    (String.toList_ofList.trans (List.append_assoc _ _ _))⟩
  · intro key hkey
    rw [List.mem_singleton.mp hkey]
    change BareKey "default_profile"
    decide +kernel
  · exact fit_strLine hplain.defaultProfile Lines.fit_nil
  · exact blocksText_append (blocksText_emitOutput hplain.language)
      (blocksText_profiles hplain.names hplain.texts hrange)

/-- With several destinations there is no line of a single one. -/
theorem keys_block (name : String) (p : Profile) :
    (p.block name).keys.Nodup := by
  have hsub := (Lines.fst_pairs_sublist p.emitProfileBody)
  rw [Block.keys]
  by_cases hempty : p.destinations.isEmpty
  · have hnone : (p.block name).elements.isEmpty = true := by
      rw [Profile.block, List.isEmpty_map]
      exact hempty
    rw [if_pos hnone, List.append_nil]
    exact bodyKeys_spec.1.sublist (hsub.trans (keys_emitProfileBody p))
  · have hbody : List.Sublist p.emitProfileBody.keys (generalKeys []) := by
      rw [Profile.emitProfileBody, keys_append, keys_append, keys_append,
        keys_append]
      refine .append (.append (.append (.append (.refl _) ?_)
        (keys_emitCompression _)) (keys_emitEncryption _)) (.refl _)
      rw [if_neg fun h => hempty (Bool.and_eq_true_iff.mp h).1]
      exact List.nil_sublist _
    have hsome : ¬ (p.block name).elements.isEmpty = true := by
      rw [Profile.block, List.isEmpty_map]
      exact hempty
    have hnodup : (generalKeys [] ++ ["dest"]).Nodup := by decide +kernel
    rw [if_neg hsome]
    exact hnodup.sublist ((hsub.trans hbody).append (.refl _))

/-- No key is written twice. -/
theorem distinct_document : c.document.Distinct where
  pairs := by
    refine List.Nodup.sublist (Lines.fst_pairs_sublist _) ?_
    exact List.nodup_singleton _
  blocks block hblock := by
    rcases List.mem_append.mp hblock with h | h
    · rw [outputBlocks] at h
      split at h
      next =>
        rw [List.mem_singleton.mp h]
        exact List.nodup_singleton _
      next => cases h
    · obtain ⟨entry, -, rfl⟩ := List.mem_map.mp h
      exact keys_block entry.1 entry.2
  elements block hblock pairs hpairs := by
    rcases List.mem_append.mp hblock with h | h
    · rw [outputBlocks] at h
      split at h
      next =>
        rw [List.mem_singleton.mp h] at hpairs
        cases hpairs
      next => cases h
    · obtain ⟨entry, -, rfl⟩ := List.mem_map.mp h
      obtain ⟨d, -, rfl⟩ := List.mem_map.mp hpairs
      exact elementKeys_spec.1.sublist
        ((Lines.fst_pairs_sublist _).trans (keys_destinationLines d))

end DocumentText

end Config

end XBackup
