/-
How destinations are read back from the lines that are written of them.
-/
import XBackup.Config.ReadBack

namespace XBackup

namespace Config

open Fallible Schedule TomlText

section Tables

theorem isEmpty_iff_get {t : Table} :
    t.entries.isEmpty = true ↔ ∀ key, t.get key = none := by
  constructor
  · intro hempty key
    rw [SortedMap.Map.get, List.isEmpty_iff.mp hempty]
    rfl
  · intro hnone
    rw [List.isEmpty_iff, List.eq_nil_iff_forall_not_mem]
    rintro ⟨key, value⟩ hmem
    have hget := SortedMap.Map.get_eq_some_iff.mpr hmem
    rw [hnone key] at hget
    cases hget

/-- The settings of S3 are what a table holds. -/
structure S3Config.In (s3 : S3Config) (t : Table) : Prop where
  endpoint : t.get "endpoint" = s3.endpoint.map .string
  bucket : t.get "bucket" = s3.bucket.map .string
  pre : t.get "prefix" = s3.pre.map .string
  region : t.get "region" = s3.region.map .string
  credentialsEnv : t.get "credentials_env" = s3.credentialsEnv.map .string
  others : ∀ key ∉ ["endpoint", "bucket", "prefix", "region", "credentials_env"],
    t.get key = none

def S3Config.absent : S3Config :=
  ⟨none, none, none, none, none⟩

/-- Settings of S3 are there when one of them is. -/
def S3Config.given (s3 : S3Config) : Option S3Config :=
  if s3 = S3Config.absent then none else some s3

variable {s3 : S3Config} {t s : Table}

theorem S3Config.read_of_in (hin : s3.In t) : S3Config.read t = .ok s3 := by
  rw [S3Config.read, optString_of_get hin.endpoint, optString_of_get hin.bucket,
    optString_of_get hin.pre, optString_of_get hin.region,
    optString_of_get hin.credentialsEnv]
  rfl

theorem S3Config.isEmpty_of_in (hin : s3.In t) :
    t.entries.isEmpty = true ↔ s3 = S3Config.absent := by
  rw [isEmpty_iff_get]
  constructor
  · intro hnone
    have hfield : ∀ {o : Option String} {key : String},
        t.get key = o.map Value.string → o = none := fun hget =>
      Option.map_eq_none_iff.mp (hget.symm.trans (hnone _))
    cases s3
    rw [S3Config.absent, S3Config.mk.injEq]
    exact ⟨hfield hin.endpoint, hfield hin.bucket, hfield hin.pre,
      hfield hin.region, hfield hin.credentialsEnv⟩
  · rintro rfl key
    by_cases hkey : key ∈ ["endpoint", "bucket", "prefix", "region",
      "credentials_env"]
    · simp only [List.mem_cons, List.not_mem_nil, or_false] at hkey
      rcases hkey with rfl | rfl | rfl | rfl | rfl
      · exact hin.endpoint
      · exact hin.bucket
      · exact hin.pre
      · exact hin.region
      · exact hin.credentialsEnv
    · exact hin.others key hkey

/-- A destination is read from its own table and from that of S3. -/
theorem DestinationConfig.read_insertTable {name type path : Option String}
    (hname : t.get "name" = name.map .string)
    (htype : t.get "type" = type.map .string)
    (hpath : t.get "path" = path.map .string) (hnone : t.get "s3" = none)
    (hin : s3.In s) :
    DestinationConfig.read (insertTable t "s3" s) =
      .ok ⟨name, type, path, s3.given⟩ := by
  have hkeep : ∀ {key : String} {o : Option Value}, key ≠ "s3" →
      t.get key = o → (insertTable t "s3" s).get key = o := fun hne hget =>
    (get_insertTable_of_ne hne).trans hget
  rw [DestinationConfig.read,
    optString_of_get (hkeep (by decide) hname),
    optString_of_get (hkeep (by decide) htype),
    optString_of_get (hkeep (by decide) hpath),
    optSub_of_holds (holds_insertTable hnone), S3Config.read_of_in hin,
    S3Config.given]
  by_cases habsent : s3 = S3Config.absent
  · rw [if_pos ((S3Config.isEmpty_of_in hin).mpr habsent), if_pos habsent]
    rfl
  · rw [if_neg (mt (S3Config.isEmpty_of_in hin).mp habsent), if_neg habsent]
    rfl

end Tables

section Split

variable {bucket : String} {pre : Option String}

/-- The text of a bucket and a prefix behind the scheme. -/
def s3Rest (bucket : String) (pre : Option String) : String :=
  match pre.filter (· ≠ "") with
  | some p => bucket ++ "/" ++ p
  | none => bucket

theorem s3Compact_eq : s3Compact bucket pre = "s3:" ++ s3Rest bucket pre := by
  rw [s3Compact, s3Rest]
  cases pre.filter (· ≠ "") with
  | none => rfl
  | some p => simp only [String.append_assoc]

/-- The prefix of a compact destination, where there is one. -/
def preOf (chars : List Char) : Option String :=
  if chars = [] then none else some (String.ofList chars)

/-- A bucket and a prefix are found again if there is no slash in the bucket and
no empty prefix. -/
theorem s3Split_s3Rest :
    (String.ofList (s3Split (s3Rest bucket pre).toList).1 = bucket ∧
      preOf (s3Split (s3Rest bucket pre).toList).2 = pre) ↔
      '/' ∉ bucket.toList ∧ pre ≠ some "" := by
  by_cases hslash : '/' ∈ bucket.toList
  · refine iff_of_false (fun h => ?_) fun h => h.1 hslash
    have hrest : '/' ∈ (s3Rest bucket pre).toList := by
      rw [s3Rest]
      cases pre.filter (· ≠ "") with
      | none => exact hslash
      | some p =>
          rw [String.toList_append, String.toList_append, List.append_assoc]
          exact List.mem_append_left _ hslash
    rw [s3Split, splitOnceAt, if_pos hrest, Option.getD_some] at h
    have hbucket := h.1
    rw [← hbucket, String.toList_ofList] at hslash
    have hne := List.mem_takeWhile_imp hslash
    exact of_decide_eq_true hne rfl
  · rw [and_iff_right hslash, s3Rest]
    cases hpre : pre.filter (· ≠ "") with
    | none =>
        rw [s3Split, splitOnceAt_of_not_mem hslash, Option.getD_none,
          String.ofList_toList]
        rw [Option.filter_eq_none_iff] at hpre
        cases pre with
        | none => simp [preOf]
        | some p =>
            have hempty : p = "" := by simpa using hpre p rfl
            simp [preOf, hempty]
    | some p =>
        have htext : (bucket ++ "/" ++ p).toList =
            bucket.toList ++ '/' :: p.toList := by
          rw [String.toList_append, String.toList_append, List.append_assoc]
          rfl
        obtain ⟨rfl, hne⟩ := Option.filter_eq_some_iff.mp hpre
        have hne : p ≠ "" := of_decide_eq_true hne
        rw [s3Split, htext, splitOnceAt_append hslash, Option.getD_some,
          String.ofList_toList, preOf, if_neg (mt toList_eq_nil.mp hne),
          String.ofList_toList]
        simp [hne]

theorem fst_s3Split (hslash : '/' ∉ bucket.toList) :
    (s3Split (s3Rest bucket pre).toList).1 = bucket.toList := by
  rw [s3Rest]
  cases pre.filter (· ≠ "") with
  | none => rw [s3Split, splitOnceAt_of_not_mem hslash, Option.getD_none]
  | some p =>
      have htext : (bucket ++ "/" ++ p).toList =
          bucket.toList ++ '/' :: p.toList := by
        rw [String.toList_append, String.toList_append, List.append_assoc]
        rfl
      rw [s3Split, htext, splitOnceAt_append hslash, Option.getD_some]

end Split

/-- Settings of S3 that a compact destination can hold. -/
structure S3Config.Compact (s3 : S3Config) (name : String) : Prop where
  bucket : s3.bucket = some name
  nonempty : name ≠ ""
  slash : '/' ∉ name.toList
  pre : s3.pre ≠ some ""

/-- A single destination that can be written. -/
def DestinationConfig.KeptAlone (d : DestinationConfig) : Prop :=
  match d.type with
  | none => d = ⟨none, none, none, none⟩
  | some "local" => d.s3 = none ∧ ∃ path, d.path = some path ∧ path ≠ ""
  | some "s3" => d.path = none ∧ ∃ s3 bucket, d.s3 = some s3 ∧ s3.Compact bucket
  | some _ => False

/-- One of several destinations that can be written. -/
def DestinationConfig.KeptListed (d : DestinationConfig) : Prop :=
  if (destCompact d).isSome then d.KeptAlone else d.s3 ≠ some S3Config.absent

section Compactly

/-- What is written beside a compact destination. -/
def beside (name : Option String) (s3 : Option S3Config) :
    Part → String → Option Value
  | .destination, "name" => name.map .string
  | .s3, "region" => (s3.bind S3Config.region).map .string
  | .s3, "endpoint" => (s3.bind S3Config.endpoint).map .string
  | .s3, "credentials_env" => (s3.bind S3Config.credentialsEnv).map .string
  | _, _ => none

/-- What is collected of a compact destination and what is beside it. -/
def Compactly (q : Parts) (name : Option String) (s3 : Option S3Config)
    (ws : List Write) : Prop :=
  ∀ part key, part = .destination ∨ part = .s3 →
    (q.tables part).get key =
      (beside name s3 part key).or (((Parts.written ws).tables part).get key)

variable {q : Parts} {name : Option String} {s3 : Option S3Config}

theorem get_written_cons {part part' : Part} {key key' : String} {v : Value}
    {ws : List Write} :
    ((Parts.written (.field part' key' v :: ws)).tables part).get key =
      (((Parts.written ws).tables part).get key).or
        (if part = part' ∧ key = key' then some v else none) := by
  rw [Parts.written, List.foldl_cons, Parts.get_foldl_write,
    ← get_written_field]
  rfl

theorem get_written_nil {part : Part} {key : String} :
    ((Parts.written []).tables part).get key = none :=
  rfl

theorem get_written_local {path : String} (part : Part) (key : String) :
    ((Parts.written [.field .destination "type" (.string "local"),
        .field .destination "path" (.string path)]).tables part).get key =
      (if part = .destination ∧ key = "path" then some (.string path)
        else none).or
      (if part = .destination ∧ key = "type" then some (.string "local")
        else none) := by
  rw [get_written_cons, get_written_field]

theorem get_written_s3 {parts : List Char × List Char} (part : Part)
    (key : String) :
    ((Parts.written (s3Writes parts)).tables part).get key =
      ((if part = .s3 ∧ key = "prefix" then (preOf parts.2).map .string
          else none).or
        (if part = .s3 ∧ key = "bucket" then
          some (.string (String.ofList parts.1)) else none)).or
      (if part = .destination ∧ key = "type" then some (.string "s3")
        else none) := by
  rw [s3Writes, get_written_cons, get_written_cons, preOf]
  congr 2
  by_cases hpre : parts.2 = []
  · rw [if_pos hpre, if_pos hpre, get_written_nil]
    simp
  · rw [if_neg hpre, if_neg hpre, get_written_field]
    rfl

theorem read_nothing (hq : Compactly q name none []) :
    DestinationConfig.read q.destination = .ok ⟨name, none, none, none⟩ := by
  have hget : ∀ part key, part = .destination ∨ part = .s3 →
      (q.tables part).get key = beside name none part key := by
    intro part key hpart
    rw [hq part key hpart, get_written_nil, Option.or_none]
  have hin : S3Config.absent.In (q.tables .s3) := by
    have hnone : ∀ key, (q.tables .s3).get key = none := by
      intro key
      rw [hget .s3 key (.inr rfl), beside.eq_def]
      split <;> first | rfl | simp_all
    exact ⟨hnone _, hnone _, hnone _, hnone _, hnone _, fun key _ => hnone key⟩
  exact DestinationConfig.read_insertTable (hget _ _ (.inl rfl))
    (hget _ _ (.inl rfl)) (hget _ _ (.inl rfl)) (hget _ _ (.inl rfl)) hin

theorem read_local {path : String} (hq : Compactly q name none
      [.field .destination "type" (.string "local"),
        .field .destination "path" (.string path)]) :
    DestinationConfig.read q.destination =
      .ok ⟨name, some "local", some path, none⟩ := by
  have hget : ∀ part key, part = .destination ∨ part = .s3 →
      (q.tables part).get key = _ := fun part key hpart =>
    (hq part key hpart).trans (congrArg _ (get_written_local part key))
  have hin : S3Config.absent.In (q.tables .s3) := by
    have hnone : ∀ key, (q.tables .s3).get key = none := by
      intro key
      rw [hget .s3 key (.inr rfl), beside.eq_def]
      split <;> simp_all
    exact ⟨hnone _, hnone _, hnone _, hnone _, hnone _, fun key _ => hnone key⟩
  refine DestinationConfig.read_insertTable ((hget _ _ (.inl rfl)).trans ?_)
    ((hget _ _ (.inl rfl)).trans rfl) ((hget _ _ (.inl rfl)).trans rfl)
    ((hget _ _ (.inl rfl)).trans rfl) hin
  cases name <;> rfl

/-- What a compact destination on S3 is read back as. -/
def S3Config.split (s3 : S3Config) (parts : List Char × List Char) : S3Config :=
  { s3 with bucket := some (String.ofList parts.1), pre := preOf parts.2 }

theorem read_s3 {s3 : S3Config} {parts : List Char × List Char}
    (hq : Compactly q name (some s3) (s3Writes parts)) :
    DestinationConfig.read q.destination =
      .ok ⟨name, some "s3", none, some (s3.split parts)⟩ := by
  have hget : ∀ part key, part = .destination ∨ part = .s3 →
      (q.tables part).get key = _ := fun part key hpart =>
    (hq part key hpart).trans (congrArg _ (get_written_s3 part key))
  have hor : ∀ o : Option String, (o.map Value.string).or ((Option.or none none).or
      none) = o.map Value.string := fun o => by cases o <;> rfl
  have hin : (s3.split parts).In (q.tables .s3) := by
    refine ⟨(hget _ _ (.inr rfl)).trans (hor _), (hget _ _ (.inr rfl)).trans rfl,
      (hget _ _ (.inr rfl)).trans ?_, (hget _ _ (.inr rfl)).trans (hor _),
      (hget _ _ (.inr rfl)).trans (hor _), fun key hkey => ?_⟩
    · cases hpre : preOf parts.2 <;> simp [beside, S3Config.split, hpre]
    · rw [hget .s3 key (.inr rfl), beside.eq_def]
      split <;> simp_all
  have hgiven : (s3.split parts).given = some (s3.split parts) := by
    rw [S3Config.given, if_neg]
    intro habsent
    cases congrArg S3Config.bucket habsent
  rw [← hgiven]
  exact DestinationConfig.read_insertTable ((hget _ _ (.inl rfl)).trans (hor _))
    ((hget _ _ (.inl rfl)).trans rfl) ((hget _ _ (.inl rfl)).trans rfl)
    ((hget _ _ (.inl rfl)).trans rfl) hin

variable {d : DestinationConfig} {compact profile : String} {ws : List Write}

theorem destCompact_cases (hcompact : destCompact d = some compact) :
    (∃ name path s3, d = ⟨name, some "local", some path, s3⟩ ∧
        compact = "local:" ++ path) ∨
      ∃ name path s3 bucket, d = ⟨name, some "s3", path, some s3⟩ ∧
        s3.bucket = some bucket ∧ compact = "s3:" ++ s3Rest bucket s3.pre := by
  obtain ⟨name, type, path, s3⟩ := d
  rw [destCompact] at hcompact
  split at hcompact
  next htype =>
    obtain ⟨p, rfl, hp⟩ := Option.map_eq_some_iff.mp hcompact
    cases htype
    exact .inl ⟨name, p, s3, rfl, hp.symm⟩
  next htype =>
    obtain ⟨found, rfl, hbucket⟩ := Option.bind_eq_some_iff.mp hcompact
    obtain ⟨bucket, hb, hp⟩ := Option.map_eq_some_iff.mp hbucket
    cases htype
    exact .inr ⟨name, path, found, bucket, rfl, hb, hp.symm.trans s3Compact_eq⟩
  next => cases hcompact

/-- The settings of S3 that are written beside a compact destination. -/
def DestinationConfig.besideS3 (d : DestinationConfig) : Option S3Config :=
  if d.type = some "s3" then d.s3 else none

/-- A compact destination is read back as it was, or not. -/
theorem read_compact (hcompact : destCompact d = some compact)
    (hparse : parseDestCompact profile compact = .ok ws)
    (hq : Compactly q d.name d.besideS3 ws) :
    DestinationConfig.read q.destination = .ok d ↔ d.KeptAlone := by
  rcases destCompact_cases hcompact with ⟨name, path, s3, rfl, rfl⟩ |
    ⟨name, path, s3, bucket, rfl, hbucket, rfl⟩
  · obtain ⟨hne, rfl⟩ := parseDestCompact_local.mp hparse
    have hread := read_local hq
    rw [hread]
    simp [DestinationConfig.KeptAlone, hne, eq_comm]
  · obtain ⟨hne, rfl⟩ := parseDestCompact_s3.mp hparse
    have hread := read_s3 hq
    have hfields : ∀ parts, s3.split parts = s3 ↔
        String.ofList parts.1 = bucket ∧ preOf parts.2 = s3.pre := by
      intro parts
      obtain ⟨endpoint, b, pre, region, credentialsEnv⟩ := s3
      obtain rfl : b = some bucket := hbucket
      simp [S3Config.split]
    have hkept : (∃ found b, some s3 = some found ∧ found.Compact b) ↔
        '/' ∉ bucket.toList ∧ s3.pre ≠ some "" := by
      constructor
      · rintro ⟨found, b, hfound, hcompact⟩
        cases hfound
        cases hbucket.symm.trans hcompact.bucket
        exact ⟨hcompact.slash, hcompact.pre⟩
      · rintro ⟨hslash, hpre⟩
        refine ⟨s3, bucket, rfl, hbucket, fun hempty => hne ?_, hslash, hpre⟩
        rw [fst_s3Split hslash, toList_eq_nil]
        exact hempty
    rw [hread, DestinationConfig.KeptAlone, hkept, ← s3Split_s3Rest, ← hfields]
    simp [eq_comm]

/-- A destination that can be written is refused by no reader. -/
theorem exists_parse (hkept : d.KeptAlone) (hcompact : destCompact d = some compact) :
    ∃ ws, parseDestCompact profile compact = .ok ws := by
  rcases destCompact_cases hcompact with ⟨name, path, s3, rfl, rfl⟩ |
    ⟨name, path, s3, bucket, rfl, hbucket, rfl⟩
  · obtain ⟨-, found, hfound, hne⟩ := hkept
    cases hfound
    exact ⟨_, parseDestCompact_local.mpr ⟨hne, rfl⟩⟩
  · obtain ⟨-, found, b, hfound, hkept⟩ := hkept
    cases hfound
    cases hbucket.symm.trans hkept.bucket
    refine ⟨_, parseDestCompact_s3.mpr ⟨fun hempty => hkept.nonempty ?_, rfl⟩⟩
    rw [fst_s3Split hkept.slash, toList_eq_nil] at hempty
    exact hempty

end Compactly

/-- The table that some lines are read into. -/
def Lines.table (ls : Lines) : Table :=
  SortedMap.Map.ofEntries (entriesOf values ls.pairs)

section Listed

variable {name : String} {i : Nat} {t : Table} {q : Parts}
  {d : DestinationConfig}

theorem destKeys_spec :
    (destKeys.map Prod.fst).Nodup ∧ (destKeys.map Prod.snd).Nodup ∧
      ∀ entry ∈ destKeys, "dest" < entry.1 := by
  decide +kernel

/-- The value that a key of its own gives a setting. -/
def explicitSetting (t : Table) (part : Part) (key : String) : Option Value :=
  (destKeys.find? fun entry => entry.2 = (part, key)).bind fun entry =>
    t.get entry.1

/-- The value that the compact key gives a setting. -/
def compactSetting (name : String) (i : Nat) (t : Table) (part : Part)
    (key : String) : Option Value :=
  (t.get "dest").bind fun v =>
    writtenTo (destEntryWrites name i) part key ("dest", v)

theorem writtenTo_explicit {entry : String × Value} (hdest : entry.1 ≠ "dest")
    (part : Part) (key : String) :
    writtenTo (destEntryWrites name i) part key entry =
      if destKeys.lookup entry.1 = some (part, key) then some entry.2
      else none := by
  rw [writtenTo, destEntryWrites, if_neg hdest]
  cases hlookup : destKeys.lookup entry.1 with
  | none => rfl
  | some target =>
      simp only [get_written_field]
      have hiff : (part = target.1 ∧ key = target.2) ↔
          some target = some (part, key) := by
        rw [Option.some.injEq, Prod.ext_iff, eq_comm, @eq_comm _ key]
      simp only [hiff]

/-- A setting of a listed destination. -/
theorem get_listed (hcollect : collect (destEntryWrites name i) t = .ok q)
    (part : Part) (key : String) :
    (q.tables part).get key =
      (explicitSetting t part key).or (compactSetting name i t part key) := by
  obtain ⟨hkeys, htargets, hlt⟩ := destKeys_spec
  have hown : ∀ entry : String × Value, ∀ x,
      writtenTo (destEntryWrites name i) part key entry = some x →
        entry.1 = "dest" ∨ (entry.1, part, key) ∈ destKeys := by
    intro entry x hx
    by_cases hdest : entry.1 = "dest"
    · exact .inl hdest
    · rw [writtenTo_explicit hdest] at hx
      split at hx
      next hlookup =>
        exact .inr ((SortedMap.lookup_eq_some_iff_mem hkeys).mp hlookup)
      next => cases hx
  rw [explicitSetting]
  cases hfind : destKeys.find? fun entry => entry.2 = (part, key) with
  | none =>
      have honly : ∀ entry ∈ t.entries, ∀ x,
          writtenTo (destEntryWrites name i) part key entry = some x →
            entry.1 = "dest" := by
        intro entry _ x hx
        refine (hown entry x hx).resolve_right fun hmem => ?_
        have hne := List.find?_eq_none.mp hfind _ hmem
        simp at hne
      rw [get_collect_one hcollect honly]
      rfl
  | some found =>
      have hmem := List.mem_of_find?_eq_some hfind
      have hfound := List.find?_some hfind
      have htarget : found.2 = (part, key) := of_decide_eq_true hfound
      have hlookup : destKeys.lookup found.1 = some (part, key) := by
        rw [SortedMap.lookup_eq_some_iff_mem hkeys, ← htarget]
        exact hmem
      rw [get_collect hcollect (hlt found hmem)]
      · have hself : ∀ v, writtenTo (destEntryWrites name i) part key
            (found.1, v) = some v := by
          intro v
          rw [writtenTo_explicit (hlt found hmem).ne', if_pos hlookup]
        simp only [hself, Option.bind_some]
        rw [Option.bind_fun_some]
        rfl
      · intro entry _ x hx
        refine (hown entry x hx).imp_right fun hother => ?_
        exact congrArg Prod.fst (List.inj_on_of_nodup_map htargets hother hmem
          htarget.symm)

theorem get_table (d : DestinationConfig) (key : String) :
    (destinationLines d).table.get key =
      ((destinationLines d).value key).map values.scalar :=
  get_lines (elementKeys_spec.1.sublist (keys_destinationLines d)) key

theorem explicitSetting_eq_none {part : Part} {key : String}
    (htarget : (part, key) ∉ destKeys.map Prod.snd) :
    explicitSetting t part key = none := by
  rw [explicitSetting, List.find?_eq_none.mpr]
  · rfl
  · intro entry hentry heq
    exact htarget (of_decide_eq_true heq ▸ List.mem_map_of_mem hentry)

theorem beside_eq_none {s3 : Option S3Config} {part : Part} {key : String}
    {owner : Option String} (htarget : (part, key) ∉ destKeys.map Prod.snd) :
    beside owner s3 part key = none := by
  rw [beside.eq_def]
  split
  next => exact absurd (by decide +kernel) htarget
  next => exact absurd (by decide +kernel) htarget
  next => exact absurd (by decide +kernel) htarget
  next => exact absurd (by decide +kernel) htarget
  next => rfl

variable {compact : String} {ws : List Write}

theorem destinationLines_compact (hcompact : destCompact d = some compact) :
    destinationLines d = strLine "name" d.name ::
      strLine "dest" (some compact) ::
        (d.besideS3.map s3Lines).getD [] := by
  rw [destinationLines, hcompact, DestinationConfig.besideS3]
  by_cases hs3 : d.type = some "s3"
  · simp only [if_pos hs3]
  · simp only [if_neg hs3]
    rfl

theorem map_scalar_string (o : Option String) :
    (o.map Scalar.string).map values.scalar = o.map Value.string :=
  Option.map_map _ _ _

theorem compactly_listed (hcompact : destCompact d = some compact)
    (hparse : parseDestCompact name compact = .ok ws)
    (hcollect : collect (destEntryWrites name i) (destinationLines d).table =
      .ok q) :
    Compactly q d.name d.besideS3 ws := by
  have hvalue : ∀ key, (destinationLines d).table.get key =
      (Lines.value (strLine "name" d.name :: strLine "dest" (some compact) ::
        (d.besideS3.map s3Lines).getD []) key).map values.scalar := by
    intro key
    rw [get_table, destinationLines_compact hcompact]
  intro part key _
  rw [get_listed hcollect]
  congr 1
  · by_cases htarget : (part, key) ∈ destKeys.map Prod.snd
    · simp only [destKeys, List.map_cons, List.map_nil, List.mem_cons,
        List.not_mem_nil, or_false, Prod.mk.injEq] at htarget
      rcases htarget with ⟨rfl, rfl⟩ | ⟨rfl, rfl⟩ | ⟨rfl, rfl⟩ | ⟨rfl, rfl⟩ |
        ⟨rfl, rfl⟩ | ⟨rfl, rfl⟩ | ⟨rfl, rfl⟩ | ⟨rfl, rfl⟩ <;>
        refine (hvalue _).trans ?_ <;> cases d.besideS3 <;>
        first | rfl | exact map_scalar_string _
    · rw [explicitSetting_eq_none htarget, beside_eq_none htarget]
  · have hdest : (destinationLines d).table.get "dest" =
        some (.string compact) := hvalue "dest"
    rw [compactSetting, hdest, Option.bind_some, writtenTo, destEntryWrites,
      if_pos rfl]
    simp only [Value.asStr, hparse]

end Listed

end Config

end XBackup
