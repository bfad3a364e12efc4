/-
What is read of the lines that are written of a profile.
-/
import XBackup.Config.Layers
import XBackup.Config.WrittenText

namespace XBackup

namespace Config

open Fallible Schedule TomlText

/-- How a document is read into the values of a config. -/
def values : Values Value where
  scalar
    | .string s => .string s
    | .integer n => .integer (Int64.ofInt n)
    | .boolean b => .boolean b
  array := .array
  table t := .table t.entries
  asTable := Value.asTable

section Lookup

/-- What is written under a key. -/
def Lines.value (ls : Lines) (key : String) : Option Scalar :=
  (ls.lookup key).join

theorem Lines.value_eq_some_iff {ls : Lines} (hkeys : ls.keys.Nodup)
    {key : String} {v : Scalar} :
    ls.value key = some v ↔ (key, v) ∈ ls.pairs := by
  rw [value, Option.join_eq_some_iff, SortedMap.lookup_eq_some_iff_mem hkeys,
    mem_pairs]

/-- The table of some lines. -/
theorem get_lines {ls : Lines} (hkeys : ls.keys.Nodup) (key : String) :
    (SortedMap.Map.ofEntries (entriesOf values ls.pairs)).get key =
      (ls.value key).map values.scalar := by
  have hnodup : ((entriesOf values ls.pairs).map Prod.fst).Nodup := by
    rw [fst_entriesOf]
    exact hkeys.sublist ls.fst_pairs_sublist
  refine Option.ext fun value => ?_
  rw [SortedMap.Map.get_ofEntries_eq_some_iff hnodup, Option.map_eq_some_iff,
    entriesOf, List.mem_map]
  constructor
  · rintro ⟨⟨k, v⟩, hmem, heq⟩
    cases heq
    exact ⟨v, (Lines.value_eq_some_iff hkeys).mpr hmem, rfl⟩
  · rintro ⟨v, hv, rfl⟩
    exact ⟨(key, v), (Lines.value_eq_some_iff hkeys).mp hv, rfl⟩

theorem Lines.value_append (first second : Lines) (key : String)
    (hkey : key ∉ first.keys ∨ key ∉ second.keys) :
    Lines.value (first ++ second) key =
      (first.value key).or (second.value key) := by
  have hnone : ∀ {ls : Lines}, key ∉ ls.keys → ls.lookup key = none := by
    intro ls hnot
    rw [List.lookup_eq_none_iff]
    intro l hl
    rw [bne_iff_ne]
    rintro rfl
    exact hnot (List.mem_map_of_mem hl)
  rw [value, value, value, List.lookup_append]
  rcases hkey with h | h
  · rw [hnone h]
    rfl
  · rw [hnone h, Option.or_none]
    exact (Option.or_none).symm

theorem Lines.value_of_not_mem {ls : Lines} {key : String}
    (hkey : key ∉ ls.keys) : ls.value key = none := by
  rw [value, List.lookup_eq_none_iff.mpr]
  · rfl
  · intro l hl
    rw [bne_iff_ne]
    rintro rfl
    exact hkey (List.mem_map_of_mem hl)

end Lookup

section Collected

variable {writes : String × Value → Except String (List Write)} {t : Table}
  {q : Parts}

/-- Everything is collected when each entry writes something. -/
theorem exists_collect :
    (∃ q, collect writes t = .ok q) ↔
      ∀ entry ∈ t.entries, ∃ ws, writes entry = .ok ws := by
  have hentries : ∀ (entries : List (String × Value)) (p : Parts),
      (∃ q, collectEntries writes entries p = .ok q) ↔
        ∀ entry ∈ entries, ∃ ws, writes entry = .ok ws := by
    intro entries
    induction entries with
    | nil => exact fun p => ⟨fun _ => nofun, fun _ => ⟨p, rfl⟩⟩
    | cons entry rest ih =>
        intro p
        rw [List.forall_mem_cons]
        constructor
        · rintro ⟨q, hq⟩
          rw [collectEntries, List.foldlM_cons] at hq
          obtain ⟨p', hp', hrest⟩ := bind_eq_ok.mp hq
          obtain ⟨ws, hws, -⟩ := bind_eq_ok.mp hp'
          exact ⟨⟨ws, hws⟩, (ih p').mp ⟨q, hrest⟩⟩
        · rintro ⟨⟨ws, hws⟩, hrest⟩
          obtain ⟨q, hq⟩ := (ih (ws.foldl Parts.write p)).mpr hrest
          refine ⟨q, ?_⟩
          rw [collectEntries, List.foldlM_cons]
          exact bind_eq_ok.mpr ⟨_, bind_eq_ok.mpr ⟨ws, hws, rfl⟩, hq⟩
  exact hentries t.entries Parts.empty

/-- A setting that two keys can write: the greater one comes last. -/
theorem get_collect (hcollect : collect writes t = .ok q) {part : Part}
    {key first last : String} (hlt : first < last)
    (honly : ∀ entry ∈ t.entries, ∀ x, writtenTo writes part key entry = some x →
      entry.1 = first ∨ entry.1 = last) :
    (q.tables part).get key =
      ((t.get last).bind fun v => writtenTo writes part key (last, v)).or
        ((t.get first).bind fun v => writtenTo writes part key (first, v)) := by
  have hget := get_collectEntries hcollect part key
  rw [show (Parts.empty.tables part).get key = none from rfl, Option.or_none]
    at hget
  rw [hget]
  have hwrites : ∀ k x, ((t.get k).bind fun v => writtenTo writes part key (k, v)) =
      some x ↔ ∃ v, (k, v) ∈ t.entries ∧ writtenTo writes part key (k, v) = some x := by
    intro k x
    rw [Option.bind_eq_some_iff]
    exact exists_congr fun v => and_congr_left' SortedMap.Map.get_eq_some_iff
  refine Option.ext fun x => ?_
  rw [SortedMap.Map.findSome?_reverse_eq_some_iff, Option.or_eq_some_iff, hwrites]
  constructor
  · rintro ⟨⟨k, v⟩, hmem, hx, hgreatest⟩
    rcases honly _ hmem x hx with rfl | rfl
    · refine .inr ⟨?_, (hwrites _ x).mpr ⟨v, hmem, hx⟩⟩
      rw [Option.eq_none_iff_forall_ne_some]
      intro y hy
      obtain ⟨v', hmem', hy'⟩ := (hwrites _ y).mp hy
      have hle := hgreatest _ hmem' (by rw [hy']; rfl)
      exact absurd hlt (not_lt.mpr hle)
    · exact .inl ⟨v, hmem, hx⟩
  · rintro (⟨v, hmem, hx⟩ | ⟨hnone, hfirst⟩)
    · refine ⟨_, hmem, hx, fun other hother hsome => ?_⟩
      obtain ⟨y, hy⟩ := Option.isSome_iff_exists.mp hsome
      rcases honly other hother y hy with h | h
      · rw [h]
        exact hlt.le
      · exact h.le
    · obtain ⟨v, hmem, hx⟩ := (hwrites _ x).mp hfirst
      refine ⟨_, hmem, hx, fun other hother hsome => ?_⟩
      obtain ⟨y, hy⟩ := Option.isSome_iff_exists.mp hsome
      rcases honly other hother y hy with h | h
      · exact h.le
      · have hlast := (hwrites last y).mpr ⟨other.2, by rw [← h]; exact hother,
          by rw [← h]; exact hy⟩
        rw [hnone] at hlast
        cases hlast

/-- A setting that one key can write. -/
theorem get_collect_one (hcollect : collect writes t = .ok q) {part : Part}
    {key only : String}
    (honly : ∀ entry ∈ t.entries, ∀ x, writtenTo writes part key entry = some x →
      entry.1 = only) :
    (q.tables part).get key =
      (t.get only).bind fun v => writtenTo writes part key (only, v) := by
  have hget := get_collectEntries hcollect part key
  rw [show (Parts.empty.tables part).get key = none from rfl, Option.or_none]
    at hget
  rw [hget]
  refine Option.ext fun x => ?_
  rw [SortedMap.Map.findSome?_reverse_eq_some_iff, Option.bind_eq_some_iff]
  constructor
  · rintro ⟨⟨k, v⟩, hmem, hx, -⟩
    obtain rfl := honly _ hmem x hx
    exact ⟨v, SortedMap.Map.get_eq_some_iff.mpr hmem, hx⟩
  · rintro ⟨v, hget, hx⟩
    refine ⟨_, SortedMap.Map.get_eq_some_iff.mp hget, hx, fun other hother hsome => ?_⟩
    obtain ⟨y, hy⟩ := Option.isSome_iff_exists.mp hsome
    exact (honly other hother y hy).le

end Collected

section Keys

variable {name explicit compact key : String} {flat : Table} {q : Parts}
  {part : Part}

/-- A setting that only a key of its own writes. -/
theorem get_plain (hcollect : collect (keyWrites name) flat = .ok q)
    (hlookup : plainKeys.lookup explicit = some (part, key))
    (htarget : (part, key) ∉ compactTargets) :
    (q.tables part).get key = flat.get explicit := by
  have honly : ∀ entry ∈ flat.entries, ∀ x,
      writtenTo (keyWrites name) part key entry = some x → entry.1 = explicit := by
    intro entry _ x hx
    rcases settingOf_cases hx with ⟨hmem, -⟩ | ⟨hplain, -⟩
    · exact absurd hmem htarget
    · exact eq_of_lookup_eq hplain hlookup
  rw [get_collect_one hcollect honly]
  have hself : ∀ v, writtenTo (keyWrites name) part key (explicit, v) = some v :=
    fun v => settingOf_plain hlookup
  simp only [hself]
  exact Option.bind_fun_some (flat.get explicit)

/-- A setting of a part with a compact key, and a key of its own. -/
theorem get_both (hcollect : collect (keyWrites name) flat = .ok q)
    (hlookup : plainKeys.lookup explicit = some (part, key))
    (hcompact : compactKey part = some compact) :
    (q.tables part).get key = (flat.get explicit).or
      ((flat.get compact).bind fun v => settingOf name part key (compact, v)) := by
  have hlt := compactKey_lt (mem_plainKeys_of_lookup hlookup) hcompact
  have honly : ∀ entry ∈ flat.entries, ∀ x,
      writtenTo (keyWrites name) part key entry = some x →
        entry.1 = compact ∨ entry.1 = explicit := by
    intro entry _ x hx
    rcases settingOf_cases hx with ⟨-, hcompact'⟩ | ⟨hplain, -⟩
    · exact .inl (Option.some.inj (hcompact'.symm.trans hcompact))
    · exact .inr (eq_of_lookup_eq hplain hlookup)
  rw [get_collect hcollect hlt honly]
  have hself : ∀ v, writtenTo (keyWrites name) part key (explicit, v) = some v :=
    fun v => settingOf_plain hlookup
  simp only [hself]
  rw [Option.bind_fun_some]
  rfl

/-- A setting without a key of its own. -/
theorem get_compact (hcollect : collect (keyWrites name) flat = .ok q)
    (hnone : (part, key) ∉ plainKeys.map Prod.snd)
    (hcompact : compactKey part = some compact) :
    (q.tables part).get key =
      (flat.get compact).bind fun v => settingOf name part key (compact, v) := by
  refine get_collect_one hcollect fun entry _ x hx => ?_
  rcases settingOf_cases hx with ⟨-, hcompact'⟩ | ⟨hplain, -⟩
  · exact Option.some.inj (hcompact'.symm.trans hcompact)
  · exact absurd (List.mem_map_of_mem (mem_plainKeys_of_lookup hplain)) hnone

end Keys

section Fields

variable {t : Table} {key : String}

theorem optString_of_get {o : Option String}
    (hget : t.get key = o.map Value.string) : optString t key = .ok o := by
  rw [optString, field, hget]
  cases o <;> rfl

theorem stringField_of_get {default s : String}
    (hget : t.get key = if s ≠ default then some (.string s) else none) :
    stringField default t key = .ok s := by
  rw [stringField, field, hget]
  by_cases h : s = default
  · rw [if_neg (not_not.mpr h), h]
  · rw [if_pos h]
    rfl

theorem boolField_of_get {default b : Bool}
    (hget : t.get key = if b = default then none else some (.boolean b)) :
    boolField default t key = .ok b := by
  rw [boolField, field, hget]
  by_cases h : b = default
  · rw [if_pos h, h]
  · rw [if_neg h]
    rfl

theorem asIntIn_ofInt {low high n : Int} (hlow : low ≤ n) (hhigh : n < high)
    (hmin : -2 ^ 63 ≤ low) (hmax : high ≤ 2 ^ 63) :
    Value.asIntIn low high (.integer (Int64.ofInt n)) = some n := by
  have hn : (Int64.ofInt n).toInt = n :=
    Int64.toInt_ofInt_of_le (by omega) (by omega)
  rw [Value.asIntIn, hn, if_pos ⟨hlow, hhigh⟩]

theorem asNatBelow_ofInt {bound : Int} {n : Nat} (hn : (n : Int) < bound)
    (hmax : n < 2 ^ 63) :
    Value.asNatBelow bound (.integer (Int64.ofInt n)) = some n := by
  have hint : (Int64.ofInt (n : Int)).toInt = n :=
    Int64.toInt_ofInt_of_le (by omega) (by omega)
  rw [Value.asNatBelow, Value.asIntIn, hint, if_pos ⟨Int.natCast_nonneg n, hn⟩]
  rfl

theorem optU64_of_get {o : Option Nat} (hrange : ∀ n ∈ o, n < 2 ^ 63)
    (hget : t.get key = o.map fun n => .integer (Int64.ofInt n)) :
    optU64 t key = .ok o := by
  rw [optU64, field, hget]
  cases o with
  | none => rfl
  | some n =>
      have hn := hrange n rfl
      simp only [Option.map_some]
      rw [asNatBelow_ofInt (by omega) hn]
      rfl

theorem optU32_of_get {o : Option Nat} (hrange : ∀ n ∈ o, n < 2 ^ 32)
    (hget : t.get key = o.map fun n => .integer (Int64.ofInt n)) :
    optU32 t key = .ok o := by
  rw [optU32, field, hget]
  cases o with
  | none => rfl
  | some n =>
      have hn := hrange n rfl
      simp only [Option.map_some]
      rw [asNatBelow_ofInt (by omega) (by omega)]
      rfl

theorem sub_of_holds {α : Type} {read : Table → Except String α} {inner : Table}
    (hholds : Holds t key inner) : sub read t key = read inner := by
  rw [sub, hholds]
  by_cases hempty : inner.entries.isEmpty
  · have hinner : inner = SortedMap.Map.empty := by
      cases inner
      cases List.isEmpty_iff.mp hempty
      rfl
    rw [if_pos hempty, hinner]
  · rw [if_neg hempty]
    simp [Value.asTable]

theorem optSub_of_holds {α : Type} {read : Table → Except String α}
    {inner : Table} (hholds : Holds t key inner) :
    optSub read t key = if inner.entries.isEmpty then .ok none
      else (read inner).map some := by
  rw [optSub, sub_of_holds hholds, hholds]
  by_cases hempty : inner.entries.isEmpty
  · rw [if_pos hempty, if_pos hempty]
  · rw [if_neg hempty, if_neg hempty]

end Fields

section Compact

variable {name : String}

theorem splitOnceAt_append {mark : Char} {front back : List Char}
    (hfront : mark ∉ front) :
    splitOnceAt mark (front ++ mark :: back) = some (front, back) := by
  have hall : ∀ c ∈ front, (decide (c ≠ mark)) = true := by
    intro c hc
    rw [decide_eq_true_iff]
    rintro rfl
    exact hfront hc
  rw [splitOnceAt, if_pos (by simp), List.takeWhile_append_of_pos hall,
    List.dropWhile_append_of_pos hall]
  simp

theorem splitOnceAt_of_not_mem {mark : Char} {text : List Char}
    (hmark : mark ∉ text) : splitOnceAt mark text = none :=
  if_neg hmark

/-- A number that is written is read again. -/
theorem parseI64_toString {n : Int} (hlow : -2 ^ 63 ≤ n) (hhigh : n < 2 ^ 63) :
    parseI64 (toString n).toList = some (Int64.ofInt n) := by
  have hdigits : ∀ m : Nat, ∀ c ∈ Nat.toDigits 10 m, c.isDigit = true :=
    fun m c hc => Nat.isDigit_of_mem_toDigits (by decide) (by decide) hc
  have hsign : ∀ m : Nat, ∀ c : Char, c.isDigit = false →
      (Nat.toDigits 10 m).head? ≠ some c := by
    intro m c hc hhead
    have hdigit := hdigits m c (List.mem_of_mem_head? hhead)
    rw [hc] at hdigit
    cases hdigit
  cases n with
  | ofNat m =>
      have htext : (toString (Int.ofNat m)).toList = Nat.toDigits 10 m :=
        String.toList_ofList
      have hplus := hsign m '+' rfl
      have hminus := hsign m '-' rfl
      rw [htext, parseI64]
      simp only [hplus, hminus, or_self, if_false,
        Nat.ofDigitChars_toDigits (by decide : 1 < 10) (by decide : 10 ≤ 10)]
      rw [if_pos]
      · rfl
      · exact ⟨Nat.toDigits_ne_nil, List.all_eq_true.mpr (hdigits m), hlow, hhigh⟩
  | negSucc m =>
      have htext : (toString (Int.negSucc m)).toList =
          '-' :: Nat.toDigits 10 (m + 1) := by
        change ("-" ++ Nat.repr (m + 1)).toList = _
        rw [String.toList_append, Nat.repr, String.toList_ofList,
          String.toList_ofList]
        rfl
      rw [htext, parseI64]
      simp only [List.head?_cons, List.tail_cons, or_true, if_true,
        Nat.ofDigitChars_toDigits (by decide : 1 < 10) (by decide : 10 ≤ 10)]
      rw [if_pos]
      · rfl
      · exact ⟨Nat.toDigits_ne_nil, List.all_eq_true.mpr (hdigits _), hlow, hhigh⟩

theorem parseI64_eq_none {text : List Char} {c : Char} (hc : c ∈ text)
    (hdigit : c.isDigit = false) (hplus : c ≠ '+') (hminus : c ≠ '-') :
    parseI64 text = none := by
  have hrest : c ∈ (if text.head? = some '+' ∨ text.head? = some '-' then text.tail
      else text) := by
    split
    next hsign =>
      cases text with
      | nil => cases hc
      | cons first rest =>
          rcases List.mem_cons.mp hc with rfl | h
          · rcases hsign with h | h
            · exact absurd (Option.some.inj h) hplus
            · exact absurd (Option.some.inj h) hminus
          · exact h
    next => exact hc
  rw [parseI64]
  refine if_neg fun h => ?_
  have hall := List.all_eq_true.mp h.2.1 c hrest
  rw [hdigit] at hall
  cases hall

theorem text_toList (s : String) : text s.toList = .string s := by
  rw [text, String.ofList_toList]

theorem toList_eq_nil {s : String} : s.toList = [] ↔ s = "" := by
  rw [← String.toList_inj]
  rfl

theorem parseCompress_level {algorithm : String} {level : Int}
    (hlow : -2 ^ 63 ≤ level) (hhigh : level < 2 ^ 63) {ws : List Write} :
    parseCompress name (.string (algorithm ++ ":" ++ toString level)) = .ok ws ↔
      (algorithm ≠ "" ∧ ':' ∉ algorithm.toList) ∧
        ws = [.field .compression "algorithm" (.string algorithm),
          .field .compression "level" (.integer (Int64.ofInt level))] := by
  have htext : (algorithm ++ ":" ++ toString level).toList =
      algorithm.toList ++ ':' :: (toString level).toList := by
    rw [String.toList_append, String.toList_append, List.append_assoc]
    rfl
  rw [parseCompress]
  simp only [Value.asStr]
  rw [htext]
  by_cases hcolon : ':' ∈ algorithm.toList
  · obtain ⟨front, back, hfront, hnot⟩ := List.eq_append_cons_of_mem hcolon
    rw [hfront, List.append_assoc, List.cons_append, splitOnceAt_append hnot]
    simp only [Option.map_some, Option.getD_some]
    rw [parseI64_eq_none (c := ':') (by simp) (by decide) (by decide) (by decide)]
    have hmem : ':' ∈ front ++ ':' :: back := by simp
    split <;> simp [hmem]
  · rw [splitOnceAt_append hcolon]
    simp only [Option.map_some, Option.getD_some]
    rw [parseI64_toString hlow hhigh, text_toList]
    by_cases hempty : algorithm = ""
    · rw [if_pos (toList_eq_nil.mpr hempty)]
      simp [hempty]
    · rw [if_neg fun h => hempty (toList_eq_nil.mp h)]
      simp [hempty, hcolon, eq_comm]

theorem parseDestCompact_local {path : String} {ws : List Write} :
    parseDestCompact name ("local:" ++ path) = .ok ws ↔
      path ≠ "" ∧ ws = [.field .destination "type" (.string "local"),
        .field .destination "path" (.string path)] := by
  have htext : ("local:" ++ path).toList = "local".toList ++ ':' :: path.toList := by
    rw [String.toList_append]
    rfl
  have hcolon : ':' ∉ "local".toList := by decide
  rw [parseDestCompact, htext, splitOnceAt_append hcolon]
  simp only [if_true, text_toList]
  by_cases hempty : path = ""
  · rw [if_pos (toList_eq_nil.mpr hempty)]
    simp [hempty]
  · rw [if_neg fun h => hempty (toList_eq_nil.mp h)]
    simp [hempty, eq_comm]

/-- The bucket, and what is behind the first slash. -/
def s3Split (rest : List Char) : List Char × List Char :=
  (splitOnceAt '/' rest).getD (rest, [])

def s3Writes (parts : List Char × List Char) : List Write :=
  .field .destination "type" (.string "s3") ::
    .field .s3 "bucket" (text parts.1) ::
    if parts.2 = [] then [] else [.field .s3 "prefix" (text parts.2)]

theorem parseDestCompact_s3 {rest : String} {ws : List Write} :
    parseDestCompact name ("s3:" ++ rest) = .ok ws ↔
      (s3Split rest.toList).1 ≠ [] ∧ ws = s3Writes (s3Split rest.toList) := by
  have htext : ("s3:" ++ rest).toList = "s3".toList ++ ':' :: rest.toList := by
    rw [String.toList_append]
    rfl
  have hcolon : ':' ∉ "s3".toList := by decide
  have hlocal : "s3".toList ≠ "local".toList := by decide
  rw [parseDestCompact, htext, splitOnceAt_append hcolon]
  simp only [if_neg hlocal, if_true]
  rw [← s3Split]
  by_cases hempty : (s3Split rest.toList).1 = []
  · rw [if_pos hempty]
    simp [hempty]
  · rw [if_neg hempty]
    exact ⟨fun h => ⟨hempty, (Except.ok.inj h).symm⟩, fun h => by rw [h.2]; rfl⟩

theorem parseEncrypt_age {recipient : String} :
    parseEncrypt name (.string ("age:" ++ recipient)) =
      .ok (.field .encryption "enabled" (.boolean true) ::
        .field .encryption "algorithm" (.string "age") ::
        if recipient = "" then []
        else [.field .encryption "recipient_file" (.string recipient)]) := by
  have htext : ("age:" ++ recipient).toList =
      "age".toList ++ ':' :: recipient.toList := by
    rw [String.toList_append]
    rfl
  have hoff : ∀ s : String, s.toList.head? ≠ some 'a' → "age:" ++ recipient ≠ s := by
    intro s hs heq
    rw [← heq, htext] at hs
    exact hs rfl
  have hcolon : ':' ∉ "age".toList := by decide
  have hage : "age".toList ≠ [] := by decide
  rw [parseEncrypt, if_neg (by
    rintro (h | h)
    · exact hoff "off" (by decide) h
    · exact hoff "false" (by decide) h), htext, splitOnceAt_append hcolon,
    Option.getD_some]
  simp only
  rw [if_neg hage, text_toList, text_toList]
  simp only [toList_eq_nil]

end Compact

end Config

end XBackup
