/-
Which layer the settings of a profile are from: a compact key and the explicit
keys of the same setting, each from a layer of its own.
-/
import XBackup.Config.Expand

namespace XBackup

namespace Config

open Fallible Schedule

namespace Write

def target : Write → Option (Part × String)
  | field part key _ => some (part, key)
  | _ => none

def isDestinations : Write → Bool
  | destinations _ => true
  | _ => false

end Write

namespace Parts

/-- What the writes of a single key leave. -/
def written (ws : List Write) : Parts :=
  ws.foldl Parts.write Parts.empty

theorem get_write_field (p : Parts) (part part' : Part) (key key' : String)
    (v : Value) :
    ((p.write (.field part' key' v)).tables part).get key =
      if part = part' ∧ key = key' then some v
      else (p.tables part).get key := by
  change (Function.update p.tables part' _ part).get key = _
  by_cases hpart : part = part'
  · subst hpart
    rw [Function.update_self, SortedMap.Map.get_insert]
    simp
  · rw [Function.update_of_ne hpart, if_neg fun h => hpart h.1]

/-- Writing over what is there: what was there stays where nothing is written. -/
theorem get_foldl_write (p : Parts) (ws : List Write) (part : Part)
    (key : String) :
    ((ws.foldl Parts.write p).tables part).get key =
      (((written ws).tables part).get key).or ((p.tables part).get key) := by
  induction ws using List.reverseRecOn with
  | nil => rfl
  | append_singleton ws w ih =>
      rw [written, List.foldl_concat, List.foldl_concat]
      cases w with
      | field part' key' v =>
          rw [get_write_field, get_write_field]
          split
          · rfl
          · exact ih
      | schedule v => exact ih
      | destinations v => exact ih

theorem get_written_eq_none {ws : List Write} {part : Part} {key : String}
    (hothers : ∀ w ∈ ws, w.target ≠ some (part, key)) :
    ((written ws).tables part).get key = none := by
  induction ws using List.reverseRecOn with
  | nil => rfl
  | append_singleton ws w ih =>
      have hbefore := ih fun w' hw' => hothers w' (List.mem_append_left _ hw')
      have hlast := hothers w (by simp)
      rw [written, List.foldl_concat]
      cases w with
      | field part' key' v =>
          rw [get_write_field, if_neg]
          · exact hbefore
          · rintro ⟨rfl, rfl⟩
            exact hlast rfl
      | schedule v => exact hbefore
      | destinations v => exact hbefore

theorem destinations_foldl_write {p : Parts} {ws : List Write}
    (hws : ∀ w ∈ ws, w.isDestinations = false) :
    (ws.foldl Parts.write p).destinations = p.destinations := by
  refine List.foldlRecOn (motive := fun q => q.destinations = p.destinations)
    ws Parts.write rfl fun q hq w hw => ?_
  cases w with
  | field part key v => exact hq
  | schedule v => exact hq
  | destinations v => exact absurd (hws _ hw) (by simp [Write.isDestinations])

end Parts

section Collect

variable {writes : String × Value → Except String (List Write)}

/-- What an entry on its own writes to a setting. -/
def writtenTo (writes : String × Value → Except String (List Write))
    (part : Part) (key : String) (entry : String × Value) : Option Value :=
  match writes entry with
  | .ok ws => ((Parts.written ws).tables part).get key
  | .error _ => none

/-- A setting holds what the last entry that writes it writes. -/
theorem get_collectEntries {entries : List (String × Value)} {p q : Parts}
    (hcollect : collectEntries writes entries p = .ok q) (part : Part) (key : String) :
    (q.tables part).get key =
      (entries.reverse.findSome? (writtenTo writes part key)).or
        ((p.tables part).get key) := by
  induction entries generalizing p with
  | nil =>
      cases hcollect
      rfl
  | cons entry rest ih =>
      rw [collectEntries, List.foldlM_cons] at hcollect
      obtain ⟨p', hp', hrest⟩ := bind_eq_ok.mp hcollect
      obtain ⟨ws, hws, hwritten⟩ := bind_eq_ok.mp hp'
      obtain rfl : ws.foldl Parts.write p = p' := Except.ok.inj hwritten
      have hentry : writtenTo writes part key entry =
          ((Parts.written ws).tables part).get key := by
        rw [writtenTo, hws]
      rw [ih hrest, Parts.get_foldl_write, List.reverse_cons,
        List.findSome?_append, List.findSome?_singleton, hentry, Option.or_assoc]

theorem destinations_collectEntries {entries : List (String × Value)} {p q : Parts}
    (hcollect : collectEntries writes entries p = .ok q)
    (hsingle : ∀ entry ∈ entries, ∀ ws, writes entry = .ok ws →
      ∀ w ∈ ws, w.isDestinations = false) :
    q.destinations = p.destinations := by
  induction entries generalizing p with
  | nil =>
      cases hcollect
      rfl
  | cons entry rest ih =>
      rw [collectEntries, List.foldlM_cons] at hcollect
      obtain ⟨p', hp', hrest⟩ := bind_eq_ok.mp hcollect
      obtain ⟨ws, hws, hwritten⟩ := bind_eq_ok.mp hp'
      obtain rfl : ws.foldl Parts.write p = p' := Except.ok.inj hwritten
      rw [ih hrest fun other hother =>
        hsingle other (List.mem_cons_of_mem _ hother)]
      exact Parts.destinations_foldl_write
        (hsingle entry List.mem_cons_self ws hws)

end Collect

/-- The compact key that writes settings of a part. -/
def compactKey : Part → Option String
  | .destination => some "dest"
  | .s3 => some "dest"
  | .compression => some "compress"
  | .encryption => some "encrypt"
  | _ => none

/-- The settings that the compact keys write. -/
def compactTargets : List (Part × String) :=
  [(.destination, "type"), (.destination, "path"), (.s3, "bucket"),
    (.s3, "prefix"), (.compression, "algorithm"), (.compression, "level"),
    (.encryption, "enabled"), (.encryption, "algorithm"),
    (.encryption, "recipient_file")]

/-- A write of a compact key. -/
def OfCompact (compact : String) (w : Write) : Prop :=
  ∃ target ∈ compactTargets, compactKey target.1 = some compact ∧
    w.target = some target

theorem ofCompact_field {compact key : String} {part : Part} {v : Value}
    (htarget : (part, key) ∈ compactTargets)
    (hcompact : compactKey part = some compact) :
    OfCompact compact (.field part key v) :=
  ⟨(part, key), htarget, hcompact, rfl⟩

section Keys

variable {name : String}

theorem parseDestCompact_writes {s : String} {ws : List Write}
    (hparse : parseDestCompact name s = .ok ws) :
    ∀ w ∈ ws, OfCompact "dest" w := by
  rw [parseDestCompact] at hparse
  split at hparse
  · cases hparse
  · split at hparse
    · split at hparse
      · cases hparse
      · cases hparse
        simp only [List.forall_mem_cons]
        exact ⟨ofCompact_field (by decide) rfl,
          ofCompact_field (by decide) rfl, nofun⟩
    · split at hparse
      · simp only at hparse
        split at hparse
        · cases hparse
        · cases hparse
          simp only [List.forall_mem_cons]
          refine ⟨ofCompact_field (by decide) rfl,
            ofCompact_field (by decide) rfl, fun w hw => ?_⟩
          split at hw
          · cases hw
          · rw [List.mem_singleton.mp hw]
            exact ofCompact_field (by decide) rfl
      · cases hparse

theorem parseCompress_writes {v : Value} {ws : List Write}
    (hparse : parseCompress name v = .ok ws) :
    ∀ w ∈ ws, OfCompact "compress" w := by
  rw [parseCompress] at hparse
  split at hparse
  · cases hparse
  · simp only at hparse
    split at hparse
    · cases hparse
    · split at hparse
      · cases hparse
        simp only [List.forall_mem_cons]
        exact ⟨ofCompact_field (by decide) rfl, nofun⟩
      · split at hparse
        · cases hparse
        · cases hparse
          simp only [List.forall_mem_cons]
          exact ⟨ofCompact_field (by decide) rfl,
            ofCompact_field (by decide) rfl, nofun⟩

theorem parseEncrypt_writes {v : Value} {ws : List Write}
    (hparse : parseEncrypt name v = .ok ws) :
    ∀ w ∈ ws, OfCompact "encrypt" w := by
  unfold parseEncrypt at hparse
  split at hparse
  · cases hparse
    simp only [List.forall_mem_cons]
    exact ⟨ofCompact_field (by decide) rfl, nofun⟩
  · split at hparse
    · cases hparse
      simp only [List.forall_mem_cons]
      exact ⟨ofCompact_field (by decide) rfl, nofun⟩
    · simp only at hparse
      split at hparse
      · cases hparse
      · cases hparse
        simp only [List.forall_mem_cons]
        refine ⟨ofCompact_field (by decide) rfl,
          ofCompact_field (by decide) rfl, fun w hw => ?_⟩
        split at hw
        · cases hw
        · rw [List.mem_singleton.mp hw]
          exact ofCompact_field (by decide) rfl
  · cases hparse

/-- All that a key can write. -/
theorem keyWrites_cases {entry : String × Value} {ws : List Write}
    (hkey : keyWrites name entry = .ok ws) :
    (entry.1 = "dest" ∧ (∃ items, entry.2 = .array items) ∧
        ∃ d, ws = [.destinations d]) ∨
      (∀ w ∈ ws, OfCompact entry.1 w) ∨ (∃ v, ws = [.schedule v]) ∨
      ∃ part key, plainKeys.lookup entry.1 = some (part, key) ∧
        ws = [.field part key entry.2] := by
  unfold keyWrites at hkey
  split at hkey
  next hdest =>
    split at hkey
    next s heq =>
      rw [hdest]
      exact .inr (.inl (parseDestCompact_writes hkey))
    next items heq =>
      obtain ⟨d, -, hws⟩ := map_eq_ok.mp hkey
      exact .inl ⟨hdest, ⟨items, heq⟩, d, hws.symm⟩
    next => cases hkey
  next =>
    split at hkey
    next hcompress =>
      rw [hcompress]
      exact .inr (.inl (parseCompress_writes hkey))
    next =>
      split at hkey
      next hencrypt =>
        rw [hencrypt]
        exact .inr (.inl (parseEncrypt_writes hkey))
      next =>
        split at hkey
        · exact .inr (.inr (.inl ⟨_, (Except.ok.inj hkey).symm⟩))
        · split at hkey
          · cases hkey
            exact .inr (.inl nofun)
          · split at hkey
            next part key hlookup =>
              exact .inr (.inr (.inr ⟨part, key, hlookup,
                (Except.ok.inj hkey).symm⟩))
            next => cases hkey

/-- The value that an entry of a profile, on its own, gives a setting. -/
def settingOf (name : String) (part : Part) (key : String)
    (entry : String × Value) : Option Value :=
  writtenTo (keyWrites name) part key entry

theorem get_written_field (part part' : Part) (key key' : String) (v : Value) :
    ((Parts.written [.field part' key' v]).tables part).get key =
      if part = part' ∧ key = key' then some v else none :=
  Parts.get_write_field Parts.empty part part' key key' v

/-- Only the compact key of a part, and a key of the setting itself, give it a
value. -/
theorem settingOf_cases {part : Part} {key : String} {entry : String × Value}
    {x : Value} (hsetting : settingOf name part key entry = some x) :
    ((part, key) ∈ compactTargets ∧ compactKey part = some entry.1) ∨
      plainKeys.lookup entry.1 = some (part, key) ∧ x = entry.2 := by
  rw [settingOf, writtenTo] at hsetting
  split at hsetting
  next ws hws =>
    rcases keyWrites_cases hws with ⟨-, -, d, rfl⟩ | hcompact | ⟨v, rfl⟩ |
      ⟨part', key', hlookup, rfl⟩
    · cases hsetting
    · by_contra hnone
      rw [Parts.get_written_eq_none] at hsetting
      · cases hsetting
      · intro w hw htarget
        obtain ⟨target, hmem, hkey, hwrites⟩ := hcompact w hw
        obtain rfl := Option.some.inj (hwrites.symm.trans htarget)
        exact hnone (.inl ⟨hmem, hkey⟩)
    · cases hsetting
    · rw [get_written_field] at hsetting
      split at hsetting
      next hsame =>
        obtain ⟨rfl, rfl⟩ := hsame
        exact .inr ⟨hlookup, (Option.some.inj hsetting).symm⟩
      next => cases hsetting
  next => cases hsetting

/-- The keys that have a meaning of their own. -/
theorem plainKeys_ne {entry : String × Part × String} (hentry : entry ∈ plainKeys) :
    entry.1 ≠ "dest" ∧ entry.1 ≠ "compress" ∧ entry.1 ≠ "encrypt" ∧
      entry.1 ≠ "schedule" ∧ entry.1 ≠ "extends" := by
  revert entry
  decide +kernel

theorem mem_plainKeys_of_lookup {k : String} {target : Part × String}
    (hlookup : plainKeys.lookup k = some target) : (k, target) ∈ plainKeys := by
  have hkeys : (plainKeys.map Prod.fst).Nodup := by decide +kernel
  exact (SortedMap.lookup_eq_some_iff_mem hkeys).mp hlookup

/-- No two keys are written as they are to one setting. -/
theorem eq_of_lookup_eq {k k' : String} {target : Part × String}
    (hlookup : plainKeys.lookup k = some target)
    (hlookup' : plainKeys.lookup k' = some target) : k = k' := by
  have htargets : (plainKeys.map Prod.snd).Nodup := by decide +kernel
  have hsame := List.inj_on_of_nodup_map htargets
    (mem_plainKeys_of_lookup hlookup) (mem_plainKeys_of_lookup hlookup') rfl
  exact congrArg Prod.fst hsame

/-- The compact key of a part is read before the other keys of the part. -/
theorem compactKey_lt {compact : String} {entry : String × Part × String}
    (hentry : entry ∈ plainKeys) (hcompact : compactKey entry.2.1 = some compact) :
    compact < entry.1 := by
  have hall : ∀ entry ∈ plainKeys, ∀ compact ∈ compactKey entry.2.1,
      compact < entry.1 := by
    decide +kernel
  exact hall entry hentry compact hcompact

theorem settingOf_plain {part : Part} {key explicit : String} {y : Value}
    (hlookup : plainKeys.lookup explicit = some (part, key)) :
    settingOf name part key (explicit, y) = some y := by
  obtain ⟨hdest, hcompress, hencrypt, hschedule, hextends⟩ :=
    plainKeys_ne (mem_plainKeys_of_lookup hlookup)
  have hwrites : keyWrites name (explicit, y) = .ok [.field part key y] := by
    rw [keyWrites, if_neg hdest, if_neg hcompress, if_neg hencrypt,
      if_neg hschedule, if_neg hextends]
    simp only [hlookup]
  rw [settingOf, writtenTo, hwrites]
  exact (get_written_field part part key key y).trans (if_pos ⟨rfl, rfl⟩)

end Keys

/-- The tables that a part is nested in. -/
def Part.path : Part → List String
  | .source => ["source"]
  | .mode => ["mode"]
  | .destination => ["destination"]
  | .s3 => ["destination", "s3"]
  | .compression => ["features", "compression"]
  | .encryption => ["features", "encryption"]
  | .incremental => ["features", "incremental"]
  | .retention => ["retention"]
  | .hooks => ["hooks"]
  | .notify => ["notify"]

/-- The value of a key in a table that is nested in others. -/
def readAt (t : Table) (key : String) : List String → Option Value
  | [] => t.get key
  | first :: path =>
      ((t.get first).bind Value.asTable).bind fun sub => readAt sub key path

theorem readAt_congr {t t' : Table} (hget : ∀ key, t.get key = t'.get key)
    (key : String) (path : List String) :
    readAt t key path = readAt t' key path := by
  cases path with
  | nil => exact hget key
  | cons first path => rw [readAt, readAt, hget first]

/-- A table stands in another one under its key, unless it is empty. -/
def Holds (t : Table) (key : String) (sub : Table) : Prop :=
  t.get key = if sub.entries.isEmpty then none else some (.table sub.entries)

theorem Holds.readAt {t sub : Table} {first : String} (hholds : Holds t first sub)
    (key : String) (path : List String) :
    readAt t key (first :: path) = readAt sub key path := by
  rw [Config.readAt, hholds]
  split
  next hempty =>
    have hnone : ∀ k, sub.get k = none := by
      intro k
      rw [SortedMap.Map.get, List.isEmpty_iff.mp hempty]
      rfl
    cases path with
    | nil => exact (hnone key).symm
    | cons next path => rw [Config.readAt, hnone next]; rfl
  next => exact readAt_congr (get_ofEntries sub) key path

theorem get_insertTable (t : Table) (key : String) (sub : Table) (other : String) :
    (insertTable t key sub).get other =
      if sub.entries.isEmpty then t.get other
      else if other = key then some (.table sub.entries) else t.get other := by
  rw [insertTable]
  split
  · rfl
  · exact SortedMap.Map.get_insert t key other _

theorem get_insertTable_of_ne {t sub : Table} {key other : String}
    (hother : other ≠ key) : (insertTable t key sub).get other = t.get other := by
  rw [get_insertTable, if_neg hother, ite_self]

theorem holds_insertTable {t sub : Table} {key : String}
    (hnone : t.get key = none) : Holds (insertTable t key sub) key sub := by
  rw [Holds, get_insertTable, if_pos rfl, hnone]

theorem Holds.insertTable {t sub sub' : Table} {key key' : String}
    (hholds : Holds t key sub) (hkey : key ≠ key') :
    Holds (insertTable t key' sub') key sub := by
  rw [Holds, get_insertTable_of_ne hkey]
  exact hholds

namespace Parts

variable (p : Parts)

theorem get_insertDestination_of_ne {t : Table} {key : String}
    (hmany : key ≠ "destinations") (hone : key ≠ "destination") :
    (p.insertDestination t).get key = t.get key := by
  rw [insertDestination]
  split
  · rw [SortedMap.Map.get_insert, if_neg hmany]
  · exact get_insertTable_of_ne hone

theorem get_insertSchedule_of_ne {t : Table} {key : String}
    (hkey : key ≠ "schedule") : (p.insertSchedule t).get key = t.get key := by
  rw [insertSchedule]
  split
  · rw [SortedMap.Map.get_insert, if_neg hkey]
  · rfl

/-- Where each table of a profile is found again. -/
theorem nested_holds :
    Holds p.nested "source" (p.tables .source) ∧
      Holds p.nested "mode" (p.tables .mode) ∧
      Holds p.nested "features" p.features ∧
      Holds p.nested "retention" (p.tables .retention) ∧
      Holds p.nested "hooks" (p.tables .hooks) ∧
      Holds p.nested "notify" (p.tables .notify) := by
  have hempty : ∀ key, (SortedMap.Map.empty : Table).get key = none :=
    fun key => rfl
  simp [Holds, nested, get_insertTable, get_insertSchedule_of_ne,
    get_insertDestination_of_ne, hempty]

theorem destination_holds (hsingle : p.destinations = none) :
    Holds p.nested "destination" p.destination := by
  have hempty : ∀ key, (SortedMap.Map.empty : Table).get key = none :=
    fun key => rfl
  simp [Holds, nested, get_insertTable, get_insertSchedule_of_ne, insertDestination,
    hsingle, hempty]

theorem features_holds :
    Holds p.features "compression" (p.tables .compression) ∧
      Holds p.features "encryption" (p.tables .encryption) ∧
      Holds p.features "incremental" (p.tables .incremental) := by
  have hempty : ∀ key, (SortedMap.Map.empty : Table).get key = none :=
    fun key => rfl
  simp [Holds, features, get_insertTable, hempty]

end Parts

/-- What can be read of a profile: a list of destinations takes the place of
the single one, and the table of S3 is no setting itself. -/
def IsSetting (flat : Table) : Part → String → Prop
  | .destination, key =>
      key ≠ "s3" ∧ ∀ items, flat.get "dest" ≠ some (.array items)
  | .s3, _ => ∀ items, flat.get "dest" ≠ some (.array items)
  | _, _ => True

section Expand

variable {name : String} {flat nested : Table}

/-- The name of the table of S3 is no key of a destination. -/
theorem settingOf_s3 (entry : String × Value) :
    settingOf name .destination "s3" entry = none := by
  rw [Option.eq_none_iff_forall_ne_some]
  intro x hx
  rcases settingOf_cases hx with ⟨htarget, -⟩ | ⟨hlookup, -⟩
  · exact absurd htarget (by decide)
  · have hnot : (Part.destination, "s3") ∉ plainKeys.map Prod.snd := by
      decide +kernel
    exact hnot (List.mem_map_of_mem (mem_plainKeys_of_lookup hlookup))

theorem no_s3_in_destination {p : Parts}
    (hcollect : collect (keyWrites name) flat = .ok p) :
    (p.tables .destination).get "s3" = none := by
  rw [get_collectEntries hcollect, List.findSome?_eq_none_iff.mpr]
  · rfl
  · exact fun entry _ => settingOf_s3 entry

theorem single_of_no_array {p : Parts}
    (hcollect : collect (keyWrites name) flat = .ok p)
    (hdest : ∀ items, flat.get "dest" ≠ some (.array items)) :
    p.destinations = none := by
  refine destinations_collectEntries hcollect fun entry hentry ws hws w hw => ?_
  rcases keyWrites_cases hws with ⟨hkey, ⟨items, hitems⟩, -⟩ | hcompact |
    ⟨v, rfl⟩ | ⟨part', key', hlookup, rfl⟩
  · refine absurd (SortedMap.Map.get_eq_some_iff.mpr ?_) (hdest items)
    rw [← hkey, ← hitems]
    exact hentry
  · obtain ⟨target, -, -, htarget⟩ := hcompact w hw
    cases w with
    | field => rfl
    | schedule => rfl
    | destinations => cases htarget
  · rw [List.mem_singleton.mp hw]
    rfl
  · rw [List.mem_singleton.mp hw]
    rfl

/-- A setting of the nested profile is what the last key that writes it wrote. -/
theorem readAt_nested (hexpand : expandProfile name flat = .ok nested)
    {part : Part} {key : String} (hsetting : IsSetting flat part key) :
    readAt nested key part.path =
      flat.entries.reverse.findSome? (settingOf name part key) := by
  obtain ⟨p, hcollect, rfl⟩ := map_eq_ok.mp hexpand
  have hget := get_collectEntries hcollect part key
  rw [show (Parts.empty.tables part).get key = none from rfl, Option.or_none]
    at hget
  obtain ⟨hsource, hmode, hfeatures, hretention, hhooks, hnotify⟩ :=
    p.nested_holds
  obtain ⟨hcompression, hencryption, hincremental⟩ := p.features_holds
  refine Eq.trans ?_ hget
  cases part with
  | source => exact hsource.readAt key []
  | mode => exact hmode.readAt key []
  | destination =>
      have hsingle := single_of_no_array hcollect hsetting.2
      refine ((p.destination_holds hsingle).readAt key []).trans ?_
      exact get_insertTable_of_ne hsetting.1
  | s3 =>
      have hsingle := single_of_no_array hcollect hsetting
      refine ((p.destination_holds hsingle).readAt key ["s3"]).trans ?_
      exact (holds_insertTable (no_s3_in_destination hcollect)).readAt key []
  | compression =>
      exact (hfeatures.readAt key _).trans (hcompression.readAt key [])
  | encryption =>
      exact (hfeatures.readAt key _).trans (hencryption.readAt key [])
  | incremental =>
      exact (hfeatures.readAt key _).trans (hincremental.readAt key [])
  | retention => exact hretention.readAt key []
  | hooks => exact hhooks.readAt key []
  | notify => exact hnotify.readAt key []

/-- A setting is rightful when no key gives it a value and it has none, or when
its value is given by a key of the highest layer that does. -/
def Rightful (name : String) (flat : Table) (layer : String → Nat) (part : Part)
    (key : String) : Option Value → Prop
  | none => ∀ entry ∈ flat.entries, settingOf name part key entry = none
  | some x => ∃ entry ∈ flat.entries, settingOf name part key entry = some x ∧
      ∀ other ∈ flat.entries, (settingOf name part key other).isSome →
        layer other.1 ≤ layer entry.1

/-- Each setting of the nested profile has the value of the highest layer. -/
def LayersKept (name : String) (flat : Table) (layer : String → Nat)
    (nested : Table) : Prop :=
  ∀ part key, IsSetting flat part key →
    Rightful name flat layer part key (readAt nested key part.path)

/-- No compact key stands in a higher layer than an explicit key of one of its
settings, unless both give it the same value. -/
def CompactBelow (name : String) (flat : Table) (layer : String → Nat) : Prop :=
  ∀ part key explicit y, plainKeys.lookup explicit = some (part, key) →
    flat.get explicit = some y →
    ∀ compact v x, compactKey part = some compact → flat.get compact = some v →
      settingOf name part key (compact, v) = some x →
      layer compact ≤ layer explicit ∨ x = y

theorem isSetting_of_compact {part : Part} {key compact : String} {v x : Value}
    (hcompact : compactKey part = some compact) (hget : flat.get compact = some v)
    (hsetting : settingOf name part key (compact, v) = some x) :
    IsSetting flat part key := by
  have harray : compact = "dest" → ∀ items, flat.get "dest" ≠ some (.array items) := by
    rintro rfl items hitems
    obtain rfl := Option.some.inj (hget.symm.trans hitems)
    rw [settingOf, writtenTo] at hsetting
    split at hsetting
    next ws hws =>
      rw [keyWrites, if_pos rfl] at hws
      obtain ⟨d, -, rfl⟩ := map_eq_ok.mp hws
      cases hsetting
    next => cases hsetting
  cases part with
  | destination =>
      have hdest := harray (Option.some.inj hcompact).symm
      refine ⟨?_, hdest⟩
      rintro rfl
      rw [settingOf_s3] at hsetting
      cases hsetting
  | s3 => exact harray (Option.some.inj hcompact).symm
  | _ => trivial

/-- Beside an explicit key only the compact key of its part, which is read
before it, gives its setting a value. -/
theorem settingOf_beside {part : Part} {key explicit : String}
    (hlookup : plainKeys.lookup explicit = some (part, key))
    {other : String × Value} {x : Value}
    (hother : settingOf name part key other = some x) :
    (other.1 = explicit ∧ x = other.2) ∨
      compactKey part = some other.1 ∧ other.1 < explicit := by
  rcases settingOf_cases hother with ⟨-, hcompact⟩ | ⟨hplain, hx⟩
  · exact .inr ⟨hcompact,
      compactKey_lt (mem_plainKeys_of_lookup hlookup) hcompact⟩
  · exact .inl ⟨eq_of_lookup_eq hplain hlookup, hx⟩

variable {layer : String → Nat}

theorem rightful_of_compactBelow (hbelow : CompactBelow name flat layer)
    (part : Part) (key : String) :
    Rightful name flat layer part key
      (flat.entries.reverse.findSome? (settingOf name part key)) := by
  cases hfound : flat.entries.reverse.findSome? (settingOf name part key) with
  | none =>
      intro entry hentry
      exact List.findSome?_eq_none_iff.mp hfound entry
        (List.mem_reverse.mpr hentry)
  | some x =>
      obtain ⟨entry, hentry, hx, hlast⟩ :=
        SortedMap.Map.findSome?_reverse_eq_some_iff.mp hfound
      rcases settingOf_cases hx with ⟨-, hcompact⟩ | ⟨hplain, rfl⟩
      · -- the compact key is the last one, so that no explicit key is there
        refine ⟨entry, hentry, hx, fun other hother hsome => ?_⟩
        obtain ⟨x', hx'⟩ := Option.isSome_iff_exists.mp hsome
        rcases settingOf_cases hx' with ⟨-, hcompact'⟩ | ⟨hplain, -⟩
        · rw [Option.some.inj (hcompact.symm.trans hcompact')]
        · have hlt : entry.1 < other.1 :=
            compactKey_lt (mem_plainKeys_of_lookup hplain) hcompact
          exact absurd (hlast other hother hsome) hlt.not_ge
      · by_cases hhigher : ∃ other ∈ flat.entries,
            (settingOf name part key other).isSome ∧
              layer entry.1 < layer other.1
        · -- the compact key of a higher layer gives the same value
          obtain ⟨other, hother, hsome, hlayer⟩ := hhigher
          obtain ⟨x, hx'⟩ := Option.isSome_iff_exists.mp hsome
          rcases settingOf_beside hplain hx' with ⟨hsame, -⟩ | ⟨hcompact, -⟩
          · rw [hsame] at hlayer
            exact absurd hlayer (lt_irrefl _)
          rcases hbelow part key _ _ hplain
            (SortedMap.Map.get_eq_some_iff.mpr hentry) _ _ _ hcompact
            (SortedMap.Map.get_eq_some_iff.mpr hother) hx' with hle | rfl
          · exact absurd hlayer hle.not_gt
          refine ⟨other, hother, hx', fun third hthird hsome' => ?_⟩
          obtain ⟨x', hx''⟩ := Option.isSome_iff_exists.mp hsome'
          rcases settingOf_beside hplain hx'' with ⟨hsame, -⟩ | ⟨hcompact', -⟩
          · rw [hsame]
            exact hlayer.le
          · rw [Option.some.inj (hcompact.symm.trans hcompact')]
        · push Not at hhigher
          exact ⟨entry, hentry, hx, hhigher⟩

theorem compactBelow_of_rightful
    (hrightful : ∀ part key, IsSetting flat part key →
      Rightful name flat layer part key
        (flat.entries.reverse.findSome? (settingOf name part key))) :
    CompactBelow name flat layer := by
  intro part key explicit y hlookup hget compact v x hcompact hgetCompact hx
  have hplain : settingOf name part key (explicit, y) = some y :=
    settingOf_plain hlookup
  have hmem := SortedMap.Map.get_eq_some_iff.mp hget
  have hmemCompact := SortedMap.Map.get_eq_some_iff.mp hgetCompact
  -- the explicit key is the last one that writes the setting
  have hfound : flat.entries.reverse.findSome? (settingOf name part key) =
      some y := by
    refine SortedMap.Map.findSome?_reverse_eq_some_iff.mpr
      ⟨_, hmem, hplain, fun other hother hsome => ?_⟩
    obtain ⟨x', hx'⟩ := Option.isSome_iff_exists.mp hsome
    rcases settingOf_beside hlookup hx' with ⟨hsame, -⟩ | ⟨-, hlt⟩
    · exact hsame.le
    · exact hlt.le
  have hright := hrightful part key (isSetting_of_compact hcompact hgetCompact hx)
  rw [hfound] at hright
  obtain ⟨entry, hentry, hy, hhighest⟩ := hright
  have hlayer := hhighest _ hmemCompact (Option.isSome_iff_exists.mpr ⟨x, hx⟩)
  rcases settingOf_beside hlookup hy with ⟨hsame, -⟩ | ⟨hcompact', -⟩
  · rw [hsame] at hlayer
    exact .inl hlayer
  · -- the value is that of the compact key
    have hkey : compact = entry.1 :=
      Option.some.inj (hcompact.symm.trans hcompact')
    have hvalue : flat.get compact = some entry.2 := by
      rw [hkey]
      exact SortedMap.Map.get_eq_some_iff.mpr hentry
    obtain rfl := Option.some.inj (hgetCompact.symm.trans hvalue)
    rw [hkey] at hx
    exact .inr (Option.some.inj (hx.symm.trans hy))

/-- The settings of a profile follow the layers exactly when no compact key is
above an explicit key that says something else. -/
theorem layersKept_iff (hexpand : expandProfile name flat = .ok nested) :
    LayersKept name flat layer nested ↔ CompactBelow name flat layer := by
  constructor
  · intro hkept
    refine compactBelow_of_rightful fun part key hsetting => ?_
    rw [← readAt_nested hexpand hsetting]
    exact hkept part key hsetting
  · intro hbelow part key hsetting
    rw [readAt_nested hexpand hsetting]
    exact rightful_of_compactBelow hbelow part key

end Expand

section Overridden

def compressKeys : Table where
  entries := [("compress", .string "zstd:6"), ("compress_algorithm", .string "gzip")]
  sorted := by decide +kernel

/-- The nested settings of the two keys: the algorithm of one, the level of the
other. -/
theorem expand_compressKeys : ∃ nested,
    expandProfile "app" compressKeys = .ok nested ∧
      readAt nested "algorithm" Part.compression.path = some (.string "gzip") ∧
      readAt nested "level" Part.compression.path = some (.integer 6) :=
  ⟨_, rfl, rfl, rfl⟩

theorem layersKept_oneLayer : ∃ nested,
    expandProfile "app" compressKeys = .ok nested ∧
      LayersKept "app" compressKeys (fun _ => 0) nested := by
  obtain ⟨nested, hexpand, -⟩ := expand_compressKeys
  refine ⟨nested, hexpand, (layersKept_iff hexpand).mpr ?_⟩
  intro part key explicit y _ _ compact v x _ _ _
  exact .inl le_rfl

def gzipDefaults : Root where
  defaults := Root.tableOf "compress_algorithm" (.string "gzip")
  bases := .empty
  profiles := .empty

/-- The profile says `zstd:6`, and is compressed with the `gzip` of the
defaults. -/
theorem compress_overridden :
    gzipDefaults.resolveFlat "app" (Root.tableOf "compress" (.string "zstd:6"))
        ["app"] = .ok compressKeys ∧
      ∃ nested, expandProfile "app" compressKeys = .ok nested ∧
        ¬ LayersKept "app" compressKeys
          (fun key => if key = "compress" then 1 else 0) nested := by
  constructor
  · rw [Root.resolveFlat]
    refine bind_eq_ok.mpr ⟨[], rfl, bind_eq_ok.mpr
      ⟨Root.tableOf "compress_algorithm" (.string "gzip"), ?_, rfl⟩⟩
    rw [Root.resolveParents]
    rfl
  · obtain ⟨nested, hexpand, halgorithm, -⟩ := expand_compressKeys
    refine ⟨nested, hexpand, fun hkept => ?_⟩
    have hright := hkept .compression "algorithm" trivial
    rw [halgorithm] at hright
    obtain ⟨entry, hentry, hgzip, hhighest⟩ := hright
    have hlayer := hhighest ("compress", .string "zstd:6") List.mem_cons_self rfl
    rcases List.mem_cons.mp hentry with rfl | hother
    · exact absurd (Value.string.inj (Option.some.inj hgzip)) (by decide)
    · rw [List.mem_singleton.mp hother] at hlayer
      exact absurd hlayer (by decide)

end Overridden

end Config

end XBackup
