/-
Where the keys of a profile are from, as the config screen shows it.
-/
import XBackup.Config.Settings

namespace XBackup

namespace Web

open Fallible Config SortedMap

/-- Where the value of a key is written. -/
inductive Origin where
  | direct
  | inherited (name : String)
  | defaults
deriving DecidableEq

abbrev Origins := Map String Origin

def KEY_EXTENDS : String := "extends"

/-- Each key of a table but the one for its parents is of one origin. -/
def recordKeys (origin : Origin) (t : Table) (out : Origins) : Origins :=
  (t.keys.filter fun key => key ≠ KEY_EXTENDS).foldl
    (fun out key => out.insert key origin) out

/-- The names in an `extends`; what is not a name is passed over. -/
def namesIn : Value → List String
  | .string s => [s]
  | .array items => items.filterMap Value.asStr
  | _ => []

section Resolve

variable (r : Root)

mutual

/-- The keys of an entity are written into the shared map: the defaults, what it
inherits, and its own. -/
def resolveOrigins (entityName : String) (entity : Table)
    (visiting : List String) (top : Bool) (out : Origins) : Origins :=
  let own := if top then Origin.direct else .inherited entityName
  let names := ((entity.get KEY_EXTENDS).map namesIn).getD []
  recordKeys own entity
    (originsOfParents names visiting (recordKeys .defaults r.defaults out))
termination_by (r.unvisited visiting, 1, 0)

/-- The loop over what an entity inherits from. -/
def originsOfParents (names : List String) (visiting : List String)
    (out : Origins) : Origins :=
  match names with
  | [] => out
  | base :: rest =>
      if _hvisited : base ∈ visiting then originsOfParents rest visiting out
      else
        match _hentity : r.entityOf base with
        | none => originsOfParents rest visiting out
        | some entity =>
            originsOfParents rest visiting
              (resolveOrigins base entity (visiting ++ [base]) false out)
termination_by (r.unvisited visiting, 0, names.length)
decreasing_by
  · exact Prod.Lex.right _ (Prod.Lex.right _ (Nat.lt_succ_self _))
  · exact Prod.Lex.right _ (Prod.Lex.right _ (Nat.lt_succ_self _))
  · exact Prod.Lex.left _ _ (r.unvisited_lt _hvisited _hentity)
  · exact Prod.Lex.right _ (Prod.Lex.right _ (Nat.lt_succ_self _))

end

end Resolve

/-- A part of the root; nothing where it is no table. -/
def tableAt (root : Table) (key : String) : Table :=
  ((root.get key).bind Value.asTable).getD Map.empty

def rootOf (root : Table) : Root :=
  ⟨tableAt root "defaults", tableAt root "base", tableAt root "profile"⟩

def originsOf (r : Root) (entry : String × Value) : String × Origins :=
  (entry.1, match entry.2.asTable with
    | some t => resolveOrigins r entry.1 t [entry.1] true Map.empty
    | none => Map.empty)

def v2Origins (root : Table) : Map String Origins :=
  Map.ofEntries ((rootOf root).profiles.entries.map (originsOf (rootOf root)))

section Record

variable {origin : Origin} {t : Table} {out : Origins}

theorem get_ownKeys (t : Table) (key : String) :
    (ownKeys t).get key = if key = KEY_EXTENDS then none else t.get key :=
  Map.get_erase t KEY_EXTENDS key

theorem get_foldl_insert (keys : List String) (out : Origins) (key : String) :
    (keys.foldl (fun out key => out.insert key origin) out).get key =
      if key ∈ keys then some origin else out.get key := by
  induction keys generalizing out with
  | nil => rfl
  | cons first rest ih =>
      rw [List.foldl_cons, ih, Map.get_insert]
      by_cases hrest : key ∈ rest
      · rw [if_pos hrest, if_pos (List.mem_cons_of_mem _ hrest)]
      · rw [if_neg hrest]
        by_cases hfirst : key = first
        · rw [if_pos hfirst, if_pos (hfirst ▸ List.mem_cons_self)]
        · rw [if_neg hfirst, if_neg (mt List.mem_cons.mp (not_or.mpr
            ⟨hfirst, hrest⟩))]

theorem get_recordKeys (key : String) :
    (recordKeys origin t out).get key =
      if ((ownKeys t).get key).isSome then some origin else out.get key := by
  have hiff : key ∈ t.keys.filter (fun key => key ≠ KEY_EXTENDS) ↔
      ((ownKeys t).get key).isSome = true := by
    rw [List.mem_filter, decide_eq_true_iff, Map.mem_keys_iff, get_ownKeys]
    by_cases hkey : key = KEY_EXTENDS
    · rw [if_pos hkey]
      exact iff_of_false (fun h => h.2 hkey) (by simp)
    · rw [if_neg hkey, and_iff_left hkey]
  rw [recordKeys, get_foldl_insert]
  simp only [hiff]

end Record

section Mirror

variable {r : Root}

/-- The value of a key is written where its origin says. -/
def WrittenAt (r : Root) (key : String) : Option Origin → Option Value → Prop
  | none, held => held = none
  | some .direct, _ => False
  | some (.inherited n), held =>
      ∃ t v, r.entityOf n = some t ∧ t.get key = some v ∧ held = some v
  | some .defaults, held => ∃ v, r.defaults.get key = some v ∧ held = some v

def Mirrors (r : Root) (out : Origins) (acc : Table) : Prop :=
  ∀ key, WrittenAt r key (out.get key) (acc.get key)

theorem get_of_ownKeys {t : Table} {key : String} {v : Value}
    (hown : (ownKeys t).get key = some v) : t.get key = some v := by
  rw [get_ownKeys] at hown
  split at hown
  · cases hown
  · exact hown

/-- The keys of one table are recorded as its values are laid over. -/
theorem Mirrors.record {out : Origins} {acc t : Table} {origin : Origin}
    (hmirrors : Mirrors r out acc)
    (horigin : ∀ key v, (ownKeys t).get key = some v →
      WrittenAt r key (some origin) (some v)) :
    Mirrors r (recordKeys origin t out) (acc.overlay (ownKeys t)) := by
  intro key
  rw [get_recordKeys, Map.get_overlay]
  cases hown : (ownKeys t).get key with
  | none => exact hmirrors key
  | some v => exact horigin key v hown

theorem filterMap_of_mapM {items : List Value} {names : List String}
    (hnames : items.mapM Value.asStr = some names) :
    items.filterMap Value.asStr = names := by
  induction items generalizing names with
  | nil => exact Option.some.inj hnames
  | cons item rest ih =>
      rw [List.mapM_cons, Option.bind_eq_bind, Option.bind_eq_some_iff] at hnames
      obtain ⟨first, hfirst, hnames⟩ := hnames
      rw [Option.bind_eq_bind, Option.bind_eq_some_iff] at hnames
      obtain ⟨others, hothers, hnames⟩ := hnames
      rw [List.filterMap_cons, hfirst]
      exact (congrArg _ (ih hothers)).trans (Option.some.inj hnames)

theorem namesIn_eq {entity : Table} {names : List String}
    (hnames : Root.heritage entity = some names) :
    ((entity.get KEY_EXTENDS).map namesIn).getD [] = names := by
  rw [Root.heritage] at hnames
  change ((entity.get "extends").map namesIn).getD [] = names
  split at hnames
  next hget =>
    rw [hget]
    exact Option.some.inj hnames
  next s hget =>
    rw [hget]
    exact Option.some.inj hnames
  next items hget =>
    rw [hget, Option.map_some, Option.getD_some, namesIn]
    exact filterMap_of_mapM hnames
  next => cases hnames

theorem overlay_assoc (first second third : Table) :
    (first.overlay second).overlay third =
      first.overlay (second.overlay third) := by
  refine Map.ext_get fun key => ?_
  rw [Map.get_overlay, Map.get_overlay, Map.get_overlay, Map.get_overlay,
    Option.or_assoc]

/-- What the map in front of an entity's own keys is recorded as. -/
theorem mirrors_front {name : String} {entity : Table} {visiting : List String}
    {flat acc : Table} {out : Origins}
    (hstep : ∀ base parent below laid shared, base ∉ visiting →
      r.entityOf base = some parent →
      r.resolveFlat base parent (visiting ++ [base]) = .ok below →
      Mirrors r shared laid →
        Mirrors r (resolveOrigins r base parent (visiting ++ [base]) false shared)
          (laid.overlay below))
    (hresolve : r.resolveFlat name entity visiting = .ok flat)
    (hmirrors : Mirrors r out acc) :
    ∃ front, flat = front.overlay (ownKeys entity) ∧
      Mirrors r (originsOfParents r
          (((entity.get KEY_EXTENDS).map namesIn).getD []) visiting
          (recordKeys .defaults r.defaults out)) (acc.overlay front) := by
  have hloop : ∀ rest front final shared,
      r.resolveParents name rest visiting front = .ok final →
      Mirrors r shared (acc.overlay front) →
        Mirrors r (originsOfParents r rest visiting shared)
          (acc.overlay final) := by
    intro rest
    induction rest with
    | nil =>
        intro front final shared hparents hshared
        rw [Root.resolveParents] at hparents
        cases hparents
        rw [originsOfParents]
        exact hshared
    | cons base rest ih =>
        intro front final shared hparents hshared
        rw [Root.resolveParents] at hparents
        split at hparents
        next => cases hparents
        next hfresh =>
          split at hparents
          next => cases hparents
          next parent hparent =>
            obtain ⟨below, hbelow, hrest⟩ := bind_eq_ok.mp hparents
            have hnext := hstep base parent below _ shared hfresh hparent hbelow
              hshared
            rw [overlay_assoc] at hnext
            rw [originsOfParents, dif_neg hfresh]
            split
            next hnone =>
              rw [hparent] at hnone
              cases hnone
            next found hfound =>
              cases hparent.symm.trans hfound
              exact ih _ final _ hrest hnext
  rw [Root.resolveFlat] at hresolve
  obtain ⟨names, hnames, hresolve⟩ := bind_eq_ok.mp hresolve
  obtain ⟨front, hfront, hflat⟩ := bind_eq_ok.mp hresolve
  rw [namesIn_eq (Root.parentNames_eq_ok.mp hnames)]
  refine ⟨front, (Except.ok.inj hflat).symm, hloop names _ front _ hfront ?_⟩
  have hfirst : Mirrors r (recordKeys .defaults r.defaults out)
      (acc.overlay (ownKeys r.defaults)) :=
    hmirrors.record fun key v hown => ⟨v, get_of_ownKeys hown, rfl⟩
  have hempty : acc.overlay (Map.empty.overlay (ownKeys r.defaults)) =
      acc.overlay (ownKeys r.defaults) := by
    rw [← overlay_assoc]
    rfl
  rw [hempty]
  exact hfirst

/-- The shared map follows the maps that are laid over one another: an entity
writes what its own flat map holds. -/
theorem mirrors_inherited {name : String} {entity : Table}
    {visiting : List String} {flat acc : Table} {out : Origins}
    (hentity : r.entityOf name = some entity)
    (hresolve : r.resolveFlat name entity visiting = .ok flat)
    (hmirrors : Mirrors r out acc) :
    Mirrors r (resolveOrigins r name entity visiting false out)
      (acc.overlay flat) := by
  induction hleft : r.unvisited visiting using Nat.strong_induction_on
    generalizing name entity visiting flat acc out with
  | _ left ih =>
      obtain ⟨front, rfl, hfront⟩ := mirrors_front
        (fun base parent below laid shared hfresh hparent hbelow hshared =>
          ih _ (hleft ▸ r.unvisited_lt hfresh hparent) hparent hbelow hshared rfl)
        hresolve hmirrors
      rw [resolveOrigins, ← overlay_assoc]
      exact hfront.record fun key v hown =>
        ⟨entity, v, hentity, get_of_ownKeys hown, rfl⟩

end Mirror

section Screen

/-- The origins of a profile tell of its flat map where each value is written. -/
structure Tells (r : Root) (entity flat : Table) (origins : Origins) : Prop where
  recorded : ∀ key, (origins.get key).isSome ↔ (flat.get key).isSome
  direct : ∀ key, origins.get key = some .direct ↔
    ((ownKeys entity).get key).isSome
  inherited : ∀ key n, origins.get key = some (.inherited n) →
    ∃ t v, r.entityOf n = some t ∧ t.get key = some v ∧ flat.get key = some v
  defaults : ∀ key, origins.get key = some .defaults →
    ∃ v, r.defaults.get key = some v ∧ flat.get key = some v

/-- A profile's own keys stand on what it inherits. -/
theorem Tells.of_front {r : Root} {entity front : Table} {shared : Origins}
    (hfront : Mirrors r shared front) :
    Tells r entity (front.overlay (ownKeys entity))
      (recordKeys .direct entity shared) where
  recorded key := by
    have hkey := hfront key
    rw [get_recordKeys, Map.get_overlay]
    cases hown : (ownKeys entity).get key with
    | some v => simp
    | none =>
        cases hshared : shared.get key with
        | none =>
            rw [hshared] at hkey
            have hget : front.get key = none := hkey
            simp [hget]
        | some origin =>
            rw [hshared] at hkey
            cases origin with
            | direct => exact hkey.elim
            | inherited n =>
                obtain ⟨_, v, -, -, hget⟩ := hkey
                simp [hget]
            | defaults =>
                obtain ⟨v, -, hget⟩ := hkey
                simp [hget]
  direct key := by
    have hkey := hfront key
    rw [get_recordKeys]
    split
    next hown => exact iff_of_true rfl hown
    next hown =>
      refine iff_of_false (fun hshared => ?_) hown
      rw [hshared] at hkey
      exact hkey
  inherited key n hget := by
    have hkey := hfront key
    rw [get_recordKeys] at hget
    split at hget
    next => cases hget
    next hown =>
      rw [hget] at hkey
      rw [Map.get_overlay, Option.not_isSome_iff_eq_none.mp hown]
      exact hkey
  defaults key hget := by
    have hkey := hfront key
    rw [get_recordKeys] at hget
    split at hget
    next => cases hget
    next hown =>
      rw [hget] at hkey
      rw [Map.get_overlay, Option.not_isSome_iff_eq_none.mp hown]
      exact hkey

theorem tells_resolveOrigins {r : Root} {name : String} {entity flat : Table}
    (hresolve : r.resolveFlat name entity [name] = .ok flat) :
    Tells r entity flat
      (resolveOrigins r name entity [name] true Map.empty) := by
  have hempty : Mirrors r Map.empty Map.empty := fun key => rfl
  obtain ⟨front, rfl, hfront⟩ := mirrors_front
    (fun base parent below laid shared _ hparent hbelow hshared =>
      mirrors_inherited hparent hbelow hshared) hresolve hempty
  rw [resolveOrigins, if_pos rfl]
  refine Tells.of_front fun key => ?_
  have hkey := hfront key
  rwa [Map.get_overlay, show Map.empty.get key = (none : Option Value) from rfl,
    Option.or_none] at hkey

variable {root : Table} {r : Root}

/-- The loader takes the parts of the root for tables, and every profile resolves. -/
structure LoadsRoot (root : Table) (r : Root) : Prop where
  defaults : takeTable root "defaults" = .ok r.defaults
  bases : takeTable root "base" = .ok r.bases
  profiles : takeTable root "profile" = .ok r.profiles
  resolves : ∀ name v, r.profiles.get name = some v →
    ∃ entity flat, v.asTable = some entity ∧
      r.resolveFlat name entity [name] = .ok flat

theorem tableAt_of_takeTable {key : String} {t : Table}
    (htake : takeTable root key = .ok t) : tableAt root key = t := by
  rw [takeTable] at htake
  rw [tableAt]
  split at htake
  next hget =>
    rw [hget]
    exact Except.ok.inj htake
  next v hget =>
    rw [hget, Option.bind_some]
    split at htake
    next inner hinner =>
      rw [hinner]
      exact Except.ok.inj htake
    next => cases htake

theorem LoadsRoot.rootOf_eq (hloads : LoadsRoot root r) : rootOf root = r := by
  rw [rootOf, tableAt_of_takeTable hloads.defaults,
    tableAt_of_takeTable hloads.bases, tableAt_of_takeTable hloads.profiles]

theorem get_v2Origins {name : String} {v : Value} {entity : Table}
    (hget : (rootOf root).profiles.get name = some v)
    (hentity : v.asTable = some entity) :
    (v2Origins root).get name =
      some (resolveOrigins (rootOf root) name entity [name] true Map.empty) := by
  have hkeys : (((rootOf root).profiles.entries.map
      (originsOf (rootOf root))).map Prod.fst).Nodup := by
    rw [List.map_map]
    exact (rootOf root).profiles.sorted.imp ne_of_lt
  refine (Map.get_ofEntries_eq_some_iff hkeys).mpr ?_
  have hmem := List.mem_map_of_mem (f := originsOf (rootOf root))
    (Map.get_eq_some_iff.mp hget)
  rw [originsOf, hentity] at hmem
  exact hmem

/-- The screen says of every profile's keys what the loader makes of them. -/
theorem v2Origins_tells (hloads : LoadsRoot root r) {name : String} {v : Value}
    (hget : r.profiles.get name = some v) :
    ∃ entity flat origins, v.asTable = some entity ∧
      r.resolveFlat name entity [name] = .ok flat ∧
      (v2Origins root).get name = some origins ∧ Tells r entity flat origins := by
  obtain ⟨entity, flat, hentity, hresolve⟩ := hloads.resolves name v hget
  have hroot : (rootOf root).profiles.get name = some v :=
    hloads.rootOf_eq ▸ hget
  have horigins := get_v2Origins hroot hentity
  rw [hloads.rootOf_eq] at horigins
  exact ⟨entity, flat, _, hentity, hresolve, horigins,
    tells_resolveOrigins hresolve⟩

/-- One profile that takes a key from a base. -/
def inheriting : Table :=
  Map.ofEntries [
    ("base", .table [("prod", .table [("compress", .string "zstd")])]),
    ("profile", .table [("nightly", .table [("extends", .string "prod")])])]

def inheritingRoot : Root where
  defaults := Map.empty
  bases := Map.ofEntries [("prod", .table [("compress", .string "zstd")])]
  profiles := Map.ofEntries [("nightly", .table [("extends", .string "prod")])]

theorem inheriting_loads : LoadsRoot inheriting inheritingRoot where
  defaults := rfl
  bases := rfl
  profiles := rfl
  resolves name v hget := by
    obtain ⟨rfl, rfl⟩ : name = "nightly" ∧
        v = .table [("extends", .string "prod")] := by
      have hmem := Map.get_eq_some_iff.mp hget
      have hentries : inheritingRoot.profiles.entries =
          [("nightly", .table [("extends", .string "prod")])] := rfl
      rw [hentries, List.mem_singleton, Prod.mk.injEq] at hmem
      exact hmem
    have hnames : Root.heritage (Map.ofEntries [("extends",
        .string "prod")]) = some ["prod"] := rfl
    have hlinked := Root.wellLinked_of_flat (r := inheritingRoot) hnames
      (List.forall_mem_singleton.mpr ⟨_, rfl, rfl⟩)
    have hnew : ∀ n, inheritingRoot.Ancestor (Map.ofEntries [("extends",
        .string "prod")]) n → n ∉ ["nightly"] := by
      intro n hn
      rcases (Root.Ancestor.cases hnames).mp hn with hn | ⟨m, hm, other, hother, hn⟩
      · rw [List.mem_singleton.mp hn]
        decide
      · cases List.mem_singleton.mp hm
        cases hother
        rcases (Root.Ancestor.cases rfl).mp hn with hn | ⟨_, hm, -⟩
        · cases hn
        · cases hm
    obtain ⟨flat, hflat, -⟩ :=
      Root.resolves_of_wellLinked hlinked "nightly" ["nightly"] hnew
    exact ⟨_, flat, rfl, hflat⟩

theorem v2Origins_tells_inheriting :
    ∃ entity flat origins,
      inheritingRoot.resolveFlat "nightly" entity ["nightly"] = .ok flat ∧
      (v2Origins inheriting).get "nightly" = some origins ∧
      Tells inheritingRoot entity flat origins := by
  have hget : inheritingRoot.profiles.get "nightly" =
      some (.table [("extends", .string "prod")]) := rfl
  obtain ⟨entity, flat, origins, -, htold⟩ := v2Origins_tells inheriting_loads hget
  exact ⟨entity, flat, origins, htold⟩

end Screen

end Web

end XBackup
