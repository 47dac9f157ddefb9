import U7s.Handlers.LabelSelector
import U7s.Lib.Runs
import U7s.Store.Shard

namespace U7s.Handlers

open Option AList

open FieldSelector (Term matchesAll)
open LabelSelector (objectMatchesLabelSelector selectorProjectionNonMatch)
open Runs (run Along)
open Store (WatchEvent)
open Text (rsplitOnce)

def identity (obj : Json) : String × String :=
  ((((obj.idx "metadata").idx "namespace").asStr?).getD "", (((obj.idx "metadata").idx "name").asStr?).getD "")

structure WatchConfig where
  labelSelector : String
  fieldSelector : List Term
  isCr : Bool
  convertCr : Json → Option Json
  applyDefaults : Json → Json
  readable : Json → Bool
  identity_convertCr : ∀ obj obj', convertCr obj = some obj' → identity obj' = identity obj
  identity_applyDefaults : ∀ obj, identity (applyDefaults obj) = identity obj

structure WatchState where
  everMatched : Finset (String × String)
  locallyDeleted : Finset String
  deriving DecidableEq

inductive WireEvent where
  | added (object : Json)
  | modified (object : Json)
  | deleted (object : Json)
  deriving DecidableEq

def parseKeyNameNs (key : String) : String × String :=
  match rsplitOnce '/' key with
  | none => (key, "")
  | some (front, name) =>
    match rsplitOnce '/' front with
    | none => (name, front)
    | some (_, ns) => (name, ns)

def buildTombstoneObject (name ns : String) : Json :=
  .obj [("metadata", .obj (("name", .str name) :: if ns = "" then [] else [("namespace", .str ns)]))]

def shouldEmitSyntheticDelete (isModified nowMatches everMatched : Bool) : Bool :=
  isModified && !nowMatches && everMatched

namespace WatchConfig

variable (cfg : WatchConfig)

def noSelectors : Bool := cfg.labelSelector = "" && cfg.fieldSelector.isEmpty

def watchTracksEverMatched : Bool := !cfg.noSelectors

def convertWatchedCrObject (obj : Json) : Option Json := if cfg.isCr then cfg.convertCr obj else some obj

def selects (obj : Json) : Bool :=
  objectMatchesLabelSelector obj cfg.labelSelector && matchesAll cfg.fieldSelector obj

def liveEvent (isModified locallyWasDeleted : Bool) (obj : Json) : WireEvent :=
  if isModified && !locallyWasDeleted then .modified obj else .added obj

def leave (st : WatchState) (key : String) (isModified : Bool) (ns name : String) : WatchState × Option WireEvent :=
  let wasMatched : Bool := (ns, name) ∈ st.everMatched
  let st := { st with everMatched := st.everMatched.erase (ns, name) }
  if key ∉ st.locallyDeleted ∧ shouldEmitSyntheticDelete isModified false wasMatched then
    ({ st with locallyDeleted := insert key st.locallyDeleted }, some (.deleted (buildTombstoneObject name ns)))
  else (st, none)

def pass (st : WatchState) (key : String) (isModified : Bool) (obj : Json) : WatchState × Option WireEvent :=
  ({ everMatched := if cfg.watchTracksEverMatched then insert (identity obj) st.everMatched else st.everMatched
     locallyDeleted := st.locallyDeleted.erase key },
    some (liveEvent isModified (key ∈ st.locallyDeleted) obj))

def projectionNonMatch (value : Json) : Option (String × String) :=
  if cfg.isCr then none
  else selectorProjectionNonMatch (cfg.readable value) value cfg.labelSelector cfg.fieldSelector

def upserted (st : WatchState) (key : String) (isModified : Bool) (value : Json) : WatchState × Option WireEvent :=
  if !cfg.isCr && cfg.noSelectors then
    ({ st with locallyDeleted := st.locallyDeleted.erase key },
      some (liveEvent isModified (key ∈ st.locallyDeleted) (cfg.applyDefaults value)))
  else
    match cfg.projectionNonMatch value with
    | some (name, ns) => leave st key isModified ns name
    | none =>
      match cfg.convertWatchedCrObject value with
      | none => (st, none)
      | some parsed =>
        let parsed := cfg.applyDefaults parsed
        if cfg.selects parsed then cfg.pass st key isModified parsed
        else leave st key isModified (identity parsed).1 (identity parsed).2

def removed (st : WatchState) (key : String) (body : Option Json) : WatchState × Option WireEvent :=
  if key ∈ st.locallyDeleted then ({ st with locallyDeleted := st.locallyDeleted.erase key }, none)
  else
    match body with
    | none => (st, some (.deleted (buildTombstoneObject (parseKeyNameNs key).1 (parseKeyNameNs key).2)))
    | some body =>
      match cfg.convertWatchedCrObject body with
      | none => (st, none)
      | some converted =>
        let converted := if cfg.fieldSelector.isEmpty then converted else cfg.applyDefaults converted
        ({ st with everMatched := st.everMatched.erase (identity converted) },
          if cfg.selects converted then some (.deleted converted) else none)

end WatchConfig

def applyWire (cache : Finset (String × String)) : WireEvent → Finset (String × String)
  | .added obj => insert (identity obj) cache
  | .modified obj => insert (identity obj) cache
  | .deleted obj => cache.erase (identity obj)

structure Watching where
  store : AList (fun _ : String => Json)
  state : WatchState
  cache : Finset (String × String)

namespace WatchConfig

variable (cfg : WatchConfig)

def served (value : Json) : Option Json := (cfg.convertWatchedCrObject value).map cfg.applyDefaults

def matchesStored (value : Json) : Bool := (cfg.served value).any cfg.selects

def matching (store : AList (fun _ : String => Json)) : Finset (String × String) :=
  ((store.entries.filter (fun e => cfg.matchesStored e.2)).map (fun e => identity e.2)).toFinset

inductive Start where
  | listed
  | initialEvents
  deriving DecidableEq

def initialItems (store : AList (fun _ : String => Json)) : List Json :=
  (store.entries.filterMap (fun e => cfg.served e.2)).filter cfg.selects

def start (store : AList (fun _ : String => Json)) : Start → Watching
  | .listed => ⟨store, ⟨∅, ∅⟩, cfg.matching store⟩
  | .initialEvents =>
    let items := cfg.initialItems store
    ⟨store, ⟨if cfg.watchTracksEverMatched then (items.map identity).toFinset else ∅, ∅⟩,
      items.foldl (fun cache obj => applyWire cache (.added obj)) ∅⟩

def Valid (w : Watching) : WatchEvent Json → Prop
  | .added key _ value => w.store.lookup key = none ∧
      ∀ key' value', w.store.lookup key' = some value' → identity value' ≠ identity value
  | .modified key _ value => ∃ old, w.store.lookup key = some old ∧ identity value = identity old
  | .deleted key _ body => ∃ old, w.store.lookup key = some old ∧ ∀ b ∈ body, b = old
  | .bookmark _ => True
  | .compacted _ _ => False

def ReadsAlike (value : Json) : Prop :=
  cfg.convertWatchedCrObject value ≠ none ∧
    ∀ name ns, cfg.projectionNonMatch value = some (name, ns) →
      (ns, name) = identity value ∧ cfg.matchesStored value = false

def deletedView (body : Json) : Option Json :=
  (cfg.convertWatchedCrObject body).map (fun obj => if cfg.fieldSelector.isEmpty then obj else cfg.applyDefaults obj)

def Handled (mode : Start) (w : Watching) : WatchEvent Json → Prop
  | .added _ _ value => cfg.ReadsAlike value
  | .modified _ _ value => cfg.ReadsAlike value ∧
      (mode = .listed → cfg.matchesStored value = false → identity value ∈ w.cache →
        identity value ∈ w.state.everMatched)
  | .deleted key _ none => key ∉ w.state.locallyDeleted → ∀ old, w.store.lookup key = some old →
      (parseKeyNameNs key).swap = identity old ∨ ((parseKeyNameNs key).swap ∉ w.cache ∧ identity old ∉ w.cache)
  | .deleted key _ (some body) => key ∉ w.state.locallyDeleted →
      ∃ obj, cfg.deletedView body = some obj ∧ cfg.selects obj = cfg.matchesStored body
  | .bookmark _ => True
  | .compacted _ _ => True

end WatchConfig

section Matching

variable {cfg : WatchConfig} {store : AList (fun _ : String => Json)}

theorem identity_tombstone (name ns : String) : identity (buildTombstoneObject name ns) = (ns, name) := by
  by_cases hns : ns = ""
  · subst hns
    rfl
  · simp only [buildTombstoneObject, if_neg hns]
    rfl

theorem mem_matching :
    i ∈ cfg.matching store ↔
      ∃ key value, store.lookup key = some value ∧ cfg.matchesStored value ∧ identity value = i := by
  simp only [WatchConfig.matching, List.mem_toFinset, List.mem_map, List.mem_filter, and_assoc]
  constructor
  · rintro ⟨⟨key, value⟩, he, hm, hi⟩
    exact ⟨key, value, mem_lookup_iff.mpr he, hm, hi⟩
  · rintro ⟨key, value, hlookup, hm, hi⟩
    exact ⟨⟨key, value⟩, mem_lookup_iff.mp hlookup, hm, hi⟩

def Distinct (store : AList (fun _ : String => Json)) : Prop :=
  ∀ key key' value value', store.lookup key = some value → store.lookup key' = some value' →
    identity value = identity value' → key = key'

variable (cfg) in
theorem matching_insert
    (hothers : ∀ key' value', key' ≠ key → store.lookup key' = some value' → identity value' ≠ identity value)
    (hold : ∀ old, store.lookup key = some old → identity old = identity value) :
    cfg.matching (store.insert key value) =
      if cfg.matchesStored value then insert (identity value) (cfg.matching store)
      else (cfg.matching store).erase (identity value) := by
  ext i
  have hmem : i ∈ cfg.matching (store.insert key value) ↔
      (cfg.matchesStored value ∧ i = identity value) ∨ (i ≠ identity value ∧ i ∈ cfg.matching store) := by
    rw [mem_matching, mem_matching]
    constructor
    · rintro ⟨key', value', hlookup, hm, rfl⟩
      by_cases hkey : key' = key
      · subst hkey
        rw [lookup_insert] at hlookup
        cases hlookup
        exact Or.inl ⟨hm, rfl⟩
      · rw [lookup_insert_ne hkey] at hlookup
        exact Or.inr ⟨hothers key' value' hkey hlookup, key', value', hlookup, hm, rfl⟩
    · rintro (⟨hm, rfl⟩ | ⟨hne, key', value', hlookup, hm, rfl⟩)
      · exact ⟨key, value, lookup_insert store, hm, rfl⟩
      · have hkey : key' ≠ key := by
          rintro rfl
          exact hne (hold value' hlookup)
        exact ⟨key', value', by rw [lookup_insert_ne hkey, hlookup], hm, rfl⟩
  rw [hmem]
  split_ifs with hm
  · by_cases hi : i = identity value
    · simp [hi, hm]
    · simp [hi]
  · simp [hm]

theorem matching_erase (hstore : Distinct store) (hold : store.lookup key = some old) :
    cfg.matching (store.erase key) = (cfg.matching store).erase (identity old) := by
  ext i
  rw [Finset.mem_erase, mem_matching, mem_matching]
  constructor
  · rintro ⟨key', value, hlookup, hm, rfl⟩
    have hne : key' ≠ key := by
      rintro rfl
      rw [lookup_erase] at hlookup
      cases hlookup
    rw [lookup_erase_ne hne] at hlookup
    exact ⟨fun hi => hne (hstore _ _ _ _ hlookup hold hi), key', value, hlookup, hm, rfl⟩
  · rintro ⟨hi, key', value, hlookup, hm, rfl⟩
    have hne : key' ≠ key := by
      rintro rfl
      rw [hlookup] at hold
      cases hold
      exact hi rfl
    exact ⟨key', value, by rw [lookup_erase_ne hne, hlookup], hm, rfl⟩

end Matching

section Steps

variable {cfg : WatchConfig} {st : WatchState} {key : String} {value : Json} {isModified : Bool}
  {cache : Finset (String × String)}

theorem selects_of_noSelectors (h : cfg.noSelectors) (obj : Json) : cfg.selects obj := by
  simp only [WatchConfig.noSelectors, Bool.and_eq_true, List.isEmpty_iff] at h
  simp [WatchConfig.selects, objectMatchesLabelSelector, LabelSelector.labelSelectorMatches, matchesAll, h.1, h.2]

theorem identity_convert (h : cfg.convertWatchedCrObject obj = some obj') : identity obj' = identity obj := by
  unfold WatchConfig.convertWatchedCrObject at h
  split_ifs at h
  · exact cfg.identity_convertCr obj obj' h
  · cases h
    rfl

theorem applyWire_liveEvent (isModified locallyWasDeleted : Bool) (obj : Json) :
    applyWire cache (WatchConfig.liveEvent isModified locallyWasDeleted obj) = insert (identity obj) cache := by
  unfold WatchConfig.liveEvent
  split_ifs
  · rfl
  · rfl

theorem matchesStored_eq (h : cfg.convertWatchedCrObject value = some parsed) :
    cfg.matchesStored value = cfg.selects (cfg.applyDefaults parsed) := by
  rw [WatchConfig.matchesStored, WatchConfig.served, h, map_some, any_some]

theorem upserted_eq (hread : cfg.ReadsAlike value) (hslow : (!cfg.isCr && cfg.noSelectors) = false) :
    ∃ parsed, cfg.matchesStored value = cfg.selects parsed ∧ identity parsed = identity value ∧
      cfg.upserted st key isModified value =
        if cfg.matchesStored value then cfg.pass st key isModified parsed
        else WatchConfig.leave st key isModified (identity value).1 (identity value).2 := by
  obtain ⟨parsed, hparsed⟩ := ne_none_iff_exists'.mp hread.1
  have hid : identity (cfg.applyDefaults parsed) = identity value := by
    rw [cfg.identity_applyDefaults, identity_convert hparsed]
  refine ⟨cfg.applyDefaults parsed, matchesStored_eq hparsed, hid, ?_⟩
  rw [WatchConfig.upserted, if_neg (by rw [hslow]; exact Bool.false_ne_true)]
  cases hproj : cfg.projectionNonMatch value with
  | some p =>
    obtain ⟨hname, hm⟩ := hread.2 p.1 p.2 hproj
    rw [if_neg (by rw [hm]; exact Bool.false_ne_true), ← hname]
  | none =>
    rw [hparsed]
    dsimp only
    rw [← matchesStored_eq hparsed, hid]

variable (st key isModified cache) in
theorem upserted_of_matches (hread : cfg.ReadsAlike value) (hm : cfg.matchesStored value) :
    ∃ r, cfg.upserted st key isModified value = r ∧
      r.2.elim cache (applyWire cache) = insert (identity value) cache ∧
      r.1.locallyDeleted = st.locallyDeleted.erase key ∧
      (cfg.noSelectors = false → r.1.everMatched = insert (identity value) st.everMatched) := by
  refine ⟨_, rfl, ?_⟩
  cases hfast : !cfg.isCr && cfg.noSelectors with
  | true =>
    rw [WatchConfig.upserted, if_pos hfast]
    refine ⟨?_, rfl, ?_⟩
    · rw [elim_some, applyWire_liveEvent, cfg.identity_applyDefaults]
    · intro hsel
      rw [hsel, Bool.and_false] at hfast
      cases hfast
  | false =>
    obtain ⟨parsed, -, hid, heq⟩ := upserted_eq hread hfast
    rw [heq, if_pos hm]
    refine ⟨?_, rfl, ?_⟩
    · rw [WatchConfig.pass, elim_some, applyWire_liveEvent, hid]
    · intro hsel
      simp only [WatchConfig.pass, WatchConfig.watchTracksEverMatched, hsel, Bool.not_false, if_true, hid]

variable (st key isModified) in
theorem upserted_of_not_matches (hread : cfg.ReadsAlike value) (hm : cfg.matchesStored value = false) :
    cfg.noSelectors = false ∧ cfg.upserted st key isModified value =
      WatchConfig.leave st key isModified (identity value).1 (identity value).2 := by
  have hsel : cfg.noSelectors = false := by
    by_contra hsel
    obtain ⟨parsed, hparsed⟩ := ne_none_iff_exists'.mp hread.1
    rw [matchesStored_eq hparsed, selects_of_noSelectors (Bool.not_eq_false _ ▸ hsel)] at hm
    cases hm
  obtain ⟨parsed, -, -, heq⟩ := upserted_eq hread (by rw [hsel, Bool.and_false])
  refine ⟨hsel, ?_⟩
  rw [heq, if_neg (by rw [hm]; exact Bool.false_ne_true)]

variable (st key isModified cache) in
theorem leave_spec (id : String × String) :
    ∃ r, WatchConfig.leave st key isModified id.1 id.2 = r ∧ r.1.everMatched = st.everMatched.erase id ∧
      ((r.2.elim cache (applyWire cache) = cache.erase id ∧ r.1.locallyDeleted = insert key st.locallyDeleted) ∨
        ((key ∉ st.locallyDeleted → isModified → id ∉ st.everMatched) ∧
          r.2.elim cache (applyWire cache) = cache ∧ r.1.locallyDeleted = st.locallyDeleted)) := by
  refine ⟨_, rfl, ?_⟩
  unfold WatchConfig.leave
  dsimp only
  split_ifs with h
  · refine ⟨rfl, Or.inl ⟨?_, rfl⟩⟩
    rw [elim_some, applyWire, identity_tombstone]
  · refine ⟨rfl, Or.inr ⟨?_, rfl, rfl⟩⟩
    intro hkey hmod hmem
    apply h
    simp [hkey, hmod, hmem, shouldEmitSyntheticDelete]

end Steps

section Runs

variable {cfg : WatchConfig} {mode : WatchConfig.Start} {w : Watching}

structure WatchInv (cfg : WatchConfig) (mode : WatchConfig.Start) (w : Watching) : Prop where
  distinct : Distinct w.store
  agrees : w.cache = cfg.matching w.store
  quiet : ∀ key ∈ w.state.locallyDeleted, ∃ value, w.store.lookup key = some value ∧ cfg.matchesStored value = false
  known : mode = .initialEvents → cfg.noSelectors = false → w.cache ⊆ w.state.everMatched

theorem Distinct.insert (h : Distinct store)
    (hothers : ∀ key' value', key' ≠ key → store.lookup key' = some value' → identity value' ≠ identity value) :
    Distinct (store.insert key value) := by
  intro k k' v v' hk hk' hid
  by_cases hkey : k = key
  · by_cases hkey' : k' = key
    · rw [hkey, hkey']
    · subst hkey
      rw [lookup_insert] at hk
      rw [lookup_insert_ne hkey'] at hk'
      cases hk
      exact absurd hid.symm (hothers k' v' hkey' hk')
  · rw [lookup_insert_ne hkey] at hk
    by_cases hkey' : k' = key
    · subst hkey'
      rw [lookup_insert] at hk'
      cases hk'
      exact absurd hid (hothers k v hkey hk)
    · rw [lookup_insert_ne hkey'] at hk'
      exact h k k' v v' hk hk' hid

theorem Distinct.erase (h : Distinct store) (key : String) : Distinct (store.erase key) := by
  have hkept : ∀ k v, (store.erase key).lookup k = some v → store.lookup k = some v := by
    intro k v hk
    by_cases hkey : k = key
    · subst hkey
      rw [lookup_erase] at hk
      cases hk
    · rwa [lookup_erase_ne hkey] at hk
  intro k k' v v' hk hk' hid
  exact h k k' v v' (hkept k v hk) (hkept k' v' hk') hid

section

variable (h : WatchInv cfg mode w)
include h

theorem WatchInv.not_mem_cache (hlookup : w.store.lookup key = some value)
    (hm : cfg.matchesStored value = false) : identity value ∉ w.cache := by
  rw [h.agrees, mem_matching]
  rintro ⟨key', value', hlookup', hm', hid⟩
  cases h.distinct _ _ _ _ hlookup' hlookup hid
  rw [hlookup] at hlookup'
  cases hlookup'
  rw [hm] at hm'
  cases hm'

theorem WatchInv.upserted (hread : cfg.ReadsAlike value)
    (hothers : ∀ key' value', key' ≠ key → w.store.lookup key' = some value' → identity value' ≠ identity value)
    (hold : ∀ old, w.store.lookup key = some old → identity old = identity value ∧ isModified = true)
    (hsent : isModified → mode = .listed → cfg.matchesStored value = false → identity value ∈ w.cache →
      identity value ∈ w.state.everMatched) :
    WatchInv cfg mode ⟨w.store.insert key value, (cfg.upserted w.state key isModified value).1,
      (cfg.upserted w.state key isModified value).2.elim w.cache (applyWire w.cache)⟩ := by
  have hinsert := matching_insert cfg hothers (fun old hlookup => (hold old hlookup).1)
  have hlookup : (w.store.insert key value).lookup key = some value := lookup_insert w.store
  cases hm : cfg.matchesStored value with
  | true =>
    obtain ⟨r, hr, hcache, hdeleted, hever⟩ := upserted_of_matches w.state key isModified w.cache hread hm
    rw [hr, hcache]
    rw [if_pos hm] at hinsert
    constructor
    · exact h.distinct.insert hothers
    · rw [hinsert, h.agrees]
    · intro k hk
      rw [hdeleted, Finset.mem_erase] at hk
      rw [lookup_insert_ne hk.1]
      exact h.quiet k hk.2
    · intro hmode hsel
      rw [hever hsel]
      exact Finset.insert_subset_insert _ (h.known hmode hsel)
  | false =>
    obtain ⟨hsel, heq⟩ := upserted_of_not_matches w.state key isModified hread hm
    obtain ⟨r, hr, hever, hcase⟩ := leave_spec w.state key isModified w.cache (identity value)
    rw [heq, hr]
    rw [if_neg (by rw [hm]; exact Bool.false_ne_true)] at hinsert
    have hcache : r.2.elim w.cache (applyWire w.cache) = w.cache.erase (identity value) := by
      obtain ⟨hcache, -⟩ | ⟨hsilent, hcache, -⟩ := hcase
      · exact hcache
      · -- nothing was sent, so the client does not have the object
        rw [hcache, Finset.erase_eq_of_notMem]
        intro hmem
        have hmatching := hmem
        rw [h.agrees, mem_matching] at hmatching
        obtain ⟨key', old, hlookup', hmatch, hid⟩ := hmatching
        have hkey : key' = key := by
          by_contra hne
          exact hothers key' old hne hlookup' hid
        subst hkey
        have hmod := (hold old hlookup').2
        have hquiet : key' ∉ w.state.locallyDeleted := by
          intro hdel
          obtain ⟨v, hv, hvm⟩ := h.quiet key' hdel
          rw [hlookup'] at hv
          cases hv
          rw [hmatch] at hvm
          cases hvm
        apply hsilent hquiet hmod
        cases mode with
        | listed => exact hsent hmod rfl hm hmem
        | initialEvents => exact h.known rfl hsel hmem
    have hquiet : ∀ k ∈ r.1.locallyDeleted, k = key ∨ k ∈ w.state.locallyDeleted := by
      intro k hk
      obtain ⟨-, hdel⟩ | ⟨-, -, hdel⟩ := hcase
      · rw [hdel, Finset.mem_insert] at hk
        exact hk
      · rw [hdel] at hk
        exact Or.inr hk
    rw [hcache]
    constructor
    · exact h.distinct.insert hothers
    · rw [hinsert, h.agrees]
    · intro k hk
      by_cases hkey : k = key
      · subst hkey
        exact ⟨value, hlookup, hm⟩
      · rw [lookup_insert_ne hkey]
        exact h.quiet k ((hquiet k hk).resolve_left hkey)
    · intro hmode hsel
      rw [hever]
      exact Finset.erase_subset_erase _ (h.known hmode hsel)

theorem removed_spec (hold : w.store.lookup key = some old)
    (hbody : ∀ b ∈ body, b = old) (hhandled : cfg.Handled mode w (.deleted key revision body)) :
    ∃ r, cfg.removed w.state key body = r ∧
      r.2.elim w.cache (applyWire w.cache) = w.cache.erase (identity old) ∧
      r.1.locallyDeleted = w.state.locallyDeleted.erase key ∧
      w.state.everMatched.erase (identity old) ⊆ r.1.everMatched := by
  refine ⟨_, rfl, ?_⟩
  by_cases hdel : key ∈ w.state.locallyDeleted
  · unfold WatchConfig.removed
    rw [if_pos hdel]
    obtain ⟨value, hvalue, hm⟩ := h.quiet key hdel
    rw [hold] at hvalue
    cases hvalue
    refine ⟨?_, rfl, Finset.erase_subset _ _⟩
    rw [Finset.erase_eq_of_notMem (h.not_mem_cache hold hm)]
    rfl
  · unfold WatchConfig.removed
    rw [if_neg hdel]
    have hdeleted : w.state.locallyDeleted = w.state.locallyDeleted.erase key :=
      (Finset.erase_eq_of_notMem hdel).symm
    cases body with
    | none =>
      refine ⟨?_, hdeleted, Finset.erase_subset _ _⟩
      rw [elim_some, applyWire, identity_tombstone]
      obtain heq | ⟨hother, hself⟩ := hhandled hdel old hold
      · rw [← heq]
        rfl
      · rw [Finset.erase_eq_of_notMem hself]
        exact Finset.erase_eq_of_notMem hother
    | some b =>
      cases hbody b rfl
      obtain ⟨obj, hview, hselects⟩ := hhandled hdel
      obtain ⟨converted, hconverted, rfl⟩ := map_eq_some_iff.mp hview
      have hid : identity (if cfg.fieldSelector.isEmpty then converted else cfg.applyDefaults converted) =
          identity old := by
        split_ifs
        · exact identity_convert hconverted
        · rw [cfg.identity_applyDefaults, identity_convert hconverted]
      dsimp only
      rw [hconverted]
      dsimp only
      rw [hselects, hid]
      refine ⟨?_, hdeleted, subset_rfl⟩
      cases hm : cfg.matchesStored old with
      | true => rw [if_pos rfl, elim_some, applyWire, hid]
      | false =>
        rw [Finset.erase_eq_of_notMem (h.not_mem_cache hold hm)]
        rfl

theorem WatchInv.removed (hold : w.store.lookup key = some old)
    (hbody : ∀ b ∈ body, b = old) (hhandled : cfg.Handled mode w (.deleted key revision body)) :
    WatchInv cfg mode ⟨w.store.erase key, (cfg.removed w.state key body).1,
      (cfg.removed w.state key body).2.elim w.cache (applyWire w.cache)⟩ := by
  obtain ⟨r, hr, hcache, hdeleted, hever⟩ := removed_spec h hold hbody hhandled
  rw [hr, hcache]
  constructor
  · exact h.distinct.erase key
  · rw [matching_erase h.distinct hold, h.agrees]
  · intro k hk
    rw [hdeleted, Finset.mem_erase] at hk
    rw [lookup_erase_ne hk.1]
    exact h.quiet k hk.2
  · intro hmode hsel
    exact (Finset.erase_subset_erase _ (h.known hmode hsel)).trans hever

end

end Runs

end U7s.Handlers
