import U7s.Json
import U7s.Lib.Runs

/-! Requests for custom resources look up in a cache what a definition says of their resource. The writes of
definitions invalidate it. -/

namespace U7s.ContextCache

open Function (update update_self update_of_ne)
open Runs

structure Version where
  name : String
  served : Bool
  rest : Json

/-- A `CustomResourceDefinition`. `rest` is what else the contexts of its versions are read from. -/
structure Crd where
  group : String
  plural : String
  versions : List Version
  resourceVersion : ℕ
  rest : Json

def Crd.name (crd : Crd) : String := crd.plural ++ "." ++ crd.group

/-- Group, version and plural. -/
abbrev Key := String × String × String

/-- The keys of `crd_cache_identity`. -/
def Crd.keys (crd : Crd) : List (Option Key) := crd.versions.map (fun v => some (crd.group, v.name, crd.plural))

abbrev Crds := AList (fun _ : String => Crd)

variable {C : Type} (context : Crd → Version → C)

def matchesKey (key : Key) (crd : Crd) : Bool := crd.group = key.1 ∧ crd.plural = key.2.2

def served (key : Key) (crd : Crd) : Option C :=
  (crd.versions.find? (fun v => v.name = key.2.1 ∧ v.served)).map (context crd)

/-- The scan of `find_crd`: there is no definition, or one that serves the version or not. -/
def findCrd (crds : Crds) (key : Key) : Option (Option C) :=
  (crds.entries.find? (fun e => matchesKey key e.2)).map (fun e => served context key e.2)

structure CrContextCache (C : Type) where
  map : AList (fun _ : Key => C)
  epoch : ℕ
  absent : Finset Key

def MAX_ABSENT : ℕ := 1024

namespace CrContextCache

def insertIfCurrent (c : CrContextCache C) (key : Key) (value : C) (expectedEpoch : ℕ) : CrContextCache C :=
  if c.epoch ≠ expectedEpoch then c else { c with map := c.map.insert key value }

def insertAbsentIfCurrent (c : CrContextCache C) (key : Key) (expectedEpoch : ℕ) : CrContextCache C :=
  if c.epoch = expectedEpoch ∧ c.absent.card < MAX_ABSENT then { c with absent := insert key c.absent } else c

/-- `invalidate` for a key, and `invalidate_absent` for none. -/
def invalidate (c : CrContextCache C) (key : Option Key) : CrContextCache C where
  map := key.elim c.map c.map.erase
  epoch := (c.epoch + 1) % 2 ^ 64
  absent := ∅

end CrContextCache

/-- A call of `find_crd` that the cache has not answered. -/
inductive Call (C : Type) where
  | ended
  | scanning (key : Key) (epoch : ℕ)
  | inserting (key : Key) (epoch : ℕ) (found : Option C)

/-- The calls, and of each handler that writes what it has read and what it still has to invalidate. -/
structure Sys (C : Type) where
  crds : Crds
  revision : ℕ
  cache : CrContextCache C
  calls : ℕ → Call C
  existing : ℕ → Option (String × Crd)
  evictions : ℕ → List (Option Key)

def start (crds : Crds) (revision : ℕ) : Sys C :=
  ⟨crds, revision, ⟨∅, 0, ∅⟩, fun _ => .ended, fun _ => none, fun _ => []⟩

/-- The write of a definition, or of none for a deletion. -/
def Sys.commit (s : Sys C) (i : ℕ) (name : String) (new : Option Crd) (keys : List (Option Key)) : Sys C :=
  { s with
    crds := new.elim (s.crds.erase name) (fun crd => s.crds.insert name { crd with resourceVersion := s.revision + 1 })
    revision := s.revision + 1
    existing := update s.existing i none
    evictions := update s.evictions i keys }

/-- Whether the store takes a write that expects a revision. -/
def expects (crds : Crds) (name : String) : Option ℕ → Bool
  | none => true
  | some 0 => (crds.lookup name).isNone
  | some r => (crds.lookup name).any (fun crd => crd.resourceVersion = r)

/-- A call that the cache answers, or that ends early, takes no step. -/
inductive Action where
  | find (i : ℕ) (key : Key)
  | scan (i : ℕ)
  | insert (i : ℕ)
  | create (i : ℕ) (crd : Crd)
  | read (i : ℕ) (name : String)
  | write (i : ℕ) (new : Option Crd) (expected : Option ℕ)
  | evict (i : ℕ)

def step (s : Sys C) : Action → Sys C
  | .find i key => { s with calls := update s.calls i (.scanning key s.cache.epoch) }
  | .scan i =>
    match s.calls i with
    | .scanning key epoch =>
      { s with calls := update s.calls i ((findCrd context s.crds key).elim (.inserting key epoch none)
          (fun found => found.elim .ended (fun ctx => .inserting key epoch (some ctx)))) }
    | _ => s
  | .insert i =>
    match s.calls i with
    | .inserting key epoch found =>
      { s with
        calls := update s.calls i .ended
        cache := found.elim (s.cache.insertAbsentIfCurrent key epoch)
          (fun ctx => s.cache.insertIfCurrent key ctx epoch) }
    | _ => s
  | .create i crd =>
    if s.evictions i = [] ∧ expects s.crds crd.name (some 0) then s.commit i crd.name (some crd) [none] else s
  | .read i name => { s with existing := update s.existing i ((s.crds.lookup name).map (Prod.mk name)) }
  | .write i new expected =>
    match s.existing i with
    | some (name, old) =>
      -- the second condition is `reject_structural_field_change`
      if s.evictions i = [] ∧ new.all (fun crd => crd.group = old.group ∧ crd.plural = old.plural) ∧
        expects s.crds name expected then s.commit i name new old.keys else s
    | none => s
  | .evict i =>
    match s.evictions i with
    | key :: keys => { s with cache := s.cache.invalidate key, evictions := update s.evictions i keys }
    | [] => s

/-- Definitions are stored under their names. -/
def Named (crds : Crds) : Prop := ∀ name crd, crds.lookup name = some crd → name = crd.name

theorem matchesKey_iff : matchesKey key crd ↔ crd.group = key.1 ∧ crd.plural = key.2.2 := by simp [matchesKey]

theorem findCrd_eq (h : Named crds) (key : Key) : findCrd context crds key =
    ((crds.lookup (key.2.2 ++ "." ++ key.1)).filter (matchesKey key)).map (served context key) := by
  rw [findCrd]
  cases hf : crds.entries.find? (fun e => matchesKey key e.2) with
  | none =>
    cases hl : crds.lookup (key.2.2 ++ "." ++ key.1) with
    | none => rfl
    | some crd =>
      have hne : ¬matchesKey key crd := List.find?_eq_none.mp hf _ (AList.mem_lookup_iff.mp hl)
      simp [Option.filter, hne]
  | some e =>
    have hmatch := List.find?_some hf
    have hl : crds.lookup e.1 = some e.2 := AList.mem_lookup_iff.mpr (List.mem_of_find?_eq_some hf)
    rw [← (matchesKey_iff.mp hmatch).1, ← (matchesKey_iff.mp hmatch).2, ← Crd.name, ← h _ _ hl, hl]
    simp [Option.filter, hmatch]

/-- A finding is what a scan finds now, or a handler is about to drop it. -/
def Good (s : Sys C) (key : Key) (found : Option C) : Prop :=
  findCrd context s.crds key = found.map some ∨
    ∃ i, found.elim (s.evictions i ≠ []) (fun _ => some key ∈ s.evictions i)

def CallOk (s : Sys C) : Call C → Prop
  | .ended => True
  | .scanning _ epoch => epoch ≤ s.cache.epoch
  | .inserting key epoch found => epoch ≤ s.cache.epoch ∧ (epoch = s.cache.epoch → Good context s key found)

structure Inv (s : Sys C) : Prop where
  named : Named s.crds
  calls : ∀ i, CallOk context s (s.calls i)
  cached : ∀ key ctx, s.cache.map.lookup key = some ctx → Good context s key (some ctx)
  absent : ∀ key ∈ s.cache.absent, Good context s key none

variable {context} {s : Sys C}

theorem Inv.call (h : Inv context s) (hc : CallOk context s c) :
    Inv context { s with calls := update s.calls i c } :=
  ⟨h.named, (Function.forall_update_iff s.calls (fun _ => CallOk context s)).mpr ⟨hc, fun j _ => h.calls j⟩, h.cached,
    h.absent⟩

theorem lookup_commit : (s.commit i name new keys).crds.lookup name' =
    if name' = name then new.map (fun crd => { crd with resourceVersion := s.revision + 1 })
    else s.crds.lookup name' := by
  rcases eq_or_ne name' name with rfl | hn <;> cases new <;> simp [Sys.commit, *]

theorem mem_keys (hm : matchesKey key crd) (hs : served context key crd = some ctx) : some key ∈ crd.keys := by
  obtain ⟨v, hv, -⟩ := Option.map_eq_some_iff.mp hs
  obtain ⟨hname, -⟩ : v.name = key.2.1 ∧ v.served := by simpa using List.find?_some hv
  obtain ⟨hgroup, hplural⟩ := matchesKey_iff.mp hm
  exact List.mem_map.mpr ⟨v, List.mem_of_find?_eq_some hv, by rw [hgroup, hname, hplural]⟩

theorem Inv.commit (h : Inv context s) (hi : s.evictions i = []) (hname : ∀ crd ∈ new, name = crd.name)
    (hkeys : (s.crds.lookup name = none ∧ keys ≠ []) ∨ ∃ old, s.crds.lookup name = some old ∧
      keys = old.keys ∧ ∀ crd ∈ new, crd.group = old.group ∧ crd.plural = old.plural) :
    Inv context (s.commit i name new keys) := by
  have hnamed : Named (s.commit i name new keys).crds := by
    intro name' crd hl
    rw [lookup_commit] at hl
    split_ifs at hl with hn
    · obtain ⟨crd, hcrd, rfl⟩ := Option.map_eq_some_iff.mp hl
      exact hn.trans (hname crd hcrd)
    · exact h.named _ _ hl
  have hgood : ∀ key found, Good context s key found → Good context (s.commit i name new keys) key found := by
    rintro key found (hf | ⟨j, hj⟩)
    · rw [findCrd_eq context h.named] at hf
      rw [Good, findCrd_eq context hnamed, lookup_commit]
      split_ifs with hn
      · rw [hn] at hf
        rcases hkeys with ⟨hold, hne⟩ | ⟨old, hold, rfl, hsame⟩ <;> rw [hold] at hf
        · cases found with
          | none => exact .inr ⟨i, by simpa [Sys.commit] using hne⟩
          | some ctx => cases hf
        · by_cases hm : matchesKey key old
          · cases found with
            | none => simp [hm] at hf
            | some ctx => exact .inr ⟨i, by simpa [Sys.commit] using mem_keys hm (by simpa [hm] using hf)⟩
          · -- the definition keeps its group and plural, and so it still does not match
            rw [Option.filter_some, if_neg hm] at hf
            rw [← hf]
            cases new with
            | none => exact .inl rfl
            | some crd => exact .inl (by simpa [matchesKey, hsame crd rfl] using hm)
      · exact .inl hf
    · have hji : j ≠ i := by
        rintro rfl
        rw [hi] at hj
        cases found <;> simp at hj
      exact .inr ⟨j, by simpa only [Sys.commit, update_of_ne hji] using hj⟩
  refine ⟨hnamed, fun j => ?_, fun key ctx hctx => hgood _ _ (h.cached key ctx hctx),
    fun key hkey => hgood _ _ (h.absent key hkey)⟩
  have hok := h.calls j
  change CallOk _ _ (s.calls j)
  cases hc : s.calls j <;> rw [hc] at hok
  case inserting => exact ⟨hok.1, fun he => hgood _ _ (hok.2 he)⟩
  all_goals exact hok

theorem Inv.evict (h : Inv context s) (hi : s.evictions i = key :: keys) (hepoch : s.cache.epoch + 1 < 2 ^ 64) :
    Inv context { s with cache := s.cache.invalidate key, evictions := update s.evictions i keys } := by
  have hnext : (s.cache.invalidate key).epoch = s.cache.epoch + 1 := Nat.mod_eq_of_lt hepoch
  refine ⟨h.named, fun j => ?_, fun k ctx hctx => ?_, fun k hk => absurd hk (Finset.notMem_empty k)⟩
  · have hok := h.calls j
    cases hc : s.calls j <;> simp only [hc, CallOk, hnext] at hok ⊢ <;> omega
  · have hkey : key ≠ some k ∧ s.cache.map.lookup k = some ctx := by
      cases key with
      | none => exact ⟨nofun, hctx⟩
      | some key =>
        by_cases hk : key = k
        · simp [hk, CrContextCache.invalidate] at hctx
        · exact ⟨by simpa using hk, (AList.lookup_erase_ne (Ne.symm hk)).symm.trans hctx⟩
    refine (h.cached k ctx hkey.2).imp_right (fun ⟨j, hj⟩ => ⟨j, ?_⟩)
    by_cases hji : j = i
    · subst hji
      rw [hi] at hj
      simpa using (List.mem_cons.mp hj).resolve_left hkey.1.symm
    · simpa [update_of_ne hji] using hj

/-- What a handler writes replaces what it has read, and the counter does not wrap. -/
def Guarded (s : Sys C) (a : Action) : Prop :=
  s.cache.epoch + 1 < 2 ^ 64 ∧
    match a with
    | .write i _ _ => ∀ old ∈ s.existing i, s.crds.lookup old.1 = some old.2
    | _ => True

theorem Inv.step (h : Inv context s) (ha : Guarded s a) : Inv context (step context s a) := by
  cases a with
  | find i key => exact h.call le_rfl
  | scan i =>
    rw [ContextCache.step]
    split
    · next key epoch hc =>
      have hok : epoch ≤ s.cache.epoch := by simpa only [hc, CallOk] using h.calls i
      refine h.call ?_
      rcases hf : findCrd context s.crds key with _ | _ | ctx
      · exact ⟨hok, fun _ => .inl hf⟩
      · trivial
      · exact ⟨hok, fun _ => .inl hf⟩
    · exact h
  | insert i =>
    rw [ContextCache.step]
    split
    · next key epoch found hc =>
      have hok : CallOk context s (.inserting key epoch found) := hc ▸ h.calls i
      have hended : Inv context { s with calls := update s.calls i .ended } := h.call trivial
      cases found with
      | none =>
        simp only [Option.elim, CrContextCache.insertAbsentIfCurrent]
        split_ifs with he
        · exact ⟨h.named, hended.calls, h.cached, Finset.forall_mem_insert _ _ _ |>.mpr ⟨hok.2 he.1.symm, h.absent⟩⟩
        · exact hended
      | some ctx =>
        simp only [Option.elim, CrContextCache.insertIfCurrent]
        split_ifs with he
        · exact hended
        · refine ⟨hended.named, hended.calls, fun k c hk => ?_, hended.absent⟩
          by_cases hkey : k = key
          · subst hkey
            rw [← Option.some_inj.mp ((AList.lookup_insert _).symm.trans hk)]
            exact hok.2 (not_not.mp he).symm
          · exact h.cached k c ((AList.lookup_insert_ne hkey).symm.trans hk)
    · exact h
  | create i crd =>
    rw [ContextCache.step]
    split_ifs with hif
    · exact h.commit hif.1 (fun _ hc => by cases hc; rfl) (.inl ⟨by simpa [expects] using hif.2, List.cons_ne_nil _ _⟩)
    · exact h
  | read i name => exact ⟨h.named, h.calls, h.cached, h.absent⟩
  | write i new expected =>
    rw [ContextCache.step]
    split
    · next name old hold =>
      split_ifs with hif
      · have hl : s.crds.lookup name = some old := ha.2 _ hold
        have hsame : ∀ crd ∈ new, crd.group = old.group ∧ crd.plural = old.plural := by
          simpa [Option.all_eq_true] using hif.2.1
        refine h.commit hif.1 (fun crd hc => ?_) (.inr ⟨old, hl, rfl, hsame⟩)
        rw [h.named _ _ hl, Crd.name, Crd.name, (hsame crd hc).1, (hsame crd hc).2]
      · exact h
    · exact h
  | evict i =>
    rw [ContextCache.step]
    split
    · next key keys hk => exact h.evict hk ha.1
    · exact h

end U7s.ContextCache
