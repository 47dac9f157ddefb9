import U7s.Store.Shard

/-! The watch cache: the live shards by key, and the floors kept for shards torn down. A shard is its place in
`heap`, as an `Arc` is its address. -/

namespace U7s.Store

open List Option AList

open Text (startsWith)

def MAX_RECLAIMED_HORIZONS : ℕ := 4096

variable {β : Type}

structure ReclaimedHorizons where
  entries : AList (fun _ : String => ℕ)
  overflow : ℕ

def findReclaimedHorizon (rh : ReclaimedHorizons) (p : String) : ℕ :=
  match rh.entries.lookup p with
  | some horizon => horizon
  | none =>
    match (parentPrefix p).bind rh.entries.lookup with
    | some horizon => horizon
    | none => rh.overflow

def foldVictim (rh : ReclaimedHorizons) : ReclaimedHorizons :=
  if rh.entries.entries.length ≤ MAX_RECLAIMED_HORIZONS then rh
  else
    match rh.entries.entries.argmin (fun e => e.2) with
    | none => rh
    | some victim => ⟨rh.entries.erase victim.1, max rh.overflow victim.2⟩

def preserveReclaimedHorizon (rh : ReclaimedHorizons) (key : String) (shard : RingShard β) :
    ReclaimedHorizons :=
  if shard.floor = 0 then rh
  else foldVictim { rh with entries := rh.entries.insert key shard.floor }

structure Cache (β : Type) where
  heap : ℕ → RingShard β
  next : ℕ
  shards : AList (fun _ : String => ℕ)
  reclaimed : ReclaimedHorizons
  allocated : ∀ {k id}, shards.lookup k = some id → id < next
  owned : ∀ {k k' id}, shards.lookup k = some id → shards.lookup k' = some id → k = k'

namespace Cache

def empty : Cache β where
  heap := fun _ => .new 0
  next := 0
  shards := ∅
  reclaimed := ⟨∅, 0⟩
  allocated := by simp
  owned := by simp

def shardAt (c : Cache β) (k : String) : Option (RingShard β) := (c.shards.lookup k).map c.heap

def modify (c : Cache β) (id : ℕ) (f : RingShard β → RingShard β) : Cache β :=
  { c with heap := Function.update c.heap id (f (c.heap id)) }

def push (c : Cache β) (event : InternalEvent β) (id : ℕ) : Cache β :=
  c.modify id (fun shard => pushIntoShard shard event)

def pushRing (c : Cache β) (event : InternalEvent β) (id : ℕ) : Cache β :=
  c.modify id (fun shard => shard.pushRing event)

def maintainLog (c : Cache β) (event : InternalEvent β) (id : ℕ) : Cache β :=
  c.modify id (fun shard => shard.maintainLog event)

def getOrCreateShard (c : Cache β) (k : String) : Cache β × ℕ :=
  match c.shards.lookup k with
  | some id => (c, id)
  | none =>
    ({ heap := Function.update c.heap c.next (.new (findReclaimedHorizon c.reclaimed k))
       next := c.next + 1
       shards := c.shards.insert k c.next
       reclaimed := { c.reclaimed with entries := c.reclaimed.entries.erase k }
       allocated := by
         intro k' id h'
         by_cases hk : k' = k
         · subst hk
           simp only [lookup_insert, Option.some.injEq] at h'
           omega
         · rw [lookup_insert_ne hk] at h'
           exact (c.allocated h').trans (Nat.lt_succ_self _)
       owned := by
         intro k₁ k₂ id h₁ h₂
         by_cases hk₁ : k₁ = k <;> by_cases hk₂ : k₂ = k
         · rw [hk₁, hk₂]
         · subst hk₁
           rw [lookup_insert, Option.some.injEq] at h₁
           rw [lookup_insert_ne hk₂] at h₂
           exact absurd (c.allocated h₂) (by omega)
         · subst hk₂
           rw [lookup_insert, Option.some.injEq] at h₂
           rw [lookup_insert_ne hk₁] at h₁
           exact absurd (c.allocated h₁) (by omega)
         · rw [lookup_insert_ne hk₁] at h₁
           rw [lookup_insert_ne hk₂] at h₂
           exact c.owned h₁ h₂ }, c.next)

theorem lookup_of_erase {s : AList (fun _ : String => ℕ)} {id : ℕ}
    (h : (s.erase k).lookup k' = some id) : s.lookup k' = some id := by
  by_cases hk : k' = k
  · subst hk
    exact absurd h (by simp)
  · rwa [lookup_erase_ne hk] at h

def remove (c : Cache β) (k : String) (reclaimed : ReclaimedHorizons) : Cache β where
  heap := c.heap
  next := c.next
  shards := c.shards.erase k
  reclaimed := reclaimed
  allocated := fun h => c.allocated (lookup_of_erase h)
  owned := fun h h' => c.owned (lookup_of_erase h) (lookup_of_erase h')

def tearDownShard (c : Cache β) (k : String) : Cache β :=
  match c.shardAt k with
  | none => c
  | some shard => c.remove k (preserveReclaimedHorizon c.reclaimed k shard)

def idleGc (c : Cache β) (k : String) (id : ℕ) : Cache β :=
  if c.shards.lookup k = some id ∧ (c.heap id).watchers = 0 then c.tearDownShard k else c

def rooted (c : Cache β) (p : String) : List String :=
  (c.shards.keys.filter (fun k => startsWith k p)).insertionSort (· ≤ ·)

def evictResourceType (c : Cache β) (p : String) : Cache β := (c.rooted p).foldl tearDownShard c

def matchingShards (c : Cache β) (root : String) (ns : Option String) : List (String × ℕ) :=
  (c.shards.lookup root).toList.map (fun id => (root, id)) ++
    match ns with
    | none => []
    | some n => (c.shards.lookup (nsKey root n)).toList.map (fun id => (nsKey root n, id))

def findShardKey (c : Cache β) (p : String) : Option (String × ℕ) :=
  match c.shards.lookup p with
  | some id => some (p, id)
  | none => (parentPrefix p).bind (fun parent => (c.shards.lookup parent).map (fun id => (parent, id)))

def findShard (c : Cache β) (p : String) : Option ℕ :=
  match c.shards.lookup p with
  | some id => some id
  | none => (parentPrefix p).bind c.shards.lookup

def compactionHorizonFor (c : Cache β) (p : String) : ℕ :=
  match c.findShard p with
  | some id => (c.heap id).horizon
  | none => findReclaimedHorizon c.reclaimed p

end Cache

def Write.root (w : Write β) : String := shardKey w.event.key w.ns

def Write.Home (w : Write β) (k : String) : Prop := k = w.root ∨ w.ns.map (nsKey w.root) = some k

instance (w : Write β) (k : String) : Decidable (w.Home k) :=
  inferInstanceAs (Decidable (_ ∨ _))

namespace Cache

/-- The first half of `push_event_locked`. A delete that no shard would remember creates the shard of its resource
type. -/
def targets (c : Cache β) (w : Write β) : Cache β × List ℕ :=
  let matched := c.matchingShards w.root w.ns
  if matched.isEmpty && w.event.value.isNone then
    let created := c.getOrCreateShard w.root
    (created.1, [created.2])
  else (c, matched.map (fun m => m.2))

def pushEventLocked (c : Cache β) (w : Write β) : Cache β :=
  (c.targets w).2.foldl (fun c id => c.push w.event id) (c.targets w).1

variable {c : Cache β} {k k' : String} {id id' : ℕ} {event : InternalEvent β}

theorem shardAt_of_lookup (h : c.shards.lookup k = some id) : c.shardAt k = some (c.heap id) := by
  rw [shardAt, h]
  rfl

theorem lookup_of_shardAt (h : c.shardAt k = some s) : ∃ id, c.shards.lookup k = some id ∧ c.heap id = s := by
  simpa [shardAt] using h

theorem shardAt_eq_none : c.shardAt k = none ↔ c.shards.lookup k = none := by
  simp [shardAt]

theorem shardAt_modify (c : Cache β) (id : ℕ) (f : RingShard β → RingShard β) (k : String) :
    (c.modify id f).shardAt k =
      if c.shards.lookup k = some id then (c.shardAt k).map f else c.shardAt k := by
  split_ifs with h
  · simp [shardAt, modify, h]
  · cases h' : c.shards.lookup k with
    | none => simp [shardAt, modify, h']
    | some id' =>
      have hne : id' ≠ id := by
        rintro rfl
        exact h h'
      simp [shardAt, modify, h', Function.update_of_ne hne]

theorem modify_modify (c : Cache β) (id : ℕ) (f g : RingShard β → RingShard β) :
    (c.modify id f).modify id g = c.modify id (fun s => g (f s)) := by
  simp [modify]

theorem maintainLog_pushRing (c : Cache β) (event : InternalEvent β) (id : ℕ) :
    (c.pushRing event id).maintainLog event id = c.push event id := c.modify_modify id _ _

@[simp] theorem lookup_modify (f : RingShard β → RingShard β) :
    (c.modify id f).shards.lookup k = c.shards.lookup k := rfl

@[simp] theorem reclaimed_modify (f : RingShard β → RingShard β) : (c.modify id f).reclaimed = c.reclaimed := rfl

theorem shardAt_push (h : c.shards.lookup k = some id) (k' : String) :
    (c.push event id).shardAt k' =
      if k' = k then (c.shardAt k).map (fun s => pushIntoShard s event) else c.shardAt k' := by
  have hiff : c.shards.lookup k' = some id ↔ k' = k :=
    ⟨fun h' => c.owned h' h, fun hk => hk ▸ h⟩
  rw [push, shardAt_modify]
  simp only [hiff]
  split_ifs with hk
  · rw [hk]
  · rfl

def shardOrNew (c : Cache β) (k : String) : RingShard β :=
  (c.shardAt k).getD (.new (findReclaimedHorizon c.reclaimed k))

theorem lookup_getOrCreate (c : Cache β) (k : String) :
    (c.getOrCreateShard k).1.shards.lookup k = some (c.getOrCreateShard k).2 := by
  unfold getOrCreateShard
  split
  · assumption
  · exact lookup_insert _

theorem lookup_getOrCreate_ne (hk : k' ≠ k) : (c.getOrCreateShard k).1.shards.lookup k' = c.shards.lookup k' := by
  unfold getOrCreateShard
  split
  · rfl
  · exact lookup_insert_ne hk

theorem shardAt_getOrCreate (c : Cache β) (k k' : String) :
    (c.getOrCreateShard k).1.shardAt k' = if k' = k then some (c.shardOrNew k) else c.shardAt k' := by
  unfold getOrCreateShard shardOrNew
  split
  case h_1 id h =>
    split_ifs with hk
    · subst hk
      simp [shardAt, h]
    · rfl
  case h_2 h =>
    split_ifs with hk
    · subst hk
      simp [shardAt, h]
    · cases h' : c.shards.lookup k' with
      | none => simp [shardAt, lookup_insert_ne hk, h']
      | some id =>
        have hne : id ≠ c.next := (c.allocated h').ne
        simp [shardAt, lookup_insert_ne hk, h', Function.update_of_ne hne]

theorem reclaimed_getOrCreate_of_dead (h : c.shardAt k = none) :
    (c.getOrCreateShard k).1.reclaimed = ⟨c.reclaimed.entries.erase k, c.reclaimed.overflow⟩ := by
  rw [shardAt_eq_none] at h
  unfold getOrCreateShard
  split
  case h_1 h' => simp [h] at h'
  · rfl

theorem shardAt_remove (c : Cache β) (k k' : String) (rh : ReclaimedHorizons) :
    (c.remove k rh).shardAt k' = if k' = k then none else c.shardAt k' := by
  split_ifs with hk
  · subst hk
    simp [shardAt, remove]
  · simp [shardAt, remove, lookup_erase_ne hk]

theorem shardAt_tearDown (c : Cache β) (k k' : String) :
    (c.tearDownShard k).shardAt k' = if k' = k then none else c.shardAt k' := by
  unfold tearDownShard
  cases h : c.shardAt k with
  | none =>
    split_ifs with hk
    · rw [hk, h]
    · rfl
  | some s => exact shardAt_remove c k k' _

theorem nsKey_ne (r n : String) : nsKey r n ≠ r := by
  intro h
  have hl := congrArg (fun s : String => s.toList.length) h
  simp only [nsKey, String.toList_append, length_append] at hl
  have : ("/" : String).toList.length = 1 := by decide
  omega

def Unmatched (c : Cache β) (w : Write β) : Prop := ∀ k, w.Home k → c.shardAt k = none

theorem mem_matchingShards :
    m ∈ c.matchingShards root ns ↔
      c.shards.lookup m.1 = some m.2 ∧ (m.1 = root ∨ ns.map (nsKey root) = some m.1) := by
  obtain ⟨k, id⟩ := m
  cases ns with
  | none =>
    simp only [matchingShards, append_nil, List.mem_map, mem_toList,
      Prod.mk.injEq, map_none, reduceCtorEq, or_false]
    constructor
    · rintro ⟨_, h, rfl, rfl⟩
      exact ⟨h, rfl⟩
    · rintro ⟨h, rfl⟩
      exact ⟨id, h, rfl, rfl⟩
  | some n =>
    simp only [matchingShards, mem_append, List.mem_map, mem_toList,
      Prod.mk.injEq, map_some, some.injEq]
    constructor
    · rintro (⟨_, h, rfl, rfl⟩ | ⟨_, h, rfl, rfl⟩)
      · exact ⟨h, .inl rfl⟩
      · exact ⟨h, .inr rfl⟩
    · rintro ⟨h, rfl | rfl⟩
      · exact .inl ⟨id, h, rfl, rfl⟩
      · exact .inr ⟨id, h, rfl, rfl⟩

theorem unmatched_iff : c.Unmatched w ↔ c.matchingShards w.root w.ns = [] := by
  rw [eq_nil_iff_forall_not_mem]
  constructor
  · rintro h ⟨k, id⟩ hm
    obtain ⟨hl, hk⟩ := mem_matchingShards.mp hm
    exact absurd (shardAt_eq_none.mp (h k hk)) (by simp [hl])
  · intro h k hk
    by_contra hne
    obtain ⟨s, hs⟩ := ne_none_iff_exists'.mp hne
    obtain ⟨id, hl, -⟩ := lookup_of_shardAt hs
    exact h (k, id) (mem_matchingShards.mpr ⟨hl, hk⟩)

theorem targets_of_unmatched (h : c.Unmatched w) (hd : w.event.value = none) :
    c.targets w = ((c.getOrCreateShard w.root).1, [(c.getOrCreateShard w.root).2]) := by
  simp [targets, unmatched_iff.mp h, hd]

theorem targets_of_matched (h : ¬ (c.Unmatched w ∧ w.event.value = none)) :
    c.targets w = (c, (c.matchingShards w.root w.ns).map (fun m => m.2)) := by
  rw [unmatched_iff] at h
  simp only [targets]
  rw [if_neg (by simpa using h)]

theorem nodup_matchingShards (c : Cache β) (root : String) (ns : Option String) :
    ((c.matchingShards root ns).map (fun m => m.1)).Nodup := by
  cases ns with
  | none => cases h : c.shards.lookup root <;> simp [matchingShards]
  | some n =>
    cases h : c.shards.lookup root <;> cases h' : c.shards.lookup (nsKey root n) <;>
      simp [matchingShards, h, (nsKey_ne root n).symm]

theorem shardAt_foldl_push {ms : List (String × ℕ)} (hl : ∀ m ∈ ms, c.shards.lookup m.1 = some m.2)
    (hn : (ms.map (fun m => m.1)).Nodup) (k : String) :
    ((ms.map (fun m => m.2)).foldl (fun c id => c.push event id) c).shardAt k =
      if k ∈ ms.map (fun m => m.1) then (c.shardAt k).map (fun s => pushIntoShard s event)
      else c.shardAt k := by
  induction ms generalizing c with
  | nil => simp
  | cons m ms ih =>
    simp only [map_cons, nodup_cons] at hn
    simp only [map_cons, foldl_cons]
    have hm : c.shards.lookup m.1 = some m.2 := hl m mem_cons_self
    have hl' : ∀ m' ∈ ms, (c.push event m.2).shards.lookup m'.1 = some m'.2 :=
      fun m' hm' => hl m' (mem_cons_of_mem m hm')
    rw [ih hl' hn.2, shardAt_push hm]
    by_cases hk : k = m.1
    · subst hk
      simp [hn.1]
    · simp only [hk, ↓reduceIte, mem_cons, false_or]

theorem reclaimed_foldl_push (c : Cache β) (ids : List ℕ) :
    (ids.foldl (fun c id => c.push event id) c).reclaimed = c.reclaimed := by
  induction ids generalizing c with
  | nil => rfl
  | cons id ids ih => exact ih (c.push event id)

theorem shardAt_pushEventLocked_of_unmatched (h : c.Unmatched w) (hd : w.event.value = none) (k : String) :
    (c.pushEventLocked w).shardAt k =
      if k = w.root then
        some (pushIntoShard (.new (findReclaimedHorizon c.reclaimed w.root)) w.event)
      else c.shardAt k := by
  rw [pushEventLocked, targets_of_unmatched h hd]
  simp only [foldl_cons, foldl_nil]
  rw [shardAt_push (lookup_getOrCreate c w.root), shardAt_getOrCreate, shardAt_getOrCreate, if_pos rfl]
  split_ifs with hk
  · simp [shardOrNew, h w.root (.inl rfl)]
  · rfl

theorem shardAt_pushEventLocked_of_matched (h : ¬ (c.Unmatched w ∧ w.event.value = none)) (k : String) :
    (c.pushEventLocked w).shardAt k =
      if w.Home k then (c.shardAt k).map (fun s => pushIntoShard s w.event) else c.shardAt k := by
  rw [pushEventLocked, targets_of_matched h, shardAt_foldl_push
    (fun m hm => (mem_matchingShards.mp hm).1) (nodup_matchingShards c w.root w.ns)]
  -- the keys of the matched shards are the homes that are live
  cases hk : c.shardAt k with
  | none => simp
  | some s =>
    obtain ⟨id, hl, -⟩ := lookup_of_shardAt hk
    have hiff : k ∈ (c.matchingShards w.root w.ns).map (fun m => m.1) ↔ w.Home k := by
      simp only [List.mem_map, mem_matchingShards, Prod.exists, exists_and_right, exists_eq_right]
      exact ⟨fun h => h.2, fun hk => ⟨⟨id, hl⟩, hk⟩⟩
    simp [hiff]

theorem reclaimed_pushEventLocked_of_unmatched (h : c.Unmatched w) (hd : w.event.value = none) :
    (c.pushEventLocked w).reclaimed =
      ⟨c.reclaimed.entries.erase w.root, c.reclaimed.overflow⟩ := by
  rw [pushEventLocked, targets_of_unmatched h hd, reclaimed_foldl_push,
    reclaimed_getOrCreate_of_dead (h w.root (.inl rfl))]

theorem reclaimed_pushEventLocked_of_matched (h : ¬ (c.Unmatched w ∧ w.event.value = none)) :
    (c.pushEventLocked w).reclaimed = c.reclaimed := by
  rw [pushEventLocked, targets_of_matched h, reclaimed_foldl_push]

theorem lookup_foldl_push (c : Cache β) (ids : List ℕ) :
    (ids.foldl (fun c id => c.push event id) c).shards = c.shards := by
  induction ids generalizing c with
  | nil => rfl
  | cons id ids ih => exact ih (c.push event id)

theorem shardAt_pushEventLocked_some (h : (c.pushEventLocked w).shardAt k = some s) :
    (w.Home k ∧ ∃ t, s = pushIntoShard t w.event ∧ (c.shardAt k = some t ∨
      (c.Unmatched w ∧ w.event.value = none ∧ k = w.root ∧
        t = .new (findReclaimedHorizon c.reclaimed w.root)))) ∨
    (¬ w.Home k ∧ c.shardAt k = some s) := by
  by_cases hu : c.Unmatched w ∧ w.event.value = none
  · rw [shardAt_pushEventLocked_of_unmatched hu.1 hu.2] at h
    split_ifs at h with hk
    · exact .inl ⟨.inl hk, _, (some_inj.mp h).symm, .inr ⟨hu.1, hu.2, hk, rfl⟩⟩
    · refine .inr ⟨fun hk' => ?_, h⟩
      rw [hu.1 k hk'] at h
      cases h
  · rw [shardAt_pushEventLocked_of_matched hu] at h
    split_ifs at h with hk
    · obtain ⟨t, ht, rfl⟩ := map_eq_some_iff.mp h
      exact .inl ⟨hk, t, rfl, .inl ht⟩
    · exact .inr ⟨hk, h⟩

theorem shardAt_of_pushEventLocked_none (h : (c.pushEventLocked w).shardAt k = none) : c.shardAt k = none := by
  by_cases hu : c.Unmatched w ∧ w.event.value = none
  · rw [shardAt_pushEventLocked_of_unmatched hu.1 hu.2] at h
    split_ifs at h
    exact h
  · rw [shardAt_pushEventLocked_of_matched hu] at h
    split_ifs at h
    · exact map_eq_none_iff.mp h
    · exact h

theorem lookup_pushEventLocked (h : c.shards.lookup k = some id) :
    (c.pushEventLocked w).shards.lookup k = some id := by
  rw [pushEventLocked, lookup_foldl_push]
  by_cases hu : c.Unmatched w ∧ w.event.value = none
  · rw [targets_of_unmatched hu.1 hu.2]
    have hk : k ≠ w.root := by
      rintro rfl
      simp [shardAt_eq_none.mp (hu.1 w.root (.inl rfl))] at h
    exact (lookup_getOrCreate_ne hk).trans h
  · rwa [targets_of_matched hu]

theorem entries_pushEventLocked (h : (c.pushEventLocked w).reclaimed.entries.lookup k = some f) :
    c.reclaimed.entries.lookup k = some f := by
  by_cases hu : c.Unmatched w ∧ w.event.value = none
  · rw [reclaimed_pushEventLocked_of_unmatched hu.1 hu.2] at h
    exact lookup_of_erase h
  · rwa [reclaimed_pushEventLocked_of_matched hu] at h

theorem reclaimed_pushEventLocked_none (h : (c.pushEventLocked w).shardAt k = none) :
    (c.pushEventLocked w).reclaimed.entries.lookup k = c.reclaimed.entries.lookup k ∧
      (c.pushEventLocked w).reclaimed.overflow = c.reclaimed.overflow := by
  by_cases hu : c.Unmatched w ∧ w.event.value = none
  · rw [shardAt_pushEventLocked_of_unmatched hu.1 hu.2] at h
    split_ifs at h with hk
    rw [reclaimed_pushEventLocked_of_unmatched hu.1 hu.2]
    exact ⟨lookup_erase_ne hk, rfl⟩
  · rw [reclaimed_pushEventLocked_of_matched hu]
    exact ⟨rfl, rfl⟩

theorem delete_recorded (hd : w.event.value = none) (h : (c.pushEventLocked w).shardAt w.root = none) :
    ∃ n id, w.ns = some n ∧ (c.pushEventLocked w).shards.lookup (nsKey w.root n) = some id ∧
      id ∈ (c.targets w).2 := by
  have hu : ¬ (c.Unmatched w ∧ w.event.value = none) := by
    rintro ⟨hu, -⟩
    rw [shardAt_pushEventLocked_of_unmatched hu hd, if_pos rfl] at h
    cases h
  have hroot := shardAt_eq_none.mp (shardAt_of_pushEventLocked_none h)
  have hm : c.matchingShards w.root w.ns ≠ [] := fun hm => hu ⟨unmatched_iff.mpr hm, hd⟩
  obtain ⟨⟨k, id⟩, hmem⟩ := exists_mem_of_ne_nil _ hm
  obtain ⟨hl, rfl | hk⟩ := mem_matchingShards.mp hmem
  · simp [hroot] at hl
  · obtain ⟨n, hn, rfl⟩ := map_eq_some_iff.mp hk
    refine ⟨n, id, hn, lookup_pushEventLocked hl, ?_⟩
    rw [targets_of_matched hu]
    exact mem_map.mpr ⟨_, hmem, rfl⟩

end Cache

namespace Layout.Filed

variable {L : Layout} {w : Write β} {k : String}

theorem home_iff (hw : L.Filed w.event.key w.ns) (hk : L.IsPrefix k) : startsWith w.event.key k ↔ w.Home k := by
  rw [hw.under_iff hk, Write.Home, map_eq_some_iff]
  simp only [eq_comm]
  rfl

theorem home_isPrefix (hw : L.Filed w.event.key w.ns) (hk : w.Home k) : L.IsPrefix k := by
  obtain rfl | hk := hk
  · exact .root hw.shardKey_root
  · obtain ⟨n, hn, rfl⟩ := map_eq_some_iff.mp hk
    obtain ⟨n, rfl⟩ := hw.exists_segment hn
    exact .ns hw.shardKey_root n

theorem home_root (hw : L.Filed w.event.key w.ns) (hr : L.IsRoot k) (hk : w.Home k) : k = w.root := by
  obtain hk | hk := hk
  · exact hk
  · obtain ⟨n, hn, rfl⟩ := map_eq_some_iff.mp hk
    obtain ⟨n, rfl⟩ := hw.exists_segment hn
    exact absurd rfl (hr.ne_ns hw.shardKey_root n)

end Layout.Filed

end U7s.Store
