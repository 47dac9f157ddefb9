import U7s.Lib.Text

/-! The keys of stored objects, the prefixes that are watched, and the shard a key belongs to. -/

namespace U7s.Store

open List

open Text (Segment startsWith startsWith_iff rsplitOnce rsplitOnce_append stripSuffix)

def objectKey (resource ns name : String) : String :=
  "/registry/" ++ resource ++ "/" ++ ns ++ "/" ++ name

def listPrefix (resource ns : String) : String := "/registry/" ++ resource ++ "/" ++ ns ++ "/"

def clusterObjectKey (resource name : String) : String := "/registry/" ++ resource ++ "/" ++ name

def clusterListPrefix (resource : String) : String := "/registry/" ++ resource ++ "/"

def isDualGroupedEvents (group plural : String) : Bool :=
  group = "events.k8s.io" ∧ plural = "events"

def groupObjectKey (group plural : String) (ns : Option String) (name : String) : String :=
  if group = "" ∨ isDualGroupedEvents group plural then
    match ns with
    | some ns => objectKey plural ns name
    | none => clusterObjectKey plural name
  else
    match ns with
    | some ns => "/registry/" ++ group ++ "/" ++ plural ++ "/" ++ ns ++ "/" ++ name
    | none => "/registry/" ++ group ++ "/" ++ plural ++ "/" ++ name

def groupListPrefix (group plural : String) (ns : Option String) : String :=
  if group = "" ∨ isDualGroupedEvents group plural then
    match ns with
    | some ns => listPrefix plural ns
    | none => clusterListPrefix plural
  else
    match ns with
    | some ns => "/registry/" ++ group ++ "/" ++ plural ++ "/" ++ ns ++ "/"
    | none => "/registry/" ++ group ++ "/" ++ plural ++ "/"

def stripSegment (s : String) : String := (rsplitOnce '/' s).elim s (fun p => p.1)

def shardKey (key : String) (ns : Option String) : String :=
  (if ns.isSome then stripSegment (stripSegment key) else stripSegment key) ++ "/"

def parentPrefix (p : String) : Option String :=
  (rsplitOnce '/' ((stripSuffix '/' p).getD p)).map (fun q => q.1 ++ "/")

def nsKey (root ns : String) : String := root ++ ns ++ "/"

theorem startsWith_trans (h : startsWith key a) (h' : startsWith a b) : startsWith key b := by
  rw [startsWith_iff] at *
  exact h'.trans h

theorem startsWith_nsKey (r n : String) : startsWith (nsKey r n) r := by
  rw [startsWith_iff, nsKey, String.toList_append, String.toList_append, append_assoc]
  exact prefix_append _ _

def dir (path : List Segment) : String := path.foldl (fun s seg => s ++ seg.text ++ "/") "/registry/"

theorem dir_concat (path : List Segment) (seg : Segment) : dir (path ++ [seg]) = nsKey (dir path) seg.text := by
  simp [dir, nsKey]

theorem dir_toList (path : List Segment) :
    (dir path).toList = "/registry/".toList ++ path.flatMap (fun s => s.text.toList ++ ['/']) := by
  induction path using reverseRecOn with
  | nil => rfl
  | append_singleton path seg ih =>
    simp [dir_concat, nsKey, ih]

theorem body_prefix_iff {q : List Segment} (hr : '/' ∉ r) :
    p.flatMap (fun s => s.text.toList ++ ['/']) <+: q.flatMap (fun s => s.text.toList ++ ['/']) ++ r ↔
      p <+: q := by
  induction p generalizing q with
  | nil => simp
  | cons s p ih =>
    cases q with
    | nil =>
      simp only [prefix_nil, reduceCtorEq,
        iff_false]
      intro h
      exact hr (h.subset (by simp))
    | cons t q =>
      have hst : s.text.toList = t.text.toList ↔ s = t := by
        rw [String.toList_inj, Segment.ext_iff]
      simp only [flatMap_cons, append_assoc, nil_append, cons_append,
        cons_prefix_cons]
      rw [Text.append_cons_prefix_iff s.noSlash t.noSlash, ih, hst]

theorem startsWith_dir : startsWith (dir q) (dir p) ↔ p <+: q := by
  rw [startsWith_iff, dir_toList, dir_toList]
  simpa using body_prefix_iff (p := p) (q := q) (r := []) (by simp)

theorem startsWith_file (name : Segment) :
    startsWith (dir q ++ name.text) (dir p) ↔ p <+: q := by
  rw [startsWith_iff, String.toList_append, dir_toList, dir_toList, append_assoc,
    prefix_append_right_inj]
  exact body_prefix_iff name.noSlash

theorem dir_injective : Function.Injective dir := by
  intro p q h
  have hpq : p <+: q := startsWith_dir.mp (by rw [h, startsWith_iff])
  have hqp : q <+: p := startsWith_dir.mp (by rw [h, startsWith_iff])
  exact hpq.eq_of_length_le hqp.length_le

theorem slash_eq : String.singleton '/' = "/" := by decide

theorem stripSegment_append (s : String) (h : '/' ∉ t.toList) : stripSegment (s ++ "/" ++ t) = s := by
  rw [stripSegment, ← slash_eq, rsplitOnce_append s h]
  rfl

theorem exists_dir_eq (path : List Segment) : ∃ s, dir path = s ++ "/" := by
  induction path using reverseRecOn with
  | nil => exact ⟨"/registry", by decide⟩
  | append_singleton path seg => exact ⟨dir path ++ seg.text, by rw [dir_concat, nsKey]⟩

theorem shardKey_cluster (path : List Segment) (name : Segment) :
    shardKey (dir path ++ name.text) none = dir path := by
  obtain ⟨s, hs⟩ := exists_dir_eq path
  rw [hs, shardKey, if_neg (by simp), stripSegment_append s name.noSlash]

theorem shardKey_namespaced (path : List Segment) (ns name : Segment) (n : String) :
    shardKey (dir (path ++ [ns]) ++ name.text) (some n) = dir path := by
  obtain ⟨s, hs⟩ := exists_dir_eq path
  rw [dir_concat, nsKey, hs, shardKey, if_pos (by simp), stripSegment_append _ name.noSlash,
    stripSegment_append s ns.noSlash]

theorem parentPrefix_dir (path : List Segment) (seg : Segment) :
    parentPrefix (dir (path ++ [seg])) = some (dir path) := by
  obtain ⟨s, hs⟩ := exists_dir_eq path
  rw [dir_concat, nsKey, hs, parentPrefix, ← slash_eq, Text.stripSuffix_append, Option.getD_some,
    rsplitOnce_append s seg.noSlash]
  rfl

/-- The resource types that are served. The exact lookups of `matching_shards` and `find_shard` rely on no directory
lying inside another. -/
structure Layout where
  roots : Set (List Segment)
  nonempty : [] ∉ roots
  prefix_free : ∀ p ∈ roots, ∀ q ∈ roots, p <+: q → p = q

namespace Layout

variable (L : Layout)

def IsRoot (r : String) : Prop := ∃ p ∈ L.roots, dir p = r

inductive IsPrefix : String → Prop
  | root {r : String} (hr : L.IsRoot r) : IsPrefix r
  | ns {r : String} (hr : L.IsRoot r) (n : Segment) : IsPrefix (nsKey r n.text)

inductive Filed : String → Option String → Prop
  | cluster {r : String} (hr : L.IsRoot r) (name : Segment) : Filed (r ++ name.text) none
  | namespaced {r : String} (hr : L.IsRoot r) (n name : Segment) :
      Filed (nsKey r n.text ++ name.text) (some n.text)

variable {L}

theorem IsRoot.eq_of_prefix (hp : p ∈ L.roots) (hq : q ∈ L.roots) (s : List Segment) (hps : p <+: s)
    (hqs : q <+: s) : p = q := by
  obtain h | h := prefix_or_prefix_of_prefix hps hqs
  · exact L.prefix_free p hp q hq h
  · exact (L.prefix_free q hq p hp h).symm

theorem IsPrefix.exists_path (h : L.IsPrefix P) : ∃ p ∈ L.roots, ∃ q, dir q = P ∧ p <+: q := by
  cases h with
  | root hr =>
    obtain ⟨p, hp, rfl⟩ := hr
    exact ⟨p, hp, p, rfl, prefix_rfl⟩
  | ns hr n =>
    obtain ⟨p, hp, rfl⟩ := hr
    exact ⟨p, hp, p ++ [n], dir_concat p n, prefix_append _ _⟩

theorem IsRoot.parent (hr : L.IsRoot r) : ∃ q, parentPrefix r = some q ∧ ¬ L.IsPrefix q := by
  obtain ⟨p, hp, rfl⟩ := hr
  induction p using reverseRecOn with
  | nil => exact absurd hp L.nonempty
  | append_singleton p seg =>
    refine ⟨dir p, parentPrefix_dir p seg, fun h => ?_⟩
    obtain ⟨p', hp', q, hq, hpq⟩ := h.exists_path
    rw [dir_injective hq] at hpq
    have he := L.prefix_free p' hp' _ hp (hpq.trans (prefix_append p [seg]))
    have hl := hpq.length_le
    simp [he] at hl

theorem IsRoot.parent_ns (hr : L.IsRoot r) (n : Segment) : parentPrefix (nsKey r n.text) = some r := by
  obtain ⟨p, hp, rfl⟩ := hr
  rw [← dir_concat, parentPrefix_dir]

theorem IsRoot.ne_ns (hr : L.IsRoot r) (hr' : L.IsRoot r') (n : Segment) : r ≠ nsKey r' n.text := by
  rintro rfl
  obtain ⟨q, hq, hn⟩ := hr.parent
  rw [hr'.parent_ns n, Option.some_inj] at hq
  exact hn (hq ▸ .root hr')

theorem IsPrefix.startsWith_found (hP : L.IsPrefix P) (hK : L.IsPrefix K)
    (h : K = P ∨ parentPrefix P = some K) : startsWith P K := by
  obtain rfl | h := h
  · exact startsWith_iff.mpr prefix_rfl
  · cases hP with
    | root hr =>
      obtain ⟨q, hq, hn⟩ := hr.parent
      obtain rfl := Option.some_inj.mp (hq.symm.trans h)
      exact absurd hK hn
    | ns hr n =>
      obtain rfl := Option.some_inj.mp ((hr.parent_ns n).symm.trans h)
      exact startsWith_nsKey _ _

theorem Filed.shardKey_root (h : L.Filed key ns) : L.IsRoot (shardKey key ns) := by
  cases h with
  | cluster hr name =>
    obtain ⟨p, hp, rfl⟩ := hr
    exact ⟨p, hp, (shardKey_cluster p name).symm⟩
  | namespaced hr n name =>
    obtain ⟨p, hp, rfl⟩ := hr
    exact ⟨p, hp, by rw [← dir_concat, shardKey_namespaced]⟩

theorem Filed.exists_segment (h : L.Filed key ns) (hn : ns = some n) : ∃ seg : Segment, seg.text = n := by
  cases h with
  | cluster hr name => cases hn
  | namespaced hr seg name => exact ⟨seg, Option.some_inj.mp hn⟩

theorem Filed.under_iff (h : L.Filed key ns) (hK : L.IsPrefix K) :
    startsWith key K ↔ K = shardKey key ns ∨ ∃ n, ns = some n ∧ K = nsKey (shardKey key ns) n := by
  cases h with
  | cluster hr name =>
    obtain ⟨p, hp, rfl⟩ := hr
    simp only [shardKey_cluster, reduceCtorEq, false_and, exists_false, or_false]
    cases hK with
    | root hr' =>
      obtain ⟨q, hq, rfl⟩ := hr'
      rw [startsWith_file]
      exact ⟨fun hqp => by rw [L.prefix_free q hq p hp hqp],
        fun h => dir_injective h ▸ prefix_rfl⟩
    | ns hr' n' =>
      refine ⟨fun h => ?_, fun h => absurd h.symm (IsRoot.ne_ns ⟨p, hp, rfl⟩ hr' n')⟩
      obtain ⟨q, hq, rfl⟩ := hr'
      rw [← dir_concat, startsWith_file] at h
      have he := L.prefix_free q hq p hp ((prefix_append q [n']).trans h)
      have hl := h.length_le
      simp [he] at hl
  | namespaced hr n name =>
    obtain ⟨p, hp, rfl⟩ := hr
    rw [← dir_concat, shardKey_namespaced]
    simp only [Option.some.injEq, exists_eq_left', ← dir_concat]
    cases hK with
    | root hr' =>
      obtain ⟨q, hq, rfl⟩ := hr'
      rw [startsWith_file]
      constructor
      · intro h
        exact .inl (by rw [IsRoot.eq_of_prefix hq hp _ h (prefix_append p [n])])
      · rintro (h | h)
        · exact dir_injective h ▸ prefix_append _ _
        · exact dir_injective h ▸ prefix_rfl
    | ns hr' n' =>
      obtain ⟨q, hq, rfl⟩ := hr'
      rw [← dir_concat, startsWith_file]
      constructor
      · intro h
        have he := IsRoot.eq_of_prefix hq hp _ ((prefix_append q [n']).trans h)
          (prefix_append p [n])
        exact .inr (by rw [h.eq_of_length (by simp [he])])
      · rintro (h | h)
        · exact dir_injective h ▸ prefix_append _ _
        · exact dir_injective h ▸ prefix_rfl

end Layout

structure ResourceType where
  group : Option Segment
  plural : Segment

namespace ResourceType

def groupText (t : ResourceType) : String := t.group.elim "" Segment.text

def path (t : ResourceType) : List Segment :=
  match t.group with
  | none => [t.plural]
  | some g => if isDualGroupedEvents g.text t.plural.text then [t.plural] else [g, t.plural]

theorem groupListPrefix_eq (t : ResourceType) (ns : Option Segment) :
    groupListPrefix t.groupText t.plural.text (ns.map Segment.text) = dir (t.path ++ ns.toList) := by
  obtain ⟨group, plural⟩ := t
  cases group with
  | none =>
    cases ns <;> simp [groupListPrefix, groupText, path, dir, listPrefix, clusterListPrefix]
  | some g =>
    by_cases hd : isDualGroupedEvents g.text plural.text
    · cases ns <;> simp [groupListPrefix, groupText, path, dir, hd, listPrefix, clusterListPrefix]
    · cases ns <;> simp [groupListPrefix, groupText, path, dir, hd, g.nonempty]

theorem groupObjectKey_eq (t : ResourceType) (ns : Option Segment) (name : Segment) :
    groupObjectKey t.groupText t.plural.text (ns.map Segment.text) name.text =
      dir (t.path ++ ns.toList) ++ name.text := by
  obtain ⟨group, plural⟩ := t
  cases group with
  | none => cases ns <;> simp [groupObjectKey, groupText, path, dir, objectKey, clusterObjectKey]
  | some g =>
    by_cases hd : isDualGroupedEvents g.text plural.text
    · cases ns <;> simp [groupObjectKey, groupText, path, dir, hd, objectKey, clusterObjectKey]
    · cases ns <;> simp [groupObjectKey, groupText, path, dir, hd, g.nonempty]

end ResourceType

def Layout.served (types : Set ResourceType)
    (h : ∀ t ∈ types, ∀ u ∈ types, ∀ g s, u.path = [g, s] → t.path ≠ [g]) : Layout where
  roots := ResourceType.path '' types
  nonempty := by
    rintro ⟨⟨group, plural⟩, -, ht⟩
    cases group with
    | none => simp [ResourceType.path] at ht
    | some g =>
      simp only [ResourceType.path] at ht
      split_ifs at ht
  prefix_free := by
    have hlen : ∀ t : ResourceType, (∃ p, t.path = [p]) ∨ ∃ g p, t.path = [g, p] := by
      rintro ⟨_ | g, plural⟩
      · exact .inl ⟨plural, rfl⟩
      · simp only [ResourceType.path]
        split_ifs
        · exact .inl ⟨plural, rfl⟩
        · exact .inr ⟨g, plural, rfl⟩
    rintro _ ⟨t, ht, rfl⟩ _ ⟨u, hu, rfl⟩ hp
    obtain ⟨p, hq⟩ | ⟨g, p, hq⟩ := hlen t <;> obtain ⟨p', hq'⟩ | ⟨g', p', hq'⟩ := hlen u
    · rw [hq, hq'] at hp ⊢
      exact hp.eq_of_length rfl
    · rw [hq, hq', cons_prefix_cons] at hp
      exact absurd (hp.1 ▸ hq) (h t ht u hu g' p' hq')
    · rw [hq, hq'] at hp
      exact absurd hp.length_le (by simp)
    · rw [hq, hq'] at hp ⊢
      exact hp.eq_of_length rfl

theorem served_isPrefix (ht : t ∈ types) (ns : Option Segment) :
    (Layout.served types h).IsPrefix
      (groupListPrefix t.groupText t.plural.text (ns.map Segment.text)) := by
  have hr : (Layout.served types h).IsRoot (dir t.path) := ⟨t.path, ⟨t, ht, rfl⟩, rfl⟩
  rw [t.groupListPrefix_eq]
  cases ns with
  | none => simpa using .root hr
  | some n => simpa [dir_concat] using .ns hr n

theorem served_filed (ht : t ∈ types) (ns : Option Segment) (name : Segment) :
    (Layout.served types h).Filed
      (groupObjectKey t.groupText t.plural.text (ns.map Segment.text) name.text)
      (ns.map Segment.text) := by
  have hr : (Layout.served types h).IsRoot (dir t.path) := ⟨t.path, ⟨t, ht, rfl⟩, rfl⟩
  rw [t.groupObjectKey_eq]
  cases ns with
  | none => simpa using .cluster hr name
  | some n => simpa [dir_concat] using .namespaced hr n name

end U7s.Store
