import U7s.Json
import U7s.Lib.Text

namespace U7s.Rbac

structure PolicyRule where
  apiGroups : List String
  resources : List String
  verbs : List String
  resourceNames : List String
  nonResourceUrls : List String
  deriving DecidableEq

structure Subject where
  kind : String
  name : String
  ns : Option String
  deriving DecidableEq

structure RoleRef where
  apiGroup : String
  kind : String
  name : String
  deriving DecidableEq

structure RbacBinding where
  subjects : List Subject
  roleRef : RoleRef
  ns : Option String
  deriving DecidableEq

/-! What `serde` reads a value as. -/

def structFields (names : List String) : Json → Option (List (Option Json))
  | .obj fs => some (names.map (fun n => Json.lookup n fs))
  | .arr xs =>
    if xs.length ≤ names.length then
      some (xs.map some ++ List.replicate (names.length - xs.length) none)
    else none
  | _ => none

def vecOf {α : Type} (f : Json → Option α) : Json → Option (List α)
  | .arr xs => xs.mapM f
  | _ => none

def stringOf : Json → Option String := Json.asStr?

def optionStringOf : Json → Option (Option String)
  | .null => some none
  | .str s => some (some s)
  | _ => none

def defaulted {α : Type} (d : α) (f : Json → Option α) : Option Json → Option α
  | none => some d
  | some j => f j

def required {α : Type} (f : Json → Option α) : Option Json → Option α
  | none => none
  | some j => f j

def PolicyRule.fromValue (j : Json) : Option PolicyRule := do
  match ← structFields ["apiGroups", "resources", "verbs", "resourceNames", "nonResourceURLs"] j with
  | [g, r, v, n, u] =>
    let strings := defaulted [] (vecOf stringOf)
    return ⟨← strings g, ← strings r, ← strings v, ← strings n, ← strings u⟩
  | _ => none

def Subject.fromValue (j : Json) : Option Subject := do
  match ← structFields ["kind", "name", "namespace"] j with
  | [k, n, ns] =>
    return ⟨← required stringOf k, ← required stringOf n, ← defaulted none optionStringOf ns⟩
  | _ => none

def RoleRef.fromValue (j : Json) : Option RoleRef := do
  match ← structFields ["apiGroup", "kind", "name"] j with
  | [g, k, n] => return ⟨← required stringOf g, ← required stringOf k, ← required stringOf n⟩
  | _ => none

def RbacRole.fromValue (j : Json) : Option (List PolicyRule) := do
  match ← structFields ["rules"] j with
  | [rules] => defaulted [] (vecOf PolicyRule.fromValue) rules
  | _ => none

def RbacBinding.fromValue (j : Json) : Option RbacBinding := do
  match ← structFields ["subjects", "roleRef"] j with
  | [subjects, roleRef] =>
    return ⟨← required (vecOf Subject.fromValue) subjects, ← required RoleRef.fromValue roleRef, none⟩
  | _ => none

def parseU64 (s : String) : Option ℕ :=
  let digits := match s.toList with
    | '+' :: cs => cs
    | cs => cs
  if digits ≠ [] ∧ digits.all Char.isDigit then
    let n := digits.foldl (fun n c => 10 * n + (c.toNat - '0'.toNat)) 0
    if n < 2 ^ 64 then some n else none
  else none

inductive RbacKey where
  | clusterRole (name : String)
  | clusterRoleBinding
  | role (ns name : String)
  | roleBinding (ns : String)
  deriving DecidableEq

def parseRbacKey (key : String) : Option RbacKey :=
  match Text.segments '/' key with
  | "apis" :: "rbac.authorization.k8s.io" :: _ :: rest =>
    match rest with
    | ["clusterroles", name] => some (.clusterRole name)
    | ["clusterrolebindings", _] => some .clusterRoleBinding
    | ["namespaces", ns, "roles", name] => some (.role ns name)
    | ["namespaces", ns, "rolebindings", _] => some (.roleBinding ns)
    | _ => none
  | _ => none

structure Floors where
  versions : AList (fun _ : String => ℕ × ℕ)
  lru : List (ℕ × String)
  tick : ℕ

structure RbacInner where
  clusterRoles : AList (fun _ : String => List PolicyRule)
  clusterRoleAggregations : AList (fun _ : String => Json)
  roles : AList (fun _ : String × String => List PolicyRule)
  clusterBindings : List (String × RbacBinding)
  namespaceBindings : List (String × RbacBinding)
  floors : Floors

def MAX_TRACKED_RESOURCE_VERSIONS : ℕ := 4096

def RbacInner.new : RbacInner := ⟨∅, ∅, ∅, [], [], ⟨∅, [], 0⟩⟩

def lruWithout (f : Floors) (key : String) : List (ℕ × String) :=
  match f.versions.lookup key with
  | some (_, oldTick) => f.lru.filter (fun e => e.1 ≠ oldTick)
  | none => f.lru

def bump (f : Floors) (key : String) (rv : ℕ) : Floors :=
  { versions := f.versions.insert key (rv, f.tick)
    lru := lruWithout f key ++ [(f.tick, key)]
    tick := f.tick + 1 }

def touchExisting (f : Floors) (key : String) : Floors :=
  match f.versions.lookup key with
  | none => f
  | some (recorded, _) => bump f key recorded

def evictFloor (f : Floors) : Floors :=
  if f.lru.length > MAX_TRACKED_RESOURCE_VERSIONS then
    match f.lru with
    | [] => f
    | (_, evicted) :: lru => { f with versions := f.versions.erase evicted, lru := lru }
  else f

def acceptUpdate (f : Floors) (key : String) (incomingRv : Option ℕ) : Bool × Floors :=
  match incomingRv with
  | none => (true, f)
  | some rv =>
    if (f.versions.lookup key).any (fun e => e.1 ≥ rv) then (false, touchExisting f key)
    else (true, evictFloor (bump f key rv))

def aggregationSelectors (body : Json) : Option Json :=
  let sel := (body.idx "aggregationRule").idx "clusterRoleSelectors"
  if sel.asArray?.any (fun s => !s.isEmpty) then some sel else none

def setBinding (key : String) (b : RbacBinding) (bs : List (String × RbacBinding)) :
    List (String × RbacBinding) :=
  bs.filter (fun e => e.1 ≠ key) ++ [(key, b)]

def indexed (key : String) (k : RbacKey) (value : Json) (inner : RbacInner) : Option RbacInner :=
  match k with
  | .clusterRole name =>
    (RbacRole.fromValue value).map (fun rules =>
      { inner with
        clusterRoles := inner.clusterRoles.insert name rules
        clusterRoleAggregations := match aggregationSelectors value with
          | some sel => inner.clusterRoleAggregations.insert name sel
          | none => inner.clusterRoleAggregations.erase name })
  | .clusterRoleBinding =>
    (RbacBinding.fromValue value).map (fun b =>
      { inner with clusterBindings := setBinding key b inner.clusterBindings })
  | .role ns name =>
    (RbacRole.fromValue value).map (fun rules =>
      { inner with roles := inner.roles.insert (ns, name) rules })
  | .roleBinding ns =>
    (RbacBinding.fromValue value).map (fun b =>
      { inner with
        namespaceBindings :=
          setBinding key { b with ns := some ns } inner.namespaceBindings })

def incomingRv (value : Json) : Option ℕ :=
  ((value.idx "metadata").idx "resourceVersion").asStr?.bind parseU64

def applyObject (inner : RbacInner) (key : String) (value : Json) : RbacInner :=
  match parseRbacKey key with
  | none => inner
  | some k =>
    match indexed key k value inner with
    | none => inner
    | some inner' =>
      let (accepted, floors) := acceptUpdate inner.floors key (incomingRv value)
      if accepted then { inner' with floors := floors } else { inner with floors := floors }

def unindexed (key : String) (k : RbacKey) (inner : RbacInner) : RbacInner :=
  match k with
  | .clusterRole name =>
    { inner with
      clusterRoles := inner.clusterRoles.erase name
      clusterRoleAggregations := inner.clusterRoleAggregations.erase name }
  | .clusterRoleBinding =>
    { inner with clusterBindings := inner.clusterBindings.filter (fun e => e.1 ≠ key) }
  | .role ns name => { inner with roles := inner.roles.erase (ns, name) }
  | .roleBinding _ =>
    { inner with namespaceBindings := inner.namespaceBindings.filter (fun e => e.1 ≠ key) }

def removeObject (inner : RbacInner) (key : String) : RbacInner :=
  let inner := { inner with floors := touchExisting inner.floors key }
  match parseRbacKey key with
  | some k => unindexed key k inner
  | none => inner

structure Named (inner : RbacInner) : Prop where
  clusterRoles : inner.clusterRoles.lookup "" = none
  roles : ∀ ns, inner.roles.lookup (ns, "") = none

theorem segments_ne_empty (h : t ∈ Text.segments c s) : t ≠ "" := by
  simp only [Text.segments, List.mem_map, List.mem_filter] at h
  obtain ⟨cs, ⟨-, hne⟩, rfl⟩ := h
  simpa using hne

theorem parseRbacKey_name :
    (∀ name, parseRbacKey key = some (.clusterRole name) → name ≠ "") ∧
      ∀ ns name, parseRbacKey key = some (.role ns name) → name ≠ "" := by
  have hmem : ∀ t ∈ Text.segments '/' key, t ≠ "" := fun t => segments_ne_empty
  constructor
  · intro name h
    unfold parseRbacKey at h
    split at h
    · next hs =>
      split at h <;> simp_all
    · cases h
  · intro ns name h
    unfold parseRbacKey at h
    split at h
    · next hs =>
      split at h <;> simp_all
    · cases h

theorem applyObject_cases (inner : RbacInner) (key : String) (value : Json) :
    (∃ floors, applyObject inner key value = { inner with floors := floors }) ∨
    ∃ k inner' floors, parseRbacKey key = some k ∧ indexed key k value inner = some inner' ∧
      applyObject inner key value = { inner' with floors := floors } := by
  unfold applyObject
  cases hk : parseRbacKey key with
  | none => exact .inl ⟨inner.floors, rfl⟩
  | some k =>
    cases hi : indexed key k value inner with
    | none => exact .inl ⟨inner.floors, by simp [hi]⟩
    | some inner' =>
      simp only [hi]
      split_ifs
      · exact .inr ⟨k, inner', _, rfl, hi, rfl⟩
      · exact .inl ⟨_, rfl⟩

theorem applyObject_named {inner : RbacInner} (h : Named inner) (key : String) (value : Json) :
    Named (applyObject inner key value) := by
  obtain ⟨floors, he⟩ | ⟨k, inner', floors, hk, hi, he⟩ := applyObject_cases inner key value
  · rw [he]
    exact ⟨h.clusterRoles, h.roles⟩
  · rw [he]
    cases k with
    | clusterRole name =>
      obtain ⟨rules, -, rfl⟩ := Option.map_eq_some_iff.mp hi
      refine ⟨?_, h.roles⟩
      exact (AList.lookup_insert_ne (parseRbacKey_name.1 name hk).symm).trans h.clusterRoles
    | role ns name =>
      obtain ⟨rules, -, rfl⟩ := Option.map_eq_some_iff.mp hi
      refine ⟨h.clusterRoles, fun ns' => ?_⟩
      have hne : (ns', "") ≠ (ns, name) := by
        intro he
        exact parseRbacKey_name.2 ns name hk (Prod.mk.inj he).2.symm
      exact (AList.lookup_insert_ne hne).trans (h.roles ns')
    | clusterRoleBinding | roleBinding ns =>
      obtain ⟨b, -, rfl⟩ := Option.map_eq_some_iff.mp hi
      exact ⟨h.clusterRoles, h.roles⟩

theorem removeObject_named {inner : RbacInner} (h : Named inner) (key : String) :
    Named (removeObject inner key) := by
  have herase : ∀ {κ : Type} [DecidableEq κ] {m : AList (fun _ : κ => List PolicyRule)} {a b : κ},
      m.lookup a = none → (m.erase b).lookup a = none := by
    intro κ _ m a b hm
    by_cases hab : a = b
    · subst hab
      simp
    · rw [AList.lookup_erase_ne hab, hm]
  unfold removeObject
  cases parseRbacKey key with
  | none => exact ⟨h.clusterRoles, h.roles⟩
  | some k =>
    cases k with
    | clusterRole name => exact ⟨herase h.clusterRoles, h.roles⟩
    | role ns name => exact ⟨h.clusterRoles, fun ns' => herase (h.roles ns')⟩
    | _ => exact ⟨h.clusterRoles, h.roles⟩

structure RbacIndex where
  inner : RbacInner
  named : Named inner

def RbacIndex.new : RbacIndex := ⟨RbacInner.new, ⟨rfl, fun _ => rfl⟩⟩

def RbacIndex.applyObject (x : RbacIndex) (key : String) (value : Json) : RbacIndex :=
  ⟨Rbac.applyObject x.inner key value, applyObject_named x.named key value⟩

def RbacIndex.removeObject (x : RbacIndex) (key : String) : RbacIndex :=
  ⟨Rbac.removeObject x.inner key, removeObject_named x.named key⟩

def clusterRoleRulesIfExists (inner : RbacInner) (name : String) : Option (List PolicyRule) :=
  inner.clusterRoles.lookup name

def roleRulesIfExists (inner : RbacInner) (ns name : String) : Option (List PolicyRule) :=
  inner.roles.lookup (ns, name)

def clusterRoleAggregation (inner : RbacInner) (name : String) : Option Json :=
  inner.clusterRoleAggregations.lookup name

end U7s.Rbac
