import U7s.Lib.Register
import U7s.Lib.Tables
import U7s.Rbac.Authorize

namespace U7s.Rbac

open Register List Option
open Text (Segment)

inductive RbacRef where
  | clusterRole (name : Segment)
  | clusterRoleBinding (name : Segment)
  | role (ns name : Segment)
  | roleBinding (ns name : Segment)
  deriving DecidableEq

def RbacRef.key : RbacRef → String
  | .clusterRole name => "/apis/rbac.authorization.k8s.io/v1/clusterroles" ++ "/" ++ name.text
  | .clusterRoleBinding name =>
    "/apis/rbac.authorization.k8s.io/v1/clusterrolebindings" ++ "/" ++ name.text
  | .role ns name =>
    "/apis/rbac.authorization.k8s.io/v1/namespaces" ++ "/" ++ ns.text ++ "/" ++ "roles" ++ "/" ++ name.text
  | .roleBinding ns name =>
    "/apis/rbac.authorization.k8s.io/v1/namespaces" ++ "/" ++ ns.text ++ "/" ++ "rolebindings" ++ "/" ++
      name.text

def RbacRef.segments : RbacRef → List String
  | .clusterRole name => ["apis", "rbac.authorization.k8s.io", "v1", "clusterroles", name.text]
  | .clusterRoleBinding name =>
    ["apis", "rbac.authorization.k8s.io", "v1", "clusterrolebindings", name.text]
  | .role ns name =>
    ["apis", "rbac.authorization.k8s.io", "v1", "namespaces", ns.text, "roles", name.text]
  | .roleBinding ns name =>
    ["apis", "rbac.authorization.k8s.io", "v1", "namespaces", ns.text, "rolebindings", name.text]

def RbacRef.parsed : RbacRef → RbacKey
  | .clusterRole name => .clusterRole name.text
  | .clusterRoleBinding _ => .clusterRoleBinding
  | .role ns name => .role ns.text name.text
  | .roleBinding ns _ => .roleBinding ns.text

theorem segments_segment (s : Segment) : Text.segments '/' s.text = [s.text] :=
  Text.segments_single s.nonempty s.noSlash

theorem segments_clusterScoped (h : Text.segments '/' root = path) (name : Segment) :
    Text.segments '/' (root ++ "/" ++ name.text) = path ++ [name.text] := by
  have happend := Text.segments_append '/' root name.text
  rwa [h, segments_segment] at happend

theorem segments_namespaced (h : Text.segments '/' root = path) (hp : Text.segments '/' plural = [plural])
    (ns name : Segment) :
    Text.segments '/' (root ++ "/" ++ ns.text ++ "/" ++ plural ++ "/" ++ name.text) =
      path ++ [ns.text, plural, name.text] := by
  have happend := Text.segments_append '/'
  simp only [show String.singleton '/' = "/" from rfl] at happend
  rw [happend, happend, happend, h, hp, segments_segment, segments_segment]
  simp

theorem segments_key (r : RbacRef) : Text.segments '/' r.key = r.segments := by
  cases r with
  | clusterRole name =>
    exact segments_clusterScoped
      (show Text.segments '/' "/apis/rbac.authorization.k8s.io/v1/clusterroles" =
        ["apis", "rbac.authorization.k8s.io", "v1", "clusterroles"] by decide +kernel) name
  | clusterRoleBinding name =>
    exact segments_clusterScoped
      (show Text.segments '/' "/apis/rbac.authorization.k8s.io/v1/clusterrolebindings" =
        ["apis", "rbac.authorization.k8s.io", "v1", "clusterrolebindings"] by decide +kernel) name
  | role ns name =>
    exact segments_namespaced
      (show Text.segments '/' "/apis/rbac.authorization.k8s.io/v1/namespaces" =
        ["apis", "rbac.authorization.k8s.io", "v1", "namespaces"] by decide +kernel)
      (show Text.segments '/' "roles" = ["roles"] by decide +kernel) ns name
  | roleBinding ns name =>
    exact segments_namespaced
      (show Text.segments '/' "/apis/rbac.authorization.k8s.io/v1/namespaces" =
        ["apis", "rbac.authorization.k8s.io", "v1", "namespaces"] by decide +kernel)
      (show Text.segments '/' "rolebindings" = ["rolebindings"] by decide +kernel) ns name

theorem parseRbacKey_key (r : RbacRef) : parseRbacKey r.key = some r.parsed := by
  rw [parseRbacKey, segments_key]
  cases r <;> rfl

theorem key_injective {r' : RbacRef} (h : r.key = r'.key) : r = r' := by
  have hs : r.segments = r'.segments := by rw [← segments_key, ← segments_key, h]
  cases r <;> cases r' <;> simp_all [RbacRef.segments, Segment.ext_iff]

inductive Content where
  | clusterRole (rules : List PolicyRule) (aggregation : Option Json)
  | role (rules : List PolicyRule)
  | binding (b : RbacBinding)
  deriving DecidableEq

def findBinding (key : String) (bs : List (String × RbacBinding)) : Option Content :=
  (bs.find? (fun e => e.1 = key)).map (fun e => .binding e.2)

def entry (inner : RbacInner) (r : RbacRef) : Option Content :=
  match r with
  | .clusterRole name =>
    (inner.clusterRoles.lookup name.text).map
      (fun rules => .clusterRole rules (inner.clusterRoleAggregations.lookup name.text))
  | .clusterRoleBinding _ => findBinding r.key inner.clusterBindings
  | .role ns name => (inner.roles.lookup (ns.text, name.text)).map .role
  | .roleBinding _ _ => findBinding r.key inner.namespaceBindings

def decode (r : RbacRef) (value : Json) : Option Content :=
  match r with
  | .clusterRole _ =>
    (RbacRole.fromValue value).map (fun rules => .clusterRole rules (aggregationSelectors value))
  | .clusterRoleBinding _ => (RbacBinding.fromValue value).map .binding
  | .role _ _ => (RbacRole.fromValue value).map .role
  | .roleBinding ns _ =>
    (RbacBinding.fromValue value).map (fun b => .binding { b with ns := some ns.text })

theorem findBinding_setBinding (key : String) (b : RbacBinding) (bs : List (String × RbacBinding)) :
    findBinding key (setBinding key b bs) = some (.binding b) := by
  have hno : (bs.filter (fun e => e.1 ≠ key)).find? (fun e => e.1 = key) = none := by
    rw [find?_eq_none]
    intro e he
    simpa using (mem_filter.mp he).2
  rw [findBinding, setBinding, find?_append, hno]
  simp

theorem findBinding_filter_ne (h : key' ≠ key) (bs : List (String × RbacBinding)) :
    findBinding key' (bs.filter (fun e => e.1 ≠ key)) = findBinding key' bs := by
  have hf : (bs.filter (fun e => e.1 ≠ key)).find? (fun e => e.1 = key') =
      bs.find? (fun e => e.1 = key') := by
    rw [find?_filter]
    congr 1
    funext e
    by_cases he : e.1 = key'
    · simp [he, h]
    · simp [he]
  rw [findBinding, hf, findBinding]

theorem findBinding_filter_self (key : String) (bs : List (String × RbacBinding)) :
    findBinding key (bs.filter (fun e => e.1 ≠ key)) = none := by
  simp [findBinding]

theorem findBinding_setBinding_ne (h : key' ≠ key) (b : RbacBinding) (bs : List (String × RbacBinding)) :
    findBinding key' (setBinding key b bs) = findBinding key' bs := by
  rw [← findBinding_filter_ne h bs]
  simp [findBinding, setBinding, h.symm]

theorem indexed_entry {r : RbacRef} {value : Json} {inner : RbacInner} :
    (decode r value = none ∧ indexed r.key r.parsed value inner = none) ∨
    ∃ c inner', decode r value = some c ∧ indexed r.key r.parsed value inner = some inner' ∧
      inner'.floors = inner.floors ∧ entry inner' r = some c ∧
      ∀ r', r' ≠ r → entry inner' r' = entry inner r' := by
  have hkey : ∀ {r' : RbacRef}, r' ≠ r → r'.key ≠ r.key := fun h he => h (key_injective he)
  cases r with
  | clusterRole name =>
    simp only [decode, indexed]
    cases hv : RbacRole.fromValue value with
    | none => exact .inl ⟨rfl, rfl⟩
    | some rules =>
      refine .inr ⟨_, _, rfl, rfl, rfl, ?_, ?_⟩
      · cases ha : aggregationSelectors value <;> simp [entry]
      · intro r' hr
        cases r' with
        | clusterRole name' =>
          have hn : name'.text ≠ name.text := fun he => hr (by rw [Segment.ext he])
          cases ha : aggregationSelectors value <;> simp [entry, hn]
        | _ => rfl
  | clusterRoleBinding name =>
    simp only [decode, indexed]
    cases hv : RbacBinding.fromValue value with
    | none => exact .inl ⟨rfl, rfl⟩
    | some b =>
      refine .inr ⟨_, _, rfl, rfl, rfl, findBinding_setBinding _ _ _, ?_⟩
      intro r' hr
      cases r' with
      | clusterRoleBinding name' => exact findBinding_setBinding_ne (hkey hr) _ _
      | _ => rfl
  | role ns name =>
    simp only [decode, indexed]
    cases hv : RbacRole.fromValue value with
    | none => exact .inl ⟨rfl, rfl⟩
    | some rules =>
      refine .inr ⟨_, _, rfl, rfl, rfl, by simp [entry], ?_⟩
      intro r' hr
      cases r' with
      | role ns' name' =>
        have hn : (ns'.text, name'.text) ≠ (ns.text, name.text) := by
          intro he
          obtain ⟨h1, h2⟩ := Prod.mk.inj he
          exact hr (by rw [Segment.ext h1, Segment.ext h2])
        simp only [entry, AList.lookup_insert_ne hn]
      | _ => rfl
  | roleBinding ns name =>
    simp only [decode, indexed]
    cases hv : RbacBinding.fromValue value with
    | none => exact .inl ⟨rfl, rfl⟩
    | some b =>
      refine .inr ⟨_, _, rfl, rfl, rfl, findBinding_setBinding _ _ _, ?_⟩
      intro r' hr
      cases r' with
      | roleBinding ns' name' => exact findBinding_setBinding_ne (hkey hr) _ _
      | _ => rfl

theorem unindexed_entry (r : RbacRef) (inner : RbacInner) :
    (unindexed r.key r.parsed inner).floors = inner.floors ∧
      entry (unindexed r.key r.parsed inner) r = none ∧
      ∀ r', r' ≠ r → entry (unindexed r.key r.parsed inner) r' = entry inner r' := by
  have hkey : ∀ {r' : RbacRef}, r' ≠ r → r'.key ≠ r.key := fun h he => h (key_injective he)
  cases r with
  | clusterRole name =>
    refine ⟨rfl, by simp [entry, RbacRef.parsed, unindexed], ?_⟩
    intro r' hr
    cases r' with
    | clusterRole name' =>
      have hn : name'.text ≠ name.text := fun he => hr (by rw [Segment.ext he])
      simp [entry, RbacRef.parsed, unindexed, hn]
    | _ => rfl
  | clusterRoleBinding name =>
    refine ⟨rfl, findBinding_filter_self _ _, ?_⟩
    intro r' hr
    cases r' with
    | clusterRoleBinding name' => exact findBinding_filter_ne (hkey hr) _
    | _ => rfl
  | role ns name =>
    refine ⟨rfl, by simp [entry, RbacRef.parsed, unindexed], ?_⟩
    intro r' hr
    cases r' with
    | role ns' name' =>
      have hn : (ns'.text, name'.text) ≠ (ns.text, name.text) := by
        intro he
        obtain ⟨h1, h2⟩ := Prod.mk.inj he
        exact hr (by rw [Segment.ext h1, Segment.ext h2])
      simp only [entry, RbacRef.parsed, unindexed, AList.lookup_erase_ne hn]
    | _ => rfl
  | roleBinding ns name =>
    refine ⟨rfl, findBinding_filter_self _ _, ?_⟩
    intro r' hr
    cases r' with
    | roleBinding ns' name' => exact findBinding_filter_ne (hkey hr) _
    | _ => rfl

structure Tidy (inner : RbacInner) : Prop where
  clusterRoles : ∀ n rules, inner.clusterRoles.lookup n = some rules → ∃ name : Segment, name.text = n
  roles : ∀ p rules, inner.roles.lookup p = some rules →
    ∃ ns name : Segment, (ns.text, name.text) = p
  clusterBindings : ∀ e ∈ inner.clusterBindings, ∃ name, e.1 = (RbacRef.clusterRoleBinding name).key
  namespaceBindings : ∀ e ∈ inner.namespaceBindings, ∃ ns name, e.1 = (RbacRef.roleBinding ns name).key
  clusterKeys : (inner.clusterBindings.map Prod.fst).Nodup
  namespaceKeys : (inner.namespaceBindings.map Prod.fst).Nodup

theorem setBinding_keys (h : (bs.map Prod.fst).Nodup) : ((setBinding key b bs).map Prod.fst).Nodup := by
  rw [setBinding, map_append, nodup_append]
  refine ⟨h.sublist (filter_sublist.map _), by simp, ?_⟩
  intro k hk k' hk' he
  obtain ⟨e, hm, rfl⟩ := mem_map.mp hk
  have hne := (mem_filter.mp hm).2
  simp only [map_cons, map_nil, mem_singleton] at hk'
  simp [he, hk'] at hne

theorem setBinding_forall {P : String → Prop} (h : ∀ e ∈ bs, P e.1) (hk : P key) :
    ∀ e ∈ setBinding key b bs, P e.1 := by
  intro e he
  rcases mem_append.mp he with he | he
  · exact h e (mem_filter.mp he).1
  · rw [mem_singleton.mp he]
    exact hk

theorem applyObject_tidy {inner : RbacInner} (h : Tidy inner) (r : RbacRef) (value : Json) :
    Tidy (applyObject inner r.key value) := by
  obtain ⟨floors, he⟩ | ⟨k, inner', floors, hk, hi, he⟩ := applyObject_cases inner r.key value
  · rw [he]
    exact ⟨h.1, h.2, h.3, h.4, h.5, h.6⟩
  · rw [he]
    rw [parseRbacKey_key] at hk
    cases hk
    cases r with
    | clusterRole name =>
      obtain ⟨rules, -, rfl⟩ := map_eq_some_iff.mp hi
      refine ⟨fun n rs hl => ?_, h.2, h.3, h.4, h.5, h.6⟩
      rcases Tables.lookup_insert_cases hl with rfl | hl
      · exact ⟨name, rfl⟩
      · exact h.clusterRoles n rs hl
    | role ns name =>
      obtain ⟨rules, -, rfl⟩ := map_eq_some_iff.mp hi
      refine ⟨h.1, fun p rs hl => ?_, h.3, h.4, h.5, h.6⟩
      rcases Tables.lookup_insert_cases hl with rfl | hl
      · exact ⟨ns, name, rfl⟩
      · exact h.roles p rs hl
    | clusterRoleBinding name =>
      obtain ⟨b, -, rfl⟩ := map_eq_some_iff.mp hi
      have hforall := setBinding_forall (b := b)
        (P := fun k => ∃ name, k = (RbacRef.clusterRoleBinding name).key) h.clusterBindings ⟨name, rfl⟩
      exact ⟨h.1, h.2, hforall, h.4, setBinding_keys h.5, h.6⟩
    | roleBinding ns name =>
      obtain ⟨b, -, rfl⟩ := map_eq_some_iff.mp hi
      have hforall := setBinding_forall (b := { b with ns := some ns.text })
        (P := fun k => ∃ ns name, k = (RbacRef.roleBinding ns name).key) h.namespaceBindings
        ⟨ns, name, rfl⟩
      exact ⟨h.1, h.2, h.3, hforall, h.5, setBinding_keys h.6⟩

theorem removeObject_tidy {inner : RbacInner} (h : Tidy inner) (r : RbacRef) : Tidy (removeObject inner r.key) := by
  simp only [removeObject, parseRbacKey_key]
  cases r with
  | clusterRole name => exact ⟨fun n rs hl => h.clusterRoles n rs (Tables.lookup_erase_some hl), h.2, h.3, h.4, h.5, h.6⟩
  | role ns name => exact ⟨h.1, fun p rs hl => h.roles p rs (Tables.lookup_erase_some hl), h.3, h.4, h.5, h.6⟩
  | clusterRoleBinding name =>
    exact ⟨h.1, h.2, fun e he => h.clusterBindings e (mem_filter.mp he).1, h.4,
      h.5.sublist (filter_sublist.map _), h.6⟩
  | roleBinding ns name =>
    exact ⟨h.1, h.2, h.3, fun e he => h.namespaceBindings e (mem_filter.mp he).1, h.5,
      h.6.sublist (filter_sublist.map _)⟩

theorem findBinding_iff (h : (bs.map Prod.fst).Nodup) : findBinding e.1 bs = some (.binding e.2) ↔ e ∈ bs := by
  simp only [findBinding, map_eq_some_iff, Content.binding.injEq]
  constructor
  · rintro ⟨e', hf, he⟩
    have hk : e'.1 = e.1 := by simpa using find?_some hf
    rw [← Prod.ext hk he]
    exact mem_of_find?_eq_some hf
  · intro he
    cases hf : bs.find? (fun e' => e'.1 = e.1) with
    | none => exact absurd (find?_eq_none.mp hf e he) (by simp)
    | some e' =>
      have hk : e'.1 = e.1 := by simpa using find?_some hf
      have hm := mem_of_find?_eq_some hf
      exact ⟨e', rfl, by rw [inj_on_of_nodup_map h hm he hk]⟩

section SameEntries

variable {inner inner' : RbacInner}

theorem clusterRoles_of_entry (ht : Tidy inner) (ht' : Tidy inner') (h : ∀ r, entry inner r = entry inner' r)
    (n : String) : inner.clusterRoles.lookup n = inner'.clusterRoles.lookup n := by
  by_cases hn : ∃ name : Segment, name.text = n
  · obtain ⟨name, rfl⟩ := hn
    have he := h (.clusterRole name)
    simp only [entry] at he
    cases h1 : inner.clusterRoles.lookup name.text <;>
      cases h2 : inner'.clusterRoles.lookup name.text <;> simp_all
  · have hnone : ∀ {x : RbacInner}, Tidy x → x.clusterRoles.lookup n = none := by
      intro x hx
      rw [← not_isSome_iff_eq_none, isSome_iff_exists]
      rintro ⟨rules, hr⟩
      exact hn (hx.clusterRoles n rules hr)
    rw [hnone ht, hnone ht']

theorem roles_of_entry (ht : Tidy inner) (ht' : Tidy inner') (h : ∀ r, entry inner r = entry inner' r)
    (p : String × String) : inner.roles.lookup p = inner'.roles.lookup p := by
  by_cases hp : ∃ ns name : Segment, (ns.text, name.text) = p
  · obtain ⟨ns, name, rfl⟩ := hp
    have he := h (.role ns name)
    simp only [entry] at he
    cases h1 : inner.roles.lookup (ns.text, name.text) <;>
      cases h2 : inner'.roles.lookup (ns.text, name.text) <;> simp_all
  · have hnone : ∀ {x : RbacInner}, Tidy x → x.roles.lookup p = none := by
      intro x hx
      rw [← not_isSome_iff_eq_none, isSome_iff_exists]
      rintro ⟨rules, hr⟩
      exact hp (hx.roles p rules hr)
    rw [hnone ht, hnone ht']

theorem bindings_of_entry (ht : Tidy inner) (ht' : Tidy inner') (h : ∀ r, entry inner r = entry inner' r) :
    (∀ e ∈ inner.clusterBindings, e ∈ inner'.clusterBindings) ∧
      ∀ e ∈ inner.namespaceBindings, e ∈ inner'.namespaceBindings := by
  constructor
  · intro e he
    obtain ⟨name, hk⟩ := ht.clusterBindings e he
    have hf := (findBinding_iff ht.clusterKeys).mpr he
    have hentry := h (.clusterRoleBinding name)
    simp only [entry, ← hk, hf] at hentry
    exact (findBinding_iff ht'.clusterKeys).mp hentry.symm
  · intro e he
    obtain ⟨ns, name, hk⟩ := ht.namespaceBindings e he
    have hf := (findBinding_iff ht.namespaceKeys).mpr he
    have hentry := h (.roleBinding ns name)
    simp only [entry, ← hk, hf] at hentry
    exact (findBinding_iff ht'.namespaceKeys).mp hentry.symm

theorem someBinding_mono (ht : Tidy inner) (ht' : Tidy inner')
    (h : ∀ r, entry inner r = entry inner' r) (req : AuthzRequest) (allow : List PolicyRule → Bool)
    (hs : someBinding inner req allow) : someBinding inner' req allow := by
  obtain ⟨hcb, hnb⟩ := bindings_of_entry ht ht' h
  have hc : ∀ ref, resolveClusterRoleRules inner ref = resolveClusterRoleRules inner' ref := by
    intro ref
    simp only [resolveClusterRoleRules, clusterRoles_of_entry ht ht' h]
  have hr : ∀ ref ns, resolveRoleRules inner ref ns = resolveRoleRules inner' ref ns := by
    intro ref ns
    simp only [resolveRoleRules, clusterRoles_of_entry ht ht' h, roles_of_entry ht ht' h]
  simp only [someBinding, hc, hr, Bool.or_eq_true, List.any_eq_true, Option.any_eq_true] at hs ⊢
  rcases hs with ⟨e, he, hx⟩ | ⟨ns, hns, e, he, hx⟩
  · exact .inl ⟨e, hcb e he, hx⟩
  · exact .inr ⟨ns, hns, e, hnb e he, hx⟩

theorem isAllowed_of_entry (ht : Tidy inner) (ht' : Tidy inner') (h : ∀ r, entry inner r = entry inner' r)
    (req : AuthzRequest) : isAllowed inner req = isAllowed inner' req := by
  have hsome : ∀ allow, someBinding inner req allow = someBinding inner' req allow := by
    intro allow
    rw [Bool.eq_iff_iff]
    exact ⟨someBinding_mono ht ht' h req allow,
      someBinding_mono ht' ht (fun r => (h r).symm) req allow⟩
  simp only [isAllowed, hsome]

end SameEntries

end U7s.Rbac
