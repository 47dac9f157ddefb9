import U7s.Rbac.Escalation

namespace U7s.Rbac

open Runs List

theorem mem_boundRules {inner : RbacInner} :
    rule ∈ boundRules inner u ns ↔
      (∃ e ∈ inner.clusterBindings, subjectMatches e.2 u.username u.groups ∧
        rule ∈ resolveClusterRoleRules inner e.2.roleRef) ∨
      ∃ n, ns = some n ∧ ∃ e ∈ inner.namespaceBindings, e.2.ns.getD "" = n ∧
        subjectMatches e.2 u.username u.groups ∧ rule ∈ resolveRoleRules inner e.2.roleRef n := by
  simp only [boundRules, mem_append, mem_flatMap, mem_filter, Option.mem_toList,
    Bool.and_eq_true, decide_eq_true_eq, and_assoc]

structure HeldGrowth (user : UserInfo) (inner inner' : RbacInner) : Prop where
  clusterRoles : ∀ n, ∀ rule ∈ (inner'.clusterRoles.lookup n).getD [],
    rule ∈ (inner.clusterRoles.lookup n).getD [] ∨ holdsRule user none inner rule = true
  roles : ∀ ns n, ∀ rule ∈ (inner'.roles.lookup (ns, n)).getD [],
    rule ∈ (inner.roles.lookup (ns, n)).getD [] ∨ holdsRule user (some ns) inner rule = true
  clusterBindings : ∀ e ∈ inner'.clusterBindings, e ∈ inner.clusterBindings ∨
    ∀ rule ∈ resolveClusterRoleRules inner' e.2.roleRef, holdsRule user none inner rule = true
  namespaceBindings : ∀ e ∈ inner'.namespaceBindings, e ∈ inner.namespaceBindings ∨
    ∀ rule ∈ resolveRoleRules inner' e.2.roleRef (e.2.ns.getD ""),
      holdsRule user (some (e.2.ns.getD "")) inner rule = true

section Growth

variable {user : UserInfo} {inner inner' : RbacInner}

theorem HeldGrowth.resolveClusterRoleRules (h : HeldGrowth user inner inner')
    (hr : rule ∈ resolveClusterRoleRules inner' ref) :
    rule ∈ Rbac.resolveClusterRoleRules inner ref ∨ holdsRule user none inner rule := by
  unfold Rbac.resolveClusterRoleRules at hr ⊢
  split_ifs at hr ⊢ with hk
  · exact h.clusterRoles _ _ hr
  · simp at hr

theorem HeldGrowth.resolveRoleRules (h : HeldGrowth user inner inner')
    (hr : rule ∈ resolveRoleRules inner' ref ns) :
    rule ∈ Rbac.resolveRoleRules inner ref ns ∨ holdsRule user none inner rule ∨
      holdsRule user (some ns) inner rule := by
  unfold Rbac.resolveRoleRules at hr ⊢
  split_ifs at hr ⊢ with hg hk hc
  · simp at hr
  · exact (h.roles _ _ _ hr).imp_right .inr
  · exact (h.clusterRoles _ _ hr).imp_right .inl
  · simp at hr

theorem HeldGrowth.boundRules (h : HeldGrowth user inner inner') (hr : rule ∈ boundRules inner' u ns) :
    rule ∈ boundRules inner u ns ∨ ∃ s, (s = none ∨ s = ns) ∧ holdsRule user s inner rule := by
  rcases mem_boundRules.mp hr with ⟨e, he, hs, hr⟩ | ⟨n, rfl, e, he, rfl, hs, hr⟩
  · rcases h.clusterBindings e he with he | hnew
    · rcases h.resolveClusterRoleRules hr with hr | hheld
      · exact .inl (mem_boundRules.mpr (.inl ⟨e, he, hs, hr⟩))
      · exact .inr ⟨none, .inl rfl, hheld⟩
    · exact .inr ⟨none, .inl rfl, hnew rule hr⟩
  · rcases h.namespaceBindings e he with he | hnew
    · rcases h.resolveRoleRules hr with hr | hheld | hheld
      · exact .inl (mem_boundRules.mpr (.inr ⟨_, rfl, e, he, rfl, hs, hr⟩))
      · exact .inr ⟨none, .inl rfl, hheld⟩
      · exact .inr ⟨_, .inr rfl, hheld⟩
    · exact .inr ⟨_, .inr rfl, hnew rule hr⟩

theorem HeldGrowth.of_same (hc : inner'.clusterRoles = inner.clusterRoles)
    (hr : inner'.roles = inner.roles) (hcb : inner'.clusterBindings = inner.clusterBindings)
    (hnb : inner'.namespaceBindings = inner.namespaceBindings) : HeldGrowth user inner inner' :=
  ⟨fun _ _ h => .inl (hc ▸ h), fun _ _ _ h => .inl (hr ▸ h), fun _ h => .inl (hcb ▸ h),
    fun _ h => .inl (hnb ▸ h)⟩

end Growth

def Granted (U : Set UserInfo) (inner : RbacInner) (q : ResourceRequest) : Prop :=
  ∃ u ∈ U, isAllowed inner (q.by u) = true

def WideGranted (U : Set UserInfo) (inner : RbacInner) (q : ResourceRequest) : Prop :=
  ∃ u ∈ U, ∃ rule ∈ boundRules inner u q.ns, ruleCovers (widen rule) (q.by u) = true

theorem Granted.wide {inner : RbacInner} (h : Granted U inner q) : WideGranted U inner q := by
  obtain ⟨u, hu, ha⟩ := h
  obtain ⟨rule, hr, hc⟩ := isAllowed_iff.mp ha
  exact ⟨u, hu, rule, hr, ruleCovers_widen hc⟩

theorem HeldGrowth.wideGranted {inner : RbacInner} (h : HeldGrowth user inner inner') (hu : user ∈ U)
    (hq : WideGranted U inner' q) : WideGranted U inner q := by
  obtain ⟨u, hu', rule, hr, hc⟩ := hq
  rcases h.boundRules hr with hr | ⟨s, hs, hheld⟩
  · exact ⟨u, hu', rule, hr, hc⟩
  · obtain ⟨rule', hr', hc'⟩ := holdsRule_covers hheld hc
    refine ⟨user, hu, rule', ?_, hc'⟩
    rcases hs with rfl | rfl
    · exact boundRules_none_subset hr'
    · exact hr'

theorem RoleRef.fromValue_obj (h : RoleRef.fromValue (.obj fs) = some ref) :
    Json.lookup "kind" fs = some (.str ref.kind) ∧ Json.lookup "name" fs = some (.str ref.name) := by
  have hreq : ∀ {o : Option Json} {s : String}, required stringOf o = some s → o = some (.str s) := by
    intro o s ho
    cases o with
    | none => simp [required] at ho
    | some j => cases j <;> simp_all [required, stringOf, Json.asStr?]
  simp only [RoleRef.fromValue, structFields, map_cons, map_nil, Option.bind_eq_bind,
    Option.bind_some, Option.bind_eq_some_iff, Option.pure_def, Option.some.injEq] at h
  obtain ⟨g, hg, k, hk, n, hn, rfl⟩ := h
  exact ⟨hreq hk, hreq hn⟩

theorem RbacBinding.fromValue_obj (h : RbacBinding.fromValue (.obj fs) = some b) :
    RoleRef.fromValue ((Json.obj fs).idx "roleRef") = some b.roleRef := by
  simp only [RbacBinding.fromValue, structFields, map_cons, map_nil, Option.bind_eq_bind,
    Option.bind_some, Option.bind_eq_some_iff, Option.pure_def, Option.some.injEq] at h
  obtain ⟨ss, hs, ref, hr, rfl⟩ := h
  simp only [Json.idx, Json.get?]
  cases hl : Json.lookup "roleRef" fs with
  | none => simp [hl, required] at hr
  | some j => simpa [hl, required] using hr

theorem setIdx_obj {j : Json} (h : j.setIdx k v = some j') : ∃ fs, j' = .obj fs := by
  cases j <;> simp_all [Json.setIdx] <;> exact ⟨_, h.symm⟩

theorem stored_roleRef
    (hd : defaultRoleRefApiGroup body = some body') (hs : body'.setIdx "metadata" metadata = some stored)
    (hb : RbacBinding.fromValue stored = some b) :
    ((body.idx "roleRef").idx "kind").asStr? = some b.roleRef.kind ∧
      ((body.idx "roleRef").idx "name").asStr? = some b.roleRef.name := by
  obtain ⟨fs, rfl⟩ := setIdx_obj hs
  have href := RbacBinding.fromValue_obj hb
  rw [Json.idx_setIdx_ne (by decide) hs, Json.idx_setIdx hd] at href
  have hreset : ∀ ref, RoleRef.fromValue (.obj [("apiGroup", .str RBAC_GROUP)]) ≠ some ref := by
    intro ref h
    simpa [Json.lookup] using (RoleRef.fromValue_obj h).1
  cases hr : body.idx "roleRef" with
  | obj gs =>
    simp only [hr] at href
    have hins : RoleRef.fromValue (.obj (Json.insert "apiGroup" (.str RBAC_GROUP) gs)) = some b.roleRef ∨
        RoleRef.fromValue (.obj gs) = some b.roleRef := by
      split at href
      · split_ifs at href
        · exact .inl href
        · exact .inr href
      · exact .inl href
      · exact .inl href
      · exact (hreset _ href).elim
    have hlook : Json.lookup "kind" gs = some (.str b.roleRef.kind) ∧
        Json.lookup "name" gs = some (.str b.roleRef.name) := by
      rcases hins with h | h
      · simpa [Json.lookup_insert_ne] using RoleRef.fromValue_obj h
      · exact RoleRef.fromValue_obj h
    simp [Json.idx, Json.get?, hlook.1, hlook.2, Json.asStr?]
  | _ =>
    rw [hr] at href
    exact (hreset _ href).elim

theorem bindingRoleRef_ok (h : bindingRoleRef body kinds = .ok (kind, name)) :
    kind = ((body.idx "roleRef").idx "kind").asStr?.getD "" ∧
      name = ((body.idx "roleRef").idx "name").asStr?.getD "" := by
  simp only [bindingRoleRef] at h
  split_ifs at h <;>
    (simp only [Except.ok.injEq, Prod.mk.injEq] at h
     exact ⟨h.1.symm, h.2.symm⟩)

theorem stored_rules (hs : body.setIdx "metadata" metadata = some stored)
    (hr : RbacRole.fromValue stored = some rules) : (RbacRole.fromValue body).getD [] = rules := by
  cases body with
  | null =>
    simp only [Json.setIdx, Option.some.injEq] at hs
    subst hs
    simp [RbacRole.fromValue, structFields, Json.lookup, defaulted] at hr ⊢
    exact hr
  | obj fs =>
    simp only [Json.setIdx, Option.some.injEq] at hs
    subst hs
    simp [RbacRole.fromValue, structFields, Json.lookup_insert_ne] at hr ⊢
    simp [hr]
  | _ => simp [Json.setIdx] at hs

/-- No member of `U` is above the checks: none is in `system:masters` or may `bind` or `escalate`. -/
structure Unprivileged (U : Set UserInfo) (inner : RbacInner) : Prop where
  notMaster : ∀ u ∈ U, "system:masters" ∉ u.groups
  noBind : ∀ resource ∈ [ROLES, CLUSTER_ROLES], ∀ ns name,
    ¬ Granted U inner ⟨"bind", RBAC_GROUP, resource, "", ns, some name⟩
  noEscalate : ∀ resource ∈ [ROLES, CLUSTER_ROLES], ∀ ns name,
    ¬ Granted U inner ⟨"escalate", RBAC_GROUP, resource, "", ns, some name⟩

section Checks

variable {U : Set UserInfo} {user : UserInfo} {inner : RbacInner}

section

variable (hp : Unprivileged U inner)
include hp

theorem checkBinding_ok (hu : user ∈ U) (hres : resource ∈ [ROLES, CLUSTER_ROLES])
    (h : checkBinding user ns resource name rules refusal inner = .ok ()) :
    ∀ rule ∈ rules.getD [], holdsRule user ns inner rule := by
  have hb : isAllowed inner
      ((⟨"bind", RBAC_GROUP, resource, "", ns, some name⟩ : ResourceRequest).by user) = false := by
    rw [← Bool.not_eq_true]
    exact fun h => hp.noBind resource hres ns name ⟨user, hu, h⟩
  simp only [checkBinding, hb, Bool.false_eq_true, ↓reduceIte] at h
  cases rules with
  | none => simp at h
  | some rules =>
    simp only at h
    split_ifs at h with hall
    simpa using hall

theorem authoring_refused (hu : user ∈ U) (hres : resource ∈ [ROLES, CLUSTER_ROLES])
    (ns : Option String) (name : String) : roleAuthoringEscalationAllowed resource ns name user inner = false := by
  have hm := hp.notMaster user hu
  have he : isAllowed inner
      ((⟨"escalate", RBAC_GROUP, resource, "", ns, some name⟩ : ResourceRequest).by user) = false := by
    rw [← Bool.not_eq_true]
    exact fun h => hp.noEscalate resource hres ns name ⟨user, hu, h⟩
  simp only [roleAuthoringEscalationAllowed, he, Bool.or_false, any_eq_false]
  intro g hg
  simpa using fun h : g = "system:masters" => hm (h ▸ hg)

theorem checkClusterroleEscalation_ok (hu : user ∈ U)
    (h : checkClusterroleEscalation CLUSTER_ROLES RBAC_GROUP user body inner = .ok ()) :
    inner.clusterRoles.lookup (((body.idx "metadata").idx "name").asStr?.getD "") =
        some ((RbacRole.fromValue body).getD []) ∨
      ∀ rule ∈ (RbacRole.fromValue body).getD [], holdsRule user none inner rule := by
  simp only [checkClusterroleEscalation, ne_eq, not_true_eq_false, or_self, ↓reduceIte,
    authoring_refused hp hu (show CLUSTER_ROLES ∈ [ROLES, CLUSTER_ROLES] by simp),
    Bool.false_eq_true] at h
  split_ifs at h with hsame hheld hagg
  · exact .inl hsame.1
  all_goals exact .inr (by simpa [userHoldsAllRules] using hheld)

theorem checkRoleEscalation_ok (hu : user ∈ U) (h : checkRoleEscalation ROLES RBAC_GROUP ns user body inner = .ok ()) :
    inner.roles.lookup (ns, ((body.idx "metadata").idx "name").asStr?.getD "") =
        some ((RbacRole.fromValue body).getD []) ∨
      ∀ rule ∈ (RbacRole.fromValue body).getD [], holdsRule user (some ns) inner rule := by
  simp only [checkRoleEscalation, ne_eq, not_true_eq_false, or_self, ↓reduceIte,
    authoring_refused hp hu (show ROLES ∈ [ROLES, CLUSTER_ROLES] by simp), Bool.false_eq_true] at h
  split_ifs at h with hsame hheld
  · exact .inl hsame
  · exact .inr (by simpa [userHoldsAllRulesInNamespace] using hheld)

end

theorem growth_clusterRole (h : inner.clusterRoles.lookup name = some rules ∨
      ∀ rule ∈ rules, holdsRule user none inner rule) (aggregations : AList (fun _ : String => Json))
    (floors : Floors) :
    HeldGrowth user inner
      { inner with
        clusterRoles := inner.clusterRoles.insert name rules
        clusterRoleAggregations := aggregations
        floors := floors } := by
  refine ⟨?_, fun _ _ _ h => .inl h, fun _ h => .inl h, fun _ h => .inl h⟩
  intro n rule hr
  by_cases hn : n = name
  · subst hn
    rw [AList.lookup_insert] at hr
    rcases h with h | h
    · exact .inl (by rw [h]; exact hr)
    · exact .inr (h rule hr)
  · rw [AList.lookup_insert_ne hn] at hr
    exact .inl hr

theorem growth_role (h : inner.roles.lookup (ns, name) = some rules ∨
      ∀ rule ∈ rules, holdsRule user (some ns) inner rule) (floors : Floors) :
    HeldGrowth user inner
      { inner with roles := inner.roles.insert (ns, name) rules, floors := floors } := by
  refine ⟨fun _ _ h => .inl h, ?_, fun _ h => .inl h, fun _ h => .inl h⟩
  intro ns' n rule hr
  by_cases hn : (ns', n) = (ns, name)
  · cases hn
    rw [AList.lookup_insert] at hr
    rcases h with h | h
    · exact .inl (by rw [h]; exact hr)
    · exact .inr (h rule hr)
  · rw [AList.lookup_insert_ne hn] at hr
    exact .inl hr

theorem mem_setBinding (h : e ∈ setBinding key b bs) : e ∈ bs ∨ e = (key, b) := by
  simp only [setBinding, mem_append, mem_filter, mem_singleton] at h
  exact h.imp_left And.left

theorem growth_clusterRoleBinding (h : ∀ rule ∈ (inner.clusterRoles.lookup b.roleRef.name).getD [],
      holdsRule user none inner rule) (floors : Floors) :
    HeldGrowth user inner
      { inner with clusterBindings := setBinding key b inner.clusterBindings, floors := floors } := by
  refine ⟨fun _ _ h => .inl h, fun _ _ _ h => .inl h, ?_, fun _ h => .inl h⟩
  intro e he
  rcases mem_setBinding he with he | rfl
  · exact .inl he
  · right
    intro rule hr
    unfold resolveClusterRoleRules at hr
    split_ifs at hr
    · exact h rule hr
    · simp at hr

theorem growth_roleBinding {b : RbacBinding}
    (h : ∀ rule ∈ (if b.roleRef.kind = "Role" then inner.roles.lookup (ns, b.roleRef.name)
        else inner.clusterRoles.lookup b.roleRef.name).getD [],
      holdsRule user (some ns) inner rule) (floors : Floors) :
    HeldGrowth user inner
      { inner with
        namespaceBindings := setBinding key { b with ns := some ns } inner.namespaceBindings
        floors := floors } := by
  refine ⟨fun _ _ h => .inl h, fun _ _ _ h => .inl h, fun _ h => .inl h, ?_⟩
  intro e he
  rcases mem_setBinding he with he | rfl
  · exact .inl he
  · right
    intro rule hr
    simp only [resolveRoleRules] at hr ⊢
    split_ifs at hr with hg hk hc
    · simp at hr
    · exact h rule (by rw [if_pos hk]; exact hr)
    · exact h rule (by rw [if_neg hk]; exact hr)
    · simp at hr

end Checks

theorem except_seq_ok {ε : Type} {x y : Except ε Unit} (h : (do x; y) = .ok ()) : x = .ok () ∧ y = .ok () := by
  cases x with
  | error e => cases h
  | ok u => exact ⟨rfl, h⟩

theorem checkCrbEscalation_ok {inner : RbacInner} (hp : Unprivileged U inner)
    (hu : user ∈ U) (hn : ((body.idx "roleRef").idx "name").asStr? = some name)
    (h : checkCrbEscalation CLUSTER_ROLE_BINDINGS RBAC_GROUP user body inner = .ok ()) :
    ∀ rule ∈ (inner.clusterRoles.lookup name).getD [], holdsRule user none inner rule := by
  simp only [checkCrbEscalation] at h
  cases hr : bindingRoleRef body ["ClusterRole"] with
  | error e =>
    rw [hr] at h
    cases h
  | ok p =>
    obtain ⟨kind, name'⟩ := p
    rw [hr] at h
    obtain ⟨-, rfl⟩ := bindingRoleRef_ok hr
    rw [hn] at h
    exact checkBinding_ok hp hu (by simp) h

theorem checkRbEscalation_ok {inner : RbacInner} (hp : Unprivileged U inner) (hu : user ∈ U)
    (hk : ((body.idx "roleRef").idx "kind").asStr? = some kind)
    (hn : ((body.idx "roleRef").idx "name").asStr? = some name)
    (h : checkRbEscalation ROLE_BINDINGS RBAC_GROUP ns user body inner = .ok ()) :
    ∀ rule ∈ (if kind = "Role" then inner.roles.lookup (ns, name)
        else inner.clusterRoles.lookup name).getD [],
      holdsRule user (some ns) inner rule := by
  simp only [checkRbEscalation] at h
  cases hr : bindingRoleRef body ["Role", "ClusterRole"] with
  | error e =>
    rw [hr] at h
    cases h
  | ok p =>
    obtain ⟨kind', name'⟩ := p
    rw [hr] at h
    obtain ⟨rfl, rfl⟩ := bindingRoleRef_ok hr
    rw [hk, hn] at h
    refine checkBinding_ok hp hu ?_ h
    split_ifs <;> simp

theorem handleWrite_growth (hp : Unprivileged U x.inner)
    (hu : w.user ∈ U) : HeldGrowth w.user x.inner (handleWrite x w).inner := by
  have hsame : HeldGrowth w.user x.inner x.inner := .of_same rfl rfl rfl rfl
  unfold handleWrite
  cases hk : parseRbacKey w.key with
  | none => exact hsame
  | some k =>
    cases hc : checkWrite x.inner w k with
    | error e =>
      simp only [hc]
      exact hsame
    | ok u =>
      cases hst : storedBody w k with
      | none =>
        simp only [hc, hst]
        exact hsame
      | some stored =>
        simp only [hc, hst]
        split_ifs with hname
        · simp only [RbacIndex.applyObject]
          obtain ⟨floors, he⟩ | ⟨k', inner', floors, hk', hi, he⟩ :=
            applyObject_cases x.inner w.key stored
          · rw [he]
            exact .of_same rfl rfl rfl rfl
          · rw [hk] at hk'
            cases hk'
            rw [he]
            cases k with
            | clusterRole name =>
              obtain ⟨rules, hr, rfl⟩ := Option.map_eq_some_iff.mp hi
              apply growth_clusterRole
              rw [← stored_rules hst hr]
              rcases checkClusterroleEscalation_ok hp hu (except_seq_ok hc).2 with h | h
              · rcases hname with hname | hname
                · exact .inl (hname ▸ h)
                · rw [hname, x.named.clusterRoles] at h
                  cases h
              · exact .inr h
            | role ns name =>
              obtain ⟨rules, hr, rfl⟩ := Option.map_eq_some_iff.mp hi
              apply growth_role
              rw [← stored_rules hst hr]
              rcases checkRoleEscalation_ok hp hu (except_seq_ok hc).2 with h | h
              · rcases hname with hname | hname
                · exact .inl (hname ▸ h)
                · rw [hname, x.named.roles] at h
                  cases h
              · exact .inr h
            | clusterRoleBinding =>
              obtain ⟨b, hb, rfl⟩ := Option.map_eq_some_iff.mp hi
              obtain ⟨body', hd, hm⟩ := Option.bind_eq_some_iff.mp hst
              obtain ⟨-, hn⟩ := stored_roleRef hd hm hb
              exact growth_clusterRoleBinding (checkCrbEscalation_ok hp hu hn (except_seq_ok hc).1) _
            | roleBinding ns =>
              obtain ⟨b, hb, rfl⟩ := Option.map_eq_some_iff.mp hi
              obtain ⟨body', hd, hm⟩ := Option.bind_eq_some_iff.mp hst
              obtain ⟨hkind, hn⟩ := stored_roleRef hd hm hb
              exact growth_roleBinding (checkRbEscalation_ok hp hu hkind hn (except_seq_ok hc).1) _
        · exact hsame

theorem wideGranted_of_no_starSlash {inner : RbacInner}
    (h : ∀ u ∈ U, ∀ ns, ∀ rule ∈ boundRules inner u ns, "*/" ∉ rule.resources)
    (hq : WideGranted U inner q) : Granted U inner q := by
  obtain ⟨u, hu, rule, hr, hc⟩ := hq
  have hid : widen rule = rule := by
    have hmap : rule.resources.map (fun r => if r = "*/" then "*" else r) = rule.resources := by
      conv_rhs => rw [← map_id rule.resources]
      apply map_congr_left
      intro r hr'
      exact if_neg (fun he : r = "*/" => h u hu _ rule hr (he ▸ hr'))
    unfold widen
    split_ifs
    · rw [hmap]
    · rfl
  exact ⟨u, hu, isAllowed_iff.mpr ⟨rule, hr, hid ▸ hc⟩⟩

/-- What the members of `U` may do never grows, provided that reading the text `"*/"` as `"*"` would give them
nothing they lack. -/
theorem no_escalation (U : Set UserInfo) (x : RbacIndex) (hp : Unprivileged U x.inner)
    (hw : ∀ q, WideGranted U x.inner q → Granted U x.inner q) (ws : List RbacWrite)
    (hu : ∀ w ∈ ws, w.user ∈ U) (q : ResourceRequest)
    (hq : Granted U (run handleWrite x ws).inner q) : Granted U x.inner q := by
  -- the widened grants shrink at every step, also where the plain ones would not
  have hstep : ∀ (y : RbacIndex) (w : RbacWrite),
      (∀ q, WideGranted U y.inner q → WideGranted U x.inner q) → w.user ∈ U →
      ∀ q, WideGranted U (handleWrite y w).inner q → WideGranted U x.inner q := by
    intro y w hy hw' q hq
    have hback : ∀ q, Granted U y.inner q → Granted U x.inner q := fun q hq => hw q (hy q hq.wide)
    have hpy : Unprivileged U y.inner :=
      ⟨hp.notMaster, fun r hr ns name h => hp.noBind r hr ns name (hback _ h),
        fun r hr ns name h => hp.noEscalate r hr ns name (hback _ h)⟩
    exact hy q ((handleWrite_growth hpy hw').wideGranted hw' hq)
  have hrun := (along_of_forall hu).invariant
    (fun y : RbacIndex => ∀ q, WideGranted U y.inner q → WideGranted U x.inner q) hstep
    (fun _ h => h)
  exact hw q (hrun q hq.wide)

def alice : UserInfo := ⟨"alice", ["system:authenticated"]⟩

def clusterRoleBody (name group resource verb : String) : Json :=
  .obj [("metadata", .obj [("name", .str name)]),
    ("rules", .arr [.obj [("apiGroups", .arr [.str group]), ("resources", .arr [.str resource]),
      ("verbs", .arr [.str verb])]])]

def clusterRoleBindingBody (name : String) : Json :=
  .obj [("metadata", .obj [("name", .str name)]),
    ("roleRef", .obj [("apiGroup", .str RBAC_GROUP), ("kind", .str "ClusterRole"), ("name", .str name)]),
    ("subjects", .arr [.obj [("kind", .str "User"), ("name", .str "alice")]])]

def aliceBound (group resource verb : String) : RbacIndex :=
  (RbacIndex.new.applyObject "/apis/rbac.authorization.k8s.io/v1/clusterroles/a"
    (clusterRoleBody "a" group resource verb)).applyObject
    "/apis/rbac.authorization.k8s.io/v1/clusterrolebindings/a" (clusterRoleBindingBody "a")

def aliceWrites (group resource verb : String) : List RbacWrite :=
  [⟨alice, "/apis/rbac.authorization.k8s.io/v1/clusterroles/b", clusterRoleBody "b" group resource verb,
      .obj [("name", .str "b")]⟩,
    ⟨alice, "/apis/rbac.authorization.k8s.io/v1/clusterrolebindings/b", clusterRoleBindingBody "b",
      .obj [("name", .str "b")]⟩]

theorem unprivileged_alice {x : RbacIndex}
    (h : ∀ verb ∈ ["bind", "escalate"], ∀ resource ∈ [ROLES, CLUSTER_ROLES], ∀ ns name,
      isAllowed x.inner
        ((⟨verb, RBAC_GROUP, resource, "", ns, some name⟩ : ResourceRequest).by alice) = false) :
    Unprivileged {alice} x.inner := by
  refine ⟨?_, ?_, ?_⟩
  · rintro u rfl
    decide
  · rintro resource hr ns name ⟨u, rfl, ha⟩
    rw [h "bind" (by simp) resource hr] at ha
    cases ha
  · rintro resource hr ns name ⟨u, rfl, ha⟩
    rw [h "escalate" (by simp) resource hr] at ha
    cases ha

theorem starSlash_escalates :
    Unprivileged {alice} (aliceBound "*" "*/" "*").inner ∧
    (∀ w ∈ aliceWrites "*" "*" "*", w.user ∈ ({alice} : Set UserInfo)) ∧
    ¬ Granted {alice} (aliceBound "*" "*/" "*").inner ⟨"get", "", "secrets", "", none, none⟩ ∧
    Granted {alice} (run handleWrite (aliceBound "*" "*/" "*") (aliceWrites "*" "*" "*")).inner
      ⟨"get", "", "secrets", "", none, none⟩ := by
  refine ⟨unprivileged_alice ?_, by simp [aliceWrites], ?_, alice, rfl, by decide⟩
  · simp only [forall_mem_cons, not_mem_nil, false_imp_iff, implies_true, and_true]
    refine ⟨⟨?_, ?_⟩, ?_, ?_⟩ <;> rintro (_ | ns) name <;> rfl
  · rintro ⟨u, rfl, h⟩
    revert h
    decide

theorem no_escalation_alice :
    Granted {alice} (run handleWrite (aliceBound "" "pods" "get") (aliceWrites "" "pods" "get")).inner
        ⟨"get", "", "pods", "", none, none⟩ ∧
      Granted {alice} (aliceBound "" "pods" "get").inner ⟨"get", "", "pods", "", none, none⟩ := by
  have hend : Granted {alice}
      (run handleWrite (aliceBound "" "pods" "get") (aliceWrites "" "pods" "get")).inner
      ⟨"get", "", "pods", "", none, none⟩ := ⟨alice, rfl, by decide⟩
  refine ⟨hend, no_escalation {alice} _ (unprivileged_alice ?_) ?_ _ (by simp [aliceWrites]) _ hend⟩
  · simp only [forall_mem_cons, not_mem_nil, false_imp_iff, implies_true, and_true]
    refine ⟨⟨?_, ?_⟩, ?_, ?_⟩ <;> rintro (_ | ns) name <;> rfl
  · intro q
    apply wideGranted_of_no_starSlash
    have hb : ∀ ns, boundRules (aliceBound "" "pods" "get").inner alice ns =
        [⟨[""], ["pods"], ["get"], [], []⟩] := by
      rintro (_ | ns) <;> rfl
    rintro u rfl ns
    rw [hb]
    decide

end U7s.Rbac
