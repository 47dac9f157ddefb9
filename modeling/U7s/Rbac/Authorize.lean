import U7s.Rbac.Index

namespace U7s.Rbac

def RBAC_GROUP : String := "rbac.authorization.k8s.io"

structure AuthzRequest where
  username : String
  groups : List String
  verb : String
  apiGroup : String
  resource : String
  subresource : String
  ns : Option String
  name : Option String
  nonResourceUrl : Option String
  deriving DecidableEq

def subjectMatches (b : RbacBinding) (username : String) (groups : List String) : Bool :=
  b.subjects.any (fun s =>
    if s.kind = "User" then s.name = username
    else if s.kind = "Group" then groups.any (fun g => g = s.name)
    else if s.kind = "ServiceAccount" then
      username = "system:serviceaccount:" ++ s.ns.getD "" ++ ":" ++ s.name
    else false)

def resolveClusterRoleRules (inner : RbacInner) (ref : RoleRef) : List PolicyRule :=
  if ref.kind = "ClusterRole" ∧ ref.apiGroup = RBAC_GROUP then
    (inner.clusterRoles.lookup ref.name).getD []
  else []

def resolveRoleRules (inner : RbacInner) (ref : RoleRef) (ns : String) : List PolicyRule :=
  if ref.apiGroup ≠ RBAC_GROUP then []
  else if ref.kind = "Role" then (inner.roles.lookup (ns, ref.name)).getD []
  else if ref.kind = "ClusterRole" then (inner.clusterRoles.lookup ref.name).getD []
  else []

/-- `"*/"` is read as the pair of `"*"` and no subresource, so it matches a request for the resource literally named
`"*"`. -/
def resourceTextMatches (resource subresource r : String) : Bool :=
  r = "*" ||
  (match Text.splitOnce '/' r with
    | some (res, sub) => res = resource && sub = subresource
    | none => subresource = "" && r = resource) ||
  (subresource ≠ "" && (Text.stripPrefix "*/" r).any (fun sub => sub = subresource))

def resourceMatches (ruleResources : List String) (resource subresource : String) : Bool :=
  ruleResources.any (resourceTextMatches resource subresource)

def ruleCovers (rule : PolicyRule) (req : AuthzRequest) : Bool :=
  rule.apiGroups.any (fun g => g = "*" || g = req.apiGroup) &&
  rule.verbs.any (fun v => v = "*" || v = req.verb) &&
  resourceMatches rule.resources req.resource req.subresource &&
  (rule.resourceNames.isEmpty || req.name.any (fun n => rule.resourceNames.any (fun rn => rn = n)))

def rulesAllow (rules : List PolicyRule) (req : AuthzRequest) : Bool :=
  rules.any (fun rule => ruleCovers rule req)

def nonResourceUrlMatches (pattern url : String) : Bool :=
  pattern = "*" ||
  (match Text.stripSuffix '*' pattern with
    | some p => Text.startsWith url p
    | none => pattern = url)

def rulesAllowNonResource (rules : List PolicyRule) (verb url : String) : Bool :=
  rules.any (fun rule => !rule.nonResourceUrls.isEmpty &&
    rule.verbs.any (fun v => v = "*" || v = verb) &&
    rule.nonResourceUrls.any (fun p => nonResourceUrlMatches p url))

def someBinding (inner : RbacInner) (req : AuthzRequest) (allow : List PolicyRule → Bool) : Bool :=
  inner.clusterBindings.any (fun e =>
    subjectMatches e.2 req.username req.groups && allow (resolveClusterRoleRules inner e.2.roleRef)) ||
  req.ns.any (fun ns => inner.namespaceBindings.any (fun e =>
    e.2.ns.getD "" = ns && subjectMatches e.2 req.username req.groups &&
      allow (resolveRoleRules inner e.2.roleRef ns)))

def isAllowed (inner : RbacInner) (req : AuthzRequest) : Bool :=
  match req.nonResourceUrl with
  | some url => someBinding inner req (fun rules => rulesAllowNonResource rules req.verb url)
  | none => someBinding inner req (fun rules => rulesAllow rules req)

structure UserInfo where
  username : String
  groups : List String
  deriving DecidableEq

structure ResourceRequest where
  verb : String
  apiGroup : String
  resource : String
  subresource : String
  ns : Option String
  name : Option String
  deriving DecidableEq

def ResourceRequest.by (q : ResourceRequest) (u : UserInfo) : AuthzRequest :=
  ⟨u.username, u.groups, q.verb, q.apiGroup, q.resource, q.subresource, q.ns, q.name, none⟩

def nonResourceRequest (u : UserInfo) (verb url : String) : AuthzRequest :=
  ⟨u.username, u.groups, verb, "", "", "", none, none, some url⟩

def holdsRule (u : UserInfo) (ns : Option String) (inner : RbacInner) (rule : PolicyRule) : Bool :=
  rule.apiGroups.all (fun g => rule.resources.all (fun r => rule.verbs.all (fun v =>
    isAllowed inner ((⟨v, g, r, "", ns, none⟩ : ResourceRequest).by u)))) &&
  rule.nonResourceUrls.all (fun url => rule.verbs.all (fun v =>
    isAllowed inner (nonResourceRequest u v url)))

def userHoldsAllRules (u : UserInfo) (rules : List PolicyRule) (inner : RbacInner) : Bool :=
  rules.all (holdsRule u none inner)

def userHoldsAllRulesInNamespace (u : UserInfo) (rules : List PolicyRule) (ns : String)
    (inner : RbacInner) : Bool :=
  rules.all (holdsRule u (some ns) inner)

def boundRules (inner : RbacInner) (u : UserInfo) (ns : Option String) : List PolicyRule :=
  (inner.clusterBindings.filter (fun e => subjectMatches e.2 u.username u.groups)).flatMap
    (fun e => resolveClusterRoleRules inner e.2.roleRef) ++
  ns.toList.flatMap (fun ns =>
    (inner.namespaceBindings.filter (fun e =>
      e.2.ns.getD "" = ns && subjectMatches e.2 u.username u.groups)).flatMap
        (fun e => resolveRoleRules inner e.2.roleRef ns))

theorem someBinding_iff {inner : RbacInner} {req : AuthzRequest} {covers : PolicyRule → Bool} :
    someBinding inner req (fun rules => rules.any covers) ↔
      ∃ rule ∈ boundRules inner ⟨req.username, req.groups⟩ req.ns, covers rule := by
  simp only [someBinding, boundRules, List.mem_append, List.mem_flatMap, List.mem_filter,
    Option.mem_toList, Bool.or_eq_true, List.any_eq_true, Option.any_eq_true, Bool.and_eq_true]
  constructor
  · rintro (⟨e, he, hs, rule, hr, hc⟩ | ⟨ns, hns, e, he, ⟨hb, hs⟩, rule, hr, hc⟩)
    · exact ⟨rule, .inl ⟨e, ⟨he, hs⟩, hr⟩, hc⟩
    · exact ⟨rule, .inr ⟨ns, hns, e, ⟨he, hb, hs⟩, hr⟩, hc⟩
  · rintro ⟨rule, ⟨e, ⟨he, hs⟩, hr⟩ | ⟨ns, hns, e, ⟨he, hb, hs⟩, hr⟩, hc⟩
    · exact .inl ⟨e, he, hs, rule, hr, hc⟩
    · exact .inr ⟨ns, hns, e, he, ⟨hb, hs⟩, rule, hr, hc⟩

theorem isAllowed_iff {inner : RbacInner} {q : ResourceRequest} :
    isAllowed inner (q.by u) ↔ ∃ rule ∈ boundRules inner u q.ns, ruleCovers rule (q.by u) :=
  someBinding_iff

theorem isAllowed_nonResource_iff {inner : RbacInner} {u : UserInfo} {verb url : String} :
    isAllowed inner (nonResourceRequest u verb url) ↔
      ∃ rule ∈ boundRules inner u none, (∃ v ∈ rule.verbs, v = "*" ∨ v = verb) ∧
        ∃ p ∈ rule.nonResourceUrls, nonResourceUrlMatches p url := by
  refine Iff.trans (@someBinding_iff inner (nonResourceRequest u verb url) (fun rule =>
    !rule.nonResourceUrls.isEmpty && rule.verbs.any (fun v => v = "*" || v = verb) &&
      rule.nonResourceUrls.any (fun p => nonResourceUrlMatches p url))) ?_
  apply exists_congr
  intro rule
  apply and_congr_right
  intro _
  simp only [Bool.and_eq_true, Bool.or_eq_true, List.any_eq_true, decide_eq_true_eq,
    Bool.not_eq_true', List.isEmpty_eq_false_iff, and_assoc]
  constructor
  · rintro ⟨-, hv, hp⟩
    exact ⟨hv, hp⟩
  · rintro ⟨hv, p, hp, hm⟩
    exact ⟨List.ne_nil_of_mem hp, hv, p, hp, hm⟩

theorem boundRules_none_subset {inner : RbacInner} :
    boundRules inner u none ⊆ boundRules inner u ns := by
  intro rule hr
  simp only [boundRules, Option.toList_none, List.flatMap_nil, List.append_nil] at hr
  exact List.mem_append_left _ hr

end U7s.Rbac
