import U7s.Lib.Runs
import U7s.Rbac.Probe

namespace U7s.Rbac

open Runs

def CLUSTER_ROLE_BINDINGS : String := "clusterrolebindings"
def CLUSTER_ROLES : String := "clusterroles"
def ROLES : String := "roles"
def ROLE_BINDINGS : String := "rolebindings"

inductive StatusError where
  | unprocessableEntity (msg : String)
  | notFound (group resource name : String)
  | forbidden (msg : String)
  deriving DecidableEq

def debugList (xs : List String) : String :=
  "[" ++ String.intercalate ", " (xs.map (fun x => "\"" ++ x ++ "\"")) ++ "]"

def bindingRoleRef (body : Json) (allowedKinds : List String) :
    Except StatusError (String × String) :=
  let field := fun key => ((body.idx "roleRef").idx key).asStr?.getD ""
  let invalid := fun msg => Except.error (StatusError.unprocessableEntity ("roleRef: " ++ msg))
  let apiGroup := if field "apiGroup" = "" then RBAC_GROUP else field "apiGroup"
  if apiGroup ≠ RBAC_GROUP then
    invalid ("Unsupported value: \"" ++ apiGroup ++ "\": supported values: \"" ++ RBAC_GROUP ++ "\"")
  else if field "kind" ∉ allowedKinds then
    invalid ("Unsupported value: \"" ++ field "kind" ++ "\": supported values: " ++ debugList allowedKinds)
  else if field "name" = "" then invalid "Required value: name"
  else .ok (field "kind", field "name")

def checkBinding (user : UserInfo) (ns : Option String) (resource name : String)
    (roleRules : Option (List PolicyRule)) (refusal : String) (inner : RbacInner) :
    Except StatusError Unit :=
  if isAllowed inner ((⟨"bind", RBAC_GROUP, resource, "", ns, some name⟩ : ResourceRequest).by user) then
    .ok ()
  else match roleRules with
    | none => .error (.notFound RBAC_GROUP resource name)
    | some rules => if rules.all (holdsRule user ns inner) then .ok () else .error (.forbidden refusal)

def checkCrbEscalation (plural group : String) (user : UserInfo) (body : Json) (inner : RbacInner) :
    Except StatusError Unit :=
  if group ≠ RBAC_GROUP ∨ plural ≠ CLUSTER_ROLE_BINDINGS then .ok ()
  else do
    let (_, name) ← bindingRoleRef body ["ClusterRole"]
    checkBinding user none CLUSTER_ROLES name (clusterRoleRulesIfExists inner name)
      "cannot escalate privileges: user does not hold all rules of the referenced ClusterRole" inner

def checkRbEscalation (plural group ns : String) (user : UserInfo) (body : Json) (inner : RbacInner) :
    Except StatusError Unit :=
  if group ≠ RBAC_GROUP ∨ plural ≠ ROLE_BINDINGS then .ok ()
  else do
    let (kind, name) ← bindingRoleRef body ["Role", "ClusterRole"]
    let roleRules := if kind = "Role" then roleRulesIfExists inner ns name
      else clusterRoleRulesIfExists inner name
    let resource := if kind = "Role" then ROLES else CLUSTER_ROLES
    checkBinding user (some ns) resource name roleRules
      "cannot escalate privileges: user does not hold all rules of the referenced Role in this namespace"
      inner

def roleAuthoringEscalationAllowed (resource : String) (ns : Option String) (roleName : String)
    (user : UserInfo) (inner : RbacInner) : Bool :=
  user.groups.any (fun g => g = "system:masters") ||
  isAllowed inner
    ((⟨"escalate", RBAC_GROUP, resource, "", ns, some roleName⟩ : ResourceRequest).by user)

def fullAuthority : List PolicyRule := [⟨["*"], ["*"], ["*"], [], []⟩, ⟨[], [], ["*"], [], ["*"]⟩]

def checkClusterroleEscalation (plural group : String) (user : UserInfo) (body : Json)
    (inner : RbacInner) : Except StatusError Unit :=
  if group ≠ RBAC_GROUP ∨ plural ≠ CLUSTER_ROLES then .ok ()
  else
    let roleName := ((body.idx "metadata").idx "name").asStr?.getD ""
    if roleAuthoringEscalationAllowed CLUSTER_ROLES none roleName user inner then .ok ()
    else
      let roleRules := (RbacRole.fromValue body).getD []
      let newAggregation := aggregationSelectors body
      let oldAggregation := clusterRoleAggregation inner roleName
      if clusterRoleRulesIfExists inner roleName = some roleRules ∧ newAggregation = oldAggregation then
        .ok ()
      else if !userHoldsAllRules user roleRules inner then
        .error (.forbidden ("cannot escalate privileges: user does not hold all rules of the ClusterRole " ++
          "and lacks the escalate verb"))
      else if (newAggregation.isSome || oldAggregation.isSome) &&
          !userHoldsAllRules user fullAuthority inner then
        .error (.forbidden "must have cluster-admin privileges to use the aggregationRule")
      else .ok ()

def checkRoleEscalation (plural group ns : String) (user : UserInfo) (body : Json)
    (inner : RbacInner) : Except StatusError Unit :=
  if group ≠ RBAC_GROUP ∨ plural ≠ ROLES then .ok ()
  else
    let roleName := ((body.idx "metadata").idx "name").asStr?.getD ""
    if roleAuthoringEscalationAllowed ROLES (some ns) roleName user inner then .ok ()
    else
      let roleRules := (RbacRole.fromValue body).getD []
      if roleRulesIfExists inner ns roleName = some roleRules then .ok ()
      else if !userHoldsAllRulesInNamespace user roleRules ns inner then
        .error (.forbidden ("cannot escalate privileges: user does not hold all rules of the Role in this namespace " ++
          "and lacks the escalate verb"))
      else .ok ()

def defaultRoleRefApiGroup (obj : Json) : Option Json :=
  let reset := Json.obj [("apiGroup", .str RBAC_GROUP)]
  obj.setIdx "roleRef" (match obj.idx "roleRef" with
    | .obj fs =>
      match Json.lookup "apiGroup" fs with
      | some (.str g) => if g = "" then .obj (Json.insert "apiGroup" (.str RBAC_GROUP) fs) else .obj fs
      | none | some .null => .obj (Json.insert "apiGroup" (.str RBAC_GROUP) fs)
      | some _ => reset
    | _ => reset)

structure RbacWrite where
  user : UserInfo
  key : String
  body : Json
  metadata : Json

def checkWrite (inner : RbacInner) (w : RbacWrite) : RbacKey → Except StatusError Unit
  | .clusterRole _ => do
    checkCrbEscalation CLUSTER_ROLES RBAC_GROUP w.user w.body inner
    checkClusterroleEscalation CLUSTER_ROLES RBAC_GROUP w.user w.body inner
  | .clusterRoleBinding => do
    checkCrbEscalation CLUSTER_ROLE_BINDINGS RBAC_GROUP w.user w.body inner
    checkClusterroleEscalation CLUSTER_ROLE_BINDINGS RBAC_GROUP w.user w.body inner
  | .role ns _ => do
    checkRbEscalation ROLES RBAC_GROUP ns w.user w.body inner
    checkRoleEscalation ROLES RBAC_GROUP ns w.user w.body inner
  | .roleBinding ns => do
    checkRbEscalation ROLE_BINDINGS RBAC_GROUP ns w.user w.body inner
    checkRoleEscalation ROLE_BINDINGS RBAC_GROUP ns w.user w.body inner

def nameAgrees (k : RbacKey) (body : Json) : Prop :=
  let bodyName := ((body.idx "metadata").idx "name").asStr?.getD ""
  match k with
  | .clusterRole name => bodyName = name ∨ bodyName = ""
  | .role _ name => bodyName = name ∨ bodyName = ""
  | _ => True

instance (k : RbacKey) (body : Json) : Decidable (nameAgrees k body) :=
  match k with
  | .clusterRole _ => inferInstanceAs (Decidable (_ ∨ _))
  | .role _ _ => inferInstanceAs (Decidable (_ ∨ _))
  | .clusterRoleBinding => inferInstanceAs (Decidable True)
  | .roleBinding _ => inferInstanceAs (Decidable True)

def storedBody (w : RbacWrite) (k : RbacKey) : Option Json :=
  let body := match k with
    | .clusterRoleBinding | .roleBinding _ => defaultRoleRefApiGroup w.body
    | _ => some w.body
  body.bind (fun b => b.setIdx "metadata" w.metadata)

def handleWrite (x : RbacIndex) (w : RbacWrite) : RbacIndex :=
  match parseRbacKey w.key with
  | none => x
  | some k =>
    match checkWrite x.inner w k, storedBody w k with
    | .ok (), some stored => if nameAgrees k w.body then x.applyObject w.key stored else x
    | _, _ => x

end U7s.Rbac
