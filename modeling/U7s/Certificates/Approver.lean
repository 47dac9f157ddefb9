import U7s.Json
import U7s.Lib.Addresses
import U7s.Lib.Text

/-! The approver of kubelet serving certificates. The sweep is given what each of its store reads returns. -/

namespace U7s.Certificates

open Addresses

inductive GeneralName where
  | dnsName (d : String)
  | ipAddress (raw : List (Fin 256))
  | other
deriving DecidableEq

/-- The decoded attributes of the subject, and the subject alternative names of each extension request, where they
decode. -/
structure CertReq where
  subject : List (String × Option String)
  extensionRequests : List (Option (List (Option (List GeneralName))))

structure Decoders where
  parseIp : String → Option IpAddr
  parseLen : String → Option ℕ
  request : String → Option CertReq

inductive Reason where
  | notNode (username : String)
  | notInNodesGroup (username : String)
  | usages (usages : List String)
  | request
  | undecodableAttribute
  | unexpectedAttribute (oid : String)
  | commonName (cn : List String)
  | organization (orgs : List String)
  | extensionRequest
  | sanExtension
  | noSan
  | noNode (nodeName : String)
  | dnsSan (d : String)
  | ipSan (ip : IpAddr)
  | octets
  | sanType
  | special (ip : IpAddr)
  | serviceCidr (ip : IpAddr)
  | podCidr (ip : IpAddr) (owner : String)
  | apiserver (ip : IpAddr)
  | otherNode (ip : IpAddr) (nodeName : String)
deriving DecidableEq

def KUBELET_SERVING_SIGNER : String := "kubernetes.io/kubelet-serving"
def NODE_USER_PREFIX : String := "system:node:"
def NODES_GROUP : String := "system:nodes"
def OID_COMMON_NAME : String := "2.5.4.3"
def OID_ORGANIZATION : String := "2.5.4.10"
def USAGES_RSA : List String := ["digital signature", "key encipherment", "server auth"]
def USAGES_NO_RSA : List String := ["digital signature", "server auth"]

structure IpContext where
  otherNodeIps : List IpAddr
  serviceCidrs : List (IpAddr × ℕ)
  apiserverIps : List IpAddr
  podCidrs : List (String × IpAddr × ℕ)

def arrayAt (j : Json) (k : String) : List Json := ((j.idx k).asArray?).getD []

def nodeName? (node : Json) : Option String := ((node.idx "metadata").idx "name").asStr?

def addressesOf (node : Json) : List Json := arrayAt (node.idx "status") "addresses"

section Addresses

variable (D : Decoders)

def writtenCidrs (node : Json) : List (IpAddr × ℕ) :=
  ((arrayAt (node.idx "spec") "podCIDRs" ++ [(node.idx "spec").idx "podCIDR"]).filterMap Json.asStr?).filterMap
    (fun c => (Text.splitOnce '/' c).bind (fun (base, len) =>
      (D.parseIp base).bind (fun base => (D.parseLen len).map (fun len => (base, len)))))

def podCidrsOf (node : Json) : List (String × IpAddr × ℕ) :=
  (writtenCidrs D node).filterMap (fun (base, len) =>
    if len ≤ base.toCanonical.width then some ((nodeName? node).getD "", base.toCanonical, len) else none)

def reportedIps (node : Json) : List IpAddr :=
  (addressesOf node).filterMap (fun a => (a.idx "address").asStr?.bind D.parseIp)

def reportedDns (node : Json) : List String :=
  (addressesOf node).filterMap (fun a => (a.idx "address").asStr?.bind (fun addr =>
    if (a.idx "type").asStr?.any (fun t => t = "Hostname" || t = "InternalDNS" || t = "ExternalDNS") then some addr
    else none))

def nodeIps (node : Json) : List IpAddr :=
  (addressesOf node).filterMap (fun a => (a.idx "address").asStr?.bind (fun addr =>
    if (a.idx "type").asStr?.any (fun t => t = "InternalIP" || t = "ExternalIP") then D.parseIp addr else none))

def nodeAddresses (node : Json) (nodeName : String) : List String × List IpAddr :=
  (nodeName :: reportedDns node, nodeIps D node)

end Addresses

def ipFromOctets (b : List (Fin 256)) : Option IpAddr := IpAddr.ofOctets b

def isSpecial (ip : IpAddr) : Bool := ip.isLoopback || ip.isUnspecified || ip.isLinkLocal || ip.isMulticast

def IpContext.checkIp (ctx : IpContext) (ip : IpAddr) (nodeName : String) : Except Reason Unit :=
  let ip := ip.toCanonical
  if isSpecial ip then .error (.special ip)
  else if ctx.serviceCidrs.any (fun c => rangeContains c.1 c.2 ip) then .error (.serviceCidr ip)
  else match ctx.podCidrs.find? (fun c => cidrContains c.2.1 c.2.2 ip) with
    | some c => .error (.podCidr ip c.1)
    | none =>
      if ctx.apiserverIps.any (fun a => a.toCanonical = ip) then .error (.apiserver ip)
      else if ip ∈ ctx.otherNodeIps then .error (.otherNode ip nodeName)
      else .ok ()

def subjectAltNames (req : CertReq) : Except Reason (List GeneralName) :=
  req.extensionRequests.foldlM (fun out value =>
    match value with
    | none => .error .extensionRequest
    | some exts => exts.foldlM (fun out san =>
        match san with
        | none => .error .sanExtension
        | some names => .ok (out ++ names)) out) []

def subjectNames (req : CertReq) : Except Reason (List String × List String) :=
  req.subject.foldlM (fun (cn, orgs) atv =>
    match atv with
    | (_, none) => .error .undecodableAttribute
    | (oid, some value) =>
      if oid = OID_COMMON_NAME then .ok (cn ++ [value], orgs)
      else if oid = OID_ORGANIZATION then .ok (cn, orgs ++ [value])
      else .error (.unexpectedAttribute oid)) ([], [])

def checkSan (node : List String × List IpAddr) (nodeName : String) (ctx : IpContext) :
    GeneralName → Except Reason Unit
  | .dnsName d => if d ∈ node.1 then .ok () else .error (.dnsSan d)
  | .ipAddress raw =>
    match ipFromOctets raw with
    | some ip => if ip ∈ node.2 then ctx.checkIp ip nodeName else .error (.ipSan ip)
    | none => .error .octets
  | .other => .error .sanType

def checkSans (node : List String × List IpAddr) (nodeName : String) (ctx : IpContext) :
    List GeneralName → Except Reason Unit
  | [] => .ok ()
  | san :: sans => do
    checkSan node nodeName ctx san
    checkSans node nodeName ctx sans

def usernameOf (csr : Json) : String := ((csr.idx "spec").idx "username").asStr?.getD ""

def usagesOf (csr : Json) : List String := (arrayAt (csr.idx "spec") "usages").filterMap Json.asStr?

def inNodesGroup (csr : Json) : Bool :=
  (arrayAt (csr.idx "spec") "groups").any (fun v => v.asStr? = some NODES_GROUP)

section Evaluate

variable (D : Decoders)

def requestOf (csr : Json) : Option CertReq := D.request (((csr.idx "spec").idx "request").asStr?.getD "")

def evaluate (csr : Json) (node : Option Json) (ctx : IpContext) : Except Reason Unit := do
  let username := usernameOf csr
  let nodeName ← match (Text.stripPrefix NODE_USER_PREFIX username).filter (fun n => n ≠ "") with
    | some n => pure n
    | none => .error (.notNode username)
  if !inNodesGroup csr then .error (.notInNodesGroup username)
  if (usagesOf csr).toFinset ≠ USAGES_RSA.toFinset ∧ (usagesOf csr).toFinset ≠ USAGES_NO_RSA.toFinset then
    .error (.usages (usagesOf csr))
  let req ← match requestOf D csr with
    | some req => pure req
    | none => .error .request
  let (cn, orgs) ← subjectNames req
  if cn ≠ [username] then .error (.commonName cn)
  if orgs ≠ [NODES_GROUP] then .error (.organization orgs)
  let sans ← subjectAltNames req
  if sans = [] then .error .noSan
  match node with
  | none => .error (.noNode nodeName)
  | some node => checkSans (nodeAddresses D node nodeName) nodeName ctx sans

structure Config where
  serviceCidrs : List (IpAddr × ℕ)
  apiserverIps : List IpAddr
  localNodeName : Option String

def forbiddenApiserverIps (cfg : Config) (nodeName : String) : List IpAddr :=
  if nodeName ≠ "" ∧ cfg.localNodeName = some nodeName then [] else cfg.apiserverIps

def isUndecided (csr : Json) : Bool :=
  ((csr.idx "spec").idx "signerName").asStr? = some KUBELET_SERVING_SIGNER &&
    ((csr.idx "status").idx "certificate").asStr?.getD "" = "" &&
    !(arrayAt (csr.idx "status") "conditions").any (fun c =>
      (c.idx "type").asStr?.any (fun t => t = "Approved" || t = "Denied" || t = "Failed"))

def nodeNameOf (csr : Json) : String :=
  (((csr.idx "spec").idx "username").asStr?.bind (Text.stripPrefix NODE_USER_PREFIX)).getD ""

def contextFor (cfg : Config) (nodeName : String) (nodes : List Json) : IpContext where
  otherNodeIps := (nodes.filter (fun n => nodeName? n ≠ some nodeName)).flatMap
    (fun n => (reportedIps D n).map IpAddr.toCanonical)
  serviceCidrs := cfg.serviceCidrs
  apiserverIps := forbiddenApiserverIps cfg nodeName
  podCidrs := nodes.flatMap (podCidrsOf D)

def ownNode (nodeName : String) (nodes : List Json) : Option Json :=
  (nodes.filter (fun n => nodeName? n = some nodeName)).getLast?

def evaluateAmong (cfg : Config) (csr : Json) (nodes : List Json) : Except Reason Unit :=
  evaluate D csr (ownNode (nodeNameOf csr) nodes) (contextFor D cfg (nodeNameOf csr) nodes)

def approvedBody (csr : Json) (now : String) : Option Json :=
  let condition : Json := .obj [("lastTransitionTime", .str now), ("lastUpdateTime", .str now),
    ("message", .str ("Auto approving kubelet serving certificate: requestor, subject, usages and SANs match the " ++
      "requesting node")),
    ("reason", .str "AutoApproved"), ("status", .str "True"), ("type", .str "Approved")]
  ((csr.idx "status").setIdx "conditions" (.arr (arrayAt (csr.idx "status") "conditions" ++ [condition]))).bind
    (csr.setIdx "status")

/-- One sweep: the place of each request that is approved, and what is put. The nodes are listed anew for every
undecided request; a failed list ends the sweep. -/
def approveKubeletServingCsrs (cfg : Config) (now : ℕ → String) (nodesAt : ℕ → Option (List Json)) :
    ℕ → List Json → List (ℕ × Json)
  | _, [] => []
  | i, csr :: csrs =>
    if isUndecided csr then
      match nodesAt i with
      | none => []
      | some nodes =>
        match evaluateAmong D cfg csr nodes with
        | .error _ => approveKubeletServingCsrs cfg now nodesAt (i + 1) csrs
        | .ok () =>
          match approvedBody csr (now i) with
          | none => []
          | some body => (i, body) :: approveKubeletServingCsrs cfg now nodesAt (i + 1) csrs
    else approveKubeletServingCsrs cfg now nodesAt (i + 1) csrs

end Evaluate

end U7s.Certificates
