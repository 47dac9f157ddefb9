import U7s.Certificates.Approver
import U7s.Lib.Encoding

namespace U7s.Certificates

open Addresses List

variable {D : Decoders} {cfg : Config} {csr : Json} {nodes : List Json} {name : String} {ip : IpAddr}

theorem checkSans_ok (h : checkSans node name ctx sans = .ok ()) :
    ∀ san ∈ sans, checkSan node name ctx san = .ok () := by
  induction sans with
  | nil => simp
  | cons san sans ih =>
    unfold checkSans at h
    cases hsan : checkSan node name ctx san with
    | error r =>
      rw [hsan] at h
      cases h
    | ok u =>
      rw [hsan] at h
      intro s hs
      obtain rfl | hs := mem_cons.mp hs
      · exact hsan
      · exact ih h s hs

def Requests (D : Decoders) (csr : Json) (sans : List GeneralName) : Prop :=
  ∃ req, requestOf D csr = some req ∧ subjectAltNames req = .ok sans

theorem Requests.unique (h : Requests D csr sans) (h' : Requests D csr sans') : sans = sans' := by
  obtain ⟨req, hreq, hsans⟩ := h
  obtain ⟨req', hreq', hsans'⟩ := h'
  cases hreq.symm.trans hreq'
  exact Except.ok.inj (hsans.symm.trans hsans')

theorem evaluate_ok (h : evaluate D csr node ctx = .ok ()) :
    ∃ n sans m, Text.stripPrefix NODE_USER_PREFIX (usernameOf csr) = some n ∧ n ≠ "" ∧ Requests D csr sans ∧
      node = some m ∧ ∀ san ∈ sans, checkSan (nodeAddresses D m n) n ctx san = .ok () := by
  unfold evaluate at h
  simp only [bind, Except.bind, pure, Except.pure] at h
  -- one branch is left, the one in which nothing failed
  repeat (split at h <;> try cases h)
  rename_i n hn _ _ _ req hreq _ _ _ _ _ _ sans hsans _ _ m
  obtain ⟨hn, hne⟩ := Option.filter_eq_some_iff.mp hn
  exact ⟨n, sans, m, hn, by simpa using hne, ⟨req, hreq, hsans⟩, rfl, checkSans_ok h⟩

theorem nodeNameOf_eq (h : Text.stripPrefix NODE_USER_PREFIX (usernameOf csr) = some name) :
    nodeNameOf csr = name := by
  unfold usernameOf at h
  unfold nodeNameOf
  cases hu : ((csr.idx "spec").idx "username").asStr? with
  | none =>
    rw [hu] at h
    cases h
  | some u =>
    rw [hu] at h
    rw [Option.bind_some, show Text.stripPrefix NODE_USER_PREFIX u = some name from h]
    rfl

theorem checkIp_ok {ctx : IpContext} (h : ctx.checkIp ip name = .ok ()) :
    (∀ c ∈ ctx.serviceCidrs, rangeContains c.1 c.2 ip.toCanonical = false) ∧
      (∀ c ∈ ctx.podCidrs, cidrContains c.2.1 c.2.2 ip.toCanonical = false) ∧
      (∀ a ∈ ctx.apiserverIps, a.toCanonical ≠ ip.toCanonical) ∧ ip.toCanonical ∉ ctx.otherNodeIps := by
  unfold IpContext.checkIp at h
  by_cases hspecial : isSpecial ip.toCanonical
  · rw [if_pos hspecial] at h
    cases h
  by_cases hservice : ctx.serviceCidrs.any (fun c => rangeContains c.1 c.2 ip.toCanonical)
  · rw [if_neg hspecial, if_pos hservice] at h
    cases h
  rw [if_neg hspecial, if_neg hservice] at h
  cases hpod : ctx.podCidrs.find? (fun c => cidrContains c.2.1 c.2.2 ip.toCanonical) with
  | some c =>
    rw [hpod] at h
    cases h
  | none =>
    rw [hpod] at h
    split_ifs at h with hserver hother
    refine ⟨fun c hc => ?_, fun c hc => ?_, fun a ha => ?_, hother⟩
    · exact Bool.eq_false_iff.mpr fun hin => hservice (any_eq_true.mpr ⟨c, hc, hin⟩)
    · exact Bool.eq_false_iff.mpr (find?_eq_none.mp hpod c hc)
    · exact fun heq => hserver (any_eq_true.mpr ⟨a, ha, decide_eq_true heq⟩)

theorem mem_sweep (h : (i, body) ∈ approveKubeletServingCsrs D cfg now nodesAt j csrs) :
    ∃ csr nodes, j ≤ i ∧ csrs[i - j]? = some csr ∧ nodesAt i = some nodes ∧
      evaluateAmong D cfg csr nodes = .ok () := by
  induction csrs generalizing j with
  | nil => cases h
  | cons csr csrs ih =>
    have hlater : (i, body) ∈ approveKubeletServingCsrs D cfg now nodesAt (j + 1) csrs →
        ∃ csr' nodes, j ≤ i ∧ (csr :: csrs)[i - j]? = some csr' ∧ nodesAt i = some nodes ∧
          evaluateAmong D cfg csr' nodes = .ok () := by
      intro h
      obtain ⟨csr', nodes, hj, hget, hrest⟩ := ih h
      refine ⟨csr', nodes, by omega, ?_, hrest⟩
      rw [show i - j = (i - (j + 1)) + 1 by omega]
      exact hget
    unfold approveKubeletServingCsrs at h
    split_ifs at h with hundecided
    · cases hnodes : nodesAt j with
      | none =>
        rw [hnodes] at h
        cases h
      | some nodes =>
        rw [hnodes] at h
        dsimp only at h
        cases heval : evaluateAmong D cfg csr nodes with
        | error r =>
          rw [heval] at h
          exact hlater h
        | ok u =>
          rw [heval] at h
          cases hbody : approvedBody csr (now j) with
          | none =>
            rw [hbody] at h
            cases h
          | some b =>
            rw [hbody] at h
            obtain heq | h := mem_cons.mp h
            · cases heq
              exact ⟨csr, nodes, le_refl i, by simp, hnodes, heval⟩
            · exact hlater h
    · exact hlater h

section Identity

variable (D cfg nodes name)

structure OwnAddress (ip : IpAddr) : Prop where
  reported : ∃ m ∈ nodes, nodeName? m = some name ∧ ∃ a ∈ nodeIps D m, a.toCanonical = ip.toCanonical
  alone : ∀ m ∈ nodes, nodeName? m ≠ some name → ∀ a ∈ reportedIps D m, a.toCanonical ≠ ip.toCanonical
  services : ∀ c ∈ cfg.serviceCidrs, ¬ Covers (rangeContains c.1 c.2) ip
  pods : ∀ m ∈ nodes, ∀ c ∈ writtenCidrs D m, c.2 ≤ c.1.width → ¬ Covers (cidrContains c.1 c.2) ip
  apiserver : ∀ a ∈ cfg.apiserverIps, a.toCanonical ≠ ip.toCanonical

def OwnName (d : String) : Prop :=
  ∀ m ∈ nodes, nodeName? m ≠ some name → nodeName? m ≠ some d ∧ d ∉ reportedDns m

/-- What the node has or reports as a DNS name and another node has or reports as well. -/
def sharedNames : List String :=
  (name :: ((ownNode name nodes).map reportedDns).getD []).filter (fun d =>
    nodes.any (fun m => nodeName? m ≠ some name && (nodeName? m = some d || d ∈ reportedDns m)))

structure OwnIdentity (sans : List GeneralName) : Prop where
  dns : ∀ d, .dnsName d ∈ sans → OwnName nodes name d
  ip : ∀ raw, .ipAddress raw ∈ sans → ∃ ip, ipFromOctets raw = some ip ∧ OwnAddress D cfg nodes name ip

/-- No range with an IPv6 base covers the address where the check does not look for it. -/
def ClearOfMapped (ip : IpAddr) : Prop :=
  (∀ c ∈ cfg.serviceCidrs, c.1.isV4 = false → ip.toCanonical.isV4 = true → ¬ Covers (rangeContains c.1 c.2) ip) ∧
    ∀ m ∈ nodes, ∀ c ∈ writtenCidrs D m, c.2 ≤ c.1.width → c.1.isV4 = false →
      c.1.isMapped = true ∨ ip.toCanonical.isV4 = true → ¬ Covers (cidrContains c.1 c.2) ip

variable {D cfg nodes name}

theorem ownName_of_not_shared (hm : ownNode name nodes = some m) (hd : d ∈ (nodeAddresses D m name).1)
    (hshared : d ∉ sharedNames nodes name) : OwnName nodes name d := by
  intro other hother hne
  simp only [sharedNames, hm, mem_filter, any_eq_true, Bool.and_eq_true, Bool.or_eq_true, decide_eq_true_eq] at hshared
  exact ⟨fun hname => hshared ⟨hd, other, hother, hne, .inl hname⟩,
    fun hdns => hshared ⟨hd, other, hother, hne, .inr hdns⟩⟩

theorem OwnName.not_shared (h : OwnName nodes name d) : d ∉ sharedNames nodes name := by
  intro hshared
  obtain ⟨m, hm, hne⟩ := any_eq_true.mp (mem_filter.mp hshared).2
  simp only [Bool.and_eq_true, Bool.or_eq_true, decide_eq_true_eq] at hne
  obtain ⟨hname, hdns⟩ := h m hm hne.1
  exact hne.2.elim hname hdns

theorem services_of_check {c : IpAddr × ℕ} (h : rangeContains c.1 c.2 ip.toCanonical = false)
    (hmapped : c.1.isV4 = false → ip.toCanonical.isV4 → ¬ Covers (rangeContains c.1 c.2) ip) :
    ¬ Covers (rangeContains c.1 c.2) ip := by
  intro hcovers
  by_cases hfamily : c.1.isV4 ∨ ip.toCanonical.isV4 = false
  · have hin := hcovers.canonical (fun y => isV4_of_rangeContains) hfamily
    rw [h] at hin
    cases hin
  · rw [not_or] at hfamily
    exact hmapped (Bool.eq_false_iff.mpr hfamily.1) (Bool.not_eq_false _ |>.mp hfamily.2) hcovers

theorem mem_podCidrsOf (hc : c ∈ writtenCidrs D m) (hlen : c.2 ≤ c.1.width) (hmapped : c.1.isMapped = false) :
    ((nodeName? m).getD "", c.1, c.2) ∈ podCidrsOf D m := by
  refine mem_filterMap.mpr ⟨c, hc, ?_⟩
  simp only [IpAddr.toCanonical_of_not_mapped hmapped, if_pos hlen]

theorem pods_of_check (hc : c ∈ writtenCidrs D m) (hlen : c.2 ≤ c.1.width)
    (h : ∀ p ∈ podCidrsOf D m, cidrContains p.2.1 p.2.2 ip.toCanonical = false)
    (hmapped : c.1.isV4 = false → c.1.isMapped ∨ ip.toCanonical.isV4 →
      ¬ Covers (cidrContains c.1 c.2) ip) : ¬ Covers (cidrContains c.1 c.2) ip := by
  intro hcovers
  have hv4 : c.1.isV4 → c.1.isMapped = false := by
    cases c.1 <;> simp [IpAddr.isV4, IpAddr.isMapped]
  by_cases hfamily : c.1.isMapped = false ∧ (c.1.isV4 ∨ ip.toCanonical.isV4 = false)
  · have hin := hcovers.canonical (fun y => isV4_of_cidrContains) hfamily.2
    rw [h _ (mem_podCidrsOf hc hlen hfamily.1)] at hin
    cases hin
  · refine hmapped ?_ ?_ hcovers <;> grind

theorem ownAddress_of_check (hlocal : cfg.localNodeName ≠ some name) (hm : ownNode name nodes = some m)
    (hmem : ip ∈ nodeIps D m) (hcheck : (contextFor D cfg name nodes).checkIp ip name = .ok ())
    (hclear : ClearOfMapped D cfg nodes ip) : OwnAddress D cfg nodes name ip := by
  obtain ⟨hservices, hpods, hserver, hother⟩ := checkIp_ok hcheck
  have hm' := mem_filter.mp (mem_of_getLast? hm)
  refine ⟨⟨m, hm'.1, of_decide_eq_true hm'.2, ip, hmem, rfl⟩, ?_, ?_, ?_, ?_⟩
  · intro n hn hne a ha heq
    refine hother (mem_flatMap.mpr ⟨n, mem_filter.mpr ⟨hn, decide_eq_true hne⟩, ?_⟩)
    exact mem_map.mpr ⟨a, ha, heq⟩
  · exact fun c hc => services_of_check (hservices c hc) (hclear.1 c hc)
  · intro n hn c hc hlen
    refine pods_of_check hc hlen (fun p hp => ?_) (hclear.2 n hn c hc hlen)
    exact hpods p (mem_flatMap.mpr ⟨n, hn, hp⟩)
  · intro a ha
    have hforbidden : forbiddenApiserverIps cfg name = cfg.apiserverIps := if_neg fun h => hlocal h.2
    exact hserver a (hforbidden.symm ▸ ha : a ∈ forbiddenApiserverIps cfg name)

end Identity

/-- An approved certificate impersonates nobody exactly if none of the names that its node shares with another is
requested and no range in IPv6 form covers one of its addresses unseen. -/
theorem serving_cert_own_identity (D : Decoders) (cfg : Config) (now : ℕ → String)
    (nodesAt : ℕ → Option (List Json)) (csrs : List Json) (i : ℕ) (body : Json)
    (h : (i, body) ∈ approveKubeletServingCsrs D cfg now nodesAt 0 csrs) (csr : Json) (hcsr : csrs[i]? = some csr)
    (nodes : List Json) (hnodes : nodesAt i = some nodes) (sans : List GeneralName) (hsans : Requests D csr sans)
    (hlocal : cfg.localNodeName ≠ some (nodeNameOf csr)) :
    OwnIdentity D cfg nodes (nodeNameOf csr) sans ↔
      (∀ d ∈ sharedNames nodes (nodeNameOf csr), .dnsName d ∉ sans) ∧
        ∀ raw ip, .ipAddress raw ∈ sans → ipFromOctets raw = some ip → ClearOfMapped D cfg nodes ip := by
  obtain ⟨csr', nodes', -, hcsr', hnodes', heval⟩ := mem_sweep h
  cases hcsr.symm.trans hcsr'
  cases hnodes.symm.trans hnodes'
  obtain ⟨n, sans', m, hn, -, hsans', hm, hchecks⟩ := evaluate_ok heval
  cases hsans.unique hsans'
  rw [nodeNameOf_eq hn] at hm hchecks hlocal ⊢
  constructor
  · intro hown
    refine ⟨fun d hd hsan => (hown.dns d hsan).not_shared hd, fun raw ip hraw hip => ?_⟩
    obtain ⟨ip', hip', haddr⟩ := hown.ip raw hraw
    cases hip.symm.trans hip'
    exact ⟨fun c hc _ _ => haddr.services c hc, fun m hm c hc hlen _ _ => haddr.pods m hm c hc hlen⟩
  · rintro ⟨hdns, hclear⟩
    refine ⟨fun d hd => ?_, fun raw hraw => ?_⟩
    · have hsan := hchecks _ hd
      unfold checkSan at hsan
      dsimp only at hsan
      split_ifs at hsan with hmem
      exact ownName_of_not_shared hm hmem (fun hshared => hdns d hshared hd)
    have hsan := hchecks _ hraw
    unfold checkSan at hsan
    dsimp only at hsan
    cases hip : ipFromOctets raw with
    | none =>
      rw [hip] at hsan
      cases hsan
    | some ip =>
      rw [hip] at hsan
      dsimp only at hsan
      split_ifs at hsan with hmem
      exact ⟨ip, rfl, ownAddress_of_check hlocal hm hmem hsan (hclear raw ip hraw hip)⟩

def nodeReporting (name type address : String) : Json :=
  .obj [("metadata", .obj [("name", .str name)]),
    ("status", .obj [("addresses", .arr [.obj [("address", .str address), ("type", .str type)]])])]

def servingCsr (node : String) : Json :=
  .obj [("spec", .obj [("groups", .arr [.str NODES_GROUP]), ("request", .str "r"),
    ("signerName", .str KUBELET_SERVING_SIGNER), ("usages", .arr (USAGES_NO_RSA.map .str)),
    ("username", .str (NODE_USER_PREFIX ++ node))])]

def decoding (sans : List GeneralName) : Decoders where
  parseIp s := if s = "10.0.0.5" then some (.v4 0x0a000005) else if s = "10.0.0.6" then some (.v4 0x0a000006) else none
  parseLen _ := none
  request _ := some ⟨[(OID_COMMON_NAME, some (NODE_USER_PREFIX ++ "n1")), (OID_ORGANIZATION, some NODES_GROUP)],
    [some [some sans]]⟩

def noRanges : Config := ⟨[], [], none⟩

theorem reported_hostname_impersonates :
    (approveKubeletServingCsrs (decoding [.dnsName "n2"]) noRanges (fun _ => "")
      (fun _ => some [nodeReporting "n1" "Hostname" "n2", nodeReporting "n2" "InternalIP" "10.0.0.6"]) 0
      [servingCsr "n1"]).map Prod.fst = [0] ∧
    ¬ OwnIdentity (decoding [.dnsName "n2"]) noRanges
      [nodeReporting "n1" "Hostname" "n2", nodeReporting "n2" "InternalIP" "10.0.0.6"] "n1" [.dnsName "n2"] := by
  refine ⟨by decide +kernel, fun h => ?_⟩
  exact (h.dns "n2" mem_cons_self (nodeReporting "n2" "InternalIP" "10.0.0.6") (by simp) (by decide)).1 rfl

def ownNames : List GeneralName := [.dnsName "n1", .ipAddress [10, 0, 0, 5]]

def twoNodes : List Json := [nodeReporting "n1" "InternalIP" "10.0.0.5", nodeReporting "n2" "InternalIP" "10.0.0.6"]

theorem serving_cert_own_identity_two :
    (approveKubeletServingCsrs (decoding ownNames) noRanges (fun _ => "") (fun _ => some twoNodes) 0
      [servingCsr "n1"]).map Prod.fst = [0] ∧ OwnIdentity (decoding ownNames) noRanges twoNodes "n1" ownNames := by
  refine ⟨by decide +kernel, ?_⟩
  obtain ⟨body, hbody⟩ : ∃ body, (0, body) ∈ approveKubeletServingCsrs (decoding ownNames) noRanges (fun _ => "")
      (fun _ => some twoNodes) 0 [servingCsr "n1"] := ⟨_, by rw [show _ = [_] from rfl]; exact mem_cons_self⟩
  have hrequests : Requests (decoding ownNames) (servingCsr "n1") ownNames := ⟨_, rfl, rfl⟩
  refine (serving_cert_own_identity _ _ _ _ _ 0 body hbody (servingCsr "n1") rfl twoNodes rfl ownNames hrequests
    (by decide)).mpr ⟨?_, ?_⟩
  · have hnone : sharedNames twoNodes "n1" = [] := by decide +kernel
    intro d hd
    rw [show nodeNameOf (servingCsr "n1") = "n1" by decide +kernel, hnone] at hd
    exact absurd hd not_mem_nil
  · intro raw ip _ _
    refine ⟨fun c hc => absurd hc not_mem_nil, fun m hm c hc => ?_⟩
    have hnone : writtenCidrs (decoding ownNames) m = [] := by
      simp [writtenCidrs, decoding]
    rw [hnone] at hc
    exact absurd hc not_mem_nil

end U7s.Certificates
