import U7s.Lib.Encoding
import U7s.Rbac.Authorize

namespace U7s.Auth

open Encoding Rbac List Option

structure Header where
  name : List Byte
  value : List Byte
deriving DecidableEq

structure Identity extends UserInfo where
  uid : String
  extra : String → List String

def textOf (bs : List Byte) : String := String.ofList (bs.map (fun b => Char.ofNat b.val))

def toStr (value : List Byte) : Option String :=
  if value.all (fun b => isVisible b.val) then some (textOf value) else none

def percentDecode (bs : List Byte) : Option String := fromUtf8 (percentDecodeBytes bs)

section Headers

variable (headers : List Header)

def valuesOf (name : String) : List (List Byte) :=
  (headers.filter (fun h => h.name = ascii name)).map Header.value

def extraKey (name : List Byte) : Option String :=
  if (ascii "impersonate-extra-").isPrefixOf name then
    let raw := name.drop (ascii "impersonate-extra-").length
    some ((percentDecode raw).getD (textOf raw))
  else none

def extraValues (key : String) : List (List Byte) :=
  (headers.filter (fun h => extraKey h.name = some key)).map Header.value

def impersonateUser : Option String := (valuesOf headers "impersonate-user").head?.bind toStr

def impersonateGroups : List String := (valuesOf headers "impersonate-group").filterMap toStr

def impersonateUid : Option String := (valuesOf headers "impersonate-uid").head?.bind toStr

def impersonateExtra (key : String) : List String := (extraValues headers key).filterMap toStr

def extraPairs : List (String × String) :=
  headers.filterMap (fun h => (extraKey h.name).bind (fun k => (toStr h.value).map (fun v => (k, v))))

end Headers

def splitServiceAccountUsername (username : String) : Option (String × String) :=
  (Text.stripPrefix "system:serviceaccount:" username).bind (fun rest =>
    match (rest.toList.splitOn ':').map String.ofList with
    | [ns, name] => if ns ≠ "" ∧ name ≠ "" then some (ns, name) else none
    | _ => none)

def impersonates (caller : UserInfo) (apiGroup resource subresource : String) (ns : Option String) (name : String) :
    AuthzRequest :=
  ⟨caller.username, caller.groups, "impersonate", apiGroup, resource, subresource, ns, some name, none⟩

def userRequest (caller : UserInfo) (user : String) : AuthzRequest :=
  match splitServiceAccountUsername user with
  | some (ns, name) => impersonates caller "" "serviceaccounts" "" (some ns) name
  | none => impersonates caller "" "users" "" none user

def groupRequest (caller : UserInfo) (group : String) : AuthzRequest := impersonates caller "" "groups" "" none group

def uidRequest (caller : UserInfo) (uid : String) : AuthzRequest :=
  impersonates caller "authentication.k8s.io" "uids" "" none uid

def extraRequest (caller : UserInfo) (key value : String) : AuthzRequest :=
  impersonates caller "authentication.k8s.io" "userextras" key none value

def defaultGroups (user : String) : List String :=
  match splitServiceAccountUsername user with
  | some (ns, _) => ["system:serviceaccounts", "system:serviceaccounts:" ++ ns]
  | none => []

def withAuthenticated (groups : List String) : List String :=
  if "system:authenticated" ∉ groups ∧ "system:unauthenticated" ∉ groups then groups ++ ["system:authenticated"]
  else groups

inductive Outcome where
  | badRequest
  | impersonationDenied (target : String)
  | forbidden
  | run (impersonated : Bool) (user : Identity)

section Call

variable (inner : RbacInner) (caller : Identity) (headers : List Header)

def deniedTarget (user : String) : Option String :=
  if !isAllowed inner (userRequest caller.toUserInfo user) then some user
  else ((impersonateGroups headers).find? (fun g => !isAllowed inner (groupRequest caller.toUserInfo g))).or
    (((impersonateUid headers).filter (fun uid => !isAllowed inner (uidRequest caller.toUserInfo uid))).or
      (((extraPairs headers).find? (fun kv => !isAllowed inner (extraRequest caller.toUserInfo kv.1 kv.2))).map Prod.snd))

def impersonated (user : String) : Identity where
  username := user
  groups := withAuthenticated
    (if impersonateGroups headers = [] then defaultGroups user else impersonateGroups headers)
  uid := (impersonateUid headers).getD ""
  extra := impersonateExtra headers

def asksWithoutUser : Bool :=
  (valuesOf headers "impersonate-user").isEmpty &&
    (!(valuesOf headers "impersonate-group").isEmpty || !(valuesOf headers "impersonate-uid").isEmpty ||
      headers.any (fun h => (extraKey h.name).isSome))

def call (authorize : Identity → Bool) : Outcome :=
  let run := fun sub user => if authorize user then Outcome.run sub user else .forbidden
  if asksWithoutUser headers then .badRequest
  else match impersonateUser headers with
    | some user =>
      match deniedTarget inner caller headers user with
      | some target => .impersonationDenied target
      | none => run true (impersonated headers user)
    | none => run false caller

end Call

section Naming

variable (inner : RbacInner) (caller : Identity) (headers : List Header)

structure Named (u : Identity) : Prop where
  user : ∀ v ∈ valuesOf headers "impersonate-user", fromUtf8 v = some u.username
  uid : ∀ v ∈ valuesOf headers "impersonate-uid", fromUtf8 v = some u.uid
  noUid : valuesOf headers "impersonate-uid" = [] → u.uid = ""
  groups : ∃ gs more, (valuesOf headers "impersonate-group").map fromUtf8 = gs.map some ∧
    u.groups = (if gs = [] then defaultGroups u.username else gs) ++ more ∧
    (more = [] ∨ more = ["system:authenticated"]) ∧
    ∀ g ∈ gs, isAllowed inner (groupRequest caller.toUserInfo g) = true
  extra : ∀ key, (extraValues headers key).map fromUtf8 = (u.extra key).map some
  mayUser : isAllowed inner (userRequest caller.toUserInfo u.username) = true
  mayUid : valuesOf headers "impersonate-uid" ≠ [] → isAllowed inner (uidRequest caller.toUserInfo u.uid) = true
  mayExtra : ∀ key, ∀ v ∈ u.extra key, isAllowed inner (extraRequest caller.toUserInfo key v) = true

def isImpersonation (name : List Byte) : Bool :=
  name = ascii "impersonate-user" || name = ascii "impersonate-group" || name = ascii "impersonate-uid" ||
    (extraKey name).isSome

structure Clean : Prop where
  readable : ∀ h ∈ headers, isImpersonation h.name = true → h.value.all (fun b => isVisible b.val) = true
  oneUser : ∀ v ∈ valuesOf headers "impersonate-user", ∀ w ∈ valuesOf headers "impersonate-user", v = w
  oneUid : ∀ v ∈ valuesOf headers "impersonate-uid", ∀ w ∈ valuesOf headers "impersonate-uid", v = w

end Naming

def Readable (v : List Byte) : Prop := v.all (fun b => isVisible b.val) = true

def VisibleText (s : String) : Prop := ∀ c ∈ s.toList, isVisible c.toNat = true

theorem toNat_ofByte (b : Byte) : (Char.ofNat b.val).toNat = b.val := by
  rw [Char.toNat_ofNat, if_pos (.inl (by omega))]

theorem toStr_eq_some : toStr v = some s ↔ Readable v ∧ textOf v = s := by
  unfold toStr Readable
  split_ifs with h <;> simp [h]

theorem fromUtf8_of_readable (h : Readable v) : fromUtf8 v = some (textOf v) := by
  rw [fromUtf8, strictFrom_visible (fun b hb => all_eq_true.mp h b hb)]
  rfl

theorem visibleText_of_readable (h : Readable v) : VisibleText (textOf v) := by
  intro c hc
  rw [textOf, String.toList_ofList] at hc
  obtain ⟨b, hb, rfl⟩ := mem_map.mp hc
  rw [toNat_ofByte]
  exact all_eq_true.mp h b hb

theorem readable_of_visibleText (h : fromUtf8 v = some s) (hs : VisibleText s) : Readable v := by
  obtain ⟨cs, hcs, rfl⟩ := map_eq_some_iff.mp h
  rw [VisibleText, String.toList_ofList] at hs
  exact all_eq_true.mpr (visible_of_strictFrom hcs hs)

theorem textOf_injective (h : textOf v = textOf w) : v = w := by
  have hmap : v.map (fun b => Char.ofNat b.val) = w.map (fun b => Char.ofNat b.val) := String.ofList_inj.mp h
  refine map_injective_iff.mpr (fun a b hab => ?_) hmap
  have hnat := congrArg Char.toNat hab
  simp only [toNat_ofByte] at hnat
  exact Fin.ext hnat

theorem visibleText_of_toStr (h : toStr v = some s) : VisibleText s := by
  obtain ⟨hread, rfl⟩ := toStr_eq_some.mp h
  exact visibleText_of_readable hread

theorem visibleText_filterMap {vs : List (List Byte)} (h : s ∈ vs.filterMap toStr) : VisibleText s := by
  obtain ⟨v, -, hv⟩ := mem_filterMap.mp h
  exact visibleText_of_toStr hv

theorem map_fromUtf8_of_readable {vs : List (List Byte)} (h : ∀ v ∈ vs, Readable v) :
    vs.map fromUtf8 = (vs.filterMap toStr).map some := by
  induction vs with
  | nil => rfl
  | cons v vs ih =>
    have hv := h v mem_cons_self
    rw [map_cons, filterMap_cons_some (toStr_eq_some.mpr ⟨hv, rfl⟩), map_cons,
      ih (fun w hw => h w (mem_cons_of_mem _ hw)), fromUtf8_of_readable hv]

theorem mem_of_map_fromUtf8 {vs : List (List Byte)} {texts : List String} (h : vs.map fromUtf8 = texts.map some)
    (hv : v ∈ vs) : ∃ s ∈ texts, fromUtf8 v = some s := by
  have hmem : fromUtf8 v ∈ texts.map some := h ▸ mem_map_of_mem hv
  obtain ⟨s, hs, heq⟩ := mem_map.mp hmem
  exact ⟨s, hs, heq.symm⟩

theorem splitServiceAccountUsername_some (h : splitServiceAccountUsername user = some (ns, name)) :
    ∀ c ∈ ns.toList, c ∈ user.toList := by
  obtain ⟨rest, hrest, h⟩ := bind_eq_some_iff.mp h
  have huser := Text.stripPrefix_some hrest
  have hjoin : [':'].intercalate (rest.toList.splitOn ':') = rest.toList := intercalate_splitOn ':'
  split at h
  · next a b hparts =>
    obtain ⟨x, xs, hx, rfl, htail⟩ := map_eq_cons_iff.mp hparts
    obtain ⟨y, ys, rfl, -, hnil⟩ := map_eq_cons_iff.mp htail
    cases map_eq_nil_iff.mp hnil
    split_ifs at h
    cases h
    rw [hx] at hjoin
    intro c hc
    rw [String.toList_ofList] at hc
    rw [huser, ← hjoin]
    simp [hc]
  · cases h

theorem visibleText_append (hs : VisibleText s) (ht : VisibleText t) : VisibleText (s ++ t) := by
  intro c hc
  rw [String.toList_append] at hc
  obtain hc | hc := mem_append.mp hc
  · exact hs c hc
  · exact ht c hc

theorem visibleText_defaultGroups (h : VisibleText user) (hg : g ∈ defaultGroups user) : VisibleText g := by
  unfold defaultGroups at hg
  cases hsa : splitServiceAccountUsername user with
  | none =>
    rw [hsa] at hg
    exact absurd hg not_mem_nil
  | some parts =>
    obtain ⟨ns, name⟩ := parts
    rw [hsa] at hg
    have hns : VisibleText ns := fun c hc => h c (splitServiceAccountUsername_some hsa c hc)
    obtain rfl | hg := mem_cons.mp hg
    · simp [VisibleText, isVisible]
    · rw [mem_singleton.mp hg]
      refine visibleText_append ?_ hns
      simp [VisibleText, isVisible]

theorem withAuthenticated_eq (groups : List String) :
    ∃ more, withAuthenticated groups = groups ++ more ∧ (more = [] ∨ more = ["system:authenticated"]) := by
  unfold withAuthenticated
  split_ifs
  · exact ⟨_, rfl, .inr rfl⟩
  · exact ⟨[], (append_nil groups).symm, .inl rfl⟩

theorem visibleText_impersonated (h : VisibleText user)
    (hg : g ∈ (impersonated headers user).groups) : VisibleText g := by
  obtain ⟨more, heq, hmore⟩ := withAuthenticated_eq
    (if impersonateGroups headers = [] then defaultGroups user else impersonateGroups headers)
  rw [impersonated, heq] at hg
  obtain hg | hg := mem_append.mp hg
  · split_ifs at hg
    · exact visibleText_defaultGroups h hg
    · exact visibleText_filterMap hg
  · obtain rfl | rfl := hmore
    · exact absurd hg not_mem_nil
    · rw [mem_singleton.mp hg]
      simp [VisibleText, isVisible]

section Faithful

variable {inner : RbacInner} {caller : Identity} {headers : List Header}

theorem deniedTarget_none (h : deniedTarget inner caller headers user = none) :
    isAllowed inner (userRequest caller.toUserInfo user) ∧
      (∀ g ∈ impersonateGroups headers, isAllowed inner (groupRequest caller.toUserInfo g)) ∧
      (∀ uid, impersonateUid headers = some uid → isAllowed inner (uidRequest caller.toUserInfo uid)) ∧
      ∀ kv ∈ extraPairs headers, isAllowed inner (extraRequest caller.toUserInfo kv.1 kv.2) := by
  unfold deniedTarget at h
  split_ifs at h with huser
  simp only [or_eq_none_iff, find?_eq_none, map_eq_none_iff, Bool.not_eq_true,
    Bool.not_eq_false'] at h
  obtain ⟨hgroups, huid, hextra⟩ := h
  refine ⟨by simpa using huser, hgroups, fun uid heq => ?_, hextra⟩
  rw [heq] at huid
  simpa using huid

theorem mem_extraPairs (h : v ∈ impersonateExtra headers key) : (key, v) ∈ extraPairs headers := by
  obtain ⟨bytes, hbytes, hv⟩ := mem_filterMap.mp h
  obtain ⟨header, hheader, rfl⟩ := mem_map.mp hbytes
  obtain ⟨hmem, hkey⟩ := mem_filter.mp hheader
  refine mem_filterMap.mpr ⟨header, hmem, ?_⟩
  rw [of_decide_eq_true hkey, hv]
  rfl

theorem mem_valuesOf (hh : h ∈ headers) (hname : h.name = ascii name) : h.value ∈ valuesOf headers name :=
  mem_map.mpr ⟨h, mem_filter.mpr ⟨hh, decide_eq_true hname⟩, rfl⟩

theorem Clean.readable_values (hc : Clean headers) (hname : isImpersonation (ascii name))
    (hv : v ∈ valuesOf headers name) : Readable v := by
  obtain ⟨h, hh, rfl⟩ := mem_map.mp hv
  obtain ⟨hmem, heq⟩ := mem_filter.mp hh
  refine hc.readable h hmem ?_
  rw [of_decide_eq_true heq]
  exact hname

theorem Clean.readable_extra (hc : Clean headers) (hv : v ∈ extraValues headers key) : Readable v := by
  obtain ⟨h, hh, rfl⟩ := mem_map.mp hv
  obtain ⟨hmem, heq⟩ := mem_filter.mp hh
  refine hc.readable h hmem ?_
  simp [isImpersonation, of_decide_eq_true heq]

theorem isImpersonation_names : isImpersonation (ascii "impersonate-user") ∧
    isImpersonation (ascii "impersonate-group") ∧ isImpersonation (ascii "impersonate-uid") := by
  simp [isImpersonation]

theorem first_toStr (hread : ∀ v ∈ vs, Readable v) (hne : vs ≠ []) :
    ∃ v ∈ vs, vs.head?.bind toStr = some (textOf v) := by
  cases vs with
  | nil => exact absurd rfl hne
  | cons v vs => exact ⟨v, mem_cons_self, toStr_eq_some.mpr ⟨hread v mem_cons_self, rfl⟩⟩

theorem uid_of_clean (hc : Clean headers) (hv : v ∈ valuesOf headers "impersonate-uid") :
    fromUtf8 v = impersonateUid headers := by
  have hread : ∀ w ∈ valuesOf headers "impersonate-uid", Readable w :=
    fun w hw => hc.readable_values isImpersonation_names.2.2 hw
  obtain ⟨w, hw, heq⟩ := first_toStr hread (ne_nil_of_mem hv)
  rw [hc.oneUid v hv w hw, fromUtf8_of_readable (hread w hw), impersonateUid, heq]

theorem named_of_clean (hc : Clean headers) (huser : user ∈ valuesOf headers "impersonate-user")
    (hallowed : deniedTarget inner caller headers (textOf user) = none) :
    Named inner caller headers (impersonated headers (textOf user)) := by
  obtain ⟨hmay, hgroups, huid, hextra⟩ := deniedTarget_none hallowed
  have hsome : ∀ v ∈ valuesOf headers "impersonate-uid",
      impersonateUid headers = some ((impersonateUid headers).getD "") := by
    intro v hv
    obtain ⟨w, -, heq⟩ := first_toStr
      (fun w hw => hc.readable_values isImpersonation_names.2.2 hw) (ne_nil_of_mem hv)
    rw [impersonateUid, heq, getD_some]
  obtain ⟨more, heq, hmore⟩ := withAuthenticated_eq
    (if impersonateGroups headers = [] then defaultGroups (textOf user) else impersonateGroups headers)
  constructor
  case user =>
    intro v hv
    rw [hc.oneUser v hv user huser]
    exact fromUtf8_of_readable (hc.readable_values isImpersonation_names.1 huser)
  case uid =>
    intro v hv
    exact (uid_of_clean hc hv).trans (hsome v hv)
  case noUid =>
    intro hnone
    simp [impersonated, impersonateUid, hnone]
  case groups =>
    refine ⟨impersonateGroups headers, more, map_fromUtf8_of_readable fun v hv => ?_, heq, hmore, hgroups⟩
    exact hc.readable_values isImpersonation_names.2.1 hv
  case extra => exact fun key => map_fromUtf8_of_readable fun v hv => hc.readable_extra hv
  case mayUser => exact hmay
  case mayUid =>
    intro hne
    obtain ⟨v, hv⟩ := exists_mem_of_ne_nil _ hne
    exact huid _ (hsome v hv)
  case mayExtra => exact fun key v hv => hextra (key, v) (mem_extraPairs hv)

theorem clean_of_named (huser : VisibleText user)
    (h : Named inner caller headers (impersonated headers user)) : Clean headers := by
  have hreadUser : ∀ v ∈ valuesOf headers "impersonate-user", Readable v :=
    fun v hv => readable_of_visibleText (h.user v hv) huser
  have hvisibleUid : VisibleText (impersonated headers user).uid := by
    change VisibleText ((impersonateUid headers).getD "")
    cases hu : impersonateUid headers with
    | none => exact fun c hc => absurd hc (by simp)
    | some uid =>
      obtain ⟨v, -, hv⟩ := bind_eq_some_iff.mp hu
      exact visibleText_of_toStr hv
  have hreadUid : ∀ v ∈ valuesOf headers "impersonate-uid", Readable v :=
    fun v hv => readable_of_visibleText (h.uid v hv) hvisibleUid
  have hreadGroup : ∀ v ∈ valuesOf headers "impersonate-group", Readable v := by
    intro v hv
    obtain ⟨gs, more, hnamed, hgroups, -, -⟩ := h.groups
    obtain ⟨g, hg, hvg⟩ := mem_of_map_fromUtf8 hnamed hv
    rw [if_neg (ne_nil_of_mem hg)] at hgroups
    have hmem : g ∈ (impersonated headers user).groups := by
      rw [hgroups]
      exact mem_append_left _ hg
    exact readable_of_visibleText hvg (visibleText_impersonated huser hmem)
  refine ⟨fun header hheader hname => ?_, fun v hv w hw => ?_, fun v hv w hw => ?_⟩
  · unfold isImpersonation at hname
    rw [Bool.or_eq_true, Bool.or_eq_true, Bool.or_eq_true] at hname
    obtain ((hname | hname) | hname) | hname := hname
    · exact hreadUser _ (mem_valuesOf hheader (of_decide_eq_true hname))
    · exact hreadGroup _ (mem_valuesOf hheader (of_decide_eq_true hname))
    · exact hreadUid _ (mem_valuesOf hheader (of_decide_eq_true hname))
    · obtain ⟨key, hkey⟩ := isSome_iff_exists.mp hname
      have hmem : header.value ∈ extraValues headers key :=
        mem_map.mpr ⟨header, mem_filter.mpr ⟨hheader, decide_eq_true hkey⟩, rfl⟩
      obtain ⟨s, hs, hvs⟩ := mem_of_map_fromUtf8 (h.extra key) hmem
      exact readable_of_visibleText hvs (visibleText_filterMap hs)
  · have heq := (h.user v hv).trans (h.user w hw).symm
    rw [fromUtf8_of_readable (hreadUser v hv), fromUtf8_of_readable (hreadUser w hw)] at heq
    exact textOf_injective (some.inj heq)
  · have heq := (h.uid v hv).trans (h.uid w hw).symm
    rw [fromUtf8_of_readable (hreadUid v hv), fromUtf8_of_readable (hreadUid w hw)] at heq
    exact textOf_injective (some.inj heq)

theorem call_run (h : call inner caller headers authorize = .run sub u) :
    (∃ user, sub ∧ impersonateUser headers = some user ∧
      deniedTarget inner caller headers user = none ∧ u = impersonated headers user) ∨
      sub = false ∧ impersonateUser headers = none ∧ u = caller := by
  unfold call at h
  by_cases hask : asksWithoutUser headers
  · rw [if_pos hask] at h
    cases h
  rw [if_neg hask] at h
  cases huser : impersonateUser headers with
  | some user =>
    rw [huser] at h
    dsimp only at h
    cases hdenied : deniedTarget inner caller headers user with
    | some target =>
      rw [hdenied] at h
      cases h
    | none =>
      rw [hdenied] at h
      split_ifs at h
      cases h
      exact .inl ⟨user, rfl, rfl, hdenied, rfl⟩
  | none =>
    rw [huser] at h
    dsimp only at h
    split_ifs at h
    cases h
    exact .inr ⟨rfl, rfl, rfl⟩

end Faithful

/-- A request that impersonates runs as exactly the identity its headers name, with the caller allowed each part, if
and only if every header can be read and no two disagree. -/
theorem impersonation_faithful (inner : RbacInner) (authorize : Identity → Bool) (caller : Identity)
    (headers : List Header) (hheader : ∃ h ∈ headers, h.name = ascii "impersonate-user") (sub : Bool) (u : Identity)
    (h : call inner caller headers authorize = .run sub u) :
    sub = true ∧ Named inner caller headers u ↔ Clean headers := by
  obtain ⟨user, rfl, huser, hallowed, rfl⟩ | ⟨rfl, huser, rfl⟩ := call_run h
  · obtain ⟨v, hv, htext⟩ := bind_eq_some_iff.mp huser
    constructor
    · exact fun hnamed => clean_of_named (visibleText_of_toStr htext) hnamed.2
    · intro hc
      obtain ⟨-, rfl⟩ := toStr_eq_some.mp htext
      exact ⟨rfl, named_of_clean hc (mem_of_head? hv) hallowed⟩
  · refine ⟨fun hnamed => absurd hnamed.1 Bool.false_ne_true, fun hc => ?_⟩
    obtain ⟨header, hmem, hname⟩ := hheader
    have hread : ∀ v ∈ valuesOf headers "impersonate-user", Readable v :=
      fun v hv => hc.readable_values isImpersonation_names.1 hv
    obtain ⟨v, -, hv⟩ := first_toStr hread (ne_nil_of_mem (mem_valuesOf hmem hname))
    rw [impersonateUser, hv] at huser
    cases huser

def admin : Identity := ⟨⟨"admin", ["system:masters"]⟩, "", fun _ => []⟩

def accentedUser : List Header := [⟨ascii "impersonate-user", [0xC3, 0xA9]⟩]

theorem unreadable_user_runs_as_caller :
    fromUtf8 [0xC3, 0xA9] = some "é" ∧
      call RbacInner.new admin accentedUser (fun _ => true) = .run false admin ∧
      ¬ Named RbacInner.new admin accentedUser admin := by
  refine ⟨by decide +kernel, rfl, fun h => ?_⟩
  exact absurd h.mayUser (by decide +kernel)

def mastersOnly : RbacInner where
  clusterRoles := AList.singleton "cluster-admin" [⟨["*"], ["*"], ["*"], [], []⟩]
  clusterRoleAggregations := ∅
  roles := ∅
  clusterBindings := [("cluster-admin", ⟨[⟨"Group", "system:masters", none⟩], ⟨RBAC_GROUP, "ClusterRole", "cluster-admin"⟩,
    none⟩)]
  namespaceBindings := []
  floors := ⟨∅, [], 0⟩

def bobInDevelopers : List Header :=
  [⟨ascii "impersonate-user", ascii "bob"⟩, ⟨ascii "impersonate-group", ascii "dev"⟩]

theorem impersonation_faithful_bob :
    (impersonated bobInDevelopers "bob").groups = ["dev", "system:authenticated"] ∧
      Named mastersOnly admin bobInDevelopers (impersonated bobInDevelopers "bob") := by
  have hcall : call mastersOnly admin bobInDevelopers (fun _ => true) =
      .run true (impersonated bobInDevelopers "bob") := by
    have huser : impersonateUser bobInDevelopers = some "bob" := by decide +kernel
    have hallowed : deniedTarget mastersOnly admin bobInDevelopers "bob" = none := by decide +kernel
    have hask : asksWithoutUser bobInDevelopers = false := by decide +kernel
    simp [call, huser, hallowed, hask]
  refine ⟨by decide +kernel, ?_⟩
  have hclean : Clean bobInDevelopers :=
    ⟨by decide +kernel, by decide +kernel, by decide +kernel⟩
  exact ((impersonation_faithful mastersOnly (fun _ => true) admin bobInDevelopers
    ⟨_, mem_cons_self, rfl⟩ true _ hcall).mpr hclean).2

end U7s.Auth
