import U7s.Node.Defaults

namespace U7s.Node

open Handlers List Option

section Frames

variable {γ : Type} {read : String → Json → γ} {j j' : Json} {k : String}

def Same (read : String → Json → γ) (j j' : Json) : Prop := ∀ k, read k (j'.idx k) = read k (j.idx k)

def Silent (read : String → Json → γ) (f : Json → Option Json) : Prop := ∀ j j', f j = some j' → Same read j j'

def Unread (read : String → Json → γ) (k : String) : Prop := ∀ v v', read k v' = read k v

theorem Same.trans (h : Same read j j') (h' : Same read j' j'') : Same read j j'' :=
  fun k => (h' k).trans (h k)

theorem silent_some : Silent read some := by
  rintro j j' ⟨⟩ k
  rfl

theorem same_setIdx (h : j.setIdx k v = some j') (hv : read k v = read k (j.idx k)) : Same read j j' := by
  intro l
  by_cases hl : l = k
  · rw [hl, Json.idx_setIdx h, hv]
  · rw [Json.idx_setIdx_ne hl h]

theorem silent_modifyIdx (hf : ∀ v v', f v = some v' → read k v' = read k v) :
    Silent read (fun j => j.modifyIdx k f) := by
  intro j j' h
  obtain ⟨v, hv, h⟩ := bind_eq_some_iff.mp h
  exact same_setIdx h (hf _ _ hv)

theorem silent_default [DecidablePred c] {v : Json → Json} (hk : Unread read k) :
    Silent read (fun j => if c j then j.setIdx k (v j) else some j) := by
  intro j j' h
  dsimp only at h
  split_ifs at h
  · exact same_setIdx h (hk _ _)
  · exact silent_some j j' h

theorem silent_keep [DecidablePred c] {v : Json → Json} (hk : Unread read k) :
    Silent read (fun j => if c j then some j else j.setIdx k (v j)) := by
  intro j j' h
  dsimp only at h
  split_ifs at h
  · exact silent_some j j' h
  · exact same_setIdx h (hk _ _)

theorem silent_bind (hf : Silent read f) (hg : Silent read g) : Silent read (fun j => (f j).bind g) := by
  intro j j'' h
  obtain ⟨j', hj, h⟩ := bind_eq_some_iff.mp h
  exact (hf j j' hj).trans (hg j' j'' h)

theorem silent_passes (hfs : ∀ f ∈ fs, Silent read f) : Silent read (passes fs) := by
  induction fs with
  | nil => exact silent_some
  | cons f fs ih =>
    exact silent_bind (hfs f mem_cons_self) (ih (fun g hg => hfs g (mem_cons_of_mem f hg)))

theorem flatMap_mapItems {α : Type} {r : Json → List α}
    (hf : ∀ x x', f x = some x' → r x' = r x) (h : Json.mapItems f v = some v') :
    (items v').flatMap r = (items v).flatMap r := by
  cases v with
  | arr xs =>
    obtain ⟨ys, hys, rfl⟩ := map_eq_some_iff.mp h
    simp only [items, Json.asArray?, getD_some]
    clear h
    induction xs generalizing ys with
    | nil =>
      cases hys
      rfl
    | cons x xs ih =>
      rw [mapM_cons] at hys
      obtain ⟨x', hx, hys⟩ := bind_eq_some_iff.mp hys
      obtain ⟨ys', hys', hys⟩ := bind_eq_some_iff.mp hys
      cases hys
      rw [flatMap_cons, flatMap_cons, hf x x' hx, ih ys' hys']
  | _ =>
    cases h
    rfl

end Frames

structure Refs where
  secrets : List String := []
  configmaps : List String := []
  claims : List String := []
  raw : Json := .null

section Containers

def envSecret (e : Json) : List String := pushRef (((e.idx "valueFrom").idx "secretKeyRef").idx "name")

def envConfigmap (e : Json) : List String := pushRef (((e.idx "valueFrom").idx "configMapKeyRef").idx "name")

def containerRead (k : String) (v : Json) : Refs :=
  if k = "env" then { secrets := (items v).flatMap envSecret, configmaps := (items v).flatMap envConfigmap }
  else if k = "envFrom" then { raw := v }
  else {}

variable {c c' : Json}

theorem Same.container (h : Same containerRead c c') :
    containerSecrets c' = containerSecrets c ∧ containerConfigmaps c' = containerConfigmaps c := by
  have henv := h "env"
  have hfrom : c'.idx "envFrom" = c.idx "envFrom" := congrArg Refs.raw (h "envFrom")
  constructor
  · rw [containerSecrets, hfrom]
    exact congrArg _ (congrArg Refs.secrets henv)
  · rw [containerConfigmaps, hfrom]
    exact congrArg _ (congrArg Refs.configmaps henv)

theorem defaultFieldRef_env (h : defaultFieldRef e = some e') :
    envSecret e' = envSecret e ∧ envConfigmap e' = envConfigmap e := by
  unfold defaultFieldRef at h
  split at h
  · have hv := Json.idx_modifyIdx h
    constructor
    · rw [envSecret, Json.idx_modifyIdx_ne (by decide) hv, envSecret]
    · rw [envConfigmap, Json.idx_modifyIdx_ne (by decide) hv, envConfigmap]
  · cases h
    exact ⟨rfl, rfl⟩

theorem containerRead_unread (h₁ : k ≠ "env") (h₂ : k ≠ "envFrom") : Unread containerRead k := by
  intro v v'
  simp [containerRead, h₁, h₂]

theorem silent_unread_modifyIdx {γ : Type} {read : String → Json → γ}
    (hk : Unread read k) : Silent read (fun j => j.modifyIdx k f) :=
  silent_modifyIdx (fun _ _ _ => hk _ _)

theorem silent_defaultProbe (hk : Unread containerRead k) : Silent containerRead (defaultProbe k) := by
  intro c c' h
  unfold defaultProbe at h
  split at h
  · exact silent_unread_modifyIdx hk c c' h
  · exact silent_some c c' h

theorem silent_defaultContainer : Silent containerRead defaultContainer := by
  intro c
  have hpasses : ∀ f ∈ [defaultBlank "terminationMessagePolicy" (.str "File"),
      defaultBlank "imagePullPolicy" (pullPolicy c), fun c => c.modifyIdx "env" (Json.mapItems defaultFieldRef),
      fun c => c.modifyIdx "ports" (Json.mapItems (defaultNull "protocol" (.str "TCP"))),
      defaultProbe "livenessProbe", defaultProbe "readinessProbe", defaultProbe "startupProbe"],
      Silent containerRead f := by
    simp only [forall_mem_cons, not_mem_nil, false_implies, implies_true, and_true]
    refine ⟨silent_default (containerRead_unread (by decide) (by decide)),
      silent_default (containerRead_unread (by decide) (by decide)), silent_modifyIdx (fun v v' h => ?_),
      silent_unread_modifyIdx (containerRead_unread (by decide) (by decide)),
      silent_defaultProbe (containerRead_unread (by decide) (by decide)),
      silent_defaultProbe (containerRead_unread (by decide) (by decide)),
      silent_defaultProbe (containerRead_unread (by decide) (by decide))⟩
    have hs := flatMap_mapItems (fun e e' he => (defaultFieldRef_env he).1) h
    have hc := flatMap_mapItems (fun e e' he => (defaultFieldRef_env he).2) h
    simp only [containerRead, if_true, hs, hc]
  exact silent_passes hpasses c

theorem silent_defaultRequests : Silent containerRead defaultRequests := by
  intro c c' h
  unfold defaultRequests at h
  split at h
  · exact silent_some c c' h
  · exact silent_unread_modifyIdx (containerRead_unread (by decide) (by decide)) c c' h
  · exact silent_some c c' h

theorem silent_mountToken (volName : String) : Silent containerRead (mountToken volName) :=
  silent_keep (containerRead_unread (by decide) (by decide))

end Containers

section Volumes

def sourceSecret (src : Json) : List String := pushRef ((src.idx "secret").idx "name")

def sourceConfigmap (src : Json) : List String := pushRef ((src.idx "configMap").idx "name")

def volumeRead (k : String) (v : Json) : Refs :=
  if k = "secret" then { secrets := pushRef (v.idx "secretName") }
  else if k = "configMap" then { configmaps := pushRef (v.idx "name") }
  else if k = "projected" then
    { secrets := (items (v.idx "sources")).flatMap sourceSecret,
      configmaps := (items (v.idx "sources")).flatMap sourceConfigmap }
  else if k = "persistentVolumeClaim" then { claims := pushRef (v.idx "claimName") }
  else {}

variable {v v' : Json}

theorem Same.volume (h : Same volumeRead v v') : volumeSecrets v' = volumeSecrets v ∧
    volumeConfigmaps v' = volumeConfigmaps v ∧ volumeClaims v' = volumeClaims v := by
  have hs := congrArg Refs.secrets (h "secret")
  have hc := congrArg Refs.configmaps (h "configMap")
  have hp := h "projected"
  refine ⟨?_, ?_, congrArg Refs.claims (h "persistentVolumeClaim")⟩
  · exact congrArg₂ (fun a b => a ++ b) hs (congrArg Refs.secrets hp)
  · exact congrArg₂ (fun a b => a ++ b) hc (congrArg Refs.configmaps hp)

theorem stripSourceMode_source (h : stripSourceMode s = some s') :
    sourceSecret s' = sourceSecret s ∧ sourceConfigmap s' = sourceConfigmap s := by
  unfold stripSourceMode at h
  split at h
  · constructor
    · rw [sourceSecret, Json.idx_setIdx_ne (by decide) h, sourceSecret]
    · rw [sourceConfigmap, Json.idx_setIdx_ne (by decide) h, sourceConfigmap]
  · cases h
    exact ⟨rfl, rfl⟩

theorem silent_stripVolumeMode : Silent volumeRead stripVolumeMode := by
  refine fun v v' h => ?_
  unfold stripVolumeMode at h
  split_ifs at h
  · refine silent_modifyIdx (fun p p' hp => ?_) v v' h
    have hsrc := Json.idx_modifyIdx hp
    have hs := flatMap_mapItems (fun e e' he => (stripSourceMode_source he).1) hsrc
    have hc := flatMap_mapItems (fun e e' he => (stripSourceMode_source he).2) hsrc
    simp only [volumeRead, hs, hc]
    rfl
  · exact silent_some v v' h

theorem stampProjection_idx (h : stampProjection src = some p) (hk : k ≠ "defaultMode") :
    (p.1.getD .null).idx k = src.idx k := by
  cases src with
  | null =>
    cases h
    rfl
  | obj fs =>
    obtain ⟨mode, -, rfl⟩ := map_eq_some_iff.mp h
    cases mode with
    | none => simp [Json.idx, Json.get?, Json.lookup_insert_ne hk]
    | some _ => rfl
  | _ => cases h

theorem volumeRead_congr (h : ∀ k ≠ "defaultMode", src'.idx k = src.idx k) (k : String) :
    volumeRead k src' = volumeRead k src := by
  simp only [volumeRead, h "secretName" (by decide), h "name" (by decide), h "sources" (by decide),
    h "claimName" (by decide)]

theorem putField_idx (k : String) (v : Option Json) (fs : List (String × Json)) :
    (Json.obj (putField k v fs)).idx k = v.getD .null := by
  cases v with
  | none => simp [putField, Json.idx, Json.get?, Json.lookup_erase_self]
  | some v => simp [putField, Json.idx, Json.get?]

theorem putField_idx_ne (hl : l ≠ k) (v : Option Json) (fs : List (String × Json)) :
    (Json.obj (putField k v fs)).idx l = (Json.obj fs).idx l := by
  cases v with
  | none => simp [putField, Json.idx, Json.get?, Json.lookup_erase_ne hl]
  | some v => simp [putField, Json.idx, Json.get?, Json.lookup_insert_ne hl]

theorem stampField_same {v v' : Json × Bool} (h : stampField v k = some v') :
    Same volumeRead v.1 v'.1 := by
  obtain ⟨v, b⟩ := v
  cases v with
  | obj fs =>
    obtain ⟨p, hp, rfl⟩ := map_eq_some_iff.mp h
    intro l
    by_cases hl : l = k
    · subst hl
      exact volumeRead_congr (fun k hk => by rw [putField_idx, stampProjection_idx hp hk]) l
    · exact congrArg (volumeRead l) (putField_idx_ne hl p.1 fs)
  | _ => cases h

theorem stampVolume_same (h : stampVolume v = some p) : Same volumeRead v p.1 := by
  obtain ⟨-, -, h⟩ := bind_eq_some_iff.mp h
  obtain ⟨p₁, h₁, h⟩ := bind_eq_some_iff.mp h
  obtain ⟨p₂, h₂, h⟩ := bind_eq_some_iff.mp h
  obtain ⟨p₃, h₃, h⟩ := bind_eq_some_iff.mp h
  obtain ⟨p₄, h₄, h⟩ := bind_eq_some_iff.mp h
  cases h
  exact ((stampField_same h₁).trans (stampField_same h₂)).trans ((stampField_same h₃).trans (stampField_same h₄))

end Volumes

section Specs

def specRead (k : String) (v : Json) : Refs :=
  if k = "volumes" then
    { secrets := (items v).flatMap volumeSecrets, configmaps := (items v).flatMap volumeConfigmaps,
      claims := (items v).flatMap volumeClaims }
  else if k ∈ containerFields then
    { secrets := (items v).flatMap containerSecrets, configmaps := (items v).flatMap containerConfigmaps }
  else if k = "imagePullSecrets" then { raw := v }
  else {}

def accountRead (k : String) (v : Json) : Json :=
  if k = "serviceAccountName" ∨ k = "serviceAccount" then v else .null

def bothRead (k : String) (v : Json) : Refs × Json := (specRead k v, accountRead k v)

structure Clean (spec : Json) : Prop where
  secrets : (specEdges spec).secrets = []
  configmaps : ∀ c ∈ (specEdges spec).configmaps, c = ROOT_CA
  pvcs : (specEdges spec).pvcs = []

variable {spec spec' : Json} {f : Json → Option Json}

theorem Same.refs (h : Same bothRead spec spec') : Same specRead spec spec' := fun k => congrArg Prod.fst (h k)

theorem Same.edges (h : Same specRead spec spec') : (specEdges spec').secrets = (specEdges spec).secrets ∧
    (specEdges spec').configmaps = (specEdges spec).configmaps ∧
    (specEdges spec').pvcs = (specEdges spec).pvcs := by
  have hv := h "volumes"
  have hp : spec'.idx "imagePullSecrets" = spec.idx "imagePullSecrets" := congrArg Refs.raw (h "imagePullSecrets")
  have hc := h "containers"
  have hi := h "initContainers"
  have he := h "ephemeralContainers"
  simp only [specRead, containerFields] at hv hc hi he
  simp at hv hc hi he
  simp [specEdges, podContainers, containerFields, hv, hp, hc, hi, he]

theorem Clean.same (hs : Clean spec) (h : Same specRead spec spec') : Clean spec' := by
  obtain ⟨hsec, hcm, hpvc⟩ := h.edges
  exact ⟨hsec.trans hs.secrets, hcm ▸ hs.configmaps, hpvc.trans hs.pvcs⟩

theorem bothRead_unread (h : k ∉ "volumes" :: "imagePullSecrets" :: "serviceAccountName" :: "serviceAccount" ::
    containerFields) : Unread bothRead k := by
  intro v v'
  simp only [mem_cons, not_or] at h
  simp [bothRead, specRead, accountRead, h]

theorem silent_eachContainer (hfields : ∀ k ∈ fields, k ∈ containerFields)
    (hf : Silent containerRead f) : Silent bothRead (eachContainer fields f) := by
  refine silent_passes (fun g hg => ?_)
  obtain ⟨k, hk, rfl⟩ := mem_map.mp hg
  refine silent_modifyIdx (fun v v' h => ?_)
  have hs := flatMap_mapItems (fun c c' hc => (hf c c' hc).container.1) h
  have hc := flatMap_mapItems (fun c c' hc => (hf c c' hc).container.2) h
  have hne : k ≠ "volumes" ∧ k ≠ "serviceAccountName" ∧ k ≠ "serviceAccount" := by
    refine ⟨?_, ?_, ?_⟩ <;> rintro rfl <;> exact absurd (hfields _ hk) (by decide)
  simp only [bothRead, specRead, accountRead, hne, hfields k hk, hs, hc]
  rfl

theorem passes_append (fs gs : List (Json → Option Json)) (j : Json) :
    passes (fs ++ gs) j = (passes fs j).bind (passes gs) := by
  induction fs generalizing j with
  | nil => rfl
  | cons f fs ih =>
    rw [cons_append, passes, passes, bind_assoc]
    exact congrArg _ (funext ih)

theorem silent_early (typed : PodSpec) : ∀ f ∈ earlyDefaults typed, Silent bothRead f := by
  simp only [earlyDefaults, forall_mem_cons, not_mem_nil, false_implies, implies_true, and_true]
  refine ⟨?_, ?_, ?_, ?_, ?_, ?_⟩ <;> exact silent_default (bothRead_unread (by decide))

theorem silent_defaultHostPorts : Silent bothRead defaultHostPorts := by
  intro spec spec' h
  unfold defaultHostPorts at h
  split_ifs at h
  · exact silent_eachContainer (by decide)
      (silent_unread_modifyIdx (containerRead_unread (by decide) (by decide))) spec spec' h
  · exact silent_some spec spec' h

theorem silent_late : ∀ f ∈ lateDefaults, Silent bothRead f := by
  simp only [lateDefaults, forall_mem_cons, not_mem_nil, false_implies, implies_true, and_true]
  refine ⟨silent_modifyIdx (fun v v' h => ?_), silent_eachContainer (by decide) silent_defaultRequests,
    silent_defaultHostPorts, silent_eachContainer (by decide) silent_defaultContainer⟩
  have hs := flatMap_mapItems (fun v v' hv => (silent_stripVolumeMode v v' hv).volume.1) h
  have hc := flatMap_mapItems (fun v v' hv => (silent_stripVolumeMode v v' hv).volume.2.1) h
  have hp := flatMap_mapItems (fun v v' hv => (silent_stripVolumeMode v v' hv).volume.2.2) h
  simp only [bothRead, specRead, hs, hc, hp]
  rfl

theorem specRead_unread (h : k ∉ "volumes" :: "imagePullSecrets" :: containerFields) : Unread specRead k := by
  intro v v'
  simp only [mem_cons, not_or] at h
  simp [specRead, h]

theorem silent_defaultServiceAccount : Silent specRead defaultServiceAccount :=
  silent_bind (silent_default (specRead_unread (by decide)))
    (fun _ _ h => same_setIdx h (specRead_unread (by decide) _ _))

def accountName (spec : Json) : Json :=
  if (spec.idx "serviceAccountName").asStr?.getD "" = "" then .str (serviceAccountAlias spec)
  else spec.idx "serviceAccountName"

theorem defaultServiceAccount_name (h : defaultServiceAccount spec = some spec') :
    spec'.idx "serviceAccountName" = accountName spec := by
  obtain ⟨spec₁, hname, h⟩ := bind_eq_some_iff.mp h
  rw [Json.idx_setIdx_ne (by decide) h]
  unfold defaultText at hname
  unfold accountName
  split_ifs at hname ⊢
  · exact Json.idx_setIdx hname
  · cases hname
    rfl

theorem Same.account (h : Same bothRead spec spec') :
    spec'.idx "serviceAccountName" = spec.idx "serviceAccountName" ∧ accountName spec' = accountName spec := by
  have hname : spec'.idx "serviceAccountName" = spec.idx "serviceAccountName" := by
    simpa [bothRead, accountRead] using congrArg Prod.snd (h "serviceAccountName")
  have halias : spec'.idx "serviceAccount" = spec.idx "serviceAccount" := by
    simpa [bothRead, accountRead] using congrArg Prod.snd (h "serviceAccount")
  exact ⟨hname, by rw [accountName, accountName, serviceAccountAlias, serviceAccountAlias, hname, halias]⟩

theorem flatMap_stampVolumes {α : Type} {r : Json → List α} {vs : List Json}
    (hr : ∀ v p, stampVolume v = some p → r p.1 = r v) (h : vs.mapM stampVolume = some ps) :
    (ps.map Prod.fst).flatMap r = vs.flatMap r := by
  induction vs generalizing ps with
  | nil =>
    cases h
    rfl
  | cons v vs ih =>
    rw [mapM_cons] at h
    obtain ⟨p, hp, h⟩ := bind_eq_some_iff.mp h
    obtain ⟨ps', hps, h⟩ := bind_eq_some_iff.mp h
    cases h
    rw [map_cons, flatMap_cons, flatMap_cons, hr v p hp, ih hps]

theorem PodSpec.fromValue_volumes (h : PodSpec.fromValue (.obj fs) = some typed)
    (hv : typed.volumes = some vols) : (items ((Json.obj fs).idx "volumes")).mapM stampVolume = some vols := by
  obtain ⟨-, -, h⟩ := bind_eq_some_iff.mp h
  obtain ⟨e, -, h⟩ := bind_eq_some_iff.mp h
  obtain ⟨v, hvols, h⟩ := bind_eq_some_iff.mp h
  cases h
  cases hv
  simp only [Json.idx, Json.get?]
  cases hlook : Json.lookup "volumes" fs with
  | none =>
    simp only [hlook] at hvols
    cases hvols
  | some j =>
    simp only [hlook] at hvols
    cases j with
    | arr xs =>
      obtain ⟨ps, hps, heq⟩ := map_eq_some_iff.mp hvols
      cases heq
      exact hps
    | _ => cases hvols

theorem stampVolumes_same (h₀ : Same specRead (.obj fs) spec)
    (h : stampVolumes ((PodSpec.fromValue (.obj fs)).getD {}) spec = some spec') : Same bothRead spec spec' := by
  cases htyped : PodSpec.fromValue (.obj fs) with
  | none =>
    rw [htyped] at h
    exact silent_some spec spec' h
  | some typed =>
    rw [htyped] at h
    unfold stampVolumes at h
    split at h
    · exact silent_some spec spec' h
    · next vols hvols =>
      split_ifs at h
      · refine same_setIdx h (Prod.ext ?_ rfl)
        have hread := h₀ "volumes"
        have hm := PodSpec.fromValue_volumes htyped hvols
        have hs := flatMap_stampVolumes (fun v p hp => (stampVolume_same hp).volume.1) hm
        have hc := flatMap_stampVolumes (fun v p hp => (stampVolume_same hp).volume.2.1) hm
        have hp := flatMap_stampVolumes (fun v p hp => (stampVolume_same hp).volume.2.2) hm
        dsimp only [bothRead]
        rw [hread]
        simp only [specRead, ← hs, ← hc, ← hp]
        rfl
      · exact silent_some spec spec' h

theorem specDefaults_same (h : specDefaults spec = some spec') :
    Same specRead spec spec' ∧ spec'.idx "serviceAccountName" = accountName spec := by
  unfold specDefaults at h
  rw [passes_append] at h
  obtain ⟨spec₁, hearly, h⟩ := bind_eq_some_iff.mp h
  obtain ⟨spec₂, hacc, h⟩ := bind_eq_some_iff.mp h
  obtain ⟨spec₃, hstamp, hlate⟩ := bind_eq_some_iff.mp h
  have h₁ := silent_passes (silent_early _) spec spec₁ hearly
  have h₂ := silent_defaultServiceAccount spec₁ spec₂ hacc
  have h₃ : Same bothRead spec₂ spec₃ := by
    cases spec with
    | obj fs => exact stampVolumes_same (h₁.refs.trans h₂) hstamp
    | null => exact silent_some spec₂ spec₃ hstamp
    | _ => cases hearly
  have h₄ := silent_passes silent_late spec₃ spec' hlate
  refine ⟨(h₁.refs.trans h₂).trans (h₃.trans h₄).refs, ?_⟩
  rw [h₄.account.1, h₃.account.1, defaultServiceAccount_name hacc, h₁.account.2]

theorem silent_tolerationDefaults : Silent bothRead tolerationDefaults :=
  silent_keep (bothRead_unread (by decide))

theorem silent_automountDefault (optsOut : String → Bool) : Silent bothRead (automountDefault optsOut) :=
  silent_keep (bothRead_unread (by decide))

theorem Clean.addToken (hs : Clean spec)
    (h : spec.setIdx "volumes" (.arr (items (spec.idx "volumes") ++ [tokenVolume volName])) = some spec') :
    Clean spec' := by
  have hpull := Json.idx_setIdx_ne (l := "imagePullSecrets") (by decide) h
  have hcont : podContainers spec' = podContainers spec := by
    simp only [podContainers, containerFields, flatMap_cons, flatMap_nil]
    rw [Json.idx_setIdx_ne (l := "containers") (by decide) h,
      Json.idx_setIdx_ne (l := "initContainers") (by decide) h,
      Json.idx_setIdx_ne (l := "ephemeralContainers") (by decide) h]
  have hvol : items (spec'.idx "volumes") = items (spec.idx "volumes") ++ [tokenVolume volName] := by
    rw [Json.idx_setIdx h]
    rfl
  obtain ⟨hsec, hcm, hpvc⟩ := hs
  have hts : volumeSecrets (tokenVolume volName) = [] := by rfl
  have htc : volumeConfigmaps (tokenVolume volName) = [ROOT_CA] := by rfl
  have htp : volumeClaims (tokenVolume volName) = [] := by rfl
  simp only [specEdges] at hsec hcm hpvc
  constructor
  · simp [specEdges, hvol, hpull, hcont, hts, hsec]
  · intro c hc
    simp only [specEdges, hvol, hcont, flatMap_append, flatMap_singleton, htc, mem_append,
      mem_singleton] at hc
    obtain (hc | hc) | hc := hc
    · exact hcm c (mem_append_left _ hc)
    · exact hc
    · exact hcm c (mem_append_right _ hc)
  · simp [specEdges, hvol, htp, hpvc]

theorem injectToken_clean (hs : Clean spec) (h : injectToken suffix spec = some spec') :
    Clean spec' ∧ spec'.idx "serviceAccountName" = spec.idx "serviceAccountName" := by
  have hkeep (h : some spec = some spec') :
      Clean spec' ∧ spec'.idx "serviceAccountName" = spec.idx "serviceAccountName" := by
    cases h
    exact ⟨hs, rfl⟩
  unfold injectToken at h
  dsimp only at h
  split_ifs at h
  · exact hkeep h
  · exact hkeep h
  · exact hkeep h
  · obtain ⟨spec₁, hvol, h⟩ := bind_eq_some_iff.mp h
    have hmount := silent_eachContainer (by decide) (silent_mountToken _) spec₁ spec' h
    exact ⟨(hs.addToken hvol).same hmount.refs, hmount.account.1.trans (Json.idx_setIdx_ne (by decide) hvol)⟩

end Specs

theorem serviceAccountAlias_ne (spec : Json) : serviceAccountAlias spec ≠ "" := by
  unfold serviceAccountAlias
  cases h : (spec.idx "serviceAccount").asStr?.filter (fun s => s ≠ "") with
  | none => decide
  | some s =>
    have hs := (filter_eq_some_iff.mp h).2
    simpa using hs

theorem setMetadata_spec (h : setMetadata pod field v = some pod') : pod'.idx "spec" = pod.idx "spec" := by
  obtain ⟨md, -, h⟩ := bind_eq_some_iff.mp h
  exact Json.idx_setIdx_ne (by decide) h

theorem clearCreateStatus_spec (pod : Json) : (clearCreateStatus pod).idx "spec" = pod.idx "spec" := by
  cases pod with
  | obj fs => simp [clearCreateStatus, Json.idx, Json.get?, Json.lookup_erase_ne]
  | _ => rfl

theorem pinServerOwnedDeletionFields_spec (pod : Json) (stored : Option Json) :
    (pinServerOwnedDeletionFields pod stored).idx "spec" = pod.idx "spec" := by
  unfold pinServerOwnedDeletionFields pinDeletionFields
  split
  · split
    · simp [Json.idx, Json.get?, Json.lookup_insert_ne]
    · rfl
  · rfl

theorem applyPodCreateDefaults_spec (h : applyPodCreateDefaults now pod = some pod') :
    specDefaults (pod.idx "spec") = some (pod'.idx "spec") := by
  obtain ⟨pod₁, hspec, h⟩ := bind_eq_some_iff.mp h
  rw [Json.idx_modifyIdx_ne (by decide) h]
  exact Json.idx_modifyIdx hspec

theorem applyDefaultTolerationSeconds_spec (h : applyDefaultTolerationSeconds pod = some pod') :
    Same bothRead (pod.idx "spec") (pod'.idx "spec") := by
  unfold applyDefaultTolerationSeconds at h
  split at h
  · exact silent_tolerationDefaults _ _ (Json.idx_modifyIdx h)
  · cases h
    exact fun _ => rfl

theorem registeredBody_spec (h : registeredBody ctx body = some reg) (hs : Clean (body.idx "spec"))
    (hname : ((body.idx "spec").idx "serviceAccountName").asStr?.getD "" = "") :
    Clean (reg.idx "spec") ∧
      (reg.idx "spec").idx "serviceAccountName" = .str (serviceAccountAlias (body.idx "spec")) := by
  obtain ⟨b₁, h₁, h⟩ := bind_eq_some_iff.mp h
  obtain ⟨b₂, h₂, h⟩ := bind_eq_some_iff.mp h
  obtain ⟨b₃, h₃, h⟩ := bind_eq_some_iff.mp h
  obtain ⟨b₄, h₄, h⟩ := bind_eq_some_iff.mp h
  obtain ⟨b₅, h₅, h⟩ := bind_eq_some_iff.mp h
  obtain ⟨b₆, h₆, h⟩ := bind_eq_some_iff.mp h
  obtain ⟨b₇, h₇, h⟩ := bind_eq_some_iff.mp h
  obtain ⟨b₈, h₈, h⟩ := bind_eq_some_iff.mp h
  obtain ⟨b₉, h₉, h⟩ := bind_eq_some_iff.mp h
  obtain ⟨b₁₀, h₁₀, h⟩ := bind_eq_some_iff.mp h
  have hsent : b₄.idx "spec" = body.idx "spec" := by
    rw [setMetadata_spec h₄, setMetadata_spec h₃, setMetadata_spec h₂, setMetadata_spec h₁]
  have hfirst := specDefaults_same (applyPodCreateDefaults_spec h₅)
  rw [clearCreateStatus_spec, pinServerOwnedDeletionFields_spec, hsent] at hfirst
  have htol := applyDefaultTolerationSeconds_spec h₆
  have hauto := silent_automountDefault _ _ _ (Json.idx_modifyIdx h₈)
  rw [setMetadata_spec h₇] at hauto
  have hinject := injectToken_clean (((hs.same hfirst.1).same htol.refs).same hauto.refs) (Json.idx_modifyIdx h₉)
  have hsecond := specDefaults_same (applyPodCreateDefaults_spec h₁₀)
  rw [clearCreateStatus_spec] at hsecond
  have halias : accountName (body.idx "spec") = .str (serviceAccountAlias (body.idx "spec")) := if_pos hname
  have hfilled : (b₉.idx "spec").idx "serviceAccountName" = .str (serviceAccountAlias (body.idx "spec")) := by
    rw [hinject.2, hauto.account.1, htol.account.1, hfirst.2, halias]
  refine ⟨setMetadata_spec h ▸ hinject.1.same hsecond.1, ?_⟩
  rw [setMetadata_spec h, hsecond.2, accountName, hfilled]
  exact if_neg (serviceAccountAlias_ne _)

end U7s.Node
