import U7s.Store.Revisions
import U7s.Rbac.Index

namespace U7s.Handlers

open Store Option
open Rbac (structFields vecOf stringOf defaulted required parseU64)

def optionOf {α : Type} (f : Json → Option α) : Json → Option (Option α)
  | .null => some none
  | j => (f j).map some

def optional {α : Type} (f : Json → Option α) : Option Json → Option (Option α) :=
  defaulted none (optionOf f)

def boolOf : Json → Option Bool
  | .bool b => some b
  | _ => none

def i64Of : Json → Option ℤ
  | .num (.posInt n) => if n < 2 ^ 63 then some n else none
  | .num (.negInt z) => some z
  | _ => none

def mapOf {α : Type} (f : Json → Option α) : Json → Option (List (String × α))
  | .obj fs => fs.mapM (fun m => (f m.2).map (fun a => (m.1, a)))
  | _ => none

structure OwnerReference where
  apiVersion : String
  kind : String
  name : String
  uid : String
  controller : Option Bool
  blockOwnerDeletion : Option Bool

def OwnerReference.fromValue (j : Json) : Option OwnerReference := do
  match ← structFields ["apiVersion", "kind", "name", "uid", "controller", "blockOwnerDeletion"] j with
  | [a, k, n, u, c, b] =>
    return ⟨← required stringOf a, ← required stringOf k, ← required stringOf n, ← required stringOf u,
      ← optional boolOf c, ← optional boolOf b⟩
  | _ => none

structure ManagedFieldsEntry where
  manager : String
  operation : String
  apiVersion : String
  time : Option String
  fieldsType : Option String
  fieldsV1 : Option Json
  subresource : Option String

def ManagedFieldsEntry.fromValue (j : Json) : Option ManagedFieldsEntry := do
  match ← structFields ["manager", "operation", "apiVersion", "time", "fieldsType", "fieldsV1",
    "subresource"] j with
  | [m, o, a, t, ft, fv, s] =>
    return ⟨← required stringOf m, ← required stringOf o, ← required stringOf a, ← optional stringOf t,
      ← optional stringOf ft, ← optional some fv, ← optional stringOf s⟩
  | _ => none

structure ObjectMeta where
  name : Option String := none
  generateName : Option String := none
  ns : Option String := none
  uid : Option String := none
  resourceVersion : Option String := none
  creationTimestamp : Option String := none
  deletionTimestamp : Option String := none
  finalizers : Option (List String) := none
  labels : Option (List (String × String)) := none
  annotations : Option (List (String × String)) := none
  ownerReferences : Option (List OwnerReference) := none
  managedFields : Option (List ManagedFieldsEntry) := none
  generation : Option ℤ := none
  deletionGracePeriodSeconds : Option ℤ := none

def ObjectMeta.fields : List String :=
  ["name", "generateName", "namespace", "uid", "resourceVersion", "creationTimestamp",
    "deletionTimestamp", "finalizers", "labels", "annotations", "ownerReferences", "managedFields",
    "generation", "deletionGracePeriodSeconds"]

def ObjectMeta.ofMembers : List (Option Json) → Option ObjectMeta
  | [n, gn, ns, u, rv, ct, dt, fin, ls, as, os, ms, g, dg] => do
    return ⟨← optional stringOf n, ← optional stringOf gn, ← optional stringOf ns, ← optional stringOf u,
      ← optional stringOf rv, ← optional stringOf ct, ← optional stringOf dt,
      ← optional (vecOf stringOf) fin, ← optional (mapOf stringOf) ls, ← optional (mapOf stringOf) as,
      ← optional (vecOf OwnerReference.fromValue) os, ← optional (vecOf ManagedFieldsEntry.fromValue) ms,
      ← optional i64Of g, ← optional i64Of dg⟩
  | _ => none

def ObjectMeta.fromValue (j : Json) : Option ObjectMeta :=
  (structFields ObjectMeta.fields j).bind ObjectMeta.ofMembers

def objectMeta (body : Json) : ObjectMeta := (ObjectMeta.fromValue (body.idx "metadata")).getD {}

/-- The type flattens its other members, so it is read from objects only. -/
def namespaceFinalizers (body : Json) : Option (List String) :=
  match body.idx "spec" with
  | .obj fs => (optional (vecOf stringOf) (Json.lookup "finalizers" fs)).getD none
  | _ => none

def nonEmpty (f : Option (List String)) : Bool := f.any (fun f => !f.isEmpty)

inductive Failure where
  | notFound (group resource name : String)
  | alreadyExists (name kind : String)
  | conflict (message : String)
  | badRequest (message : String)
  | unprocessableEntity (message : String)
  | forbidden (message : String)
  | tooManyRequestsWithCause (message reason cause : String)
  | internal (message : String)
  | internalActionable (cause : String)
  | namespaceCreateRejected (ns : String) (e : CreateNamespacedError)
  | store (e : StoreError)
  | panicked
  | cancelled
  deriving DecidableEq

def panicOn {α : Type} : Option α → Except Failure α
  | some a => .ok a
  | none => .error .panicked

def storeErr (e : StoreError) (group resource name kind : String) : Failure :=
  match e with
  | .notFound _ => .notFound group resource name
  | .alreadyExists _ => .alreadyExists name kind
  | .revisionMismatch expected current =>
    .conflict s!"{kind} \"{name}\" cannot be updated: resource version mismatch (expected {expected}, current {current})"
  | e => .store e

def parseResourceVersion : Option String → Except Failure (Option ℕ)
  | none => .ok none
  | some s =>
    if s = "" ∨ s = "0" then .ok none
    else match parseU64 s with
      | some rv => .ok (some rv)
      | none => .error (.badRequest s!"invalid resourceVersion: {s}")

def resourceVersion (body : Json) : Option String :=
  ((body.idx "metadata").idx "resourceVersion").asStr?

def setMetadata (body : Json) (field : String) (v : Json) : Option Json :=
  ((body.idx "metadata").setIdx field v).bind (fun m => body.setIdx "metadata" m)

def setResourceVersion (body : Json) (rv : ℕ) : Option Json :=
  setMetadata body "resourceVersion" (.str (toString rv))

structure DeleteOptions where
  propagationPolicy : Option String := none
  orphanDependents : Option Bool := none
  dryRun : Option (List String) := none

def DeleteOptions.isDryRun (o : DeleteOptions) : Bool := o.dryRun.any (fun v => v.any (fun s => s = "All"))

def DeleteOptions.isOrphan (o : DeleteOptions) : Bool :=
  o.orphanDependents = some true || o.propagationPolicy = some "Orphan"

def DeleteOptions.isExplicitCascade (o : DeleteOptions) : Bool :=
  o.orphanDependents = some false ||
    o.propagationPolicy = some "Background" || o.propagationPolicy = some "Foreground"

def addFinalizer (f : String) (body : Json) : Option Json :=
  setMetadata body "finalizers" (.arr
    (match (body.idx "metadata").idx "finalizers" with
    | .arr fs => if fs.any (fun x => x.asStr? = some f) then fs else fs ++ [.str f]
    | _ => [.str f]))

def addOrphanFinalizer : Json → Option Json := addFinalizer "orphan"

def addForegroundDeletionFinalizer : Json → Option Json := addFinalizer "foregroundDeletion"

def isNamespaceKind (body : Json) : Bool := (body.idx "kind").asStr? = some "Namespace"

def hasFinalizers (body : Json) : Bool :=
  nonEmpty (objectMeta body).finalizers ||
    (isNamespaceKind body && nonEmpty (namespaceFinalizers body))

def stampTerminating (body : Json) : Option Json :=
  let status : Json := match body.idx "status" with
    | .obj fs => .obj fs
    | .null => .null
    | _ => .obj []
  (status.setIdx "phase" (.str "Terminating")).bind (fun s => body.setIdx "status" s)

def stampDeletionTimestamp (now : String) (body : Json) : Except Failure Json :=
  if (body.idx "metadata").idx "deletionTimestamp" = .null then
    panicOn (setMetadata body "deletionTimestamp" (.str now))
  else .ok body

def softDeleted (now : String) (body : Json) : Except Failure Json := do
  let stamped ← stampDeletionTimestamp now body
  if isNamespaceKind body then panicOn (stampTerminating stamped) else .ok stamped

def applyDeletePolicy (now : String) (body : Json) : Except Failure (Option Json) :=
  if hasFinalizers body then (softDeleted now body).map some else .ok none

def pinField (stored : Option Json) (md : List (String × Json)) (field : String) :
    List (String × Json) :=
  match stored.map (fun m : Json => m.idx field) with
  | some .null => Json.erase field md
  | some v => Json.insert field v md
  | none => Json.erase field md

def pinDeletionFields (body : Json) (stored : Option Json) : Json :=
  match body with
  | .obj fs =>
    match Json.lookup "metadata" fs with
    | some (.obj md) => .obj (Json.insert "metadata" (.obj
        (["deletionTimestamp", "deletionGracePeriodSeconds"].foldl (pinField stored) md)) fs)
    | _ => body
  | _ => body

def pinServerOwnedDeletionFields (body : Json) (stored : Option Json) : Json :=
  pinDeletionFields body (stored.map (fun s => s.idx "metadata"))

def finalizerDrainComplete (body : Json) : Bool :=
  (objectMeta body).deletionTimestamp.isSome && !nonEmpty (objectMeta body).finalizers

def finalizersOf (body : Json) : List Json := (((body.idx "metadata").idx "finalizers").asArray?).getD []

def deletionMark (body : Json) : Json := (body.idx "metadata").idx "deletionTimestamp"

def markOf (old : Option Json) : Json := old.elim .null deletionMark

theorem panicOn_ok {α : Type} {x : Option α} {a : α} (h : panicOn x = .ok a) : x = some a := by
  cases x with
  | none => cases h
  | some b =>
    cases h
    rfl

theorem except_bind_ok {ε α γ : Type} {x : Except ε α} {f : α → Except ε γ} {c : γ}
    (h : x >>= f = .ok c) : ∃ a, x = .ok a ∧ f a = .ok c := by
  cases x with
  | error e => cases h
  | ok a => exact ⟨a, rfl, h⟩

theorem setMetadata_idx (h : setMetadata body field v = some body') :
    (∀ k ≠ "metadata", body'.idx k = body.idx k) ∧ (body'.idx "metadata").idx field = v ∧
      ∀ k ≠ field, (body'.idx "metadata").idx k = (body.idx "metadata").idx k := by
  obtain ⟨md, hmd, hb⟩ := bind_eq_some_iff.mp h
  rw [Json.idx_setIdx hb]
  exact ⟨fun k hk => Json.idx_setIdx_ne hk hb, Json.idx_setIdx hmd, fun k hk => Json.idx_setIdx_ne hk hmd⟩

theorem ofMembers_iff :
    ObjectMeta.ofMembers [n, gn, ns, u, rv, ct, dt, fin, ls, as, os, ms, g, dg] = some m ↔
      optional stringOf n = some m.name ∧ optional stringOf gn = some m.generateName ∧
      optional stringOf ns = some m.ns ∧ optional stringOf u = some m.uid ∧
      optional stringOf rv = some m.resourceVersion ∧ optional stringOf ct = some m.creationTimestamp ∧
      optional stringOf dt = some m.deletionTimestamp ∧
      optional (vecOf stringOf) fin = some m.finalizers ∧ optional (mapOf stringOf) ls = some m.labels ∧
      optional (mapOf stringOf) as = some m.annotations ∧
      optional (vecOf OwnerReference.fromValue) os = some m.ownerReferences ∧
      optional (vecOf ManagedFieldsEntry.fromValue) ms = some m.managedFields ∧
      optional i64Of g = some m.generation ∧ optional i64Of dg = some m.deletionGracePeriodSeconds := by
  constructor
  · intro h
    iterate 14 obtain ⟨_, _, h⟩ := bind_eq_some_iff.mp h
    cases h
    and_intros <;> assumption
  · rintro ⟨h1, h2, h3, h4, h5, h6, h7, h8, h9, h10, h11, h12, h13, h14⟩
    simp only [ObjectMeta.ofMembers, h1, h2, h3, h4, h5, h6, h7, h8, h9, h10, h11, h12, h13, h14]
    rfl

theorem fromValue_finalizers (h : ObjectMeta.fromValue (.obj fs) = some m) :
    optional (vecOf stringOf) (Json.lookup "finalizers" fs) = some m.finalizers := by
  obtain ⟨-, -, -, -, -, -, -, hfin, -⟩ := ofMembers_iff.mp h
  exact hfin

theorem listed_eq_nil (h : optional (vecOf stringOf) (Json.lookup k fs) = some l) (hl : nonEmpty l = false) :
    (((Json.obj fs).idx k).asArray?).getD [] = [] := by
  simp only [Json.idx, Json.get?]
  cases hk : Json.lookup k fs with
  | none => rfl
  | some j =>
    rw [hk] at h
    cases j with
    | arr xs =>
      simp only [optional, defaulted, optionOf, vecOf, map_eq_some_iff] at h
      obtain ⟨ys, hys, rfl⟩ := h
      cases xs with
      | nil => rfl
      | cons x xs =>
        simp only [List.mapM_cons, bind_eq_bind, bind_eq_some_iff] at hys
        obtain ⟨_, -, _, -, hys⟩ := hys
        cases hys
        simp [nonEmpty] at hl
    | _ => rfl

theorem finalizersOf_eq_nil (hm : ObjectMeta.fromValue (body.idx "metadata") = some m)
    (hf : nonEmpty m.finalizers = false) : finalizersOf body = [] := by
  unfold finalizersOf
  cases hmd : body.idx "metadata" with
  | obj fs =>
    rw [hmd] at hm
    exact listed_eq_nil (fromValue_finalizers hm) hf
  | _ => rfl

theorem finalizersOf_of_drained (h : finalizerDrainComplete body) : finalizersOf body = [] := by
  obtain ⟨hts, hf⟩ := Bool.and_eq_true_iff.mp h
  cases hm : ObjectMeta.fromValue (body.idx "metadata") with
  | none => simp [objectMeta, hm] at hts
  | some m =>
    simp only [objectMeta, hm, Option.getD_some, Bool.not_eq_true'] at hf
    exact finalizersOf_eq_nil hm hf

theorem fromValue_insert_finalizers (h : ObjectMeta.fromValue (.obj fs) = some m) (hl : xs.mapM stringOf = some l) :
    ObjectMeta.fromValue (.obj (Json.insert "finalizers" (.arr xs) fs)) =
      some { m with finalizers := some l } := by
  have hne : ∀ n ≠ "finalizers", Json.lookup n (Json.insert "finalizers" (.arr xs) fs) =
      Json.lookup n fs := fun n hn => Json.lookup_insert_ne hn _ _
  have hnew : optional (vecOf stringOf) (some (.arr xs)) = some (some l) := by
    simp [optional, defaulted, optionOf, vecOf, hl]
  obtain ⟨h1, h2, h3, h4, h5, h6, h7, -, h9, h10, h11, h12, h13, h14⟩ := ofMembers_iff.mp h
  refine ofMembers_iff.mpr ⟨?_, ?_, ?_, ?_, ?_, ?_, ?_, ?_, ?_, ?_, ?_, ?_, ?_, ?_⟩
  all_goals beta_reduce
  case refine_8 => rwa [Json.lookup_insert_self]
  all_goals rw [hne _ (by decide)]; assumption

theorem addFinalizer_hasFinalizers (hm : ObjectMeta.fromValue (body.idx "metadata") = some m)
    (h : addFinalizer f body = some body') :
    ∃ m', ObjectMeta.fromValue (body'.idx "metadata") = some m' ∧ nonEmpty m'.finalizers := by
  obtain ⟨md, hmd, hb⟩ := bind_eq_some_iff.mp h
  rw [Json.idx_setIdx hb]
  cases hfs : body.idx "metadata" with
  | obj fs =>
    rw [hfs] at hm hmd
    cases hmd
    have hfin := fromValue_finalizers hm
    cases hx : (Json.obj fs).idx "finalizers" with
    | arr xs =>
      have hl : Json.lookup "finalizers" fs = some (.arr xs) := by
        cases hl : Json.lookup "finalizers" fs with
        | none => simp [Json.idx, Json.get?, hl] at hx
        | some v => simpa [Json.idx, Json.get?, hl] using hx
      rw [hl] at hfin
      simp only [optional, defaulted, optionOf, vecOf, map_eq_some_iff] at hfin
      obtain ⟨l, hxs, -⟩ := hfin
      dsimp only
      split_ifs with hany
      · refine ⟨_, fromValue_insert_finalizers hm hxs, ?_⟩
        cases xs with
        | nil => simp at hany
        | cons x xs =>
          simp only [List.mapM_cons, bind_eq_bind, bind_eq_some_iff] at hxs
          obtain ⟨_, -, _, -, hxs⟩ := hxs
          cases hxs
          rfl
      · have happ : (xs ++ [Json.str f]).mapM stringOf = some (l ++ [f]) := by
          rw [List.mapM_append, hxs]
          rfl
        refine ⟨_, fromValue_insert_finalizers hm happ, ?_⟩
        simp [nonEmpty]
    | _ => exact ⟨_, fromValue_insert_finalizers hm (show [Json.str f].mapM stringOf = some [f] from rfl), rfl⟩
  | _ => simp [hfs, ObjectMeta.fromValue, structFields, Json.setIdx] at hm hmd

theorem applyDeletePolicy_none (h : applyDeletePolicy now body = .ok none) : hasFinalizers body = false := by
  cases hf : hasFinalizers body with
  | false => rfl
  | true =>
    rw [applyDeletePolicy, if_pos hf] at h
    cases hs : softDeleted now body <;> simp [hs, Except.map] at h

theorem idx_pinField (stored : Option Json) (md : List (String × Json)) (field : String) :
    (Json.obj (pinField stored md field)).idx field = stored.elim .null (fun m => m.idx field) := by
  unfold pinField
  cases stored with
  | none => simp [Json.idx, Json.get?, Json.lookup_erase_self]
  | some m =>
    simp only [map_some, Option.elim]
    split
    · next hnull =>
      rw [some.inj hnull]
      simp [Json.idx, Json.get?, Json.lookup_erase_self]
    · next v _ hv =>
      rw [some.inj hv]
      simp [Json.idx, Json.get?]
    · next hno => cases hno

theorem idx_pinField_ne (stored : Option Json) (md : List (String × Json)) (hk : k ≠ field) :
    (Json.obj (pinField stored md field)).idx k = (Json.obj md).idx k := by
  unfold pinField
  split <;> simp [Json.idx, Json.get?, Json.lookup_erase_ne hk, Json.lookup_insert_ne hk]

theorem idx_pin_ne (body : Json) (old : Option Json) (hk : k ≠ "deletionTimestamp")
    (hk' : k ≠ "deletionGracePeriodSeconds") :
    ((pinServerOwnedDeletionFields body old).idx "metadata").idx k = (body.idx "metadata").idx k := by
  unfold pinServerOwnedDeletionFields pinDeletionFields
  split
  · split
    · next fs _ md hl =>
      have hmd : (Json.obj fs).idx "metadata" = .obj md := by simp [Json.idx, Json.get?, hl]
      have hpin : ∀ v, (Json.obj (Json.insert "metadata" v fs)).idx "metadata" = v := by simp [Json.idx, Json.get?]
      rw [hmd, hpin, List.foldl, List.foldl, List.foldl, idx_pinField_ne _ _ hk', idx_pinField_ne _ _ hk]
    · rfl
  · rfl

theorem deletionMark_pin (hmd : body.idx "metadata" = .obj md) (old : Option Json) :
    deletionMark (pinServerOwnedDeletionFields body old) = markOf old := by
  cases body with
  | obj fs =>
    have hl : Json.lookup "metadata" fs = some (.obj md) := by
      cases hl : Json.lookup "metadata" fs with
      | none => simp [Json.idx, Json.get?, hl] at hmd
      | some v => simpa [Json.idx, Json.get?, hl] using hmd
    have hmeta : (pinServerOwnedDeletionFields (.obj fs) old).idx "metadata" = .obj
        (pinField (old.map (fun s => s.idx "metadata")) (pinField (old.map (fun s => s.idx "metadata")) md
          "deletionTimestamp") "deletionGracePeriodSeconds") := by
      simp only [pinServerOwnedDeletionFields, pinDeletionFields, hl, Json.idx, Json.get?, Json.lookup_insert_self,
        getD_some, List.foldl]
    rw [deletionMark, hmeta, idx_pinField_ne _ _ (by decide), idx_pinField]
    cases old <;> rfl
  | _ => simp [Json.idx, Json.get?] at hmd

end U7s.Handlers
