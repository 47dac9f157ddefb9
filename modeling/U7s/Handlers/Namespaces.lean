import U7s.Handlers.Finalizers
import U7s.Handlers.Reads

namespace U7s.Handlers

open Store Programs Fallible Runs
open Rbac (vecOf stringOf)

variable {β : Type} (codec : JsonCodec β)

def namespaceTarget (name : String) : Target := ⟨"", "v1", "namespaces", none, name, "Namespace"⟩

def newFinalizers (req : Json) : Option (List String) :=
  let spec := (req.idx "spec").idx "finalizers"
  (optionOf (vecOf stringOf) (if spec ≠ .null then spec else (req.idx "metadata").idx "finalizers")).getD none

def specWith (spec : Json) (finalizers : Option (List String)) : Json :=
  let rest := match spec with
    | .obj fs =>
      if (optional (vecOf stringOf) (Json.lookup "finalizers" fs)).isSome then Json.erase "finalizers" fs else []
    | _ => []
  match finalizers with
  | some fs => .obj (Json.insert "finalizers" (.arr (fs.map .str)) rest)
  | none => .obj rest

def keepFinalizers (before mutated : Json) : Option Json :=
  match (mutated.idx "spec").idx "finalizers" with
  | .null => before.setIdx "spec" (match before.idx "spec" with
    | .obj fs => .obj (Json.erase "finalizers" fs)
    | j => j)
  | f => ((before.idx "spec").setIdx "finalizers" f).bind (fun spec => before.setIdx "spec" spec)

def recordManagers (managers : Option Json) (body : Json) : Json :=
  match body with
  | .obj fs =>
    match Json.lookup "metadata" fs with
    | some (.obj md) => .obj (Json.insert "metadata" (.obj (match managers with
      | some entries => Json.insert "managedFields" entries md
      | none => Json.erase "managedFields" md)) fs)
    | _ => body
  | _ => body

structure FinalizeRequest where
  body : Json
  dryRun : Bool
  mutate : Json → Except Failure Json
  validate : Json → Except Failure Unit
  managers : Json → Json → Option Json

def FinalizeRequest.edit (q : FinalizeRequest) (before : Json) : Except Failure Json := do
  let candidate ← panicOn (before.setIdx "spec" (specWith (before.idx "spec") (newFinalizers q.body)))
  let admitted ← panicOn (keepFinalizers before (← q.mutate candidate))
  q.validate admitted
  return recordManagers (q.managers before admitted) admitted

def enforcePatchIdentity (name : String) (body : Json) : Except Failure Json :=
  match body with
  | .obj fs =>
    match Json.lookup "metadata" fs with
    | some (.obj md) =>
      let md := Json.erase "namespace" md
      let bodyName := ((Json.lookup "name" md).bind Json.asStr?).getD ""
      if bodyName = name then .ok (.obj (Json.insert "metadata" (.obj md) fs))
      else .error (.badRequest
        s!"the name of the object ({bodyName}) does not match the name on the URL ({name})")
    | _ => .error (.badRequest "metadata must be an object")
  | _ => .error (.badRequest "metadata must be an object")

def restoreStatus (body status : Json) : Option Json :=
  match status with
  | .null => some (match body with
    | .obj fs => .obj (Json.erase "status" fs)
    | j => j)
  | s => body.setIdx "status" s

structure NamespacePatch where
  dryRun : Bool
  merge : Json → Except Failure Json
  mutate : Json → Except Failure Json
  validate : Json → Except Failure Unit
  managers : Json → Json → Option Json

def NamespacePatch.edit (name : String) (q : NamespacePatch) (stored : Json) : Except Failure Json := do
  let merged ← panicOn (setMetadata (← q.merge stored) "uid" ((stored.idx "metadata").idx "uid"))
  let body ← enforcePatchIdentity name (pinServerOwnedDeletionFields merged (some stored))
  let body ← panicOn (restoreStatus body (stored.idx "status"))
  let body ← panicOn (restoreStatus (← q.mutate body) (stored.idx "status"))
  q.validate body
  return recordManagers (q.managers stored body) body

def deleteFinalizedNamespace (t : Target) : Handler β Unit := do
  let _ ← storeDelete t.key none

def whenever (c : Bool) (x : Handler β Unit) : Handler β Unit := if c then x else pure ()

def storeNamespace (t : Target) (current : Json) (expected : Option ℕ) : Handler β Json := do
  let rv ← attempt (t.report (← storePut t.key (codec.toVec current) expected))
  let answer ← attempt (panicOn (setResourceVersion current rv))
  whenever ((objectMeta current).deletionTimestamp.isSome && !nonEmpty (namespaceFinalizers current))
    (deleteFinalizedNamespace t)
  return answer

def finalizeNamespace (name : String) (q : FinalizeRequest) : Handler β Json := do
  let before ← attempt (fromBytes codec (← loadStored (namespaceTarget name)))
  let current ← attempt (q.edit before)
  if q.dryRun then return current
  let expected ← attempt (parseResourceVersion (objectMeta q.body).resourceVersion)
  storeNamespace codec (namespaceTarget name) current expected

def patchNamespace (name : String) (q : NamespacePatch) : Handler β Json := do
  let stored ← attempt (fromBytes codec (← loadStored (namespaceTarget name)))
  let current ← attempt (q.edit name stored)
  if q.dryRun then return current
  let expected ← attempt (parseResourceVersion (resourceVersion current))
  storeNamespace codec (namespaceTarget name) current expected

def deleteNamespace (name : String) (q : DeleteRequest) : Handler β Json := do
  let t := namespaceTarget name
  let body ← attempt (fromBytes codec (← loadStored t))
  attempt (q.admission body)
  match ← attempt (applyDeletePolicy q.now body) with
  | some soft =>
    if q.dryRun then return soft
    let expected ← attempt (parseResourceVersion (resourceVersion soft))
    let rv ← attempt (t.report (← storePut t.key (codec.toVec soft) expected))
    attempt (panicOn (setResourceVersion soft rv))
  | none =>
    if q.dryRun then return successStatus
    let _ ← attempt (t.report (← storeDelete t.key none))
    return successStatus

inductive NamespaceRequest where
  | delete (q : DeleteRequest)
  | finalize (q : FinalizeRequest)
  | patch (q : NamespacePatch)

def NamespaceRequest.handler (name : String) : NamespaceRequest → Handler β Json
  | .delete q => deleteNamespace codec name q
  | .finalize q => finalizeNamespace codec name q
  | .patch q => patchNamespace codec name q

def NamespaceRequest.program (name : String) (q : NamespaceRequest) : Request β :=
  (q.handler codec name).run

end U7s.Handlers
