import U7s.Lib.Marked
import U7s.Lib.Text
import U7s.Patch.Reorder

/-! Strategic merge patches. The recursion follows the patch; the loops are given the recursive calls as arguments.
-/

namespace U7s.Patch

open Json Metered

inductive MergeKeyKind where
  | key (fields : List String)
  | set
  | replace
  | unknown
  deriving DecidableEq

def additionalPropertiesSchema (schema : Json) : Option Json :=
  (schema.get? "additionalProperties").filter Json.isObject

def findSchemaNode (schema : Json) (path : String) : Option Json :=
  (Text.segments '.' path).foldlM (fun node segment =>
    let node := (node.get? "items").getD node
    ((node.get? "properties").bind (fun p => p.get? segment)).orElse (fun _ => additionalPropertiesSchema node)) schema

def crdMergeKeyForPath (schema : Json) (path : String) : MergeKeyKind :=
  if path = "metadata.ownerReferences" then .key ["uid"]
  else if path = "metadata.finalizers" then .set
  else
    match findSchemaNode schema path with
    | none => .unknown
    | some node =>
      match (node.get? "x-kubernetes-list-type").bind Json.asStr? with
      | some "set" => .set
      | some "map" =>
        match node.get? "x-kubernetes-list-map-keys" with
        | some (.arr keys) => if keys.filterMap Json.asStr? = [] then .unknown else .key (keys.filterMap Json.asStr?)
        | _ => .unknown
      | _ => .unknown

def endsWithAny (path : String) (suffixes : List String) : Bool := suffixes.any (fun s => Text.endsWith path s)

def baseMergeKeyForPath (path : String) (schema : Option Json) : MergeKeyKind :=
  match schema with
  | some schema => crdMergeKeyForPath schema path
  | none =>
    if path ∈ ["spec.containers", "spec.initContainers", "spec.ephemeralContainers", "spec.volumes",
        "spec.imagePullSecrets", "spec.schedulingGates", "spec.resourceClaims", "spec.evictionResponders"] then
      .key ["name"]
    else if endsWithAny path [".template.spec.containers", ".template.spec.initContainers",
        ".template.spec.ephemeralContainers", ".template.spec.volumes", ".template.spec.imagePullSecrets",
        ".template.spec.schedulingGates", ".template.spec.resourceClaims", ".template.spec.evictionResponders"] then
      .key ["name"]
    else if path = "spec.topologySpreadConstraints" then .key ["topologyKey"]
    else if Text.endsWith path ".template.spec.topologySpreadConstraints" then .key ["topologyKey"]
    else if path = "spec.hostAliases" then .key ["ip"]
    else if Text.endsWith path ".template.spec.hostAliases" then .key ["ip"]
    else if endsWithAny path [".env", ".initContainers.env", ".ephemeralContainers.env"] then .key ["name"]
    else if Text.endsWith path ".volumeMounts" then .key ["mountPath"]
    else if Text.endsWith path ".volumeDevices" then .key ["devicePath"]
    else if path = "spec.ports" then .key ["port", "protocol"]
    else if Text.endsWith path ".ports" then .key ["containerPort"]
    else if path = "conditions" || Text.endsWith path ".conditions" then .key ["type"]
    else if path = "podIPs" || Text.endsWith path ".podIPs" then .key ["ip"]
    else if path = "resourceClaimStatuses" || Text.endsWith path ".resourceClaimStatuses" then .key ["name"]
    else if path = "nodeAllocatableResourceClaimStatuses" ||
        Text.endsWith path ".nodeAllocatableResourceClaimStatuses" then .key ["resourceClaimName"]
    else if path = "nodeAllocatableResourceClaimStatuses.mapping" ||
        path = "nodeAllocatableResourceClaimStatuses.overhead" ||
        endsWithAny path [".nodeAllocatableResourceClaimStatuses.mapping",
          ".nodeAllocatableResourceClaimStatuses.overhead"] then .key ["name"]
    else if path = "volumeHealth.healthConditions" || Text.endsWith path ".volumeHealth.healthConditions" ||
        path = "healthStatus.healthConditions" || Text.endsWith path ".healthStatus.healthConditions" then
      .key ["status"]
    else if path = "storageHealth" || Text.endsWith path ".storageHealth" then .key ["name"]
    else if path = "reservedFor" || Text.endsWith path ".reservedFor" then .key ["uid"]
    else if path ∈ ["addresses", "status.addresses"] then .key ["type"]
    else if path = "metadata.ownerReferences" || Text.endsWith path ".ownerReferences" then .key ["uid"]
    else if path = "secrets" then .key ["name"]
    else if Text.endsWith path ".drivers" then .key ["name"]
    else if Text.endsWith path ".matchConditions" then .key ["name"]
    else if path = "webhooks" then .key ["name"]
    else if path ∈ ["rules", "subjects"] then .replace
    else if path = "metadata.finalizers" then .set
    else .unknown

def ssaMergeKeyForPath (path : String) (schema : Option Json) : MergeKeyKind :=
  match schema, baseMergeKeyForPath path schema with
  | none, .key ["containerPort"] => .key ["containerPort", "protocol"]
  | none, .key ["topologyKey"] => .key ["topologyKey", "whenUnsatisfiable"]
  | _, kind => kind

def mergeKeyForPath (ssa : Bool) (schema : Option Json) (path : String) : MergeKeyKind :=
  if ssa then ssaMergeKeyForPath path schema else baseMergeKeyForPath path schema

section Members

def RETAIN_KEYS : String := "$retainKeys"

def PATCH_DIRECTIVE : String := "$patch"

def DELETE_FROM : String := "$deleteFromPrimitiveList/"

def SET_ORDER : String := "$setElementOrder/"

def childPath (path key : String) : String := if path = "" then key else path ++ "." ++ key

def membersOf : Json → List (String × Json)
  | .obj fs => fs
  | _ => []

def itemsOf : Json → List Json
  | .arr items => items
  | _ => []

def applyRetainKeys (target patch : List (String × Json)) : Work (List (String × Json)) :=
  match lookup RETAIN_KEYS patch with
  | none => pure target
  | some (.arr list) => do
    charge (list.length + patch.length + target.length)
    let retained := list.filterMap Json.asStr?
    if patch.all (fun f => f.1 = RETAIN_KEYS || f.2 = .null || Text.startsWith f.1 DELETE_FROM ||
        Text.startsWith f.1 SET_ORDER || f.1 ∈ retained) then
      pure (target.filter (fun f => f.1 ∈ retained))
    else throw .badRetainKeys
  | some _ => throw .badRetainKeys

def retainMembers (validated : Bool) (target patch : List (String × Json)) : Work (List (String × Json)) :=
  if validated then applyRetainKeys target patch else pure target

def applyDirective (target patch : List (String × Json)) : Work (Option (List (String × Json) × Bool)) :=
  match lookup PATCH_DIRECTIVE patch with
  | none => pure (some (target, false))
  | some d =>
    if d = .str "replace" then pure (some ([], true))
    else if d = .str "delete" then pure none
    else throw (.unknownDirective d)

def deleteFromPrimitiveList (target : List (String × Json)) (field : String) (value : Json) :
    Work (List (String × Json)) :=
  match value, lookup field target with
  | .arr toRemove, some (.arr items) => do
    charge (toRemove.length + items.length)
    pure (Json.insert field (.arr (items.filter (fun e => e ∉ toRemove))) target)
  | _, _ => pure target

def hasDeleteDirective (items : List Json) : Bool :=
  items.any (fun e => (e.get? PATCH_DIRECTIVE).bind Json.asStr? = some "delete")

def strategicMergeSetArray (target : Json) (patchArr : List Json) : Work Json := do
  charge (patchArr.length + (itemsOf target).length)
  pure (.arr (patchArr.foldl (fun items e => if e ∈ items then items else items ++ [e]) (itemsOf target)))

variable (kindAt : String → MergeKeyKind) (path : String)

/-- One member that is no directive. `into` merges the value into a target that was or was not there, `array` into a
keyed list, and `fresh` is what it contributes on its own. -/
def mergeValue (target : List (String × Json)) (key : String) (value : Json) (into : Bool → Json → Work Json)
    (array : List String → Json → Work Json) (fresh : Work (Option Json)) : Work (List (String × Json)) :=
  match value with
  | .null => pure (if key ≠ "creationTimestamp" then erase key target else target)
  | .arr items =>
    match kindAt (childPath path key) with
    | .key mergeKeys => do
      let v ← array mergeKeys ((lookup key target).getD (.arr []))
      pure (Json.insert key v target)
    | .set => do
      let v ← strategicMergeSetArray ((lookup key target).getD (.arr [])) items
      pure (Json.insert key v target)
    | _ =>
      if hasDeleteDirective items then throw (.noMergeKey (childPath path key))
      else do
        let v ← fresh
        pure (v.elim target (fun v => Json.insert key v target))
  | .obj fs =>
    if lookup key target = none ∧ lookup PATCH_DIRECTIVE fs ≠ none then pure target
    else do
      let v ← into (lookup key target).isSome ((lookup key target).getD (.obj []))
      pure (Json.insert key v target)
  | v => pure (Json.insert key v target)

def mergeMember (target : List (String × Json)) (key : String) (value : Json) (into : Bool → Json → Work Json)
    (array : List String → Json → Work Json) (fresh : Work (Option Json)) : Work (List (String × Json)) :=
  if key = RETAIN_KEYS ∨ key = PATCH_DIRECTIVE then pure target
  else
    match Text.stripPrefix DELETE_FROM key with
    | some field => deleteFromPrimitiveList target field value
    | none =>
      if Text.startsWith key SET_ORDER then pure target
      else mergeValue kindAt path target key value into array fresh

def setElementOrders (patch target : List (String × Json)) : Work (List (String × Json)) :=
  patch.foldlM (fun target f =>
    match Text.stripPrefix SET_ORDER f.1, f.2 with
    | some field, .arr orderArr =>
      match kindAt (childPath path field), lookup field target with
      | .key mergeKeys, some (.arr items) => do
        let items ← applySetElementOrder items orderArr mergeKeys
        pure (Json.insert field (.arr items) target)
      | _, _ => pure target
    | _, _ => pure target) target

def mergeObject (validateRetain : Bool) (target : Json) (patch : List (String × Json))
    (members : List (String × Json) → Work (List (String × Json))) : Work Json := do
  match ← applyDirective (membersOf target) patch with
  | none => pure (.obj [])
  | some (t, replaced) =>
    let t ← retainMembers (!replaced && target.isObject && validateRetain) t patch
    let t ← members t
    let t ← setElementOrders kindAt path patch t
    pure (.obj t)

end Members

structure Merging where
  arr : List Json
  index : KeyIndex
  deleted : List Bool

def directiveOf (e : Json) : Option String := (e.get? PATCH_DIRECTIVE).bind Json.asStr?

/-- One element of a patch list. `into` merges it into one of the list, and `fresh` is what it adds. -/
def mergeElement (mergeKeys : List String) (s : Merging) (e : Json) (into : Json → Work Json)
    (fresh : Work (Option Json)) : Work Merging :=
  match directiveOf e with
  | some d =>
    if d ≠ "delete" then throw (.unknownDirective (.str d))
    else if presentKeyFields e mergeKeys = [] then throw (.missingMergeKey mergeKeys)
    else pure { s with deleted := Marked.mark s.deleted (s.index.get (presentKeyFields e mergeKeys)) }
  | none =>
    match (s.index.get (presentKeyFields e mergeKeys)).find? (fun i => !(s.deleted.getD i false)) with
    | some i => do
      let v ← into (s.arr.getD i .null)
      pure { s with arr := s.arr.set i v }
    | none => do
      let v ← fresh
      pure ⟨s.arr ++ v.toList, s.index.insert s.arr.length (indexFields e mergeKeys), s.deleted ++ [false]⟩

def startMerging (pre patchArr : List Json) (mergeKeys : List String) : Merging where
  arr := pre
  index := pre.zipIdx.foldl (fun index e => index.insert e.2 (indexFields e.1 mergeKeys))
    (KeyIndex.new (masksOf (patchArr.map (fun e => presentKeyFields e mergeKeys))))
  deleted := pre.map (fun _ => false)

def Merging.retained (s : Merging) : List Json := Marked.kept s.arr s.deleted

def strategicMergeArray (mergeKeys : List String) (target : Json) (patchArr : List Json)
    (elements : Merging → Work Merging) : Work Json :=
  if patchArr.any (fun e => directiveOf e = some "replace") then
    pure (.arr (patchArr.filter (fun e => e.get? PATCH_DIRECTIVE = none)))
  else do
    let pre := itemsOf target
    charge (patchArr.length + pre.length)
    let s ← elements (startMerging pre patchArr mergeKeys)
    let merged ← reorderMergedArray s.retained (originalPositions pre mergeKeys)
      (patchArr.map (fun e => presentKeyFields e mergeKeys)) patchArr mergeKeys
    pure (.arr merged)

section Merge

variable (kindAt : String → MergeKeyKind)

mutual

def mergePatchInto (path : String) (validateRetain : Bool) (target : Json) : Json → Work Json
  | .obj patch => mergeObject kindAt path validateRetain target patch (fun t => mergeMembersInto path t patch)
  | _ => throw .notAnObject

def mergeMembersInto (path : String) (target : List (String × Json)) :
    List (String × Json) → Work (List (String × Json))
  | [] => pure target
  | (key, value) :: rest => do
    let t ← mergeMember kindAt path target key value
      (fun validateRetain t => mergePatchInto (childPath path key) validateRetain t value)
      (fun mergeKeys t => mergeArrayInto (childPath path key) mergeKeys t value)
      (newValue (childPath path key) value)
    mergeMembersInto path t rest

def mergeArrayInto (path : String) (mergeKeys : List String) (target : Json) : Json → Work Json
  | .arr patchArr =>
    strategicMergeArray mergeKeys target patchArr (fun s => mergeElementsInto path mergeKeys s patchArr)
  | _ => pure target

def mergeElementsInto (path : String) (mergeKeys : List String) (s : Merging) : List Json → Work Merging
  | [] => pure s
  | e :: rest => do
    let s ← mergeElement mergeKeys s e (fun t => mergePatchInto path true t e) (newValue path e)
    mergeElementsInto path mergeKeys s rest

def newValue (path : String) : Json → Work (Option Json)
  | .obj patch =>
    if lookup PATCH_DIRECTIVE patch = some (.str "delete") then pure none
    else do
      let v ← mergeObject kindAt path false (.obj []) patch (fun t => mergeMembersInto path t patch)
      pure (some v)
  | .arr items => do
    let out ← newItems path items
    pure (some (.arr out))
  | v => pure (some v)

def newItems (path : String) : List Json → Work (List Json)
  | [] => pure []
  | e :: rest =>
    if e.get? PATCH_DIRECTIVE ≠ none then newItems path rest
    else do
      let v ← newValue path e
      let out ← newItems path rest
      pure (v.toList ++ out)

end

end Merge

def runStrategicMerge (target patch : Json) (schema : Option Json) (ssa : Bool) (budget : ℕ) : Except PatchError Json :=
  match mergePatchInto (mergeKeyForPath ssa schema) "" true target patch budget with
  | .ok r => .ok r.1
  | .error e => .error e

def strategicMergePatch (target patch : Json) : Except PatchError Json :=
  runStrategicMerge target patch none false MAX_WORK

def strategicMergePatchSsa (target patch : Json) : Except PatchError Json :=
  runStrategicMerge target patch none true MAX_WORK

def strategicMergePatchForCr (target patch : Json) (schema : Option Json) : Except PatchError Json :=
  runStrategicMerge target patch schema false MAX_WORK

end U7s.Patch
