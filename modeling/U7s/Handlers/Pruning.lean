import U7s.Handlers.CustomResources

/-! Custom resources are pruned to the members that their schema knows. -/

namespace U7s.CustomResources

open Patch
open List hiding lookup insert erase
open Json (lookup depth)

def CR_KNOWN_METADATA_FIELDS : List String :=
  ["name", "generateName", "namespace", "selfLink", "uid", "resourceVersion", "generation", "creationTimestamp",
    "deletionTimestamp", "deletionGracePeriodSeconds", "labels", "annotations", "ownerReferences", "finalizers",
    "managedFields", "clusterName"]

def joinCrFieldPath (path key : String) : String := if path = "" then key else path ++ "." ++ key

def preservesUnknown (schema : Json) : Bool := schema.get? "x-kubernetes-preserve-unknown-fields" = some (.bool true)

def embedded (schema : Json) : Bool := schema.get? "x-kubernetes-embedded-resource" = some (.bool true)

def declared (schema : Json) (key : String) : Option Json :=
  (lookup key ((properties schema).getD [])).or
    (match schema.get? "additionalProperties" with
    | some (.obj ps) => some (.obj ps)
    | some (.bool _) => if preservesUnknown schema then none else some (.obj [])
    | _ => none)

def prunedItems (schema : Json) : Option Json :=
  (schema.get? "items").or (if preservesUnknown schema then none else some (.obj []))

/-- What becomes of a member. -/
inductive Rule where
  | keep
  | metadata
  | under (schema : Json)
  | drop

def rule (schema : Json) (allowTypeMeta : Bool) (key : String) : Rule :=
  if allowTypeMeta ∧ (key = "apiVersion" ∨ key = "kind") then .keep
  else if allowTypeMeta ∧ key = "metadata" then .metadata
  else
    match declared schema key with
    | some s => .under s
    | none => if preservesUnknown schema then .keep else .drop

def isKnown (m : String × Json) : Bool := m.1 ∈ CR_KNOWN_METADATA_FIELDS

def pruneMetadata (track : Bool) (path : String) : Json → Json × List String
  | .obj ms =>
    (.obj (ms.filter isKnown),
      if track then (ms.filter (fun m => !isKnown m)).map (fun m => joinCrFieldPath path ("metadata." ++ m.1)) else [])
  | j => (j, [])

mutual

/-- The value that is left, and the paths that are reported. -/
def pruneCrUnknownFields (track : Bool) (schema : Json) (path : String) (allowTypeMeta : Bool) :
    Json → Json × List String
  | .obj fs =>
    let r := pruneMembers track schema path allowTypeMeta fs
    (.obj r.1, r.2)
  | .arr items =>
    match prunedItems schema with
    | some s =>
      let r := pruneItems track s path allowTypeMeta items
      (.arr r.1, r.2)
    | none => (.arr items, [])
  | v => (v, [])

def pruneMembers (track : Bool) (schema : Json) (path : String) (allowTypeMeta : Bool) :
    List (String × Json) → List (String × Json) × List String
  | [] => ([], [])
  | (key, v) :: fs =>
    let rest := pruneMembers track schema path allowTypeMeta fs
    match rule schema allowTypeMeta key with
    | .keep => ((key, v) :: rest.1, rest.2)
    | .metadata =>
      let r := pruneMetadata track path v
      ((key, r.1) :: rest.1, r.2 ++ rest.2)
    | .under s =>
      let r := pruneCrUnknownFields track s (joinCrFieldPath path key) (embedded s) v
      ((key, r.1) :: rest.1, r.2 ++ rest.2)
    | .drop => (rest.1, if track then joinCrFieldPath path key :: rest.2 else rest.2)

def pruneItems (track : Bool) (schema : Json) (path : String) (allowTypeMeta : Bool) :
    List Json → List Json × List String
  | [] => ([], [])
  | v :: items =>
    let r := pruneCrUnknownFields track schema path allowTypeMeta v
    let rest := pruneItems track schema path allowTypeMeta items
    (r.1 :: rest.1, r.2 ++ rest.2)

end

/-- What `HeaderValue::from_str` takes. -/
def isHeader (s : String) : Bool := s.toList.all (fun c => (32 ≤ c.toNat ∧ c.toNat ≠ 127) ∨ c = '\t')

/-- The body that is left, and a warning or the message of a 422. -/
def applyCrFieldValidation (body : Json) (schema : Option Json) (mode : Option String) (isSsa : Bool) :
    Json × Except String (Option String) :=
  match schema with
  | none => (body, .ok none)
  | some schema =>
    let mode := mode.getD "Ignore"
    let r := pruneCrUnknownFields (mode != "Ignore") schema "" true body
    let joined := ", ".intercalate (r.2.map (fun f =>
      if isSsa then "." ++ f ++ ": field not declared in schema" else "unknown field \"" ++ f ++ "\""))
    let msg := "299 - \"" ++ joined ++ "\""
    (r.1,
      if r.2 = [] then .ok none
      else if mode = "Strict" then .error (if isSsa then joined else "strict decoding error: " ++ joined)
      else if mode = "Warn" then .ok (some (if isHeader msg then msg else "299 - \"unknown field(s) detected\""))
      else .ok none)

inductive Step where
  | key (k : String)
  | item (i : ℕ)

def at? : List Step → Json → Option Json
  | [], v => some v
  | .key k :: path, .obj fs => (lookup k fs).bind (at? path)
  | .item i :: path, .arr items => items[i]?.bind (at? path)
  | _, _ => none

def admitsMetadata : List Step → Bool
  | .key m :: _ => m ∈ CR_KNOWN_METADATA_FIELDS
  | _ => true

/-- The path stays. An item is an embedded resource if its own schema says so; `inherit` is for an item that takes
this over from its list. -/
def admits (inherit : Bool) (schema : Json) (typeMeta : Bool) : List Step → Bool
  | [] => true
  | .key k :: path =>
    match rule schema typeMeta k with
    | .keep => true
    | .metadata => admitsMetadata path
    | .under s => admits inherit s (embedded s) path
    | .drop => false
  | .item _ :: path =>
    match prunedItems schema with
    | some s => admits inherit s (if inherit then typeMeta else embedded s) path
    | none => true

variable {track : Bool} {schema : Json} {path : String} {tm : Bool}

/-- `w` is what is left of `v` if it stays or not: a scalar is left as it is. -/
def Left (stays : Bool) (v w : Option Json) : Prop :=
  if stays then Option.Rel (fun x y => depth x = 0 → y = x) v w else w = none

theorem length_pruneMembers (fs : List (String × Json)) :
    (pruneMembers track schema path tm fs).1.length ≤ fs.length := by
  induction fs with
  | nil => rfl
  | cons f fs ih => cases hr : rule schema tm f.1 <;> simp [pruneMembers, hr] <;> omega

theorem reported_iff (v : Json) : (pruneCrUnknownFields true schema path tm v).2 = [] ↔
    (pruneCrUnknownFields true schema path tm v).1 = v := by
  induction v using members_induction generalizing schema path tm with
  | obj fs ih =>
    simp only [pruneCrUnknownFields, Json.obj.injEq]
    induction fs with
    | nil => exact ⟨fun _ => rfl, fun _ => rfl⟩
    | cons f fs ihf =>
      obtain ⟨key, v⟩ := f
      obtain ⟨hv, hfs⟩ := forall_mem_cons.mp ih
      have hrest := ihf hfs
      cases hr : rule schema tm key with
      | keep => simp [pruneMembers, hr, hrest]
      | metadata =>
        have hmeta : (pruneMetadata true path v).2 = [] ↔ (pruneMetadata true path v).1 = v := by
          cases v <;> simp [pruneMetadata]
        simp [pruneMembers, hr, hrest, hmeta]
      | under s => simp [pruneMembers, hr, hrest, hv]
      | drop =>
        have hlength : (pruneMembers true schema path tm fs).1.length ≤ fs.length := length_pruneMembers fs
        have hne : (pruneMembers true schema path tm fs).1 ≠ (key, v) :: fs := by
          intro he
          rw [he] at hlength
          simp at hlength
        simp [pruneMembers, hr, hne]
  | arr items ih =>
    cases hs : prunedItems schema with
    | none => simp [pruneCrUnknownFields, hs]
    | some s =>
      simp only [pruneCrUnknownFields, hs, Json.arr.injEq]
      induction items with
      | nil => exact ⟨fun _ => rfl, fun _ => rfl⟩
      | cons v items ihi =>
        obtain ⟨hv, hitems⟩ := forall_mem_cons.mp ih
        simp [pruneItems, hv, ihi hitems]
  | rest v hv =>
    cases v with
    | obj fs => simp [depth] at hv
    | arr items => simp [depth] at hv
    | _ => exact ⟨fun _ => rfl, fun _ => rfl⟩

theorem strict_ok_iff (body : Json) (isSsa : Bool) :
    (applyCrFieldValidation body (some schema) (some "Strict") isSsa).2 = .ok none ↔
      (applyCrFieldValidation body (some schema) (some "Strict") isSsa).1 = body := by
  have h : (pruneCrUnknownFields true schema "" true body).2 = [] ↔ _ := reported_iff body
  have hstrict : ("Strict" != "Ignore") = true := by decide
  simp only [applyCrFieldValidation, Option.getD_some, hstrict, if_true, ← h]
  split_ifs with hr <;> simp [hr]

/-- A list of one resource, and a schema with the given one for its items. -/
def listed (items : List (String × Json)) : Json × Json :=
  (.obj [("properties", .obj [("spec", .obj [("items", .obj items)])])],
    .obj [("spec", .arr [.obj [("kind", .str "Pod"), ("name", .str "p")]])])

end U7s.CustomResources
