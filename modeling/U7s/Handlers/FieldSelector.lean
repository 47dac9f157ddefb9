import U7s.Json
import U7s.Lib.Lists
import U7s.Lib.Text

namespace U7s.Handlers

open List

namespace FieldSelector

inductive Source where
  | path (path : List String)
  | bool (path : List String)
  | int (path : List String)
  | func (f : Json → String)

def walk (obj : Json) : List String → Option Json
  | [] => some obj
  | part :: path => (obj.get? part).bind (walk · path)

def strAt (obj : Json) (path : List String) : String := ((walk obj path).bind Json.asStr?).getD ""

def numberText : Number → String
  | .posInt n => toString n
  | .negInt n => toString n
  | .float text => text

def Source.get (obj : Json) : Source → String
  | .path p =>
    match walk obj p with
    | some (.str s) => s
    | some (.bool b) => if b then "true" else "false"
    | some (.num n) => numberText n
    | _ => ""
  | .bool p =>
    match walk obj p with
    | some (.bool true) => "true"
    | _ => "false"
  | .int p =>
    match walk obj p with
    | some (.num n) => numberText n
    | _ => "0"
  | .func f => f obj

def podIp (obj : Json) : String :=
  let first := (((((obj.idx "status").idx "podIPs").asArray?.bind List.head?).getD .null).idx "ip").asStr?.getD ""
  if first = "" then strAt obj ["status", "podIP"] else first

def alwaysEmpty (_ : Json) : String := ""

def eventReportingController (obj : Json) : String :=
  let controller := strAt obj ["reportingController"]
  if controller = "" then strAt obj ["reportingComponent"] else controller

def eventSource (obj : Json) : String :=
  let component := strAt obj ["source", "component"]
  if component = "" then eventReportingController obj else component

abbrev Def := String × Source

def NAME : Def := ("metadata.name", .path ["metadata", "name"])
def NAMESPACE : Def := ("metadata.namespace", .path ["metadata", "namespace"])
def SIGNER_NAME : Def := ("spec.signerName", .path ["spec", "signerName"])
def SPEC_NODE_NAME : Def := ("spec.nodeName", .path ["spec", "nodeName"])

def DEFAULT : List Def := [NAME, NAMESPACE]

def POD : List Def :=
  [NAME, NAMESPACE, SPEC_NODE_NAME, ("spec.host", .path ["spec", "nodeName"]),
    ("spec.restartPolicy", .path ["spec", "restartPolicy"]), ("spec.schedulerName", .path ["spec", "schedulerName"]),
    ("spec.serviceAccountName", .path ["spec", "serviceAccountName"]), ("spec.hostNetwork", .bool ["spec", "hostNetwork"]),
    ("status.phase", .path ["status", "phase"]), ("status.podIP", .func podIp), ("status.podIPs", .func alwaysEmpty),
    ("status.nominatedNodeName", .path ["status", "nominatedNodeName"])]

def NODE : List Def := [NAME, ("spec.unschedulable", .bool ["spec", "unschedulable"])]

def REPLICATION_CONTROLLER : List Def := [NAME, NAMESPACE, ("status.replicas", .int ["status", "replicas"])]

def involved (field : String) : List Def :=
  ["kind", "namespace", "name", "uid", "apiVersion", "resourceVersion", "fieldPath"].map (fun part =>
    (field ++ "." ++ part, .path ["involvedObject", part]))

def EVENT : List Def :=
  [NAME, NAMESPACE] ++ involved "involvedObject" ++
    [("reason", .path ["reason"]), ("reportingComponent", .func eventReportingController), ("source", .func eventSource),
      ("type", .path ["type"])]

def EVENTS_K8S_IO_EVENT : List Def :=
  [NAME, NAMESPACE] ++ involved "regarding" ++
    [("reason", .path ["reason"]), ("reportingController", .func eventReportingController), ("type", .path ["type"])]

def NAMESPACE_KIND : List Def := [NAME, ("status.phase", .path ["status", "phase"])]

def SECRET : List Def := [NAME, NAMESPACE, ("type", .path ["type"])]

def SERVICE : List Def :=
  [NAME, NAMESPACE, ("spec.clusterIP", .path ["spec", "clusterIP"]), ("spec.type", .path ["spec", "type"])]

def JOB : List Def := [NAME, NAMESPACE, ("status.successful", .int ["status", "succeeded"])]

def CSR_OR_CTB : List Def := [NAME, SIGNER_NAME]

def POD_CERTIFICATE_REQUEST : List Def :=
  [NAME, SIGNER_NAME, ("spec.podName", .path ["spec", "podName"]), SPEC_NODE_NAME]

def RESOURCE_SLICE : List Def :=
  [NAME, SPEC_NODE_NAME, ("spec.driver", .path ["spec", "driver"]), ("spec.pool.name", .path ["spec", "pool", "name"])]

inductive Reject where
  | metaDefault
  | label
  | job
  | resourceSlice

def Reject.message (label : String) : Reject → String
  | .metaDefault => "\"" ++ label ++ "\" is not a known field selector: only \"metadata.name\", \"metadata.namespace\""
  | .label => "field label not supported: " ++ label
  | .job => "field label \"" ++ label ++ "\" not supported for Job"
  | .resourceSlice => "field label not supported for resource.k8s.io/v1, Kind=ResourceSlice: " ++ label

def kindFields (group plural : String) : List Def × Reject :=
  match group, plural with
  | "", "pods" => (POD, .label)
  | "", "nodes" => (NODE, .label)
  | "", "replicationcontrollers" => (REPLICATION_CONTROLLER, .label)
  | "", "events" => (EVENT, .label)
  | "events.k8s.io", "events" => (EVENTS_K8S_IO_EVENT, .label)
  | "", "namespaces" => (NAMESPACE_KIND, .label)
  | "", "secrets" => (SECRET, .label)
  | "", "services" => (SERVICE, .label)
  | "batch", "jobs" => (JOB, .job)
  | "certificates.k8s.io", "certificatesigningrequests" => (CSR_OR_CTB, .label)
  | "certificates.k8s.io", "clustertrustbundles" => (CSR_OR_CTB, .label)
  | "certificates.k8s.io", "podcertificaterequests" => (POD_CERTIFICATE_REQUEST, .label)
  | "resource.k8s.io", "resourceslices" => (RESOURCE_SLICE, .resourceSlice)
  | _, _ => (DEFAULT, .metaDefault)

/-- `json_path_equals`: a field that is absent equals `false` as well as the empty text. -/
def jsonPathEquals (obj : Json) (field expected : String) : Bool :=
  match walk obj ((field.toList.splitOn '.').map String.ofList) with
  | none => expected = "" || expected = "false"
  | some (.str s) => s = expected
  | some (.bool b) => expected = if b then "true" else "false"
  | some .null => expected = ""
  | some (.num n) => expected = numberText n
  | some _ => false

inductive Getter where
  | static (source : Source)
  | json (path : String)

structure Term where
  label : String
  getter : Getter
  value : String
  negated : Bool

def Term.equal (t : Term) (obj : Json) : Bool :=
  match t.getter with
  | .static source => source.get obj = t.value
  | .json path => jsonPathEquals obj path t.value

def Term.matches (t : Term) (obj : Json) : Bool := t.equal obj != t.negated

def splitTermsFrom (piece : List Char) (inSlash : Bool) : List Char → List (List Char)
  | [] => [piece]
  | c :: cs =>
    if inSlash then splitTermsFrom (piece ++ [c]) false cs
    else if c = ',' then piece :: splitTermsFrom [] false cs
    else splitTermsFrom (piece ++ [c]) (c = '\\') cs

def splitTerms (selector : List Char) : List (List Char) := splitTermsFrom [] false selector

def splitTerm : List Char → Option (List Char × Bool × List Char)
  | '!' :: '=' :: value => some ([], true, value)
  | '=' :: '=' :: value => some ([], false, value)
  | '=' :: value => some ([], false, value)
  | c :: cs => (splitTerm cs).map (fun (lhs, negated, rhs) => (c :: lhs, negated, rhs))
  | [] => none

def unescape : List Char → Option (List Char)
  | '\\' :: c :: cs => if c = '\\' ∨ c = ',' ∨ c = '=' then (unescape cs).map (c :: ·) else none
  | '\\' :: [] => none
  | c :: cs => (unescape cs).map (c :: ·)
  | [] => some []

def parseTerm (resolve : String → Except String Getter) (raw : String) (part : List Char) : Except String Term :=
  let invalid := "invalid selector: '" ++ raw ++ "'; can't understand '" ++ String.ofList part ++ "'"
  match splitTerm part with
  | none => .error invalid
  | some (lhs, negated, rhs) =>
    match unescape lhs, unescape rhs with
    | some label, some value =>
      (resolve (String.ofList label)).map (fun getter => ⟨String.ofList label, getter, String.ofList value, negated⟩)
    | _, _ => .error invalid

def parseWith (raw : Option String) (resolve : String → Except String Getter) : Except String (List Term) :=
  match raw with
  | none => .ok []
  | some raw => ((splitTerms raw.toList).filter (fun p => p ≠ [])).mapM (parseTerm resolve raw)

def resolveKind (group plural label : String) : Except String Getter :=
  match (kindFields group plural).1.find? (fun d => d.1 = label) with
  | some d => .ok (.static d.2)
  | none => .error ((kindFields group plural).2.message label)

def parse (raw : Option String) (group plural : String) : Except String (List Term) :=
  parseWith raw (resolveKind group plural)

def resolveCr (namespaced : Bool) (selectableFields : List String) (label : String) : Except String Getter :=
  if label = "metadata.name" ∨ (namespaced ∧ label = "metadata.namespace") ∨ label ∈ selectableFields then
    .ok (.json label)
  else .error ("field label not supported: " ++ label)

def parseCr (raw : Option String) (namespaced : Bool) (selectableFields : List String) : Except String (List Term) :=
  parseWith raw (resolveCr namespaced selectableFields)

def matchesAll (terms : List Term) (obj : Json) : Bool := terms.all (fun t => t.matches obj)

def filter (terms : List Term) (items : List Json) : List Json :=
  if terms.isEmpty then items else items.filter (matchesAll terms)

def requiresEqual (terms : List Term) (label value : String) : Bool :=
  terms.any (fun t => !t.negated && t.label = label && t.value = value)

theorem splitTermsFrom_plain (h : ',' ∉ cs) (piece : List Char) (inSlash : Bool) :
    splitTermsFrom piece inSlash cs = [piece ++ cs] := by
  induction cs generalizing piece inSlash with
  | nil => rw [splitTermsFrom, append_nil]
  | cons c cs ih =>
    have hc : c ≠ ',' := fun hc => h (hc ▸ mem_cons_self)
    have hcs : ',' ∉ cs := fun hcs => h (mem_cons_of_mem _ hcs)
    unfold splitTermsFrom
    rw [if_neg hc, ih hcs, ih hcs, ite_self, append_assoc, singleton_append]

theorem splitTerms_plain (h : ',' ∉ cs) : splitTerms cs = [cs] :=
  splitTermsFrom_plain h [] false

theorem splitTerm_append (h : ∀ c ∈ lhs, c ≠ '=' ∧ c ≠ '!') (rhs : List Char) :
    splitTerm (lhs ++ rhs) = (splitTerm rhs).map (fun t => (lhs ++ t.1, t.2.1, t.2.2)) := by
  induction lhs with
  | nil => simp
  | cons c lhs ih =>
    obtain ⟨heq, hbang⟩ := h c mem_cons_self
    have hstep : splitTerm (c :: (lhs ++ rhs)) =
        (splitTerm (lhs ++ rhs)).map (fun t => (c :: t.1, t.2.1, t.2.2)) := by
      rw [splitTerm]
      · exact fun _ hc => absurd hc hbang
      · exact fun _ hc => absurd hc heq
      · exact heq
    rw [cons_append, hstep, ih (fun x hx => h x (mem_cons_of_mem _ hx)), Option.map_map]
    rfl

theorem unescape_plain (h : '\\' ∉ cs) : unescape cs = some cs := by
  induction cs with
  | nil => rfl
  | cons c cs ih =>
    have hc : c ≠ '\\' := fun hc => h (hc ▸ mem_cons_self)
    have hcs : '\\' ∉ cs := fun hcs => h (mem_cons_of_mem _ hcs)
    rw [unescape, ih hcs]
    · rfl
    · exact fun _ _ hc' => absurd hc' hc
    · exact fun hc' => absurd hc' hc

theorem parseWith_single (hterm : splitTerm raw.toList = some (label.toList, false, value.toList))
    (hcomma : ',' ∉ raw.toList) (hlabel : '\\' ∉ label.toList) (hvalue : '\\' ∉ value.toList)
    (h : parseWith (some raw) resolve = .ok terms) :
    ∃ getter, resolve label = .ok getter ∧ terms = [⟨label, getter, value, false⟩] := by
  have hne : raw.toList ≠ [] := by
    intro hnil
    rw [hnil] at hterm
    cases hterm
  simp only [parseWith, splitTerms_plain hcomma, filter_cons_of_pos (p := fun p => decide (p ≠ []))
    (decide_eq_true hne), mapM_cons, parseTerm, hterm, unescape_plain hlabel,
    unescape_plain hvalue, String.ofList_toList] at h
  cases hres : resolve label with
  | error e =>
    rw [hres] at h
    cases h
  | ok getter =>
    rw [hres] at h
    cases h
    exact ⟨getter, rfl, rfl⟩

theorem resolve_of_mem (h : parseWith raw resolve = .ok terms) (ht : t ∈ terms) : resolve t.label = .ok t.getter := by
  cases raw with
  | none =>
    cases h
    exact absurd ht not_mem_nil
  | some raw =>
    obtain ⟨part, -, hpart⟩ := Lists.mem_of_mapM h ht
    unfold parseTerm at hpart
    split at hpart
    · cases hpart
    · next lhs negated rhs hsplit =>
      split at hpart
      · next label value hlabel hvalue =>
        cases hres : resolve (String.ofList label) with
        | error e =>
          rw [hres] at hpart
          cases hpart
        | ok getter =>
          rw [hres] at hpart
          cases hpart
          exact hres
      · cases hpart

theorem find_NAME (defs : List Def) : (NAME :: defs).find? (fun d => d.1 = "metadata.name") = some NAME :=
  find?_cons_of_pos (by simp [NAME])

theorem kindFields_name (group plural : String) :
    (kindFields group plural).1.find? (fun d => d.1 = "metadata.name") = some NAME := by
  unfold kindFields
  split <;> exact find_NAME _

theorem kindFields_nodeName (h : (kindFields group plural).1.find? (fun d => d.1 = "spec.nodeName") = some d) :
    d = SPEC_NODE_NAME := by
  unfold kindFields at h
  split at h
  all_goals first
    | exact (Option.some.inj (show some SPEC_NODE_NAME = some d from h)).symm
    | exact absurd (show none = some d from h) (by simp)

theorem kindFields_namespace
    (h : (kindFields group plural).1.find? (fun d => d.1 = "metadata.namespace") = some d) : d = NAMESPACE := by
  unfold kindFields at h
  split at h
  all_goals first
    | exact (Option.some.inj (show some NAMESPACE = some d from h)).symm
    | exact absurd (show none = some d from h) (by simp)

theorem kindFields_signerName
    (h : (kindFields group plural).1.find? (fun d => d.1 = "spec.signerName") = some d) : d = SIGNER_NAME := by
  unfold kindFields at h
  split at h
  all_goals first
    | exact (Option.some.inj (show some SIGNER_NAME = some d from h)).symm
    | exact absurd (show none = some d from h) (by simp)

def pathOf (label : String) : List String := (label.toList.splitOn '.').map String.ofList

theorem pathOf_name : pathOf "metadata.name" = ["metadata", "name"] := by decide +kernel

theorem pathOf_namespace : pathOf "metadata.namespace" = ["metadata", "namespace"] := by decide +kernel

theorem pathOf_nodeName : pathOf "spec.nodeName" = ["spec", "nodeName"] := by decide +kernel

theorem pathOf_signerName : pathOf "spec.signerName" = ["spec", "signerName"] := by decide +kernel

theorem resolveKind_path
    (hlabel : label ∈ ["metadata.name", "metadata.namespace", "spec.nodeName", "spec.signerName"])
    (h : resolveKind group plural label = .ok getter) : getter = .static (.path (pathOf label)) := by
  unfold resolveKind at h
  split at h
  · next d hd =>
    cases h
    simp only [mem_cons, not_mem_nil, or_false] at hlabel
    obtain rfl | rfl | rfl | rfl := hlabel
    · rw [kindFields_name] at hd
      cases hd
      rfl
    · rw [kindFields_namespace hd]
      rfl
    · rw [kindFields_nodeName hd]
      rfl
    · rw [kindFields_signerName hd]
      rfl
  · cases h

end FieldSelector

end U7s.Handlers
