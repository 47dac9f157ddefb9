import U7s.Handlers.FieldSelector

/-! Label selectors as texts: the parser, the filter of a list, the matching of a watch, and the projection by which
a watch passes over an object unread. -/

namespace U7s.Handlers

open List Option

open Text (trim trimEnd splitOnceText)

namespace LabelSelector

inductive LabelSelectorTerm where
  | equality (key value : String)
  | notEquals (key value : String)
  | exists (key : String)
  | doesNotExist (key : String)
  | isIn (key : String) (values : List String)
  | notIn (key : String) (values : List String)

def splitTermsFrom (piece : List Char) (depth : ℕ) : List Char → List (List Char)
  | [] => [trim piece]
  | c :: cs =>
    if c = '(' then splitTermsFrom (piece ++ [c]) (depth + 1) cs
    else if c = ')' then splitTermsFrom (piece ++ [c]) (depth - 1) cs
    else if c = ',' ∧ depth = 0 then trim piece :: splitTermsFrom [] depth cs
    else splitTermsFrom (piece ++ [c]) depth cs

def splitLabelSelectorTerms (selector : List Char) : List (List Char) := splitTermsFrom [] 0 selector

def splitSelectorTerms (selector : List Char) : List (List Char) := splitTermsFrom [] 0 selector

def parseSetValues (s : List Char) : List String :=
  let inner := trimEnd (fun c => c = ')') ((trim s).dropWhile (fun c => c = '('))
  (((inner.splitOn ',').map trim).filter (fun v => v ≠ [])).map String.ofList

def parseSetValuesGeneric (s : List Char) : List String := parseSetValues s

def invalid (part : List Char) (reason : String) : String :=
  "invalid label selector '" ++ String.ofList part ++ "': " ++ reason

def withKey (part key : List Char) (reason : String) (term : String → LabelSelectorTerm) :
    Except String LabelSelectorTerm :=
  if trim key = [] then .error (invalid part reason) else .ok (term (String.ofList (trim key)))

def equalityValue (value : List Char) : String :=
  match trim value with
  | '=' :: rest => String.ofList rest
  | v => String.ofList v

def parseTerm (part : List Char) : Except String LabelSelectorTerm :=
  match part with
  | '!' :: key => withKey part key "empty key after '!'" .doesNotExist
  | _ =>
    match splitOnceText " notin ".toList part with
    | some (key, rest) => withKey part key "empty key" (.notIn · (parseSetValuesGeneric rest))
    | none =>
      match splitOnceText " in ".toList part with
      | some (key, rest) => withKey part key "empty key" (.isIn · (parseSetValuesGeneric rest))
      | none =>
        match splitOnceText "!=".toList part with
        | some (key, value) => withKey part key "empty key" (.notEquals · (String.ofList (trim value)))
        | none =>
          match splitOnceText "=".toList part with
          | some (key, value) => withKey part key "empty key" (.equality · (equalityValue value))
          | none => withKey part part "empty key" .exists

def parseLabelSelector (selector : String) : Except String (List LabelSelectorTerm) :=
  ((splitLabelSelectorTerms selector.toList).filter (fun part => part ≠ [])).mapM parseTerm

def labelsOf (item : Json) : Option (List (String × Json)) :=
  match (item.idx "metadata").idx "labels" with
  | .obj fields => some fields
  | _ => none

def textOf (labels : Option (List (String × Json))) (key : String) : Option String :=
  (labels.bind (Json.lookup key)).bind Json.asStr?

def LabelSelectorTerm.matches (labels : Option (List (String × Json))) : LabelSelectorTerm → Bool
  | .equality key value => textOf labels key = some value
  | .notEquals key value => textOf labels key ≠ some value
  | .exists key => labels.any (fun l => (Json.lookup key l).isSome)
  | .doesNotExist key => !labels.any (fun l => (Json.lookup key l).isSome)
  | .isIn key values => (textOf labels key).any (fun v => values.contains v)
  | .notIn key values => !(textOf labels key).any (fun v => values.contains v)

def applyLabelSelector (items : List Json) (terms : List LabelSelectorTerm) : List Json :=
  if terms.isEmpty then items else items.filter (fun item => terms.all (LabelSelectorTerm.matches (labelsOf item)))

def partMatches (hasKey : String → Bool) (label : String → Option String) (part : List Char) : Bool :=
  match part with
  | [] => true
  | '!' :: key => trim key = [] || !hasKey (String.ofList (trim key))
  | _ =>
    match splitOnceText " notin ".toList part with
    | some (key, rest) => trim key = [] ||
        !(label (String.ofList (trim key))).any (fun v => (parseSetValues rest).contains v)
    | none =>
      match splitOnceText " in ".toList part with
      | some (key, rest) => trim key = [] ||
          (label (String.ofList (trim key))).any (fun v => (parseSetValues rest).contains v)
      | none =>
        match splitOnceText "!=".toList part with
        | some (key, value) => trim key = [] || label (String.ofList (trim key)) ≠ some (String.ofList (trim value))
        | none =>
          match splitOnceText "=".toList part with
          | some (key, value) => trim key = [] || label (String.ofList (trim key)) = some (equalityValue value)
          | none => trim part = [] || hasKey (String.ofList (trim part))

def labelSelectorMatches (selector : String) (hasKey : String → Bool) (label : String → Option String) : Bool :=
  selector = "" || (splitSelectorTerms selector.toList).all (partMatches hasKey label)

def objectMatchesLabelSelector (obj : Json) (selector : String) : Bool :=
  let labels := (obj.idx "metadata").idx "labels"
  labelSelectorMatches selector (fun key => (labels.get? key).isSome) (fun key => (labels.get? key).bind Json.asStr?)

def PROJECTED_FIELD_LABELS : List String := ["metadata.name", "metadata.namespace", "spec.nodeName", "spec.signerName"]

structure SelectorProjection where
  name : Option String
  ns : Option String
  labels : List (String × String)
  nodeName : Option String
  signerName : Option String

def optionalText : Option Json → Option (Option String)
  | none => some none
  | some .null => some none
  | some (.str s) => some (some s)
  | some _ => none

def textMap : Option Json → Option (List (String × String))
  | none => some []
  | some (.obj fields) => fields.mapM (fun f => f.2.asStr?.map (fun v => (f.1, v)))
  | some _ => none

def members (names : List String) : Option Json → Option (List (Option Json))
  | none => some (names.map (fun _ => none))
  | some (.obj fields) => some (names.map (fun k => Json.lookup k fields))
  | some (.arr items) =>
    if items.length ≤ names.length then some ((List.range names.length).map (fun i => items[i]?)) else none
  | some _ => none

def SelectorProjection.fromJson (j : Json) : Option SelectorProjection := do
  match ← members ["metadata", "spec"] (some j) with
  | [metadata, spec] =>
    match ← members ["name", "namespace", "labels"] metadata, ← members ["nodeName", "signerName"] spec with
    | [name, ns, labels], [nodeName, signerName] =>
      return ⟨← optionalText name, ← optionalText ns, ← textMap labels, ← optionalText nodeName,
        ← optionalText signerName⟩
    | _, _ => none
  | _ => none

def optionalJson (s : Option String) : Json := s.elim .null .str

def SelectorProjection.standInObject (p : SelectorProjection) : Json :=
  .obj [("metadata", .obj [("name", optionalJson p.name), ("namespace", optionalJson p.ns)]),
    ("spec", .obj [("nodeName", optionalJson p.nodeName), ("signerName", optionalJson p.signerName)])]

def SelectorProjection.mayMatch (p : SelectorProjection) (labelSelector : String)
    (fieldSelector : List FieldSelector.Term) : Bool :=
  labelSelectorMatches labelSelector (fun key => (p.labels.lookup key).isSome) (fun key => p.labels.lookup key) &&
    (!fieldSelector.all (fun t => PROJECTED_FIELD_LABELS.contains t.label) ||
      FieldSelector.matchesAll fieldSelector p.standInObject)

/-- The projection borrows its texts from the bytes and takes no field twice; `readable` says that nothing is
escaped or repeated. -/
def selectorProjectionNonMatch (readable : Bool) (obj : Json) (labelSelector : String)
    (fieldSelector : List FieldSelector.Term) : Option (String × String) :=
  if readable then
    match SelectorProjection.fromJson obj with
    | none => none
    | some p => if p.mayMatch labelSelector fieldSelector then none else some (p.name.getD "", p.ns.getD "")
  else none

def hasLabel (obj : Json) (key : String) : Bool := (((obj.idx "metadata").idx "labels").get? key).isSome

def labelText (obj : Json) (key : String) : Option String :=
  (((obj.idx "metadata").idx "labels").get? key).bind Json.asStr?

theorem labelsOf_bind (obj : Json) (key : String) :
    (labelsOf obj).bind (Json.lookup key) = ((obj.idx "metadata").idx "labels").get? key := by
  unfold labelsOf
  cases (obj.idx "metadata").idx "labels" <;> rfl

theorem textOf_labelsOf (obj : Json) (key : String) : textOf (labelsOf obj) key = labelText obj key := by
  rw [textOf, labelsOf_bind, labelText]

theorem any_labelsOf (obj : Json) (key : String) :
    (labelsOf obj).any (fun l => (Json.lookup key l).isSome) = hasLabel obj key := by
  rw [hasLabel, ← labelsOf_bind]
  cases labelsOf obj <;> rfl

def memberAt (obj : Json) (outer inner : String) : Option Json := (obj.get? outer).bind (fun j => j.get? inner)

structure Projects (p : SelectorProjection) (obj : Json) : Prop where
  name : optionalText (memberAt obj "metadata" "name") = some p.name
  ns : optionalText (memberAt obj "metadata" "namespace") = some p.ns
  labels : textMap (memberAt obj "metadata" "labels") = some p.labels
  nodeName : optionalText (memberAt obj "spec" "nodeName") = some p.nodeName
  signerName : optionalText (memberAt obj "spec" "signerName") = some p.signerName

theorem lookup_textMap (h : fields.mapM (fun f => f.2.asStr?.map (fun v => (f.1, v))) = some l) (key : String) :
    (Json.lookup key fields).map Json.asStr? = (l.lookup key).map some := by
  induction fields generalizing l with
  | nil =>
    cases h
    rfl
  | cons f fields ih =>
    rw [mapM_cons] at h
    obtain ⟨e, he, h⟩ := bind_eq_some_iff.mp h
    obtain ⟨l', hl', h⟩ := bind_eq_some_iff.mp h
    cases h
    obtain ⟨v, hv, rfl⟩ := map_eq_some_iff.mp he
    by_cases hkey : f.1 = key
    · subst hkey
      simp [Json.lookup, hv]
    · have hbeq : (key == f.1) = false := beq_false_of_ne (Ne.symm hkey)
      rw [Json.lookup, if_neg hkey, lookup_cons, hbeq, ih hl']

theorem idx_idx (obj : Json) (outer inner : String) :
    (obj.idx outer).idx inner = (memberAt obj outer inner).getD .null := by
  unfold Json.idx memberAt
  cases obj.get? outer <;> rfl

theorem Projects.get?_labels (h : Projects p obj) (key : String) :
    (((obj.idx "metadata").idx "labels").get? key).map Json.asStr? = (p.labels.lookup key).map some := by
  rw [idx_idx]
  have hlabels := h.labels
  cases hat : memberAt obj "metadata" "labels" with
  | none =>
    rw [hat] at hlabels
    rw [← some.inj hlabels]
    rfl
  | some j =>
    rw [hat] at hlabels
    cases j with
    | obj fields => exact lookup_textMap hlabels key
    | _ => cases hlabels

theorem Projects.hasLabel (h : Projects p obj) (key : String) :
    LabelSelector.hasLabel obj key = (p.labels.lookup key).isSome := by
  have hmap := congrArg isSome (h.get?_labels key)
  rwa [isSome_map, isSome_map] at hmap

theorem Projects.labelText (h : Projects p obj) (key : String) :
    LabelSelector.labelText obj key = p.labels.lookup key := by
  have hmap := congrArg (fun o => o.bind id) (h.get?_labels key)
  simpa [LabelSelector.labelText, bind_map] using hmap

theorem Projects.objectMatchesLabelSelector (h : Projects p obj) (selector : String) :
    LabelSelector.objectMatchesLabelSelector obj selector = labelSelectorMatches selector
      (fun key => (p.labels.lookup key).isSome) (fun key => p.labels.lookup key) := by
  have hhas : LabelSelector.hasLabel obj = fun key => (p.labels.lookup key).isSome := funext h.hasLabel
  have htext : LabelSelector.labelText obj = fun key => p.labels.lookup key := funext h.labelText
  rw [← hhas, ← htext]
  rfl

section Fields

open FieldSelector (pathOf walk)

theorem walk_memberAt (obj : Json) (outer inner : String) : walk obj [outer, inner] = memberAt obj outer inner := by
  simp [walk, memberAt]

theorem optionalText_optionalJson (s : Option String) : optionalText (some (optionalJson s)) = some s := by
  cases s <;> rfl

theorem Projects.fields (h : Projects p obj) (hlabel : label ∈ PROJECTED_FIELD_LABELS) :
    ∃ v, optionalText (walk obj (pathOf label)) = some v ∧
      optionalText (walk p.standInObject (pathOf label)) = some v ∧ walk p.standInObject (pathOf label) ≠ none := by
  simp only [PROJECTED_FIELD_LABELS, mem_cons, not_mem_nil, or_false] at hlabel
  obtain rfl | rfl | rfl | rfl := hlabel
  · rw [FieldSelector.pathOf_name, walk_memberAt]
    exact ⟨p.name, h.name, optionalText_optionalJson p.name, some_ne_none _⟩
  · rw [FieldSelector.pathOf_namespace, walk_memberAt]
    exact ⟨p.ns, h.ns, optionalText_optionalJson p.ns, some_ne_none _⟩
  · rw [FieldSelector.pathOf_nodeName, walk_memberAt]
    exact ⟨p.nodeName, h.nodeName, optionalText_optionalJson p.nodeName, some_ne_none _⟩
  · rw [FieldSelector.pathOf_signerName, walk_memberAt]
    exact ⟨p.signerName, h.signerName, optionalText_optionalJson p.signerName, some_ne_none _⟩

end Fields

end LabelSelector

end U7s.Handlers
