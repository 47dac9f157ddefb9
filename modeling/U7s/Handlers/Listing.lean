import U7s.Handlers.LabelSelector
import U7s.Store.Listing

/-! LIST: the part of a field selector that the store evaluates, the filter over the rest, and the bodies of a page.
-/

namespace U7s.Handlers

open List

open FieldSelector (Term walk pathOf matchesAll numberText)
open LabelSelector (LabelSelectorTerm applyLabelSelector)
open Store (Db Row StoreObject ListOptions listSync groupListPrefix prefixUpperBound inRange like selected)
open Text (startsWith)

/-- Only the first `=` term over an indexed field goes to the store. -/
def FieldSelector.storeSelector (terms : List Term) : Option Store.FieldSelector :=
  (terms.find? (fun t =>
    (t.label = "metadata.name" || t.label = "metadata.namespace" || t.label = "spec.nodeName") && !t.negated)).map
    (fun t => ⟨t.label, t.value, false⟩)

def isControl (c : Char) : Bool := c.toNat < 0x20 || (0x7f ≤ c.toNat && c.toNat ≤ 0x9f)

def validatePathSegment (label value : String) : Except String Unit :=
  let refuse (reason : String) : Except String Unit := .error ("invalid " ++ label ++ " '" ++ value ++ "': " ++ reason)
  if value = "" then refuse "must not be empty"
  else if value = "." ∨ value = ".." then refuse "may not be '.' or '..'"
  else if '/' ∈ value.toList then refuse "may not contain '/'"
  else if '%' ∈ value.toList then refuse "may not contain '%'"
  else if '\\' ∈ value.toList then refuse "may not contain '\\'"
  else if value.toList.any (fun c => isControl c || Text.isWhitespace c) then
    refuse "may not contain control characters or whitespace"
  else .ok ()

/-- Defaults filled in on a read leave the indexed fields alone, and SQLite prints no array and no object as the
empty text. -/
structure ListServer (β : Type) where
  codec : JsonCodec β
  render : Json → String
  applyDefaults : Json → Json
  tableRow : Json → Json
  render_ne : ∀ v, render v ≠ ""
  walk_applyDefaults : ∀ obj, ∀ label ∈ ["metadata.name", "metadata.namespace", "spec.nodeName"],
    walk (applyDefaults obj) (pathOf label) = walk obj (pathOf label)

variable {β : Type} (S : ListServer β)

def ListServer.matches (terms : List Term) (value : β) : Bool :=
  (S.codec.fromSlice value).any (fun obj => matchesAll terms (S.applyDefaults obj))

def narrowedItems (db : Db β) (p : String) (terms : List Term) : Option (List (StoreObject β)) :=
  (listSync S.codec S.render db p ⟨FieldSelector.storeSelector terms, none, none⟩).map
    (fun r => r.items.filter (fun o => S.matches terms o.value))

def prefixedItems (db : Db β) (p : String) (terms : List Term) : List (StoreObject β) :=
  (db.objectsWhere (fun key _ => startsWith key p)).filter (fun o => S.matches terms o.value)

/-- Whether the store's condition on a field reads what the filter reads: the columns keep texts only, and
`json_extract` keeps numbers apart from texts. -/
def indexReads (p label : String) (obj : Json) : Bool :=
  match walk obj (pathOf label) with
  | some (.str _) => true
  | none | some .null => label ≠ "metadata.name"
  | some (.bool _) => label = "spec.nodeName" && !startsWith p "/registry/pods/"
  | some (.num n) =>
    (label = "spec.nodeName" && !startsWith p "/registry/pods/") || (label = "metadata.namespace" && numberText n = "")
  | some (.arr _) | some (.obj _) => label = "metadata.namespace"

def inPlace (p upper label key : String) : Bool :=
  if label = "spec.nodeName" ∧ startsWith p "/registry/pods/" then like (p ++ "%").toList key.toList
  else inRange p upper key

section Narrowing

theorem asStr?_idx_idx (obj : Json) (outer inner : String) :
    ((obj.idx outer).idx inner).asStr? = (walk obj [outer, inner]).bind Json.asStr? := by
  rw [LabelSelector.walk_memberAt, LabelSelector.idx_idx]
  cases LabelSelector.memberAt obj outer inner with
  | none | some v => rfl

theorem jsonPathEquals_get (obj : Json) (label : String) :
    FieldSelector.jsonPathEquals obj label ((FieldSelector.Source.path (pathOf label)).get obj) =
      (match walk obj (pathOf label) with
      | some (.arr _) | some (.obj _) => false
      | _ => true) := by
  unfold FieldSelector.jsonPathEquals FieldSelector.Source.get pathOf
  cases hv : walk obj ((label.toList.splitOn '.').map String.ofList) with
  | none => simp [hv]
  | some v => cases v <;> simp [hv]

variable {S}

theorem selected_eq_indexReads (hparse : S.codec.fromSlice row.value = some obj)
    (hns : row.ns = ((obj.idx "metadata").idx "namespace").asStr?)
    (hname : row.objName = ((obj.idx "metadata").idx "name").asStr?)
    (hlabel : label ∈ ["metadata.name", "metadata.namespace", "spec.nodeName"])
    (hget : (FieldSelector.Source.path (pathOf label)).get obj = value) :
    selected S.codec S.render p upper (some ⟨label, value, false⟩) key row =
      (inPlace p upper label key && indexReads p label obj) := by
  simp only [mem_cons, not_mem_nil, or_false] at hlabel
  rw [asStr?_idx_idx, ← FieldSelector.pathOf_namespace] at hns
  rw [asStr?_idx_idx, ← FieldSelector.pathOf_name] at hname
  obtain rfl | rfl | rfl := hlabel
  · have hsel : selected S.codec S.render p upper (some ⟨"metadata.name", value, false⟩) key row =
        (inRange p upper key && row.objName = some value) := by simp [selected]
    rw [hsel, hname, ← hget]
    unfold inPlace indexReads FieldSelector.Source.get
    cases hv : walk obj (pathOf "metadata.name") with
    | none => simp [hv]
    | some v => cases v <;> simp [hv, Json.asStr?]
  · have hsel : selected S.codec S.render p upper (some ⟨"metadata.namespace", value, false⟩) key row =
        (inRange p upper key && (row.ns = some value || (value = "" && row.ns = none))) := by simp [selected]
    rw [hsel, hns, ← hget]
    unfold inPlace indexReads FieldSelector.Source.get
    cases hv : walk obj (pathOf "metadata.namespace") with
    | none => simp [hv]
    | some v =>
      cases v with
      | bool b => cases b <;> simp [hv, Json.asStr?]
      | _ => simp [hv, Json.asStr?]
  · by_cases hpods : startsWith p "/registry/pods/"
    · have hsel : selected S.codec S.render p upper (some ⟨"spec.nodeName", value, false⟩) key row =
          (like (p ++ "%").toList key.toList &&
            (Store.jsonExtract S.render obj ["spec", "nodeName"]).equalsOrAbsent value) := by
        simp [selected, hpods, hparse]
      rw [hsel, ← hget, ← FieldSelector.pathOf_nodeName]
      unfold inPlace indexReads FieldSelector.Source.get Store.jsonExtract
      cases hv : walk obj (pathOf "spec.nodeName") with
      | none => simp [hv, hpods, Store.SqlValue.equalsOrAbsent]
      | some v => cases v <;> simp [hv, hpods, Store.SqlValue.equalsOrAbsent, S.render_ne]
    · have hsel : selected S.codec S.render p upper (some ⟨"spec.nodeName", value, false⟩) key row =
          (inRange p upper key && FieldSelector.jsonPathEquals obj "spec.nodeName" value) := by
        simp [selected, hpods, Store.matchesSelector, hparse]
      rw [hsel, ← hget, jsonPathEquals_get]
      unfold inPlace indexReads
      cases hv : walk obj (pathOf "spec.nodeName") with
      | none => simp [hpods]
      | some v => cases v <;> simp [hpods]

theorem storeSelector_some (h : FieldSelector.storeSelector terms = some sel) :
    ∃ t ∈ terms, sel = ⟨t.label, t.value, false⟩ ∧
      t.label ∈ ["metadata.name", "metadata.namespace", "spec.nodeName"] ∧ t.negated = false := by
  obtain ⟨t, ht, rfl⟩ := Option.map_eq_some_iff.mp h
  have hcond := find?_some ht
  simp only [Bool.and_eq_true, Bool.or_eq_true, decide_eq_true_eq, Bool.not_eq_true', or_assoc] at hcond
  refine ⟨t, mem_of_find?_eq_some ht, rfl, ?_, hcond.2⟩
  simp only [mem_cons, not_mem_nil, or_false]
  exact hcond.1

theorem get_of_matchesAll (hterms : FieldSelector.parse raw group plural = .ok terms)
    (hsel : FieldSelector.storeSelector terms = some sel) (hmatch : matchesAll terms (S.applyDefaults obj)) :
    sel.negated = false ∧ sel.field ∈ ["metadata.name", "metadata.namespace", "spec.nodeName"] ∧
      (FieldSelector.Source.path (pathOf sel.field)).get obj = sel.value := by
  obtain ⟨t, ht, rfl, hlabel, hneg⟩ := storeSelector_some hsel
  refine ⟨rfl, hlabel, ?_⟩
  have hgetter : t.getter = .static (.path (pathOf t.label)) := by
    apply FieldSelector.resolveKind_path _ (FieldSelector.resolve_of_mem hterms ht)
    simp only [mem_cons] at hlabel ⊢
    tauto
  have hequal : t.matches (S.applyDefaults obj) := all_eq_true.mp hmatch t ht
  rw [Term.matches, hneg, Term.equal, hgetter] at hequal
  simp only [Bool.bne_false, decide_eq_true_eq] at hequal
  rw [← hequal]
  simp only [FieldSelector.Source.get, S.walk_applyDefaults obj t.label hlabel]

theorem selected_of_matchesAll (hterms : FieldSelector.parse raw group plural = .ok terms)
    (hsel : FieldSelector.storeSelector terms = some sel) (hrow : row.Stamped S.codec)
    (hparse : S.codec.fromSlice row.value = some obj) (hmatch : matchesAll terms (S.applyDefaults obj)) :
    selected S.codec S.render p upper (some sel) key row =
      (inPlace p upper sel.field key && indexReads p sel.field obj) := by
  obtain ⟨hneg, hlabel, hget⟩ := get_of_matchesAll hterms hsel hmatch
  obtain ⟨obj', hobj', -, hns, hname⟩ := hrow
  rw [hparse] at hobj'
  cases hobj'
  have heta : sel = ⟨sel.field, sel.value, false⟩ := by rw [← hneg]
  conv_lhs => rw [heta]
  exact selected_eq_indexReads hparse hns hname hlabel hget

theorem inPlace_of_startsWith (label : String) (h : startsWith key (q ++ "/")) :
    inPlace (q ++ "/") (q ++ "0") label key := by
  unfold inPlace
  split_ifs
  · have hpattern : (q ++ "/" ++ "%").toList = (q ++ "/").toList ++ ['%'] := String.toList_append
    rw [hpattern]
    exact Store.like_of_prefix (Text.startsWith_iff.mp h)
  · rw [Store.inRange_slash]
    exact h

theorem selected_eq_startsWith_iff (hterms : FieldSelector.parse raw group plural = .ok terms)
    (hsel : FieldSelector.storeSelector terms = some sel) (hrow : row.Stamped S.codec)
    (hparse : S.codec.fromSlice row.value = some obj) (hmatch : matchesAll terms (S.applyDefaults obj))
    (q : String) :
    selected S.codec S.render (q ++ "/") (q ++ "0") (some sel) key row = startsWith key (q ++ "/") ↔
      (startsWith key (q ++ "/") → indexReads (q ++ "/") sel.field obj) ∧
        (sel.field = "spec.nodeName" → startsWith (q ++ "/") "/registry/pods/" →
          like (q ++ "/" ++ "%").toList key.toList → ¬ startsWith key (q ++ "/") →
          ¬ indexReads (q ++ "/") sel.field obj) := by
  rw [selected_of_matchesAll hterms hsel hrow hparse hmatch]
  by_cases hpods : sel.field = "spec.nodeName" ∧ startsWith (q ++ "/") "/registry/pods/"
  · have hlike : startsWith key (q ++ "/") → like (q ++ "/" ++ "%").toList key.toList := by
      intro h
      rw [← inPlace_of_startsWith sel.field h, inPlace, if_pos hpods]
    rw [inPlace, if_pos hpods, Bool.eq_iff_iff, Bool.and_eq_true]
    constructor
    · intro h
      exact ⟨fun hs => (h.mpr hs).2, fun _ _ hl hs hr => hs (h.mp ⟨hl, hr⟩)⟩
    · rintro ⟨hin, hout⟩
      constructor
      · rintro ⟨hl, hr⟩
        by_contra hs
        exact hout hpods.1 hpods.2 hl hs hr
      · exact fun hs => ⟨hlike hs, hin hs⟩
  · rw [inPlace, if_neg hpods, Store.inRange_slash, Bool.and_eq_left_iff_imp]
    constructor
    · intro h
      exact ⟨h, fun hfield hunder => absurd ⟨hfield, hunder⟩ hpods⟩
    · exact fun h => h.1

/-- The narrowed list is the full one exactly if the store reads the field of every object that the filter keeps,
and of no object that only the `LIKE` pattern finds. -/
theorem narrowedItems_eq_iff (S : ListServer β) (db : Db β) (hdb : Db.Sound S.codec db) (group plural : String)
    (ns raw : Option String) (terms : List Term) (hterms : FieldSelector.parse raw group plural = .ok terms) :
    narrowedItems S db (groupListPrefix group plural ns) terms =
        some (prefixedItems S db (groupListPrefix group plural ns) terms) ↔
      ∀ sel ∈ FieldSelector.storeSelector terms, ∀ key row obj, db.objects.lookup key = some row →
        S.codec.fromSlice row.value = some obj → matchesAll terms (S.applyDefaults obj) →
        (startsWith key (groupListPrefix group plural ns) →
          indexReads (groupListPrefix group plural ns) sel.field obj) ∧
        (sel.field = "spec.nodeName" → startsWith (groupListPrefix group plural ns) "/registry/pods/" →
          like (groupListPrefix group plural ns ++ "%").toList key.toList →
          ¬ startsWith key (groupListPrefix group plural ns) →
          ¬ indexReads (groupListPrefix group plural ns) sel.field obj) := by
  obtain ⟨q, hq⟩ := Store.groupListPrefix_slash group plural ns
  rw [hq]
  have hne : q ++ "/" ≠ "" := by simp
  obtain ⟨all, hall, hitems⟩ := Store.listSync_unlimited S.codec S.render (Store.prefixUpperBound_slash q)
    (Or.inl hne : q ++ "/" ≠ "" ∨ "" ∉ db.objects) (FieldSelector.storeSelector terms)
  rw [narrowedItems, prefixedItems, hall, Option.map_some, Option.some_inj, hitems, db.filter_objectsWhere,
    db.filter_objectsWhere, Db.objectsWhere_eq_iff]
  cases hsel : FieldSelector.storeSelector terms with
  | none => simp [selected, Store.inRange_slash]
  | some sel =>
    simp only [Option.mem_some_iff, forall_eq']
    constructor
    · intro hagree key row obj hrow hparse hmatch
      have hrows := hagree key row hrow
      have hkeep : S.matches terms row.value := by
        rw [ListServer.matches, hparse]
        exact hmatch
      rw [hkeep, Bool.and_true, Bool.and_true] at hrows
      exact (selected_eq_startsWith_iff hterms hsel (hdb.stamped key row hrow) hparse hmatch q).mp hrows
    · intro hreads key row hrow
      cases hkeep : S.matches terms row.value with
      | false => rw [Bool.and_false, Bool.and_false]
      | true =>
        rw [ListServer.matches, Option.any_eq_true] at hkeep
        obtain ⟨obj, hparse, hmatch⟩ := hkeep
        rw [Bool.and_true, Bool.and_true]
        exact (selected_eq_startsWith_iff hterms hsel (hdb.stamped key row hrow) hparse hmatch q).mpr
          (hreads key row obj hrow hparse hmatch)

def plainServer : ListServer (Option Json) where
  codec := JsonCodec.parsed
  render := fun _ => "[]"
  applyDefaults := id
  tableRow := id
  render_ne := fun _ => by simp
  walk_applyDefaults := fun _ _ _ => rfl

def podOn (ns name : String) (node : Json) (resourceVersion : String) : Json :=
  .obj [("metadata", .obj [("name", .str name), ("namespace", .str ns), ("resourceVersion", .str resourceVersion)]),
    ("spec", .obj [("nodeName", node)])]

def podDb (ns : String) (node : Json) : Db (Option Json) :=
  ⟨(∅ : AList (fun _ : String => Row (Option Json))).insert (Store.objectKey "pods" ns "p")
    ⟨some (podOn ns "p" node "1"), 1, some ns, some "p"⟩, 1⟩

theorem podDb_lookup (h : (podDb ns node).objects.lookup key = some row) :
    key = Store.objectKey "pods" ns "p" ∧ row = ⟨some (podOn ns "p" node "1"), 1, some ns, some "p"⟩ := by
  by_cases hkey : key = Store.objectKey "pods" ns "p"
  · subst hkey
    rw [podDb, AList.lookup_insert] at h
    exact ⟨rfl, (Option.some.inj h).symm⟩
  · rw [podDb, AList.lookup_insert_ne hkey] at h
    cases h

theorem podDb_sound (h : JsonCodec.parsed.fromSlice (some (podOn ns "p" node "1")) = some (podOn ns "p" node "1")) :
    Db.Sound JsonCodec.parsed (podDb ns node) where
  bounded key row hrow := by
    obtain ⟨-, rfl⟩ := podDb_lookup hrow
    exact le_rfl
  distinct k₁ k₂ row₁ row₂ h₁ h₂ _ := (podDb_lookup h₁).1.trans (podDb_lookup h₂).1.symm
  stamped key row hrow := by
    obtain ⟨-, rfl⟩ := podDb_lookup hrow
    exact ⟨podOn ns "p" node "1", h, congrArg Json.str (show "1" = toString 1 by decide +kernel), rfl, rfl⟩

def onNode (value : String) : List Term := [⟨"spec.nodeName", .static (.path ["spec", "nodeName"]), value, false⟩]

theorem narrowedItems_eq_default :
    Db.Sound JsonCodec.parsed (podDb "default" (.str "n")) ∧
      FieldSelector.parse (some "spec.nodeName=n") "" "pods" = .ok (onNode "n") ∧
      narrowedItems plainServer (podDb "default" (.str "n")) (groupListPrefix "" "pods" (some "default")) (onNode "n") =
        some (prefixedItems plainServer (podDb "default" (.str "n")) (groupListPrefix "" "pods" (some "default"))
          (onNode "n")) := by
  refine ⟨podDb_sound rfl, rfl, ?_⟩
  apply (narrowedItems_eq_iff plainServer (podDb "default" (.str "n")) (podDb_sound rfl) "" "pods" (some "default")
    (some "spec.nodeName=n") (onNode "n") rfl).mpr
  intro sel hsel key row obj hrow hparse _
  obtain ⟨rfl, rfl⟩ := podDb_lookup hrow
  cases hsel
  cases hparse
  constructor
  · exact fun _ => by decide +kernel
  · exact fun _ _ _ houtside => absurd (by decide +kernel) houtside

theorem narrowedItems_drops_number :
    (Db.Sound JsonCodec.parsed (podDb "default" (.num (.posInt 7))) ∧
      FieldSelector.parse (some "spec.nodeName=7") "" "pods" = .ok (onNode "7") ∧
      narrowedItems plainServer (podDb "default" (.num (.posInt 7))) (groupListPrefix "" "pods" (some "default"))
        (onNode "7") = some [] ∧
      prefixedItems plainServer (podDb "default" (.num (.posInt 7))) (groupListPrefix "" "pods" (some "default"))
        (onNode "7") = [⟨"/registry/pods/default/p", some (podOn "default" "p" (.num (.posInt 7)) "1"), 1⟩]) ∧
    validatePathSegment "namespace" "a_b" = .ok () ∧
      narrowedItems plainServer (podDb "axb" (.str "n")) (groupListPrefix "" "pods" (some "a_b")) (onNode "n") =
        some [⟨"/registry/pods/axb/p", some (podOn "axb" "p" (.str "n") "1"), 1⟩] ∧
      prefixedItems plainServer (podDb "axb" (.str "n")) (groupListPrefix "" "pods" (some "a_b")) (onNode "n") = [] := by
  exact ⟨⟨podDb_sound rfl, rfl, by decide +kernel, by decide +kernel⟩, by decide +kernel, by decide +kernel,
    by decide +kernel⟩

end Narrowing

inductive Representation where
  | json
  | protobuf
  | table
  | partialObjectMetadata
  deriving DecidableEq

structure ListBody where
  resourceVersion : ℕ
  continueToken : Option (String × ℕ)
  remainingItemCount : Option ℕ
  items : List (String × Json)
  deriving DecidableEq

structure ListQuery where
  labels : List LabelSelectorTerm
  fields : List Term
  limit : Option ℕ
  continueToken : Option (String × ℕ)

def toPartialObjectMetadata (obj : Json) : Json :=
  .obj [("apiVersion", .str "meta.k8s.io/v1"), ("kind", .str "PartialObjectMetadata"),
    ("metadata", (obj.get? "metadata").getD .null)]

def buildListResponse (revision : ℕ) (items : List (String × Json)) (continueKey : Option String)
    (remainingCount : Option ℕ) : ListBody :=
  ⟨revision, continueKey.map (fun key => (key, revision)), remainingCount, items⟩

def keeps (labels : List LabelSelectorTerm) (fields : List Term) (obj : Json) : Bool :=
  !(applyLabelSelector [obj] labels).isEmpty && matchesAll fields obj

def listResource (db : Db β) (p : String) (representation : Representation) (query : ListQuery) : Option ListBody := do
  let resp ← listSync S.codec S.render db p
    ⟨FieldSelector.storeSelector query.fields, query.limit, query.continueToken.map Prod.fst⟩
  let listRevision := (query.continueToken.map Prod.snd).getD resp.revision
  let parsed ← resp.items.mapM (fun o => (S.codec.fromSlice o.value).map (fun v => (o.key, S.applyDefaults v)))
  let items := parsed.filter (fun e => keeps query.labels query.fields e.2)
  match representation with
  | .json | .protobuf => some (buildListResponse listRevision items resp.continueKey resp.remainingCount)
  | .table =>
    some ⟨listRevision, resp.continueKey.map (fun key => (key, listRevision)), none,
      items.map (fun e => (e.1, S.tableRow e.2))⟩
  | .partialObjectMetadata =>
    some ⟨listRevision, none, none, items.map (fun e => (e.1, toPartialObjectMetadata e.2))⟩

/-- The pages before one that continues from a token, with any limits and representations, and their items. -/
inductive Preceding (db : Db β) (p : String) (labels : List LabelSelectorTerm) (fields : List Term) :
    Option (String × ℕ) → List (String × Json) → Prop
  | start : Preceding db p labels fields none []
  | next {token : Option (String × ℕ)} {items : List (String × Json)} {representation : Representation}
      {limit : Option ℕ} {body : ListBody} {after : String × ℕ} (before : Preceding db p labels fields token items)
      (page : listResource S db p representation ⟨labels, fields, limit, token⟩ = some body)
      (more : body.continueToken = some after) :
      Preceding db p labels fields (some after) (items ++ body.items)

section Truncation

def ListServer.passes (labels : List LabelSelectorTerm) (fields : List Term) (value : β) : Bool :=
  (S.codec.fromSlice value).any (fun obj => keeps labels fields (S.applyDefaults obj))

variable {S} {db : Db β} {q : String} {labels : List LabelSelectorTerm} {fields : List Term} {limit : Option ℕ}
  {representation : Representation} {token : Option (String × ℕ)} {items : List (String × Json)}

variable (labels fields) in
theorem mapM_parse {xs : List (StoreObject β)} (h : ∀ o ∈ xs, ∃ obj, S.codec.fromSlice o.value = some obj) :
    ∃ parsed, xs.mapM (fun o => (S.codec.fromSlice o.value).map (fun v => (o.key, S.applyDefaults v))) = some parsed ∧
      (parsed.filter (fun e => keeps labels fields e.2)).map Prod.fst =
        (xs.filter (fun o => S.passes labels fields o.value)).map StoreObject.key := by
  induction xs with
  | nil => exact ⟨[], rfl, rfl⟩
  | cons o xs ih =>
    obtain ⟨obj, hobj⟩ := h o mem_cons_self
    obtain ⟨parsed, hparsed, hkeys⟩ := ih (fun x hx => h x (mem_cons_of_mem _ hx))
    refine ⟨(o.key, S.applyDefaults obj) :: parsed, ?_, ?_⟩
    · rw [mapM_cons, hobj, hparsed]
      rfl
    · have hpasses : S.passes labels fields o.value = keeps labels fields (S.applyDefaults obj) := by
        rw [ListServer.passes, hobj, Option.any_some]
      rw [filter_cons, filter_cons, hpasses]
      split_ifs
      · rw [map_cons, map_cons, hkeys]
      · exact hkeys

variable (S db fields) in
def listedRows (p : String) : List (StoreObject β) :=
  db.objectsWhere (selected S.codec S.render p ((prefixUpperBound p).getD "") (FieldSelector.storeSelector fields))

variable (S db labels fields) in
def keysPast (cursor : Option String) (p : String) : List String :=
  ((Paging.after StoreObject.key cursor (listedRows S db fields p)).filter (fun o => S.passes labels fields o.value)).map
    StoreObject.key

variable (S db fields limit token) in
def storePage (p : String) : List (StoreObject β) × Option String :=
  Paging.cut StoreObject.key (Store.pageLimit p (FieldSelector.storeSelector fields) limit)
    (Paging.after StoreObject.key (token.map Prod.fst) (listedRows S db fields p))

theorem mem_keysPast :
    key ∈ keysPast S db labels fields cursor p ↔
      ∃ o ∈ Paging.after StoreObject.key cursor (listedRows S db fields p), S.passes labels fields o.value ∧
        o.key = key := by
  simp [keysPast, and_assoc]

theorem listedRows_slash : listedRows S db fields (q ++ "/") =
    db.objectsWhere (selected S.codec S.render (q ++ "/") (q ++ "0") (FieldSelector.storeSelector fields)) := by
  rw [listedRows, Store.prefixUpperBound_slash, Option.getD_some]

variable (q labels fields limit representation) in
theorem listResource_spec (hdb : Db.Sound S.codec db) (htoken : token.map Prod.fst ≠ some "") :
    ∃ body, listResource S db (q ++ "/") representation ⟨labels, fields, limit, token⟩ = some body ∧
      body.items.map Prod.fst = ((storePage S db fields limit token (q ++ "/")).1.filter
        (fun o => S.passes labels fields o.value)).map StoreObject.key ∧
      body.continueToken.map Prod.fst =
        if representation = .partialObjectMetadata then none else (storePage S db fields limit token (q ++ "/")).2 := by
  have hpage : (listSync S.codec S.render db (q ++ "/")
      ⟨FieldSelector.storeSelector fields, limit, token.map Prod.fst⟩).map (fun r => (r.items, r.continueKey)) =
      some (storePage S db fields limit token (q ++ "/")) := by
    rw [storePage, listedRows_slash]
    exact Store.listSync_eq (Store.prefixUpperBound_slash q) (Or.inl (by simp)) _ limit htoken
  obtain ⟨resp, hresp, hpair⟩ := Option.map_eq_some_iff.mp hpage
  have hitems : resp.items = (storePage S db fields limit token (q ++ "/")).1 := congrArg Prod.fst hpair
  have hkey : resp.continueKey = (storePage S db fields limit token (q ++ "/")).2 := congrArg Prod.snd hpair
  have hread : ∀ o ∈ resp.items, ∃ obj, S.codec.fromSlice o.value = some obj := by
    intro o ho
    rw [hitems] at ho
    obtain ⟨row, hrow, -, hvalue, -⟩ := Db.mem_objectsWhere.mp (Paging.mem_after.mp (Paging.mem_of_mem_cut ho)).1
    obtain ⟨obj, hobj, -⟩ := hdb.stamped o.key row hrow
    exact ⟨obj, hvalue ▸ hobj⟩
  obtain ⟨parsed, hparsed, hkeys⟩ := mapM_parse labels fields hread
  unfold listResource
  rw [hresp]
  simp only [Option.bind_eq_bind, Option.bind_some, hparsed]
  rw [← hitems, ← hkeys, ← hkey]
  cases representation with
  | json | protobuf => exact ⟨_, rfl, rfl, by simp [buildListResponse, Function.comp_def]⟩
  | table => exact ⟨_, rfl, by simp [Function.comp_def], by simp [Function.comp_def]⟩
  | partialObjectMetadata => exact ⟨_, rfl, by simp [Function.comp_def], rfl⟩

theorem Preceding.accounts (hdb : Db.Sound S.codec db) (h : Preceding S db (q ++ "/") labels fields token items) :
    token.map Prod.fst ≠ some "" ∧
      items.map Prod.fst ++ keysPast S db labels fields (token.map Prod.fst) (q ++ "/") =
        keysPast S db labels fields none (q ++ "/") := by
  induction h with
  | start => exact ⟨by simp, rfl⟩
  | @next token items representation limit body after before page more ih =>
    obtain ⟨htoken, hsplit⟩ := ih
    obtain ⟨body', hbody', hkeys, hcontinue⟩ := listResource_spec q labels fields limit representation hdb htoken
    rw [page] at hbody'
    cases hbody'
    rw [more, Option.map_some] at hcontinue
    split_ifs at hcontinue
    have hcut : storePage S db fields limit token (q ++ "/") =
        ((storePage S db fields limit token (q ++ "/")).1, some after.1) :=
      Prod.ext rfl hcontinue.symm
    obtain ⟨hrest, r, hr, hlast⟩ := Paging.cut_after (db.objectsWhere_pairwise _) hcut
    constructor
    · rw [Option.map_some, ← hlast]
      have hmem : r ∈ listedRows S db fields (q ++ "/") :=
        (Paging.mem_after.mp (Paging.mem_of_mem_cut (mem_of_getLast? hr))).1
      obtain ⟨row, hrow, hsel, -⟩ := Db.mem_objectsWhere.mp hmem
      exact fun hkey => Store.selected_key_ne (Or.inl (by simp)) hrow hsel (Option.some.inj hkey)
    · have hkeysPast : keysPast S db labels fields (token.map Prod.fst) (q ++ "/") =
          body.items.map Prod.fst ++ keysPast S db labels fields (some after.1) (q ++ "/") := by
        rw [keysPast, listedRows, hrest, filter_append, map_append, hkeys]
        rfl
      rw [← hsplit, hkeysPast, map_append, append_assoc]
      rfl

section Object

variable {raw : Option String} {group plural key : String} {row : Row β} {obj : Json}

theorem passes_eq_keeps (hparse : S.codec.fromSlice row.value = some obj) :
    S.passes labels fields row.value = keeps labels fields (S.applyDefaults obj) := by
  rw [ListServer.passes, hparse, Option.any_some]

theorem selected_iff_indexReads (hfields : FieldSelector.parse raw group plural = .ok fields)
    (hrow : row.Stamped S.codec) (hunder : startsWith key (q ++ "/")) (hparse : S.codec.fromSlice row.value = some obj)
    (hkeep : keeps labels fields (S.applyDefaults obj)) :
    selected S.codec S.render (q ++ "/") (q ++ "0") (FieldSelector.storeSelector fields) key row ↔
      ∀ sel ∈ FieldSelector.storeSelector fields, indexReads (q ++ "/") sel.field obj := by
  cases hsel : FieldSelector.storeSelector fields with
  | none => simp [selected, Store.inRange_slash, hunder]
  | some sel =>
    have hmatch := (Bool.and_eq_true_iff.mp hkeep).2
    rw [selected_of_matchesAll hfields hsel hrow hparse hmatch, inPlace_of_startsWith sel.field hunder]
    simp

theorem mem_listedRows (hrow : db.objects.lookup key = some row) :
    (⟨key, row.value, row.revision⟩ : StoreObject β) ∈ listedRows S db fields (q ++ "/") ↔
      selected S.codec S.render (q ++ "/") (q ++ "0") (FieldSelector.storeSelector fields) key row := by
  rw [listedRows_slash, Db.mem_objectsWhere]
  simp [hrow]

theorem eq_of_mem_listedRows (hrow : db.objects.lookup key = some row)
    (ho : o ∈ listedRows S db fields (q ++ "/")) (hkey : o.key = key) : o = ⟨key, row.value, row.revision⟩ := by
  obtain ⟨row', hrow', -, hvalue, hrev⟩ := Db.mem_objectsWhere.mp ho
  subst hkey
  rw [hrow] at hrow'
  cases hrow'
  rw [← hvalue, ← hrev]

end Object

section Returned

variable {token : Option (String × ℕ)} {items pageItems : List (String × Json)}
  (hsplit : items.map Prod.fst ++ keysPast S db labels fields (token.map Prod.fst) (q ++ "/") =
    keysPast S db labels fields none (q ++ "/"))
  (hkeys : pageItems.map Prod.fst = ((storePage S db fields limit token (q ++ "/")).1.filter
    (fun o => S.passes labels fields o.value)).map StoreObject.key)
include hsplit hkeys

/-- Whatever is returned is a row that the store selects. -/
theorem listed_of_returned (hkey : key ∈ (items ++ pageItems).map Prod.fst) :
    ∃ o ∈ listedRows S db fields (q ++ "/"), o.key = key := by
  rw [map_append, mem_append] at hkey
  obtain hkey | hkey := hkey
  · have hmem : key ∈ keysPast S db labels fields none (q ++ "/") := hsplit ▸ mem_append_left _ hkey
    obtain ⟨o, ho, -, hokey⟩ := mem_keysPast.mp hmem
    exact ⟨o, (Paging.mem_after.mp ho).1, hokey⟩
  · rw [hkeys] at hkey
    obtain ⟨o, ho, hokey⟩ := mem_map.mp hkey
    exact ⟨o, (Paging.mem_after.mp (Paging.mem_of_mem_cut (mem_of_mem_filter ho))).1, hokey⟩

/-- A row past the token that is returned is on the last page, since no key is returned twice. -/
theorem on_page_of_returned (hrow : db.objects.lookup o.key = some row)
    (ho : o ∈ Paging.after StoreObject.key (token.map Prod.fst) (listedRows S db fields (q ++ "/")))
    (hpasses : S.passes labels fields o.value) (hkey : o.key ∈ (items ++ pageItems).map Prod.fst) :
    o ∈ (storePage S db fields limit token (q ++ "/")).1 := by
  have hnodup : (items.map Prod.fst ++ keysPast S db labels fields (token.map Prod.fst) (q ++ "/")).Nodup := by
    rw [hsplit]
    exact pairwise_map.mpr (((Paging.after_pairwise (db.objectsWhere_pairwise _) _).filter _).imp ne_of_lt)
  have hlisted := (Paging.mem_after.mp ho).1
  rw [map_append, mem_append] at hkey
  obtain hkey | hkey := hkey
  · exact absurd (mem_keysPast.mpr ⟨o, ho, hpasses, rfl⟩) (disjoint_of_nodup_append hnodup hkey)
  · rw [hkeys] at hkey
    obtain ⟨o', ho', hokey⟩ := mem_map.mp hkey
    have ho' := mem_of_mem_filter ho'
    have hlisted' := (Paging.mem_after.mp (Paging.mem_of_mem_cut ho')).1
    rwa [eq_of_mem_listedRows hrow hlisted' hokey, ← eq_of_mem_listedRows hrow hlisted rfl] at ho'

end Returned

/-- A page without a token is the last: it and the pages before return every matching object exactly if the store
reads the field of each, and the page is neither metadata only nor of limit zero, or fewer rows than the limit come
before each. -/
theorem listResource_complete_iff (S : ListServer β) (db : Db β) (hdb : Db.Sound S.codec db) (group plural : String)
    (ns raw : Option String) (labels : List LabelSelectorTerm) (fields : List Term)
    (hfields : FieldSelector.parse raw group plural = .ok fields) (token : Option (String × ℕ))
    (items : List (String × Json)) (hpre : Preceding S db (groupListPrefix group plural ns) labels fields token items)
    (representation : Representation) (limit : Option ℕ) (body : ListBody)
    (hbody : listResource S db (groupListPrefix group plural ns) representation ⟨labels, fields, limit, token⟩ =
      some body) (hlast : body.continueToken = none) :
    (∀ key row obj, db.objects.lookup key = some row → startsWith key (groupListPrefix group plural ns) →
      S.codec.fromSlice row.value = some obj → keeps labels fields (S.applyDefaults obj) →
      key ∈ (items ++ body.items).map Prod.fst) ↔
    (∀ sel ∈ FieldSelector.storeSelector fields, ∀ key row obj, db.objects.lookup key = some row →
      startsWith key (groupListPrefix group plural ns) → S.codec.fromSlice row.value = some obj →
      keeps labels fields (S.applyDefaults obj) → indexReads (groupListPrefix group plural ns) sel.field obj) ∧
    ((representation ≠ .partialObjectMetadata ∧ limit ≠ some 0) ∨
      ∀ o ∈ Paging.after StoreObject.key (token.map Prod.fst) (listedRows S db fields (groupListPrefix group plural ns)),
        startsWith o.key (groupListPrefix group plural ns) → S.passes labels fields o.value →
        ∀ l ∈ Store.pageLimit (groupListPrefix group plural ns) (FieldSelector.storeSelector fields) limit,
          (Paging.after StoreObject.key (token.map Prod.fst) (listedRows S db fields
            (groupListPrefix group plural ns))).countP (fun r => r.key < o.key) < l) := by
  obtain ⟨q, hq⟩ := Store.groupListPrefix_slash group plural ns
  rw [hq] at hpre hbody ⊢
  obtain ⟨htoken, hsplit⟩ := hpre.accounts hdb
  obtain ⟨body', hbody', hkeys, hcontinue⟩ := listResource_spec q labels fields limit representation hdb htoken
  rw [hbody] at hbody'
  cases hbody'
  rw [hlast] at hcontinue
  have hrows := Paging.after_pairwise (db.objectsWhere_pairwise (selected S.codec S.render (q ++ "/")
    ((prefixUpperBound (q ++ "/")).getD "") (FieldSelector.storeSelector fields))) (token.map Prod.fst)
  constructor
  · intro hall
    constructor
    · intro sel hsel key row obj hrow hunder hparse hkeep
      obtain ⟨o, ho, hokey⟩ := listed_of_returned hsplit hkeys (hall key row obj hrow hunder hparse hkeep)
      rw [eq_of_mem_listedRows hrow ho hokey, mem_listedRows hrow] at ho
      exact (selected_iff_indexReads hfields (hdb.stamped key row hrow) hunder hparse hkeep).mp ho sel hsel
    · by_cases hrep : representation ≠ .partialObjectMetadata ∧ limit ≠ some 0
      · exact Or.inl hrep
      · right
        intro o ho hunder hpasses
        obtain ⟨row, hrow, -, hvalue, -⟩ := Db.mem_objectsWhere.mp (Paging.mem_after.mp ho).1
        obtain ⟨obj, hparse, hkeep⟩ := (Option.any_eq_true _ _).mp hpasses
        rw [hvalue] at hparse
        have hpage := on_page_of_returned hsplit hkeys hrow ho hpasses (hall o.key row obj hrow hunder hparse hkeep)
        exact (Paging.mem_cut_iff hrows ho).mp hpage
  · rintro ⟨hreads, hpage⟩ key row obj hrow hunder hparse hkeep
    have hsel := (selected_iff_indexReads hfields (hdb.stamped key row hrow) hunder hparse hkeep).mpr
      (fun sel hsel => hreads sel hsel key row obj hrow hunder hparse hkeep)
    have hpasses : S.passes labels fields row.value := by rw [passes_eq_keeps hparse]; exact hkeep
    have hmem : key ∈ keysPast S db labels fields none (q ++ "/") := by
      apply mem_keysPast.mpr
      exact ⟨_, Paging.mem_after.mpr ⟨(mem_listedRows hrow).mpr hsel, by simp⟩, hpasses, rfl⟩
    rw [← hsplit, mem_append] at hmem
    rw [map_append, mem_append]
    apply hmem.imp_right
    intro hrest
    obtain ⟨o, ho, hpasses', rfl⟩ := mem_keysPast.mp hrest
    rw [hkeys]
    refine mem_map.mpr ⟨o, mem_filter.mpr ⟨?_, hpasses'⟩, rfl⟩
    obtain ⟨hrep, hlimit⟩ | hpage := hpage
    · rw [if_neg hrep] at hcontinue
      have hcut : storePage S db fields limit token (q ++ "/") =
          ((storePage S db fields limit token (q ++ "/")).1, none) := Prod.ext rfl hcontinue.symm
      rw [Paging.cut_none hcut (Store.pageLimit_ne_zero hlimit _)]
      exact ho
    · exact (Paging.mem_cut_iff hrows ho).mpr (hpage o ho hunder hpasses')

def twoPodsDb : Db (Option Json) :=
  ⟨(podDb "default" (.str "n")).objects.insert "/registry/pods/default/q"
    ⟨some (podOn "default" "q" (.str "n") "2"), 2, some "default", some "q"⟩, 2⟩

theorem twoPodsDb_lookup (h : twoPodsDb.objects.lookup key = some row) :
    (key = "/registry/pods/default/q" ∧ row = ⟨some (podOn "default" "q" (.str "n") "2"), 2, some "default", some "q"⟩) ∨
      (key = Store.objectKey "pods" "default" "p" ∧
        row = ⟨some (podOn "default" "p" (.str "n") "1"), 1, some "default", some "p"⟩) := by
  by_cases hkey : key = "/registry/pods/default/q"
  · subst hkey
    exact Or.inl ⟨rfl, (Option.some.inj h).symm⟩
  · rw [twoPodsDb, AList.lookup_insert_ne hkey] at h
    exact Or.inr (podDb_lookup h)

theorem twoPodsDb_sound : Db.Sound JsonCodec.parsed twoPodsDb where
  bounded key row h := by
    obtain ⟨-, rfl⟩ | ⟨-, rfl⟩ := twoPodsDb_lookup h
    · exact le_rfl
    · exact Nat.le_succ 1
  distinct k₁ k₂ row₁ row₂ h₁ h₂ hrev := by
    obtain ⟨rfl, rfl⟩ | ⟨rfl, rfl⟩ := twoPodsDb_lookup h₁
    · obtain ⟨rfl, rfl⟩ | ⟨rfl, rfl⟩ := twoPodsDb_lookup h₂
      · rfl
      · cases hrev
    · obtain ⟨rfl, rfl⟩ | ⟨rfl, rfl⟩ := twoPodsDb_lookup h₂
      · cases hrev
      · rfl
  stamped key row h := by
    obtain ⟨-, rfl⟩ | ⟨-, rfl⟩ := twoPodsDb_lookup h
    · exact ⟨podOn "default" "q" (.str "n") "2", rfl, congrArg Json.str (show "2" = toString 2 by decide +kernel), rfl, rfl⟩
    · exact ⟨podOn "default" "p" (.str "n") "1", rfl, congrArg Json.str (show "1" = toString 1 by decide +kernel), rfl, rfl⟩

theorem listResource_truncates :
    Db.Sound JsonCodec.parsed twoPodsDb ∧
      (∃ body, listResource plainServer twoPodsDb (groupListPrefix "" "pods" none) .partialObjectMetadata
          ⟨[], [], some 1, none⟩ = some body ∧ body.continueToken = none ∧
        body.items.map Prod.fst = ["/registry/pods/default/p"]) ∧
      ∃ body, listResource plainServer twoPodsDb (groupListPrefix "" "pods" none) .json ⟨[], [], some 0, none⟩ =
          some body ∧ body.continueToken = none ∧ body.items = [] := by
  refine ⟨twoPodsDb_sound, ?_, ?_⟩
  · exact ⟨⟨2, none, none, [("/registry/pods/default/p", toPartialObjectMetadata (podOn "default" "p" (.str "n") "1"))]⟩,
      by decide +kernel, rfl, rfl⟩
  · exact ⟨⟨2, none, none, []⟩, by decide +kernel, rfl, rfl⟩

def twoPodsBody : ListBody :=
  ⟨2, none, none, [("/registry/pods/default/p", podOn "default" "p" (.str "n") "1"),
    ("/registry/pods/default/q", podOn "default" "q" (.str "n") "2")]⟩

theorem listResource_complete_two_pods :
    listResource plainServer twoPodsDb (groupListPrefix "" "pods" none) .json ⟨[], [], some 2, none⟩ =
        some twoPodsBody ∧
      ∀ key row obj, twoPodsDb.objects.lookup key = some row → startsWith key (groupListPrefix "" "pods" none) →
        plainServer.codec.fromSlice row.value = some obj → keeps [] [] (plainServer.applyDefaults obj) →
        key ∈ ([] ++ twoPodsBody.items).map Prod.fst := by
  have hbody : listResource plainServer twoPodsDb (groupListPrefix "" "pods" none) .json ⟨[], [], some 2, none⟩ =
      some twoPodsBody := by decide +kernel
  refine ⟨hbody, ?_⟩
  apply (listResource_complete_iff plainServer twoPodsDb twoPodsDb_sound "" "pods" none none [] [] rfl none []
    .start .json (some 2) twoPodsBody hbody rfl).mpr
  refine ⟨?_, Or.inl ⟨by decide, by decide⟩⟩
  intro sel hsel
  cases hsel

end Truncation

end U7s.Handlers
