import U7s.Handlers.FieldSelector
import U7s.Lib.Encoding

/-!
How the authorizer and the list handlers read a query string. The handlers decode it as form-urlencoded pairs.
-/

namespace U7s.Auth

open Encoding Handlers.FieldSelector Option
open Text (splitOnceText)

def decodeQueryComponent (bs : List Byte) : Option String := fromUtf8 (percentDecodeBytes (plusToSpace bs))

def queryParam (query : List Byte) (key : String) : Option (List Byte) :=
  (splitBytes 0x26 query).findSome? (fun pair =>
    if decodeQueryComponent (splitPair pair).1 = some key then some (splitPair pair).2 else none)

def parseWatchValue (v : String) : Option Bool :=
  if v = "true" ∨ v = "1" then some true
  else if v = "false" ∨ v = "0" then some false
  else none

def queryRequestsWatch (query : Option (List Byte)) : Bool :=
  match query.bind (queryParam · "watch") with
  | none => false
  | some raw =>
    match decodeQueryComponent raw with
    | some v =>
      let lower := String.ofList (v.toList.map Char.toLower)
      (parseWatchValue v).getD (!(lower = "false" || lower = "0"))
    | none => true

def getVerb (name : Option String) (query : Option (List Byte)) : String :=
  if name.isSome then "get" else if queryRequestsWatch query then "watch" else "list"

inductive Method where
  | get
  | head
  | post
  | put
  | patch
  | delete
  | other
deriving DecidableEq

def methodToVerb : Method → String
  | .get | .other => "get"
  | .head => "head"
  | .post => "create"
  | .put => "update"
  | .patch => "patch"
  | .delete => "delete"

def requestVerb (method : Method) (name : Option String) (nonResource : Bool) (query : Option (List Byte)) : String :=
  if nonResource then methodToVerb method
  else if method = .get ∨ method = .head then getVerb name query
  else if method = .delete ∧ name.isNone then "deletecollection"
  else methodToVerb method

def fieldSelectorName (query : Option (List Byte)) : Option String :=
  ((query.bind (queryParam · "fieldSelector")).bind decodeQueryComponent).bind (fun decoded =>
    if ',' ∈ decoded.toList then none
    else ((splitOnceText "==".toList decoded.toList).or (splitOnceText "=".toList decoded.toList)).bind (fun (key, value) =>
      if key ≠ "metadata.name".toList ∨ value = [] then none else some (String.ofList value)))

def fieldSelectorSelectsNode (uriParses : List Byte → Bool) (query : Option (List Byte))
    (nodeName group plural : String) : Bool :=
  match query with
  | none => false
  | some query =>
    if uriParses query then
      match (formPairs query).filter (fun kv => kv.1 = "fieldSelector") with
      | [(_, raw)] =>
        match parse (some raw) group plural with
        | .ok terms => requiresEqual terms "spec.nodeName" nodeName
        | .error _ => false
      | _ => false
    else false

structure CollectionQuery where
  watch : Option Bool
  fieldSelector : Option String
deriving DecidableEq

def collectionFields (pods : Bool) : List String :=
  ["watch", "resourceVersion", "labelSelector", "fieldSelector", "sendInitialEvents", "allowWatchBookmarks",
    "timeoutSeconds"] ++ if pods then [] else ["limit", "continue"]

def valueOf (pairs : List (String × String)) (key : String) : Option String :=
  (pairs.find? (fun kv => kv.1 = key)).map Prod.snd

def collectionQuery (pods : Bool) (others : List (String × String) → Bool) (query : List Byte) :
    Option CollectionQuery :=
  let pairs := formPairs query
  if (collectionFields pods).any (fun f => 1 < (pairs.filter (fun kv => kv.1 = f)).length) || !others pairs then none
  else match valueOf pairs "watch" with
    | none => some ⟨none, valueOf pairs "fieldSelector"⟩
    | some w => (parseWatchValue w).map (fun b => ⟨some b, valueOf pairs "fieldSelector"⟩)

theorem decodeQueryComponent_iff (hkey : '�' ∉ key.toList) :
    decodeQueryComponent bs = some key ↔ fromUtf8Lossy (percentDecodeBytes (plusToSpace bs)) = key :=
  ⟨fun h => fromUtf8Lossy_of_some h, fun h => fromUtf8_of_lossy h hkey⟩

theorem valueOf_formPairs (hkey : '�' ∉ key.toList) (hne : key ≠ "") :
    valueOf (formPairs query) key =
      (queryParam query key).map (fun raw => fromUtf8Lossy (percentDecodeBytes (plusToSpace raw))) := by
  unfold valueOf formPairs queryParam
  induction splitBytes 0x26 query with
  | nil => rfl
  | cons p ps ih =>
    by_cases hp : p = []
    · subst hp
      have hempty : ¬ decodeQueryComponent (splitPair []).1 = some key := by
        exact fun h => hne (some.inj h).symm
      rw [List.filter_cons_of_neg (by simp), ih, List.findSome?_cons_of_isNone (by rw [if_neg hempty]; rfl)]
    · rw [List.filter_cons_of_pos (by simpa using hp), List.map_cons]
      by_cases hk : decodeQueryComponent (splitPair p).1 = some key
      · rw [List.find?_cons_of_pos (by simpa using (decodeQueryComponent_iff hkey).mp hk),
          List.findSome?_cons_of_isSome (by rw [if_pos hk]; rfl), if_pos hk]
        rfl
      · rw [List.find?_cons_of_neg (by simpa using fun h => hk ((decodeQueryComponent_iff hkey).mpr h)), ih,
          List.findSome?_cons_of_isNone (by rw [if_neg hk]; rfl)]

theorem valueOf_of_decoded (hkey : '�' ∉ key.toList) (hne : key ≠ "")
    (h : (queryParam query key).bind decodeQueryComponent = some v) : valueOf (formPairs query) key = some v := by
  obtain ⟨raw, hraw, hv⟩ := bind_eq_some_iff.mp h
  rw [valueOf_formPairs hkey hne, hraw, map_some, fromUtf8Lossy_of_some hv]

theorem decoded_of_valueOf (hkey : '�' ∉ key.toList) (hne : key ≠ "") (hv : '�' ∉ v.toList)
    (h : valueOf (formPairs query) key = some v) : (queryParam query key).bind decodeQueryComponent = some v := by
  rw [valueOf_formPairs hkey hne] at h
  obtain ⟨raw, hraw, hlossy⟩ := map_eq_some_iff.mp h
  rw [hraw, bind_some, decodeQueryComponent_iff hv]
  exact hlossy

theorem splitTerm_of_splitOnce (hkey : ∀ c ∈ key, c ≠ '=' ∧ c ≠ '!')
    (h : (splitOnceText "==".toList cs).or (splitOnceText "=".toList cs) = some (key, value)) :
    splitTerm cs = some (key, false, value) := by
  obtain heqeq | ⟨hnone, heq⟩ := or_eq_some_iff.mp h
  · have hcs : cs = key ++ '=' :: '=' :: value := Text.splitOnceText_some heqeq
    rw [hcs, splitTerm_append hkey, splitTerm, map_some, List.append_nil]
  · have hcs : cs = key ++ '=' :: value := Text.splitOnceText_some heq
    rw [hcs, splitTerm_append hkey, splitTerm, map_some, List.append_nil]
    rintro rest rfl
    rw [hcs] at hnone
    exact Text.splitOnceText_ne_none "==".toList key rest hnone

structure NamedObject where
  obj : Json
  name : String
  named : walk obj ["metadata", "name"] = some (.str name)

def nodeNameOf (obj : Json) : String := SPEC_NODE_NAME.2.get obj

theorem filter_congr_of_selects {α : Type} {f p : α → Bool} (h : ∀ x, f x → p x) {xs ys : List α}
    (hxy : xs.filter p = ys.filter p) : xs.filter f = ys.filter f := by
  have hboth : ∀ l : List α, (l.filter p).filter f = l.filter f := by
    intro l
    rw [List.filter_filter]
    refine List.filter_congr fun x _ => ?_
    cases hf : f x with
    | true => simp [h x hf]
    | false => rfl
  rw [← hboth xs, hxy, hboth ys]

def Parsed (raw : Option String) (terms : List Term) : Prop :=
  (∃ group plural, parse raw group plural = .ok terms) ∨
    ∃ namespaced fields, parseCr raw namespaced fields = .ok terms

theorem name_of_matches (hterm : splitTerm raw.toList = some ("metadata.name".toList, false, n.toList))
    (hcomma : ',' ∉ raw.toList) (hn : '\\' ∉ n.toList) (h : Parsed (some raw) terms) (o : NamedObject)
    (hm : matchesAll terms o.obj) : terms ≠ [] ∧ o.name = n := by
  have hlabel : '\\' ∉ "metadata.name".toList := by decide
  obtain ⟨group, plural, hparse⟩ | ⟨namespaced, fields, hparse⟩ := h
  · obtain ⟨getter, hget, rfl⟩ := parseWith_single hterm hcomma hlabel hn hparse
    rw [resolveKind, kindFields_name] at hget
    cases hget
    refine ⟨by simp, ?_⟩
    simpa [matchesAll, Term.matches, Term.equal, NAME, Source.get, o.named] using hm
  · obtain ⟨getter, hget, rfl⟩ := parseWith_single hterm hcomma hlabel hn hparse
    cases hget
    have hpath : ("metadata.name".toList.splitOn '.').map String.ofList = ["metadata", "name"] := by decide +kernel
    have hequals : jsonPathEquals o.obj "metadata.name" n = decide (o.name = n) := by
      rw [jsonPathEquals, hpath, o.named]
    refine ⟨by simp, ?_⟩
    simpa [matchesAll, Term.matches, Term.equal, hequals] using hm

theorem nodeName_of_matches (h : parse raw group plural = .ok terms)
    (hreq : requiresEqual terms "spec.nodeName" m) (hm : matchesAll terms obj) :
    nodeNameOf obj = m := by
  obtain ⟨t, ht, hterm⟩ := List.any_eq_true.mp hreq
  simp only [Bool.and_eq_true, Bool.not_eq_true', decide_eq_true_eq] at hterm
  obtain ⟨⟨hneg, hlabel⟩, rfl⟩ := hterm
  have hget := resolve_of_mem h ht
  rw [hlabel, resolveKind] at hget
  split at hget
  · next d hfind =>
    cases kindFields_nodeName hfind
    have hmatch := List.all_eq_true.mp hm t ht
    simpa [Term.matches, Term.equal, hneg, ← Except.ok.inj hget, nodeNameOf] using hmatch
  · cases hget

theorem collectionQuery_some (h : collectionQuery pods others query = some q) :
    q.fieldSelector = valueOf (formPairs query) "fieldSelector" ∧
      (q.watch = some true → ∃ w, valueOf (formPairs query) "watch" = some w ∧ parseWatchValue w = some true) := by
  unfold collectionQuery at h
  dsimp only at h
  split_ifs at h
  cases hw : valueOf (formPairs query) "watch" with
  | none =>
    rw [hw] at h
    cases h
    exact ⟨rfl, fun h => by cases h⟩
  | some w =>
    rw [hw] at h
    obtain ⟨b, hb, rfl⟩ := map_eq_some_iff.mp h
    refine ⟨rfl, fun h => ⟨w, rfl, ?_⟩⟩
    cases h
    exact hb

theorem verb_of_watch (h : collectionQuery pods others query = some q) (hwatch : q.watch = some true) :
    queryRequestsWatch (some query) := by
  obtain ⟨w, hw, hparse⟩ := (collectionQuery_some h).2 hwatch
  have hplain : '�' ∉ w.toList := by
    unfold parseWatchValue at hparse
    split_ifs at hparse with htrue
    · obtain rfl | rfl := htrue <;> decide
    · cases hparse
  obtain ⟨raw, hraw, hdecoded⟩ := bind_eq_some_iff.mp (decoded_of_valueOf (by decide) (by decide) hplain hw)
  simp only [queryRequestsWatch, bind_some, hraw, hdecoded, hparse, getD_some]

theorem fieldSelectorName_some (h : fieldSelectorName (some query) = some n) :
    ∃ decoded, valueOf (formPairs query) "fieldSelector" = some decoded ∧ ',' ∉ decoded.toList ∧
      splitTerm decoded.toList = some ("metadata.name".toList, false, n.toList) := by
  obtain ⟨decoded, hdecoded, h⟩ := bind_eq_some_iff.mp h
  split_ifs at h with hcomma
  obtain ⟨⟨key, value⟩, hsplit, h⟩ := bind_eq_some_iff.mp h
  dsimp only at h
  split_ifs at h with hname
  rw [not_or, not_not] at hname
  obtain ⟨rfl, -⟩ := hname
  cases h
  refine ⟨decoded, valueOf_of_decoded (by decide) (by decide) hdecoded, hcomma, ?_⟩
  have hvalue : (String.ofList value).toList = value := String.toList_ofList
  rw [hvalue]
  exact splitTerm_of_splitOnce (by simp) hsplit

theorem fieldSelectorSelectsNode_true (h : fieldSelectorSelectsNode uriParses (some query) m group plural) :
    ∃ terms, parse (valueOf (formPairs query) "fieldSelector") group plural = .ok terms ∧
      requiresEqual terms "spec.nodeName" m := by
  unfold fieldSelectorSelectsNode at h
  dsimp only at h
  split_ifs at h
  split at h
  · next raw hpairs =>
    have hvalue : valueOf (formPairs query) "fieldSelector" = some raw := by
      rw [valueOf, ← List.head?_filter, hpairs]
      rfl
    rw [hvalue]
    split at h
    · next terms hparse => exact ⟨terms, hparse, h⟩
    · cases h
  · cases h

theorem filter_map_congr {α : Type} (obj : α → Json) {p : α → Bool}
    (h : ∀ x, matchesAll terms (obj x) → terms ≠ [] ∧ p x) {xs ys : List α}
    (hxy : xs.filter p = ys.filter p) : filter terms (xs.map obj) = filter terms (ys.map obj) := by
  unfold filter
  cases terms with
  | nil =>
    have hall : ∀ l : List α, l = [] := by
      intro l
      cases l with
      | nil => rfl
      | cons x l => exact absurd rfl (h x rfl).1
    rw [hall xs, hall ys]
  | cons t terms =>
    rw [if_neg (by simp), List.filter_map, List.filter_map]
    exact congrArg _ (filter_congr_of_selects (fun x hx => (h x hx).2) hxy)

/-- The authorizer and the list handlers read a query the same way: a watch is authorized as a watch, and the name or
the node that a field selector is authorized for is that of every object listed. -/
theorem authorizer_reads_query_as_handler (pods : Bool) (others : List (String × String) → Bool) (query : List Byte)
    (q : CollectionQuery) (hq : collectionQuery pods others query = some q) :
    (q.watch = some true → ∀ method, method = .get ∨ method = .head →
      requestVerb method none false (some query) = "watch") ∧
    (∀ n, fieldSelectorName (some query) = some n → '\\' ∉ n.toList → ∀ terms, Parsed q.fieldSelector terms →
      (∀ o : NamedObject, matchesAll terms o.obj = true → o.name = n) ∧
        ∀ xs ys : List NamedObject, xs.filter (fun o => o.name = n) = ys.filter (fun o => o.name = n) →
          filter terms (xs.map NamedObject.obj) = filter terms (ys.map NamedObject.obj)) ∧
    ∀ uriParses m group plural, fieldSelectorSelectsNode uriParses (some query) m group plural = true →
      ∀ terms, parse q.fieldSelector group plural = .ok terms →
        (∀ obj, matchesAll terms obj = true → nodeNameOf obj = m) ∧
          ∀ xs ys : List Json, xs.filter (fun o => nodeNameOf o = m) = ys.filter (fun o => nodeNameOf o = m) →
            filter terms xs = filter terms ys := by
  obtain ⟨hselector, -⟩ := collectionQuery_some hq
  refine ⟨fun hwatch method hmethod => ?_, fun n hn hslash terms hterms => ?_,
    fun uriParses m group plural hm terms hterms => ?_⟩
  · simp [requestVerb, getVerb, hmethod, verb_of_watch hq hwatch]
  · obtain ⟨decoded, hdecoded, hcomma, hsplit⟩ := fieldSelectorName_some hn
    rw [hselector, hdecoded] at hterms
    have hnamed := name_of_matches hsplit hcomma hslash hterms
    refine ⟨fun o ho => (hnamed o ho).2, fun xs ys hxy => filter_map_congr _ (fun o ho => ?_) hxy⟩
    exact ⟨(hnamed o ho).1, decide_eq_true (hnamed o ho).2⟩
  · obtain ⟨terms', hparse, hreq⟩ := fieldSelectorSelectsNode_true hm
    rw [hselector, hparse] at hterms
    cases hterms
    have hnode : ∀ obj, matchesAll terms obj → nodeNameOf obj = m :=
      fun obj hobj => nodeName_of_matches hparse hreq hobj
    refine ⟨hnode, fun xs ys hxy => ?_⟩
    have hne : terms ≠ [] := by
      rintro rfl
      cases hreq
    have hmap := filter_map_congr id (fun o ho => ⟨hne, decide_eq_true (hnode o ho)⟩) hxy
    simpa using hmap

def escapedQuery : List Byte := ascii "wat%63h=true&fieldSelector=metadata.name%3Dfoo"

theorem authorizer_reads_query_as_handler_escaped :
    requestVerb .get none false (some escapedQuery) = "watch" ∧
      ∀ o : NamedObject, matchesAll [⟨"metadata.name", .static NAME.2, "foo", false⟩] o.obj = true → o.name = "foo" := by
  have hq : collectionQuery false (fun _ => true) escapedQuery = some ⟨some true, some "metadata.name=foo"⟩ := by
    decide +kernel
  have hname : fieldSelectorName (some escapedQuery) = some "foo" := by decide +kernel
  obtain ⟨hwatch, hselector, -⟩ := authorizer_reads_query_as_handler false (fun _ => true) escapedQuery _ hq
  exact ⟨hwatch rfl .get (.inl rfl), (hselector "foo" hname (by decide) _ (.inl ⟨"", "secrets", rfl⟩)).1⟩

end U7s.Auth
