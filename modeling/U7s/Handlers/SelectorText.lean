import U7s.Handlers.LabelSelector

/-! A workload's selector as a text, as the scale subresource reports it, and what the parser makes of it. -/

namespace U7s.Handlers

open List

open Text (trim isWhitespace join splitOnceText)
open LabelSelector (LabelSelectorTerm parseTerm parseLabelSelector applyLabelSelector labelsOf splitTermsFrom)

namespace SelectorText

inductive SelectorOperator where
  | isIn
  | notIn
  | exists
  | doesNotExist
  | other
deriving DecidableEq

def SelectorOperator.ofText : String → SelectorOperator
  | "In" => .isIn
  | "NotIn" => .notIn
  | "Exists" => .exists
  | "DoesNotExist" => .doesNotExist
  | _ => .other

structure LabelSelectorRequirement where
  key : String
  operator : SelectorOperator
  values : List String

structure LabelSelector where
  matchLabels : List (String × String)
  matchExpressions : List LabelSelectorRequirement

def LabelSelectorRequirement.matches (labels : List (String × String)) (req : LabelSelectorRequirement) : Bool :=
  let hasKey := (labels.lookup req.key).isSome
  match req.operator with
  | .exists => hasKey
  | .doesNotExist => !hasKey
  | .isIn => hasKey && req.values.any (fun v => some v = labels.lookup req.key)
  | .notIn => !hasKey || req.values.all (fun v => some v ≠ labels.lookup req.key)
  | .other => false

def labelSelectorMatches (selector : Option LabelSelector) (labels : List (String × String)) : Bool :=
  match selector with
  | none => true
  | some sel =>
    sel.matchLabels.all (fun e => labels.lookup e.1 = some e.2) &&
      sel.matchExpressions.all (LabelSelectorRequirement.matches labels)

def equalityTerms (fields : List (String × Json)) : List String :=
  (fields.filterMap (fun f => f.2.asStr?.map (fun v => f.1 ++ "=" ++ v))).insertionSort (fun a b => a ≤ b)

def expressionTerm (expr : Json) : Option String :=
  let key := (expr.idx "key").asStr?.getD ""
  if key = "" then none
  else
    let values := ((expr.idx "values").asArray?.getD []).filterMap Json.asStr?
    match SelectorOperator.ofText ((expr.idx "operator").asStr?.getD "") with
    | .isIn => some (key ++ " In (" ++ join ',' values ++ ")")
    | .notIn => some (key ++ " NotIn (" ++ join ',' values ++ ")")
    | .exists => some key
    | .doesNotExist => some ("!" ++ key)
    | .other => none

def objectFields : Option Json → List (String × Json)
  | some (.obj fields) => fields
  | _ => []

def arrayItems : Option Json → List Json
  | some (.arr items) => items
  | _ => []

def labelSelectorToString (selector : Json) : String :=
  match selector with
  | .obj fields =>
    -- A flat map, as a replication controller has it.
    if Json.lookup "matchLabels" fields = none ∧ Json.lookup "matchExpressions" fields = none then
      join ',' (equalityTerms fields)
    else
      join ',' (equalityTerms (objectFields (Json.lookup "matchLabels" fields)) ++
        (arrayItems (Json.lookup "matchExpressions" fields)).filterMap expressionTerm)
  | _ => ""

structure EncodesRequirement (j : Json) (r : LabelSelectorRequirement) : Prop where
  key : (j.idx "key").asStr? = some r.key
  operator : (j.idx "operator").asStr?.map SelectorOperator.ofText = some r.operator
  values : j.get? "values" = none ∧ r.values = [] ∨ j.get? "values" = some (.arr (r.values.map .str))

structure Encodes (j : Json) (s : LabelSelector) : Prop where
  fields : ∃ fields, j = .obj fields ∧ ∀ f ∈ fields, f.1 = "matchLabels" ∨ f.1 = "matchExpressions"
  labels : j.get? "matchLabels" = none ∧ s.matchLabels = [] ∨
    j.get? "matchLabels" = some (.obj (s.matchLabels.map (fun e => (e.1, .str e.2))))
  expressions : j.get? "matchExpressions" = none ∧ s.matchExpressions = [] ∨
    ∃ items, j.get? "matchExpressions" = some (.arr items) ∧ List.Forall₂ EncodesRequirement items s.matchExpressions

def labelChar (c : Char) : Bool :=
  let n := c.toNat
  (45 ≤ n && n ≤ 57) || (65 ≤ n && n ≤ 90) || n = 95 || (97 ≤ n && n ≤ 122)

def ValidKey (k : String) : Prop := k ≠ "" ∧ ∀ c ∈ k.toList, labelChar c = true

def ValidValue (v : String) : Prop := ∀ c ∈ v.toList, labelChar c = true

structure LabelSelector.Valid (s : LabelSelector) : Prop where
  labels : ∀ e ∈ s.matchLabels, ValidKey e.1 ∧ ValidValue e.2
  expressions : ∀ r ∈ s.matchExpressions, ValidKey r.key ∧ (∀ v ∈ r.values, ValidValue v) ∧ r.operator ≠ .other

def HasLabels (obj : Json) (labels : List (String × String)) : Prop :=
  ∀ key, LabelSelector.hasLabel obj key = (labels.lookup key).isSome ∧
    LabelSelector.labelText obj key = labels.lookup key

theorem labelChar_not_whitespace (h : labelChar c) : isWhitespace c = false := by
  simp only [labelChar, Bool.or_eq_true, Bool.and_eq_true, decide_eq_true_eq] at h
  simp only [isWhitespace, Bool.or_eq_false_iff, Bool.and_eq_false_iff, decide_eq_false_iff_not]
  omega

theorem not_mem_of_labelChars {cs : List Char} (h : ∀ c ∈ cs, labelChar c) (hd : labelChar d = false) : d ∉ cs := by
  intro hmem
  rw [h d hmem] at hd
  cases hd

theorem splitTermsFrom_skip (h : ∀ c ∈ cs, c ≠ '(' ∧ c ≠ ')' ∧ (c = ',' → 0 < depth)) (piece rest : List Char) :
    splitTermsFrom piece depth (cs ++ rest) = splitTermsFrom (piece ++ cs) depth rest := by
  induction cs generalizing piece with
  | nil => rw [nil_append, append_nil]
  | cons c cs ih =>
    obtain ⟨hopen, hclose, hcomma⟩ := h c mem_cons_self
    have hnot : ¬(c = ',' ∧ depth = 0) := fun hc => absurd (hcomma hc.1) (by omega)
    rw [cons_append, splitTermsFrom, if_neg hopen, if_neg hclose, if_neg hnot,
      ih (fun d hd => h d (mem_cons_of_mem c hd)), append_assoc, singleton_append]

def Whole (cs : List Char) : Prop :=
  ∀ piece rest, splitTermsFrom piece 0 (cs ++ rest) = splitTermsFrom (piece ++ cs) 0 rest

theorem whole_plain (h : ∀ c ∈ cs, c ≠ '(' ∧ c ≠ ')' ∧ c ≠ ',') : Whole cs :=
  fun piece rest => splitTermsFrom_skip (fun c hc => ⟨(h c hc).1, (h c hc).2.1, fun he => absurd he (h c hc).2.2⟩) piece rest

theorem whole_parentheses {inner : List Char} (hlead : ∀ c ∈ lead, c ≠ '(' ∧ c ≠ ')' ∧ c ≠ ',')
    (hinner : ∀ c ∈ inner, c ≠ '(' ∧ c ≠ ')') : Whole (lead ++ '(' :: inner ++ [')']) := by
  intro piece rest
  have hstep : lead ++ '(' :: inner ++ [')'] ++ rest = lead ++ ('(' :: (inner ++ (')' :: rest))) := by simp
  rw [hstep, whole_plain hlead, splitTermsFrom,
    splitTermsFrom_skip (fun c hc => ⟨(hinner c hc).1, (hinner c hc).2, fun _ => Nat.succ_pos 0⟩), splitTermsFrom]
  simp

theorem splitTermsFrom_join (t : List Char) (ts : List (List Char)) (h : ∀ u ∈ t :: ts, Whole u) :
    splitTermsFrom [] 0 (intercalate [','] (t :: ts)) = (t :: ts).map trim := by
  induction ts generalizing t with
  | nil =>
    have hwhole := h t mem_cons_self [] []
    rw [splitTermsFrom] at hwhole
    simpa [intercalate] using hwhole
  | cons u ts ih =>
    have hjoin : intercalate [','] (t :: u :: ts) = t ++ ',' :: intercalate [','] (u :: ts) := by
      simp [intercalate]
    rw [hjoin, h t mem_cons_self, splitTermsFrom, ih u (fun v hv => h v (mem_cons_of_mem t hv))]
    rfl

theorem parseTerm_of_plain (hbang : '!' ∉ part) (hnotin : splitOnceText " notin ".toList part = none)
    (hin : splitOnceText " in ".toList part = none) :
    parseTerm part = match splitOnceText "=".toList part with
      | some (key, value) => LabelSelector.withKey part key "empty key" (.equality · (LabelSelector.equalityValue value))
      | none => LabelSelector.withKey part part "empty key" .exists := by
  have hne : splitOnceText "!=".toList part = none := Text.splitOnceText_eq_none hbang
  unfold parseTerm
  split
  · exact absurd mem_cons_self hbang
  · cases heq : splitOnceText "=".toList part with
    | none | some kv => simp only [hnotin, hin, hne]

theorem splitOnceText_words (h : ' ' ∉ part) :
    splitOnceText " notin ".toList part = none ∧ splitOnceText " in ".toList part = none :=
  ⟨Text.splitOnceText_eq_none h, Text.splitOnceText_eq_none h⟩

theorem withKey_eq (hne : key ≠ []) (htrim : trim key = key) :
    LabelSelector.withKey part key reason f = .ok (f (String.ofList key)) := by
  rw [LabelSelector.withKey, htrim, if_neg hne]

theorem toList_ne_nil (h : k ≠ "") : k.toList ≠ [] := by simpa using h

theorem trim_labelChars (h : ∀ c ∈ cs, labelChar c) : trim cs = cs :=
  Text.trim_of_forall (fun c hc => labelChar_not_whitespace (h c hc))

theorem parseTerm_equality (hk : ValidKey k) (hv : ValidValue v) :
    parseTerm (k ++ "=" ++ v).toList = .ok (.equality k v) := by
  have hlist : (k ++ "=" ++ v).toList = k.toList ++ '=' :: v.toList := by simp
  have hnot (d : Char) (hd : labelChar d = false) (hne : d ≠ '=') : d ∉ k.toList ++ '=' :: v.toList := by
    simp [not_mem_of_labelChars hk.2 hd, not_mem_of_labelChars hv hd, hne]
  have hwords := splitOnceText_words (hnot ' ' (by decide) (by decide))
  have hsplit : splitOnceText "=".toList (k.toList ++ '=' :: v.toList) = some (k.toList, v.toList) := by
    have hpat : "=".toList = ['='] := rfl
    rw [hpat, Text.splitOnceText_append (not_mem_of_labelChars hk.2 (by decide))]
    simp [splitOnceText]
  have hvalue : LabelSelector.equalityValue v.toList = v := by
    unfold LabelSelector.equalityValue
    rw [trim_labelChars hv]
    split
    · next rest heq =>
      exact absurd (heq ▸ mem_cons_self) (not_mem_of_labelChars hv (d := '=') (by decide))
    · exact String.ofList_toList
  rw [hlist, parseTerm_of_plain (hnot '!' (by decide) (by decide)) hwords.1 hwords.2, hsplit]
  dsimp only
  rw [withKey_eq (toList_ne_nil hk.1) (trim_labelChars hk.2), hvalue, String.ofList_toList]

theorem parseTerm_exists (hk : ValidKey k) : parseTerm k.toList = .ok (.exists k) := by
  have hwords := splitOnceText_words (not_mem_of_labelChars hk.2 (d := ' ') (by decide))
  have hsplit : splitOnceText "=".toList k.toList = none :=
    Text.splitOnceText_eq_none (not_mem_of_labelChars hk.2 (by decide))
  rw [parseTerm_of_plain (not_mem_of_labelChars hk.2 (by decide)) hwords.1 hwords.2, hsplit]
  rw [withKey_eq (toList_ne_nil hk.1) (trim_labelChars hk.2), String.ofList_toList]

theorem parseTerm_doesNotExist (hk : ValidKey k) : parseTerm ("!" ++ k).toList = .ok (.doesNotExist k) := by
  have hlist : ("!" ++ k).toList = '!' :: k.toList := by simp
  rw [hlist, parseTerm, withKey_eq (toList_ne_nil hk.1) (trim_labelChars hk.2), String.ofList_toList]

theorem intercalate_cons_cons (d : Char) (l m : List Char) (ls : List (List Char)) :
    intercalate [d] (l :: m :: ls) = l ++ d :: intercalate [d] (m :: ls) := by
  simp [intercalate]

theorem mem_intercalate {ls : List (List Char)} (h : c ∈ intercalate [d] ls) :
    c = d ∨ ∃ l ∈ ls, c ∈ l := by
  induction ls with
  | nil => cases h
  | cons l ls ih =>
    cases ls with
    | nil => exact .inr ⟨l, mem_cons_self, by simpa [intercalate] using h⟩
    | cons m ls =>
      rw [intercalate_cons_cons, mem_append, mem_cons] at h
      obtain h | h | h := h
      · exact .inr ⟨l, mem_cons_self, h⟩
      · exact .inl h
      · obtain h | ⟨l', hl', hc⟩ := ih h
        · exact .inl h
        · exact .inr ⟨l', mem_cons_of_mem l hl', hc⟩

theorem mem_join_values (hvalues : ∀ v ∈ values, ValidValue v) (h : c ∈ (join ',' values).toList) :
    c = ',' ∨ labelChar c := by
  rw [join, String.toList_ofList] at h
  obtain h | ⟨l, hl, hc⟩ := mem_intercalate h
  · exact .inl h
  · obtain ⟨v, hv, rfl⟩ := mem_map.mp hl
    exact .inr (hvalues v hv c hc)

theorem splitOnceText_past (ha : ' ' ∉ a) (hx : p ≠ x) (h : splitOnceText (' ' :: p :: pat) (x :: rest) = none) :
    splitOnceText (' ' :: p :: pat) (a ++ ' ' :: x :: rest) = none := by
  have hnot : (' ' :: p :: pat).isPrefixOf (' ' :: x :: rest) = false := by simp [isPrefixOf, hx]
  rw [Text.splitOnceText_append ha, splitOnceText, if_neg (by simp [hnot]), h]
  rfl

def setText (k : String) (word : List Char) (values : List String) : List Char :=
  k.toList ++ ' ' :: (word ++ ' ' :: '(' :: ((join ',' values).toList ++ [')']))

structure Foreign (word : List Char) : Prop where
  letters : ∀ c ∈ word, labelChar c = true
  head : ∃ x rest, word = x :: rest ∧ x ≠ 'n' ∧ x ≠ 'i'

theorem foreign_In : Foreign ['I', 'n'] := ⟨by simp [labelChar], 'I', ['n'], rfl, by decide, by decide⟩

theorem foreign_NotIn : Foreign ['N', 'o', 't', 'I', 'n'] :=
  ⟨by simp [labelChar], 'N', ['o', 't', 'I', 'n'], rfl, by decide, by decide⟩

theorem mem_setText (hk : ValidKey k) (hvalues : ∀ v ∈ values, ValidValue v) (hword : Foreign word)
    (h : c ∈ setText k word values) : labelChar c ∨ c = ' ' ∨ c = '(' ∨ c = ',' ∨ c = ')' := by
  simp only [setText, mem_append, mem_cons, not_mem_nil, or_false] at h
  obtain h | h | h | h | h | h | h := h
  · exact .inl (hk.2 c h)
  · exact .inr (.inl h)
  · exact .inl (hword.letters c h)
  · exact .inr (.inl h)
  · exact .inr (.inr (.inl h))
  · obtain h | h := mem_join_values hvalues h
    · exact .inr (.inr (.inr (.inl h)))
    · exact .inl h
  · exact .inr (.inr (.inr (.inr h)))

theorem splitOnceText_setText (hk : ValidKey k) (hvalues : ∀ v ∈ values, ValidValue v)
    (hword : Foreign word) (hp : p = 'n' ∨ p = 'i') (pat : List Char) :
    splitOnceText (' ' :: p :: pat) (setText k word values) = none := by
  obtain ⟨x, rest, rfl, hn, hi⟩ := hword.head
  have hpx : p ≠ x := by
    rintro rfl
    exact hp.elim hn hi
  have hparen : p ≠ '(' := by
    rintro rfl
    revert hp
    decide
  refine splitOnceText_past (not_mem_of_labelChars hk.2 (by decide)) hpx ?_
  refine splitOnceText_past (a := x :: rest) (not_mem_of_labelChars hword.letters (by decide)) hparen ?_
  refine Text.splitOnceText_eq_none (fun hmem => ?_)
  simp only [mem_cons, mem_append, not_mem_nil, or_false] at hmem
  obtain h | h | h := hmem
  · cases h
  · obtain h | h := mem_join_values hvalues h
    · cases h
    · cases h
  · cases h

theorem trim_setText (hk : ValidKey k) (word : List Char) (values : List String) :
    trim (setText k word values) = setText k word values := by
  refine Text.trim_of_ends (fun c hc => ?_) (fun c hc => ?_)
  · rw [setText, head?_append_of_ne_nil _ (toList_ne_nil hk.1)] at hc
    exact labelChar_not_whitespace (hk.2 c (mem_of_head? hc))
  · have hlast : setText k word values = (k.toList ++ ' ' :: (word ++ ' ' :: '(' :: (join ',' values).toList)) ++ [')'] := by
      simp [setText]
    rw [hlast, getLast?_concat] at hc
    cases hc
    decide

theorem parseTerm_setText (hk : ValidKey k) (hvalues : ∀ v ∈ values, ValidValue v) (hword : Foreign word) :
    parseTerm (setText k word values) = .ok (.exists (String.ofList (setText k word values))) := by
  have hnot (d : Char) (hd : labelChar d = false) (hother : d ≠ ' ' ∧ d ≠ '(' ∧ d ≠ ',' ∧ d ≠ ')') :
      d ∉ setText k word values := by
    intro hmem
    obtain h | h | h | h | h := mem_setText hk hvalues hword hmem
    · rw [hd] at h
      cases h
    · exact hother.1 h
    · exact hother.2.1 h
    · exact hother.2.2.1 h
    · exact hother.2.2.2 h
  have hsplit : splitOnceText "=".toList (setText k word values) = none :=
    Text.splitOnceText_eq_none (hnot '=' (by decide) (by decide))
  rw [parseTerm_of_plain (hnot '!' (by decide) (by decide)) (splitOnceText_setText hk hvalues hword (.inl rfl) _)
    (splitOnceText_setText hk hvalues hword (.inr rfl) _), hsplit]
  exact withKey_eq (by simp [setText]) (trim_setText hk word values)

structure Renders (s : String) (term : LabelSelectorTerm) : Prop where
  whole : Whole s.toList
  trimmed : trim s.toList = s.toList
  nonempty : s.toList ≠ []
  parses : parseTerm s.toList = .ok term

def textHolds (obj : Json) (s : String) : Bool :=
  match parseTerm s.toList with
  | .ok term => term.matches (labelsOf obj)
  | .error _ => false

theorem mapM_renders {ss : List String} (h : ∀ s ∈ ss, ∃ term, Renders s term) :
    ∃ terms, (ss.map String.toList).mapM parseTerm = .ok terms := by
  induction ss with
  | nil => exact ⟨[], rfl⟩
  | cons s ss ih =>
    obtain ⟨term, hterm⟩ := h s mem_cons_self
    obtain ⟨terms, hterms⟩ := ih (fun s' hs' => h s' (mem_cons_of_mem s hs'))
    refine ⟨term :: terms, ?_⟩
    rw [map_cons, mapM_cons, hterm.parses, hterms]
    rfl

theorem parts_join (h : ∀ s ∈ ss, ∃ term, Renders s term) :
    (LabelSelector.splitLabelSelectorTerms (join ',' ss).toList).filter (fun part => part ≠ []) =
      ss.map String.toList := by
  rw [LabelSelector.splitLabelSelectorTerms, join, String.toList_ofList]
  cases ss with
  | nil => rfl
  | cons s ss =>
    rw [map_cons, splitTermsFrom_join, ← map_cons (f := String.toList), map_map]
    · have htrim : (s :: ss).map (trim ∘ String.toList) = (s :: ss).map String.toList := by
        refine map_congr_left (fun s' hs' => ?_)
        obtain ⟨term, hterm⟩ := h s' hs'
        exact hterm.trimmed
      rw [htrim, filter_eq_self]
      intro part hpart
      obtain ⟨s', hs', rfl⟩ := mem_map.mp hpart
      obtain ⟨term, hterm⟩ := h s' hs'
      exact decide_eq_true hterm.nonempty
    · intro u hu
      rw [← map_cons (f := String.toList)] at hu
      obtain ⟨s', hs', rfl⟩ := mem_map.mp hu
      obtain ⟨term, hterm⟩ := h s' hs'
      exact hterm.whole

theorem parse_join (h : ∀ s ∈ ss, ∃ term, Renders s term) :
    ∃ terms, parseLabelSelector (join ',' ss) = .ok terms ∧
      ∀ obj, terms.all (LabelSelectorTerm.matches (labelsOf obj)) = ss.all (textHolds obj) := by
  obtain ⟨terms, hterms⟩ := mapM_renders h
  refine ⟨terms, by rw [parseLabelSelector, parts_join h, hterms], fun obj => ?_⟩
  have hall := Lists.all_mapM (p := LabelSelectorTerm.matches (labelsOf obj))
    (q := fun part => textHolds obj (String.ofList part)) hterms ?_
  · rw [hall, all_map]
    refine all_congr rfl (fun s => ?_)
    rw [Function.comp_apply, String.ofList_toList]
  · intro part _ term hterm
    rw [textHolds, String.toList_ofList, hterm]

theorem ne_of_labelChar (h : labelChar c) (hd : labelChar d = false) : c ≠ d := by
  rintro rfl
  rw [h] at hd
  cases hd

theorem plain_of_labelChar (h : labelChar c) : c ≠ '(' ∧ c ≠ ')' ∧ c ≠ ',' :=
  ⟨ne_of_labelChar h (by decide), ne_of_labelChar h (by decide), ne_of_labelChar h (by decide)⟩

theorem renders_equality (hk : ValidKey k) (hv : ValidValue v) : Renders (k ++ "=" ++ v) (.equality k v) := by
  have hlist : (k ++ "=" ++ v).toList = k.toList ++ '=' :: v.toList := by simp
  have hchars : ∀ c ∈ (k ++ "=" ++ v).toList, labelChar c ∨ c = '=' := by
    intro c hc
    rw [hlist, mem_append, mem_cons] at hc
    obtain hc | hc | hc := hc
    · exact .inl (hk.2 c hc)
    · exact .inr hc
    · exact .inl (hv c hc)
  refine ⟨whole_plain (fun c hc => ?_), Text.trim_of_forall (fun c hc => ?_), by simp [hlist], parseTerm_equality hk hv⟩
  · obtain h | rfl := hchars c hc
    · exact plain_of_labelChar h
    · decide
  · obtain h | rfl := hchars c hc
    · exact labelChar_not_whitespace h
    · decide

theorem renders_exists (hk : ValidKey k) : Renders k (.exists k) :=
  ⟨whole_plain (fun c hc => plain_of_labelChar (hk.2 c hc)), trim_labelChars hk.2, toList_ne_nil hk.1,
    parseTerm_exists hk⟩

theorem renders_doesNotExist (hk : ValidKey k) : Renders ("!" ++ k) (.doesNotExist k) := by
  have hchars : ∀ c ∈ ("!" ++ k).toList, labelChar c ∨ c = '!' := by
    intro c hc
    rw [String.toList_append, mem_append] at hc
    obtain hc | hc := hc
    · exact .inr (by simpa using hc)
    · exact .inl (hk.2 c hc)
  refine ⟨whole_plain (fun c hc => ?_), Text.trim_of_forall (fun c hc => ?_), by simp, parseTerm_doesNotExist hk⟩
  · obtain h | rfl := hchars c hc
    · exact plain_of_labelChar h
    · decide
  · obtain h | rfl := hchars c hc
    · exact labelChar_not_whitespace h
    · decide

theorem renders_setText (hk : ValidKey k) (hvalues : ∀ v ∈ values, ValidValue v) (hword : Foreign word) :
    Renders (String.ofList (setText k word values)) (.exists (String.ofList (setText k word values))) := by
  have hsplit : setText k word values =
      (k.toList ++ ' ' :: (word ++ [' '])) ++ '(' :: (join ',' values).toList ++ [')'] := by simp [setText]
  constructor
  · rw [String.toList_ofList, hsplit]
    refine whole_parentheses (fun c hc => ?_) (fun c hc => ?_)
    · simp only [mem_append, mem_cons, not_mem_nil, or_false] at hc
      obtain hc | rfl | hc | rfl := hc
      · exact plain_of_labelChar (hk.2 c hc)
      · decide
      · exact plain_of_labelChar (hword.letters c hc)
      · decide
    · obtain rfl | h := mem_join_values hvalues hc
      · decide
      · exact ⟨(plain_of_labelChar h).1, (plain_of_labelChar h).2.1⟩
  · rw [String.toList_ofList]
    exact trim_setText hk word values
  · simp [setText]
  · rw [String.toList_ofList]
    exact parseTerm_setText hk hvalues hword

def renderRequirement (r : LabelSelectorRequirement) : String :=
  match r.operator with
  | .isIn => r.key ++ " In (" ++ join ',' r.values ++ ")"
  | .notIn => r.key ++ " NotIn (" ++ join ',' r.values ++ ")"
  | .exists => r.key
  | .doesNotExist => "!" ++ r.key
  | .other => ""

def LabelSelectorRequirement.setBased (r : LabelSelectorRequirement) : Bool :=
  r.operator = .isIn || r.operator = .notIn

theorem render_In (k : String) (values : List String) :
    k ++ " In (" ++ join ',' values ++ ")" = String.ofList (setText k ['I', 'n'] values) := by
  rw [← String.toList_inj]
  simp [setText]

theorem render_NotIn (k : String) (values : List String) :
    k ++ " NotIn (" ++ join ',' values ++ ")" = String.ofList (setText k ['N', 'o', 't', 'I', 'n'] values) := by
  rw [← String.toList_inj]
  simp [setText]

variable {sel : LabelSelector} {r : LabelSelectorRequirement} {j obj : Json} {labels : List (String × String)}

theorem renders_requirement (hr : ValidKey r.key ∧ (∀ v ∈ r.values, ValidValue v) ∧ r.operator ≠ .other) :
    ∃ term, Renders (renderRequirement r) term := by
  obtain ⟨hk, hvalues, hop⟩ := hr
  unfold renderRequirement
  split
  · rw [render_In]
    exact ⟨_, renders_setText hk hvalues foreign_In⟩
  · rw [render_NotIn]
    exact ⟨_, renders_setText hk hvalues foreign_NotIn⟩
  · exact ⟨_, renders_exists hk⟩
  · exact ⟨_, renders_doesNotExist hk⟩
  · next h => exact absurd h hop

theorem textHolds_eq (h : Renders s term) : textHolds obj s = term.matches (labelsOf obj) := by
  rw [textHolds, h.parses]

theorem textHolds_equality (hobj : HasLabels obj labels) (hk : ValidKey k) (hv : ValidValue v) :
    textHolds obj (k ++ "=" ++ v) = decide (labels.lookup k = some v) := by
  rw [textHolds_eq (renders_equality hk hv), LabelSelectorTerm.matches, LabelSelector.textOf_labelsOf, (hobj k).2]

theorem textHolds_requirement (hobj : HasLabels obj labels)
    (hr : ValidKey r.key ∧ (∀ v ∈ r.values, ValidValue v) ∧ r.operator ≠ .other) :
    textHolds obj (renderRequirement r) =
      if r.setBased then (labels.lookup (renderRequirement r)).isSome else r.matches labels := by
  obtain ⟨hk, hvalues, hop⟩ := hr
  unfold renderRequirement LabelSelectorRequirement.setBased LabelSelectorRequirement.matches
  cases hcase : r.operator with
  | isIn =>
    rw [render_In, textHolds_eq (renders_setText hk hvalues foreign_In), LabelSelectorTerm.matches,
      LabelSelector.any_labelsOf, (hobj _).1]
    rfl
  | notIn =>
    rw [render_NotIn, textHolds_eq (renders_setText hk hvalues foreign_NotIn), LabelSelectorTerm.matches,
      LabelSelector.any_labelsOf, (hobj _).1]
    rfl
  | «exists» =>
    rw [textHolds_eq (renders_exists hk), LabelSelectorTerm.matches, LabelSelector.any_labelsOf, (hobj _).1]
    rfl
  | doesNotExist =>
    rw [textHolds_eq (renders_doesNotExist hk), LabelSelectorTerm.matches, LabelSelector.any_labelsOf, (hobj _).1]
    rfl
  | other => exact absurd hcase hop

theorem expressionTerm_eq (h : EncodesRequirement j r)
    (hr : ValidKey r.key ∧ (∀ v ∈ r.values, ValidValue v) ∧ r.operator ≠ .other) :
    expressionTerm j = some (renderRequirement r) := by
  have hvalues : ((j.idx "values").asArray?.getD []).filterMap Json.asStr? = r.values := by
    rw [Json.idx]
    obtain ⟨hnone, hnil⟩ | hsome := h.values
    · rw [hnone, hnil]
      rfl
    · rw [hsome]
      simp [Json.asArray?, Json.asStr?, Function.comp_def]
  have hop : SelectorOperator.ofText ((j.idx "operator").asStr?.getD "") = r.operator := by
    obtain ⟨text, htext, hop⟩ := Option.map_eq_some_iff.mp h.operator
    rw [htext]
    exact hop
  unfold expressionTerm renderRequirement
  rw [h.key, Option.getD_some, if_neg hr.1.1, hop, hvalues]
  cases hcase : r.operator with
  | other => exact absurd hcase hr.2.2
  | _ => rfl

def texts (sel : LabelSelector) : List String :=
  (sel.matchLabels.map (fun e => e.1 ++ "=" ++ e.2)).insertionSort (fun a b => a ≤ b) ++
    sel.matchExpressions.map renderRequirement

theorem equalityTerms_labels (l : List (String × String)) :
    equalityTerms (l.map (fun e => (e.1, .str e.2))) =
      (l.map (fun e => e.1 ++ "=" ++ e.2)).insertionSort (fun a b => a ≤ b) := by
  rw [equalityTerms, filterMap_map]
  refine congrArg _ ?_
  induction l with
  | nil => rfl
  | cons e l ih =>
    rw [map_cons, ← ih]
    rfl

theorem filterMap_expressionTerm (h : Forall₂ EncodesRequirement items rs)
    (hrs : ∀ r ∈ rs, ValidKey r.key ∧ (∀ v ∈ r.values, ValidValue v) ∧ r.operator ≠ .other) :
    items.filterMap expressionTerm = rs.map renderRequirement := by
  induction h with
  | nil => rfl
  | cons hj _ ih =>
    rw [filterMap_cons_some (expressionTerm_eq hj (hrs _ mem_cons_self)),
      ih (fun r hr => hrs r (mem_cons_of_mem _ hr)), map_cons]

theorem ne_of_lookup_none (h : Json.lookup key fields = none) : ∀ f ∈ fields, f.1 ≠ key := by
  induction fields with
  | nil => exact fun f hf => absurd hf not_mem_nil
  | cons g fields ih =>
    rw [Json.lookup] at h
    split_ifs at h with hkey
    intro f hf
    obtain rfl | hf := mem_cons.mp hf
    · exact hkey
    · exact ih h f hf

theorem labelSelectorToString_eq (hj : Encodes j sel) (hsel : sel.Valid) :
    labelSelectorToString j = join ',' (texts sel) := by
  obtain ⟨fields, rfl, hnames⟩ := hj.fields
  have hlabels : objectFields (Json.lookup "matchLabels" fields) = sel.matchLabels.map (fun e => (e.1, .str e.2)) := by
    obtain ⟨hnone, hnil⟩ | hsome := hj.labels
    · rw [show Json.lookup "matchLabels" fields = none from hnone, hnil]
      rfl
    · rw [show Json.lookup "matchLabels" fields = _ from hsome]
      rfl
  have hexprs : (arrayItems (Json.lookup "matchExpressions" fields)).filterMap expressionTerm =
      sel.matchExpressions.map renderRequirement := by
    obtain ⟨hnone, hnil⟩ | ⟨items, hsome, hitems⟩ := hj.expressions
    · rw [show Json.lookup "matchExpressions" fields = none from hnone, hnil]
      rfl
    · rw [show Json.lookup "matchExpressions" fields = _ from hsome]
      exact filterMap_expressionTerm hitems hsel.expressions
  unfold labelSelectorToString
  dsimp only
  split_ifs with hflat
  · have hfields : fields = [] := by
      refine eq_nil_iff_forall_not_mem.mpr (fun f hf => ?_)
      exact (hnames f hf).elim (ne_of_lookup_none hflat.1 f hf) (ne_of_lookup_none hflat.2 f hf)
    subst hfields
    rw [texts, ← equalityTerms_labels, ← hlabels, ← hexprs]
    rfl
  · rw [hlabels, hexprs, equalityTerms_labels]
    rfl

theorem applyLabelSelector_singleton (terms : List LabelSelectorTerm) :
    applyLabelSelector [obj] terms = [obj] ↔ terms.all (LabelSelectorTerm.matches (labelsOf obj)) := by
  unfold applyLabelSelector
  split_ifs with hnil
  · rw [isEmpty_iff.mp hnil]
    simp
  · simp

theorem all_texts (hsel : sel.Valid) (hobj : HasLabels obj labels) : (texts sel).all (textHolds obj) ↔
    (∀ e ∈ sel.matchLabels, labels.lookup e.1 = some e.2) ∧ ∀ r ∈ sel.matchExpressions,
      (if r.setBased then (labels.lookup (renderRequirement r)).isSome else r.matches labels) = true := by
  rw [texts, all_append, Bool.and_eq_true, (perm_insertionSort _ _).all_eq, all_map, all_map,
    all_eq_true, all_eq_true]
  refine and_congr (forall₂_congr fun e he => ?_) (forall₂_congr fun r hr => ?_)
  · rw [Function.comp_apply, textHolds_equality hobj (hsel.labels e he).1 (hsel.labels e he).2, decide_eq_true_eq]
  · rw [Function.comp_apply, textHolds_requirement hobj (hsel.expressions r hr)]

theorem forall_cond_iff {α : Type} (l : List α) (s p q : α → Bool) :
    (∀ r ∈ l, (if s r then p r else q r) = true) ↔
      (∀ r ∈ l, s r = false → q r) ∧ ∀ r ∈ l, s r → p r := by
  constructor
  · intro h
    refine ⟨fun r hr hs => ?_, fun r hr hs => ?_⟩
    · simpa [hs] using h r hr
    · simpa [hs] using h r hr
  · rintro ⟨hq, hp⟩ r hr
    cases hs : s r with
    | true => simpa [hs] using hp r hr hs
    | false => simpa [hs] using hq r hr hs

theorem stricter_iff {p q a b : Prop} (h : a → b) : ((p ∧ q ∧ a) ↔ p ∧ q ∧ b) ↔ a ∨ ¬(p ∧ q ∧ b) := by tauto

theorem lookup_renderRequirement (hlabels : ∀ e ∈ labels, ValidKey e.1) (hr : r.setBased) :
    labels.lookup (renderRequirement r) = none := by
  have hblank : ' ' ∈ (renderRequirement r).toList := by
    unfold LabelSelectorRequirement.setBased at hr
    unfold renderRequirement
    cases hop : r.operator <;> simp [hop] at hr ⊢
  refine lookup_eq_none_iff.mpr (fun e he => ?_)
  rw [bne_iff_ne]
  intro hkey
  exact absurd ((hlabels e he).2 ' ' (hkey ▸ hblank)) (by decide)

/-- The text of a selector selects what the selector does, unless its rest accepts the labels and the set-based
expressions do not hold exactly when there are labels spelled like their texts. With valid label keys there are none
such. -/
theorem rendered_selector_iff (hj : Encodes j sel) (hsel : sel.Valid) (hobj : HasLabels obj labels) :
    ∃ terms, parseLabelSelector (labelSelectorToString j) = .ok terms ∧
      ((applyLabelSelector [obj] terms = [obj] ↔ labelSelectorMatches (some sel) labels = true) ↔
        (labelSelectorMatches (some ⟨sel.matchLabels, sel.matchExpressions.filter (fun r => !r.setBased)⟩) labels =
            true →
          ((∀ r ∈ sel.matchExpressions.filter (fun r => r.setBased), (labels.lookup (renderRequirement r)).isSome) ↔
            ∀ r ∈ sel.matchExpressions.filter (fun r => r.setBased), r.matches labels = true))) ∧
      ((∀ e ∈ labels, ValidKey e.1) →
        ((applyLabelSelector [obj] terms = [obj] ↔ labelSelectorMatches (some sel) labels = true) ↔
          (∀ r ∈ sel.matchExpressions, r.setBased = false) ∨ labelSelectorMatches (some sel) labels = false)) := by
  have hrenders : ∀ s ∈ texts sel, ∃ term, Renders s term := by
    intro s hs
    obtain hs | hs := mem_append.mp hs
    · obtain ⟨e, he, rfl⟩ := mem_map.mp ((perm_insertionSort _ _).mem_iff.mp hs)
      exact ⟨_, renders_equality (hsel.labels e he).1 (hsel.labels e he).2⟩
    · obtain ⟨r, hr, rfl⟩ := mem_map.mp hs
      exact renders_requirement (hsel.expressions r hr)
  obtain ⟨terms, hparse, hall⟩ := parse_join hrenders
  refine ⟨terms, by rw [labelSelectorToString_eq hj hsel, hparse], ?_⟩
  have hmatch := forall_cond_iff sel.matchExpressions (fun r => r.setBased) (fun r => r.matches labels)
    (fun r => r.matches labels)
  simp only [ite_self] at hmatch
  rw [applyLabelSelector_singleton, hall, all_texts hsel hobj, forall_cond_iff]
  constructor
  · simp only [labelSelectorMatches, Bool.and_eq_true, all_eq_true, decide_eq_true_eq, mem_filter,
      Bool.not_eq_true', and_imp, hmatch, and_congr_right_iff]
  · intro hlabels
    have hnone : (∀ r ∈ sel.matchExpressions, r.setBased → (labels.lookup (renderRequirement r)).isSome) ↔
        ∀ r ∈ sel.matchExpressions, r.setBased = false :=
      forall₂_congr fun r _ => by
        cases hr : r.setBased with
        | true => simp [lookup_renderRequirement hlabels hr]
        | false => simp
    have hvacuous : (∀ r ∈ sel.matchExpressions, r.setBased = false) →
        ∀ r ∈ sel.matchExpressions, r.setBased → r.matches labels = true :=
      fun h r hr hs => absurd hs (Bool.eq_false_iff.mp (h r hr))
    rw [hnone, ← Bool.not_eq_true]
    simp only [labelSelectorMatches, Bool.and_eq_true, all_eq_true, decide_eq_true_eq, hmatch]
    exact stricter_iff hvacuous

def oneExpression (key operator value : String) : Json :=
  .obj [("matchExpressions", .arr [.obj [("key", .str key), ("operator", .str operator), ("values", .arr [.str value])]])]

def webObject : Json := .obj [("metadata", .obj [("labels", .obj [("app", .str "web")])])]

theorem set_based_text_selects_nothing :
    labelSelectorToString (oneExpression "app" "In" "web") = "app In (web)" ∧
    labelSelectorMatches (some ⟨[], [⟨"app", .isIn, ["web"]⟩]⟩) [("app", "web")] = true ∧
    (parseLabelSelector "app In (web)").toOption.map (applyLabelSelector [webObject]) = some [] := by
  refine ⟨?_, ?_, ?_⟩
  · decide +kernel
  · decide +kernel
  · decide +kernel

theorem hasLabels_web : HasLabels webObject [("app", "web")] := by
  intro key
  by_cases hkey : key = "app"
  · subst hkey
    exact ⟨rfl, rfl⟩
  · have hbeq : (key == "app") = false := beq_false_of_ne hkey
    have hlookup : lookup key [("app", "web")] = none := by simp [hbeq]
    have hget : ((webObject.idx "metadata").idx "labels").get? key = none := if_neg (Ne.symm hkey)
    rw [LabelSelector.hasLabel, LabelSelector.labelText, hget, hlookup]
    exact ⟨rfl, rfl⟩

def webSelector : LabelSelector := ⟨[("app", "web")], [⟨"app", .exists, []⟩, ⟨"tier", .doesNotExist, []⟩]⟩

def webSelectorJson : Json :=
  .obj [("matchExpressions", .arr [.obj [("key", .str "app"), ("operator", .str "Exists")],
    .obj [("key", .str "tier"), ("operator", .str "DoesNotExist")]]), ("matchLabels", .obj [("app", .str "web")])]

theorem rendered_selector_web : ∃ terms, parseLabelSelector (labelSelectorToString webSelectorJson) = .ok terms ∧
    (applyLabelSelector [webObject] terms = [webObject] ↔
      labelSelectorMatches (some webSelector) [("app", "web")] = true) := by
  have hj : Encodes webSelectorJson webSelector :=
    ⟨⟨_, rfl, by simp⟩, .inr rfl,
      .inr ⟨_, rfl, .cons ⟨rfl, rfl, .inl ⟨rfl, rfl⟩⟩ (.cons ⟨rfl, rfl, .inl ⟨rfl, rfl⟩⟩ .nil)⟩⟩
  have happ : ValidKey "app" := ⟨by decide, by simp [labelChar]⟩
  have htier : ValidKey "tier" := ⟨by decide, by simp [labelChar]⟩
  have hsel : webSelector.Valid :=
    ⟨by simp [webSelector, happ, ValidValue, labelChar], by simp [webSelector, happ, htier]⟩
  obtain ⟨terms, hparse, -, hiff⟩ := rendered_selector_iff hj hsel hasLabels_web
  refine ⟨terms, hparse, (hiff (by simp [happ])).mpr (.inl ?_)⟩
  simp [webSelector, LabelSelectorRequirement.setBased]

end SelectorText

end U7s.Handlers
