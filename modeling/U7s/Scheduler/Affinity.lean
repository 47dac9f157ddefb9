import U7s.Lib.Tables
import U7s.Scheduler.Tally

/-! Affinity between pods, counted by topology domain. The search for a preemption takes the victims out of the
counts instead of counting anew. -/

namespace U7s.Scheduler

open List

open Tables (bump)

abbrev Labels := List (String × String)

inductive Operator where
  | isIn
  | notIn
  | exists
  | doesNotExist
  | other
deriving DecidableEq

structure NodeSelectorRequirement where
  key : String
  operator : Operator
  values : List String

def nodeSelectorRequirementMatches (labels : Labels) (req : NodeSelectorRequirement) : Bool :=
  match req.operator with
  | .isIn => (labels.lookup req.key).any (fun v => req.values.contains v)
  | .notIn => !(labels.lookup req.key).any (fun v => req.values.contains v)
  | .exists => (labels.lookup req.key).isSome
  | .doesNotExist => !(labels.lookup req.key).isSome
  | .other => false

structure LabelSelectorSpec where
  matchLabels : Labels
  matchExpressions : List NodeSelectorRequirement

def labelSelectorMatches (labels : Labels) (selector : Option LabelSelectorSpec) : Bool :=
  match selector with
  | none => false
  | some s =>
    s.matchLabels.all (fun e => labels.lookup e.1 = some e.2) &&
      s.matchExpressions.all (nodeSelectorRequirementMatches labels)

structure PodAffinityTerm where
  labelSelector : Option LabelSelectorSpec
  namespaces : List String
  topologyKey : String

structure AffinePod where
  ns : String
  labels : Labels
  podAffinityTerms : List PodAffinityTerm
  podAntiAffinityTerms : List PodAffinityTerm

structure TalliedPodLabels where
  key : Key
  nodeName : String
  labels : Labels

abbrev NodeLabels := AList (fun _ : String => Labels)

abbrev PairCounts := AList (fun _ : String × String => ℤ)

def termNamespaceMatches (termNamespaces : List String) (podNs candidateNs : String) : Bool :=
  if termNamespaces = [] then candidateNs = podNs else termNamespaces.contains candidateNs

def podMatchesAffinityTerm (term : PodAffinityTerm) (podNs candidateNs : String) (labels : Labels) : Bool :=
  termNamespaceMatches term.namespaces podNs candidateNs && labelSelectorMatches labels term.labelSelector

def domainOf (nodes : NodeLabels) (node key : String) : Option String :=
  (nodes.lookup node).bind (fun labels => labels.lookup key)

def pairOf (nodes : NodeLabels) (podNs : String) (term : PodAffinityTerm) (p : TalliedPodLabels) :
    Option (String × String) :=
  if podMatchesAffinityTerm term podNs p.key.ns p.labels then
    (domainOf nodes p.nodeName term.topologyKey).map (fun value => (term.topologyKey, value))
  else none

def pairsOf (nodes : NodeLabels) (podNs : String) (tallied : List TalliedPodLabels) (term : PodAffinityTerm) :
    List (String × String) :=
  if term.topologyKey = "" then [] else tallied.filterMap (pairOf nodes podNs term)

def topologyPairsMatchedByTerms (terms : List PodAffinityTerm) (podNs : String) (tallied : List TalliedPodLabels)
    (nodes : NodeLabels) : PairCounts :=
  (terms.flatMap (pairsOf nodes podNs tallied)).foldl bump ∅

def hasMatch (matched : PairCounts) (pair : String × String) : Bool := (matched.lookup pair).any (fun n => 0 < n)

def allTermsHaveAMatch (nodeLabels : Labels) (matched : PairCounts) : List PodAffinityTerm → Option Bool
  | [] => some true
  | term :: terms =>
    match nodeLabels.lookup term.topologyKey with
    | none => none
    | some value =>
      (allTermsHaveAMatch nodeLabels matched terms).map (fun rest =>
        hasMatch matched (term.topologyKey, value) && rest)

def podAffinitySatisfied (pod : AffinePod) (nodeLabels : Labels) (matched : PairCounts) : Bool :=
  match allTermsHaveAMatch nodeLabels matched pod.podAffinityTerms with
  | none => false
  | some true => true
  | some false =>
    matched.entries.isEmpty &&
      pod.podAffinityTerms.all (fun term => podMatchesAffinityTerm term pod.ns pod.ns pod.labels)

def podAntiAffinitySatisfied (pod : AffinePod) (nodeLabels : Labels) (matched : PairCounts) : Bool :=
  pod.podAntiAffinityTerms.all (fun term =>
    (nodeLabels.lookup term.topologyKey).all (fun value =>
      (matched.lookup (term.topologyKey, value)).all (fun n => n ≤ 0)))

def discountTerm (podNs : String) (nodeLabels : Labels) (victims : List TalliedPodLabels) (m : PairCounts)
    (term : PodAffinityTerm) : PairCounts :=
  match nodeLabels.lookup term.topologyKey with
  | none => m
  | some value =>
    let discount := victims.countP (fun v => podMatchesAffinityTerm term podNs v.key.ns v.labels)
    if 0 < discount then
      match m.lookup (term.topologyKey, value) with
      | some n => m.insert (term.topologyKey, value) (n - discount)
      | none => m
    else m

def discountMatchedPairs (terms : List PodAffinityTerm) (podNs : String) (matched : PairCounts)
    (nodeLabels : Labels) (victims : List TalliedPodLabels) : PairCounts :=
  terms.foldl (discountTerm podNs nodeLabels victims) matched

structure InterPodAffinityContext where
  pod : AffinePod
  affinityMatched : PairCounts
  antiAffinityMatched : PairCounts

namespace InterPodAffinityContext

def build (pod : AffinePod) (tallied : List TalliedPodLabels) (nodes : NodeLabels) : InterPodAffinityContext :=
  ⟨pod, topologyPairsMatchedByTerms pod.podAffinityTerms pod.ns tallied nodes,
    topologyPairsMatchedByTerms pod.podAntiAffinityTerms pod.ns tallied nodes⟩

def nodeQualifiesExcludingVictims (ctx : InterPodAffinityContext) (nodeLabels : Labels)
    (victims : List TalliedPodLabels) : Bool :=
  if victims = [] then
    podAffinitySatisfied ctx.pod nodeLabels ctx.affinityMatched &&
      podAntiAffinitySatisfied ctx.pod nodeLabels ctx.antiAffinityMatched
  else
    podAffinitySatisfied ctx.pod nodeLabels
        (discountMatchedPairs ctx.pod.podAffinityTerms ctx.pod.ns ctx.affinityMatched nodeLabels victims) &&
      podAntiAffinitySatisfied ctx.pod nodeLabels
        (discountMatchedPairs ctx.pod.podAntiAffinityTerms ctx.pod.ns ctx.antiAffinityMatched nodeLabels victims)

def nodeQualifies (ctx : InterPodAffinityContext) (nodeLabels : Labels) : Bool :=
  ctx.nodeQualifiesExcludingVictims nodeLabels []

end InterPodAffinityContext

def pairCount (terms : List PodAffinityTerm) (podNs : String) (tallied : List TalliedPodLabels) (nodes : NodeLabels)
    (pair : String × String) : ℕ :=
  (terms.flatMap (pairsOf nodes podNs tallied)).count pair

theorem lookup_matched : (topologyPairsMatchedByTerms terms podNs tallied nodes).lookup pair =
    if pairCount terms podNs tallied nodes pair = 0 then none
    else some (pairCount terms podNs tallied nodes pair : ℤ) := by
  rw [topologyPairsMatchedByTerms, Tables.lookup_foldl_bump, pairCount, AList.lookup_empty]
  by_cases hmem : pair ∈ terms.flatMap (pairsOf nodes podNs tallied)
  · have hpos := count_pos_iff.mpr hmem
    rw [if_pos hmem, if_neg (by omega)]
    simp
  · rw [if_neg hmem, if_pos (count_eq_zero_of_not_mem hmem)]

theorem pairCount_cons (term : PodAffinityTerm) : pairCount (term :: terms) podNs tallied nodes pair =
    (pairsOf nodes podNs tallied term).count pair + pairCount terms podNs tallied nodes pair := by
  simp [pairCount]

theorem pairCount_split (gone : TalliedPodLabels → Bool) : pairCount terms podNs tallied nodes pair =
    pairCount terms podNs (tallied.filter gone) nodes pair +
      pairCount terms podNs (tallied.filter (fun p => !gone p)) nodes pair := by
  induction terms with
  | nil => rfl
  | cons term terms ih =>
    have hterm : (pairsOf nodes podNs tallied term).count pair =
        (pairsOf nodes podNs (tallied.filter gone) term).count pair +
          (pairsOf nodes podNs (tallied.filter (fun p => !gone p)) term).count pair := by
      unfold pairsOf
      split_ifs
      · rfl
      · have hperm := (filter_append_perm gone tallied).filterMap (pairOf nodes podNs term)
        rw [filterMap_append] at hperm
        rw [← hperm.count_eq, count_append]
    rw [pairCount_cons, pairCount_cons, pairCount_cons]
    omega

theorem pairOf_some (h : pairOf nodes podNs term p = some pair) :
    term.topologyKey = pair.1 ∧ podMatchesAffinityTerm term podNs p.key.ns p.labels ∧
      domainOf nodes p.nodeName pair.1 = some pair.2 := by
  unfold pairOf at h
  split_ifs at h with hmatch
  obtain ⟨value, hvalue, rfl⟩ := Option.map_eq_some_iff.mp h
  exact ⟨rfl, hmatch, hvalue⟩

theorem pairCount_eq_zero_iff : pairCount terms podNs tallied nodes pair = 0 ↔
    ∀ term ∈ terms, pair ∉ pairsOf nodes podNs tallied term := by
  rw [pairCount, count_eq_zero, mem_flatMap]
  push Not
  rfl

theorem pairCount_of_key_empty (hkey : pair.1 = "") : pairCount terms podNs tallied nodes pair = 0 := by
  refine pairCount_eq_zero_iff.mpr (fun term _ hmem => ?_)
  unfold pairsOf at hmem
  split_ifs at hmem with hempty
  · cases hmem
  · obtain ⟨p, -, hp⟩ := mem_filterMap.mp hmem
    exact hempty ((pairOf_some hp).1.trans hkey)

def discountOf (podNs : String) (nodeLabels : Labels) (victims : List TalliedPodLabels) (pair : String × String)
    (term : PodAffinityTerm) : ℕ :=
  if term.topologyKey = pair.1 ∧ nodeLabels.lookup pair.1 = some pair.2 then
    victims.countP (fun v => podMatchesAffinityTerm term podNs v.key.ns v.labels)
  else 0

theorem lookup_discountTerm (m : PairCounts) (term : PodAffinityTerm) :
    (discountTerm podNs nodeLabels victims m term).lookup pair =
      (m.lookup pair).map (fun n : ℤ => n - (discountOf podNs nodeLabels victims pair term : ℕ)) := by
  have hzero : ∀ o : Option ℤ, o.map (fun n => n - ((0 : ℕ) : ℤ)) = o := by
    intro o
    cases o <;> simp
  unfold discountTerm discountOf
  cases hvalue : nodeLabels.lookup term.topologyKey with
  | none =>
    rw [if_neg, hzero]
    rintro ⟨hkey, hlook⟩
    rw [← hkey, hvalue] at hlook
    cases hlook
  | some value =>
    dsimp only
    by_cases hpair : pair = (term.topologyKey, value)
    · subst hpair
      have hthis : term.topologyKey = (term.topologyKey, value).1 ∧
          nodeLabels.lookup (term.topologyKey, value).1 = some (term.topologyKey, value).2 := ⟨rfl, hvalue⟩
      split_ifs with hpos
      · cases hn : m.lookup (term.topologyKey, value) with
        | none => simp [hn]
        | some n => simp
      · rw [Nat.eq_zero_of_not_pos hpos, hzero]
    · have hnot : ¬(term.topologyKey = pair.1 ∧ nodeLabels.lookup pair.1 = some pair.2) := by
        rintro ⟨hkey, hlook⟩
        rw [← hkey, hvalue] at hlook
        exact hpair (Prod.ext hkey.symm (Option.some.inj hlook).symm)
      rw [if_neg hnot, hzero]
      split_ifs
      · split
        · exact AList.lookup_insert_ne hpair
        · rfl
      · rfl

theorem lookup_discountMatchedPairs (m : PairCounts) :
    (discountMatchedPairs terms podNs m nodeLabels victims).lookup pair =
      (m.lookup pair).map (fun n : ℤ => n - ((terms.map (discountOf podNs nodeLabels victims pair)).sum : ℕ)) := by
  unfold discountMatchedPairs
  induction terms generalizing m with
  | nil => cases hm : m.lookup pair <;> simp [hm]
  | cons term terms ih =>
    rw [foldl_cons, ih, lookup_discountTerm]
    cases m.lookup pair with
    | none => rfl
    | some n =>
      simp only [Option.map_some, map_cons, sum_cons, Nat.cast_add, sub_sub]

theorem discountOf_eq (hnode : nodes.lookup node = some nodeLabels) (hon : ∀ v ∈ victims, v.nodeName = node)
    (hkey : pair.1 ≠ "") (term : PodAffinityTerm) :
    discountOf podNs nodeLabels victims pair term = (pairsOf nodes podNs victims term).count pair := by
  have hdomain : ∀ v ∈ victims, domainOf nodes v.nodeName pair.1 = nodeLabels.lookup pair.1 := by
    intro v hv
    rw [domainOf, hon v hv, hnode]
    rfl
  unfold discountOf
  by_cases hterm : term.topologyKey = pair.1 ∧ nodeLabels.lookup pair.1 = some pair.2
  · obtain ⟨hk, hvalue⟩ := hterm
    rw [if_pos ⟨hk, hvalue⟩, pairsOf, if_neg (by rwa [hk]), count_filterMap]
    refine countP_congr (fun v hv => ?_)
    rw [pairOf, hk, hdomain v hv, hvalue]
    split_ifs with hmatch
    · simp [hmatch]
    · simp [hmatch]
  · rw [if_neg hterm]
    refine (count_eq_zero_of_not_mem (fun hmem => hterm ?_)).symm
    unfold pairsOf at hmem
    split_ifs at hmem
    · cases hmem
    · obtain ⟨v, hv, hpair⟩ := mem_filterMap.mp hmem
      obtain ⟨hk, -, hvalue⟩ := pairOf_some hpair
      exact ⟨hk, (hdomain v hv).symm.trans hvalue⟩

theorem sum_discountOf (hnode : nodes.lookup node = some nodeLabels) (hon : ∀ v ∈ victims, v.nodeName = node)
    (hkey : pair.1 ≠ "") (terms : List PodAffinityTerm) :
    (terms.map (discountOf podNs nodeLabels victims pair)).sum = pairCount terms podNs victims nodes pair := by
  induction terms with
  | nil => rfl
  | cons term terms ih =>
    rw [map_cons, sum_cons, ih, pairCount_cons, discountOf_eq hnode hon hkey]

theorem lookup_discounted (hnode : nodes.lookup node = some nodeLabels)
    (hon : ∀ p ∈ tallied, gone p → p.nodeName = node) :
    (discountMatchedPairs terms podNs (topologyPairsMatchedByTerms terms podNs tallied nodes) nodeLabels
        (tallied.filter gone)).lookup pair =
      if pairCount terms podNs tallied nodes pair = 0 then none
      else some (pairCount terms podNs (tallied.filter (fun p => !gone p)) nodes pair : ℤ) := by
  rw [lookup_discountMatchedPairs, lookup_matched]
  split_ifs with hzero
  · rfl
  · have hkey : pair.1 ≠ "" := fun h => hzero (pairCount_of_key_empty h)
    have hon' : ∀ v ∈ tallied.filter gone, v.nodeName = node := by
      intro v hv
      obtain ⟨hv, hgone⟩ := mem_filter.mp hv
      exact hon v hv hgone
    rw [Option.map_some, sum_discountOf hnode hon' hkey, pairCount_split gone]
    congr 1
    push_cast
    ring

section Agreement

variable {pod : AffinePod} {nodeLabels : Labels} {m m' : PairCounts}

theorem entries_isEmpty_iff : m.entries.isEmpty ↔ ∀ pair, m.lookup pair = none := by
  rw [List.isEmpty_iff]
  constructor
  · intro h pair
    rw [AList.ext (t := ∅) h]
    exact AList.lookup_empty pair
  · intro h
    refine eq_nil_iff_forall_not_mem.mpr (fun e he => ?_)
    have hsome := AList.mem_lookup_iff.mpr he
    rw [h e.1] at hsome
    cases hsome

theorem all_nonpos_eq_not_hasMatch (m : PairCounts) (pair : String × String) :
    (m.lookup pair).all (fun n => n ≤ 0) = !hasMatch m pair := by
  unfold hasMatch
  cases m.lookup pair with
  | none => rfl
  | some n => simp [← decide_not]

theorem allTermsHaveAMatch_congr (h : ∀ pair, hasMatch m pair = hasMatch m' pair) (terms : List PodAffinityTerm) :
    allTermsHaveAMatch nodeLabels m terms = allTermsHaveAMatch nodeLabels m' terms := by
  induction terms with
  | nil => rfl
  | cons term terms ih => simp only [allTermsHaveAMatch, h, ih]

theorem allTermsHaveAMatch_eq_none :
    allTermsHaveAMatch nodeLabels m terms = none ↔
      ∃ term ∈ terms, nodeLabels.lookup term.topologyKey = none := by
  induction terms with
  | nil => simp [allTermsHaveAMatch]
  | cons term terms ih =>
    rw [exists_mem_cons_iff, allTermsHaveAMatch]
    cases hvalue : nodeLabels.lookup term.topologyKey with
    | none => simp
    | some value => simp [ih]

theorem allTermsHaveAMatch_of_no_match (hne : terms ≠ []) (h : ∀ pair, hasMatch m pair = false) :
    allTermsHaveAMatch nodeLabels m terms ≠ some true := by
  cases terms with
  | nil => exact absurd rfl hne
  | cons term terms =>
    rw [allTermsHaveAMatch]
    cases nodeLabels.lookup term.topologyKey with
    | none => simp
    | some value => simp [h]

def Counted (terms : List PodAffinityTerm) (podNs : String) (tallied : List TalliedPodLabels) (nodes : NodeLabels) :
    Prop :=
  ∃ term ∈ terms, pairsOf nodes podNs tallied term ≠ []

variable {terms : List PodAffinityTerm} {podNs : String} {tallied : List TalliedPodLabels} {nodes : NodeLabels}
  {node : String} {gone : TalliedPodLabels → Bool}

theorem counted_iff : Counted terms podNs tallied nodes ↔ ∃ pair, pairCount terms podNs tallied nodes pair ≠ 0 := by
  constructor
  · rintro ⟨term, hterm, hne⟩
    obtain ⟨pair, hpair⟩ := exists_mem_of_ne_nil _ hne
    exact ⟨pair, fun h => pairCount_eq_zero_iff.mp h term hterm hpair⟩
  · rintro ⟨pair, hpair⟩
    rw [Ne, pairCount_eq_zero_iff] at hpair
    push Not at hpair
    obtain ⟨term, hterm, hmem⟩ := hpair
    exact ⟨term, hterm, ne_nil_of_mem hmem⟩

theorem isEmpty_matched : (topologyPairsMatchedByTerms terms podNs tallied nodes).entries.isEmpty ↔
    ¬Counted terms podNs tallied nodes := by
  rw [entries_isEmpty_iff, counted_iff]
  push Not
  refine forall_congr' (fun pair => ?_)
  rw [lookup_matched]
  split_ifs with hzero <;> simp [hzero]

theorem hasMatch_matched (pair : String × String) :
    hasMatch (topologyPairsMatchedByTerms terms podNs tallied nodes) pair =
      decide (0 < pairCount terms podNs tallied nodes pair) := by
  rw [hasMatch, lookup_matched]
  split_ifs with hzero <;> simp [hzero]

abbrev discounted (terms : List PodAffinityTerm) (podNs : String) (tallied : List TalliedPodLabels)
    (nodes : NodeLabels) (nodeLabels : Labels) (gone : TalliedPodLabels → Bool) : PairCounts :=
  discountMatchedPairs terms podNs (topologyPairsMatchedByTerms terms podNs tallied nodes) nodeLabels
    (tallied.filter gone)

abbrev rebuilt (terms : List PodAffinityTerm) (podNs : String) (tallied : List TalliedPodLabels)
    (nodes : NodeLabels) (gone : TalliedPodLabels → Bool) : PairCounts :=
  topologyPairsMatchedByTerms terms podNs (tallied.filter (fun p => !gone p)) nodes

variable (hnode : nodes.lookup node = some nodeLabels) (hon : ∀ p ∈ tallied, gone p = true → p.nodeName = node)
include hnode hon

theorem isEmpty_discounted : (discounted terms podNs tallied nodes nodeLabels gone).entries.isEmpty ↔
    ¬Counted terms podNs tallied nodes := by
  rw [entries_isEmpty_iff, counted_iff]
  push Not
  refine forall_congr' (fun pair => ?_)
  rw [lookup_discounted hnode hon]
  split_ifs with hzero <;> simp [hzero]

theorem hasMatch_discounted (pair : String × String) :
    hasMatch (discounted terms podNs tallied nodes nodeLabels gone) pair =
      hasMatch (rebuilt terms podNs tallied nodes gone) pair := by
  have hsplit : pairCount terms podNs tallied nodes pair =
      pairCount terms podNs (tallied.filter gone) nodes pair +
        pairCount terms podNs (tallied.filter (fun p => !gone p)) nodes pair := pairCount_split gone
  rw [hasMatch_matched, hasMatch, lookup_discounted hnode hon]
  split_ifs with hzero
  · have hrest : pairCount terms podNs (tallied.filter (fun p => !gone p)) nodes pair = 0 := by omega
    simp [hrest]
  · simp

theorem podAntiAffinitySatisfied_discounted :
    podAntiAffinitySatisfied pod nodeLabels (discounted pod.podAntiAffinityTerms podNs tallied nodes nodeLabels gone) =
      podAntiAffinitySatisfied pod nodeLabels (rebuilt pod.podAntiAffinityTerms podNs tallied nodes gone) := by
  unfold podAntiAffinitySatisfied
  simp only [all_nonpos_eq_not_hasMatch, hasMatch_discounted hnode hon]

def LostBootstrap (pod : AffinePod) (tallied : List TalliedPodLabels) (nodes : NodeLabels)
    (gone : TalliedPodLabels → Bool) : Prop :=
  Counted pod.podAffinityTerms pod.ns tallied nodes ∧
    ¬Counted pod.podAffinityTerms pod.ns (tallied.filter (fun p => !gone p)) nodes

theorem podAffinitySatisfied_discounted (h : ¬LostBootstrap pod tallied nodes gone) :
    podAffinitySatisfied pod nodeLabels (discounted pod.podAffinityTerms pod.ns tallied nodes nodeLabels gone) =
      podAffinitySatisfied pod nodeLabels (rebuilt pod.podAffinityTerms pod.ns tallied nodes gone) := by
  have hempty : (discounted pod.podAffinityTerms pod.ns tallied nodes nodeLabels gone).entries.isEmpty =
      (rebuilt pod.podAffinityTerms pod.ns tallied nodes gone).entries.isEmpty := by
    rw [Bool.eq_iff_iff, isEmpty_discounted hnode hon, isEmpty_matched, not_iff_not]
    constructor
    · intro hall
      by_contra hrest
      exact h ⟨hall, hrest⟩
    · intro hrest
      obtain ⟨pair, hpair⟩ := counted_iff.mp hrest
      refine counted_iff.mpr ⟨pair, ?_⟩
      rw [pairCount_split gone]
      omega
  unfold podAffinitySatisfied
  rw [allTermsHaveAMatch_congr (hasMatch_discounted hnode hon), hempty]

theorem podAffinitySatisfied_of_lostBootstrap (h : LostBootstrap pod tallied nodes gone) :
    podAffinitySatisfied pod nodeLabels (discounted pod.podAffinityTerms pod.ns tallied nodes nodeLabels gone) =
        false ∧
      (podAffinitySatisfied pod nodeLabels (rebuilt pod.podAffinityTerms pod.ns tallied nodes gone) ↔
        (∀ term ∈ pod.podAffinityTerms, nodeLabels.lookup term.topologyKey ≠ none) ∧
          ∀ term ∈ pod.podAffinityTerms, podMatchesAffinityTerm term pod.ns pod.ns pod.labels) := by
  obtain ⟨hall, hrest⟩ := h
  have hne : pod.podAffinityTerms ≠ [] := by
    obtain ⟨term, hterm, -⟩ := hall
    exact ne_nil_of_mem hterm
  have hno : ∀ pair, hasMatch (rebuilt pod.podAffinityTerms pod.ns tallied nodes gone) pair = false := by
    intro pair
    rw [hasMatch_matched, decide_eq_false_iff_not]
    intro hpos
    exact hrest (counted_iff.mpr ⟨pair, by omega⟩)
  have hempty := isEmpty_matched.mpr hrest
  have hfull : (discounted pod.podAffinityTerms pod.ns tallied nodes nodeLabels gone).entries.isEmpty = false := by
    rw [Bool.eq_false_iff, Ne, isEmpty_discounted hnode hon, not_not]
    exact hall
  unfold podAffinitySatisfied
  rw [allTermsHaveAMatch_congr (hasMatch_discounted hnode hon), hfull, hempty]
  cases hterms : allTermsHaveAMatch nodeLabels (rebuilt pod.podAffinityTerms pod.ns tallied nodes gone)
      pod.podAffinityTerms with
  | none =>
    obtain ⟨term, hterm, hmissing⟩ := allTermsHaveAMatch_eq_none.mp hterms
    refine ⟨rfl, fun h => absurd h Bool.false_ne_true, fun h => absurd hmissing (h.1 term hterm)⟩
  | some b =>
    have hkeys : ∀ term ∈ pod.podAffinityTerms, nodeLabels.lookup term.topologyKey ≠ none := by
      intro term hterm hmissing
      rw [allTermsHaveAMatch_eq_none.mpr ⟨term, hterm, hmissing⟩] at hterms
      cases hterms
    cases b with
    | true => exact absurd hterms (allTermsHaveAMatch_of_no_match hne hno)
    | false =>
      refine ⟨rfl, ?_⟩
      simp only [Bool.true_and, all_eq_true]
      exact (and_iff_right hkeys).symm

end Agreement

section Main

variable {pod : AffinePod} {nodeLabels : Labels} {tallied : List TalliedPodLabels} {nodes : NodeLabels}
  {node : String} {gone : TalliedPodLabels → Bool}

namespace InterPodAffinityContext

theorem nodeQualifiesExcludingVictims_build :
    (build pod tallied nodes).nodeQualifiesExcludingVictims nodeLabels (tallied.filter gone) =
      (podAffinitySatisfied pod nodeLabels (discounted pod.podAffinityTerms pod.ns tallied nodes nodeLabels gone) &&
        podAntiAffinitySatisfied pod nodeLabels
          (discounted pod.podAntiAffinityTerms pod.ns tallied nodes nodeLabels gone)) := by
  have hnil : ∀ (terms : List PodAffinityTerm) m, discountMatchedPairs terms pod.ns m nodeLabels [] = m := by
    intro terms m
    induction terms with
    | nil => rfl
    | cons term terms ih =>
      rw [discountMatchedPairs, foldl_cons]
      have hterm : discountTerm pod.ns nodeLabels [] m term = m := by
        unfold discountTerm
        cases nodeLabels.lookup term.topologyKey <;> rfl
      rw [hterm]
      exact ih
  unfold nodeQualifiesExcludingVictims discounted
  split_ifs with hnone
  · rw [hnone, hnil, hnil]
    rfl
  · rfl

theorem nodeQualifies_build : (build pod (tallied.filter (fun p => !gone p)) nodes).nodeQualifies nodeLabels =
    (podAffinitySatisfied pod nodeLabels (rebuilt pod.podAffinityTerms pod.ns tallied nodes gone) &&
      podAntiAffinitySatisfied pod nodeLabels (rebuilt pod.podAntiAffinityTerms pod.ns tallied nodes gone)) := rfl

/-- Taking the victims out of the counts answers as counting the others anew, unless they were all that counted for
the pod's affinity. -/
theorem discounting_victims_iff (hnode : nodes.lookup node = some nodeLabels)
    (hon : ∀ p ∈ tallied, gone p = true → p.nodeName = node) :
    (build pod tallied nodes).nodeQualifiesExcludingVictims nodeLabels (tallied.filter gone) =
        (build pod (tallied.filter (fun p => !gone p)) nodes).nodeQualifies nodeLabels ↔
      ¬(LostBootstrap pod tallied nodes gone ∧
        (∀ term ∈ pod.podAffinityTerms, nodeLabels.lookup term.topologyKey ≠ none) ∧
        (∀ term ∈ pod.podAffinityTerms, podMatchesAffinityTerm term pod.ns pod.ns pod.labels = true) ∧
        podAntiAffinitySatisfied pod nodeLabels
          (topologyPairsMatchedByTerms pod.podAntiAffinityTerms pod.ns (tallied.filter (fun p => !gone p)) nodes) =
          true) := by
  rw [nodeQualifiesExcludingVictims_build, nodeQualifies_build, podAntiAffinitySatisfied_discounted hnode hon]
  by_cases hlost : LostBootstrap pod tallied nodes gone
  · obtain ⟨hdiscounted, hrebuilt⟩ := podAffinitySatisfied_of_lostBootstrap hnode hon hlost
    rw [hdiscounted, Bool.false_and, eq_comm, Bool.and_eq_false_iff, ← not_iff_not, not_not]
    simp only [not_or, Bool.not_eq_false, hrebuilt, hlost, true_and, and_assoc]
  · rw [podAffinitySatisfied_discounted hnode hon hlost]
    simp [hlost]

def zoneNodes : NodeLabels := AList.insert "n1" [("zone", "a")] (AList.insert "n2" [("zone", "a")] ∅)

def replica : AffinePod where
  ns := "default"
  labels := [("app", "web")]
  podAffinityTerms := [⟨some ⟨[("app", "web")], []⟩, [], "zone"⟩]
  podAntiAffinityTerms := []

def elder : TalliedPodLabels := ⟨⟨"default", "web-0"⟩, "n1", [("app", "web")]⟩

def neighbour : TalliedPodLabels := ⟨⟨"default", "web-1"⟩, "n2", [("app", "web")]⟩

theorem bootstrap_lost_by_discount :
    (build replica [elder] zoneNodes).nodeQualifiesExcludingVictims [("zone", "a")] [elder] = false ∧
      (build replica [] zoneNodes).nodeQualifies [("zone", "a")] = true := by
  decide +kernel

theorem discounting_victims_neighbour :
    (build replica [elder, neighbour] zoneNodes).nodeQualifiesExcludingVictims [("zone", "a")]
        ([elder, neighbour].filter (fun p => p.nodeName = "n1")) =
      (build replica ([elder, neighbour].filter (fun p => !decide (p.nodeName = "n1"))) zoneNodes).nodeQualifies
        [("zone", "a")] := by
  refine (discounting_victims_iff (show zoneNodes.lookup "n1" = some [("zone", "a")] by decide +kernel)
    (fun p _ h => of_decide_eq_true h)).mpr ?_
  rintro ⟨⟨-, hrest⟩, -⟩
  exact hrest ⟨_, mem_cons_self, by decide +kernel⟩

end InterPodAffinityContext

end Main

end U7s.Scheduler
