import U7s.Scheduler.Placement

namespace U7s.Scheduler

open List

section Terms

variable {terms : List PodAffinityTerm} {term : PodAffinityTerm} {podNs : String} {tallied : List TalliedPodLabels}
  {nodes : NodeLabels} {pair : String × String}

def MatchedAt (nodes : NodeLabels) (podNs : String) (tallied : List TalliedPodLabels) (node : String)
    (term : PodAffinityTerm) : Prop :=
  ∃ p ∈ tallied, podMatchesAffinityTerm term podNs p.key.ns p.labels = true ∧
    ∃ value, domainOf nodes p.nodeName term.topologyKey = some value ∧
      domainOf nodes node term.topologyKey = some value

theorem mem_pairsOf : pair ∈ pairsOf nodes podNs tallied term ↔
    term.topologyKey ≠ "" ∧ term.topologyKey = pair.1 ∧
      ∃ p ∈ tallied, podMatchesAffinityTerm term podNs p.key.ns p.labels ∧
        domainOf nodes p.nodeName term.topologyKey = some pair.2 := by
  unfold pairsOf
  split_ifs with hkey
  · simp [hkey]
  · rw [mem_filterMap]
    constructor
    · rintro ⟨p, hp, hpair⟩
      obtain ⟨hk, hmatch, hvalue⟩ := pairOf_some hpair
      exact ⟨hkey, hk, p, hp, hmatch, hk ▸ hvalue⟩
    · rintro ⟨-, hk, p, hp, hmatch, hvalue⟩
      refine ⟨p, hp, ?_⟩
      rw [pairOf, if_pos hmatch, hvalue, Option.map_some, hk]

variable {node : String} {nodeLabels : Labels} (hnode : nodes.lookup node = some nodeLabels)
include hnode

theorem mem_pairsOf_iff_matchedAt (hvalue : nodeLabels.lookup term.topologyKey = some value)
    (hkey : term.topologyKey ≠ "") :
    (term.topologyKey, value) ∈ pairsOf nodes podNs tallied term ↔ MatchedAt nodes podNs tallied node term := by
  have hdomain : domainOf nodes node term.topologyKey = some value := by
    rw [domainOf, hnode]
    exact hvalue
  rw [mem_pairsOf]
  constructor
  · rintro ⟨-, -, p, hp, hmatch, hp'⟩
    exact ⟨p, hp, hmatch, value, hp', hdomain⟩
  · rintro ⟨p, hp, hmatch, v, hp', hv⟩
    rw [hdomain] at hv
    exact ⟨hkey, rfl, p, hp, hmatch, hv ▸ hp'⟩

theorem hasMatch_iff_matchedAt (hvalue : nodeLabels.lookup key = some value) :
    hasMatch (topologyPairsMatchedByTerms terms podNs tallied nodes) (key, value) ↔
      key ≠ "" ∧ ∃ other ∈ terms, other.topologyKey = key ∧ MatchedAt nodes podNs tallied node other := by
  rw [hasMatch_matched, decide_eq_true_eq, pos_iff_ne_zero, Ne, pairCount_eq_zero_iff]
  push Not
  constructor
  · rintro ⟨other, hother, hmem⟩
    obtain ⟨hne, hk, -⟩ := mem_pairsOf.mp hmem
    subst hk
    exact ⟨hne, other, hother, rfl, (mem_pairsOf_iff_matchedAt hnode hvalue hne).mp hmem⟩
  · rintro ⟨hne, other, hother, rfl, hmatched⟩
    exact ⟨other, hother, (mem_pairsOf_iff_matchedAt hnode hvalue hne).mpr hmatched⟩

omit hnode in
theorem allTermsHaveAMatch_eq_true (h : allTermsHaveAMatch nodeLabels m terms = some true) :
    ∀ term ∈ terms, ∃ value, nodeLabels.lookup term.topologyKey = some value ∧
      hasMatch m (term.topologyKey, value) := by
  induction terms with
  | nil => simp
  | cons term terms ih =>
    rw [allTermsHaveAMatch] at h
    cases hvalue : nodeLabels.lookup term.topologyKey with
    | none =>
      rw [hvalue] at h
      cases h
    | some value =>
      rw [hvalue] at h
      obtain ⟨rest, hrest, hb⟩ := Option.map_eq_some_iff.mp h
      obtain ⟨hmatch, rfl⟩ := Bool.and_eq_true_iff.mp hb
      rw [forall_mem_cons]
      exact ⟨⟨value, hvalue, hmatch⟩, ih hrest⟩

theorem podAffinitySatisfied_matched (hcounted : Counted pod.podAffinityTerms pod.ns tallied nodes)
    (h : podAffinitySatisfied pod nodeLabels
      (topologyPairsMatchedByTerms pod.podAffinityTerms pod.ns tallied nodes)) :
    ∀ term ∈ pod.podAffinityTerms, ∃ other ∈ pod.podAffinityTerms,
      other.topologyKey = term.topologyKey ∧ MatchedAt nodes pod.ns tallied node other := by
  have hall : allTermsHaveAMatch nodeLabels
      (topologyPairsMatchedByTerms pod.podAffinityTerms pod.ns tallied nodes) pod.podAffinityTerms = some true := by
    unfold podAffinitySatisfied at h
    split at h
    · cases h
    · assumption
    · rw [Bool.and_eq_true, isEmpty_matched] at h
      exact absurd hcounted h.1
  intro term hterm
  obtain ⟨value, hvalue, hmatch⟩ := allTermsHaveAMatch_eq_true hall term hterm
  exact ((hasMatch_iff_matchedAt hnode hvalue).mp hmatch).2

theorem podAntiAffinitySatisfied_iff :
    podAntiAffinitySatisfied pod nodeLabels
        (topologyPairsMatchedByTerms pod.podAntiAffinityTerms pod.ns tallied nodes) ↔
      ∀ term ∈ pod.podAntiAffinityTerms, term.topologyKey ≠ "" → ¬MatchedAt nodes pod.ns tallied node term := by
  simp only [podAntiAffinitySatisfied, all_eq_true, Option.all_eq_true, all_nonpos_eq_not_hasMatch,
    Bool.not_eq_true', ← Bool.not_eq_true]
  constructor
  · rintro h term hterm hkey ⟨p, hp, hmatch, value, hp', hv⟩
    rw [domainOf, hnode, Option.bind_some] at hv
    refine h term hterm value hv ((hasMatch_iff_matchedAt hnode hv).mpr ⟨hkey, term, hterm, rfl, ?_⟩)
    exact ⟨p, hp, hmatch, value, hp', by rw [domainOf, hnode, Option.bind_some, hv]⟩
  · intro h term hterm value hvalue hmatch
    obtain ⟨hkey, other, hother, hk, hmatched⟩ := (hasMatch_iff_matchedAt hnode hvalue).mp hmatch
    exact h other hother (hk ▸ hkey) hmatched

end Terms

namespace Surroundings

variable (s : Surroundings) (t : NodeTally) (pod : PendingPod) (node : NodeItem)

def TermMatched (term : PodAffinityTerm) : Prop :=
  MatchedAt s.nodeLabelsByName pod.key.ns t.talliedPodLabels node.name term

/-- The terms of a placed pod are met one by one exactly if of its affinity terms with one key all or none are
matched in the domain, and no anti-affinity term without a key is matched. -/
theorem select_meets_terms_iff (hplaced : selectNodeWithCapacity s.filters s.nodes t pod = some node)
    (hcounted : Counted (s.constraintsOf pod).podAffinityTerms pod.key.ns t.talliedPodLabels s.nodeLabelsByName) :
    ((∀ term ∈ (s.constraintsOf pod).podAffinityTerms, s.TermMatched t pod node term) ∧
      ∀ term ∈ (s.constraintsOf pod).podAntiAffinityTerms, ¬s.TermMatched t pod node term) ↔
    (∀ term ∈ (s.constraintsOf pod).podAffinityTerms, ∀ other ∈ (s.constraintsOf pod).podAffinityTerms,
      other.topologyKey = term.topologyKey → s.TermMatched t pod node other → s.TermMatched t pod node term) ∧
      ∀ term ∈ (s.constraintsOf pod).podAntiAffinityTerms, term.topologyKey = "" →
        ¬s.TermMatched t pod node term := by
  obtain ⟨hnode, haccepts⟩ := mem_filter.mp (leastLoaded_mem hplaced)
  have hlabels := s.lookup_nodeLabelsByName hnode
  simp only [accepts, filters, Bool.and_eq_true] at haccepts
  obtain ⟨haffinity, hanti⟩ := Bool.and_eq_true_iff.mp haccepts.2.1.1
  have hmatched := podAffinitySatisfied_matched hlabels hcounted haffinity
  have hapart := (podAntiAffinitySatisfied_iff hlabels).mp hanti
  constructor
  · rintro ⟨hall, hnone⟩
    exact ⟨fun term hterm _ _ _ _ => hall term hterm, fun term hterm _ => hnone term hterm⟩
  · rintro ⟨hsame, hkeyless⟩
    constructor
    · intro term hterm
      obtain ⟨other, hother, hkey, hm⟩ := hmatched term hterm
      exact hsame term hterm other hother hkey hm
    · intro term hterm
      by_cases hkey : term.topologyKey = ""
      · exact hkeyless term hterm hkey
      · exact hapart term hterm hkey

end Surroundings

def zoned (apps : List String) : Surroundings where
  nodes := [exampleNode 10 0]
  names := oneNode.names
  details := fun _ => ⟨[("zone", "a")], [], false⟩
  constraintsOf := fun _ => ⟨[], [], none, apps.map (fun app => ⟨some ⟨[("app", app)], []⟩, [], "zone"⟩), [], [], [],
    ∅, []⟩
  caches := ⟨∅, ∅, ∅, ∅, ∅, ∅⟩

def webOnNode : NodeTally :=
  NodeTally.empty.assume ⟨⟨"default", "web"⟩, 0, [("app", "web")], {}, [], [], []⟩ "node"

theorem two_terms_one_match :
    selectNodeWithCapacity (zoned ["web", "db"]).filters (zoned ["web", "db"]).nodes webOnNode
        (webPod "client" 0 1 []) = some (exampleNode 10 0) ∧
    Counted ((zoned ["web", "db"]).constraintsOf (webPod "client" 0 1 [])).podAffinityTerms "default"
      webOnNode.talliedPodLabels (zoned ["web", "db"]).nodeLabelsByName ∧
    ¬(zoned ["web", "db"]).TermMatched webOnNode (webPod "client" 0 1 []) (exampleNode 10 0)
      ⟨some ⟨[("app", "db")], []⟩, [], "zone"⟩ := by
  refine ⟨rfl, ⟨_, mem_cons_self, by decide +kernel⟩, ?_⟩
  rintro ⟨p, hp, hmatch, -⟩
  obtain rfl : p = ⟨⟨"default", "web"⟩, "node", [("app", "web")]⟩ := mem_singleton.mp hp
  revert hmatch
  decide

def bothOnNode : NodeTally :=
  webOnNode.assume ⟨⟨"default", "db"⟩, 0, [("app", "db")], {}, [], [], []⟩ "node"

theorem select_meets_both_terms :
    (zoned ["web", "db"]).TermMatched bothOnNode (webPod "client" 0 1 []) (exampleNode 10 0)
        ⟨some ⟨[("app", "web")], []⟩, [], "zone"⟩ ∧
      (zoned ["web", "db"]).TermMatched bothOnNode (webPod "client" 0 1 []) (exampleNode 10 0)
        ⟨some ⟨[("app", "db")], []⟩, [], "zone"⟩ := by
  have hmet : ∀ term ∈ ((zoned ["web", "db"]).constraintsOf (webPod "client" 0 1 [])).podAffinityTerms,
      (zoned ["web", "db"]).TermMatched bothOnNode (webPod "client" 0 1 []) (exampleNode 10 0) term := by
    refine (((zoned ["web", "db"]).select_meets_terms_iff bothOnNode (webPod "client" 0 1 []) (exampleNode 10 0) rfl
      ⟨_, mem_cons_self, by decide +kernel⟩).mpr ⟨?_, ?_⟩).1
    · intro term hterm other _ _ _
      obtain rfl | hterm := mem_cons.mp hterm
      · exact ⟨_, mem_cons_of_mem _ mem_cons_self, by decide +kernel, "a", rfl, rfl⟩
      · rw [mem_singleton.mp hterm]
        exact ⟨_, mem_cons_self, by decide +kernel, "a", rfl, rfl⟩
    · intro term hterm
      cases hterm
  exact ⟨hmet _ mem_cons_self, hmet _ (mem_cons_of_mem _ mem_cons_self)⟩

end U7s.Scheduler
