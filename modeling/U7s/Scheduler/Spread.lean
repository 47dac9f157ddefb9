import U7s.Scheduler.Affinity

/-! Spread over topology domains. A node qualifies if a pod more in its domain is not too far above the least of the
counts. -/

namespace U7s.Scheduler

open List

open Tables (bump seed)

inductive UnsatisfiableAction where
  | doNotSchedule
  | other
deriving DecidableEq

structure TopologySpreadConstraint where
  maxSkew : ℤ
  topologyKey : String
  whenUnsatisfiable : UnsatisfiableAction
  labelSelector : Option LabelSelectorSpec

structure SpreadPod where
  ns : String
  labels : Labels
  topologySpreadConstraints : List TopologySpreadConstraint

def TopologySpreadConstraint.counts (c : TopologySpreadConstraint) (podNs : String) (p : TalliedPodLabels) : Bool :=
  p.key.ns = podNs && labelSelectorMatches p.labels c.labelSelector

def occupied (nodes : NodeLabels) (podNs : String) (c : TopologySpreadConstraint) (p : TalliedPodLabels) :
    Option String :=
  if c.counts podNs p then domainOf nodes p.nodeName c.topologyKey else none

def domains (nodes : NodeLabels) (key : String) : List String := nodes.entries.filterMap (fun e => e.2.lookup key)

def topologyDomainCounts (c : TopologySpreadConstraint) (podNs : String) (tallied : List TalliedPodLabels)
    (nodes : NodeLabels) : AList (fun _ : String => ℤ) :=
  (tallied.filterMap (occupied nodes podNs c)).foldl bump ((domains nodes c.topologyKey).foldl seed ∅)

structure TopologySpreadTerm where
  constraint : TopologySpreadConstraint
  counts : AList (fun _ : String => ℤ)
  minMatchNum : ℤ

structure TopologySpreadContext where
  pod : SpreadPod
  terms : List TopologySpreadTerm

namespace TopologySpreadContext

def buildTerm (podNs : String) (tallied : List TalliedPodLabels) (nodes : NodeLabels)
    (c : TopologySpreadConstraint) : TopologySpreadTerm :=
  let counts := topologyDomainCounts c podNs tallied nodes
  ⟨c, counts, (counts.entries.map (fun e => e.2)).min?.getD 0⟩

def build (pod : SpreadPod) (tallied : List TalliedPodLabels) (nodes : NodeLabels) : TopologySpreadContext :=
  ⟨pod, (pod.topologySpreadConstraints.filter (fun c =>
    c.whenUnsatisfiable = .doNotSchedule && c.topologyKey ≠ "")).map (buildTerm pod.ns tallied nodes)⟩

def termQualifies (pod : SpreadPod) (nodeLabels : Labels) (victims : List TalliedPodLabels)
    (term : TopologySpreadTerm) : Bool :=
  match nodeLabels.lookup term.constraint.topologyKey with
  | none => false
  | some value =>
    let discount : ℤ := victims.countP (term.constraint.counts pod.ns)
    let matchNum := (term.counts.lookup value).getD 0 - discount
    let selfMatchNum := if labelSelectorMatches pod.labels term.constraint.labelSelector then 1 else 0
    let minMatchNum :=
      if discount = 0 then term.minMatchNum
      else (term.counts.entries.map (fun e => if e.1 = value then e.2 - discount else e.2)).min?.getD term.minMatchNum
    matchNum + selfMatchNum - minMatchNum ≤ term.constraint.maxSkew

def nodeQualifiesExcludingVictims (ctx : TopologySpreadContext) (nodeLabels : Labels)
    (victims : List TalliedPodLabels) : Bool :=
  ctx.terms.all (termQualifies ctx.pod nodeLabels victims)

def nodeQualifies (ctx : TopologySpreadContext) (nodeLabels : Labels) : Bool :=
  ctx.nodeQualifiesExcludingVictims nodeLabels []

end TopologySpreadContext

section Counts

variable {c : TopologySpreadConstraint} {podNs : String} {tallied : List TalliedPodLabels} {nodes : NodeLabels}
  {value : String}

theorem mem_domains (hnode : nodes.lookup node = some labels) (hvalue : labels.lookup key = some value) :
    value ∈ domains nodes key :=
  mem_filterMap.mpr ⟨⟨node, labels⟩, AList.mem_lookup_iff.mp hnode, hvalue⟩

theorem occupied_mem_domains (h : value ∈ tallied.filterMap (occupied nodes podNs c)) :
    value ∈ domains nodes c.topologyKey := by
  obtain ⟨p, -, hp⟩ := mem_filterMap.mp h
  unfold occupied at hp
  split_ifs at hp
  obtain ⟨labels, hnode, hvalue⟩ := Option.bind_eq_some_iff.mp hp
  exact mem_domains hnode hvalue

theorem lookup_topologyDomainCounts : (topologyDomainCounts c podNs tallied nodes).lookup value =
    if value ∈ domains nodes c.topologyKey then
      some ((tallied.filterMap (occupied nodes podNs c)).count value : ℤ)
    else none := by
  rw [topologyDomainCounts, Tables.lookup_foldl_bump, Tables.lookup_foldl_seed]
  by_cases hmem : value ∈ tallied.filterMap (occupied nodes podNs c)
  · rw [if_pos hmem, if_pos (occupied_mem_domains hmem), if_pos (occupied_mem_domains hmem)]
    simp
  · rw [if_neg hmem, count_eq_zero_of_not_mem hmem]
    rfl

variable {node : String} {nodeLabels : Labels} {victims rest : List TalliedPodLabels}

theorem count_split (hsplit : tallied.Perm (victims ++ rest)) :
    (tallied.filterMap (occupied nodes podNs c)).count value =
      (victims.filterMap (occupied nodes podNs c)).count value +
        (rest.filterMap (occupied nodes podNs c)).count value := by
  have hperm := hsplit.filterMap (occupied nodes podNs c)
  rw [filterMap_append] at hperm
  rw [hperm.count_eq, count_append]

section Victims

variable (hnode : nodes.lookup node = some nodeLabels) (hon : ∀ p ∈ victims, p.nodeName = node)
  (hvalue : nodeLabels.lookup c.topologyKey = some value)
include hnode hon hvalue

theorem count_victims (v : String) : (victims.filterMap (occupied nodes podNs c)).count v =
    if v = value then victims.countP (c.counts podNs) else 0 := by
  have hdomain : ∀ p ∈ victims, occupied nodes podNs c p =
      if c.counts podNs p then some value else none := by
    intro p hp
    rw [occupied, domainOf, hon p hp, hnode, Option.bind_some, hvalue]
  rw [count_filterMap]
  split_ifs with hv
  · refine countP_congr (fun p hp => ?_)
    rw [hdomain p hp, hv]
    cases c.counts podNs p <;> simp
  · rw [countP_eq_zero]
    intro p hp
    rw [hdomain p hp]
    cases c.counts podNs p <;> simp [Ne.symm hv]

variable (hsplit : tallied.Perm (victims ++ rest))
include hsplit

theorem count_rest (v : String) :
    ((rest.filterMap (occupied nodes podNs c)).count v : ℤ) =
      if v = value then
        ((tallied.filterMap (occupied nodes podNs c)).count v : ℤ) -
          (victims.countP (c.counts podNs) : ℤ)
      else (tallied.filterMap (occupied nodes podNs c)).count v := by
  have hvictims : (victims.filterMap (occupied nodes podNs c)).count v = _ :=
    count_victims hnode hon hvalue v
  have hcount : (tallied.filterMap (occupied nodes podNs c)).count v = _ := count_split hsplit
  split_ifs at hvictims ⊢ <;> omega

theorem mem_counts_rest (x : ℤ) :
    x ∈ (topologyDomainCounts c podNs tallied nodes).entries.map (fun e =>
        if e.1 = value then e.2 - (victims.countP (c.counts podNs) : ℤ) else e.2) ↔
      x ∈ (topologyDomainCounts c podNs rest nodes).entries.map (fun e => e.2) := by
  have hentry (pods : List TalliedPodLabels) (v : String) (n : ℤ) :
      (⟨v, n⟩ : (_ : String) × ℤ) ∈ (topologyDomainCounts c podNs pods nodes).entries ↔
        v ∈ domains nodes c.topologyKey ∧ ((pods.filterMap (occupied nodes podNs c)).count v : ℤ) = n := by
    rw [← AList.mem_lookup_iff, lookup_topologyDomainCounts]
    split_ifs with hv <;> simp [hv]
  rw [mem_map, mem_map]
  constructor
  · rintro ⟨⟨v, n⟩, hmem, rfl⟩
    obtain ⟨hv, rfl⟩ := (hentry _ v n).mp hmem
    exact ⟨⟨v, _⟩, (hentry _ v _).mpr ⟨hv, rfl⟩, count_rest hnode hon hvalue hsplit v⟩
  · rintro ⟨⟨v, n⟩, hmem, rfl⟩
    obtain ⟨hv, rfl⟩ := (hentry _ v n).mp hmem
    exact ⟨⟨v, _⟩, (hentry _ v _).mpr ⟨hv, rfl⟩, (count_rest hnode hon hvalue hsplit v).symm⟩

end Victims

theorem min?_congr {l l' : List ℤ} (h : ∀ x, x ∈ l ↔ x ∈ l') : l.min? = l'.min? := by
  ext x
  rw [min?_eq_some_iff, min?_eq_some_iff]
  simp only [h]

end Counts

namespace TopologySpreadContext

variable {pod : SpreadPod} {c : TopologySpreadConstraint} {tallied : List TalliedPodLabels} {nodes : NodeLabels}
  {node : String} {nodeLabels : Labels} {victims rest : List TalliedPodLabels}

theorem termQualifies_rest (hnode : nodes.lookup node = some nodeLabels)
    (hon : ∀ p ∈ victims, p.nodeName = node) (hsplit : tallied.Perm (victims ++ rest)) :
    termQualifies pod nodeLabels victims (buildTerm pod.ns tallied nodes c) =
      termQualifies pod nodeLabels [] (buildTerm pod.ns rest nodes c) := by
  unfold termQualifies
  dsimp only [buildTerm]
  cases hvalue : nodeLabels.lookup c.topologyKey with
  | none => rfl
  | some value =>
    have hdomain := mem_domains hnode hvalue
    have hcount : ((rest.filterMap (occupied nodes pod.ns c)).count value : ℤ) = _ :=
      count_rest hnode hon hvalue hsplit value
    obtain ⟨x, hx⟩ : ∃ x, ((topologyDomainCounts c pod.ns rest nodes).entries.map
        (fun e => e.2)).min? = some x := by
      rw [← Option.isSome_iff_exists, Option.isSome_iff_ne_none, Ne, min?_eq_none_iff, map_eq_nil_iff]
      have hentry : (topologyDomainCounts c pod.ns rest nodes).lookup value = some _ :=
        lookup_topologyDomainCounts.trans (if_pos hdomain)
      exact ne_nil_of_mem (AList.mem_lookup_iff.mp hentry)
    have hmin := (min?_congr (mem_counts_rest hnode hon hvalue hsplit)).trans hx
    dsimp only
    rw [lookup_topologyDomainCounts, lookup_topologyDomainCounts, if_pos hdomain, if_pos hdomain]
    simp only [hcount, countP_nil, Nat.cast_zero, sub_zero, hx, hmin]
    by_cases hzero : (victims.countP (c.counts pod.ns) : ℤ) = 0
    · simp only [hzero, sub_zero, ite_self] at hmin
      rw [if_pos hzero, hmin]
      rfl
    · rw [if_neg hzero]
      rfl

theorem nodeQualifiesExcludingVictims_build (hnode : nodes.lookup node = some nodeLabels)
    (hon : ∀ p ∈ victims, p.nodeName = node) (hsplit : tallied.Perm (victims ++ rest)) :
    (build pod tallied nodes).nodeQualifiesExcludingVictims nodeLabels victims =
      (build pod rest nodes).nodeQualifies nodeLabels := by
  unfold nodeQualifies nodeQualifiesExcludingVictims build
  rw [all_map, all_map]
  refine all_congr rfl (fun c => ?_)
  exact termQualifies_rest hnode hon hsplit

end TopologySpreadContext

theorem discounting_spread_victims (pod : SpreadPod) (tallied victims rest : List TalliedPodLabels) (nodes : NodeLabels)
    (node : String) (labels : Labels) (hnode : ⟨node, labels⟩ ∈ nodes.entries)
    (hsplit : tallied.Perm (victims ++ rest)) (hon : ∀ v ∈ victims, v.nodeName = node) :
    (TopologySpreadContext.build pod tallied nodes).nodeQualifiesExcludingVictims labels victims =
      (TopologySpreadContext.build pod rest nodes).nodeQualifies labels :=
  TopologySpreadContext.nodeQualifiesExcludingVictims_build (AList.mem_lookup_iff.mpr hnode) hon hsplit

def spreadPod : SpreadPod where
  ns := "default"
  labels := [("app", "web")]
  topologySpreadConstraints := [⟨1, "zone", .doNotSchedule, some ⟨[("app", "web")], []⟩⟩]

def twoZones : NodeLabels := [⟨"node", [("zone", "a")]⟩, ⟨"other", [("zone", "b")]⟩].toAList

def webOn (name node : String) : TalliedPodLabels := ⟨⟨"default", name⟩, node, [("app", "web")]⟩

theorem discounting_spread_victims_two :
    (TopologySpreadContext.build spreadPod [webOn "a" "node", webOn "c" "other", webOn "d" "node", webOn "b" "node"]
        twoZones).nodeQualifiesExcludingVictims [("zone", "a")] [webOn "d" "node", webOn "b" "node"] =
      (TopologySpreadContext.build spreadPod [webOn "a" "node", webOn "c" "other"] twoZones).nodeQualifies
        [("zone", "a")] :=
  discounting_spread_victims spreadPod _ _ _ twoZones "node" _ mem_cons_self
    (@perm_append_comm _ [_, _] [_, _]) (by decide)

end U7s.Scheduler
