import U7s.Rbac.Authorize

namespace U7s.Rbac

/-- A caller who holds the text `"*/"` passes the probe for the resource `"*"`, if no resource name is asked for. -/
def widen (rule : PolicyRule) : PolicyRule :=
  if rule.resourceNames = [] then
    { rule with resources := rule.resources.map (fun r => if r = "*/" then "*" else r) }
  else rule

theorem ruleCovers_iff {q : ResourceRequest} :
    ruleCovers rule (q.by u) ↔
      (∃ g ∈ rule.apiGroups, g = "*" ∨ g = q.apiGroup) ∧ (∃ v ∈ rule.verbs, v = "*" ∨ v = q.verb) ∧
      (∃ r ∈ rule.resources, resourceTextMatches q.resource q.subresource r) ∧
      (rule.resourceNames = [] ∨ ∃ n, q.name = some n ∧ n ∈ rule.resourceNames) := by
  simp only [ruleCovers, resourceMatches, Bool.and_eq_true, Bool.or_eq_true, List.any_eq_true,
    Option.any_eq_true, decide_eq_true_eq, and_assoc, List.isEmpty_iff, exists_eq_right]
  rfl

theorem star_matches (a b : String) : resourceTextMatches a b "*" := rfl

theorem slash_matches (h : '/' ∉ r.toList) : resourceTextMatches r "" (r ++ "/") := by
  have hs : Text.splitOnce '/' (r ++ "/") = some (r, "") := by
    have hall : ∀ c ∈ r.toList, decide (c ≠ '/') := by
      intro c hc
      simpa using fun he : c = '/' => h (he ▸ hc)
    have ht : List.takeWhile (fun c => decide (c ≠ '/')) (r.toList ++ ['/']) = r.toList := by
      rw [List.takeWhile_append_of_pos hall]
      simp
    have hd : List.dropWhile (fun c => decide (c ≠ '/')) (r.toList ++ ['/']) = ['/'] := by
      rw [List.dropWhile_append_of_pos hall]
      simp
    have hl : (r ++ "/").toList = r.toList ++ ['/'] := by simp
    rw [Text.splitOnce, hl, ht, hd]
    simp
  simp [resourceTextMatches, hs]

theorem plain_matches (h : '/' ∉ r.toList) : resourceTextMatches a b r ↔ r = "*" ∨ (b = "" ∧ r = a) := by
  have hs : Text.splitOnce '/' r = none := by simp [Text.splitOnce, h]
  have hp : Text.stripPrefix "*/" r = none := by
    rw [Text.stripPrefix, if_neg]
    rw [Text.startsWith_iff]
    intro hp
    exact h (hp.subset (by decide))
  simp [resourceTextMatches, hs, hp]

theorem probe_text (h : resourceTextMatches r "" t) :
    t = "*" ∨ ('/' ∉ r.toList ∧ (t = r ∨ t = r ++ "/")) := by
  simp only [resourceTextMatches, Bool.or_eq_true, Bool.and_eq_true, decide_eq_true_eq, ne_eq,
    not_true_eq_false, false_and, or_false] at h
  rcases h with h | h
  · exact .inl h
  · right
    cases hs : Text.splitOnce '/' t with
    | none =>
      simp only [hs, Bool.and_eq_true, decide_eq_true_eq, true_and] at h
      subst h
      exact ⟨Text.splitOnce_none hs, .inl rfl⟩
    | some p =>
      obtain ⟨res, sub⟩ := p
      simp only [hs, Bool.and_eq_true, decide_eq_true_eq] at h
      obtain ⟨rfl, rfl⟩ := h
      obtain ⟨ht, hres⟩ := Text.splitOnce_some hs
      refine ⟨hres, .inr ?_⟩
      rw [← String.toList_inj, ht]
      simp

theorem probe_text_iff :
    resourceTextMatches r "" t ↔ t = "*" ∨ ('/' ∉ r.toList ∧ (t = r ∨ t = r ++ "/")) := by
  refine ⟨probe_text, ?_⟩
  rintro (rfl | ⟨hr, rfl | rfl⟩)
  · exact star_matches r ""
  · exact (plain_matches hr).mpr (.inr ⟨rfl, rfl⟩)
  · exact slash_matches hr

theorem probe_text_covers (hp : resourceTextMatches r "" t)
    (hr : resourceTextMatches a b r ∨ r = "*/") :
    resourceTextMatches a b (if t = "*/" then "*" else t) := by
  rcases probe_text hp with rfl | ⟨hslash, ht⟩
  · exact star_matches a b
  · have hne : r ≠ "*/" := by
      rintro rfl
      exact hslash (by decide)
    have hr : resourceTextMatches a b r := hr.resolve_right hne
    rcases (plain_matches hslash).mp hr with rfl | ⟨rfl, rfl⟩
    · rcases ht with rfl | rfl <;> exact star_matches a b
    · by_cases hstar : t = "*/"
      · rw [if_pos hstar]
        exact star_matches _ _
      · rw [if_neg hstar]
        rcases ht with rfl | rfl
        · exact (plain_matches hslash).mpr (.inr ⟨rfl, rfl⟩)
        · exact slash_matches hslash

theorem ruleCovers_widen {q : ResourceRequest} (h : ruleCovers rule (q.by u)) : ruleCovers (widen rule) (q.by u) := by
  unfold widen
  split_ifs with hn
  · rw [ruleCovers_iff] at h ⊢
    obtain ⟨hg, hv, ⟨r, hr, hm⟩, hname⟩ := h
    refine ⟨hg, hv, ⟨_, List.mem_map_of_mem hr, ?_⟩, hname⟩
    split_ifs with hs
    · exact star_matches _ _
    · exact hm
  · exact h

theorem holdsRule_covers {inner : RbacInner}
    {q : ResourceRequest} (hh : holdsRule u ns inner rule) (hq : ruleCovers (widen rule) (q.by u)) :
    ∃ rule' ∈ boundRules inner u ns, ruleCovers (widen rule') (q.by u) := by
  have hq : (∃ g ∈ rule.apiGroups, g = "*" ∨ g = q.apiGroup) ∧
      (∃ v ∈ rule.verbs, v = "*" ∨ v = q.verb) ∧
      ∃ r ∈ rule.resources, resourceTextMatches q.resource q.subresource r ∨ r = "*/" := by
    unfold widen at hq
    split_ifs at hq with hn
    · obtain ⟨hg, hv, ⟨r, hr, hm⟩, -⟩ := ruleCovers_iff.mp hq
      obtain ⟨r, hr', rfl⟩ := List.mem_map.mp hr
      refine ⟨hg, hv, r, hr', ?_⟩
      split_ifs at hm with hs
      · exact .inr hs
      · exact .inl hm
    · obtain ⟨hg, hv, ⟨r, hr, hm⟩, -⟩ := ruleCovers_iff.mp hq
      exact ⟨hg, hv, r, hr, .inl hm⟩
  obtain ⟨⟨g, hg, hg'⟩, ⟨v, hv, hv'⟩, r, hr, hr'⟩ := hq
  simp only [holdsRule, Bool.and_eq_true, List.all_eq_true] at hh
  obtain ⟨rule', hmem, hc⟩ := isAllowed_iff.mp (hh.1 g hg r hr v hv)
  refine ⟨rule', hmem, ?_⟩
  obtain ⟨⟨g', hg₁, hg₂⟩, ⟨v', hv₁, hv₂⟩, ⟨t, ht, hm⟩, hname⟩ := ruleCovers_iff.mp hc
  have hempty : rule'.resourceNames = [] := by simpa using hname
  rw [widen, if_pos hempty, ruleCovers_iff]
  refine ⟨⟨g', hg₁, ?_⟩, ⟨v', hv₁, ?_⟩, ⟨_, List.mem_map_of_mem ht, probe_text_covers hm hr'⟩,
    .inl hempty⟩
  · rcases hg₂ with h | rfl
    · exact .inl h
    · exact hg'
  · rcases hv₂ with h | rfl
    · exact .inl h
    · exact hv'

end U7s.Rbac
