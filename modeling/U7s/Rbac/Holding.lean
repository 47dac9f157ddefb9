import U7s.Rbac.NoEscalation

namespace U7s.Rbac

open List

def enumerateRules (inner : RbacInner) (u : UserInfo) (ns : String) : List PolicyRule :=
  (inner.clusterBindings.filter (fun e => subjectMatches e.2 u.username u.groups)).flatMap
    (fun e => resolveClusterRoleRules inner e.2.roleRef) ++
  (inner.namespaceBindings.filter (fun e =>
    e.2.ns.getD "" = ns && subjectMatches e.2 u.username u.groups)).flatMap
      (fun e => resolveRoleRules inner e.2.roleRef ns)

theorem enumerateRules_eq (inner : RbacInner) (u : UserInfo) (ns : String) :
    enumerateRules inner u ns = boundRules inner u (some ns) := by
  simp [enumerateRules, boundRules]

/-- Some rule that names no objects grants the verb on `"*"` or the text asked for. A text with a slash is granted
by `"*"` alone. -/
def GrantsText (rules : List PolicyRule) (g r v : String) : Prop :=
  ∃ rule ∈ rules, rule.resourceNames = [] ∧ (∃ g' ∈ rule.apiGroups, g' = "*" ∨ g' = g) ∧
    (∃ v' ∈ rule.verbs, v' = "*" ∨ v' = v) ∧
    ∃ t ∈ rule.resources, t = "*" ∨ ('/' ∉ r.toList ∧ (t = r ∨ t = r ++ "/"))

def GrantsUrl (rules : List PolicyRule) (v url : String) : Prop :=
  ∃ rule ∈ rules, (∃ v' ∈ rule.verbs, v' = "*" ∨ v' = v) ∧
    ∃ p ∈ rule.nonResourceUrls, nonResourceUrlMatches p url = true

theorem probe_iff {inner : RbacInner} :
    isAllowed inner ((⟨v, g, r, "", ns, none⟩ : ResourceRequest).by u) ↔
      GrantsText (boundRules inner u ns) g r v := by
  rw [isAllowed_iff]
  apply exists_congr
  intro rule
  apply and_congr_right
  intro _
  rw [ruleCovers_iff]
  simp only [probe_text_iff, reduceCtorEq, false_and, exists_false, or_false]
  constructor
  · rintro ⟨hg, hv, hr, hn⟩
    exact ⟨hn, hg, hv, hr⟩
  · rintro ⟨hn, hg, hv, hr⟩
    exact ⟨hg, hv, hr, hn⟩

theorem holdsRule_iff {inner : RbacInner} :
    holdsRule u ns inner rule ↔
      (∀ g ∈ rule.apiGroups, ∀ r ∈ rule.resources, ∀ v ∈ rule.verbs,
        GrantsText (boundRules inner u ns) g r v) ∧
      ∀ url ∈ rule.nonResourceUrls, ∀ v ∈ rule.verbs, GrantsUrl (boundRules inner u none) v url := by
  simp only [holdsRule, Bool.and_eq_true, all_eq_true, probe_iff, isAllowed_nonResource_iff,
    GrantsUrl]

theorem nonResourceUrlMatches_iff :
    nonResourceUrlMatches p url ↔
      p = url ∧ p.toList.getLast? ≠ some '*' ∨ ∃ s, p = s ++ "*" ∧ s.toList <+: url.toList := by
  by_cases hp : p.toList.getLast? = some '*'
  · obtain ⟨cs, hcs⟩ := getLast?_eq_some_iff.mp hp
    obtain ⟨s, rfl⟩ : ∃ s, p = s ++ "*" := ⟨String.ofList cs, by rw [← String.toList_inj, hcs]; simp⟩
    have hs : Text.stripSuffix '*' (s ++ "*") = some s := Text.stripSuffix_append '*' s
    simp only [nonResourceUrlMatches, hs, Text.startsWith_iff, Bool.or_eq_true, decide_eq_true_eq]
    constructor
    · rintro (he | h)
      · refine .inr ⟨s, rfl, ?_⟩
        have hnil : s.toList = [] := by simpa using congrArg String.toList he
        rw [hnil]
        exact nil_prefix
      · exact .inr ⟨s, rfl, h⟩
    · rintro (⟨-, hl⟩ | ⟨s', he, h⟩)
      · exact absurd hp hl
      · obtain rfl : s = s' := String.toList_inj.mp (by simpa using congrArg String.toList he)
        exact .inr h
  · have hs : Text.stripSuffix '*' p = none := by rw [Text.stripSuffix, if_neg hp]
    simp only [nonResourceUrlMatches, hs, Bool.or_eq_true, decide_eq_true_eq]
    constructor
    · rintro (rfl | h)
      · exact absurd rfl hp
      · exact .inl ⟨h, hp⟩
    · rintro (⟨h, -⟩ | ⟨s, rfl, -⟩)
      · exact .inr h
      · simp at hp

theorem pattern_matches_itself (p : String) : nonResourceUrlMatches p p := by
  rw [nonResourceUrlMatches_iff]
  by_cases hp : p.toList.getLast? = some '*'
  · obtain ⟨cs, hcs⟩ := getLast?_eq_some_iff.mp hp
    refine .inr ⟨String.ofList cs, ?_, ?_⟩
    · rw [← String.toList_inj, hcs]
      simp
    · rw [hcs]
      simp
  · exact .inl ⟨rfl, hp⟩

def GrantsUnnamed (rules : List PolicyRule) (g v : String) (texts : List String) : Prop :=
  ∃ rule ∈ rules, rule.resourceNames = [] ∧ (∃ g' ∈ rule.apiGroups, g' = "*" ∨ g' = g) ∧
    (∃ v' ∈ rule.verbs, v' = "*" ∨ v' = v) ∧ ∃ t ∈ texts, t ∈ rule.resources

/-- What a rule that is held does not grant by itself: its texts with a slash, and all its texts if it names objects. -/
def TextsGranted (held : List PolicyRule) (rule : PolicyRule) : Prop :=
  ∀ g ∈ rule.apiGroups, ∀ v ∈ rule.verbs, ∀ r ∈ rule.resources,
    ('/' ∈ r.toList → GrantsUnnamed held g v ["*"]) ∧
    ('/' ∉ r.toList → rule.resourceNames ≠ [] → GrantsUnnamed held g v ["*", r, r ++ "/"])

theorem grantsText_iff : GrantsText rules g r v ↔
    GrantsUnnamed rules g v (if '/' ∈ r.toList then ["*"] else ["*", r, r ++ "/"]) := by
  unfold GrantsText GrantsUnnamed
  split_ifs with hslash
  · simp [hslash]
  · simp [hslash, and_or_left, or_and_right, exists_or]

theorem textsGranted_iff (hheld : rule ∈ held) :
    (∀ g ∈ rule.apiGroups, ∀ r ∈ rule.resources, ∀ v ∈ rule.verbs, GrantsText held g r v) ↔ TextsGranted held rule := by
  simp only [grantsText_iff]
  constructor
  · intro h g hg v hv r hr
    have hgrants := h g hg r hr v hv
    exact ⟨fun hslash => by rwa [if_pos hslash] at hgrants, fun hslash _ => by rwa [if_neg hslash] at hgrants⟩
  · intro h g hg r hr v hv
    obtain ⟨hslashed, hnamed⟩ := h g hg v hv r hr
    split_ifs with hslash
    · exact hslashed hslash
    · by_cases hnames : rule.resourceNames = []
      · -- a plain text of a rule without names is granted by that rule
        exact ⟨rule, hheld, hnames, ⟨g, hg, .inr rfl⟩, ⟨v, hv, .inr rfl⟩, r, by simp, hr⟩
      · exact hnamed hslash hnames

/-- The rules a caller has pass the check exactly if the texts that such a rule does not grant by itself are granted,
and, in a namespace, the URLs of a rule that is not bound cluster-wide are granted by one that is. -/
theorem holds_held_rules_iff (inner : RbacInner) (u : UserInfo) (ns : String) (rules : List PolicyRule) :
    (rules ⊆ boundRules inner u none →
      (userHoldsAllRules u rules inner = true ↔ ∀ rule ∈ rules, TextsGranted (boundRules inner u none) rule)) ∧
    (rules ⊆ enumerateRules inner u ns →
      (userHoldsAllRulesInNamespace u rules ns inner = true ↔
        ∀ rule ∈ rules, TextsGranted (enumerateRules inner u ns) rule ∧
          (rule ∉ boundRules inner u none → ∀ url ∈ rule.nonResourceUrls, ∀ v ∈ rule.verbs,
            GrantsUrl (boundRules inner u none) v url))) := by
  -- a rule bound cluster-wide passes the probes for its own URLs
  have hurls : ∀ rule ∈ boundRules inner u none, ∀ url ∈ rule.nonResourceUrls, ∀ v ∈ rule.verbs,
      GrantsUrl (boundRules inner u none) v url := fun rule hrule url hurl v hv =>
    ⟨rule, hrule, ⟨v, hv, .inr rfl⟩, url, hurl, pattern_matches_itself url⟩
  constructor
  · intro hheld
    rw [userHoldsAllRules, all_eq_true]
    apply forall₂_congr
    intro rule hr
    rw [holdsRule_iff, textsGranted_iff (hheld hr)]
    exact and_iff_left (hurls rule (hheld hr))
  · intro hheld
    rw [userHoldsAllRulesInNamespace, all_eq_true]
    apply forall₂_congr
    intro rule hr
    rw [holdsRule_iff, ← enumerateRules_eq, textsGranted_iff (hheld hr)]
    apply and_congr_right
    intro _
    exact ⟨fun h _ => h, fun h => (em (rule ∈ boundRules inner u none)).elim (hurls rule) h⟩

theorem podsLog_holder_refused :
    [⟨[""], ["pods/log"], ["get"], [], []⟩] ⊆ boundRules (aliceBound "" "pods/log" "get").inner alice none ∧
    userHoldsAllRules alice [⟨[""], ["pods/log"], ["get"], [], []⟩]
      (aliceBound "" "pods/log" "get").inner = false ∧
    [⟨[""], ["pods/log"], ["get"], [], []⟩] ⊆
      enumerateRules (aliceBound "" "pods/log" "get").inner alice "default" ∧
    userHoldsAllRulesInNamespace alice [⟨[""], ["pods/log"], ["get"], [], []⟩] "default"
      (aliceBound "" "pods/log" "get").inner = false := by
  decide +kernel

def namedPods : List PolicyRule :=
  [⟨[""], ["pods", "pods/log"], ["get"], ["web"], []⟩, ⟨[""], ["*"], ["get"], [], []⟩]

def aliceNamed : RbacInner := { (aliceBound "" "*" "get").inner with clusterRoles := AList.singleton "a" namedPods }

theorem namedPods_holder_accepted :
    userHoldsAllRules alice namedPods aliceNamed = true ∧
    userHoldsAllRulesInNamespace alice namedPods "default" aliceNamed = true := by
  have h := holds_held_rules_iff aliceNamed alice "default" namedPods
  have hcluster : boundRules aliceNamed alice none = namedPods := rfl
  have hns : enumerateRules aliceNamed alice "default" = namedPods := rfl
  rw [hcluster, hns] at h
  have hgranted : ∀ rule ∈ namedPods, TextsGranted namedPods rule := by
    intro rule hr g hg v hv r _
    obtain ⟨rfl, rfl⟩ : g = "" ∧ v = "get" := by
      obtain rfl | rfl : rule = _ ∨ rule = _ := by simpa [namedPods] using hr
      · exact ⟨mem_singleton.mp hg, mem_singleton.mp hv⟩
      · exact ⟨mem_singleton.mp hg, mem_singleton.mp hv⟩
    have hall : ∀ texts, GrantsUnnamed namedPods "" "get" ("*" :: texts) := fun texts =>
      ⟨⟨[""], ["*"], ["get"], [], []⟩, by decide, rfl, ⟨"", by decide⟩, ⟨"get", by decide⟩, "*", by simp⟩
    exact ⟨fun _ => hall _, fun _ _ => hall _⟩
  exact ⟨(h.1 (Subset.refl _)).mpr hgranted,
    (h.2 (Subset.refl _)).mpr (fun rule hr => ⟨hgranted rule hr, fun hnot => absurd hr hnot⟩)⟩

theorem star_text_cases (h : nonResourceUrlMatches p (s ++ "*")) :
    (∀ url, s.toList <+: url.toList → nonResourceUrlMatches p url) ∨ p = s ++ "**" := by
  rcases nonResourceUrlMatches_iff.mp h with ⟨rfl, hp⟩ | ⟨t, rfl, ht⟩
  · simp at hp
  · have ht' : t.toList <+: s.toList ++ ['*'] := by simpa using ht
    rcases prefix_concat_iff.mp ht' with he | ht'
    · right
      rw [← String.toList_inj]
      simp [he]
    · left
      intro url hurl
      exact nonResourceUrlMatches_iff.mpr (.inr ⟨t, rfl, ht'.trans hurl⟩)

theorem grantsUrl_of_star (hv : v = "*" ∨ v = w) (h : GrantsUrl rules v (s ++ "*"))
    (hstars : ∀ rule ∈ rules, s ++ "**" ∈ rule.nonResourceUrls → ∀ w url,
      (∃ v ∈ rule.verbs, v = "*" ∨ v = w) → s.toList <+: url.toList → GrantsUrl rules w url)
    (hurl : s.toList <+: url.toList) : GrantsUrl rules w url := by
  obtain ⟨rule, hr, ⟨v', hv', hvv⟩, p, hp, hm⟩ := h
  have hw : ∃ v ∈ rule.verbs, v = "*" ∨ v = w := by
    rcases hvv with rfl | rfl
    · exact ⟨_, hv', .inl rfl⟩
    · exact ⟨_, hv', hv⟩
  rcases star_text_cases hm with hall | rfl
  · exact ⟨rule, hr, hw, p, hp, hall url hurl⟩
  · exact hstars rule hr hp w url hw hurl

/-- A check of URLs is never passed by one who lacks some of them, exactly if whoever is bound to a pattern with two
stars at its end is granted what one star matches. -/
theorem urls_not_widened_iff (inner : RbacInner) (u : UserInfo) :
    (∀ rules, userHoldsAllRules u rules inner = true → ∀ verb url, GrantsUrl rules verb url →
      isAllowed inner (nonResourceRequest u verb url) = true) ↔
    ∀ rule ∈ boundRules inner u none, ∀ s, s ++ "**" ∈ rule.nonResourceUrls → ∀ verb url,
      (∃ v ∈ rule.verbs, v = "*" ∨ v = verb) → s.toList <+: url.toList →
        isAllowed inner (nonResourceRequest u verb url) = true := by
  simp only [isAllowed_nonResource_iff, userHoldsAllRules, all_eq_true, holdsRule_iff]
  constructor
  · -- the rule for the shorter pattern is one that the holder of the longer one may write
    intro h rule hr s hs verb url hv hurl
    refine h [⟨[], [], rule.verbs, [], [s ++ "*"]⟩] ?_ verb url ?_
    · simp only [forall_mem_singleton, not_mem_nil, false_imp_iff, implies_true, true_and]
      intro v hv
      refine ⟨rule, hr, ⟨v, hv, .inr rfl⟩, s ++ "**", hs, ?_⟩
      refine nonResourceUrlMatches_iff.mpr (.inr ⟨s ++ "*", ?_, prefix_rfl⟩)
      rw [← String.toList_inj]
      simp
    · exact ⟨_, mem_singleton_self _, hv, s ++ "*", mem_singleton_self _,
        nonResourceUrlMatches_iff.mpr (.inr ⟨s, rfl, hurl⟩)⟩
  · rintro h rules hheld verb url ⟨rule, hr, ⟨v, hv, hvv⟩, p, hp, hm⟩
    have hprobe := (hheld rule hr).2 p hp v hv
    rcases nonResourceUrlMatches_iff.mp hm with ⟨rfl, -⟩ | ⟨s, rfl, hurl⟩
    · obtain ⟨rule', hr', ⟨v', hv', hvv'⟩, hp'⟩ := hprobe
      refine ⟨rule', hr', ⟨v', hv', ?_⟩, hp'⟩
      rcases hvv' with h | rfl
      · exact .inl h
      · exact hvv
    · exact grantsUrl_of_star hvv hprobe (fun rule hr hs => h rule hr s hs) hurl

def aliceUrls (pattern : String) : RbacIndex :=
  (RbacIndex.new.applyObject "/apis/rbac.authorization.k8s.io/v1/clusterroles/a"
    (.obj [("metadata", .obj [("name", .str "a")]),
      ("rules", .arr [.obj [("nonResourceURLs", .arr [.str pattern]),
        ("verbs", .arr [.str "get"])]])])).applyObject
    "/apis/rbac.authorization.k8s.io/v1/clusterrolebindings/a" (clusterRoleBindingBody "a")

theorem doubleStar_widens :
    userHoldsAllRules alice [⟨[], [], ["get"], [], ["/apis/*"]⟩] (aliceUrls "/apis/**").inner = true ∧
    GrantsUrl [⟨[], [], ["get"], [], ["/apis/*"]⟩] "get" "/apis/apps" ∧
    isAllowed (aliceUrls "/apis/**").inner (nonResourceRequest alice "get" "/apis/apps") = false := by
  refine ⟨by decide +kernel, ?_, by decide +kernel⟩
  exact ⟨_, mem_singleton_self _, ⟨"get", by decide⟩, "/apis/*", by decide⟩

theorem singleStar_kept :
    userHoldsAllRules alice [⟨[], [], ["get"], [], ["/apis/a*"]⟩] (aliceUrls "/apis/*").inner = true ∧
    isAllowed (aliceUrls "/apis/*").inner (nonResourceRequest alice "get" "/apis/apps") = true := by
  have hheld : userHoldsAllRules alice [⟨[], [], ["get"], [], ["/apis/a*"]⟩]
      (aliceUrls "/apis/*").inner := by decide +kernel
  refine ⟨hheld, (urls_not_widened_iff (aliceUrls "/apis/*").inner alice).mpr ?_ _ hheld _ _
    ⟨_, mem_singleton_self _, ⟨"get", by decide⟩, "/apis/a*", by decide⟩⟩
  have hbound : boundRules (aliceUrls "/apis/*").inner alice none =
      [⟨[], [], ["get"], [], ["/apis/*"]⟩] := rfl
  intro rule hr s hs
  rw [hbound, mem_singleton] at hr
  subst hr
  have hrev := congrArg (fun t : String => t.toList.reverse) (mem_singleton.mp hs)
  simp at hrev

end U7s.Rbac
