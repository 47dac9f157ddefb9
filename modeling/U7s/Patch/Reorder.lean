import U7s.Lib.Interleave
import U7s.Lib.Metered
import U7s.Patch.KeyFields

namespace U7s.Patch

open Interleave Metered List

inductive PatchError where
  | notAnObject
  | unknownDirective (d : Json)
  | missingMergeKey (mergeKeys : List String)
  | noMergeKey (path : String)
  | badRetainKeys
  | tooComplex (budget : ℕ)
  deriving DecidableEq

abbrev Work := Metered PatchError

def MAX_WORK : ℕ := 1000000

def charge (units : ℕ) : Work Unit := Metered.charge (.tooComplex MAX_WORK) units

def usizeMax : ℕ := 2 ^ 64 - 1

def originalPositions (pre : List Json) (mergeKeys : List String) : List (KeyFields × ℕ) :=
  pre.zipIdx.filterMap (fun e =>
    if presentKeyFields e.1 mergeKeys = [] then none else some (presentKeyFields e.1 mergeKeys, e.2))

def plainKeys (patchFields : List KeyFields) (patchArr : List Json) : List KeyFields :=
  ((patchArr.zip patchFields).filter (fun e => e.1.get? "$patch" = none ∧ e.2 ≠ [])).map Prod.snd

def originalFirst (masks : List (List String)) (positions : List (KeyFields × ℕ)) : AList (fun _ : KeyFields => ℕ) :=
  positions.foldl (fun m o =>
    (keysFor o.1 masks).foldl (fun m k => if k ∈ m then m else m.insert k o.2) m) ∅

def stoodBefore (server patched : Option ℕ) : Bool :=
  match server, patched with
  | some l, some r => l < r
  | _, _ => false

def reorderMergedArray (merged : List Json) (positions : List (KeyFields × ℕ)) (patchFields : List KeyFields)
    (patchArr : List Json) (mergeKeys : List String) : Work (List Json) := do
  let patchKeys := plainKeys patchFields patchArr
  let patchMasks := masksOf patchKeys
  let patchFirst := firstByKey patchKeys
  charge (merged.length + positions.length)
  let keyed := merged.filter (fun v => presentKeyFields v mergeKeys ≠ [])
  let keyless := merged.filter (fun v => presentKeyFields v mergeKeys = [])
  let origMasks := masksOf (keyed.map (fun v => presentKeyFields v mergeKeys))
  let origFirst := originalFirst origMasks positions
  let orig := fun v => origFirst.lookup (presentKeyFields v mergeKeys)
  let pos := fun v => firstMatching patchFirst patchMasks (indexFields v mergeKeys)
  let patchItems := sortBy (fun v => (pos v).getD 0) (keyed.filter (fun v => (pos v).isSome))
  let serverOnly := sortBy (fun v => (orig v).getD usizeMax) (keyed.filter (fun v => (pos v).isNone))
  pure (interleave (fun s p => stoodBefore (orig s) (orig p)) serverOnly patchItems ++ keyless)

def applySetElementOrder (targetArr orderArr : List Json) (mergeKeys : List String) : Work (List Json) := do
  charge (orderArr.length + targetArr.length)
  let orderFields := orderArr.map (fun v => presentKeyFields v mergeKeys)
  let masks := masksOf orderFields
  let first := firstByKey orderFields
  pure (sortBy (fun e => (firstMatching first masks (indexFields e mergeKeys)).getD usizeMax) targetArr)

theorem lookup_enter_keys (keys : List KeyFields) (m : AList (fun _ : KeyFields => ℕ)) (i : ℕ) (k : KeyFields) :
    (keys.foldl (fun m k => if k ∈ m then m else m.insert k i) m).lookup k =
      (m.lookup k).orElse (fun _ => if k ∈ keys then some i else none) := by
  induction keys generalizing m with
  | nil => cases hm : m.lookup k <;> simp [hm]
  | cons key keys ih =>
    rw [foldl_cons, ih]
    by_cases hk : k = key
    · subst hk
      by_cases hmem : k ∈ m
      · obtain ⟨j, hj⟩ := Option.isSome_iff_exists.mp (AList.lookup_isSome.mpr hmem)
        rw [if_pos hmem, hj]
        rfl
      · rw [if_neg hmem, AList.lookup_eq_none.mpr hmem]
        simp
    · have hother : (if key ∈ m then m else m.insert key i).lookup k = m.lookup k := by
        split_ifs
        · rfl
        · exact AList.lookup_insert_ne hk
      rw [hother]
      simp [hk]

theorem lookup_originalFirst (hk : k.map Prod.fst ∈ masks) : (originalFirst masks positions).lookup k =
    (positions.find? (fun o => agrees o.1 k)).map Prod.snd := by
  induction positions using reverseRecOn with
  | nil => rfl
  | append_singleton positions o ih =>
    have hstep : originalFirst masks (positions ++ [o]) =
        (keysFor o.1 masks).foldl (fun m k => if k ∈ m then m else m.insert k o.2) (originalFirst masks positions) := by
      rw [originalFirst, foldl_append]
      rfl
    rw [hstep, lookup_enter_keys, ih, find?_append]
    cases positions.find? (fun o => agrees o.1 k) with
    | some o' => rfl
    | none => by_cases hagrees : agrees o.1 k = true <;> simp [mem_keysFor, hk]

theorem find?_originalPositions (hk : k ≠ []) (pre : List Json) :
    ((originalPositions pre mergeKeys).find? (fun o => agrees o.1 k)).map Prod.snd =
      pre.findIdx? (fun o => agrees (presentKeyFields o mergeKeys) k) := by
  induction pre using reverseRecOn with
  | nil => rfl
  | append_singleton pre o ih =>
    have hstep : originalPositions (pre ++ [o]) mergeKeys = originalPositions pre mergeKeys ++
        if presentKeyFields o mergeKeys = [] then [] else [(presentKeyFields o mergeKeys, pre.length)] := by
      rw [originalPositions, zipIdx_append]
      split_ifs with he <;> simp [originalPositions, he]
    have hempty : presentKeyFields o mergeKeys = [] → agrees (presentKeyFields o mergeKeys) k = false := by
      intro he
      obtain ⟨f, hf⟩ := exists_mem_of_ne_nil k hk
      rw [agrees, all_eq_false]
      exact ⟨f, hf, by simp [he]⟩
    rw [hstep, find?_append, findIdx?_append, ← ih]
    cases hfind : (originalPositions pre mergeKeys).find? (fun o => agrees o.1 k) with
    | some o' => rfl
    | none =>
      split_ifs with he
      · simp [hempty he]
      · by_cases hagrees : agrees (presentKeyFields o mergeKeys) k = true <;> simp [hagrees]

section Stability

variable (pre patchArr orderArr : List Json) (mergeKeys : List String)

def firstCarrier (v : Json) : Option ℕ :=
  pre.findIdx? (fun o => agrees (presentKeyFields o mergeKeys) (presentKeyFields v mergeKeys))

def matchedAt (v : Json) : Option ℕ :=
  (plainKeys (patchArr.map (fun e => presentKeyFields e mergeKeys)) patchArr).findIdx?
    (fun f => f ≠ [] && agrees (indexFields v mergeKeys) f)

def untouched (v : Json) : Bool :=
  presentKeyFields v mergeKeys ≠ [] && patchArr.all (fun e =>
    presentKeyFields e mergeKeys = [] || !agrees (indexFields v mergeKeys) (presentKeyFields e mergeKeys))

def orderedAt (v : Json) : Option ℕ :=
  (orderArr.map (fun e => presentKeyFields e mergeKeys)).findIdx?
    (fun f => f ≠ [] && agrees (indexFields v mergeKeys) f)

def weave (keyed : List Json) : List Json :=
  interleave (fun s p => stoodBefore (firstCarrier pre mergeKeys s) (firstCarrier pre mergeKeys p))
    (sortBy (fun v => (firstCarrier pre mergeKeys v).getD usizeMax)
      (keyed.filter (fun v => (matchedAt patchArr mergeKeys v).isNone)))
    (sortBy (fun v => (matchedAt patchArr mergeKeys v).getD 0)
      (keyed.filter (fun v => (matchedAt patchArr mergeKeys v).isSome)))

def reordered (merged : List Json) : List Json :=
  weave pre patchArr mergeKeys (merged.filter (fun v => presentKeyFields v mergeKeys ≠ [])) ++
    merged.filter (fun v => presentKeyFields v mergeKeys = [])

variable {pre patchArr orderArr mergeKeys} {merged keyed : List Json} {left : ℕ}

theorem reorderMergedArray_eq : reorderMergedArray merged (originalPositions pre mergeKeys)
    (patchArr.map (fun e => presentKeyFields e mergeKeys)) patchArr mergeKeys = (do
      charge (merged.length + (originalPositions pre mergeKeys).length)
      pure (reordered pre patchArr mergeKeys merged)) := by
  unfold reorderMergedArray reordered
  simp only [firstMatching_eq]
  set keyed := merged.filter (fun v => presentKeyFields v mergeKeys ≠ []) with hkeyed
  have horig : ∀ v ∈ keyed, (originalFirst (masksOf (keyed.map (fun v => presentKeyFields v mergeKeys)))
      (originalPositions pre mergeKeys)).lookup (presentKeyFields v mergeKeys) = firstCarrier pre mergeKeys v := by
    intro v hv
    have hne : presentKeyFields v mergeKeys ≠ [] := by simpa using (mem_filter.mp hv).2
    have hmask := mem_masksOf.mpr ⟨presentKeyFields v mergeKeys,
      mem_map_of_mem (f := fun v => presentKeyFields v mergeKeys) hv, hne, rfl⟩
    rw [lookup_originalFirst hmask, find?_originalPositions hne]
    rfl
  rw [sortBy_congr (fun v hv => by rw [horig v (mem_of_mem_filter hv)])]
  apply bind_congr
  intro _
  congr 2
  apply interleave_congr
  intro s hs p hp
  rw [horig s (mem_of_mem_filter ((sortBy_perm _ _).mem_iff.mp hs)),
    horig p (mem_of_mem_filter ((sortBy_perm _ _).mem_iff.mp hp))]

theorem reorderMergedArray_ok (h : reorderMergedArray merged (originalPositions pre mergeKeys)
      (patchArr.map (fun e => presentKeyFields e mergeKeys)) patchArr mergeKeys left = .ok r) :
    r.2 ≤ left ∧ r.1 = reordered pre patchArr mergeKeys merged := by
  rw [reorderMergedArray_eq] at h
  obtain ⟨_, left', hcharge, h⟩ := bind_eq_ok.mp h
  obtain ⟨-, hleft⟩ := charge_eq_ok hcharge
  cases hleft
  cases pure_eq_ok.mp h
  exact ⟨Nat.sub_le _ _, rfl⟩

theorem applySetElementOrder_eq (h : applySetElementOrder merged orderArr mergeKeys left = .ok r) :
    orderArr.length ≤ left ∧ r.1 = sortBy (fun v => (orderedAt orderArr mergeKeys v).getD usizeMax) merged := by
  obtain ⟨_, left', hcharge, h⟩ := bind_eq_ok.mp h
  obtain ⟨hle, -⟩ := charge_eq_ok hcharge
  cases pure_eq_ok.mp h
  simp only [firstMatching_eq]
  exact ⟨(Nat.le_add_right _ _).trans hle, rfl⟩

theorem mem_plainKeys :
    f ∈ plainKeys (patchArr.map (fun e => presentKeyFields e mergeKeys)) patchArr ↔
    ∃ e ∈ patchArr, e.get? "$patch" = none ∧ f ≠ [] ∧ presentKeyFields e mergeKeys = f := by
  rw [plainKeys, ← map_prod_left_eq_zip]
  simp only [mem_map, mem_filter, decide_eq_true_eq]
  constructor
  · rintro ⟨_, ⟨⟨e, he, rfl⟩, hplain, hne⟩, rfl⟩
    exact ⟨e, he, hplain, hne, rfl⟩
  · rintro ⟨e, he, hplain, hne, rfl⟩
    exact ⟨_, ⟨⟨e, he, rfl⟩, hplain, hne⟩, rfl⟩

theorem matchedAt_of_untouched (h : untouched patchArr mergeKeys v) :
    matchedAt patchArr mergeKeys v = none := by
  rw [untouched, Bool.and_eq_true, all_eq_true] at h
  apply findIdx?_eq_none_iff.mpr
  intro f hf
  obtain ⟨e, he, -, hne, rfl⟩ := mem_plainKeys.mp hf
  have hno := h.2 e he
  simp only [Bool.or_eq_true, decide_eq_true_eq, Bool.not_eq_true', hne, false_or] at hno
  simp [hno]

structure Stable (pre patchArr : List Json) (mergeKeys : List String) (merged result : List Json) : Prop where
  perm : result.Perm merged
  patch_order : result.Pairwise (fun a b =>
    ∀ i ∈ matchedAt patchArr mergeKeys a, ∀ j ∈ matchedAt patchArr mergeKeys b, i ≤ j)
  untouched_order : result.filter (untouched patchArr mergeKeys) = merged.filter (untouched patchArr mergeKeys)
  as_before : (result.filter (untouched patchArr mergeKeys)).Sublist pre

def MovesNamed (orderArr : List Json) (mergeKeys : List String) (before after : List Json) : Prop :=
  ∃ named, after = named ++ before.filter (fun v => (orderedAt orderArr mergeKeys v).isNone) ∧
    named.Perm (before.filter (fun v => (orderedAt orderArr mergeKeys v).isSome)) ∧
    named.Pairwise (fun a b => ∀ i ∈ orderedAt orderArr mergeKeys a, ∀ j ∈ orderedAt orderArr mergeKeys b, i ≤ j)

theorem applySetElementOrder_movesNamed (hword : left ≤ usizeMax)
    (h : applySetElementOrder merged orderArr mergeKeys left = .ok r) :
    MovesNamed orderArr mergeKeys merged r.1 := by
  obtain ⟨hlen, hr⟩ := applySetElementOrder_eq h
  rw [hr]
  set key := fun v => (orderedAt orderArr mergeKeys v).getD usizeMax with hkey
  have hnamed : ∀ v, (orderedAt orderArr mergeKeys v).isSome ↔ key v < usizeMax := by
    intro v
    cases hv : orderedAt orderArr mergeKeys v with
    | none => simp [hkey, hv]
    | some i =>
      obtain ⟨hi, -⟩ := findIdx?_eq_some_iff_getElem.mp hv
      rw [length_map] at hi
      simp only [hkey, hv, Option.isSome_some, Option.getD_some, true_iff]
      omega
  have hsorted := sortBy_pairwise key merged
  have hsplit := eq_filter_append_filter (p := fun v => (orderedAt orderArr mergeKeys v).isSome)
    (hsorted.imp (fun hle hb => (hnamed _).mpr (hle.trans_lt ((hnamed _).mp hb))))
  refine ⟨(sortBy key merged).filter (fun v => (orderedAt orderArr mergeKeys v).isSome), ?_,
    (sortBy_perm key merged).filter _, ?_⟩
  · have hrest : (sortBy key merged).filter (fun v => (orderedAt orderArr mergeKeys v).isNone) =
        merged.filter (fun v => (orderedAt orderArr mergeKeys v).isNone) := by
      apply (filter_sortBy_eq_iff _).mpr
      apply pairwise_filter.mpr
      apply pairwise_of_forall
      intro a b ha hb
      rw [Option.isNone_iff_eq_none] at ha hb
      simp only [hkey, ha, hb, le_refl]
    simp only [Option.not_isSome] at hsplit
    rw [← hrest]
    exact hsplit
  · apply (hsorted.filter _).imp
    intro a b hle i hi j hj
    simpa only [hkey, Option.mem_def.mp hi, Option.mem_def.mp hj, Option.getD_some] using hle

theorem weave_perm : (weave pre patchArr mergeKeys keyed).Perm keyed := by
  refine (interleave_perm _ _).trans (((sortBy_perm _ _).append (sortBy_perm _ _)).trans ?_)
  simpa only [Option.not_isNone] using
    filter_append_perm (fun v => (matchedAt patchArr mergeKeys v).isNone) keyed

theorem reordered_perm : (reordered pre patchArr mergeKeys merged).Perm merged := by
  refine (weave_perm.append_right _).trans ?_
  simpa only [decide_not, Bool.not_not] using
    filter_append_perm (fun v => decide (presentKeyFields v mergeKeys ≠ [])) merged

theorem reorderMergedArray_perm : Ensures (reorderMergedArray merged (originalPositions pre mergeKeys)
    (patchArr.map (fun e => presentKeyFields e mergeKeys)) patchArr mergeKeys) (fun result => result.Perm merged) := by
  intro left r hr
  rw [(reorderMergedArray_ok hr).2]
  exact reordered_perm

theorem filter_weave_matched :
    (weave pre patchArr mergeKeys keyed).filter (fun v => (matchedAt patchArr mergeKeys v).isSome) =
      sortBy (fun v => (matchedAt patchArr mergeKeys v).getD 0)
        (keyed.filter (fun v => (matchedAt patchArr mergeKeys v).isSome)) := by
  apply filter_interleave_right
  · intro v hv
    rw [← Option.not_isNone, (mem_filter.mp ((sortBy_perm _ _).mem_iff.mp hv)).2]
    rfl
  · intro v hv
    exact (mem_filter.mp ((sortBy_perm _ _).mem_iff.mp hv)).2

theorem filter_weave_unmatched :
    (weave pre patchArr mergeKeys keyed).filter (fun v => (matchedAt patchArr mergeKeys v).isNone) =
      sortBy (fun v => (firstCarrier pre mergeKeys v).getD usizeMax)
        (keyed.filter (fun v => (matchedAt patchArr mergeKeys v).isNone)) := by
  apply filter_interleave_left
  · intro v hv
    exact (mem_filter.mp ((sortBy_perm _ _).mem_iff.mp hv)).2
  · intro v hv
    rw [← Option.not_isSome, (mem_filter.mp ((sortBy_perm _ _).mem_iff.mp hv)).2]
    rfl

theorem weave_patch_order : (weave pre patchArr mergeKeys keyed).Pairwise (fun a b =>
    ∀ i ∈ matchedAt patchArr mergeKeys a, ∀ j ∈ matchedAt patchArr mergeKeys b, i ≤ j) := by
  have hsorted := sortBy_pairwise (fun v => (matchedAt patchArr mergeKeys v).getD 0)
    (keyed.filter (fun v => (matchedAt patchArr mergeKeys v).isSome))
  rw [← (filter_weave_matched : (weave pre patchArr mergeKeys keyed).filter _ = _)] at hsorted
  apply (pairwise_filter.mp hsorted).imp
  intro a b hle i hi j hj
  rw [Option.mem_def] at hi hj
  simpa [hi, hj] using hle

theorem filter_weave_eq_iff (hp : ∀ v, p v → matchedAt patchArr mergeKeys v = none) :
    (weave pre patchArr mergeKeys keyed).filter p = keyed.filter p ↔ (keyed.filter p).Pairwise (fun a b =>
      (firstCarrier pre mergeKeys a).getD usizeMax ≤ (firstCarrier pre mergeKeys b).getD usizeMax) := by
  have hunmatched : ∀ l : List Json,
      l.filter p = (l.filter (fun v => (matchedAt patchArr mergeKeys v).isNone)).filter p := by
    intro l
    rw [filter_filter]
    apply filter_congr
    intro v _
    cases hv : p v with
    | false => rfl
    | true => rw [hp v hv]; rfl
  rw [hunmatched (weave pre patchArr mergeKeys keyed), hunmatched keyed, filter_weave_unmatched]
  exact filter_sortBy_eq_iff p

theorem matchedAt_keyless (ha : presentKeyFields a mergeKeys = []) (hb : presentKeyFields b mergeKeys = []) :
    matchedAt patchArr mergeKeys a = matchedAt patchArr mergeKeys b := by
  rw [matchedAt, matchedAt, indexFields, indexFields, ha, hb]

theorem untouched_order_iff (h : reorderMergedArray merged (originalPositions pre mergeKeys)
      (patchArr.map (fun e => presentKeyFields e mergeKeys)) patchArr mergeKeys left = .ok r) :
    r.1.filter (untouched patchArr mergeKeys) = merged.filter (untouched patchArr mergeKeys) ↔
      (merged.filter (untouched patchArr mergeKeys)).Pairwise (fun a b =>
        (firstCarrier pre mergeKeys a).getD usizeMax ≤ (firstCarrier pre mergeKeys b).getD usizeMax) := by
  have hkeyed : merged.filter (untouched patchArr mergeKeys) =
      (merged.filter (fun v => presentKeyFields v mergeKeys ≠ [])).filter (untouched patchArr mergeKeys) := by
    rw [filter_filter]
    apply filter_congr
    intro v _
    cases hv : untouched patchArr mergeKeys v with
    | false => rfl
    | true =>
      rw [untouched, Bool.and_eq_true] at hv
      rw [hv.1]
      rfl
  have hkeyless : (merged.filter (fun v => presentKeyFields v mergeKeys = [])).filter (untouched patchArr mergeKeys) =
      [] := by
    apply filter_eq_nil_iff.mpr
    intro v hv
    simp [untouched, of_decide_eq_true (mem_filter.mp hv).2]
  rw [(reorderMergedArray_ok h).2, reordered, filter_append, hkeyless, append_nil, hkeyed]
  exact filter_weave_eq_iff (fun v => matchedAt_of_untouched)

theorem patch_order_iff (h : reorderMergedArray merged (originalPositions pre mergeKeys)
      (patchArr.map (fun e => presentKeyFields e mergeKeys)) patchArr mergeKeys left = .ok r) :
    r.1.Pairwise (fun a b => ∀ i ∈ matchedAt patchArr mergeKeys a, ∀ j ∈ matchedAt patchArr mergeKeys b, i ≤ j) ↔
      ∀ a ∈ merged, presentKeyFields a mergeKeys ≠ [] → ∀ b ∈ merged, presentKeyFields b mergeKeys = [] →
        ∀ i ∈ matchedAt patchArr mergeKeys a, ∀ j ∈ matchedAt patchArr mergeKeys b, i ≤ j := by
  rw [(reorderMergedArray_ok h).2, reordered, pairwise_append]
  simp only [weave_patch_order, true_and, weave_perm.mem_iff, mem_filter, decide_eq_true_eq]
  constructor
  · rintro ⟨-, hcross⟩ a ha hakey b hb hbkey
    exact hcross a ⟨ha, hakey⟩ b ⟨hb, hbkey⟩
  · intro hcross
    refine ⟨?_, fun a ha b hb => hcross a ha.1 ha.2 b hb.1 hb.2⟩
    apply pairwise_of_forall_mem_list
    intro a ha b hb i hi j hj
    have ha' := of_decide_eq_true (mem_filter.mp ha).2
    have hb' := of_decide_eq_true (mem_filter.mp hb).2
    rw [matchedAt_keyless ha' hb'] at hi
    rw [Option.mem_unique hi hj]

def portEntry (port : ℕ) (protocol : Option String) : Json :=
  .obj (("port", .num (.posInt port)) :: protocol.toList.map (fun p => ("protocol", .str p)))

/-- The order of a merged list is stable, also under a following `$setElementOrder`, exactly if the untouched elements
come in the order of the first elements that carried their key fields, and none without key fields matches the patch
before a keyed one. -/
theorem reorder_stable_iff (hpre : (merged.filter (untouched patchArr mergeKeys)).Sublist pre)
    (hword : left ≤ usizeMax) {r : List Json × ℕ}
    (h : reorderMergedArray merged (originalPositions pre mergeKeys)
      (patchArr.map (fun e => presentKeyFields e mergeKeys)) patchArr mergeKeys left = .ok r) :
    (Stable pre patchArr mergeKeys merged r.1 ∧
      ∀ orderArr r', applySetElementOrder r.1 orderArr mergeKeys r.2 = .ok r' →
        MovesNamed orderArr mergeKeys r.1 r'.1) ↔
      (merged.filter (untouched patchArr mergeKeys)).Pairwise (fun a b =>
        (firstCarrier pre mergeKeys a).getD usizeMax ≤ (firstCarrier pre mergeKeys b).getD usizeMax) ∧
      ∀ a ∈ merged, presentKeyFields a mergeKeys ≠ [] → ∀ b ∈ merged, presentKeyFields b mergeKeys = [] →
        ∀ i ∈ matchedAt patchArr mergeKeys a, ∀ j ∈ matchedAt patchArr mergeKeys b, i ≤ j := by
  have hleft : r.2 ≤ usizeMax := (reorderMergedArray_ok h).1.trans hword
  rw [← untouched_order_iff h, ← patch_order_iff h]
  constructor
  · rintro ⟨hstable, -⟩
    exact ⟨hstable.untouched_order, hstable.patch_order⟩
  · rintro ⟨hsame, hmatched⟩
    refine ⟨⟨reorderMergedArray_perm _ _ h, hmatched, hsame, hsame ▸ hpre⟩, fun orderArr r' horder => ?_⟩
    exact applySetElementOrder_movesNamed hleft horder

theorem reorder_stable_two_ports :
    let pre := [portEntry 80 (some "TCP"), portEntry 53 (some "UDP")]
    let patchArr := [portEntry 443 (some "TCP"), portEntry 53 (some "UDP")]
    let merged := pre ++ [portEntry 443 (some "TCP")]
    let result := [portEntry 443 (some "TCP"), portEntry 80 (some "TCP"), portEntry 53 (some "UDP")]
    reorderMergedArray merged (originalPositions pre ["port", "protocol"])
      (patchArr.map (fun e => presentKeyFields e ["port", "protocol"])) patchArr ["port", "protocol"] 10 =
        .ok (result, 5) ∧
    Stable pre patchArr ["port", "protocol"] merged result ∧
      ∀ orderArr r', applySetElementOrder result orderArr ["port", "protocol"] 5 = .ok r' →
        MovesNamed orderArr ["port", "protocol"] result r'.1 := by
  intro pre patchArr merged result
  have hrun : reorderMergedArray merged (originalPositions pre ["port", "protocol"])
      (patchArr.map (fun e => presentKeyFields e ["port", "protocol"])) patchArr ["port", "protocol"] 10 =
        .ok (result, 5) := by decide +kernel
  refine ⟨hrun, (reorder_stable_iff ?_ (by decide) hrun).mpr ⟨?_, ?_⟩⟩
  · decide +kernel
  · decide +kernel
  · decide +kernel

theorem untouched_port_overtakes :
    let pre := [portEntry 53 (some "UDP"), portEntry 80 none, portEntry 53 none]
    let patchArr := [portEntry 443 (some "TCP")]
    let merged := pre ++ patchArr
    let result := [portEntry 443 (some "TCP"), portEntry 53 (some "UDP"), portEntry 53 none, portEntry 80 none]
    (merged.filter (untouched patchArr ["port", "protocol"])).Sublist pre ∧
    reorderMergedArray merged (originalPositions pre ["port", "protocol"])
      (patchArr.map (fun e => presentKeyFields e ["port", "protocol"])) patchArr ["port", "protocol"] MAX_WORK =
        .ok (result, MAX_WORK - 7) ∧
    ¬Stable pre patchArr ["port", "protocol"] merged result := by
  refine ⟨by decide +kernel, by decide +kernel, ?_⟩
  intro h
  have hkept := h.untouched_order
  revert hkept
  decide +kernel

end Stability

end U7s.Patch
