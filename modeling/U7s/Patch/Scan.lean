import U7s.Patch.Strategic

namespace U7s.Patch

open Json Metered List Option

section Index

variable {index : KeyIndex} {lookup fields : KeyFields} {pos : ℕ}

theorem lookup_push (keys : List KeyFields) (hnodup : keys.Nodup) (m : AList (fun _ : KeyFields => List ℕ)) (pos : ℕ)
    (k : KeyFields) :
    (keys.foldl (fun m k => m.insert k ((m.lookup k).getD [] ++ [pos])) m).lookup k =
      if k ∈ keys then some ((m.lookup k).getD [] ++ [pos]) else m.lookup k := by
  induction keys generalizing m with
  | nil => rfl
  | cons key keys ih =>
    obtain ⟨hnotin, hnodup⟩ := nodup_cons.mp hnodup
    rw [foldl_cons, ih hnodup]
    by_cases hk : k = key
    · subst hk
      rw [if_neg hnotin, if_pos mem_cons_self, AList.lookup_insert]
    · simp [hk]

theorem KeyIndex.get_insert (hmask : lookup.map Prod.fst ∈ index.masks) (hnodup : index.masks.Nodup)
    (hne : lookup ≠ []) : (index.insert pos fields).get lookup =
      index.get lookup ++ if agrees fields lookup then [pos] else [] := by
  rw [get, get, if_neg hne, if_neg hne, insert]
  rw [lookup_push _ (nodup_keysFor hnodup)]
  by_cases hagrees : agrees fields lookup
  · rw [if_pos (mem_keysFor.mpr ⟨hmask, hagrees⟩), if_pos hagrees]
    rfl
  · rw [if_neg (fun h => hagrees (mem_keysFor.mp h).2), if_neg hagrees, append_nil]

end Index

section Reference

variable (kindAt : String → MergeKeyKind) (path : String) (mergeKeys : List String)

def firstMatch (cur : List Json) (e : Json) : Option ℕ :=
  if presentKeyFields e mergeKeys = [] then none
  else cur.findIdx? (fun x => agrees (indexFields x mergeKeys) (presentKeyFields e mergeKeys))

def scanElement (cur : List Json) (e : Json) (into : Json → Work Json) (fresh : Work (Option Json)) :
    Work (List Json) :=
  match directiveOf e with
  | some d =>
    if d ≠ "delete" then throw (.unknownDirective (.str d))
    else if presentKeyFields e mergeKeys = [] then throw (.missingMergeKey mergeKeys)
    else pure (cur.filter (fun x => !agrees (indexFields x mergeKeys) (presentKeyFields e mergeKeys)))
  | none =>
    match firstMatch mergeKeys cur e with
    | some i => do
      let v ← into (cur.getD i .null)
      pure (cur.set i v)
    | none => do
      let v ← fresh
      pure (cur ++ v.toList)

def scanElements (cur : List Json) : List Json → Work (List Json)
  | [] => pure cur
  | e :: rest => do
    let cur ← scanElement mergeKeys cur e (fun t => mergePatchInto kindAt path true t e) (newValue kindAt path e)
    scanElements cur rest

def mergeByScan (target : Json) (patchArr : List Json) : Work (List Json) := do
  charge (patchArr.length + (itemsOf target).length)
  scanElements kindAt path mergeKeys (itemsOf target) patchArr

/-- The later patch elements find what `e` was merged into, or added as, as they found it before. -/
def LeavesFound (cur cur' : List Json) (e : Json) (rest : List Json) : Prop :=
  directiveOf e = none → ∀ e' ∈ rest,
    agrees (indexFields (cur'.getD ((firstMatch mergeKeys cur e).getD cur.length) .null) mergeKeys)
        (presentKeyFields e' mergeKeys) =
      agrees (indexFields (cur.getD ((firstMatch mergeKeys cur e).getD cur.length) e) mergeKeys)
        (presentKeyFields e' mergeKeys)

instance (cur cur' : List Json) (e : Json) (rest : List Json) : Decidable (LeavesFound mergeKeys cur cur' e rest) :=
  inferInstanceAs (Decidable (_ → _))

def keysKept (cur : List Json) (left : ℕ) : List Json → Bool
  | [] => true
  | e :: rest =>
    match scanElement mergeKeys cur e (fun t => mergePatchInto kindAt path true t e) (newValue kindAt path e) left with
    | .ok r => decide (LeavesFound mergeKeys cur r.1 e rest) && keysKept r.1 r.2 rest
    | .error _ => true

end Reference

section InStep

variable {kindAt : String → MergeKeyKind} {path : String} {mergeKeys : List String} {cur rest todo : List Json}
  {s : Merging} {e x v : Json} {left : ℕ}

structure InStep (mergeKeys : List String) (todo : List Json) (s : Merging) (cur : List Json) : Prop where
  marks : s.arr.length = s.deleted.length
  retained : s.retained = cur
  nodup : s.index.masks.Nodup
  masks : ∀ e ∈ todo, presentKeyFields e mergeKeys ≠ [] → (presentKeyFields e mergeKeys).map Prod.fst ∈ s.index.masks
  found : ∀ e ∈ todo, presentKeyFields e mergeKeys ≠ [] → s.index.get (presentKeyFields e mergeKeys) =
    s.arr.findIdxs (fun x => agrees (indexFields x mergeKeys) (presentKeyFields e mergeKeys))

section

variable (h : InStep mergeKeys (e :: todo) s cur)
include h

theorem InStep.delete (hkeyed : presentKeyFields e mergeKeys ≠ []) :
    InStep mergeKeys todo { s with deleted := Marked.mark s.deleted (s.index.get (presentKeyFields e mergeKeys)) }
      (cur.filter (fun x => !agrees (indexFields x mergeKeys) (presentKeyFields e mergeKeys))) where
  marks := h.marks.trans (Marked.length_mark _ _).symm
  retained := by
    rw [h.found e mem_cons_self hkeyed, ← h.retained]
    exact Marked.kept_mark_findIdxs h.marks
  nodup := h.nodup
  masks := fun e' he' => h.masks e' (mem_cons_of_mem e he')
  found := fun e' he' => h.found e' (mem_cons_of_mem e he')

theorem InStep.set (hi : s.arr[i]? = some a) (hset : ∀ b, Marked.kept (s.arr.set i b) s.deleted = cur.set j b)
    (hv : ∀ e' ∈ todo, agrees (indexFields v mergeKeys) (presentKeyFields e' mergeKeys) =
      agrees (indexFields a mergeKeys) (presentKeyFields e' mergeKeys)) :
    InStep mergeKeys todo { s with arr := s.arr.set i v } (cur.set j v) where
  marks := length_set.trans h.marks
  retained := hset v
  nodup := h.nodup
  masks := fun e' he' => h.masks e' (mem_cons_of_mem e he')
  found := by
    intro e' he' hkeyed
    refine (h.found e' (mem_cons_of_mem e he') hkeyed).trans (Marked.findIdxs_set ?_).symm
    intro a' ha'
    cases hi.symm.trans ha'
    exact hv e' he'

theorem InStep.append (hv : ∀ e' ∈ todo, agrees (indexFields v mergeKeys) (presentKeyFields e' mergeKeys) =
      agrees (indexFields x mergeKeys) (presentKeyFields e' mergeKeys)) :
    InStep mergeKeys todo
      ⟨s.arr ++ [v], s.index.insert s.arr.length (indexFields x mergeKeys), s.deleted ++ [false]⟩ (cur ++ [v]) where
  marks := by rw [length_append, length_append, h.marks]; rfl
  retained := (Marked.kept_concat h.marks v).trans (congrArg (· ++ [v]) h.retained)
  nodup := h.nodup
  masks := fun e' he' => h.masks e' (mem_cons_of_mem e he')
  found := by
    intro e' he' hkeyed
    have hmem := mem_cons_of_mem e he'
    rw [KeyIndex.get_insert (h.masks e' hmem hkeyed) h.nodup hkeyed, h.found e' hmem hkeyed, findIdxs_append,
      findIdxs_singleton, zero_add, hv e' he']

end

theorem newValue_eq_some (hd : directiveOf e = none) (h : newValue kindAt path e left = .ok (o, left')) :
    ∃ v, o = some v := by
  cases e with
  | obj p =>
    rw [newValue] at h
    split_ifs at h with hdelete
    · rw [directiveOf, get?, hdelete] at hd
      cases hd
    · obtain ⟨v, _, -, h⟩ := bind_eq_ok.mp h
      cases pure_eq_ok.mp h
      exact ⟨v, rfl⟩
  | arr items =>
    obtain ⟨out, _, -, h⟩ := bind_eq_ok.mp h
    cases pure_eq_ok.mp h
    exact ⟨_, rfl⟩
  | null | bool b | num n | str t =>
    cases pure_eq_ok.mp h
    exact ⟨_, rfl⟩

theorem InStep.step (h : InStep mergeKeys (e :: rest) s cur)
    (hfound : ∀ cur' left', scanElement mergeKeys cur e (fun t => mergePatchInto kindAt path true t e)
      (newValue kindAt path e) left = .ok (cur', left') → LeavesFound mergeKeys cur cur' e rest) :
    Lockstep (InStep mergeKeys rest) left
      (mergeElement mergeKeys s e (fun t => mergePatchInto kindAt path true t e) (newValue kindAt path e))
      (scanElement mergeKeys cur e (fun t => mergePatchInto kindAt path true t e) (newValue kindAt path e)) := by
  unfold LeavesFound at hfound
  unfold mergeElement scanElement at *
  cases hd : directiveOf e with
  | some d =>
    dsimp only
    split_ifs with hdelete hkeyless
    · exact lockstep_throw _
    · exact lockstep_throw _
    · exact lockstep_pure (h.delete hkeyless)
  | none =>
    rw [hd] at hfound
    dsimp only at hfound ⊢
    have hfresh : firstMatch mergeKeys cur e = none → Lockstep (InStep mergeKeys rest) left
        (do let v ← newValue kindAt path e
            pure (⟨s.arr ++ v.toList, s.index.insert s.arr.length (indexFields e mergeKeys), s.deleted ++ [false]⟩ : Merging))
        (do let v ← newValue kindAt path e
            pure (cur ++ v.toList)) := by
      intro hnone
      apply lockstep_bind_same
      intro o left' ho
      obtain ⟨v, rfl⟩ := newValue_eq_some hd ho
      apply lockstep_pure
      apply h.append
      intro e' he'
      rw [hnone] at hfound
      have hsame := hfound (cur ++ [v]) left' (bind_eq_ok.mpr ⟨_, _, ho, rfl⟩) rfl e' he'
      simpa using hsame
    by_cases hkeyless : presentKeyFields e mergeKeys = []
    · have hnone : firstMatch mergeKeys cur e = none := by rw [firstMatch, if_pos hkeyless]
      rw [hnone, KeyIndex.get, if_pos hkeyless]
      exact hfresh hnone
    · have hmatch : firstMatch mergeKeys cur e = (Marked.kept s.arr s.deleted).findIdx?
          (fun x => agrees (indexFields x mergeKeys) (presentKeyFields e mergeKeys)) := by
        rw [firstMatch, if_neg hkeyless, ← h.retained]
        rfl
      rw [h.found e mem_cons_self hkeyless]
      cases hfind : (s.arr.findIdxs (fun x => agrees (indexFields x mergeKeys) (presentKeyFields e mergeKeys))).find?
          (fun i => !(s.deleted.getD i false)) with
      | none =>
        have hnone : firstMatch mergeKeys cur e = none := hmatch.trans (Marked.findIdx?_kept_eq_none h.marks hfind)
        rw [hnone]
        exact hfresh hnone
      | some i =>
        obtain ⟨j, a, hi, hj, hja, hset⟩ := Marked.findIdx?_kept_of_find? h.marks hfind
        have hretained : Marked.kept s.arr s.deleted = cur := h.retained
        rw [hretained] at hj hja hset
        have hfirst : firstMatch mergeKeys cur e = some j := by rw [hmatch, hretained, hj]
        have hsame : s.arr.getD i .null = cur.getD j .null := by
          rw [getD_eq_getElem?_getD, getD_eq_getElem?_getD, hi, hja]
        rw [hfirst] at hfound ⊢
        dsimp only at hfound ⊢
        rw [hsame]
        apply lockstep_bind_same
        intro v left' hv
        apply lockstep_pure
        apply h.set hi hset
        intro e' he'
        have hkept := hfound (cur.set j v) left' (bind_eq_ok.mpr ⟨_, _, hv, rfl⟩) rfl e' he'
        obtain ⟨hlt, rfl⟩ := List.getElem?_eq_some_iff.mp hja
        simpa [hlt] using hkept

theorem startIndex (masks : List (List String)) (hnodup : masks.Nodup) (pre : List Json) :
    let index := pre.zipIdx.foldl (fun index e => index.insert e.2 (indexFields e.1 mergeKeys)) (KeyIndex.new masks)
    index.masks = masks ∧ ∀ lookup : KeyFields, lookup ≠ [] → lookup.map Prod.fst ∈ masks →
      index.get lookup = pre.findIdxs (fun x => agrees (indexFields x mergeKeys) lookup) := by
  induction pre using reverseRecOn with
  | nil =>
    refine ⟨rfl, fun lookup hne _ => ?_⟩
    rw [KeyIndex.get, if_neg hne]
    rfl
  | append_singleton pre x ih =>
    obtain ⟨hmasks, hget⟩ := ih
    rw [zipIdx_append, foldl_append]
    refine ⟨hmasks, fun lookup hne hmask => ?_⟩
    rw [findIdxs_append, findIdxs_singleton, ← hget lookup hne hmask]
    exact KeyIndex.get_insert (hmasks.symm ▸ hmask) (hmasks.symm ▸ hnodup) hne

theorem inStep_start (pre patchArr : List Json) :
    InStep mergeKeys patchArr (startMerging pre patchArr mergeKeys) pre := by
  have hnodup := nodup_masksOf (patchArr.map (fun e => presentKeyFields e mergeKeys))
  obtain ⟨hmasks, hget⟩ := @startIndex mergeKeys _ hnodup pre
  have hmem : ∀ e ∈ patchArr, presentKeyFields e mergeKeys ≠ [] → (presentKeyFields e mergeKeys).map Prod.fst ∈
      masksOf (patchArr.map (fun e => presentKeyFields e mergeKeys)) :=
    fun e he hkeyed => mem_masksOf.mpr ⟨_, mem_map_of_mem he, hkeyed, rfl⟩
  exact ⟨(length_map _).symm, Marked.kept_unmarked pre, hmasks.symm ▸ hnodup,
    fun e he hkeyed => hmasks.symm ▸ hmem e he hkeyed, fun e he hkeyed => hget _ hkeyed (hmem e he hkeyed)⟩

theorem InStep.run (h : InStep mergeKeys es s cur) (hkept : keysKept kindAt path mergeKeys cur left es) :
    Lockstep (InStep mergeKeys []) left (mergeElementsInto kindAt path mergeKeys s es)
      (scanElements kindAt path mergeKeys cur es) := by
  induction es generalizing s cur left with
  | nil => exact lockstep_pure h
  | cons e es ih =>
    rw [keysKept] at hkept
    rw [mergeElementsInto, scanElements]
    refine Lockstep.bind (P := InStep mergeKeys es) (h.step ?_) ?_
    · intro cur' left' hscan
      rw [hscan, Bool.and_eq_true, decide_eq_true_eq] at hkept
      exact hkept.1
    · intro s' cur' left' hscan hstep
      rw [hscan, Bool.and_eq_true] at hkept
      exact ih hstep hkept.2

end InStep

section Kept

variable {kindAt : String → MergeKeyKind} {path : String} {mergeKeys : List String} {patchArr cur kept : List Json}
  {e : Json} {left : ℕ}

def unmatched (patchArr : List Json) (mergeKeys : List String) (x : Json) : Bool :=
  patchArr.all (fun e =>
    presentKeyFields e mergeKeys = [] || !agrees (indexFields x mergeKeys) (presentKeyFields e mergeKeys))

theorem agrees_of_unmatched (h : unmatched patchArr mergeKeys x) (he : e ∈ patchArr)
    (hkeyed : presentKeyFields e mergeKeys ≠ []) :
    agrees (indexFields x mergeKeys) (presentKeyFields e mergeKeys) = false := by
  have hno := all_eq_true.mp h e he
  simpa [hkeyed] using hno

theorem ensures_scanElement_kept (he : e ∈ patchArr) (hsub : kept.Sublist cur)
    (hkept : ∀ x ∈ kept, unmatched patchArr mergeKeys x) :
    Ensures (scanElement mergeKeys cur e into fresh) (fun cur' => kept.Sublist cur') := by
  unfold scanElement
  split
  · split_ifs with hdelete hkeyless
    · exact ensures_throw _
    · exact ensures_throw _
    · apply ensures_pure
      have hself : kept.filter (fun x => !agrees (indexFields x mergeKeys) (presentKeyFields e mergeKeys)) = kept := by
        apply filter_eq_self.mpr
        intro x hx
        rw [agrees_of_unmatched (hkept x hx) he hkeyless]
        rfl
      rw [← hself]
      exact hsub.filter _
  · split
    · next i hi =>
      apply ensures_bind
      intro v
      apply ensures_pure
      unfold firstMatch at hi
      split_ifs at hi with hkeyless
      obtain ⟨hlt, hp, -⟩ := findIdx?_eq_some_iff_getElem.mp hi
      have hself : kept.filter (unmatched patchArr mergeKeys) = kept := filter_eq_self.mpr hkept
      have hmatched : unmatched patchArr mergeKeys cur[i] = false := by
        by_contra hne
        rw [agrees_of_unmatched (Bool.eq_true_of_not_eq_false hne) he hkeyless] at hp
        cases hp
      rw [← hself]
      exact (hsub.filter _).trans (Marked.filter_sublist_set (getElem?_eq_getElem hlt) hmatched v)
    · apply ensures_bind
      intro v
      exact ensures_pure (hsub.trans (sublist_append_left _ _))

theorem ensures_scanElements_kept (hes : ∀ e ∈ es, e ∈ patchArr) (hsub : kept.Sublist cur)
    (hkept : ∀ x ∈ kept, unmatched patchArr mergeKeys x) :
    Ensures (scanElements kindAt path mergeKeys cur es) (fun cur' => kept.Sublist cur') := by
  induction es generalizing cur with
  | nil => exact ensures_pure hsub
  | cons e es ih =>
    refine (ensures_scanElement_kept (hes e mem_cons_self) hsub hkept).bind ?_
    intro cur' hsub'
    exact ih (fun e' he' => hes e' (mem_cons_of_mem e he')) hsub'

/-- The merge of a keyed list is, but for the order, the merge by scans, if no step of the scan changes for the later
patch elements whether they find what it merged or added. -/
theorem merge_array_scan {target r : Json} {left' : ℕ} (hreplace : ∀ e ∈ patchArr, directiveOf e ≠ some "replace")
    (hkept : keysKept kindAt path mergeKeys (itemsOf target) (left - (patchArr.length + (itemsOf target).length))
      patchArr = true)
    (h : mergeArrayInto kindAt path mergeKeys target (.arr patchArr) left = .ok (r, left')) :
    ∃ result cur left'', r = .arr result ∧ mergeByScan kindAt path mergeKeys target patchArr left = .ok (cur, left'') ∧
      result.Perm cur ∧ ((itemsOf target).filter (unmatched patchArr mergeKeys)).Subperm result := by
  have hany : patchArr.any (fun e => directiveOf e = some "replace") = false := by
    rw [List.any_eq_false]
    exact fun e he => by simpa using hreplace e he
  rw [mergeArrayInto, strategicMergeArray, hany] at h
  obtain ⟨_, left₁, hcharge, h⟩ := bind_eq_ok.mp h
  obtain ⟨-, hleft⟩ := charge_eq_ok hcharge
  cases hleft
  obtain ⟨s, left₂, hs, h⟩ := bind_eq_ok.mp h
  obtain ⟨result, left₃, hresult, h⟩ := bind_eq_ok.mp h
  cases pure_eq_ok.mp h
  rcases (inStep_start (itemsOf target) patchArr).run hkept with
    ⟨s', cur, left'', hs', hcur, hstep⟩ | ⟨e, hs', -⟩
  · cases hs.symm.trans hs'
    have hperm : result.Perm cur := hstep.retained ▸ reorderMergedArray_perm _ _ hresult
    refine ⟨result, cur, _, rfl, bind_eq_ok.mpr ⟨(), _, hcharge, hcur⟩, hperm, ?_⟩
    have hsub := ensures_scanElements_kept (fun e he => he) filter_sublist
      (fun x hx => (mem_filter.mp hx).2) _ _ hcur
    exact hsub.subperm.trans hperm.symm.subperm
  · cases hs.symm.trans hs'

def namedPort (name : String) (port : ℕ) (protocol : Option String) : Json :=
  .obj (("name", .str name) :: ("port", .num (.posInt port)) :: protocol.toList.map (fun p => ("protocol", .str p)))

theorem merge_array_scan_ports :
    let target := Json.arr [portEntry 53 (some "UDP"), portEntry 80 (some "TCP"), portEntry 443 none]
    let patchArr := [namedPort "dns" 53 none, .obj [("$patch", .str "delete"), ("port", .num (.posInt 80))]]
    ∃ result cur left'', Json.arr [namedPort "dns" 53 (some "UDP"), portEntry 443 none] = .arr result ∧
      mergeByScan (mergeKeyForPath false none) "spec.ports" ["port", "protocol"] target patchArr MAX_WORK =
        .ok (cur, left'') ∧
      result.Perm cur ∧ ((itemsOf target).filter (unmatched patchArr ["port", "protocol"])).Subperm result := by
  intro target patchArr
  have hrun : mergeArrayInto (mergeKeyForPath false none) "spec.ports" ["port", "protocol"] target (.arr patchArr)
      MAX_WORK = .ok (.arr [namedPort "dns" 53 (some "UDP"), portEntry 443 none], MAX_WORK - 10) := by decide +kernel
  refine merge_array_scan ?_ ?_ hrun <;> decide +kernel

theorem stale_index_merges_twice :
    let target := Json.arr [portEntry 53 (some "UDP")]
    let patchArr := [.obj [("$retainKeys", .arr [.str "name", .str "port"]), ("name", .str "dns"),
      ("port", .num (.posInt 53))], namedPort "dns-udp" 53 (some "UDP")]
    mergeArrayInto (mergeKeyForPath false none) "spec.ports" ["port", "protocol"] target (.arr patchArr) MAX_WORK =
      .ok (.arr [namedPort "dns-udp" 53 (some "UDP")], MAX_WORK - 12) ∧
    mergeByScan (mergeKeyForPath false none) "spec.ports" ["port", "protocol"] target patchArr MAX_WORK =
      .ok ([namedPort "dns" 53 none, namedPort "dns-udp" 53 (some "UDP")], MAX_WORK - 10) := by
  decide +kernel

end Kept

end U7s.Patch
