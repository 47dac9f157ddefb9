import U7s.Patch.Strategic

/-! Where a strategic merge stores the directives of a patch: only in what it copies verbatim. -/

namespace U7s.Patch

open Json Metered

def isDirectiveKey (k : String) : Bool :=
  k = RETAIN_KEYS || k = PATCH_DIRECTIVE || Text.startsWith k DELETE_FROM || Text.startsWith k SET_ORDER

theorem stripPrefix_eq_none : Text.stripPrefix q s = none ↔ Text.startsWith s q = false := by
  rw [Text.stripPrefix]
  cases Text.startsWith s q <;> simp

theorem not_isDirectiveKey : isDirectiveKey k = false ↔ ¬(k = RETAIN_KEYS ∨ k = PATCH_DIRECTIVE) ∧
    Text.startsWith k DELETE_FROM = false ∧ Text.startsWith k SET_ORDER = false := by
  simp only [isDirectiveKey, Bool.or_eq_false_iff, decide_eq_false_iff_not, not_or, and_assoc]

mutual

def DirectiveFree : Json → Prop
  | .arr items => DirectiveFreeItems items
  | .obj fs => DirectiveFreeFields fs
  | _ => True

def DirectiveFreeItems : List Json → Prop
  | [] => True
  | x :: xs => DirectiveFree x ∧ DirectiveFreeItems xs

def DirectiveFreeFields : List (String × Json) → Prop
  | [] => True
  | (k, v) :: fs => isDirectiveKey k = false ∧ DirectiveFree v ∧ DirectiveFreeFields fs

end

theorem directiveFreeItems_iff : DirectiveFreeItems items ↔ ∀ x ∈ items, DirectiveFree x := by
  induction items with
  | nil => simp [DirectiveFreeItems]
  | cons x items ih => simp [DirectiveFreeItems, ih]

theorem directiveFreeFields_iff :
    DirectiveFreeFields fs ↔ ∀ f ∈ fs, isDirectiveKey f.1 = false ∧ DirectiveFree f.2 := by
  induction fs with
  | nil => simp [DirectiveFreeFields]
  | cons f fs ih => simp [DirectiveFreeFields, ih, and_assoc]

section

variable (h : DirectiveFreeFields fs)
include h

theorem DirectiveFreeFields.lookup (hk : lookup k fs = some v) : DirectiveFree v :=
  (directiveFreeFields_iff.mp h _ (mem_of_lookup hk)).2

theorem DirectiveFreeFields.insert (hk : isDirectiveKey k = false) (hv : DirectiveFree v) :
    DirectiveFreeFields (insert k v fs) := by
  rw [directiveFreeFields_iff] at h ⊢
  rintro ⟨l, w⟩ hf
  rcases mem_insert hf with hf | hf
  · cases hf
    exact ⟨hk, hv⟩
  · exact h _ hf

theorem DirectiveFreeFields.filter (q : String × Json → Bool) :
    DirectiveFreeFields (fs.filter q) := by
  rw [directiveFreeFields_iff] at h ⊢
  exact fun f hf => h f (List.mem_of_mem_filter hf)

theorem DirectiveFreeFields.key (hk : Json.lookup k fs = some v) :
    isDirectiveKey k = false :=
  (directiveFreeFields_iff.mp h _ (mem_of_lookup hk)).1

end

theorem DirectiveFreeItems.subset (h : DirectiveFreeItems items) (hsub : items' ⊆ items) :
    DirectiveFreeItems items' := by
  rw [directiveFreeItems_iff] at h ⊢
  exact fun x hx => h x (hsub hx)

theorem directiveFreeFields_membersOf (h : DirectiveFree v) : DirectiveFreeFields (membersOf v) := by
  cases v with
  | obj fs => exact h
  | _ => trivial

theorem directiveFreeItems_itemsOf (h : DirectiveFree v) : DirectiveFreeItems (itemsOf v) := by
  cases v with
  | arr items => exact h
  | _ => trivial

section Copied

def copiedObject (validateRetain : Bool) (target : Json) (patch : List (String × Json)) (left : ℕ)
    (members : List (String × Json) → ℕ → List Json) : List Json :=
  upon (applyDirective (membersOf target) patch) left (fun o left =>
    match o with
    | none => []
    | some (t, replaced) => upon (retainMembers (!replaced && target.isObject && validateRetain) t patch) left members)

def copiedList (mergeKeys : List String) (target : Json) (patchArr : List Json) (left : ℕ)
    (elements : Merging → ℕ → List Json) : List Json :=
  if patchArr.any (fun e => directiveOf e = some "replace") then
    patchArr.filter (fun e => e.get? PATCH_DIRECTIVE = none)
  else
    upon (charge (patchArr.length + (itemsOf target).length)) left (fun _ =>
      elements (startMerging (itemsOf target) patchArr mergeKeys))

def copiedElement (mergeKeys : List String) (s : Merging) (e : Json) (left : ℕ) (into : Json → ℕ → List Json)
    (fresh : ℕ → List Json) : List Json :=
  match directiveOf e with
  | some _ => []
  | none =>
    match (s.index.get (presentKeyFields e mergeKeys)).find? (fun i => !(s.deleted.getD i false)) with
    | some i => into (s.arr.getD i .null) left
    | none => fresh left

variable (kindAt : String → MergeKeyKind)

def copiedMember (path : String) (target : List (String × Json)) (key : String) (value : Json) (left : ℕ)
    (into : Bool → Json → ℕ → List Json) (array : List String → Json → ℕ → List Json) (fresh : ℕ → List Json) :
    List Json :=
  if isDirectiveKey key then []
  else
    match value with
    | .arr items =>
      match kindAt (childPath path key) with
      | .key mergeKeys => array mergeKeys ((lookup key target).getD (.arr [])) left
      | .set => items.filter (fun e => e ∉ itemsOf ((lookup key target).getD (.arr [])))
      | _ => fresh left
    | .obj fs =>
      if lookup key target = none ∧ lookup PATCH_DIRECTIVE fs ≠ none then []
      else into (lookup key target).isSome ((lookup key target).getD (.obj [])) left
    | _ => []

/-! The values that a merge copies verbatim, in the order in which it comes to them. -/

mutual

def copiedInto (path : String) (validateRetain : Bool) (target : Json) (left : ℕ) : Json → List Json
  | .obj patch => copiedObject validateRetain target patch left (fun t left => copiedMembers path t left patch)
  | _ => []
termination_by structural patch => patch

def copiedMembers (path : String) (target : List (String × Json)) (left : ℕ) : List (String × Json) → List Json
  | [] => []
  | (key, value) :: rest =>
    copiedMember kindAt path target key value left
        (fun validateRetain t left => copiedInto (childPath path key) validateRetain t left value)
        (fun mergeKeys t left => copiedArray (childPath path key) mergeKeys t left value)
        (fun left => copiedNew (childPath path key) left value) ++
      upon (mergeMember kindAt path target key value
        (fun validateRetain t => mergePatchInto kindAt (childPath path key) validateRetain t value)
        (fun mergeKeys t => mergeArrayInto kindAt (childPath path key) mergeKeys t value)
        (newValue kindAt (childPath path key) value)) left (fun t left => copiedMembers path t left rest)
termination_by structural patch => patch

def copiedArray (path : String) (mergeKeys : List String) (target : Json) (left : ℕ) : Json → List Json
  | .arr patchArr =>
    copiedList mergeKeys target patchArr left (fun s left => copiedElements path mergeKeys s left patchArr)
  | _ => []
termination_by structural value => value

def copiedElements (path : String) (mergeKeys : List String) (s : Merging) (left : ℕ) : List Json → List Json
  | [] => []
  | e :: rest =>
    copiedElement mergeKeys s e left (fun t left => copiedInto path true t left e) (fun left => copiedNew path left e) ++
      upon (mergeElement mergeKeys s e (fun t => mergePatchInto kindAt path true t e) (newValue kindAt path e)) left
        (fun s left => copiedElements path mergeKeys s left rest)
termination_by structural items => items

def copiedNew (path : String) (left : ℕ) : Json → List Json
  | .obj patch =>
    if lookup PATCH_DIRECTIVE patch = some (.str "delete") then []
    else copiedObject false (.obj []) patch left (fun t left => copiedMembers path t left patch)
  | .arr items => copiedItems path left items
  | _ => []
termination_by structural value => value

def copiedItems (path : String) (left : ℕ) : List Json → List Json
  | [] => []
  | e :: rest =>
    if e.get? PATCH_DIRECTIVE ≠ none then copiedItems path left rest
    else copiedNew path left e ++ upon (newValue kindAt path e) left (fun _ left => copiedItems path left rest)
termination_by structural items => items

end

end Copied

theorem directiveFreeItems_append : DirectiveFreeItems (xs ++ ys) ↔ DirectiveFreeItems xs ∧ DirectiveFreeItems ys := by
  simp only [directiveFreeItems_iff, List.forall_mem_append]

theorem ensures_free_deleteFromPrimitiveList (ht : DirectiveFreeFields t) (field : String) :
    Ensures (deleteFromPrimitiveList t field value) DirectiveFreeFields := by
  unfold deleteFromPrimitiveList
  split
  · next toRemove items hitems =>
    apply ensures_bind
    intro _
    apply ensures_pure
    apply ht.insert (ht.key hitems)
    exact DirectiveFreeItems.subset (ht.lookup hitems) (List.filter_subset_self _)
  · exact ensures_pure ht

theorem ensures_free_setElementOrders (q : List (String × Json)) (ht : DirectiveFreeFields t) :
    Ensures (setElementOrders kindAt path q t) DirectiveFreeFields := by
  induction q generalizing t with
  | nil => exact ensures_pure ht
  | cons f q ih =>
    rw [setElementOrders, List.foldlM_cons]
    refine Ensures.bind (P := DirectiveFreeFields) ?_ (fun t' ht' => ih ht')
    split
    · split
      · next mergeKeys items hkind hitems =>
        refine Ensures.bind (P := fun items' => items'.Perm items) ?_ ?_
        · intro left r hr
          rw [(applySetElementOrder_eq hr).2]
          exact Interleave.sortBy_perm _ _
        · intro items' hperm
          exact ensures_pure (ht.insert (ht.key hitems) (DirectiveFreeItems.subset (ht.lookup hitems) hperm.subset))
      · exact ensures_pure ht
    · exact ensures_pure ht

theorem ensures_free_retainMembers (ht : DirectiveFreeFields t) (validated : Bool) :
    Ensures (retainMembers validated t p) DirectiveFreeFields := by
  unfold retainMembers
  split
  · unfold applyRetainKeys
    split
    · exact ensures_pure ht
    · apply ensures_bind
      intro _
      dsimp only
      split_ifs
      · exact ensures_pure (ht.filter _)
      · exact ensures_throw _
    · exact ensures_throw _
  · exact ensures_pure ht

theorem free_mergeObject (htarget : DirectiveFree target)
    (hmembers : ∀ t left, DirectiveFreeFields t → DirectiveFreeItems (copied t left) →
      EnsuresAt left (members t) DirectiveFreeFields)
    (hcopied : DirectiveFreeItems (copiedObject validateRetain target p left copied)) :
    EnsuresAt left (mergeObject kindAt path validateRetain target p members) DirectiveFree := by
  refine EnsuresAt.bind (P := fun o => ∀ a ∈ o, DirectiveFreeFields a.1) (Ensures.at ?_ left) ?_
  · unfold applyDirective
    split
    · apply ensures_pure
      rintro a ha
      cases ha
      exact directiveFreeFields_membersOf htarget
    · split_ifs
      · apply ensures_pure
        rintro a ha
        cases ha
        trivial
      · exact ensures_pure (fun a ha => by cases ha)
      · exact ensures_throw _
  · intro o left₁ ho hfree
    rw [copiedObject, upon_eq ho] at hcopied
    cases o with
    | none => exact ensuresAt_pure trivial
    | some a =>
      refine ((ensures_free_retainMembers (hfree a rfl) _).at left₁).bind ?_
      intro t left₂ ht hfree
      dsimp only at hcopied
      rw [upon_eq ht] at hcopied
      refine (hmembers t left₂ hfree hcopied).bind ?_
      intro t' left₃ _ ht'
      refine Ensures.at (Ensures.bind (ensures_free_setElementOrders p ht') ?_) left₃
      exact fun t'' ht'' => ensures_pure ht''

theorem mem_foldl_union {patchArr : List Json}
    (h : x ∈ patchArr.foldl (fun items e => if e ∈ items then items else items ++ [e]) items) :
    x ∈ items ∨ x ∈ patchArr := by
  induction patchArr generalizing items with
  | nil => exact .inl h
  | cons e patchArr ih =>
    rcases ih h with h | h
    · dsimp only at h
      split_ifs at h
      · exact .inl h
      · rcases List.mem_append.mp h with h | h
        · exact .inl h
        · exact .inr (List.mem_cons.mpr (.inl (List.mem_singleton.mp h)))
    · exact .inr (List.mem_cons_of_mem e h)

theorem ensures_free_strategicMergeSetArray (htarget : DirectiveFree target)
    (hpatch : DirectiveFreeItems (patchArr.filter (fun e => e ∉ itemsOf target))) :
    Ensures (strategicMergeSetArray target patchArr) DirectiveFree := by
  apply ensures_bind
  intro _
  apply ensures_pure
  refine directiveFreeItems_iff.mpr (fun x hx => ?_)
  by_cases hmem : x ∈ itemsOf target
  · exact directiveFreeItems_iff.mp (directiveFreeItems_itemsOf htarget) x hmem
  · have hx := (mem_foldl_union hx).resolve_left hmem
    exact directiveFreeItems_iff.mp hpatch x (List.mem_filter.mpr ⟨hx, decide_eq_true hmem⟩)

theorem free_mergeValue (ht : DirectiveFreeFields t) (hkey : isDirectiveKey key = false)
    (hcopied : DirectiveFreeItems (copiedMember kindAt path t key value left intos arrays freshs))
    (hinto : ∀ validateRetain x, DirectiveFree x → DirectiveFreeItems (intos validateRetain x left) →
      EnsuresAt left (into validateRetain x) DirectiveFree)
    (harray : ∀ mergeKeys x, DirectiveFree x → DirectiveFreeItems (arrays mergeKeys x left) →
      EnsuresAt left (array mergeKeys x) DirectiveFree)
    (hfresh : DirectiveFreeItems (freshs left) → EnsuresAt left fresh (fun o => ∀ v ∈ o, DirectiveFree v)) :
    EnsuresAt left (mergeValue kindAt path t key value into array fresh) DirectiveFreeFields := by
  have hold : ∀ d : Json, DirectiveFree d → DirectiveFree ((lookup key t).getD d) := by
    intro d hd
    cases hk : lookup key t with
    | none => exact hd
    | some v => exact ht.lookup hk
  have hput : ∀ {x : Work Json}, EnsuresAt left x DirectiveFree →
      EnsuresAt left (do let v ← x; pure (insert key v t)) DirectiveFreeFields :=
    fun hx => hx.bind (fun v left' _ hv => ensuresAt_pure (ht.insert hkey hv))
  unfold copiedMember at hcopied
  rw [hkey, if_neg Bool.false_ne_true] at hcopied
  cases value with
  | null =>
    refine ensuresAt_pure ?_
    split_ifs
    · exact ht.filter _
    · exact ht
  | arr items =>
    unfold mergeValue
    dsimp only at hcopied ⊢
    split
    · next mergeKeys hkind =>
      rw [hkind] at hcopied
      exact hput (harray mergeKeys _ (hold (.arr []) trivial) hcopied)
    · next hkind =>
      rw [hkind] at hcopied
      exact hput ((ensures_free_strategicMergeSetArray (hold (.arr []) trivial) hcopied).at left)
    · next hnotkey hnotset =>
      split at hcopied
      · next ks hkind => exact absurd hkind (hnotkey ks)
      · next hkind => exact absurd hkind hnotset
      · split_ifs
        · exact ensuresAt_throw _
        · refine (hfresh hcopied).bind ?_
          intro o left' _ ho
          cases o with
          | none => exact ensuresAt_pure ht
          | some v => exact ensuresAt_pure (ht.insert hkey (ho v rfl))
  | obj fs =>
    unfold mergeValue
    dsimp only at hcopied ⊢
    split_ifs at hcopied ⊢
    · exact ensuresAt_pure ht
    · exact hput (hinto _ _ (hold (.obj []) trivial) hcopied)
  | bool b | num n | str s => exact ensuresAt_pure (ht.insert hkey trivial)

theorem free_mergeMember (ht : DirectiveFreeFields t)
    (hvalue : isDirectiveKey key = false → EnsuresAt left (mergeValue kindAt path t key value into array fresh)
      DirectiveFreeFields) :
    EnsuresAt left (mergeMember kindAt path t key value into array fresh) DirectiveFreeFields := by
  unfold mergeMember
  split
  · exact ensuresAt_pure ht
  · split
    · exact (ensures_free_deleteFromPrimitiveList ht _).at left
    · split
      · exact ensuresAt_pure ht
      · next hreserved _ hnone horder =>
        have hplain : isDirectiveKey key = false := not_isDirectiveKey.mpr
          ⟨hreserved, stripPrefix_eq_none.mp hnone, Bool.eq_false_of_not_eq_true horder⟩
        exact hvalue hplain

theorem free_strategicMergeArray (htarget : DirectiveFree target)
    (helements : ∀ s left, DirectiveFreeItems s.arr → DirectiveFreeItems (copied s left) →
      EnsuresAt left (elements s) (fun s' => DirectiveFreeItems s'.arr))
    (hcopied : DirectiveFreeItems (copiedList mergeKeys target items left copied)) :
    EnsuresAt left (strategicMergeArray mergeKeys target items elements) DirectiveFree := by
  unfold copiedList at hcopied
  unfold strategicMergeArray
  split_ifs at hcopied ⊢
  · exact ensuresAt_pure hcopied
  · refine ((ensures_true _).at left).bind ?_
    intro _ left₁ hcharge _
    rw [upon_eq hcharge] at hcopied
    refine (helements _ left₁ (directiveFreeItems_itemsOf htarget) hcopied).bind ?_
    intro s' left₂ _ hs'
    refine Ensures.at (reorderMergedArray_perm.bind ?_) left₂
    intro result hperm
    apply ensures_pure
    exact DirectiveFreeItems.subset hs' (fun x hx => (Marked.kept_sublist _ _).subset (hperm.subset hx))

theorem free_mergeElement (hs : DirectiveFreeItems s.arr)
    (hcopied : DirectiveFreeItems (copiedElement mergeKeys s e left intos freshs))
    (hinto : ∀ x, DirectiveFree x → DirectiveFreeItems (intos x left) → EnsuresAt left (into x) DirectiveFree)
    (hfresh : DirectiveFreeItems (freshs left) → EnsuresAt left fresh (fun o => ∀ v ∈ o, DirectiveFree v)) :
    EnsuresAt left (mergeElement mergeKeys s e into fresh) (fun s' => DirectiveFreeItems s'.arr) := by
  unfold copiedElement at hcopied
  unfold mergeElement
  rw [directiveFreeItems_iff] at hs
  cases hd : directiveOf e with
  | some d =>
    dsimp only
    split_ifs
    · exact ensuresAt_throw _
    · exact ensuresAt_throw _
    · exact ensuresAt_pure (directiveFreeItems_iff.mpr hs)
  | none =>
    rw [hd] at hcopied
    dsimp only at hcopied ⊢
    cases hfind : (s.index.get (presentKeyFields e mergeKeys)).find? (fun i => !(s.deleted.getD i false)) with
    | some i =>
      rw [hfind] at hcopied
      have hx : DirectiveFree (s.arr.getD i .null) := by
        rw [List.getD_eq_getElem?_getD]
        cases hget : s.arr[i]? with
        | none => trivial
        | some x => exact hs x (List.mem_of_getElem? hget)
      refine (hinto _ hx hcopied).bind ?_
      intro v left' _ hv
      refine ensuresAt_pure (directiveFreeItems_iff.mpr ?_)
      intro x hx
      rcases List.mem_or_eq_of_mem_set hx with hx | rfl
      · exact hs x hx
      · exact hv
    | none =>
      rw [hfind] at hcopied
      refine (hfresh hcopied).bind ?_
      intro o left' _ ho
      refine ensuresAt_pure (directiveFreeItems_iff.mpr ?_)
      intro x hx
      rcases List.mem_append.mp hx with hx | hx
      · exact hs x hx
      · exact ho x (Option.mem_toList.mp hx)

mutual

theorem free_mergePatchInto (path : String) (validateRetain : Bool) (target : Json) (left : ℕ)
    (htarget : DirectiveFree target) : (patch : Json) →
      DirectiveFreeItems (copiedInto kindAt path validateRetain target left patch) →
      EnsuresAt left (mergePatchInto kindAt path validateRetain target patch) DirectiveFree
  | .obj p, h => free_mergeObject htarget (fun t left ht => free_mergeMembersInto path t left ht p) h
  | .null, _ | .bool _, _ | .num _, _ | .str _, _ | .arr _, _ => ensuresAt_throw _
termination_by structural patch => patch

theorem free_mergeMembersInto (path : String) (t : List (String × Json)) (left : ℕ) (ht : DirectiveFreeFields t) :
    (p : List (String × Json)) → DirectiveFreeItems (copiedMembers kindAt path t left p) →
      EnsuresAt left (mergeMembersInto kindAt path t p) DirectiveFreeFields
  | [], _ => ensuresAt_pure ht
  | (key, value) :: rest, h => by
    rw [copiedMembers, directiveFreeItems_append] at h
    refine EnsuresAt.bind (P := DirectiveFreeFields) ?_ ?_
    · apply free_mergeMember ht
      intro hkey
      refine free_mergeValue ht hkey h.1 ?_ ?_ ?_
      · exact fun validateRetain x hx => free_mergePatchInto _ validateRetain x left hx value
      · exact fun mergeKeys x hx => free_mergeArrayInto _ mergeKeys x left hx value
      · exact free_newValue _ left value
    · intro t' left' hmember ht'
      rw [upon_eq hmember] at h
      exact free_mergeMembersInto path t' left' ht' rest h.2
termination_by structural p => p

theorem free_mergeArrayInto (path : String) (mergeKeys : List String) (target : Json) (left : ℕ)
    (htarget : DirectiveFree target) : (value : Json) →
      DirectiveFreeItems (copiedArray kindAt path mergeKeys target left value) →
      EnsuresAt left (mergeArrayInto kindAt path mergeKeys target value) DirectiveFree
  | .arr items, h =>
    free_strategicMergeArray htarget (fun s left hs => free_mergeElementsInto path mergeKeys s left hs items) h
  | .null, _ | .bool _, _ | .num _, _ | .str _, _ | .obj _, _ => ensuresAt_pure htarget
termination_by structural value => value

theorem free_mergeElementsInto (path : String) (mergeKeys : List String) (s : Merging) (left : ℕ)
    (hs : DirectiveFreeItems s.arr) : (items : List Json) →
      DirectiveFreeItems (copiedElements kindAt path mergeKeys s left items) →
      EnsuresAt left (mergeElementsInto kindAt path mergeKeys s items) (fun s' => DirectiveFreeItems s'.arr)
  | [], _ => ensuresAt_pure hs
  | e :: rest, h => by
    rw [copiedElements, directiveFreeItems_append] at h
    rw [mergeElementsInto]
    refine EnsuresAt.bind (P := fun s' => DirectiveFreeItems s'.arr) ?_ ?_
    · exact free_mergeElement hs h.1 (fun x hx => free_mergePatchInto path true x left hx e) (free_newValue path left e)
    · intro s' left' helement hs'
      rw [upon_eq helement] at h
      exact free_mergeElementsInto path mergeKeys s' left' hs' rest h.2
termination_by structural items => items

theorem free_newValue (path : String) (left : ℕ) : (e : Json) → DirectiveFreeItems (copiedNew kindAt path left e) →
    EnsuresAt left (newValue kindAt path e) (fun o => ∀ v ∈ o, DirectiveFree v)
  | .obj p, h => by
    rw [copiedNew] at h
    rw [newValue]
    split_ifs at h ⊢
    · exact ensuresAt_pure (fun v hv => by cases hv)
    · refine EnsuresAt.bind (free_mergeObject (show DirectiveFree (.obj []) from trivial)
        (fun t left ht => free_mergeMembersInto path t left ht p) h) ?_
      intro v left' _ hv
      exact ensuresAt_pure (fun w hw => Option.mem_some.mp hw ▸ hv)
  | .arr items, h => by
    rw [copiedNew] at h
    refine (free_newItems path left items h).bind ?_
    intro out left' _ hout
    exact ensuresAt_pure (fun w hw => Option.mem_some.mp hw ▸ hout)
  | .null, _ | .bool _, _ | .num _, _ | .str _, _ =>
    ensuresAt_pure (fun w hw => Option.mem_some.mp hw ▸ trivial)
termination_by structural e => e

theorem free_newItems (path : String) (left : ℕ) : (items : List Json) →
    DirectiveFreeItems (copiedItems kindAt path left items) → EnsuresAt left (newItems kindAt path items) DirectiveFreeItems
  | [], _ => ensuresAt_pure trivial
  | e :: rest, h => by
    rw [copiedItems] at h
    rw [newItems]
    split_ifs at h ⊢
    · exact free_newItems path left rest h
    · rw [directiveFreeItems_append] at h
      refine (free_newValue path left e h.1).bind ?_
      intro o left₁ ho hfree
      rw [upon_eq ho] at h
      refine (free_newItems path left₁ rest h.2).bind ?_
      intro out left₂ _ hout
      refine ensuresAt_pure (directiveFreeItems_append.mpr ⟨?_, hout⟩)
      exact directiveFreeItems_iff.mpr (fun x hx => hfree x (Option.mem_toList.mp hx))
termination_by structural items => items

end

theorem no_directive_stored {target patch r : Json} {schema : Option Json} {ssa : Bool} {budget : ℕ}
    (htarget : DirectiveFree target)
    (hcopied : DirectiveFreeItems (copiedInto (mergeKeyForPath ssa schema) "" true target budget patch))
    (h : runStrategicMerge target patch schema ssa budget = .ok r) : DirectiveFree r := by
  unfold runStrategicMerge at h
  cases hmerge : mergePatchInto (mergeKeyForPath ssa schema) "" true target patch budget with
  | error e =>
    rw [hmerge] at h
    cases h
  | ok p =>
    rw [hmerge] at h
    cases h
    exact free_mergePatchInto "" true target budget htarget patch hcopied p hmerge

theorem no_directive_stored_volumes :
    let volume := fun name => Json.obj [("emptyDir", .obj []), ("name", .str name)]
    let target := Json.obj [("spec", .obj [("containers", .arr [.obj [("name", .str "old")]])])]
    let patch := Json.obj [("spec", .obj [("$setElementOrder/containers", .arr [.obj [("name", .str "app")]]),
      ("containers", .arr [.obj [("$patch", .str "delete"), ("name", .str "old")], .obj [("name", .str "app")]]),
      ("volumes", .arr [.obj [("$patch", .str "replace")], volume "data"])]),
      ("status", .obj [("$patch", .str "replace"), ("volumes", .arr [.obj [("$retainKeys", .arr [])]])])]
    ∃ r, copiedInto (mergeKeyForPath false none) "" true target MAX_WORK patch = [volume "data"] ∧
      runStrategicMerge target patch none false MAX_WORK = .ok r ∧ DirectiveFree r := by
  intro volume target patch
  have hcopied : copiedInto (mergeKeyForPath false none) "" true target MAX_WORK patch = [volume "data"] := by
    decide +kernel
  have hrun : runStrategicMerge target patch none false MAX_WORK = .ok (.obj [("spec", .obj [
      ("containers", .arr [.obj [("name", .str "app")]]), ("volumes", .arr [volume "data"])])]) := by decide +kernel
  refine ⟨_, hcopied, hrun, no_directive_stored ?_ ?_ hrun⟩
  · simp only [target, DirectiveFree, DirectiveFreeItems, DirectiveFreeFields]
    decide +kernel
  · rw [hcopied]
    simp only [volume, DirectiveFree, DirectiveFreeItems, DirectiveFreeFields]
    decide +kernel

theorem retainKeys_stored_in_replaced_list :
    let target := Json.obj [("spec", .obj [])]
    let patch := Json.obj [("spec", .obj [("volumes", .arr [.obj [("$patch", .str "replace")],
      .obj [("$retainKeys", .arr [.str "emptyDir", .str "name"]), ("emptyDir", .obj []), ("name", .str "data")]])])]
    let r := Json.obj [("spec", .obj [("volumes", .arr [
      .obj [("$retainKeys", .arr [.str "emptyDir", .str "name"]), ("emptyDir", .obj []), ("name", .str "data")]])])]
    DirectiveFree target ∧ runStrategicMerge target patch none false MAX_WORK = .ok r ∧ ¬DirectiveFree r := by
  refine ⟨?_, by decide +kernel, ?_⟩
  · simp only [DirectiveFree, DirectiveFreeFields]
    decide +kernel
  · simp only [DirectiveFree, DirectiveFreeItems, DirectiveFreeFields]
    decide +kernel

end U7s.Patch
