import U7s.Patch.Members

/-! JSON merge patches, beside the function that RFC 7396 gives for them. -/

namespace U7s.Patch

open Json Option

mutual

def mergePatch (target : Json) : Json → Json
  | .obj p =>
    match target with
    | .obj t => .obj (mergeMembers t p)
    | _ => .obj p
  | p => p

def mergeMembers (t : List (String × Json)) : List (String × Json) → List (String × Json)
  | [] => t
  | (k, v) :: p =>
    mergeMembers
      (if v = .null then if k ≠ "creationTimestamp" then erase k t else t
      else if v.isObject then Json.insert k (mergePatch ((lookup k t).getD (.obj [])) v) t
      else Json.insert k v t) p

end

mutual

def rfcMergePatch (target : Json) : Json → Json
  | .obj p =>
    match target with
    | .obj t => .obj (rfcMembers t p)
    | _ => .obj (rfcMembers [] p)
  | p => p

def rfcMembers (t : List (String × Json)) : List (String × Json) → List (String × Json)
  | [] => t
  | (k, v) :: p =>
    rfcMembers
      (if v = .null then erase k t
      else Json.insert k (rfcMergePatch ((lookup k t).getD .null) v) t) p

end

mutual

def NoNulls : Json → Prop
  | .obj p => NoNullMembers p
  | _ => True

def NoNullMembers : List (String × Json) → Prop
  | [] => True
  | (_, v) :: p => v ≠ .null ∧ NoNulls v ∧ NoNullMembers p

end

mutual

def MeetsCleanly (target : Json) : Json → Prop
  | .obj p =>
    match target with
    | .obj t => MembersMeetCleanly t p
    | _ => NoNullMembers p
  | _ => True

def MembersMeetCleanly (t : List (String × Json)) : List (String × Json) → Prop
  | [] => True
  | (k, v) :: p => MeetsCleanly ((lookup k t).getD (.obj [])) v ∧ MembersMeetCleanly t p

end

mutual

def Lacks (key : String) : Json → Prop
  | .arr xs => ItemsLack key xs
  | .obj fs => MembersLack key fs
  | _ => True

def ItemsLack (key : String) : List Json → Prop
  | [] => True
  | x :: xs => Lacks key x ∧ ItemsLack key xs

def MembersLack (key : String) : List (String × Json) → Prop
  | [] => True
  | (k, v) :: fs => k ≠ key ∧ Lacks key v ∧ MembersLack key fs

end

theorem lookup_mergeMembers (hp : Sorted p) (hct : lookup "creationTimestamp" p = none) (k : String) :
    lookup k (mergeMembers t p) = (lookup k p).elim (lookup k t) (fun v =>
      if v = .null then none
      else if v.isObject then some (mergePatch ((lookup k t).getD (.obj [])) v) else some v) := by
  induction p generalizing t with
  | nil => rfl
  | cons f p ih =>
    obtain ⟨l, v⟩ := f
    obtain ⟨hlt, hp⟩ := List.pairwise_cons.mp hp
    rw [lookup] at hct
    split_ifs at hct with hl
    rw [mergeMembers, ih hp hct, lookup]
    by_cases hk : l = k
    · subst hk
      rw [lookup_eq_none_of_lt hlt]
      by_cases hv : v = .null
      · simp [hv, hl, lookup_erase]
      · by_cases ho : v.isObject = true <;> simp [hv, ho]
    · have hstep : lookup k (if v = .null then if l ≠ "creationTimestamp" then erase l t else t
          else if v.isObject then insert l (mergePatch ((lookup l t).getD (.obj [])) v) t
          else insert l v t) = lookup k t := by
        split_ifs
        · exact lookup_erase_ne (Ne.symm hk) t
        · exact lookup_insert_ne (Ne.symm hk) _ t
        · exact lookup_insert_ne (Ne.symm hk) _ t
      rw [if_neg hk, hstep]

theorem lookup_rfcMembers (hp : Sorted p) (k : String) :
    lookup k (rfcMembers t p) = (lookup k p).elim (lookup k t) (fun v =>
      if v = .null then none else some (rfcMergePatch ((lookup k t).getD .null) v)) := by
  induction p generalizing t with
  | nil => rfl
  | cons f p ih =>
    obtain ⟨l, v⟩ := f
    obtain ⟨hlt, hp⟩ := List.pairwise_cons.mp hp
    rw [rfcMembers, ih hp, lookup]
    by_cases hk : l = k
    · subst hk
      rw [lookup_eq_none_of_lt hlt]
      by_cases hv : v = .null
      · simp [hv, lookup_erase]
      · simp [hv]
    · have hstep : lookup k (if v = .null then erase l t
          else insert l (rfcMergePatch ((lookup l t).getD .null) v) t) = lookup k t := by
        split_ifs
        · exact lookup_erase_ne (Ne.symm hk) t
        · exact lookup_insert_ne (Ne.symm hk) _ t
      rw [if_neg hk, hstep]

theorem sorted_mergeMembers (ht : Sorted t) : Sorted (mergeMembers t p) := by
  induction p generalizing t with
  | nil => exact ht
  | cons f p ih =>
    apply ih
    split_ifs
    · exact ht.erase
    · exact ht
    · exact ht.insert
    · exact ht.insert

theorem sorted_rfcMembers (ht : Sorted t) : Sorted (rfcMembers t p) := by
  induction p generalizing t with
  | nil => exact ht
  | cons f p ih =>
    apply ih
    split_ifs
    · exact ht.erase
    · exact ht.insert

theorem membersMeetCleanly_iff (hp : Sorted p) : MembersMeetCleanly t p ↔
    ∀ k v, lookup k p = some v → MeetsCleanly ((lookup k t).getD (.obj [])) v := by
  induction p with
  | nil => simp [MembersMeetCleanly, lookup]
  | cons f p ih =>
    obtain ⟨l, w⟩ := f
    obtain ⟨hlt, hp⟩ := List.pairwise_cons.mp hp
    rw [MembersMeetCleanly, ih hp]
    constructor
    · rintro ⟨hw, h⟩ k v hk
      rw [lookup] at hk
      split_ifs at hk with hl
      · cases hk
        exact hl ▸ hw
      · exact h k v hk
    · intro h
      refine ⟨h l w (by simp [lookup]), fun k v hk => h k v ?_⟩
      rw [lookup, if_neg (hlt _ (mem_of_lookup hk)).ne, hk]

theorem noNullMembers_iff (hp : Sorted p) : NoNullMembers p ↔
    ∀ k v, lookup k p = some v → v ≠ .null ∧ NoNulls v := by
  induction p with
  | nil => simp [NoNullMembers, lookup]
  | cons f p ih =>
    obtain ⟨l, w⟩ := f
    obtain ⟨hlt, hp⟩ := List.pairwise_cons.mp hp
    rw [NoNullMembers, ih hp]
    constructor
    · rintro ⟨hw, hw', h⟩ k v hk
      rw [lookup] at hk
      split_ifs at hk
      · cases hk
        exact ⟨hw, hw'⟩
      · exact h k v hk
    · intro h
      obtain ⟨hw, hw'⟩ := h l w (by simp [lookup])
      refine ⟨hw, hw', fun k v hk => h k v ?_⟩
      rw [lookup, if_neg (hlt _ (mem_of_lookup hk)).ne, hk]

theorem MembersLack.of_lookup (h : MembersLack key p) (hk : lookup k p = some v) : k ≠ key ∧ Lacks key v := by
  induction p with
  | nil => cases hk
  | cons f p ih =>
    rw [lookup] at hk
    split_ifs at hk with hl
    · cases hk
      exact ⟨hl ▸ h.1, h.2.1⟩
    · exact ih h.2.2 hk

theorem MembersLack.lookup_eq_none (h : MembersLack key p) : lookup key p = none := by
  cases hk : lookup key p with
  | none => rfl
  | some v => exact absurd rfl (h.of_lookup hk).1

theorem rfcMergePatch_null_eq_iff (hv : v.Ordered) : rfcMergePatch .null v = v ↔ NoNulls v := by
  induction hd : v.depth using Nat.strong_induction_on generalizing v with
  | _ n ih =>
    cases v with
    | obj p =>
      have hrfc : rfcMergePatch .null (.obj p) = .obj (rfcMembers [] p) := rfl
      rw [hrfc, NoNulls, noNullMembers_iff hv.1, obj.injEq]
      have hmember : ∀ k v, lookup k p = some v → (rfcMergePatch .null v = v ↔ NoNulls v) :=
        fun k v hk => ih _ (hd ▸ depth_lt_of_lookup hk) (hv.2.of_lookup hk) rfl
      constructor
      · intro h k v hk
        have hl := lookup_rfcMembers (t := []) hv.1 k
        rw [h, hk, elim_some] at hl
        split_ifs at hl with hn
        exact ⟨hn, (hmember k v hk).mp (some.inj hl).symm⟩
      · intro h
        apply (sorted_rfcMembers List.Pairwise.nil).ext hv.1
        intro k
        rw [lookup_rfcMembers hv.1]
        cases hk : lookup k p with
        | none => rfl
        | some v =>
          obtain ⟨hn, hnn⟩ := h k v hk
          rw [elim_some, if_neg hn]
          exact congrArg some ((hmember k v hk).mpr hnn)
    | _ => simp [rfcMergePatch, NoNulls]

theorem rfcMergePatch_missing (v : Json) : rfcMergePatch (.obj []) v = rfcMergePatch .null v := by
  cases v <;> simp [rfcMergePatch]

theorem rfcMergePatch_getD (o : Option Json) (v : Json) :
    rfcMergePatch (o.getD .null) v = rfcMergePatch (o.getD (.obj [])) v := by
  cases o with
  | none => exact (rfcMergePatch_missing v).symm
  | some w => rfl

theorem mergePatch_eq_rfc_iff (ht : target.Ordered) (hp : patch.Ordered) (hct : Lacks "creationTimestamp" patch) :
    mergePatch target patch = rfcMergePatch target patch ↔ MeetsCleanly target patch := by
  induction hd : patch.depth using Nat.strong_induction_on generalizing patch target with
  | _ n ih =>
    cases patch with
    | obj p =>
      cases target with
      | obj t =>
        have hct' : lookup "creationTimestamp" p = none := MembersLack.lookup_eq_none hct
        have hmember : ∀ k v, lookup k p = some v →
            (mergePatch ((lookup k t).getD (.obj [])) v = rfcMergePatch ((lookup k t).getD .null) v ↔
              MeetsCleanly ((lookup k t).getD (.obj [])) v) := by
          intro k v hk
          rw [rfcMergePatch_getD]
          exact ih _ (hd ▸ depth_lt_of_lookup hk) (ht.2.getD_lookup k) (hp.2.of_lookup hk)
            (MembersLack.of_lookup hct hk).2 rfl
        have hscalar : ∀ (o : Option Json) v, v ≠ .null → v.isObject = false →
            rfcMergePatch (o.getD .null) v = v := by
          intro o v _ ho
          cases v <;> simp_all [rfcMergePatch, isObject]
        rw [mergePatch, rfcMergePatch, MeetsCleanly, membersMeetCleanly_iff hp.1, obj.injEq]
        constructor
        · intro h k v hk
          have hl := lookup_mergeMembers (t := t) hp.1 hct' k
          rw [h, lookup_rfcMembers hp.1, hk] at hl
          cases v with
          | obj fs => exact (hmember k _ hk).mp (some.inj hl).symm
          | _ => trivial
        · intro h
          apply (sorted_mergeMembers ht.1).ext (sorted_rfcMembers ht.1)
          intro k
          rw [lookup_mergeMembers hp.1 hct', lookup_rfcMembers hp.1]
          cases hk : lookup k p with
          | none => rfl
          | some v =>
            rw [elim_some, elim_some]
            split_ifs with hn ho
            · rfl
            · rw [(hmember k v hk).mpr (h k v hk)]
            · rw [hscalar _ v hn (Bool.eq_false_iff.mpr ho)]
      | _ =>
        have hself := rfcMergePatch_null_eq_iff hp
        rw [NoNulls] at hself
        rw [MeetsCleanly, ← hself]
        · exact eq_comm
        all_goals simp
    | _ => simp [mergePatch, rfcMergePatch, MeetsCleanly]

theorem NoNulls.at_ne_null (hv : v.Ordered) (h : NoNulls v) (hn : v ≠ .null) : v.at? ks ≠ some .null := by
  induction ks generalizing v with
  | nil => simpa [at?] using hn
  | cons k ks ih =>
    cases v with
    | obj p =>
      rw [at?, get?]
      cases hk : lookup k p with
      | none => simp
      | some w =>
        obtain ⟨hw, hnn⟩ := (noNullMembers_iff hv.1).mp h k w hk
        exact ih (hv.2.of_lookup hk) hnn hw
    | _ => simp [at?, get?]

theorem at_mergePatch_null (hp : patch.Ordered) (hct : Lacks "creationTimestamp" patch)
    (h : MeetsCleanly target patch) (hnull : patch.at? (k :: ks) = some .null) :
    (mergePatch target patch).at? (k :: ks) = none := by
  induction ks generalizing target patch k with
  | nil =>
    cases patch with
    | obj p =>
      have hk : lookup k p = some .null := by simpa [at?, get?] using hnull
      cases target with
      | obj t =>
        rw [mergePatch, at?, get?, lookup_mergeMembers hp.1 (MembersLack.lookup_eq_none hct), hk]
        rfl
      | _ => exact absurd rfl ((noNullMembers_iff hp.1).mp h k _ hk).1
    | _ => simp [at?, get?] at hnull
  | cons l ks ih =>
    cases patch with
    | obj p =>
      rw [at?, get?] at hnull
      obtain ⟨v, hk, hv⟩ := bind_eq_some_iff.mp hnull
      cases target with
      | obj t =>
        obtain ⟨fs, rfl⟩ : ∃ fs, v = .obj fs := by
          cases v <;> simp_all [at?, get?]
        rw [mergePatch, at?, get?, lookup_mergeMembers hp.1 (MembersLack.lookup_eq_none hct), hk]
        exact ih (hp.2.of_lookup hk) (MembersLack.of_lookup hct hk).2 ((membersMeetCleanly_iff hp.1).mp h k _ hk) hv
      | _ =>
        obtain ⟨hne, hnn⟩ := (noNullMembers_iff hp.1).mp h k v hk
        exact absurd hv (hnn.at_ne_null (hp.2.of_lookup hk) hne)
    | _ => simp [at?, get?] at hnull

theorem mergePatch_self (hv : v.Ordered) (hct : Lacks "creationTimestamp" v) (h : NoNulls v) :
    mergePatch v v = v := by
  induction hd : v.depth using Nat.strong_induction_on generalizing v with
  | _ n ih =>
    cases v with
    | obj p =>
      rw [mergePatch, obj.injEq]
      apply (sorted_mergeMembers hv.1).ext hv.1
      intro k
      rw [lookup_mergeMembers hv.1 (MembersLack.lookup_eq_none hct)]
      cases hk : lookup k p with
      | none => rfl
      | some w =>
        obtain ⟨hw, hnn⟩ := (noNullMembers_iff hv.1).mp h k w hk
        rw [elim_some, if_neg hw, getD_some,
          ih _ (hd ▸ depth_lt_of_lookup hk) (hv.2.of_lookup hk) (MembersLack.of_lookup hct hk).2 hnn rfl, ite_self]
    | _ => rfl

theorem mergePatch_twice (ht : target.Ordered) (hp : patch.Ordered) (hct : Lacks "creationTimestamp" patch)
    (h : MeetsCleanly target patch) : mergePatch (mergePatch target patch) patch = mergePatch target patch := by
  induction hd : patch.depth using Nat.strong_induction_on generalizing patch target with
  | _ n ih =>
    cases patch with
    | obj p =>
      cases target with
      | obj t =>
        have hct' : lookup "creationTimestamp" p = none := MembersLack.lookup_eq_none hct
        rw [mergePatch, mergePatch, obj.injEq]
        have hs := sorted_mergeMembers (p := p) ht.1
        apply (sorted_mergeMembers hs).ext hs
        intro k
        rw [lookup_mergeMembers hp.1 hct', lookup_mergeMembers hp.1 hct']
        cases hk : lookup k p with
        | none => rfl
        | some v =>
          simp only [elim_some]
          split_ifs with hn ho
          · rfl
          · rw [getD_some, ih _ (hd ▸ depth_lt_of_lookup hk) (ht.2.getD_lookup k) (hp.2.of_lookup hk)
              (MembersLack.of_lookup hct hk).2 ((membersMeetCleanly_iff hp.1).mp h k v hk) rfl]
          · rfl
      | _ => exact mergePatch_self hp hct h
    | _ => rfl

/-- The result is the RFC's, without nulls and final, exactly if no object with nulls meets a value that is no
object. -/
theorem merge_patch_rfc_iff (target patch : Json) (ht : target.Ordered) (hp : patch.Ordered)
    (hct : Lacks "creationTimestamp" target ∧ Lacks "creationTimestamp" patch) :
    (mergePatch target patch = rfcMergePatch target patch ∧
      (∀ k ks, patch.at? (k :: ks) = some .null → (mergePatch target patch).at? (k :: ks) = none) ∧
      mergePatch (mergePatch target patch) patch = mergePatch target patch) ↔
    MeetsCleanly target patch := by
  constructor
  · rintro ⟨h, -⟩
    exact (mergePatch_eq_rfc_iff ht hp hct.2).mp h
  · intro h
    exact ⟨(mergePatch_eq_rfc_iff ht hp hct.2).mpr h, fun k ks hnull => at_mergePatch_null hp hct.2 h hnull,
      mergePatch_twice ht hp hct.2 h⟩

theorem null_survives_in_place_of_text :
    mergePatch (.obj [("a", .str "x")]) (.obj [("a", .obj [("b", .null)])]) =
        .obj [("a", .obj [("b", .null)])] ∧
    rfcMergePatch (.obj [("a", .str "x")]) (.obj [("a", .obj [("b", .null)])]) = .obj [("a", .obj [])] ∧
    mergePatch (.obj [("a", .obj [("b", .null)])]) (.obj [("a", .obj [("b", .null)])]) = .obj [("a", .obj [])] := by
  decide +kernel

theorem merge_patch_rfc_nested :
    mergePatch (.obj [("a", .obj [("b", .str "x"), ("c", .str "y")])])
        (.obj [("a", .obj [("b", .null)]), ("d", .obj [("e", .null)])]) =
      rfcMergePatch (.obj [("a", .obj [("b", .str "x"), ("c", .str "y")])])
        (.obj [("a", .obj [("b", .null)]), ("d", .obj [("e", .null)])]) := by
  refine ((merge_patch_rfc_iff _ _ ?_ ?_ ?_).mpr ?_).1
  · simp only [Ordered, OrderedFields, Sorted]
    decide +kernel
  · simp only [Ordered, OrderedFields, Sorted]
    decide +kernel
  · simp [Lacks, MembersLack]
  · simp [MeetsCleanly, MembersMeetCleanly, lookup]

end U7s.Patch
