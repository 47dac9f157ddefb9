import U7s.Handlers.Namespaces
import U7s.Patch.MergePatch

namespace U7s.Handlers

open Store Programs Fallible Runs Option
open Rbac (vecOf stringOf defaulted)

variable {β : Type} (codec : JsonCodec β)

def Terminating (body : Json) : Prop :=
  (body.idx "metadata").idx "deletionTimestamp" ≠ .null ∧ (body.idx "status").idx "phase" = .str "Terminating"

def Edits (name : String) : NamespaceRequest → Json → Json → Option ℕ → Prop
  | .delete q, body, new, expected =>
    softDeleted q.now body = .ok new ∧ parseResourceVersion (resourceVersion new) = .ok expected
  | .finalize q, body, new, _ => q.edit body = .ok new
  | .patch q, body, new, expected =>
    q.edit name body = .ok new ∧ parseResourceVersion (resourceVersion new) = .ok expected

section Safe

variable {codec}

end Safe

theorem Terminating.congr (ht : Terminating body)
    (hd : (body'.idx "metadata").idx "deletionTimestamp" = (body.idx "metadata").idx "deletionTimestamp")
    (hs : (body'.idx "status").idx "phase" = (body.idx "status").idx "phase") : Terminating body' :=
  ⟨hd ▸ ht.1, hs.trans ht.2⟩

theorem Terminating.carries (ht : Terminating body) (hc : Carries body body') : Terminating body' := by
  obtain ⟨f, hother, hmeta⟩ := hc
  constructor
  · rw [hmeta _ (by decide), ne_eq, Json.mapFloats_eq_null]
    exact ht.1
  · rw [hother _ (by decide), Json.idx_mapFloats, ht.2]
    rfl

theorem stampDeletionTimestamp_idx (h : stampDeletionTimestamp now body = .ok body') :
    (∀ k ≠ "metadata", body'.idx k = body.idx k) ∧
      ((body.idx "metadata").idx "deletionTimestamp" ≠ .null → body' = body) ∧
      ∀ k ≠ "deletionTimestamp", (body'.idx "metadata").idx k = (body.idx "metadata").idx k := by
  unfold stampDeletionTimestamp at h
  split_ifs at h with hnull
  · obtain ⟨hother, -, hmeta⟩ := setMetadata_idx (panicOn_ok h)
    exact ⟨hother, fun hne => (hne hnull).elim, hmeta⟩
  · cases h
    exact ⟨fun _ _ => rfl, fun _ => rfl, fun _ _ => rfl⟩

theorem stampTerminating_idx (h : stampTerminating body = some body') :
    (∀ k ≠ "status", body'.idx k = body.idx k) ∧ (body'.idx "status").idx "phase" = .str "Terminating" := by
  obtain ⟨status, hst, hb⟩ := bind_eq_some_iff.mp h
  rw [Json.idx_setIdx hb]
  exact ⟨fun k hk => Json.idx_setIdx_ne hk hb, Json.idx_setIdx hst⟩

theorem softDeleted_terminating (h : softDeleted now body = .ok body') (ht : Terminating body) :
    Terminating body' := by
  obtain ⟨stamped, hst, h⟩ := except_bind_ok h
  obtain rfl := (stampDeletionTimestamp_idx hst).2.1 ht.1
  split_ifs at h
  · obtain ⟨hother, hphase⟩ := stampTerminating_idx (panicOn_ok h)
    exact ⟨by rw [hother _ (by decide)]; exact ht.1, hphase⟩
  · cases h
    exact ht

theorem softDeleted_resourceVersion (h : softDeleted now body = .ok body') :
    resourceVersion body' = resourceVersion body := by
  obtain ⟨stamped, hst, h⟩ := except_bind_ok h
  have hrv := (stampDeletionTimestamp_idx hst).2.2 "resourceVersion" (by decide)
  split_ifs at h
  · obtain ⟨hother, -⟩ := stampTerminating_idx (panicOn_ok h)
    rw [resourceVersion, hother _ (by decide), hrv, resourceVersion]
  · cases h
    rw [resourceVersion, hrv, resourceVersion]

theorem recordManagers_idx (managers : Option Json) (body : Json) :
    (∀ k ≠ "metadata", (recordManagers managers body).idx k = body.idx k) ∧
      ∀ k ≠ "managedFields",
        ((recordManagers managers body).idx "metadata").idx k = (body.idx "metadata").idx k := by
  unfold recordManagers
  split
  · split
    · next hm =>
      refine ⟨fun k hk => by simp [Json.idx, Json.get?, Json.lookup_insert_ne hk], fun k hk => ?_⟩
      cases managers with
      | none => simp [Json.idx, Json.get?, hm, Json.lookup_erase_ne hk]
      | some entries => simp [Json.idx, Json.get?, hm, Json.lookup_insert_ne hk]
    · exact ⟨fun _ _ => rfl, fun _ _ => rfl⟩
  · exact ⟨fun _ _ => rfl, fun _ _ => rfl⟩

theorem keepFinalizers_idx (h : keepFinalizers body mutated = some body') (hk : k ≠ "spec") :
    body'.idx k = body.idx k := by
  unfold keepFinalizers at h
  split at h
  · exact Json.idx_setIdx_ne hk h
  · obtain ⟨spec, -, hb⟩ := bind_eq_some_iff.mp h
    exact Json.idx_setIdx_ne hk hb

theorem finalize_idx {q : FinalizeRequest} (h : q.edit body = .ok body') :
    body'.idx "status" = body.idx "status" ∧
      ∀ k ≠ "managedFields", (body'.idx "metadata").idx k = (body.idx "metadata").idx k := by
  obtain ⟨candidate, -, h⟩ := except_bind_ok h
  obtain ⟨mutated, -, h⟩ := except_bind_ok h
  obtain ⟨admitted, ha, h⟩ := except_bind_ok h
  obtain ⟨-, -, h⟩ := except_bind_ok h
  cases h
  have hkeep := fun k hk => keepFinalizers_idx (panicOn_ok ha) (k := k) hk
  obtain ⟨hother, hmeta⟩ := recordManagers_idx (q.managers body admitted) admitted
  refine ⟨?_, fun k hk => ?_⟩
  · rw [hother _ (by decide), hkeep _ (by decide)]
  · rw [hmeta _ hk, hkeep _ (by decide)]

theorem restoreStatus_idx (h : restoreStatus body status = some body') :
    body'.idx "status" = status ∧ ∀ k ≠ "status", body'.idx k = body.idx k := by
  unfold restoreStatus at h
  split at h
  · cases h
    cases body with
    | obj fs =>
      exact ⟨by simp [Json.idx, Json.get?, Json.lookup_erase_self],
        fun k hk => by simp [Json.idx, Json.get?, Json.lookup_erase_ne hk]⟩
    | _ => exact ⟨rfl, fun _ _ => rfl⟩
  · exact ⟨Json.idx_setIdx h, fun k hk => Json.idx_setIdx_ne hk h⟩

theorem enforcePatchIdentity_idx (h : enforcePatchIdentity name body = .ok body') :
    ∀ k ≠ "namespace", (body'.idx "metadata").idx k = (body.idx "metadata").idx k := by
  unfold enforcePatchIdentity at h
  split at h
  · split at h
    · next hl =>
      dsimp only at h
      split_ifs at h
      cases h
      intro k hk
      simp [Json.idx, Json.get?, hl, Json.lookup_erase_ne hk]
    · cases h
  · cases h

theorem setMetadata_isObject (h : setMetadata body field v = some body') : ∃ md, body'.idx "metadata" = .obj md := by
  obtain ⟨m, hm, hb⟩ := bind_eq_some_iff.mp h
  rw [Json.idx_setIdx hb]
  cases hmd : body.idx "metadata" <;> simp_all [Json.setIdx] <;> exact ⟨_, hm.symm⟩

/-- The patch changes `metadata.finalizers` alone, and the webhooks leave it and what the handler relies on. -/
structure NamespacePatch.FinalizersOnly (q : NamespacePatch) : Prop where
  merge : ∀ stored merged, q.merge stored = .ok merged → (∀ k ≠ "metadata", merged.idx k = stored.idx k) ∧
    ∀ k ≠ "finalizers", (merged.idx "metadata").idx k = (stored.idx "metadata").idx k
  mutate : ∀ body body', q.mutate body = .ok body' → ∀ k ∈ ["deletionTimestamp", "resourceVersion", "finalizers"],
    (body'.idx "metadata").idx k = (body.idx "metadata").idx k

theorem NamespacePatch.FinalizersOnly.edit_idx {q : NamespacePatch} (hq : q.FinalizersOnly)
    (h : q.edit name stored = .ok new) :
    new.idx "status" = stored.idx "status" ∧ deletionMark new = deletionMark stored ∧
      resourceVersion new = resourceVersion stored ∧
      ∃ merged, q.merge stored = .ok merged ∧ finalizersOf new = finalizersOf merged := by
  obtain ⟨merged, hmerge, h⟩ := except_bind_ok h
  obtain ⟨withUid, huid, h⟩ := except_bind_ok h
  obtain ⟨named, hnamed, h⟩ := except_bind_ok h
  obtain ⟨restored, hrestored, h⟩ := except_bind_ok h
  obtain ⟨mutated, hmutated, h⟩ := except_bind_ok h
  obtain ⟨final, hfinal, h⟩ := except_bind_ok h
  obtain ⟨-, -, h⟩ := except_bind_ok h
  cases h
  obtain ⟨-, hmerged⟩ := hq.merge stored merged hmerge
  obtain ⟨-, -, hkept⟩ := setMetadata_idx (panicOn_ok huid)
  obtain ⟨hstatus, hrest⟩ := restoreStatus_idx (panicOn_ok hfinal)
  obtain ⟨hother, hmeta⟩ := recordManagers_idx (q.managers stored final) final
  have hpinned : ∀ k ∈ ["deletionTimestamp", "resourceVersion", "finalizers"],
      ((recordManagers (q.managers stored final) final).idx "metadata").idx k =
        ((pinServerOwnedDeletionFields withUid (some stored)).idx "metadata").idx k := by
    intro k hk
    have hne : k ≠ "managedFields" ∧ k ≠ "namespace" := by
      revert k
      decide
    rw [hmeta k hne.1, hrest _ (by decide), hq.mutate _ _ hmutated k hk,
      (restoreStatus_idx (panicOn_ok hrestored)).2 _ (by decide), enforcePatchIdentity_idx hnamed k hne.2]
  obtain ⟨md, hmd⟩ := setMetadata_isObject (panicOn_ok huid)
  refine ⟨by rw [hother _ (by decide), hstatus], ?_, ?_, merged, hmerge, ?_⟩
  · rw [deletionMark, hpinned _ (by decide)]
    exact deletionMark_pin hmd (some stored)
  · rw [resourceVersion, hpinned _ (by decide), idx_pin_ne _ _ (by decide) (by decide), hkept _ (by decide),
      hmerged _ (by decide), resourceVersion]
  · rw [finalizersOf, hpinned _ (by decide), idx_pin_ne _ _ (by decide) (by decide), hkept _ (by decide), finalizersOf]

structure Readable (body : Json) : Prop where
  kind : isNamespaceKind body = true
  metadata : (ObjectMeta.fromValue (body.idx "metadata")).isSome
  spec : ∀ fs, body.idx "spec" = .obj fs →
    (optional (vecOf stringOf) (Json.lookup "finalizers" fs)).isSome

/-- `metadata.finalizers` of the namespace that a `finalize` reads is empty, and a patch leaves it so. -/
def NamespaceRequest.LeavesNone : NamespaceRequest → Json → Prop
  | .delete _, _ => True
  | .finalize _, body => finalizersOf body = []
  | .patch q, body => ∀ merged, q.merge body = .ok merged → finalizersOf merged = []

section Steps

variable {codec}

theorem Edits.terminating (hq : ∀ p, q = .patch p → p.FinalizersOnly)
    (he : Edits name q body new expected) (ht : Terminating body) : Terminating new := by
  cases q with
  | delete q => exact softDeleted_terminating he.1 ht
  | finalize q =>
    obtain ⟨hstatus, hmeta⟩ := finalize_idx he
    exact ht.congr (hmeta _ (by decide)) (by rw [hstatus])
  | patch q =>
    obtain ⟨hstatus, hmark, -⟩ := (hq q rfl).edit_idx he.1
    exact ht.congr hmark (by rw [hstatus])

theorem Edits.finalizersOf_eq_nil (hq : ∀ p, q = .patch p → p.FinalizersOnly) (hd : ∀ d, q ≠ .delete d)
    (he : Edits name q body new expected) (hnone : q.LeavesNone body) : finalizersOf new = [] := by
  cases q with
  | delete d => exact (hd d rfl).elim
  | finalize q =>
    rw [finalizersOf, (finalize_idx he).2 _ (by decide)]
    exact hnone
  | patch q =>
    obtain ⟨-, -, -, merged, hmerge, hfin⟩ := (hq q rfl).edit_idx he.1
    rw [hfin]
    exact hnone merged hmerge

end Steps

end U7s.Handlers
