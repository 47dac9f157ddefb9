import U7s.Handlers.Finalizers
import U7s.Rbac.Convergence

namespace U7s.Handlers

open Store Programs Fallible Runs Rbac

variable {β : Type} (codec : JsonCodec β)

def target : RbacRef → Target
  | .clusterRole name => ⟨RBAC_GROUP, "v1", "clusterroles", none, name.text, "ClusterRole"⟩
  | .clusterRoleBinding name =>
    ⟨RBAC_GROUP, "v1", "clusterrolebindings", none, name.text, "ClusterRoleBinding"⟩
  | .role ns name => ⟨RBAC_GROUP, "v1", "roles", some ns.text, name.text, "Role"⟩
  | .roleBinding ns name => ⟨RBAC_GROUP, "v1", "rolebindings", some ns.text, name.text, "RoleBinding"⟩

theorem target_rbacKey (r : RbacRef) : (target r).rbacKey = r.key := by
  have hcr : "/apis/" ++ RBAC_GROUP ++ "/" ++ "v1" ++ "/" ++ "clusterroles" =
    "/apis/rbac.authorization.k8s.io/v1/clusterroles" := by decide +kernel
  have hcrb : "/apis/" ++ RBAC_GROUP ++ "/" ++ "v1" ++ "/" ++ "clusterrolebindings" =
    "/apis/rbac.authorization.k8s.io/v1/clusterrolebindings" := by decide +kernel
  have hns : "/apis/" ++ RBAC_GROUP ++ "/" ++ "v1" ++ "/namespaces/" =
    "/apis/rbac.authorization.k8s.io/v1/namespaces" ++ "/" := by decide +kernel
  unfold target Target.rbacKey RbacRef.key
  cases r with
  | clusterRole name =>
    rw [rbacClusterKey, hcr]
  | clusterRoleBinding name =>
    rw [rbacClusterKey, hcrb]
  | role ns name | roleBinding ns name =>
    dsimp only
    rw [rbacNamespacedKey, hns]

def IndexGuard (t : Target) (h : History β) (o : AppOp β) : Prop :=
  ¬ Applied h ∧ match o with
    | .put key _ _ => key = t.key
    | .createIfNamespaceActive _ key _ => key = t.key
    | .applyObject key _ => key = t.rbacKey ∧ Stored t h
    | .removeObject key => key = t.rbacKey
    | _ => True

variable {codec} in
theorem program_ends (q : ObjectRequest) (hg : t.group = RBAC_GROUP) :
    (q.program codec t).Keeps (IndexGuard t) (Ends q) [] := by
  refine Prog.Keeps.mono (program_serves q t) (fun h o hG => ⟨hG.1, ?_⟩) (fun _ _ hends => hends hg)
  cases o with
  | put key value expected | createIfNamespaceActive nsKey key value => exact hG.2.1
  | applyObject key body | removeObject key => exact hG.2
  | _ => trivial

def served (t : Target) (s : AppState β) (a : ObjectRequest × (ℕ → List Bool)) :
    AppState β × Except Failure Json :=
  (a.1.program codec t).eval (exec codec) a.2 0 s

def serve (t : Target) (s : AppState β) (a : ObjectRequest × (ℕ → List Bool)) : AppState β :=
  (served codec t s a).1

/-- The request has something to store in the place of the row: it is not refused there, and it does not take the
last finalizer off a deleted object. -/
def ObjectRequest.Updates (t : Target) (row : Option (Row β)) : ObjectRequest → Prop
  | .delete _ => False
  | .replace q => ∃ expected new, parseResourceVersion (resourceVersion q.body) = .ok expected ∧
      let old := row.bind (fun row => codec.fromSlice row.value)
      checkReplaceResourceVersionPrecondition t expected old = .ok () ∧ q.edit old = .ok new ∧
        ¬((old.isSome || t.ns.isNone) && finalizerDrainComplete new)
  | .patch q => match row with
    | none => q.isSsa ∧ ∃ new, q.create = .ok new
    | some row => ∃ stored body new expected, codec.fromSlice row.value = some stored ∧ q.edit stored = .ok body ∧
        ¬finalizerDrainComplete body ∧ q.admission stored body = .ok new ∧
        parseResourceVersion (resourceVersion new) = .ok expected ∧
        checkExpected t.key (some row.revision) expected = .ok ()

/-- A `DELETE`, a dry run, a request whose read fails, or one with nothing to store over what it reads. -/
def NoUpdate (t : Target) (s : AppState β) (a : ObjectRequest × (ℕ → List Bool)) : Prop :=
  a.1.dryRun ∨ (a.2 0).headD false ∨ ¬a.1.Updates codec t (s.db.objects.lookup t.key)

variable {codec}

section Leaves

variable {fates : ℕ → List Bool} {n : ℕ} {s : AppState β}

def Leaves (codec : JsonCodec β) (t : Target) (fates : ℕ → List Bool) (n : ℕ) (s : AppState β) (x : Handler β Json) :
    Prop :=
  (∃ e, (x.run.eval (exec codec) fates n s).2 = .error e) ∨
    (x.run.eval (exec codec) fates n s).1.db.objects.lookup t.key = none

theorem leaves_attempt {α : Type} {x : Except Failure α} {f : α → Handler β Json}
    (hf : ∀ a, x = .ok a → Leaves codec t fates n s (f a)) : Leaves codec t fates n s (attempt x >>= f) := by
  cases x with
  | error e => exact .inl ⟨e, rfl⟩
  | ok a => exact hf a rfl

theorem leaves_ite {c : Prop} [Decidable c] (hx : c → Leaves codec t fates n s x)
    (hy : ¬c → Leaves codec t fates n s y) : Leaves codec t fates n s (if c then x else y) := by
  split_ifs with hc
  · exact hx hc
  · exact hy hc

theorem leaves_request {f : o.Reply → Handler β Json} (he : exec codec s o (fates n) = (s', r))
    (hf : Leaves codec t fates (n + 1) s' (f r)) : Leaves codec t fates n s (request o >>= f) := by
  show Leaves codec t fates (n + 1) (exec codec s o (fates n)).1 (f (exec codec s o (fates n)).2)
  rw [he]
  exact hf

theorem leaves_get {f : Except StoreError (Option (Row β)) → Handler β Json}
    (herr : Leaves codec t fates (n + 1) s (f (.error .sqlite)))
    (hok : ¬(fates n).headD false → Leaves codec t fates (n + 1) s (f (.ok (s.db.objects.lookup t.key)))) :
    Leaves codec t fates n s (storeGet t.key >>= f) := by
  by_cases hread : (fates n).headD false
  · exact leaves_request (congrArg (Prod.mk s) (if_pos hread)) herr
  · exact leaves_request (congrArg (Prod.mk s) (if_neg hread)) (hok hread)

theorem leaves_load {f : Row β → Handler β Json} (hrow : s.db.objects.lookup t.key = some row)
    (hf : Leaves codec t fates (n + 1) s (f row)) : Leaves codec t fates n s (loadStored t >>= f) := by
  refine leaves_get (f := fun r => (_ : Handler β (Row β)) >>= f) (.inl ⟨_, rfl⟩) (fun _ => ?_)
  rw [hrow]
  exact hf

theorem leaves_drain (hg : t.group = RBAC_GROUP) :
    Leaves codec t fates n s (completeFinalizerDrain t >>= fun _ => pure body) := by
  have hservices : ¬(t.group = "" ∧ t.plural = "services") := fun h => absurd (hg ▸ h.1) (by decide)
  unfold completeFinalizerDrain evictFromIndex
  rw [if_neg hservices, if_pos hg]
  show Leaves codec t fates n s (storeDelete t.key none >>= fun r =>
    (attempt (t.report r) >>= fun _ => rbacRemoveObject t.rbacKey) >>= fun _ => pure body)
  obtain ⟨e, he⟩ | ⟨row, -, -, he⟩ := exec_delete codec s t.key (fates n) none
  · exact leaves_request he (.inl ⟨_, rfl⟩)
  · exact leaves_request he (.inr (AList.lookup_erase _ _))

section Patch

variable {row : Row β} {q : PatchRequest} (hg : t.group = RBAC_GROUP) (hd : q.dryRun = false)
  (hrow : s.db.objects.lookup t.key = some row) (hnone : ¬ObjectRequest.Updates codec t (some row) (.patch q))
include hg hd hrow hnone

theorem leaves_patchAttempt (hconflict : ∀ n e c, Leaves codec t fates n s (conflict e c)) :
    Leaves codec t fates n s (patchAttempt codec t q row conflict) := by
  refine leaves_attempt (fun stored hstored => leaves_attempt (fun body hedit => ?_))
  refine leaves_ite (fun _ => ?_) (fun hdrain => leaves_attempt (fun new hnew => ?_))
  · rw [unlessDryRun, hd]
    exact leaves_drain hg
  · refine leaves_ite (fun hdry => absurd hdry (Bool.eq_false_iff.mp hd)) (fun _ => ?_)
    refine leaves_attempt (fun expected hexpected => ?_)
    have hstale : checkExpected t.key (some row.revision) expected ≠ .ok () := fun hcheck =>
      hnone ⟨stored, body, new, expected, fromBytes_ok hstored, hedit, hdrain, hnew, hexpected, hcheck⟩
    obtain ⟨e, he⟩ | ⟨row', hrow', hcheck, -⟩ | ⟨-, -, -, hcheck, -⟩ :=
      exec_put codec s t.key (fates n) (codec.toVec new) expected
    · refine leaves_request he ?_
      cases e with
      | revisionMismatch e c => exact hconflict _ e c
      | _ => exact .inl ⟨_, rfl⟩
    · rw [hrow, Option.some.injEq] at hrow'
      exact absurd hcheck (hrow' ▸ hstale)
    · rw [hrow] at hcheck
      exact absurd hcheck hstale

theorem leaves_patchLoop (retries : ℕ) : Leaves codec t fates n s (patchLoop codec t q retries row) := by
  induction retries generalizing n with
  | zero => exact leaves_patchAttempt hg hd hrow hnone (fun _ _ _ => .inl ⟨_, rfl⟩)
  | succ retries ih =>
    exact leaves_patchAttempt hg hd hrow hnone (fun _ _ _ => leaves_load hrow ih)

end Patch

theorem leaves_of_noUpdate (hg : t.group = RBAC_GROUP) (hC : NoUpdate codec t s a) (hd : a.1.dryRun = false)
    (hq : ∀ d, a.1 ≠ .delete d) : Leaves codec t a.2 0 s (a.1.handler codec t) := by
  have hnone : ¬(a.2 0).headD false → ¬a.1.Updates codec t (s.db.objects.lookup t.key) := fun hread =>
    (hC.resolve_left (by simp [hd])).resolve_left hread
  obtain ⟨q, fates⟩ := a
  cases q with
  | delete d => exact (hq d rfl).elim
  | replace q =>
    refine leaves_attempt (fun expected hexpected => leaves_get (.inl ⟨_, rfl⟩) (fun hread => ?_))
    refine leaves_attempt (fun _ hpre => ?_)
    refine leaves_ite (fun _ => .inl ⟨_, rfl⟩) (fun _ => leaves_attempt (fun body hedit => ?_))
    refine leaves_ite (fun hdry => absurd hdry (Bool.eq_false_iff.mp hd)) (fun _ => leaves_ite (fun _ => ?_) (fun hdrain => ?_))
    · exact leaves_drain hg
    · exact (hnone hread ⟨expected, body, hexpected, hpre, hedit, hdrain⟩).elim
  | patch q =>
    refine leaves_get (.inl ⟨_, rfl⟩) (fun hread => ?_)
    cases hrow : s.db.objects.lookup t.key with
    | none =>
      rw [hrow] at hnone
      refine leaves_ite (fun _ => .inl ⟨_, rfl⟩) (fun hssa => leaves_attempt (fun body hcreate => ?_))
      exact (hnone hread ⟨by simpa using hssa, body, hcreate⟩).elim
    | some row => exact leaves_patchLoop hg hd hrow (hrow ▸ hnone hread) _

end Leaves

/-- An object the index was told about is stored, and one that was evicted, or not there to begin with, has no
entry. -/
structure Indexing (r : RbacRef) (absent : Prop) (s : AppState β) (h : History β) : Prop where
  tidy : Tidy s.rbac
  evicted : Evicted h → entry s.rbac r = none
  stored : Stored (target r) h ∨ Applied h → s.db.objects.lookup (target r).key ≠ none
  absent : absent → Applied h ∨ entry s.rbac r = none

theorem exec_stored (h : Stored t [⟨o, (exec codec s o f).2⟩]) :
    (exec codec s o f).1.db.objects.lookup t.key ≠ none := by
  cases o with
  | put key value expected =>
    obtain ⟨e, he⟩ | ⟨row, hrow, -, -, he⟩ | ⟨stamped, ns, objName, -, -, -, he⟩ :=
      exec_put codec s key f value expected
    · simp [Stored, he] at h
    · obtain rfl : key = t.key := by simpa [Stored, he] using h
      simp [he, hrow]
    · obtain rfl : key = t.key := by simpa [Stored, he] using h
      simp [he]
  | createIfNamespaceActive nsKey key value =>
    obtain ⟨e, he⟩ | ⟨stamped, ns, objName, -, -, he⟩ := exec_create codec s key f nsKey value
    · simp [Stored, he] at h
    · obtain rfl : key = t.key := by simpa [Stored, he] using h
      simp [he]
  | _ => simp [Stored] at h

theorem exec_rbac :
    (exec codec s o f).1.rbac = match o with
      | .applyObject key body => applyObject s.rbac key body
      | .removeObject key => removeObject s.rbac key
      | _ => s.rbac := by
  cases o <;> rfl

theorem Indexing.step {absent : Prop} (hi : Indexing r absent s h) (hG : IndexGuard (target r) h o) :
    Indexing r absent (exec codec s o f).1 (h ++ [⟨o, (exec codec s o f).2⟩]) := by
  obtain ⟨hn, hG⟩ := hG
  -- A call that is not on the index leaves no entry where there was none.
  have hframe : (exec codec s o f).1.rbac = s.rbac → ¬ Evicted [⟨o, (exec codec s o f).2⟩] →
      ¬ Applied [⟨o, (exec codec s o f).2⟩] →
      Indexing r absent (exec codec s o f).1 (h ++ [⟨o, (exec codec s o f).2⟩]) := by
    intro hr hev hap
    refine ⟨hr ▸ hi.tidy, fun he => (hev (by simpa [Evicted] using he)).elim, ?_, fun ha => .inr ?_⟩
    · rintro (hs | ha)
      · exact exec_stored (by simpa [Stored] using hs)
      · exact (hap (by simpa [Applied] using ha)).elim
    · rw [hr]
      exact (hi.absent ha).resolve_left hn
  cases o with
  | applyObject key body =>
    obtain ⟨rfl, hs⟩ := hG
    refine ⟨?_, fun he => by simp [Evicted] at he, fun _ => hi.stored (.inl hs), fun _ => .inl ?_⟩
    · rw [target_rbacKey]
      exact applyObject_tidy hi.tidy r body
    · simp [Applied]
  | removeObject key =>
    obtain rfl := hG
    have hentry : entry (exec codec s (.removeObject (target r).rbacKey) f).1.rbac r = none := by
      simp only [exec_rbac, target_rbacKey, removeObject, parseRbacKey_key]
      exact (unindexed_entry r _).2.1
    refine ⟨?_, fun _ => hentry, ?_, fun _ => .inr hentry⟩
    · rw [target_rbacKey]
      exact removeObject_tidy hi.tidy r
    · rintro (hs | ha)
      · simp [Stored] at hs
      · simp [Applied] at ha
  | _ => exact hframe rfl (by simp [Evicted]) (by simp [Applied])

theorem serve_indexing (r : RbacRef) (ht : Tidy s.rbac) (a : ObjectRequest × (ℕ → List Bool)) :
    ∃ h, Indexing r (entry s.rbac r = none) (serve codec (target r) s a) h ∧
      Ends a.1 h (served codec (target r) s a).2 := by
  have hg : (target r).group = RBAC_GROUP := by cases r <;> rfl
  have hstart : Indexing r (entry s.rbac r = none) s [] :=
    ⟨ht, nofun, fun h => h.elim (fun hs => hs.elim) (fun ha => ha.elim), .inr⟩
  exact Prog.Keeps.eval (fun s h o f hi hG => Indexing.step hi hG) a.2 0 (program_ends a.1 hg) hstart

theorem serve_tidy (r : RbacRef) (ht : Tidy s.rbac) (a : ObjectRequest × (ℕ → List Bool)) :
    Tidy (serve codec (target r) s a).rbac := by
  obtain ⟨h, hi, -⟩ := serve_indexing r ht a
  exact hi.tidy

theorem delete_revokes (ht : Tidy s.rbac) (hd : d.dryRun = false)
    (hok : (served codec (target r) s (.delete d, fates)).2 = .ok body) :
    entry (serve codec (target r) s (.delete d, fates)).rbac r = none := by
  obtain ⟨h, hi, -, hdel⟩ := serve_indexing r ht (ObjectRequest.delete d, fates)
  rcases hdel d body rfl hok with hdry | hev
  · simp [hd] at hdry
  · exact hi.evicted hev

theorem noUpdate_revoked (ht : Tidy s.rbac) (hnone : entry s.rbac r = none) (hC : NoUpdate codec (target r) s a) :
    entry (serve codec (target r) s a).rbac r = none := by
  obtain ⟨h, hi, happ, -⟩ := serve_indexing r ht a
  refine (hi.absent hnone).resolve_left (fun ha => ?_)
  obtain ⟨⟨body, hbody⟩, hdry, hq⟩ := happ ha
  rcases leaves_of_noUpdate (by cases r <;> rfl) hC hdry hq with ⟨e, he⟩ | habs
  · cases hbody.symm.trans he
  · exact hi.stored (.inr ha) habs

theorem isAllowed_removeObject {inner : RbacInner} (ht : Tidy inner) (hnone : entry inner r = none)
    (req : AuthzRequest) : isAllowed inner req = isAllowed (removeObject inner r.key) req := by
  refine isAllowed_of_entry ht (removeObject_tidy ht r) (fun r' => ?_) req
  simp only [removeObject, parseRbacKey_key]
  obtain ⟨-, hself, hother⟩ := unindexed_entry r { inner with floors := touchExisting inner.floors r.key }
  by_cases hr : r' = r
  · rw [hr, hself, hnone]
  · rw [hother r' hr]
    cases r' <;> rfl

variable (codec)

theorem revoked_until_updated (r : RbacRef) (s : AppState β) (ht : Tidy s.rbac) (d : DeleteRequest)
    (fates : ℕ → List Bool) (body : Json) (hd : d.dryRun = false)
    (hok : (served codec (target r) s (.delete d, fates)).2 = .ok body)
    (later : List (ObjectRequest × (ℕ → List Bool)))
    (hC : Along (serve codec (target r)) (NoUpdate codec (target r))
      (serve codec (target r) s (.delete d, fates)) later) :
    let s' := run (serve codec (target r)) (serve codec (target r) s (.delete d, fates)) later
    entry s'.rbac r = none ∧
      ∀ req, isAllowed s'.rbac req = isAllowed (removeObject s'.rbac r.key) req := by
  have hrun := hC.invariant (fun s => Tidy s.rbac ∧ entry s.rbac r = none)
    (fun _ a hs ha => ⟨serve_tidy r hs.1 a, noUpdate_revoked hs.1 hs.2 ha⟩)
    ⟨serve_tidy r ht _, delete_revokes ht hd hok⟩
  exact ⟨hrun.2, isAllowed_removeObject hrun.1 hrun.2⟩

def heldBinding : Json :=
  .obj [("metadata", .obj [("finalizers", .arr [.str "example.com/hold"]), ("name", .str "a")]),
    ("roleRef", .obj [("apiGroup", .str RBAC_GROUP), ("kind", .str "ClusterRole"), ("name", .str "a")]),
    ("subjects", .arr [.obj [("kind", .str "User"), ("name", .str "alice")]])]

def bindingA : RbacRef := .clusterRoleBinding segmentA

def putBinding : ObjectRequest :=
  .replace ⟨heldBinding, false, fun _ body => .ok body, fun _ body => .ok body⟩

def bindingRun (qs : List ObjectRequest) : AppState (Option Json) :=
  run (serve JsonCodec.parsed (target bindingA)) ⟨.new _, run notify RbacInner.new [roleA]⟩
    (qs.map (fun q => (q, fun _ => [])))

def aliceGets : AuthzRequest := ⟨"alice", [], "get", "", "pods", "", none, none, none⟩

theorem put_unrevokes :
    isAllowed (bindingRun [putBinding]).rbac aliceGets = true ∧
      (bindingRun [putBinding, .delete plainDelete]).db.objects.lookup (target bindingA).key ≠ none ∧
      entry (bindingRun [putBinding, .delete plainDelete]).rbac bindingA = none ∧
      isAllowed (bindingRun [putBinding, .delete plainDelete]).rbac aliceGets = false ∧
      entry (bindingRun [putBinding, .delete plainDelete, putBinding]).rbac bindingA ≠ none ∧
      isAllowed (bindingRun [putBinding, .delete plainDelete, putBinding]).rbac aliceGets = true := by
  decide +kernel

theorem revoked_until_updated_drain :
    (bindingRun [putBinding, .delete plainDelete]).db.objects.lookup (target bindingA).key ≠ none ∧
      entry (bindingRun [putBinding, .delete plainDelete, .patch (setFinalizers [])]).rbac bindingA = none := by
  refine ⟨by decide +kernel, ?_⟩
  have hisSome : (served JsonCodec.parsed (target bindingA) (bindingRun [putBinding])
      (.delete plainDelete, fun _ => [])).2.toOption.isSome := by decide +kernel
  obtain ⟨body, hbody⟩ : ∃ body, (served JsonCodec.parsed (target bindingA) (bindingRun [putBinding])
      (.delete plainDelete, fun _ => [])).2 = .ok body := by
    revert hisSome
    cases (served JsonCodec.parsed (target bindingA) (bindingRun [putBinding])
      (.delete plainDelete, fun _ => [])).2 with
    | error e => nofun
    | ok body => exact fun _ => ⟨body, rfl⟩
  have htidy : Tidy (bindingRun [putBinding]).rbac := serve_tidy bindingA (run_tidy [roleA]) _
  have hdrains : (((bindingRun [putBinding, .delete plainDelete]).db.objects.lookup (target bindingA).key).bind
      (fun row => ((JsonCodec.parsed.fromSlice row.value).map (setFinalizers []).edit).bind Except.toOption)).all
        finalizerDrainComplete := by
    decide +kernel
  refine (revoked_until_updated JsonCodec.parsed bindingA (bindingRun [putBinding]) htidy plainDelete
    (fun _ => []) body rfl hbody [(.patch (setFinalizers []), fun _ => [])] ⟨?_, trivial⟩).1
  refine .inr (.inr (fun (hupdates : ObjectRequest.Updates _ _
    ((bindingRun [putBinding, .delete plainDelete]).db.objects.lookup (target bindingA).key) _) => ?_))
  cases hrow : (bindingRun [putBinding, .delete plainDelete]).db.objects.lookup (target bindingA).key with
  | none =>
    rw [hrow] at hupdates
    cases hupdates.1
  | some row =>
    rw [hrow] at hupdates hdrains
    obtain ⟨stored, body, -, -, hstored, hedit, hheld, -⟩ := hupdates
    rw [Option.bind_some, hstored, Option.map_some, Option.bind_some, hedit] at hdrains
    exact hheld hdrains

end U7s.Handlers
