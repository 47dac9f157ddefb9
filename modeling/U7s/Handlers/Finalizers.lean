import U7s.Handlers.Calls

namespace U7s.Handlers

open Store Programs Fallible Runs Option
open Rbac (structFields vecOf stringOf)

variable {β : Type} (codec : JsonCodec β)

def Guard (t : Target) (q : ObjectRequest) (h : History β) : AppOp β → Prop
  | .delete key _ => key = t.key ∧ ∃ row body, decisionRead h = some row ∧
      codec.fromSlice row.value = some body ∧ Decides t q body
  | _ => True

variable {codec}

theorem program_keeps (q : ObjectRequest) (hns : t.ns.isSome) :
    (q.program codec t).Keeps (Guard codec t q) (fun _ _ => True) [] := by
  refine Prog.Keeps.mono (program_serves q t) (fun h o hG => ?_) (fun _ _ _ => trivial)
  cases o with
  | delete key expected =>
    obtain ⟨-, hkey, hread⟩ := hG
    obtain ⟨row, body, ⟨hr, -, hb⟩, hd⟩ := hread hns
    exact ⟨hkey, row, body, hr, hb, hd⟩
  | _ => trivial

theorem exec_lookup_none (h : s.db.objects.lookup key = some row)
    (hnone : (exec codec s o faults).1.db.objects.lookup key = none) : ∃ e, o = .delete key e := by
  have hwrote : ∀ k (stamped : β) ns objName,
      (s.wrote k stamped ns objName).db.objects.lookup key ≠ none := by
    intro k stamped ns objName
    by_cases hk : key = k
    · subst hk
      simp
    · simp [wrote_lookup_ne hk, h]
  cases o with
  | put k value expected =>
    obtain ⟨e, he⟩ | ⟨row', -, -, -, he⟩ | ⟨stamped, ns, objName, -, -, -, he⟩ :=
      exec_put codec s k faults value expected
    · simp [he, h] at hnone
    · simp [he, h] at hnone
    · exact (hwrote k stamped ns objName (by rwa [he] at hnone)).elim
  | createIfNamespaceActive nsKey k value =>
    obtain ⟨e, he⟩ | ⟨stamped, ns, objName, -, -, he⟩ := exec_create codec s k faults nsKey value
    · simp [he, h] at hnone
    · exact (hwrote k stamped ns objName (by rwa [he] at hnone)).elim
  | delete k expected =>
    obtain ⟨e, he⟩ | ⟨row', -, -, he⟩ := exec_delete codec s k faults expected
    · simp [he, h] at hnone
    · by_cases hk : key = k
      · subst hk
        exact ⟨expected, rfl⟩
      · simp [he, deleted_lookup_ne hk, h] at hnone
  | _ => simp [exec, h] at hnone

theorem addIf_cases (hm : ObjectMeta.fromValue (b.idx "metadata") = some m)
    (h : addIf c (addFinalizer f) b = .ok b') :
    b' = b ∨ ∃ m', ObjectMeta.fromValue (b'.idx "metadata") = some m' ∧ nonEmpty m'.finalizers := by
  cases c with
  | false =>
    cases h
    exact .inl rfl
  | true =>
    cases ha : addFinalizer f b with
    | none => simp [addIf, ha, panicOn] at h
    | some b'' =>
      simp only [addIf, if_true, ha, panicOn, Except.ok.injEq] at h
      subst h
      exact .inr (addFinalizer_hasFinalizers hm ha)

theorem markPropagation_finalizers (hm : ObjectMeta.fromValue (body.idx "metadata") = some m)
    (h : markPropagation t opts body = .ok marked) (hf : hasFinalizers marked = false) :
    finalizersOf body = [] := by
  have hnot : ∀ {b : Json} {m' : ObjectMeta}, ObjectMeta.fromValue (b.idx "metadata") = some m' →
      hasFinalizers b = false → nonEmpty m'.finalizers = false := by
    intro b m' hm' hf
    simp only [hasFinalizers, objectMeta, hm', Bool.or_eq_false_iff] at hf
    exact hf.1
  unfold markPropagation at h
  dsimp only [bind, Except.bind] at h
  split at h
  · cases h
  · next b hb =>
    obtain rfl | ⟨m₁, hm₁, hne₁⟩ := addIf_cases hm hb
    · obtain rfl | ⟨m₂, hm₂, hne₂⟩ := addIf_cases hm h
      · exact finalizersOf_eq_nil hm (hnot hm hf)
      · simp [hnot hm₂ hf] at hne₂
    · obtain rfl | ⟨m₂, hm₂, hne₂⟩ := addIf_cases hm₁ h
      · simp [hnot hm₁ hf] at hne₁
      · simp [hnot hm₂ hf] at hne₂

theorem decide_none {q : DeleteRequest}
    (hm : ObjectMeta.fromValue (body.idx "metadata") = some m) (h : q.decide t body = .ok none) :
    finalizersOf body = [] := by
  unfold DeleteRequest.decide at h
  dsimp only [bind, Except.bind] at h
  split at h
  · cases h
  · split at h
    · cases h
    · next marked hmark => exact markPropagation_finalizers hm hmark (applyDeletePolicy_none h)

variable (codec)

/-- The row that is about to be deleted is the one the request decided on, and the request does not itself change
its list of finalizers. -/
def Fresh (t : Target) (qs : ℕ → ObjectRequest) (w : App β) (a : ℕ × List Bool) : Prop :=
  match (w.threads a.1).rest with
  | .call (.delete _ _) _ => ∀ row, w.shared.db.objects.lookup t.key = some row →
      decisionRead (w.past a.1) = some row ∧
      ∀ body, codec.fromSlice row.value = some body →
        (ObjectMeta.fromValue (body.idx "metadata")).isSome ∧
          ∀ result, (qs a.1).Edits body result → finalizersOf result = finalizersOf body
  | _ => True

def Honoured (t : Target) (w : App β) (a : ℕ × List Bool) : Prop :=
  ∀ row body, w.shared.db.objects.lookup t.key = some row →
    (App.step codec w a).shared.db.objects.lookup t.key = none →
    codec.fromSlice row.value = some body → finalizersOf body = []

def requests (t : Target) (qs : ℕ → ObjectRequest) (s : AppState β) : App β :=
  World.start s (fun i => (qs i).program codec t)

theorem finalizers_honoured {t : Target} (hns : t.ns.isSome) (qs : ℕ → ObjectRequest) (s : AppState β)
    (as : List (ℕ × List Bool)) (hC : Along (App.step codec) (Fresh codec t qs) (requests codec t qs s) as) :
    Along (App.step codec) (Honoured codec t) (requests codec t qs s) as := by
  have hp : World.Preserves (exec codec) (fun i => Guard codec t (qs i)) (Fresh codec t qs)
      (fun (_ : AppState β) _ => True) := fun _ _ _ _ _ _ _ _ _ => trivial
  refine hp.along ?_ ?_ (World.kept_start (fun i => program_keeps (qs i) hns)) trivial hC
  · intro w a hw row body hrow hnone
    rw [App.step, hw, hrow] at hnone
    cases hnone
  · intro w i f o k hk _ hG hF row body hrow hnone hb
    rw [App.step, (World.step_call (exec codec) hk).1] at hnone
    obtain ⟨e, rfl⟩ := exec_lookup_none hrow hnone
    obtain ⟨-, row', body', hread, hb', hd⟩ := hG
    simp only [Fresh, hk] at hF
    obtain ⟨hfresh, hdec⟩ := hF row hrow
    obtain rfl : row' = row := some.inj (hread.symm.trans hfresh)
    obtain rfl : body' = body := some.inj (hb'.symm.trans hb)
    obtain ⟨hmeta, hkeeps⟩ := hdec body' hb
    obtain ⟨m, hm⟩ := isSome_iff_exists.mp hmeta
    obtain ⟨q, -, hq⟩ | ⟨result, hedit, hdrained⟩ := hd
    · exact decide_none hm hq
    · rw [← hkeeps result hedit]
      exact finalizersOf_of_drained hdrained

def heldMap : Target := ⟨"", "v1", "configmaps", some "default", "a", "ConfigMap"⟩

def plainDelete : DeleteRequest := ⟨{}, false, "2026-01-01T00:00:00Z", fun _ => .ok (), 8⟩

def setFinalizers (fs : List Json) : PatchRequest where
  isSsa := false
  dryRun := false
  create := .error .panicked
  merge body := panicOn (setMetadata body "finalizers" (.arr fs))
  validate _ body := .ok body
  admission _ body := .ok body

def holdRequests : ℕ → ObjectRequest
  | 0 => .delete plainDelete
  | 1 => .patch (setFinalizers [.str "example.com/hold"])
  | _ => .patch (setFinalizers [])

def createdMap : AppState (Option Json) :=
  ⟨(put JsonCodec.parsed (.new _) heldMap.key (configMap "default" "a") none []).db, .new⟩

def storedBody (w : App (Option Json)) : Option Json :=
  (w.shared.db.objects.lookup heldMap.key).bind (fun row => row.value)

def heldRun (as : List ℕ) : App (Option Json) :=
  run (App.step JsonCodec.parsed) (requests JsonCodec.parsed heldMap holdRequests createdMap)
    (as.map (fun i => (i, [])))

theorem late_finalizer_ignored :
    ((storedBody (heldRun [0, 1, 1])).map finalizersOf = some [.str "example.com/hold"] ∧
      storedBody (heldRun [0, 1, 1, 0]) = none) ∧
    (storedBody (heldRun [1, 1, 0, 0, 2])).map finalizersOf = some [.str "example.com/hold"] ∧
      storedBody (heldRun [1, 1, 0, 0, 2, 2]) = none := by
  decide +kernel

theorem finalizers_honoured_cleared :
    Along (App.step JsonCodec.parsed) (Honoured JsonCodec.parsed heldMap)
      (requests JsonCodec.parsed heldMap holdRequests createdMap)
      ([1, 1, 2, 2, 0, 0].map (fun i => (i, []))) ∧
    storedBody (heldRun [1, 1, 2, 2, 0, 0]) = none := by
  refine ⟨finalizers_honoured JsonCodec.parsed rfl holdRequests createdMap _ ?_, by decide +kernel⟩
  refine ⟨trivial, trivial, trivial, trivial, trivial, ?_, trivial⟩
  intro row (hrow : (heldRun [1, 1, 2, 2, 0]).shared.db.objects.lookup heldMap.key = some row)
  constructor
  · have hread : decisionRead ((heldRun [1, 1, 2, 2, 0]).past 0) =
        (heldRun [1, 1, 2, 2, 0]).shared.db.objects.lookup heldMap.key := by decide +kernel
    exact hread.trans hrow
  · intro body (hb : JsonCodec.parsed.fromSlice row.value = some body)
    have hall : (storedBody (heldRun [1, 1, 2, 2, 0])).all
        (fun body => (ObjectMeta.fromValue (body.idx "metadata")).isSome) := by decide +kernel
    rw [storedBody, hrow, bind_some, JsonCodec.parsed_eq_some hb] at hall
    exact ⟨hall, nofun⟩

end U7s.Handlers
