import U7s.Handlers.Evictions
import U7s.Handlers.Finalizers
import U7s.Handlers.Reads

/-! Concurrent evictions under one disruption budget: the disruptions left and the requests between their two writes
never outnumber the initial allowance. -/

namespace U7s.Handlers

open Store Programs Fallible Runs List Option
open Rbac (structFields vecOf stringOf defaulted required)
open Text (startsWith)

variable {β : Type} (codec : JsonCodec β)

section Programs

def PodRead (ns : String) (q : EvictRequest) (h : History β) (pod : Json) : Prop :=
  ∃ row, ⟨.get (podTarget ns q.name).key, .ok (some row)⟩ ∈ h ∧ codec.fromSlice row.value = some pod

def BudgetRead (ns : String) (pod : Json) (h : History β) (key : String) (pdb : Json) : Prop :=
  (∃ items b, ⟨.list (budgetPrefix ns), .ok items⟩ ∈ h ∧
    (key, b) ∈ matchingBudgets codec items (podLabels pod)) ∧
  ∃ e ∈ h, ∃ row, (key, row) ∈ rowsRead e ∧ codec.fromSlice row.value = some pdb

def Spends (ns : String) (q : EvictRequest) (pod : Json) (h : History β) (key : String) (value : β) : Prop :=
  ∃ pdb updated, BudgetRead codec ns pod h key pdb ∧
    decrementPdbDisruptionsAllowed pdb (podName pod) q.now = .ok updated ∧ value = codec.toVec updated

def Paid (ns : String) (q : EvictRequest) (pod : Json) (h : History β) : Prop :=
  isPodReady pod = true →
    (∃ r, ⟨.list (budgetPrefix ns), r⟩ ∈ h ∧
      ∀ items, r = .ok items → matchingBudgets codec items (podLabels pod) = []) ∨
    ∃ h' key value expected rv, h = h' ++ [⟨AppOp.put key value expected, .ok rv⟩] ∧
      Spends codec ns q pod h' key value

def EvictGuard (ns : String) (q : EvictRequest) (h : History β) : AppOp β → Prop
  | .get _ => True
  | .list _ => True
  | .put key value expected => q.dryRun = false ∧ ∃ pod, PodRead codec ns q h pod ∧
      ((∃ pdb updated, BudgetRead codec ns pod h key pdb ∧
          decrementPdbDisruptionsAllowed pdb (podName pod) q.now = .ok updated ∧
          value = codec.toVec updated ∧ parseResourceVersion (resourceVersion pdb) = .ok expected) ∨
        key = (podTarget ns q.name).key ∧ ∃ marked, markEvicted q.now pod = .ok marked ∧
          value = codec.toVec marked ∧ parseResourceVersion (resourceVersion marked) = .ok expected ∧
          Paid codec ns q pod h)
  | .delete key _ => q.dryRun = false ∧ key = (podTarget ns q.name).key
  | _ => False

variable {codec}

theorem PodRead.append (hp : PodRead codec ns q h pod) (h' : History β) : PodRead codec ns q (h ++ h') pod := by
  obtain ⟨row, hm, hb⟩ := hp
  exact ⟨row, mem_append_left h' hm, hb⟩

theorem BudgetRead.append (hp : BudgetRead codec ns pod h key pdb) (h' : History β) :
    BudgetRead codec ns pod (h ++ h') key pdb := by
  obtain ⟨⟨items, b, hm, hk⟩, e, he, hrow⟩ := hp
  exact ⟨⟨items, b, mem_append_left h' hm, hk⟩, e, mem_append_left h' he, hrow⟩

def Allowed (codec : JsonCodec β) (ns : String) (q : EvictRequest) (pod : Json) (h : History β) :
    Except Failure Unit → Prop
  | .ok _ => q.dryRun = true ∨ (PodRead codec ns q h pod ∧ Paid codec ns q pod h)
  | .error _ => True

theorem spendAttempt_allowed (hp : PodRead codec ns q h pod) (hb : BudgetRead codec ns pod h key pdb)
    (hc : ∀ value expected r, Keeps (EvictGuard codec ns q) (Allowed codec ns q pod)
      (h ++ [⟨.put key value expected, r⟩]) conflict) :
    Keeps (EvictGuard codec ns q) (Allowed codec ns q pod) h (spendAttempt codec q pod key pdb conflict) := by
  refine keeps_attempt_bind (fun _ => trivial) (fun updated hu => ?_)
  refine keeps_ite (fun hd => .inl hd) (fun hd => ?_)
  have hdry : q.dryRun = false := Bool.eq_false_iff.mpr hd
  refine keeps_attempt_bind (fun _ => trivial) (fun expected he => ?_)
  refine keeps_request_bind ⟨hdry, pod, hp, .inl ⟨pdb, updated, hb, hu, rfl, he⟩⟩ ?_
  rintro (e | rv)
  · cases e with
    | revisionMismatch e c => exact hc _ _ _
    | _ => exact trivial
  · exact .inr ⟨hp.append _, fun _ => .inr ⟨h, key, _, _, rv, rfl, pdb, updated, hb, hu, rfl⟩⟩

theorem spendLoop_allowed (n : ℕ) (hp : PodRead codec ns q h pod) (hb : BudgetRead codec ns pod h key pdb) :
    Keeps (EvictGuard codec ns q) (Allowed codec ns q pod) h (spendLoop codec q pod key n pdb) := by
  induction n generalizing h pdb with
  | zero => exact spendAttempt_allowed hp hb (fun _ _ _ => trivial)
  | succ n ih =>
    refine spendAttempt_allowed hp hb (fun value expected r => keeps_request_bind trivial ?_)
    -- Whatever the read brings, the budget at hand is one the request has read.
    rintro (e | _ | row)
    · exact ih ((hp.append _).append _) ((hb.append _).append _)
    · exact ih ((hp.append _).append _) ((hb.append _).append _)
    · refine ih ((hp.append _).append _) ?_
      cases hrow : codec.fromSlice row.value with
      | none => exact (hb.append _).append _
      | some pdb' =>
        refine ⟨((hb.append _).append _).1, ⟨.get key, .ok (some row)⟩, ?_, row, ?_, hrow⟩
        · exact mem_append_right _ (mem_singleton.mpr rfl)
        · exact mem_singleton.mpr rfl

theorem mem_matchingBudgets :
    p ∈ matchingBudgets codec items labels ↔
      ∃ row, (p.1, row) ∈ items ∧ codec.fromSlice row.value = some p.2 ∧ selectsPod p.2 labels := by
  simp only [matchingBudgets, mem_filter, mem_filterMap, map_eq_some_iff]
  constructor
  · rintro ⟨⟨⟨key, row⟩, hmem, pdb, hpdb, rfl⟩, hsel⟩
    exact ⟨row, hmem, hpdb, hsel⟩
  · rintro ⟨row, hmem, hpdb, hsel⟩
    exact ⟨⟨(p.1, row), hmem, p.2, hpdb, rfl⟩, hsel⟩

theorem spendMatching_allowed (hp : PodRead codec ns q h pod) (hnil : budgets = [] → Paid codec ns q pod h)
    (hb : ∀ p ∈ budgets, BudgetRead codec ns pod h p.1 p.2) :
    Keeps (EvictGuard codec ns q) (Allowed codec ns q pod) h (spendMatching codec q pod budgets) := by
  rcases budgets with _ | ⟨⟨key, pdb⟩, _ | _⟩
  · exact .inr ⟨hp, hnil rfl⟩
  · refine keeps_ite (fun hby => ?_) (fun _ => spendLoop_allowed _ hp (hb _ mem_cons_self))
    refine .inr ⟨hp, fun hready => ?_⟩
    simp [bypassesBudget, hready] at hby
  · exact trivial

theorem checkPdbAllowsEviction_allowed (hp : PodRead codec ns q h pod) :
    Keeps (EvictGuard codec ns q) (Allowed codec ns q pod) h (checkPdbAllowsEviction codec ns q pod) := by
  refine keeps_request_bind trivial (fun r => ?_)
  have hmem : (⟨.list (budgetPrefix ns), r⟩ : Σ o : AppOp β, o.Reply) ∈
      h ++ [⟨AppOp.list (budgetPrefix ns), r⟩] := mem_append_right h (mem_singleton.mpr rfl)
  rcases r with e | items
  · exact .inr ⟨hp.append _, fun _ => .inl ⟨.error e, hmem, fun _ => nofun⟩⟩
  · refine spendMatching_allowed (hp.append _) (fun hnil _ => .inl ⟨.ok items, hmem, fun _ he => ?_⟩) ?_
    · cases he
      exact hnil
    · intro p hpdb
      obtain ⟨row, hrow, hbody, -⟩ := mem_matchingBudgets.mp hpdb
      exact ⟨⟨items, p.2, hmem, hpdb⟩, _, hmem, row, hrow, hbody⟩

theorem storeEvicted_safe (hdry : q.dryRun = false) (hp : PodRead codec ns q h pod)
    (hpaid : Paid codec ns q pod h) : Safe (EvictGuard codec ns q) h (storeEvicted codec ns q pod) := by
  refine safe_attempt (fun marked hm => safe_attempt (fun expected he => ?_))
  refine safe_request ⟨hdry, pod, hp, .inr ⟨rfl, marked, hm, rfl, he, hpaid⟩⟩ (fun r => ?_)
  exact safe_attempt (fun _ _ => safe_pure)

theorem evictStored_safe (hp : PodRead codec ns q h pod) :
    Safe (EvictGuard codec ns q) h (evictStored codec ns q pod) := by
  refine safe_ite (fun _ => safe_ite (fun _ => safe_pure) (fun hd => ?_)) (fun _ => safe_ite (fun _ => ?_) ?_)
  · refine safe_request ⟨Bool.eq_false_iff.mpr hd, rfl⟩ (fun r => ?_)
    exact safe_attempt (fun _ _ => safe_pure)
  · refine Keeps.bind (checkPdbAllowsEviction_allowed hp) (fun h _ hok => ?_) (fun _ _ _ => trivial)
    refine safe_ite (fun _ => safe_pure) (fun hd => ?_)
    rcases hok with hd' | ⟨hp, hpaid⟩
    · exact (hd hd').elim
    · exact storeEvicted_safe (Bool.eq_false_iff.mpr hd) hp hpaid
  · exact fun _ => safe_pure

theorem evictProgram_keeps (ns : String) (q : EvictRequest) :
    (q.program codec ns).Keeps (EvictGuard codec ns q) (fun _ _ => True) [] := by
  refine Safe.bind (safe_request trivial ?_) (fun h _ => Safe.bind (safe_request trivial ?_) (fun h _ => ?_))
  · rintro (e | _ | row)
    · exact safe_throw
    · exact safe_throw
    · exact safe_pure
  · rintro (e | _ | row)
    · exact safe_throw
    · exact safe_throw
    · exact safe_ite (fun _ => safe_throw) (fun _ => safe_pure)
  · refine safe_loadStored trivial (fun row => safe_attempt (fun pod hb => safe_attempt (fun eviction _ => ?_)))
    refine Safe.bind (evictStored_safe ⟨row, ?_, fromBytes_ok hb⟩) (fun _ _ => safe_pure)
    exact mem_append_right h (mem_singleton.mpr rfl)

end Programs

section Bodies

variable {put stored pdb updated pod marked : Json}

theorem blind_requirement : Blind LabelSelectorRequirement.fromValue := by
  intro f j
  unfold LabelSelectorRequirement.fromValue
  rw [structFields_mapFloats]
  cases structFields ["key", "operator", "values"] j with
  | none => rfl
  | some fields =>
    rcases fields with _ | ⟨k, _ | ⟨o, _ | ⟨v, _ | _⟩⟩⟩
    case some.cons.cons.cons.nil =>
      simp [required_blind blind_stringOf, defaulted_blind (blind_vecOf blind_stringOf)]
    all_goals rfl

theorem blind_labelSelector : Blind LabelSelector.fromValue := by
  intro f j
  unfold LabelSelector.fromValue
  rw [structFields_mapFloats]
  cases structFields ["matchLabels", "matchExpressions"] j with
  | none => rfl
  | some fields =>
    rcases fields with _ | ⟨l, _ | ⟨e, _ | _⟩⟩
    case some.cons.cons.nil =>
      simp [defaulted_blind (blind_mapOf blind_stringOf), defaulted_blind (blind_vecOf blind_requirement)]
    all_goals rfl

theorem blind_i64Of : Blind i64Of := by
  intro f j
  cases j with
  | num n => cases n <;> rfl
  | _ => rfl

theorem selectsPod_carries (hc : Carries put stored) (labels : List (String × String)) :
    selectsPod stored labels = selectsPod put labels := by
  obtain ⟨f, hother, -⟩ := hc
  simp [selectsPod, hother "spec" (by decide), blind_labelSelector f]

theorem podLabels_carries (hc : Carries put stored) : podLabels stored = podLabels put := by
  obtain ⟨f, -, hmeta⟩ := hc
  unfold podLabels
  rw [hmeta "labels" (by decide)]
  cases (put.idx "metadata").idx "labels" with
  | obj fs =>
    simp only [Json.mapFloats]
    induction fs with
    | nil => rfl
    | cons m fs ih => simp only [Json.mapFloatsFields, filterMap_cons, Json.asStr?_mapFloats, ih]
  | num n => cases n <;> rfl
  | _ => rfl

theorem disruptionsAllowed_carries (hc : Carries put stored) :
    disruptionsAllowed stored = disruptionsAllowed put := by
  obtain ⟨f, hother, -⟩ := hc
  simp [disruptionsAllowed, i64OrZero, hother "status" (by decide), blind_i64Of f]

def lists (pdb : Json) (name : String) : Bool := (Json.lookup name (disruptedPods (pdb.idx "status"))).isSome

theorem lists_carries (hc : Carries put stored) (name : String) : lists stored name = lists put name := by
  obtain ⟨f, hother, -⟩ := hc
  simp only [lists, disruptedPods, hother "status" (by decide), Json.idx_mapFloats]
  cases (put.idx "status").idx "disruptedPods" with
  | obj fs => simp [Json.mapFloats, Json.lookup_mapFloatsFields]
  | num n => cases n <;> rfl
  | _ => rfl

theorem i64OrZero_num (z : ℤ) (hz : 0 ≤ z) :
    0 ≤ i64OrZero (.num (if z < 0 then .negInt z else .posInt z.toNat)) ∧
      i64OrZero (.num (if z < 0 then .negInt z else .posInt z.toNat)) ≤ z := by
  rw [if_neg (not_lt.mpr hz)]
  simp only [i64OrZero, i64Of]
  split_ifs
  · simp only [getD_some]
    omega
  · simpa using hz

theorem decrement_ok (h : decrementPdbDisruptionsAllowed pdb name now = .ok updated) :
    0 < disruptionsAllowed pdb ∧ 0 ≤ disruptionsAllowed updated ∧
      disruptionsAllowed updated < disruptionsAllowed pdb ∧ (∀ k ≠ "status", updated.idx k = pdb.idx k) ∧
      lists updated name ∧ ∀ n, lists pdb n → lists updated n := by
  unfold decrementPdbDisruptionsAllowed at h
  dsimp only at h
  split_ifs at h with hgen hsize hpos
  have hpos : 0 < disruptionsAllowed pdb := not_le.mp hpos
  cases hs : (spentStatus (pdb.idx "status") (disruptionsAllowed pdb - 1) name now).bind
      (fun status => pdb.setIdx "status" status) with
  | none => simp [hs, panicOn] at h
  | some b =>
    rw [hs] at h
    cases h
    obtain ⟨status, hst, hb⟩ := bind_eq_some_iff.mp hs
    obtain ⟨status₁, h₁, h₂⟩ := bind_eq_some_iff.mp hst
    have hnum := i64OrZero_num (disruptionsAllowed pdb - 1) (by omega)
    have hallowed : disruptionsAllowed updated = i64OrZero (.num
        (if disruptionsAllowed pdb - 1 < 0 then .negInt (disruptionsAllowed pdb - 1)
          else .posInt (disruptionsAllowed pdb - 1).toNat)) := by
      rw [disruptionsAllowed, Json.idx_setIdx hb, Json.idx_setIdx_ne (by decide) h₂, Json.idx_setIdx h₁]
    have hlisted : disruptedPods (updated.idx "status") =
        Json.insert name (.str now) (disruptedPods (pdb.idx "status")) := by
      simp only [disruptedPods, Json.idx_setIdx hb, Json.idx_setIdx h₂,
        Json.idx_setIdx_ne (show "disruptedPods" ≠ "disruptionsAllowed" by decide) h₁]
    refine ⟨hpos, by omega, by omega, fun k hk => Json.idx_setIdx_ne hk hb, ?_, fun n hn => ?_⟩
    · simp [lists, hlisted]
    · unfold lists at hn ⊢
      rw [hlisted]
      by_cases he : n = name
      · subst he
        simp
      · rwa [Json.lookup_insert_ne he]

theorem markEvicted_ok (h : markEvicted now pod = .ok marked) :
    ∀ k ≠ "deletionTimestamp", (marked.idx "metadata").idx k = (pod.idx "metadata").idx k := by
  obtain ⟨stamped, hst, h⟩ := except_bind_ok h
  obtain ⟨-, -, hmeta⟩ := setMetadata_idx (panicOn_ok hst)
  have hidx : marked.idx "metadata" = stamped.idx "metadata" :=
    Json.idx_setIdx_ne (by decide) (panicOn_ok h)
  intro k hk
  rw [hidx, hmeta k hk]

end Bodies

theorem startsWith_append (a b : String) : startsWith (a ++ b) a := by
  rw [Text.startsWith_iff, String.toList_append]
  exact prefix_append _ _

theorem podKey_startsWith (ns name : String) : startsWith (podTarget ns name).key (listPrefix "pods" ns) :=
  startsWith_append (listPrefix "pods" ns) name

theorem pods_not_budgets (hp : startsWith key (listPrefix "pods" ns))
    (hb : startsWith key (budgetPrefix ns)) : False := by
  have hpods : startsWith (listPrefix "pods" ns) "/registry/pods/" := by
    exact startsWith_trans (startsWith_append _ _) (startsWith_append _ _)
  have hpolicy : startsWith (budgetPrefix ns) "/registry/policy/" := by
    exact startsWith_trans (startsWith_append _ _) (startsWith_trans (startsWith_append _ _)
      (startsWith_trans (startsWith_append _ _) (startsWith_append _ _)))
  have h₁ := Text.startsWith_iff.mp (startsWith_trans hp hpods)
  have h₂ := Text.startsWith_iff.mp (startsWith_trans hb hpolicy)
  have hle := prefix_of_prefix_length_le h₁ h₂ (by decide)
  exact absurd hle (by decide)

structure OneBudget (ns key : String) (s : AppState β) : Prop where
  isBudget : startsWith key (budgetPrefix ns) = true
  present : (s.db.objects.lookup key).isSome
  selects : ∀ podKey pod budgetKey pdb, startsWith podKey (listPrefix "pods" ns) = true →
    storedObject codec s podKey = some pod → startsWith budgetKey (budgetPrefix ns) = true →
    storedObject codec s budgetKey = some pdb → selectsPod pdb (podLabels pod) = decide (budgetKey = key)

/-- The labels of a pod are among `L`, and of the budgets only the one selects them. -/
def Tame (ns key : String) (L : Set (List (String × String))) (k : String) (row : Row β) : Prop :=
  ∀ body, codec.fromSlice row.value = some body →
    (startsWith k (listPrefix "pods" ns) = true → podLabels body ∈ L) ∧
    (startsWith k (budgetPrefix ns) = true → ∀ l ∈ L, selectsPod body l = decide (k = key))

structure Evicting (ns key : String) (L : Set (List (String × String))) (s : AppState β)
    (past : ℕ → History β) : Prop where
  versioned : Versioned codec s
  known : ∀ i, Known codec s (past i)
  isBudget : startsWith key (budgetPrefix ns) = true
  present : (s.db.objects.lookup key).isSome
  tame : ∀ k row, s.db.objects.lookup k = some row → Tame codec ns key L k row
  read : ∀ i, ∀ e ∈ past i, ∀ p ∈ rowsRead e, Tame codec ns key L p.1 p.2
  listed : ∀ i r, ⟨.list (budgetPrefix ns), r⟩ ∈ past i → ∃ items row, r = .ok items ∧ (key, row) ∈ items ∧
    ∀ p ∈ items, startsWith p.1 (budgetPrefix ns) = true
  spent : ∀ i value e rv, ⟨.put key value e, .ok rv⟩ ∈ past i → ∃ put, codec.fromSlice value = some put ∧
    ∀ name, lists put name = true → ∃ pdb, storedObject codec s key = some pdb ∧ lists pdb name = true

inductive Effect (ns key : String) (q : EvictRequest) (h : History β) (s s' : AppState β) :
    (Σ o : AppOp β, o.Reply) → Prop
  | quiet {e : Σ o : AppOp β, o.Reply} (hs : s' = s)
      (hput : ∀ value x rv, e ≠ ⟨.put key value x, .ok rv⟩) : Effect ns key q h s s' e
  | spend {pod pdb updated stored : Json} {x : Option ℕ} {rv : ℕ} (hdry : q.dryRun = false)
      (hp : PodRead codec ns q h pod) (hb : storedObject codec s key = some pdb)
      (hu : decrementPdbDisruptionsAllowed pdb (podName pod) q.now = .ok updated)
      (hval : codec.fromSlice (codec.toVec updated) = some (updated.mapFloats codec.refloat))
      (hs : storedObject codec s' key = some stored) (hc : Carries updated stored)
      (hk : ∀ k ≠ key, s'.db.objects.lookup k = s.db.objects.lookup k) :
      Effect ns key q h s s' ⟨.put key (codec.toVec updated) x, .ok rv⟩
  | mark {pod marked stored : Json} {value : β} {x : Option ℕ} {rv : ℕ} (hdry : q.dryRun = false)
      (hp : PodRead codec ns q h pod) (hb : storedObject codec s (podTarget ns q.name).key = some pod)
      (hm : markEvicted q.now pod = .ok marked) (hpaid : Paid codec ns q pod h)
      (hs : storedObject codec s' (podTarget ns q.name).key = some stored) (hc : Carries marked stored)
      (hk : ∀ k ≠ (podTarget ns q.name).key, s'.db.objects.lookup k = s.db.objects.lookup k) :
      Effect ns key q h s s' ⟨.put (podTarget ns q.name).key value x, .ok rv⟩
  | remove {x : Option ℕ} {r : Except StoreError ℕ} (hdry : q.dryRun = false)
      (hs : s'.db.objects.lookup (podTarget ns q.name).key = none)
      (hk : ∀ k ≠ (podTarget ns q.name).key, s'.db.objects.lookup k = s.db.objects.lookup k) :
      Effect ns key q h s s' ⟨.delete (podTarget ns q.name).key x, r⟩

section Steps

variable {codec} {ns key : String} {L : Set (List (String × String))} {s : AppState β}
  {past : ℕ → History β} {i : ℕ} {q : EvictRequest} {pod pdb : Json}

section

variable (hi : Evicting codec ns key L s past)
include hi

theorem Evicting.labels (hp : PodRead codec ns q (past i) pod) :
    podLabels pod ∈ L := by
  obtain ⟨row, hmem, hb⟩ := hp
  exact (hi.read i _ hmem (_, row) (mem_singleton.mpr rfl) pod hb).1 (podKey_startsWith ns q.name)

theorem Evicting.budget_eq (hp : PodRead codec ns q (past i) pod)
    (hb : BudgetRead codec ns pod (past i) k pdb) : k = key := by
  obtain ⟨⟨items, b, hmem, hk⟩, -⟩ := hb
  obtain ⟨row, hrow, hbody, hsel⟩ := mem_matchingBudgets.mp hk
  obtain ⟨items', -, he, -, hpre⟩ := hi.listed i _ hmem
  cases he
  have htame := (hi.read i _ hmem (k, row) hrow b hbody).2 (hpre _ hrow) _ (hi.labels hp)
  exact of_decide_eq_true (htame.symm.trans hsel)

theorem Evicting.matching_ne_nil (hp : PodRead codec ns q (past i) pod)
    (hmem : ⟨.list (budgetPrefix ns), .ok items⟩ ∈ past i) : matchingBudgets codec items (podLabels pod) ≠ [] := by
  obtain ⟨items', row, he, hrow, hpre⟩ := hi.listed i _ hmem
  cases he
  obtain ⟨b, hb, -⟩ := (hi.known i).read _ hmem (key, row) hrow |>.stamped
  have hsel := (hi.read i _ hmem (key, row) hrow b hb).2 hi.isBudget _ (hi.labels hp)
  have hin : (key, b) ∈ matchingBudgets codec items (podLabels pod) :=
    mem_matchingBudgets.mpr ⟨row, hrow, hb, by simpa using hsel⟩
  exact ne_nil_of_mem hin

theorem spend_effect (hdry : q.dryRun = false)
    (hp : PodRead codec ns q (past i) pod) (hb : BudgetRead codec ns pod (past i) k pdb)
    (hu : decrementPdbDisruptionsAllowed pdb (podName pod) q.now = .ok updated)
    (he : parseResourceVersion (resourceVersion pdb) = .ok expected) :
    Effect codec ns key q (past i) s (exec codec s (.put k (codec.toVec updated) expected) f).1
      ⟨.put k (codec.toVec updated) expected, (exec codec s (.put k (codec.toVec updated) expected) f).2⟩ := by
  obtain rfl := hi.budget_eq hp hb
  obtain ⟨-, e, hmem, row, hrow, hpdb⟩ := hb
  have hpast := (hi.known i).read e hmem (k, row) hrow
  obtain ⟨err, hx⟩ | ⟨row', hrow', hchk, heq, hx⟩ | ⟨stamped, n, objName, hchk, -, hst, hx⟩ :=
    exec_put codec s k f (codec.toVec updated) expected
  · rw [hx]
    exact .quiet rfl (fun _ _ _ => nofun)
  · -- A decrement always changes the budget, so it is never taken for a repeated write.
    have hchk : checkExpected k ((s.db.objects.lookup k).map Row.revision) expected = .ok () := by
      rwa [hrow']
    obtain rfl := some.inj (hrow'.symm.trans (hpast.of_resourceVersion hpdb rfl he hchk))
    obtain ⟨put, stored, hput, hstored, hc⟩ := carries_of_semanticallyEqual heq
    obtain rfl := codec.fromSlice_toVec_some hput
    obtain rfl : stored = pdb := some.inj (hstored.symm.trans hpdb)
    have hsame := disruptionsAllowed_carries ((carries_mapFloats _ _).trans hc)
    have hlt := (decrement_ok hu).2.2.1
    omega
  · have hcur := hpast.of_resourceVersion hpdb rfl he hchk
    obtain ⟨stored, hval, hstored, hc⟩ := storedObject_wrote k hst
    rw [hx]
    exact .spend hdry hp (storedObject_of_lookup hcur hpdb) hu hval hstored hc (fun _ hk => wrote_lookup_ne hk)

theorem mark_effect (hdry : q.dryRun = false)
    (hp : PodRead codec ns q (past i) pod) (hm : markEvicted q.now pod = .ok marked)
    (he : parseResourceVersion (resourceVersion marked) = .ok expected) (hpaid : Paid codec ns q pod (past i)) :
    Effect codec ns key q (past i) s
      (exec codec s (.put (podTarget ns q.name).key (codec.toVec marked) expected) f).1
      ⟨.put (podTarget ns q.name).key (codec.toVec marked) expected,
        (exec codec s (.put (podTarget ns q.name).key (codec.toVec marked) expected) f).2⟩ := by
  have hne : (podTarget ns q.name).key ≠ key := by
    intro hk
    exact pods_not_budgets (podKey_startsWith ns q.name) (hk ▸ hi.isBudget)
  have hp' := hp
  obtain ⟨row, hmem, hpod⟩ := hp
  have hpast := (hi.known i).read _ hmem (_, row) (mem_singleton.mpr rfl)
  have hrv : resourceVersion marked = resourceVersion pod := by
    rw [resourceVersion, markEvicted_ok hm _ (by decide), resourceVersion]
  obtain ⟨err, hx⟩ | ⟨row', -, -, -, hx⟩ | ⟨stamped, n, objName, hchk, -, hst, hx⟩ :=
    exec_put codec s (podTarget ns q.name).key f (codec.toVec marked) expected
  · rw [hx]
    exact .quiet rfl (fun _ _ _ heq => by cases heq)
  · rw [hx]
    refine .quiet rfl (fun value x rv heq => hne ?_)
    cases heq
    rfl
  · have hcur := hpast.of_resourceVersion hpod hrv he hchk
    obtain ⟨stored, -, hstored, hc⟩ := storedObject_wrote (podTarget ns q.name).key hst
    rw [hx]
    exact .mark hdry hp' (storedObject_of_lookup hcur hpod) hm hpaid hstored hc (fun _ hk => wrote_lookup_ne hk)

theorem evict_effect (f : List Bool) (hG : EvictGuard codec ns q (past i) o) :
    Effect codec ns key q (past i) s (exec codec s o f).1 ⟨o, (exec codec s o f).2⟩ := by
  cases o with
  | get k | list pre => exact .quiet rfl (fun _ _ _ => nofun)
  | put k value expected =>
    obtain ⟨hdry, pod, hp, ⟨pdb, updated, hb, hu, rfl, he⟩ | ⟨rfl, marked, hm, rfl, he, hpaid⟩⟩ := hG
    · exact spend_effect hi hdry hp hb hu he
    · exact mark_effect hi hdry hp hm he hpaid
  | delete k x =>
    obtain ⟨hdry, rfl⟩ := hG
    obtain ⟨err, hx⟩ | ⟨row, -, -, hx⟩ := exec_delete codec s (podTarget ns q.name).key f x
    · rw [hx]
      exact .quiet rfl (fun _ _ _ => nofun)
    · rw [hx]
      exact .remove hdry deleted_lookup (fun _ hk => deleted_lookup_ne hk)
  | _ => exact hG.elim

end

variable {s' : AppState β} {h : History β} {e : Σ o : AppOp β, o.Reply}

section

variable (heff : Effect codec ns key q h s s' e)
include heff

theorem Effect.budget (hkey : startsWith key (budgetPrefix ns))
    (hb : storedObject codec s key = some pdb) : ∃ pdb', storedObject codec s' key = some pdb' ∧
      (∀ n, lists pdb n → lists pdb' n) ∧ (∀ l, selectsPod pdb' l = selectsPod pdb l) ∧
      (0 ≤ disruptionsAllowed pdb → 0 ≤ disruptionsAllowed pdb') ∧
      disruptionsAllowed pdb' ≤ disruptionsAllowed pdb := by
  have hne : key ≠ (podTarget ns q.name).key := fun hk =>
    pods_not_budgets (podKey_startsWith ns q.name) (hk ▸ hkey)
  have hsame : storedObject codec s' key = storedObject codec s key →
      ∃ pdb', storedObject codec s' key = some pdb' ∧
      (∀ n, lists pdb n → lists pdb' n) ∧ (∀ l, selectsPod pdb' l = selectsPod pdb l) ∧
      (0 ≤ disruptionsAllowed pdb → 0 ≤ disruptionsAllowed pdb') ∧
      disruptionsAllowed pdb' ≤ disruptionsAllowed pdb :=
    fun he => ⟨pdb, he.trans hb, fun _ => id, fun _ => rfl, id, le_rfl⟩
  cases heff with
  | quiet hs => exact hsame (by rw [hs])
  | mark _ _ _ _ _ _ _ hk | remove _ _ hk => exact hsame (storedObject_congr (hk key hne))
  | @spend _ pdb₀ updated stored _ _ _ _ hb₀ hu _ hs hc _ =>
    obtain rfl : pdb₀ = pdb := some.inj (hb₀.symm.trans hb)
    obtain ⟨-, hnonneg, hlt, hother, -, hmono⟩ := decrement_ok hu
    have hall := disruptionsAllowed_carries hc
    refine ⟨stored, hs, fun n hn => ?_, fun l => ?_, by omega, by omega⟩
    · rw [lists_carries hc]
      exact hmono n hn
    · rw [selectsPod_carries hc, selectsPod, selectsPod, hother "spec" (by decide)]

theorem Effect.labels (hkey : startsWith key (budgetPrefix ns))
    (hk : startsWith k (listPrefix "pods" ns)) (hb : storedObject codec s' k = some body) :
    ∃ old, storedObject codec s k = some old ∧ podLabels body = podLabels old := by
  cases heff with
  | quiet hs => exact ⟨body, by rwa [hs] at hb, rfl⟩
  | spend _ _ _ _ _ _ _ hframe =>
    have hne : k ≠ key := fun he => pods_not_budgets hk (he ▸ hkey)
    exact ⟨body, by rwa [storedObject_congr (hframe k hne)] at hb, rfl⟩
  | @mark pod marked stored _ _ _ _ _ hpod hm _ hs hc hframe =>
    by_cases he : k = (podTarget ns q.name).key
    · subst he
      obtain rfl : stored = body := some.inj (hs.symm.trans hb)
      refine ⟨pod, hpod, ?_⟩
      rw [podLabels_carries hc, podLabels, podLabels, markEvicted_ok hm _ (by decide)]
    · exact ⟨body, by rwa [storedObject_congr (hframe k he)] at hb, rfl⟩
  | remove _ hnone hframe =>
    by_cases he : k = (podTarget ns q.name).key
    · subst he
      simp [storedObject, hnone] at hb
    · exact ⟨body, by rwa [storedObject_congr (hframe k he)] at hb, rfl⟩

theorem Effect.frame (hk : startsWith k (budgetPrefix ns))
    (hne : k ≠ key) : s'.db.objects.lookup k = s.db.objects.lookup k := by
  have hpod : k ≠ (podTarget ns q.name).key := fun he =>
    pods_not_budgets (podKey_startsWith ns q.name) (he ▸ hk)
  cases heff with
  | quiet hs => rw [hs]
  | spend _ _ _ _ _ _ _ hframe => exact hframe k hne
  | mark _ _ _ _ _ _ _ hframe | remove _ _ hframe => exact hframe k hpod

end

section

variable (hi : Evicting codec ns key L s past)
include hi

theorem Evicting.budget : ∃ pdb, storedObject codec s key = some pdb := by
  obtain ⟨row, hrow⟩ := isSome_iff_exists.mp hi.present
  obtain ⟨pdb, hpdb, -⟩ := hi.versioned.sound.stamped key row hrow
  exact ⟨pdb, storedObject_of_lookup hrow hpdb⟩

theorem Evicting.tame_step (heff : Effect codec ns key q h s s' e)
    (hrow : s'.db.objects.lookup k = some row) : Tame codec ns key L k row := by
  intro body hb
  have hstored := storedObject_of_lookup hrow hb
  constructor
  · intro hpods
    obtain ⟨old, hold, hlabels⟩ := heff.labels hi.isBudget hpods hstored
    obtain ⟨row₀, hrow₀, hb₀⟩ := bind_eq_some_iff.mp hold
    rw [hlabels]
    exact (hi.tame k row₀ hrow₀ old hb₀).1 hpods
  · intro hbudget l hl
    by_cases hk : k = key
    · subst hk
      obtain ⟨pdb, hpdb⟩ := hi.budget
      obtain ⟨pdb', hpdb', -, hsel, -⟩ := heff.budget hi.isBudget hpdb
      obtain rfl : pdb' = body := some.inj (hpdb'.symm.trans hstored)
      obtain ⟨row₀, hrow₀, hb₀⟩ := bind_eq_some_iff.mp hpdb
      rw [hsel]
      exact (hi.tame k row₀ hrow₀ pdb hb₀).2 hbudget l hl
    · rw [heff.frame hbudget hk] at hrow
      exact (hi.tame k row hrow body hb).2 hbudget l hl

theorem Evicting.step (hG : EvictGuard codec ns q (past i) o) (hlist : ∀ pre, o = .list pre → f.headD false = false) :
    Evicting codec ns key L (exec codec s o f).1
      (Function.update past i (past i ++ [⟨o, (exec codec s o f).2⟩])) := by
  have heff := evict_effect hi f hG
  obtain ⟨pdb, hpdb⟩ := hi.budget
  obtain ⟨pdb', hpdb', hmono, -⟩ := heff.budget hi.isBudget hpdb
  -- Each history is an old one, or the old one of the request that makes the call and that call.
  have hpast : ∀ j e, e ∈ Function.update past i (past i ++ [⟨o, (exec codec s o f).2⟩]) j →
      e ∈ past j ∨ e = ⟨o, (exec codec s o f).2⟩ := by
    intro j e he
    by_cases hj : j = i
    · subst hj
      rw [Function.update_self] at he
      exact (mem_append.mp he).imp_right mem_singleton.mp
    · rw [Function.update_of_ne hj] at he
      exact .inl he
  refine ⟨hi.versioned.exec o f, fun j => ?_, hi.isBudget, ?_, fun k row => hi.tame_step heff, ?_, ?_, ?_⟩
  · by_cases hj : j = i
    · subst hj
      rw [Function.update_self]
      exact (hi.known j).step hi.versioned o f
    · rw [Function.update_of_ne hj]
      exact (hi.known j).exec o f
  · obtain ⟨row, hrow, -⟩ := bind_eq_some_iff.mp hpdb'
    exact isSome_iff_exists.mpr ⟨row, hrow⟩
  · intro j e he p hp
    rcases hpast j e he with hold | rfl
    · exact hi.read j e hold p hp
    · exact hi.tame p.1 p.2 (exec_rowsRead hp)
  · intro j r hr
    rcases hpast j _ hr with hold | hnew
    · exact hi.listed j r hold
    · obtain rfl : AppOp.list (budgetPrefix ns) = o := congrArg Sigma.fst hnew
      obtain rfl := eq_of_heq (Sigma.mk.inj hnew).2
      obtain ⟨row, hrow⟩ := isSome_iff_exists.mp hi.present
      refine ⟨rowsUnder s.db (budgetPrefix ns), row, ?_, mem_rowsUnder.mpr ⟨hrow, hi.isBudget⟩,
        fun p hp => (mem_rowsUnder.mp hp).2⟩
      exact if_neg (Bool.eq_false_iff.mp (hlist _ rfl))
  · intro j value x rv hput
    rcases hpast j _ hput with hold | hnew
    · obtain ⟨put, hval, hspent⟩ := hi.spent j value x rv hold
      refine ⟨put, hval, fun name hname => ?_⟩
      obtain ⟨pdb₀, hpdb₀, hl⟩ := hspent name hname
      obtain rfl : pdb₀ = pdb := some.inj (hpdb₀.symm.trans hpdb)
      exact ⟨pdb', hpdb', hmono name hl⟩
    · rw [← hnew] at heff
      cases heff with
      | quiet _ hq => exact (hq _ _ _ rfl).elim
      | mark => exact (pods_not_budgets (podKey_startsWith ns q.name) hi.isBudget).elim
      | spend _ _ _ _ hval hs hc _ =>
        refine ⟨_, hval, fun name hname => ⟨_, hs, ?_⟩⟩
        rw [lists_carries hc, ← lists_carries (carries_mapFloats codec.refloat _)]
        exact hname

end

end Steps

def allowedNow (s : AppState β) (key : String) : ℤ :=
  ((storedObject codec s key).map disruptionsAllowed).getD 0

def listed (s : AppState β) (key name : String) : Bool :=
  (storedObject codec s key).any (fun pdb => lists pdb name)

def terminating (pod : Json) : Bool := (objectMeta pod).deletionTimestamp.isSome

def newlyMarked (ns : String) (s s' : AppState β) (k : String) : Bool :=
  startsWith k (listPrefix "pods" ns) && (storedObject codec s k).any (fun pod =>
    isPodReady pod && !terminating pod && (storedObject codec s' k).any terminating)

def newMarks (ns : String) (s s' : AppState β) : ℕ :=
  (s.db.objects.keys.filter (newlyMarked codec ns s s')).length

def Pending (key : String) (h : History β) : Prop :=
  ∃ h' value x rv, h = h' ++ [⟨AppOp.put key value x, .ok rv⟩]

section Marks

variable {codec} {ns key : String} {L : Set (List (String × String))} {s s' : AppState β}
  {past : ℕ → History β} {i : ℕ} {q : EvictRequest} {h : History β} {e : Σ o : AppOp β, o.Reply}

theorem pending_concat : Pending key (h ++ [e]) ↔ ∃ value x rv, e = ⟨AppOp.put key value x, .ok rv⟩ := by
  constructor
  · rintro ⟨h', value, x, rv, he⟩
    exact ⟨value, x, rv, by simpa using (append_inj' he rfl).2⟩
  · rintro ⟨value, x, rv, rfl⟩
    exact ⟨h, value, x, rv, rfl⟩

theorem newlyMarked_ne (hm : newlyMarked codec ns s s' k) :
    s'.db.objects.lookup k ≠ s.db.objects.lookup k := by
  intro hk
  simp only [newlyMarked, storedObject_congr hk, Bool.and_eq_true, Option.any_eq_true] at hm
  obtain ⟨-, pod, hpod, ⟨-, hnot⟩, pod', hpod', hterm⟩ := hm
  obtain rfl : pod' = pod := some.inj (hpod'.symm.trans hpod)
  simp [hterm] at hnot

theorem Effect.marked (heff : Effect codec ns key q (past i) s s' e) (hi : Evicting codec ns key L s past)
    (hm : newlyMarked codec ns s s' k) :
    k = (podTarget ns q.name).key ∧ Pending key (past i) ∧
      (∀ pod, storedObject codec s k = some pod → listed codec s key (podName pod)) ∧
      storedObject codec s' key = storedObject codec s key ∧
      ∀ value x rv, e ≠ ⟨.put key value x, .ok rv⟩ := by
  have hpods : startsWith k (listPrefix "pods" ns) := (Bool.and_eq_true _ _ ▸ hm).1
  have hkey : k ≠ key := fun he => pods_not_budgets hpods (he ▸ hi.isBudget)
  have hready : ∀ pod, storedObject codec s k = some pod → isPodReady pod := by
    intro pod hpod
    simp only [newlyMarked, hpod, any_some, Bool.and_eq_true] at hm
    exact hm.2.1.1
  have hne := newlyMarked_ne hm
  cases heff with
  | quiet hs => exact (hne (by rw [hs])).elim
  | spend _ _ _ _ _ _ _ hframe => exact (hne (hframe k hkey)).elim
  | remove _ hnone hframe =>
    by_cases he : k = (podTarget ns q.name).key
    · subst he
      simp [newlyMarked, storedObject, hnone] at hm
    · exact (hne (hframe k he)).elim
  | @mark pod _ _ _ _ _ _ hp hb _ hpaid _ _ hframe =>
    obtain rfl : k = (podTarget ns q.name).key := by
      by_contra he
      exact hne (hframe k he)
    refine ⟨rfl, ?_⟩
    obtain ⟨r, hr, hnil⟩ | ⟨h', budget, value, x, rv, hh, pdb, updated, hread, hu, rfl⟩ := hpaid (hready pod hb)
    · obtain ⟨items, row, rfl, -⟩ := hi.listed i r hr
      exact (hi.matching_ne_nil hp hr (hnil items rfl)).elim
    · have hread' : BudgetRead codec ns pod (past i) budget pdb := hh ▸ hread.append _
      obtain rfl := hi.budget_eq hp hread'
      refine ⟨⟨h', _, _, _, hh⟩, fun pod' hpod' => ?_, storedObject_congr (hframe _ hkey.symm), ?_⟩
      · obtain rfl : pod' = pod := some.inj (hpod'.symm.trans hb)
        have hput : (⟨.put budget (codec.toVec updated) x, .ok rv⟩ : Σ o : AppOp β, o.Reply) ∈ past i :=
          hh ▸ mem_append_right h' (mem_singleton.mpr rfl)
        obtain ⟨put, hval, hspent⟩ := hi.spent i _ _ _ hput
        obtain rfl := codec.fromSlice_toVec_some hval
        obtain ⟨pdb', hpdb', hl⟩ := hspent (podName pod') (by
          rw [lists_carries (carries_mapFloats _ _)]
          exact (decrement_ok hu).2.2.2.2.1)
        rw [listed, hpdb']
        exact hl
      · intro value x rv he
        cases he
        exact hkey rfl

theorem Effect.newMarks_le (heff : Effect codec ns key q (past i) s s' e)
    (hi : Evicting codec ns key L s past) : newMarks codec ns s s' ≤ 1 := by
  have hsub : s.db.objects.keys.filter (newlyMarked codec ns s s') ⊆ [(podTarget ns q.name).key] := by
    intro k hk
    exact mem_singleton.mpr (heff.marked hi (mem_filter.mp hk).2).1
  exact ((AList.keys_nodup _).filter _).subperm hsub |>.length_le

theorem exists_of_newMarks (hpos : 0 < newMarks codec ns s s') : ∃ k, newlyMarked codec ns s s' k := by
  obtain ⟨k, hk⟩ := exists_mem_of_length_pos hpos
  exact ⟨k, (mem_filter.mp hk).2⟩

def Within (codec : JsonCodec β) (key : String) (s : AppState β) (past : ℕ → History β) (n : ℕ) : Prop :=
  ∃ T : Finset ℕ, (∀ j, Pending key (past j) → j ∈ T) ∧ (allowedNow codec s key).toNat + T.card ≤ n

theorem Effect.within (heff : Effect codec ns key q (past i) s s' e) (hi : Evicting codec ns key L s past)
    (hn : Within codec key s past n) :
    ∃ m, newMarks codec ns s s' + m ≤ n ∧ Within codec key s' (Function.update past i (past i ++ [e])) m := by
  obtain ⟨T, hT, hle⟩ := hn
  have hother : ∀ j, Pending key (Function.update past i (past i ++ [e]) j) → j ≠ i → j ∈ T := by
    intro j hj hne
    rw [Function.update_of_ne hne] at hj
    exact hT j hj
  have hself : ∀ j, Pending key (Function.update past i (past i ++ [e]) j) → j = i →
      ∃ value x rv, e = ⟨AppOp.put key value x, .ok rv⟩ := by
    rintro j hj rfl
    rw [Function.update_self] at hj
    exact pending_concat.mp hj
  obtain ⟨pdb, hpdb⟩ := hi.budget
  obtain ⟨pdb', hpdb', -, -, -, hdown⟩ := heff.budget hi.isBudget hpdb
  have hnow : allowedNow codec s key = disruptionsAllowed pdb := by simp [allowedNow, hpdb]
  have hnow' : allowedNow codec s' key = disruptionsAllowed pdb' := by simp [allowedNow, hpdb']
  rcases eq_zero_or_pos (newMarks codec ns s s') with hzero | hpos
  · refine ⟨n, by omega, ?_⟩
    by_cases hput : ∃ value x rv, e = ⟨AppOp.put key value x, .ok rv⟩
    · -- The request joins those that have spent a disruption, which is off the budget now.
      obtain ⟨value, x, rv, rfl⟩ := hput
      have hlt : 0 ≤ disruptionsAllowed pdb' ∧ disruptionsAllowed pdb' < disruptionsAllowed pdb := by
        cases heff with
        | quiet _ hq => exact (hq _ _ _ rfl).elim
        | mark => exact (pods_not_budgets (podKey_startsWith ns q.name) hi.isBudget).elim
        | spend _ _ hb hu _ hs hc _ =>
          obtain rfl := some.inj (hb.symm.trans hpdb)
          obtain rfl := some.inj (hs.symm.trans hpdb')
          rw [disruptionsAllowed_carries hc]
          exact ⟨(decrement_ok hu).2.1, (decrement_ok hu).2.2.1⟩
      refine ⟨insert i T, fun j hj => ?_, ?_⟩
      · by_cases hji : j = i
        · exact hji ▸ Finset.mem_insert_self i T
        · exact Finset.mem_insert_of_mem (hother j hj hji)
      · have := Finset.card_insert_le i T
        omega
    · refine ⟨T, fun j hj => hother j hj (fun hji => hput (hself j hj hji)), ?_⟩
      omega
  · -- The request that marks a pod leaves them.
    obtain ⟨k, hk⟩ := exists_of_newMarks hpos
    obtain ⟨-, hpend, -, -, hne⟩ := heff.marked hi hk
    have hcard := Finset.card_erase_of_mem (hT i hpend)
    have hone := heff.newMarks_le hi
    have hT₀ := Finset.card_pos.mpr ⟨i, hT i hpend⟩
    refine ⟨n - 1, by omega, T.erase i, fun j hj => ?_, by omega⟩
    have hji : j ≠ i := by
      intro hji
      obtain ⟨value, x, rv, he⟩ := hself j hj hji
      exact hne value x rv he
    exact Finset.mem_erase.mpr ⟨hji, hother j hj hji⟩

end Marks

def evictions (ns : String) (qs : ℕ → EvictRequest) (s : AppState β) : App β :=
  World.start s (fun i => (qs i).program codec ns)

def ListsSucceed (w : App β) (a : ℕ × List Bool) : Prop :=
  match (w.threads a.1).rest with
  | .call (.list _) _ => a.2.headD false = false
  | _ => True

def storedLabels (ns : String) (s : AppState β) : Set (List (String × String)) :=
  {l | ∃ k pod, startsWith k (listPrefix "pods" ns) = true ∧ storedObject codec s k = some pod ∧ podLabels pod = l}

structure KeepsBudget (ns key : String) (s s' : AppState β) : Prop where
  nonneg : 0 ≤ allowedNow codec s key → 0 ≤ allowedNow codec s' key
  marked : ∀ k pod, newlyMarked codec ns s s' k = true → storedObject codec s k = some pod →
    listed codec s' key (podName pod) = true
  kept : ∀ name, listed codec s key name = true → listed codec s' key name = true

section Runs

variable {codec} {ns key : String} {L : Set (List (String × String))} {s s' : AppState β}
  {past : ℕ → History β} {i : ℕ} {q : EvictRequest} {e : Σ o : AppOp β, o.Reply}

theorem OneBudget.evicting (hone : OneBudget codec ns key s) (hs : Versioned codec s) :
    Evicting codec ns key (storedLabels codec ns s) s (fun _ => []) := by
  refine ⟨hs, fun _ => known_nil s, hone.isBudget, hone.present, fun k row hrow body hb => ⟨fun hk => ?_, ?_⟩,
    fun _ => nofun, fun _ => nofun, fun _ => nofun⟩
  · exact ⟨k, body, hk, storedObject_of_lookup hrow hb, rfl⟩
  · rintro hk l ⟨k', pod, hk', hpod, rfl⟩
    exact hone.selects k' pod k body hk' hpod hk (storedObject_of_lookup hrow hb)

variable (codec ns key L) in
theorem evicting_preserves (qs : ℕ → EvictRequest) :
    World.Preserves (exec codec) (fun i => EvictGuard codec ns (qs i)) ListsSucceed
      (Evicting codec ns key L) := by
  intro w i f o k hcall hi hG hC
  refine hi.step hG (fun pre ho => ?_)
  subst ho
  simpa only [ListsSucceed, hcall] using hC

theorem Effect.keepsBudget (heff : Effect codec ns key q (past i) s s' e)
    (hi : Evicting codec ns key L s past) : KeepsBudget codec ns key s s' := by
  obtain ⟨pdb, hpdb⟩ := hi.budget
  obtain ⟨pdb', hpdb', hmono, -, hnonneg, -⟩ := heff.budget hi.isBudget hpdb
  refine ⟨?_, fun k pod hm hpod => ?_, fun name hl => ?_⟩
  · simpa only [allowedNow, hpdb, hpdb', map_some, getD_some] using hnonneg
  · obtain ⟨-, -, hl, hsame, -⟩ := heff.marked hi hm
    rw [listed, hsame]
    exact hl pod hpod
  · rw [listed, hpdb] at hl
    rw [listed, hpdb']
    exact hmono name hl

theorem Effect.dryRun (heff : Effect codec ns key q (past i) s s' e) (hq : q.dryRun) : s' = s := by
  cases heff with
  | quiet hs => exact hs
  | spend hdry | mark hdry | remove hdry => simp [hq] at hdry

theorem keepsBudget_refl (ns key : String) (s : AppState β) : KeepsBudget codec ns key s s :=
  ⟨id, fun _ _ hm => (newlyMarked_ne hm rfl).elim, fun _ => id⟩

theorem newMarks_self (ns : String) (s : AppState β) : newMarks codec ns s s = 0 := by
  refine Nat.eq_zero_of_not_pos (fun hpos => ?_)
  obtain ⟨k, hk⟩ := exists_of_newMarks hpos
  exact newlyMarked_ne hk rfl

end Runs

theorem evictions_within_budget (ns key : String) (qs : ℕ → EvictRequest) (s : AppState β)
    (hs : Versioned codec s) (hone : OneBudget codec ns key s) (as : List (ℕ × List Bool))
    (hC : Along (App.step codec) ListsSucceed (evictions codec ns qs s) as) :
    total (App.step codec) (fun w a => newMarks codec ns w.shared (App.step codec w a).shared)
        (evictions codec ns qs s) as ≤ (allowedNow codec s key).toNat ∧
      Along (App.step codec) (fun w a => KeepsBudget codec ns key w.shared (App.step codec w a).shared ∧
        ((qs a.1).dryRun = true → (App.step codec w a).shared = w.shared)) (evictions codec ns qs s) as := by
  have hkept : (evictions codec ns qs s).Kept (fun i => EvictGuard codec ns (qs i)) :=
    World.kept_start (fun i => evictProgram_keeps ns (qs i))
  have hstart := hone.evicting hs
  have hpres := evicting_preserves codec ns key (storedLabels codec ns s) qs
  constructor
  · refine hC.total_le (fun w n => (w.Kept (fun i => EvictGuard codec ns (qs i)) ∧
      Evicting codec ns key (storedLabels codec ns s) w.shared w.past) ∧ Within codec key w.shared w.past n) ?_
      ⟨⟨hkept, hstart⟩, ∅, ?_, by simp [evictions, World.start]⟩
    · rintro w a n ⟨⟨hw, hi⟩, hn⟩ ha
      cases hr : (w.threads a.1).rest with
      | ret x =>
        rw [App.step, World.step_ret _ hr, newMarks_self]
        exact ⟨n, by omega, ⟨hw, hi⟩, hn⟩
      | call o k =>
        have hG := hw a.1
        rw [hr] at hG
        obtain ⟨hshared, hpast, -⟩ := World.step_call (exec codec) hr
        obtain ⟨m, hm, hwithin⟩ := (evict_effect hi a.2 hG.1).within hi hn
        refine ⟨m, by rwa [App.step, hshared], ⟨hw.step a, hpres.step hw hi ha⟩, ?_⟩
        rw [App.step, hshared, hpast]
        exact hwithin
    · rintro j ⟨h', value, x, rv, he⟩
      simp [evictions, World.start, World.past] at he
  · refine hpres.along ?_ ?_ hkept hstart hC
    · intro w a hw
      rw [App.step, hw]
      exact ⟨keepsBudget_refl ns key w.shared, fun _ => rfl⟩
    · intro w i f o k hcall hi hG _
      rw [App.step, (World.step_call (exec codec) hcall).1]
      have heff := evict_effect hi f hG
      exact ⟨heff.keepsBudget hi, heff.dryRun⟩

def readyPod (name : String) : Json :=
  .obj [("kind", .str "Pod"), ("metadata", .obj [("labels", .obj [("app", .str "web")]), ("name", .str name),
      ("namespace", .str "a")]),
    ("status", .obj [("conditions", .arr [.obj [("status", .str "True"), ("type", .str "Ready")]])])]

def webBudget : Json :=
  .obj [("metadata", .obj [("name", .str "web"), ("namespace", .str "a")]),
    ("spec", .obj [("selector", .obj [("matchLabels", .obj [("app", .str "web")])])]),
    ("status", .obj [("disruptionsAllowed", .num (.posInt 1))])]

def webBudgetKey : String := budgetPrefix "a" ++ "web"

def webState : AppState (Option Json) :=
  run (fun s p => (exec JsonCodec.parsed s (.put p.1 (some p.2) (some 0)) []).1) ⟨.new _, .new⟩
    [(clusterObjectKey "namespaces" "a", .obj [("metadata", .obj [("name", .str "a")])]),
      ((podTarget "a" "p").key, readyPod "p"), ((podTarget "a" "q").key, readyPod "q"), (webBudgetKey, webBudget)]

def webEvictions : ℕ → EvictRequest
  | 0 => ⟨"p", false, "2026-01-01T00:00:00Z", .ok .null⟩
  | _ => ⟨"q", false, "2026-01-01T00:00:01Z", .ok .null⟩

def webRace : List (ℕ × List Bool) := [0, 1, 0, 1, 0, 1, 0, 1, 1, 0, 1, 0, 0].map (fun i => (i, []))

theorem evictions_within_budget_race :
    total (App.step JsonCodec.parsed)
        (fun w a => newMarks JsonCodec.parsed "a" w.shared (App.step JsonCodec.parsed w a).shared)
        (evictions JsonCodec.parsed "a" webEvictions webState) webRace = 1 ∧
      allowedNow JsonCodec.parsed webState webBudgetKey = 1 ∧
      total (App.step JsonCodec.parsed)
        (fun w a => newMarks JsonCodec.parsed "a" w.shared (App.step JsonCodec.parsed w a).shared)
        (evictions JsonCodec.parsed "a" webEvictions webState) webRace ≤
        (allowedNow JsonCodec.parsed webState webBudgetKey).toNat := by
  have hnew : Versioned JsonCodec.parsed (⟨.new _, .new⟩ : AppState (Option Json)) :=
    ⟨Db.new_sound _, by simp [Db.new]⟩
  have hone : OneBudget JsonCodec.parsed "a" webBudgetKey webState := by
    have hcheck : ∀ k ∈ webState.db.objects.keys, ∀ b ∈ webState.db.objects.keys,
        startsWith k (listPrefix "pods" "a") → startsWith b (budgetPrefix "a") →
        ∀ pod ∈ storedObject JsonCodec.parsed webState k, ∀ pdb ∈ storedObject JsonCodec.parsed webState b,
          selectsPod pdb (podLabels pod) = decide (b = webBudgetKey) := by decide +kernel
    have hkeys : ∀ k j, storedObject JsonCodec.parsed webState k = some j → k ∈ webState.db.objects.keys := by
      intro k j hk
      obtain ⟨row, hrow, -⟩ := bind_eq_some_iff.mp hk
      exact AList.mem_keys.mpr (AList.lookup_isSome.mp (hrow ▸ rfl))
    refine ⟨by decide +kernel, by decide +kernel, fun k pod b pdb hk hpod hb hpdb => ?_⟩
    exact hcheck k (hkeys k pod hpod) b (hkeys b pdb hpdb) hk hb pod hpod pdb hpdb
  refine ⟨by decide +kernel, by decide +kernel, ?_⟩
  refine (evictions_within_budget JsonCodec.parsed "a" webBudgetKey webEvictions webState
    (run_invariant _ (fun s a h => h.exec _ _) _ hnew) hone webRace ?_).1
  refine along_of_forall (P := fun a => a.2 = []) ?_ |>.mono (fun w a ha => ?_)
  · decide
  · simp only [ListsSucceed, ha]
    split <;> trivial

end U7s.Handlers
