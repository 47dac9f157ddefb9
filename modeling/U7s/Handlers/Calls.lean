import U7s.Handlers.Resource
import U7s.Store.Server

namespace U7s.Handlers

open Store Programs Fallible Option
open Rbac (RBAC_GROUP)

variable {β : Type} (codec : JsonCodec β)

def decisionRead (h : History β) : Option (Row β) :=
  h.foldl (fun seen e => match e with
    | ⟨AppOp.get _, Except.ok (some row)⟩ => some (seen.getD row)
    | ⟨AppOp.put _ _ _, _⟩ => none
    | ⟨AppOp.createIfNamespaceActive _ _ _, _⟩ => none
    | _ => seen) none

@[simp] theorem decisionRead_get (h : History β) (key : String) (row : Row β) :
    decisionRead (h ++ [⟨.get key, .ok (some row)⟩]) = some ((decisionRead h).getD row) := by
  simp [decisionRead]

@[simp] theorem decisionRead_put (h : History β) (key : String) (value : β) (expected : Option ℕ)
    (r : Except StoreError ℕ) : decisionRead (h ++ [⟨.put key value expected, r⟩]) = none := by
  simp [decisionRead]

theorem decisionRead_get_some (hr : decisionRead h = some row) (key : String)
    (r : Except StoreError (Option (Row β))) : decisionRead (h ++ [⟨.get key, r⟩]) = some row := by
  rcases r with e | _ | row'
  · simpa [decisionRead] using hr
  · simpa [decisionRead] using hr
  · rw [decisionRead_get, hr, getD_some]

def ObjectRequest.Edits : ObjectRequest → Json → Json → Prop
  | .delete _, _, _ => False
  | .replace q, body, result => q.edit (some body) = .ok result
  | .patch q, body, result => q.edit body = .ok result

def Drains (q : ObjectRequest) (body : Json) : Prop :=
  ∃ result, q.Edits body result ∧ finalizerDrainComplete result = true

def Decides (t : Target) (q : ObjectRequest) (body : Json) : Prop :=
  (∃ d, q = .delete d ∧ d.decide t body = .ok none) ∨ Drains q body

def ObjectRequest.dryRun : ObjectRequest → Bool
  | .delete q => q.dryRun
  | .replace q => q.dryRun
  | .patch q => q.dryRun

def Stored (t : Target) (h : History β) : Prop :=
  match h.getLast? with
  | some ⟨AppOp.put key _ _, Except.ok _⟩ => key = t.key
  | some ⟨AppOp.createIfNamespaceActive _ key _, Except.ok _⟩ => key = t.key
  | _ => False

def Applied (h : History β) : Prop :=
  match h.getLast? with
  | some ⟨AppOp.applyObject _ _, _⟩ => True
  | _ => False

def Evicted (h : History β) : Prop :=
  match h.getLast? with
  | some ⟨AppOp.removeObject _, _⟩ => True
  | _ => False

def Ends (q : ObjectRequest) (h : History β) (r : Except Failure Json) : Prop :=
  (Applied h → (∃ body, r = .ok body) ∧ q.dryRun = false ∧ ∀ d, q ≠ .delete d) ∧
    ∀ d body, q = .delete d → r = .ok body → d.dryRun = true ∨ Evicted h

def Computes (t : Target) (expected : Option ℕ) (old : Option Json) (new : Json) : ObjectRequest → Prop
  | .delete q => ∃ body, old = some body ∧ q.decide t body = .ok (some new) ∧
      parseResourceVersion (resourceVersion new) = .ok expected
  | .replace q => checkReplaceResourceVersionPrecondition t expected old = .ok () ∧ q.edit old = .ok new
  | .patch q => ∃ stored body, old = some stored ∧ q.admission stored body = .ok new ∧
      (q.edit stored = .ok body ∨ q.isSsa = true ∧ ∃ merged, q.merge stored = .ok merged ∧
        q.validate stored (pinServerOwnedDeletionFields merged (some stored)) = .ok body)

def Creates (new : Json) : ObjectRequest → Prop
  | .delete _ => False
  | .replace q => q.edit none = .ok new
  | .patch q => q.create = .ok new

def HasRead (t : Target) (h : History β) (body : Json) (row : Row β) : Prop :=
  decisionRead h = some row ∧ ⟨.get t.key, .ok (some row)⟩ ∈ h ∧ codec.fromSlice row.value = some body

/-- A request is on its own object only, and the index is told last. For a cluster-scoped object a `PUT` may drain
or write one it has not read. -/
def CallGuard (t : Target) (q : ObjectRequest) (h : History β) (o : AppOp β) : Prop :=
  ¬ Applied h ∧ match o with
    | .put key value expected => key = t.key ∧ (t.ns.isSome → ∃ new, value = codec.toVec new ∧
        ((∃ row body, HasRead codec t h body row ∧ Computes t expected (some body) new q) ∨
          decisionRead h = none ∧ (∃ p, q = .replace p) ∧ Computes t expected none new q))
    | .createIfNamespaceActive _ key value => key = t.key ∧ ∃ new, value = codec.toVec new ∧ Creates new q
    | .delete key _ => key = t.key ∧
        (t.ns.isSome → ∃ row body, HasRead codec t h body row ∧ Decides t q body)
    | .applyObject key _ => key = t.rbacKey ∧ Stored t h
    | .removeObject key => key = t.rbacKey
    | _ => True

section Serves

variable {codec}

theorem not_applied {o : AppOp β} {r : o.Reply} (ho : ∀ key body, o ≠ .applyObject key body) :
    ¬ Applied (h ++ [⟨o, r⟩]) := by
  cases o with
  | applyObject key body => exact (ho key body rfl).elim
  | _ => simp [Applied]

theorem Stored.not_applied (hs : Stored t h) : ¬ Applied h := by
  intro ha
  unfold Stored at hs
  unfold Applied at ha
  split at ha
  · next hl => simp [hl] at hs
  · exact ha

theorem hasRead_get (hh : decisionRead h = none) (hb : codec.fromSlice row.value = some body) :
    HasRead codec t (h ++ [⟨.get t.key, .ok (some row)⟩]) body row :=
  ⟨by rw [decisionRead_get, hh, getD_none], by simp, hb⟩

theorem ends_error (hh : ¬ Applied h) (e : Failure) : Ends q h (.error e) :=
  ⟨fun ha => (hh ha).elim, fun _ _ _ hr => by cases hr⟩

theorem ends_of_not_applied (hq : ∀ d, q ≠ .delete d) (hh : ¬ Applied h) : Ends q h r :=
  ⟨fun ha => (hh ha).elim, fun d _ he => (hq d he).elim⟩

theorem ends_dryRun (hd : d.dryRun) (hh : ¬ Applied h) : Ends (.delete d) h (.ok body) := by
  refine ⟨fun ha => (hh ha).elim, fun d' _ he _ => .inl ?_⟩
  cases he
  exact hd

theorem keeps_loadStored {γ : Type} {R : History β → Except Failure γ → Prop} {f : Row β → Handler β γ}
    {G : History β → AppOp β → Prop} (hG : G h (.get t.key)) (herr : ∀ r e, R (h ++ [⟨.get t.key, r⟩]) (.error e))
    (hf : ∀ row, Keeps G R (h ++ [⟨.get t.key, .ok (some row)⟩]) (f row)) : Keeps G R h (loadStored t >>= f) := by
  refine keeps_bind.mpr (keeps_bind.mpr ⟨hG, ?_⟩)
  rintro (e | _ | row)
  · exact herr _ _
  · exact herr _ _
  · exact hf row

theorem safe_loadStored {γ : Type} {f : Row β → Handler β γ} {G : History β → AppOp β → Prop} (hG : G h (.get t.key))
    (hf : ∀ row, Safe G (h ++ [⟨.get t.key, .ok (some row)⟩]) (f row)) : Safe G h (loadStored t >>= f) :=
  keeps_loadStored hG (fun _ _ => trivial) hf

def Serves (codec : JsonCodec β) (t : Target) (q : ObjectRequest) (h : History β) (x : Handler β Json) : Prop :=
  Keeps (CallGuard codec t q) (fun h r => t.group = RBAC_GROUP → Ends q h r) h x

theorem serves_throw (hh : ¬ Applied h) (e : Failure) : Serves codec t q h (throw e) :=
  fun _ => ends_error hh e

theorem serves_pure (hq : ∀ d, q ≠ .delete d) (hh : ¬ Applied h) : Serves codec t q h (pure body) :=
  fun _ => ends_of_not_applied hq hh

theorem serves_attempt {γ : Type} {x : Except Failure γ} {f : γ → Handler β Json} (hh : ¬ Applied h)
    (hf : ∀ a, x = .ok a → Serves codec t q h (f a)) : Serves codec t q h (attempt x >>= f) :=
  keeps_attempt_bind (fun e _ => ends_error hh e) hf

theorem serves_load (hh : ¬ Applied h)
    (hf : ∀ row, Serves codec t q (h ++ [⟨.get t.key, .ok (some row)⟩]) (f row)) :
    Serves codec t q h (loadStored t >>= f) :=
  keeps_loadStored ⟨hh, trivial⟩ (fun _ e _ => ends_error (not_applied (by nofun)) e) hf

theorem serves_apply (hq : ∀ d, q ≠ .delete d) (hs : Stored t h) (hd : q.dryRun = false) (x : Except Failure Json) :
    Serves codec t q h (attempt x >>= fun body => applyToIndex t body >>= fun _ => pure body) := by
  refine serves_attempt hs.not_applied (fun body _ => ?_)
  refine keeps_bind.mpr (keeps_ite (fun _ => ⟨⟨hs.not_applied, rfl, hs⟩, fun _ _ => ?_⟩) (fun _ _ => ?_))
  · exact ⟨fun _ => ⟨⟨body, rfl⟩, hd, hq⟩, fun d _ he => (hq d he).elim⟩
  · exact ends_of_not_applied hq hs.not_applied

theorem serves_evict (hh : ¬ Applied h) (x : Except Failure Json) :
    Serves codec t q h (evictFromIndex t >>= fun _ => attempt x) := by
  refine keeps_bind.mpr (keeps_ite (fun _ => ⟨⟨hh, rfl⟩, fun _ _ => ⟨fun ha => ?_, fun _ _ _ _ => .inr ?_⟩⟩) ?_)
  · exact absurd ha (not_applied nofun)
  · simp [Evicted]
  · exact fun hne hg => (hne hg).elim

theorem deleteResource_serves (d : DeleteRequest) (n : ℕ) (hh : ¬ Applied h) (hr : decisionRead h = none) :
    Serves codec t (.delete d) h (deleteResource codec t d n) := by
  induction n generalizing h with
  | zero => exact serves_throw hh _
  | succ n ih =>
    unfold deleteResource
    refine serves_load hh (fun row => serves_attempt (not_applied nofun) (fun body hb => ?_))
    have hread := hasRead_get (t := t) hr (fromBytes_ok hb)
    refine serves_attempt (not_applied nofun) (fun decision hd => ?_)
    cases decision with
    | some soft =>
      refine keeps_ite (fun hdry _ => ends_dryRun hdry (not_applied nofun)) (fun _ => ?_)
      refine serves_attempt (not_applied nofun) (fun expected he => ?_)
      refine keeps_request_bind ⟨not_applied nofun, rfl, fun _ => ⟨soft, rfl, .inl ⟨row, body, hread, ?_⟩⟩⟩ ?_
      · exact ⟨body, rfl, hd, he⟩
      · rintro (e | rv)
        · cases e with
          | revisionMismatch e c => exact ih (not_applied nofun) (decisionRead_put _ _ _ _ _)
          | _ => exact serves_throw (not_applied (by nofun)) _
        · exact serves_evict (not_applied (by nofun)) _
    | none =>
      refine keeps_ite (fun hdry _ => ends_dryRun hdry (not_applied nofun)) (fun _ => ?_)
      refine keeps_request_bind ⟨not_applied nofun, rfl, fun _ => ⟨row, body, hread, .inl ⟨d, rfl, hd⟩⟩⟩ (fun r => ?_)
      exact serves_attempt (not_applied nofun) (fun _ _ => serves_evict (not_applied (by nofun)) (.ok successStatus))

theorem serves_drain (hq : ∀ d, q ≠ .delete d) (hh : ¬ Applied h)
    (hd : t.ns.isSome → ∃ row stored, HasRead codec t h stored row ∧ Drains q stored) :
    Serves codec t q h (completeFinalizerDrain t >>= fun _ => pure body) := by
  have hdel : ∀ h : History β, ¬ Applied h → (t.ns.isSome → ∃ row stored, HasRead codec t h stored row ∧
      Drains q stored) → Keeps (CallGuard codec t q) (fun h _ => ¬ Applied h) h
      (storeDelete t.key none >>= fun r => attempt (t.report r) >>= fun _ => evictFromIndex t) := by
    intro h hh hd
    refine keeps_request_bind ⟨hh, rfl, fun hns => ?_⟩
      (fun r => keeps_attempt_bind (fun _ => not_applied nofun) (fun _ _ => ?_))
    · obtain ⟨row, stored, hread, hdrain⟩ := hd hns
      exact ⟨row, stored, hread, .inr hdrain⟩
    · exact keeps_ite (fun _ => ⟨⟨not_applied nofun, rfl⟩, fun _ => not_applied nofun⟩) (fun _ => not_applied nofun)
  refine Keeps.bind (Q := fun h _ => ¬ Applied h) ?_ (fun _ _ hn => serves_pure hq hn) (fun _ e hn _ => ends_error hn e)
  refine keeps_ite (fun _ => keeps_request_bind ⟨hh, trivial⟩ (fun r => hdel _ (not_applied nofun) (fun hns => ?_)))
    (fun _ => hdel h hh hd)
  obtain ⟨row, stored, ⟨hr, hm, hb⟩, hdrain⟩ := hd hns
  exact ⟨row, stored, ⟨decisionRead_get_some hr t.key r, by simp [hm], hb⟩, hdrain⟩

def Wrote (t : Target) (h : History β) : Except Failure ℕ → Prop
  | .ok _ => Stored t h
  | .error _ => ¬ Applied h

theorem storePut_wrote (hG : CallGuard codec t q h (.put t.key value expected)) :
    Keeps (CallGuard codec t q) (Wrote t) h (storePut t.key value expected >>= fun r => attempt (t.report r)) := by
  refine keeps_request_bind hG ?_
  rintro (e | rv)
  · exact not_applied nofun
  · simp [Target.report, attempt, Keeps, Prog.Keeps, Wrote, Stored]

theorem storeBody_wrote (hh : ¬ Applied h)
    (hpre : checkReplaceResourceVersionPrecondition t expected old = .ok ()) (hedit : p.edit old = .ok new)
    (hread : ∀ body, old = some body → ∃ row, HasRead codec t h body row) :
    Keeps (CallGuard codec t (.replace p)) (Wrote t) h (storeBody t old.isNone (codec.toVec new) expected) := by
  cases old with
  | some body =>
    obtain ⟨row, hread⟩ := hread body rfl
    exact storePut_wrote ⟨hh, rfl, fun _ => ⟨new, rfl, .inl ⟨row, body, hread, hpre, hedit⟩⟩⟩
  | none =>
    have hrace : ∀ h : History β, ¬ Applied h → (t.ns.isSome → decisionRead h = none) →
        Keeps (CallGuard codec t (.replace p)) (Wrote t) h
          (updateAfterLostCreateRace t (codec.toVec new) expected) :=
      fun h hh hr => keeps_attempt_bind (fun _ => hh) (fun _ _ =>
        storePut_wrote ⟨hh, rfl, fun hns => ⟨new, rfl, .inr ⟨hr hns, ⟨p, rfl⟩, hpre, hedit⟩⟩⟩)
    show Keeps _ _ _ (storeNew t (codec.toVec new) expected)
    unfold storeNew
    cases hns : t.ns with
    | some ns =>
      refine keeps_request_bind ⟨hh, rfl, new, rfl, hedit⟩ ?_
      rintro (e | rv)
      · rcases e with _ | _ | e
        · exact not_applied nofun
        · exact not_applied nofun
        · cases e with
          | alreadyExists key => exact hrace _ (not_applied nofun) (fun _ => by simp [decisionRead])
          | _ => exact not_applied nofun
      · simp [Keeps, Prog.Keeps, Wrote, Stored, pure, ExceptT.pure, ExceptT.mk, ExceptT.run]
    | none =>
      refine keeps_request_bind ⟨hh, rfl, fun hs => by simp [hns] at hs⟩ ?_
      rintro (e | rv)
      · cases e with
        | alreadyExists key =>
          exact keeps_ite (fun _ => hrace _ (not_applied nofun) (fun hs => by simp [hns] at hs))
            (fun _ => not_applied nofun)
        | _ => exact not_applied nofun
      · simp [Keeps, Prog.Keeps, Wrote, Stored, pure, ExceptT.pure, ExceptT.mk, ExceptT.run]

theorem replaceResource_serves (q : ReplaceRequest) (hh : ¬ Applied h) (hr : decisionRead h = none) :
    Serves codec t (.replace q) h (replaceResource codec t q) := by
  have hq : ∀ d, ObjectRequest.replace q ≠ .delete d := fun _ => nofun
  refine serves_attempt hh (fun expected _ => keeps_request_bind ⟨hh, trivial⟩ ?_)
  rintro (e | stored)
  · exact serves_throw (not_applied (by nofun)) _
  · have hread : ∀ body, stored.bind (fun row => codec.fromSlice row.value) = some body →
        ∃ row, HasRead codec t (h ++ [⟨AppOp.get t.key, .ok stored⟩]) body row := by
      intro body hb
      obtain ⟨row, rfl, hrow⟩ := bind_eq_some_iff.mp hb
      exact ⟨row, hasRead_get hr hrow⟩
    refine serves_attempt (not_applied nofun) (fun _ hpre =>
      keeps_ite (fun _ => serves_throw (not_applied (by nofun)) _) (fun _ => ?_))
    refine serves_attempt (not_applied nofun) (fun body hb => ?_)
    refine keeps_ite (fun _ => serves_pure hq (not_applied nofun)) (fun hd => ?_)
    refine keeps_ite (fun hdrain => serves_drain hq (not_applied nofun) (fun hns => ?_)) (fun _ => ?_)
    · -- The drain is taken only when the read found an object.
      obtain ⟨hsome, hdone⟩ := Bool.and_eq_true_iff.mp hdrain
      obtain ⟨old, hold⟩ := isSome_iff_exists.mp (by simpa [isSome_iff_ne_none.mp hns] using hsome)
      obtain ⟨row, hrow⟩ := hread old hold
      rw [hold] at hb
      exact ⟨row, old, hrow, body, hb, hdone⟩
    · refine Keeps.bind (storeBody_wrote (not_applied nofun) hpre hb hread) (fun h rv hs => ?_)
        (fun h e hn _ => ends_error hn e)
      exact serves_apply hq hs (Bool.eq_false_iff.mpr hd) _

theorem patchAttempt_serves (hh : ¬ Applied h) (hr : decisionRead h = some row) (hm : ⟨.get t.key, .ok (some row)⟩ ∈ h)
    (hc : ∀ h e c, ¬ Applied h → decisionRead h = none → Serves codec t (.patch q) h (conflict e c)) :
    Serves codec t (.patch q) h (patchAttempt codec t q row conflict) := by
  have hq : ∀ d, ObjectRequest.patch q ≠ .delete d := fun _ => nofun
  refine serves_attempt hh (fun stored hb => serves_attempt hh (fun body he => keeps_ite (fun hdone => ?_) (fun _ => ?_)))
  · unfold unlessDryRun
    split_ifs
    · exact serves_pure hq hh
    · exact serves_drain hq hh (fun _ => ⟨row, stored, ⟨hr, hm, fromBytes_ok hb⟩, body, he, hdone⟩)
  · refine serves_attempt hh (fun new ha => keeps_ite (fun _ => serves_pure hq hh) (fun hd => ?_))
    refine serves_attempt hh (fun expected _ => keeps_request_bind ⟨hh, rfl, fun _ => ?_⟩ ?_)
    · exact ⟨new, rfl, .inl ⟨row, stored, ⟨hr, hm, fromBytes_ok hb⟩, stored, body, rfl, ha, .inl he⟩⟩
    · rintro (e | rv)
      · cases e with
        | revisionMismatch e c => exact hc _ e c (not_applied nofun) (decisionRead_put _ _ _ _ _)
        | _ => exact serves_throw (not_applied (by nofun)) _
      · exact serves_apply hq (by simp [Stored]) (Bool.eq_false_iff.mpr hd) _

theorem patchLoop_serves (q : PatchRequest) (retries : ℕ) (hh : ¬ Applied h) (hr : decisionRead h = some row)
    (hm : ⟨.get t.key, .ok (some row)⟩ ∈ h) : Serves codec t (.patch q) h (patchLoop codec t q retries row) := by
  induction retries generalizing h row with
  | zero => exact patchAttempt_serves hh hr hm (fun _ _ _ hn _ => serves_throw hn _)
  | succ n ih =>
    refine patchAttempt_serves hh hr hm (fun h _ _ hn hr =>
      serves_load hn (fun row => ih (not_applied nofun) ?_ (by simp)))
    rw [decisionRead_get, hr, getD_none]

theorem mergeAfterLostRace_serves (hd : q.dryRun = false) (hssa : q.isSsa)
    (hh : ¬ Applied h) (hr : decisionRead h = none) :
    Serves codec t (.patch q) h (mergeAfterLostRace codec t q) := by
  have hq : ∀ d, ObjectRequest.patch q ≠ .delete d := fun _ => nofun
  refine serves_load hh (fun row => serves_attempt (not_applied nofun) (fun stored hb => ?_))
  refine serves_attempt (not_applied nofun) (fun merged hmerge => ?_)
  refine serves_attempt (not_applied nofun) (fun body hv => ?_)
  refine serves_attempt (not_applied nofun) (fun new ha => serves_attempt (not_applied nofun) (fun expected _ => ?_))
  refine keeps_request_bind ⟨not_applied nofun, rfl, fun _ => ⟨new, rfl, .inl ⟨row, stored, ?_, ?_⟩⟩⟩ ?_
  · exact hasRead_get hr (fromBytes_ok hb)
  · exact ⟨stored, body, rfl, ha, .inr ⟨hssa, merged, hmerge, hv⟩⟩
  · rintro (e | rv)
    · exact serves_throw (not_applied (by nofun)) _
    · exact serves_apply hq (by simp [Stored]) hd _

theorem doPatch_serves (q : PatchRequest) (hh : ¬ Applied h) (hr : decisionRead h = none) :
    Serves codec t (.patch q) h (doPatch codec t q) := by
  have hq : ∀ d, ObjectRequest.patch q ≠ .delete d := fun _ => nofun
  refine keeps_request_bind ⟨hh, trivial⟩ ?_
  rintro (e | _ | row)
  · exact serves_throw (not_applied (by nofun)) _
  · refine keeps_ite (fun _ => serves_throw (not_applied (by nofun)) _) (fun hssa => ?_)
    refine serves_attempt (not_applied nofun) (fun body hb => ?_)
    refine keeps_ite (fun _ => serves_pure hq (not_applied nofun)) (fun hd => ?_)
    have hdry : q.dryRun = false := Bool.eq_false_iff.mpr hd
    refine keeps_request_bind ⟨not_applied nofun, rfl, body, rfl, hb⟩ ?_
    rintro (e | rv)
    · rcases e with _ | _ | e
      · exact serves_throw (not_applied (by nofun)) _
      · exact serves_throw (not_applied (by nofun)) _
      · cases e with
        | alreadyExists key =>
          exact mergeAfterLostRace_serves hdry (by simpa using hssa) (not_applied nofun) (by simp [decisionRead])
        | _ => exact serves_throw (not_applied (by nofun)) _
    · exact serves_apply hq (by simp [Stored]) hdry _
  · refine patchLoop_serves q _ (not_applied nofun) ?_ (by simp)
    rw [decisionRead_get, hr, getD_none]

theorem program_serves (q : ObjectRequest) (t : Target) : Serves codec t q [] (q.handler codec t) := by
  have hnil : ¬ Applied ([] : History β) := nofun
  cases q with
  | delete q => exact keeps_ite (fun _ => serves_throw hnil _) (fun _ => deleteResource_serves q q.attempts hnil rfl)
  | replace q => exact replaceResource_serves q hnil rfl
  | patch q => exact doPatch_serves q hnil rfl

end Serves

end U7s.Handlers
