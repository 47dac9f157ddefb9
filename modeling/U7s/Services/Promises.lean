import U7s.Handlers.Termination
import U7s.Services.Ledger

namespace U7s.Services

open Addresses Handlers Programs Store List

def Owns (l : Ledger) (log : List Reservation) : Prop := log.Subperm l.owned

theorem Tidy.owns (l : Ledger) (log : List Reservation) (h : Tidy l log) : Owns l log :=
  h.trans (sublist_append_left _ _).subperm

def Ends {α : Type} (Pre : Ledger → List Reservation → Prop) (x : Reserver α) : Prop :=
  ∀ h log, Pre (ledger h) log → Logged.Keeps Guard (fun h' log' _ => Owns (ledger h') log') h log x

section Rules

variable {α γ : Type} {Pre Pre' : Ledger → List Reservation → Prop}

theorem Ends.pure (h : ∀ l log, Pre l log → Owns l log) : Ends Pre (pure a : Reserver α) :=
  fun _ _ hpre => h _ _ hpre

theorem Ends.fail (h : ∀ l log, Pre l log → Owns l log) : Ends Pre (Logged.fail e : Reserver α) :=
  fun _ _ hpre => h _ _ hpre

theorem Ends.weaken (hx : Ends Pre x) (h : ∀ l log, Pre' l log → Pre l log) : Ends Pre' x :=
  fun t log hpre => hx t log (h _ _ hpre)

theorem Ends.ite [Decidable c] (hx : c → Ends Pre x) (hy : ¬c → Ends Pre y) :
    Ends Pre (if c then x else y) := by
  split
  · exact hx ‹c›
  · exact hy ‹¬c›

theorem Ends.attempt_bind {f : γ → Reserver α} (h : ∀ l log, Pre l log → Owns l log)
    (hf : ∀ a, r = .ok a → Ends Pre (f a)) : Ends Pre (Logged.attempt r >>= f) := by
  cases r with
  | error e => exact Ends.fail h
  | ok a => exact hf a rfl

theorem Ends.bind (hy : Ends Pre y) (hf : ∀ a, Ends Owns (f a)) : Ends Pre (y >>= f) := by
  intro h log hpre
  apply (hy h log hpre).bind
  · intro h' log' a howns
    exact hf a h' log' howns
  · intro h' log' e howns
    exact howns

theorem Ends.call (hg : ∀ h log, Pre (ledger h) log → Guard h o)
    (hf : ∀ reply, Ends (fun l' log => ∃ l, Pre l log ∧ l' = l.note ⟨o, reply⟩) (f reply)) :
    Ends Pre (Logged.request o >>= f) := by
  intro h log hpre
  apply Logged.keeps_request_bind (hg h log hpre)
  intro reply
  exact hf reply _ log ⟨ledger h, hpre, ledger_append _ _⟩

theorem Reserves.ends {Pre : Ledger → Prop} {Post : γ → Ledger → Prop} (hy : Reserves Pre y Post)
    (hf : ∀ a, Ends (fun l log => Tidy l log ∧ Post a l) (f a)) :
    Ends (fun l log => Tidy l log ∧ Pre l) (y >>= f) := by
  intro h log hpre
  apply (hy h log hpre.1 hpre.2).bind
  · rintro h' log' a ⟨htidy, -, hpost⟩
    exact hf a h' log' ⟨htidy, hpost a rfl⟩
  · rintro h' log' e ⟨htidy, -⟩
    exact htidy.owns

theorem keeps_releaseAll (hsub : (rs ++ log).Subperm (ledger h).owned) :
    Logged.Keeps Guard (fun h' log' _ => log' = log ∧ Owns (ledger h') log) h log (releaseAll rs) := by
  induction rs generalizing h with
  | nil => exact ⟨rfl, hsub⟩
  | cons r rs ih =>
    have hr : r ∈ (ledger h).owned := hsub.subset mem_cons_self
    refine Logged.keeps_request_bind hr (fun reply => ih ?_)
    have howned : (ledger (h ++ [⟨.release r, reply⟩])).owned = (ledger h).owned.erase r := by
      rw [ledger_append]
      exact Ledger.owned_afterRelease _ r
    rw [howned]
    have herase := hsub.erase r
    rwa [cons_append, erase_cons_head] at herase

theorem ends_commit : Ends (fun l _ => stale.Subperm l.owned) (commit stale >>= fun _ => pure a) := by
  intro h log hsub
  have hrelease : Logged.Keeps Guard (fun h' log' _ => log' = [] ∧ Owns (ledger h') []) h [] (releaseAll stale) :=
    keeps_releaseAll (by rwa [append_nil])
  have hcommit : Logged.Keeps Guard (fun h' log' (_ : Except Failure Unit) => log' = [] ∧ Owns (ledger h') []) h log
      (commit stale) := hrelease
  apply hcommit.bind
  · rintro h' log' _ ⟨rfl, htidy⟩
    exact htidy
  · rintro h' log' _ ⟨rfl, htidy⟩
    exact htidy

theorem ends_rollback (hf : Ends Tidy (f ())) : Ends Tidy (rollback >>= f) := by
  intro h log htidy
  have hrelease : Logged.Keeps Guard (fun h' log' _ => log' = [] ∧ Owns (ledger h') []) h [] (releaseAll log) :=
    keeps_releaseAll (by rw [append_nil]; exact htidy.owns)
  have hrollback : Logged.Keeps Guard (fun h' log' (_ : Except Failure Unit) => log' = [] ∧ Owns (ledger h') []) h log
      rollback := hrelease
  apply hrollback.bind
  · rintro h' log' u ⟨rfl, -⟩
    exact hf h' [] nil_subperm
  · rintro h' log' _ ⟨rfl, htidy'⟩
    exact htidy'

theorem ends_releaseAll : Ends (fun l log => (rs ++ log).Subperm l.owned) (releaseAll rs) := by
  intro h log hsub
  apply (keeps_releaseAll hsub).mono
  rintro h' log' _ ⟨rfl, howns⟩
  exact howns

end Rules

section Writes

variable {α : Type} {id : ServiceName} {body : Json} {stale : List Reservation}

def Ready (body : Json) (stale : List Reservation) (l : Ledger) (log : List Reservation) : Prop :=
  Tidy l log ∧ (∀ r ∈ holdings (body.idx "spec"), l.Backs r) ∧
    stale = difference l.old (holdings (body.idx "spec"))

theorem Ready.afterWrite (h : Ready body stale l log) : stale.Subperm (l.afterWrite body).owned := by
  rw [h.2.2]
  exact Subperm.refl _

theorem ends_write (hguard : ∀ h log, Ready body stale (ledger h) log → Guard h o)
    (hreply : ∀ reply, (∀ l : Ledger, l.note ⟨o, reply⟩ = l.afterWrite body) ∧
        f reply = (commit stale >>= fun _ => pure a) ∨
      (∀ l : Ledger, l.note ⟨o, reply⟩ = l) ∧ Ends (Ready body stale) (f reply)) :
    Ends (Ready body stale) (Logged.request o >>= f) := by
  apply Ends.call hguard
  intro reply
  obtain ⟨hnote, hf⟩ | ⟨hnote, hf⟩ := hreply reply
  · rw [hf]
    apply ends_commit.weaken
    rintro l' log ⟨l, hready, rfl⟩
    rw [hnote]
    exact hready.afterWrite
  · apply hf.weaken
    rintro l' log ⟨l, hready, rfl⟩
    rw [hnote]
    exact hready

theorem ends_callPut (hok : ∀ n, f (.ok n) = (commit stale >>= fun _ => pure a))
    (herr : ∀ e, Ends (Ready body stale) (f (.error e))) :
    Ends (Ready body stale) (callPut id body expected >>= f) := by
  apply ends_write (o := .put id body expected) (fun h log hpre => hpre.2.1)
  rintro (e | n)
  · exact .inr ⟨fun _ => rfl, herr e⟩
  · exact .inl ⟨fun _ => rfl, hok n⟩

theorem ends_callCreate (hok : ∀ n, f (.ok n) = (commit stale >>= fun _ => pure a))
    (herr : ∀ e, Ends (Ready body stale) (f (.error e))) :
    Ends (Ready body stale) (callCreate id body detached >>= f) := by
  apply ends_write (o := .create id body detached) (fun h log hpre => hpre.2.1)
  rintro (e | n)
  · exact .inr ⟨fun _ => rfl, herr e⟩
  · exact .inl ⟨fun _ => rfl, hok n⟩

end Writes

section Requests

variable {α : Type} {net : Network} {id : ServiceName}

theorem ends_callGet (herr : ∀ e, Ends Tidy (f (.error e)))
    (hok : ∀ row, Ends (fun l log => Tidy l log ∧ l.old = (row.map storedHoldings).getD []) (f (.ok row))) :
    Ends Tidy (callGet id >>= f) := by
  apply Ends.call (o := .get id) (fun _ _ _ => trivial)
  intro reply
  cases reply with
  | error e =>
    apply (herr e).weaken
    rintro l' log ⟨l, htidy, rfl⟩
    exact htidy
  | ok row =>
    apply (hok row).weaken
    rintro l' log ⟨l, htidy, rfl⟩
    exact ⟨htidy, rfl⟩

theorem keeps_loadService (htidy : Tidy (ledger h) log) :
    Logged.Keeps Guard (fun h' log' r => log' = log ∧ Tidy (ledger h') log ∧
      ∀ row, r = .ok row → (ledger h').old = storedHoldings row) h log (loadService id) := by
  refine Logged.keeps_request_bind trivial (fun reply => ?_)
  match reply with
  | .error e | .ok none => exact ⟨rfl, by rw [ledger_append]; exact htidy, fun row hrow => by cases hrow⟩
  | .ok (some row) =>
    refine ⟨rfl, by rw [ledger_append]; exact htidy, fun row' hrow => ?_⟩
    cases hrow
    rw [ledger_append]
    rfl

theorem ends_loadService (hf : ∀ row, Ends (fun l log => Tidy l log ∧ l.old = storedHoldings row) (f row)) :
    Ends Tidy (loadService id >>= f) := by
  intro h log htidy
  apply (keeps_loadService htidy).bind
  · rintro h' log' row ⟨rfl, htidy', hrow⟩
    exact hf row h' log' ⟨htidy', hrow row rfl⟩
  · rintro h' log' e ⟨rfl, htidy', -⟩
    exact htidy'.owns

theorem ends_loadService_nil (hf : ∀ row, Ends (fun l log => log = [] ∧ l.old = storedHoldings row) (f row)) :
    Ends (fun _ log => log = []) (loadService id >>= f) := by
  rintro h log rfl
  have htidy : Tidy (ledger h) [] := nil_subperm
  apply (keeps_loadService htidy).bind
  · rintro h' log' row ⟨rfl, -, hrow⟩
    exact hf row h' [] ⟨rfl, hrow row rfl⟩
  · rintro h' log' e ⟨rfl, htidy', -⟩
    exact htidy'.owns

theorem Ready.tidy (l : Ledger) (log : List Reservation) (h : Ready body stale l log) : Tidy l log := h.1

theorem Ready.owns (l : Ledger) (log : List Reservation) (h : Ready body stale l log) : Owns l log := h.1.owns

theorem ends_createLoop (q : CreateRequest) (stale : List Reservation) (n left : ℕ) (body : Json) :
    Ends (Ready body stale) (createLoop q stale n left body) := by
  induction left generalizing n body with
  | zero =>
    unfold createLoop
    apply ends_callCreate (fun _ => rfl)
    intro e
    match e with
    | .store (.alreadyExists _) =>
      apply Ends.weaken _ Ready.tidy
      exact ends_loadService (fun row => .pure (fun l log h => h.1.owns))
    | .store (.notFound _) | .store (.revisionMismatch _ _) | .store .sqlite | .store .join
    | .store .serialization | .namespaceTerminating | .namespaceNotFound => exact .fail Ready.owns
  | succ left ih =>
    unfold createLoop
    apply ends_callCreate (fun _ => rfl)
    intro e
    match e with
    | .store (.alreadyExists _) =>
      apply Ends.attempt_bind Ready.owns
      intro body' hbody'
      apply Ends.attempt_bind Ready.owns
      intro _ _
      apply (ih (n + 1) body').weaken
      intro l log hready
      rwa [Ready, (setMetadata_idx (panicOn_ok hbody')).1 "spec" (by decide)]
    | .store (.notFound _) | .store (.revisionMismatch _ _) | .store .sqlite | .store .join
    | .store .serialization | .namespaceTerminating | .namespaceNotFound => exact .fail Ready.owns

theorem ends_admitted (hrange : net.primary.isSome) (old : Option Json) {e : Edits}
    {f : Json × List Reservation → Reserver α} (hdry : e.dryRun → ∀ r, Ends Tidy (f r))
    (hf : e.dryRun = false → ∀ r, Ends (Ready r.1 r.2) (f r)) :
    Ends (fun l log => Tidy l log ∧
        Secured e.dryRun (holdings ((old.map (fun o => o.idx "spec")).getD .null)) {x | ∃ ip ∈ ips, x = .ip ip} l)
      (e.admitted net id old body ips >>= f) := by
  have hadmitted : Reserves
      (Secured e.dryRun (holdings ((old.map (fun o => o.idx "spec")).getD .null)) {x | ∃ ip ∈ ips, x = .ip ip})
      (e.admitted net id old body ips)
      (fun r l => Secured e.dryRun (holdings ((old.map (fun o => o.idx "spec")).getD .null))
          {x | x ∈ holdings (r.1.idx "spec")} l ∧
        r.2 = difference (holdings ((old.map (fun o => o.idx "spec")).getD .null)) (holdings (r.1.idx "spec"))) := by
    apply Reserves.attempt_bind
    intro body' _
    exact reserves_beginAlloc hrange _ _ _
  refine hadmitted.ends (fun r => ?_)
  cases hd : e.dryRun with
  | true => exact (hdry hd r).weaken (fun l log h => h.1)
  | false =>
    apply (hf hd r).weaken
    rintro l log ⟨htidy, hsec, hstale⟩
    refine ⟨htidy, fun x hx => hsec.2 rfl x hx, ?_⟩
    rw [hstale, hsec.1]

theorem holdings_null : holdings .null = [] := rfl

theorem storedHoldings_eq (row : Option StoredService) :
    (row.map storedHoldings).getD [] =
      holdings (((row.map StoredService.body).map (fun o => o.idx "spec")).getD .null) := by
  cases row with
  | none => exact holdings_null.symm
  | some row => rfl

theorem releasable_subperm (spec : Json) : (releasable net spec).Subperm (holdings spec) := by
  unfold releasable holdings
  split_ifs
  · exact Subperm.refl _
  · exact (sublist_append_right _ _).subperm

theorem releasable_owned (htidy : Tidy l log) (hold : l.old = holdings spec) :
    (releasable net spec ++ log).Subperm l.afterDelete.owned := by
  have hsub : (log ++ releasable net spec).Subperm (l.created ++ l.old) := by
    rw [hold]
    exact htidy.append (releasable_subperm spec)
  exact perm_append_comm.subperm.trans hsub

theorem ends_deleteReleasing {released : Option Json} :
    Ends (fun l log => Tidy l log ∧ ∀ spec, released = some spec → l.old = holdings spec) (do
      match ← callDelete id false with
      | .error e => Logged.fail (reported id e)
      | .ok _ => releaseAll ((released.map (releasable net)).getD [])) := by
  apply Ends.call (o := .delete id false) (fun _ _ _ => trivial)
  intro reply
  cases reply with
  | error e =>
    refine .fail ?_
    rintro l' log ⟨l, ⟨htidy, -⟩, rfl⟩
    cases e <;> exact htidy.owns
  | ok n =>
    apply ends_releaseAll.weaken
    rintro l' log ⟨l, ⟨htidy, hold⟩, rfl⟩
    cases released with
    | none => exact htidy.trans (sublist_append_left _ _).subperm
    | some spec => exact releasable_owned htidy (hold spec rfl)

theorem ends_drainService : Ends Tidy (drainService net id) := by
  apply ends_callGet
  · intro e
    exact ends_deleteReleasing.weaken (fun l log h => ⟨h, fun spec hspec => by cases hspec⟩)
  · intro row
    refine ends_deleteReleasing.weaken (fun l log h => ⟨h.1, fun spec hspec => ?_⟩)
    cases row with
    | none => cases hspec
    | some row =>
      cases hspec
      exact h.2

theorem ends_putService (body : Json) (expected : Option ℕ) (stale : List Reservation) :
    Ends (Ready body stale) (putService id body expected stale) := by
  exact ends_callPut (fun _ => rfl) (fun e => .fail Ready.owns)

theorem ends_createOrPut (body : Json) (expected : Option ℕ) (stale : List Reservation) :
    Ends (Ready body stale) (createOrPut id body expected stale) := by
  apply ends_callCreate (fun _ => rfl)
  intro e
  match e with
  | .store (.alreadyExists _) => exact ends_putService body expected stale
  | .store (.notFound _) | .store (.revisionMismatch _ _) | .store .sqlite | .store .join
  | .store .serialization | .namespaceTerminating | .namespaceNotFound => exact .fail Ready.owns

section

variable (hrange : net.primary.isSome)
include hrange

theorem ends_createService (q : CreateRequest) :
    Ends (fun l log => Tidy l log ∧ l.old = []) (createService net q) := by
  refine (reserves_body q.edits none).ends (fun r => ?_)
  apply ends_admitted hrange none
  · rintro hdry ⟨body, stale⟩
    dsimp only
    rw [if_pos hdry]
    exact .pure Tidy.owns
  · rintro hdry ⟨body, stale⟩
    dsimp only
    rw [if_neg (Bool.eq_false_iff.mp hdry)]
    exact ends_createLoop q stale 0 q.attempts body

theorem ends_replaceService (q : ReplaceRequest) :
    Ends Tidy (replaceService net q) := by
  apply ends_callGet (fun e => .fail Tidy.owns)
  intro stored
  dsimp only
  apply Ends.attempt_bind (fun l log h => h.1.owns)
  intro _ _
  rw [storedHoldings_eq]
  refine (reserves_body q.edits (stored.map StoredService.body)).ends (fun r => ?_)
  apply ends_admitted hrange (stored.map StoredService.body)
  · intro hdry r
    rw [if_pos hdry]
    exact .pure Tidy.owns
  · intro hdry r
    rw [if_neg (Bool.eq_false_iff.mp hdry)]
    refine .ite (fun _ => ?_) (fun _ => .ite (fun _ => ?_) (fun _ => ?_))
    · exact (ends_drainService.weaken Ready.tidy).bind (fun _ => .pure (fun l log h => h))
    · exact ends_putService r.1 q.expected r.2
    · exact ends_createOrPut r.1 q.expected r.2

theorem ends_patchAttempt (q : PatchRequest) (row : StoredService) (hconflict : ∀ e, Ends Tidy (conflict e)) :
    Ends (fun l log => Tidy l log ∧ l.old = storedHoldings row) (patchAttempt net q row conflict) := by
  refine (reserves_body q.edits (some row.body)).ends (fun r => ?_)
  refine .ite (fun _ => ?_) (fun _ => ?_)
  · refine .ite (fun _ => .pure (fun l log h => h.1.owns)) (fun _ => ?_)
    exact (ends_drainService.weaken (fun l log h => h.1)).bind (fun _ => .pure (fun l log h => h))
  · apply ends_admitted hrange (some row.body)
    · rintro hdry ⟨body, stale⟩
      dsimp only
      rw [if_pos hdry]
      exact .pure Tidy.owns
    · rintro hdry ⟨body, stale⟩
      dsimp only
      rw [if_neg (Bool.eq_false_iff.mp hdry)]
      apply Ends.attempt_bind Ready.owns
      intro expected _
      exact ends_callPut (fun _ => rfl) (fun e => (hconflict e).weaken Ready.tidy)

theorem ends_patchLoop (q : PatchRequest) (retries : ℕ) (row : StoredService) :
    Ends (fun l log => Tidy l log ∧ l.old = storedHoldings row) (patchLoop net q retries row) := by
  induction retries generalizing row with
  | zero => exact ends_patchAttempt hrange q row (fun e => .fail Tidy.owns)
  | succ retries ih =>
    apply ends_patchAttempt hrange q row
    intro e
    cases e with
    | revisionMismatch expected current => exact ends_rollback (ends_loadService ih)
    | _ => exact .fail Tidy.owns

theorem ends_mergeAfterLostRace (q : PatchRequest)
    (hdry : q.edits.dryRun = false) : Ends Tidy (mergeAfterLostRace net q) := by
  apply ends_loadService
  intro row
  apply Ends.attempt_bind (fun l log h => h.1.owns)
  intro body _
  apply Ends.attempt_bind (fun l log h => h.1.owns)
  intro body' _
  apply Ends.weaken (ends_admitted hrange (some row.body) (fun h => by rw [hdry] at h; cases h) (fun _ r => ?_))
  · rintro l log ⟨htidy, hold⟩
    exact ⟨htidy, hold, fun _ x hx => by simp at hx⟩
  · apply Ends.attempt_bind Ready.owns
    intro expected _
    exact ends_putService r.1 expected r.2

theorem ends_patchService (q : PatchRequest) :
    Ends Tidy (patchService net q) := by
  apply ends_callGet (fun e => .fail Tidy.owns)
  intro row
  cases row with
  | some row => exact ends_patchLoop hrange q _ row
  | none =>
    refine .ite (fun _ => .fail (fun l log h => h.1.owns)) (fun _ => ?_)
    refine (reserves_body q.edits none).ends (fun r => ?_)
    apply ends_admitted hrange none
    · rintro hdry ⟨body, stale⟩
      dsimp only
      rw [if_pos hdry]
      exact .pure Tidy.owns
    · rintro hdry ⟨body, stale⟩
      dsimp only
      rw [if_neg (Bool.eq_false_iff.mp hdry)]
      apply ends_callCreate (fun _ => rfl)
      intro e
      match e with
      | .store (.alreadyExists _) => exact (ends_rollback (ends_mergeAfterLostRace hrange q hdry)).weaken Ready.tidy
      | .store (.notFound _) | .store (.revisionMismatch _ _) | .store .sqlite | .store .join
      | .store .serialization | .namespaceTerminating | .namespaceNotFound => exact .fail Ready.owns

end

theorem softDeleted_spec (h : softDeleted now body = .ok soft) : soft.idx "spec" = body.idx "spec" := by
  obtain ⟨stamped, hst, h⟩ := except_bind_ok h
  have hspec := (stampDeletionTimestamp_idx hst).1 "spec" (by decide)
  split_ifs at h
  · exact ((stampTerminating_idx (panicOn_ok h)).1 "spec" (by decide)).trans hspec
  · cases h
    exact hspec

theorem applyDeletePolicy_spec (h : applyDeletePolicy now body = .ok (some soft)) :
    soft.idx "spec" = body.idx "spec" := by
  unfold applyDeletePolicy at h
  split_ifs at h
  · cases hs : softDeleted now body with
    | error e =>
      rw [hs] at h
      cases h
    | ok soft' =>
      rw [hs] at h
      cases h
      exact softDeleted_spec hs
  · cases h

theorem addIf_spec (h : addIf c (addFinalizer f) body = .ok body') : body'.idx "spec" = body.idx "spec" := by
  cases c with
  | false =>
    cases h
    rfl
  | true => exact (setMetadata_idx (panicOn_ok h)).1 "spec" (by decide)

theorem decide_spec {q : DeleteRequest} (h : q.decide t body = .ok (some soft)) :
    soft.idx "spec" = body.idx "spec" := by
  obtain ⟨-, -, h⟩ := except_bind_ok h
  obtain ⟨marked, hm, h⟩ := except_bind_ok h
  obtain ⟨orphaned, ho, hm⟩ := except_bind_ok hm
  exact (applyDeletePolicy_spec h).trans ((addIf_spec hm).trans (addIf_spec ho))

theorem ends_softPut (hspec : soft.idx "spec" = row.body.idx "spec")
    (hf : ∀ reply, Ends (fun _ log => log = []) (f reply)) :
    Ends (fun l log => log = [] ∧ l.old = storedHoldings row) (callPut id soft expected >>= f) := by
  apply Ends.call (o := .put id soft expected)
  · rintro h log ⟨-, hold⟩ r hr
    rw [hspec] at hr
    exact .inr (.inl (hold ▸ hr))
  · intro reply
    apply (hf reply).weaken
    rintro l' log ⟨l, ⟨hlog, -⟩, -⟩
    exact hlog

theorem owns_nil (l : Ledger) (log : List Reservation) (h : log = []) : Owns l log := by
  rw [h]
  exact nil_subperm

theorem ends_hardDelete :
    Ends (fun l' log => ∃ l : Ledger, (log = [] ∧ l.old = storedHoldings row) ∧ l' = l.afterDelete)
      (releaseAll (releasable net (row.body.idx "spec")) >>= fun _ => pure a) := by
  apply Ends.bind _ (fun _ => .pure (fun l log h => h))
  apply ends_releaseAll.weaken
  rintro l' log ⟨l, ⟨rfl, hold⟩, rfl⟩
  exact releasable_owned nil_subperm hold

theorem ends_deleteService (q : DeleteRequest) (n : ℕ) :
    Ends (fun _ log => log = []) (deleteService net id q n) := by
  induction n with
  | zero => exact .fail owns_nil
  | succ n ih =>
    unfold deleteService
    apply ends_loadService_nil
    intro row
    apply Ends.attempt_bind (fun l log h => owns_nil l log h.1)
    intro soft hsoft
    cases soft with
    | some soft =>
      refine .ite (fun _ => .pure (fun l log h => owns_nil l log h.1)) (fun _ => ?_)
      apply ends_softPut (decide_spec hsoft)
      intro reply
      match reply with
      | .ok _ => exact .pure owns_nil
      | .error (.revisionMismatch _ _) => exact ih
      | .error (.notFound _) | .error (.alreadyExists _) | .error .sqlite | .error .join
      | .error .serialization => exact .fail owns_nil
    | none =>
      refine .ite (fun _ => .pure (fun l log h => owns_nil l log h.1)) (fun _ => ?_)
      apply Ends.call (o := .delete id false) (fun _ _ _ => trivial)
      intro reply
      cases reply with
      | error e =>
        refine .fail ?_
        rintro l' log ⟨l, ⟨hlog, -⟩, -⟩
        exact owns_nil _ _ hlog
      | ok rv => exact ends_hardDelete

theorem ends_deleteListed (now : String) (admission : Json → Except Failure Unit) :
    Ends (fun _ log => log = []) (deleteListed net id now admission) := by
  apply ends_loadService_nil
  intro row
  apply Ends.attempt_bind (fun l log h => owns_nil l log h.1)
  intro _ _
  apply Ends.attempt_bind (fun l log h => owns_nil l log h.1)
  intro soft hsoft
  cases soft with
  | some soft =>
    apply ends_softPut (applyDeletePolicy_spec hsoft)
    intro reply
    cases reply with
    | ok rv => exact .pure owns_nil
    | error e => exact .fail owns_nil
  | none =>
    apply Ends.call (o := .delete id true) (fun _ _ _ => trivial)
    intro reply
    match reply with
    | .ok _ | .error (.notFound _) => exact ends_hardDelete
    | .error (.revisionMismatch _ _) | .error (.alreadyExists _) | .error .sqlite | .error .join
    | .error .serialization =>
      refine .fail ?_
      rintro l' log ⟨l, ⟨hlog, -⟩, -⟩
      exact owns_nil _ _ hlog

theorem ends_request (hrange : net.primary.isSome) (q : ServiceRequest) :
    Ends (fun l log => l.old = [] ∧ log = []) (q.reserver net) := by
  have htidy (l : Ledger) (log : List Reservation) (h : l.old = [] ∧ log = []) : Tidy l log := by
    rw [h.2]
    exact nil_subperm
  cases q with
  | create q => exact (ends_createService hrange q).weaken (fun l log h => ⟨htidy l log h, h.1⟩)
  | replace q => exact (ends_replaceService hrange q).weaken htidy
  | patch q => exact (ends_patchService hrange q).weaken htidy
  | delete id q => exact (ends_deleteService q _).weaken (fun l log h => h.2)
  | deleteListed id now admission => exact (ends_deleteListed now admission).weaken (fun l log h => h.2)

theorem keeps_handBack (howns : Owns (ledger h) rs) {γ : Type} (a : γ) :
    ((releaseAll rs []).bind (fun _ => Prog.ret a)).Keeps Guard (fun _ _ => True) h := by
  apply Prog.keeps_bind.mpr
  apply Prog.Keeps.mono (keeps_releaseAll (by rwa [append_nil])) (fun _ _ => id)
  intro h' r _
  trivial

theorem keeps_program (hrange : net.primary.isSome) (q : ServiceRequest) :
    (q.program net).Keeps Guard (fun _ _ => True) [] := by
  apply Prog.keeps_bind.mpr
  apply Prog.Keeps.mono (ends_request hrange q [] [] ⟨rfl, rfl⟩) (fun _ _ => id)
  intro h r howns
  exact keeps_handBack howns r.2

end Requests

end U7s.Services
