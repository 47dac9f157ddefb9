import U7s.Lib.Lists
import U7s.Services.Requests

/-! Requests release only what they own, and store only what they have reserved, what the object held already, and
what was set aside for it. -/

namespace U7s.Services

open Addresses Handlers Programs Store List

structure Ledger where
  old : List Reservation := []
  created : List Reservation := []
  stale : List Reservation := []
  claimed : List Reservation := []

def storedHoldings (row : StoredService) : List Reservation := holdings (row.body.idx "spec")

namespace Ledger

def owned (l : Ledger) : List Reservation := l.created ++ l.stale

def afterWrite (l : Ledger) (body : Json) : Ledger :=
  { l with old := [], created := [], stale := difference l.old (holdings (body.idx "spec")) }

def afterDelete (l : Ledger) : Ledger := { l with old := [], stale := l.old }

def afterRelease (l : Ledger) (r : Reservation) : Ledger :=
  if r ∈ l.created then { l with created := l.created.erase r } else { l with stale := l.stale.erase r }

def note (l : Ledger) (e : Σ o : ServiceOp, o.Reply) : Ledger :=
  match e with
  | ⟨.get _, .ok row⟩ => { l with old := (row.map storedHoldings).getD [] }
  | ⟨.create _ body _, .ok _⟩ => l.afterWrite body
  | ⟨.put _ body _, .ok _⟩ => l.afterWrite body
  | ⟨.delete _ _, .ok _⟩ => l.afterDelete
  | ⟨.delete _ true, .error (.notFound _)⟩ => l.afterDelete
  | ⟨.reserve r, .ok _⟩ => { l with created := l.created ++ [r] }
  | ⟨.sentinel r, .ok (some (some _))⟩ => { l with claimed := r :: l.claimed }
  | ⟨.release r, _⟩ => l.afterRelease r
  | _ => l

def Backs (l : Ledger) (r : Reservation) : Prop := r ∈ l.created ∨ r ∈ l.old ∨ r ∈ l.claimed

structure Grows (l l' : Ledger) : Prop where
  old : l'.old = l.old
  stale : l'.stale = l.stale
  created : l.created ⊆ l'.created
  claimed : l.claimed ⊆ l'.claimed

theorem Grows.refl (l : Ledger) : Grows l l := ⟨rfl, rfl, fun _ => id, fun _ => id⟩

theorem Grows.trans (h : Grows l₁ l₂) (h' : Grows l₂ l₃) : Grows l₁ l₃ :=
  ⟨h'.old.trans h.old, h'.stale.trans h.stale, fun _ hr => h'.created (h.created hr),
    fun _ hr => h'.claimed (h.claimed hr)⟩

theorem Backs.grows (hr : l.Backs r) (h : Grows l l') : l'.Backs r := by
  obtain hc | ho | hcl := hr
  · exact .inl (h.created hc)
  · exact .inr (.inl (h.old ▸ ho))
  · exact .inr (.inr (h.claimed hcl))

theorem owned_afterRelease (l : Ledger) (r : Reservation) : (l.afterRelease r).owned = l.owned.erase r := by
  unfold afterRelease owned
  split_ifs with hr
  · rw [erase_append_left _ hr]
  · rw [erase_append_right _ hr]

end Ledger

def ledger (h : ServiceTrace) : Ledger := h.foldl Ledger.note {}

@[simp] theorem ledger_append (h : ServiceTrace) (e : Σ o : ServiceOp, o.Reply) :
    ledger (h ++ [e]) = (ledger h).note e := by
  simp [ledger]

def Guard (h : ServiceTrace) (o : ServiceOp) : Prop :=
  match o with
  | .create _ body _ => ∀ r ∈ holdings (body.idx "spec"), (ledger h).Backs r
  | .put _ body _ => ∀ r ∈ holdings (body.idx "spec"), (ledger h).Backs r
  | .release r => r ∈ (ledger h).owned
  | _ => True

def Tidy (l : Ledger) (log : List Reservation) : Prop := log.Subperm l.created

def Reserves {α : Type} (Pre : Ledger → Prop) (x : Reserver α) (Post : α → Ledger → Prop) : Prop :=
  ∀ h log, Tidy (ledger h) log → Pre (ledger h) →
    Logged.Keeps Guard (fun h' log' r => Tidy (ledger h') log' ∧ (ledger h).Grows (ledger h') ∧
      ∀ a, r = .ok a → Post a (ledger h')) h log x

section Rules

variable {α γ : Type} {Pre Pre' : Ledger → Prop} {Post : α → Ledger → Prop}

theorem Reserves.bind {Post' : γ → Ledger → Prop} (hx : Reserves Pre x Post)
    (hf : ∀ a, Reserves (Post a) (f a) Post') : Reserves Pre (x >>= f) Post' := by
  intro h log htidy hpre
  apply (hx h log htidy hpre).bind
  · rintro h' log' a ⟨htidy', hgrows, hpost⟩
    apply (hf a h' log' htidy' (hpost a rfl)).mono
    rintro h'' log'' r ⟨htidy'', hgrows', hpost'⟩
    exact ⟨htidy'', hgrows.trans hgrows', hpost'⟩
  · rintro h' log' e ⟨htidy', hgrows, -⟩
    exact ⟨htidy', hgrows, fun a ha => by cases ha⟩

theorem Reserves.pure (h : ∀ l, Pre l → Post a l) : Reserves Pre (pure a) Post := by
  intro t log htidy hpre
  refine ⟨htidy, .refl _, fun b hb => ?_⟩
  cases hb
  exact h _ hpre

theorem Reserves.fail : Reserves Pre (Logged.fail e) Post := by
  intro t log htidy _
  exact ⟨htidy, .refl _, fun b hb => by cases hb⟩

theorem Reserves.attempt_bind {f : α → Reserver γ}
    (hf : ∀ a, r = .ok a → Reserves Pre (f a) Post') : Reserves Pre (Logged.attempt r >>= f) Post' := by
  cases r with
  | error e => exact Reserves.fail
  | ok a => exact hf a rfl

theorem Reserves.ite [Decidable c] (hx : c → Reserves Pre x Post) (hy : ¬c → Reserves Pre y Post) :
    Reserves Pre (if c then x else y) Post := by
  split
  · exact hx ‹c›
  · exact hy ‹¬c›

theorem Reserves.weaken (hx : Reserves Pre x Post) (h : ∀ l, Pre' l → Pre l) : Reserves Pre' x Post :=
  fun t log htidy hpre => hx t log htidy (h _ hpre)

theorem Reserves.given (hx : p → Reserves Pre x Post) : Reserves (fun l => Pre l ∧ p) x Post :=
  fun t log htidy hpre => hx hpre.2 t log htidy hpre.1

theorem Reserves.post (hx : Reserves Pre x Post) (h : ∀ a l, Post a l → Post' a l) :
    Reserves Pre x Post' := by
  intro t log htidy hpre
  apply (hx t log htidy hpre).mono
  rintro h' log' r ⟨htidy', hgrows, hpost⟩
  exact ⟨htidy', hgrows, fun a ha => h a _ (hpost a ha)⟩

theorem Reserves.callUsedPorts (hf : ∀ reply, Reserves Pre (f reply) Post) :
    Reserves Pre (callUsedPorts >>= f) Post := by
  intro h log htidy hpre
  refine Logged.keeps_request_bind trivial (fun reply => ?_)
  have hl : ledger (h ++ [⟨.usedPorts, reply⟩]) = ledger h := by
    rw [ledger_append]
    rfl
  have hx := hf reply (h ++ [⟨.usedPorts, reply⟩]) log (by rwa [Tidy, hl]) (by rwa [hl])
  rwa [hl] at hx

theorem Reserves.callSentinel (hstable : ∀ l l', Ledger.Grows l l' → Pre l → Pre l')
    (hf : ∀ reply, Reserves (fun l => Pre l ∧ ∀ id, reply = .ok (some (some id)) → r ∈ l.claimed) (f reply) Post) :
    Reserves Pre (callSentinel r >>= f) Post := by
  intro h log htidy hpre
  refine Logged.keeps_request_bind trivial (fun reply => ?_)
  have hgrows : (ledger h).Grows (ledger (h ++ [⟨.sentinel r, reply⟩])) ∧
      (ledger (h ++ [⟨.sentinel r, reply⟩])).created = (ledger h).created ∧
      ∀ id, reply = .ok (some (some id)) → r ∈ (ledger (h ++ [⟨.sentinel r, reply⟩])).claimed := by
    rw [ledger_append]
    match reply with
    | .error _ | .ok none | .ok (some none) => exact ⟨.refl _, rfl, fun id hid => by cases hid⟩
    | .ok (some (some _)) =>
      exact ⟨⟨rfl, rfl, fun _ => id, subset_cons_self _ _⟩, rfl, fun id _ => mem_cons_self⟩
  obtain ⟨hgrows, hcreated, hclaimed⟩ := hgrows
  apply (hf reply _ log (by rwa [Tidy, hcreated]) ⟨hstable _ _ hgrows hpre, hclaimed⟩).mono
  rintro h' log' a ⟨htidy', hgrows', hpost⟩
  exact ⟨htidy', hgrows.trans hgrows', hpost⟩

theorem Reserves.callReserve (hstable : ∀ l l', Ledger.Grows l l' → Pre l → Pre l')
    (hok : ∀ n, f (.ok n) = (Logged.take r >>= fun _ => x)) (hx : Reserves (fun l => Pre l ∧ r ∈ l.created) x Post)
    (herr : ∀ e, Reserves Pre (f (.error e)) Post) : Reserves Pre (callReserve r >>= f) Post := by
  intro h log htidy hpre
  refine Logged.keeps_request_bind trivial (fun reply => ?_)
  cases reply with
  | error e =>
    have hl : ledger (h ++ [⟨.reserve r, .error e⟩]) = ledger h := by
      rw [ledger_append]
      rfl
    have hx := herr e (h ++ [⟨.reserve r, .error e⟩]) log (by rwa [Tidy, hl]) (by rwa [hl])
    rwa [hl] at hx
  | ok n =>
    have hl : ledger (h ++ [⟨.reserve r, .ok n⟩]) = { ledger h with created := (ledger h).created ++ [r] } := by
      rw [ledger_append]
      rfl
    have hgrows : (ledger h).Grows (ledger (h ++ [⟨.reserve r, .ok n⟩])) := by
      rw [hl]
      exact ⟨rfl, rfl, subset_append_left _ _, fun _ => id⟩
    have htidy' : Tidy (ledger (h ++ [⟨.reserve r, .ok n⟩])) (log ++ [r]) := by
      rw [hl]
      exact (subperm_append_right [r]).mpr htidy
    rw [hok n]
    apply Logged.keeps_take_bind
    apply (hx _ _ htidy' ⟨hstable _ _ hgrows hpre, by simp [hl]⟩).mono
    rintro h' log' a ⟨htidy'', hgrows', hpost⟩
    exact ⟨htidy'', hgrows.trans hgrows', hpost⟩

end Rules

def Secured (dryRun : Bool) (O : List Reservation) (S : Set Reservation) (l : Ledger) : Prop :=
  l.old = O ∧ (dryRun = false → ∀ r ∈ S, l.Backs r)

section Allocation

variable {net : Network} {dryRun : Bool} {id : ServiceName} {O : List Reservation} {S : Set Reservation}

theorem Secured.grows (h : l.Grows l') (hl : Secured dryRun O S l) : Secured dryRun O S l' :=
  ⟨h.old.trans hl.1, fun hdry r hr => (hl.2 hdry r hr).grows h⟩

theorem Secured.mono (hl : Secured dryRun O S l) (h : ∀ r ∈ S', r ∈ S) : Secured dryRun O S' l :=
  ⟨hl.1, fun hdry r hr => hl.2 hdry r (h r hr)⟩

theorem Secured.add (hl : Secured dryRun O S l) (hr : l.Backs r) : Secured dryRun O (insert r S) l := by
  refine ⟨hl.1, fun hdry r' hr' => ?_⟩
  obtain rfl | hr' := hr'
  · exact hr
  · exact hl.2 hdry r' hr'

theorem reserves_reserve (r : Reservation) :
    Reserves (Secured dryRun O S) (reserve dryRun r)
      (fun b => Secured dryRun O (if b then insert r S else S)) := by
  cases hdry : dryRun with
  | true =>
    apply Reserves.callSentinel (fun _ _ => Secured.grows)
    intro reply
    cases reply with
    | error e => exact .fail
    | ok held => exact .pure (fun l hl => ⟨hl.1.1, fun h => by cases h⟩)
  | false =>
    apply Reserves.callReserve (fun _ _ => Secured.grows) (fun n => rfl)
    · exact .pure (fun l hl => by simpa using hl.1.add (.inl hl.2))
    · intro e
      cases e with
      | alreadyExists key => exact .pure (fun l hl => by simpa using hl)
      | _ => exact .fail

theorem reserves_preReservedFor (r : Reservation) :
    Reserves (Secured dryRun O S) (preReservedFor id r)
      (fun b => Secured dryRun O (if b then insert r S else S)) := by
  apply Reserves.callSentinel (fun _ _ => Secured.grows)
  intro reply
  cases reply with
  | error e => exact .fail
  | ok held =>
    refine .pure (fun l hl => ?_)
    by_cases hheld : held = some (some id)
    · simpa [hheld] using hl.1.add (.inr (.inr (hl.2 id (by rw [hheld]))))
    · simpa [hheld] using hl.1

theorem reserves_tryPorts (used taken ports : List ℤ) :
    Reserves (Secured dryRun O S) (tryPorts dryRun used taken ports)
      (fun n => Secured dryRun O (insert (.port n) S)) := by
  induction ports with
  | nil => exact .fail
  | cons port ports ih =>
    unfold tryPorts
    refine .ite (fun _ => ih) (fun _ => ?_)
    refine (reserves_reserve (.port port)).bind (fun b => ?_)
    cases b with
    | true => exact .pure (fun l hl => hl)
    | false => exact ih

theorem reserves_allocateNextPort (taken : List ℤ) :
    Reserves (Secured dryRun O S) (allocateNextPort dryRun taken)
      (fun n => Secured dryRun O (insert (.port n) S)) := by
  apply Reserves.callUsedPorts
  intro reply
  cases reply with
  | error e => exact .fail
  | ok used => exact reserves_tryPorts used taken _

def withIps (S : Set Reservation) (ips : List String) : Set Reservation := {r | r ∈ S ∨ ∃ ip ∈ ips, r = .ip ip}

def withPorts (S : Set Reservation) (ns : List ℤ) : Set Reservation := {r | r ∈ S ∨ ∃ n ∈ ns, r = .port n}

theorem insert_withIps (ip : String) (ips : List String) : withIps (insert (.ip ip) S) ips = withIps S (ip :: ips) := by
  ext r
  simp [withIps, or_assoc, or_left_comm]

theorem insert_withPorts (n : ℤ) (ns : List ℤ) : insert (.port n) (withPorts S ns) = withPorts S (n :: ns) := by
  ext r
  simp [withPorts, or_left_comm]

theorem reserves_reserveIps (primary : ServiceIpAllocator) (listed : String) (ips : List String) :
    Reserves (Secured dryRun O S) (reserveIps net dryRun id primary listed ips)
      (fun _ => Secured dryRun O (withIps S ips)) := by
  induction ips generalizing S with
  | nil => exact .pure (fun l hl => hl.mono (fun r hr => by simpa [withIps] using hr))
  | cons ip ips ih =>
    unfold reserveIps
    have hrest : Reserves (Secured dryRun O (insert (.ip ip) S)) (reserveIps net dryRun id primary listed ips)
        (fun _ => Secured dryRun O (withIps S (ip :: ips))) := by
      rw [← insert_withIps]
      exact ih
    refine .ite (fun _ => .fail) (fun _ => ?_)
    refine (reserves_reserve (.ip ip)).bind (fun b => ?_)
    cases b with
    | true => exact hrest
    | false =>
      refine (reserves_preReservedFor (.ip ip)).bind (fun b => ?_)
      cases b with
      | true => exact hrest
      | false => exact .fail

theorem reserves_reservePort (field : String) (n : ℤ) :
    Reserves (Secured dryRun O S) (reservePort dryRun id field n)
      (fun _ => Secured dryRun O (insert (.port n) S)) := by
  refine .ite (fun _ => .fail) (fun _ => ?_)
  refine (reserves_reserve (.port n)).bind (fun b => ?_)
  cases b with
  | true => exact .pure (fun l hl => hl)
  | false => exact .fail

def PortsIn (ports : List Json) (taken : List ℤ) : Prop :=
  ∀ p ∈ ports, ∀ n, nonzero (p.idx "nodePort") = some n → n ∈ taken

theorem portsIn_cons :
    PortsIn (p :: ports) taken ↔ (∀ n, nonzero (p.idx "nodePort") = some n → n ∈ taken) ∧ PortsIn ports taken := by
  simp [PortsIn]

theorem reserves_reservePresetPorts (hold : ∀ n ∈ oldPorts, .port n ∈ S) (i : ℕ) (ports : List Json)
    (taken : List ℤ) :
    Reserves (Secured dryRun O (withPorts S taken)) (reservePresetPorts dryRun id oldPorts i ports taken)
      (fun taken' l => Secured dryRun O (withPorts S taken') l ∧ taken ⊆ taken' ∧ PortsIn ports taken') := by
  induction ports generalizing i taken with
  | nil => exact .pure (fun l hl => ⟨hl, Subset.refl _, by simp [PortsIn]⟩)
  | cons p ports ih =>
    unfold reservePresetPorts
    cases hn : nonzero (p.idx "nodePort") with
    | none =>
      refine (ih (i + 1) taken).post (fun taken' l hl => ⟨hl.1, hl.2.1, portsIn_cons.mpr ⟨fun n h => ?_, hl.2.2⟩⟩)
      rw [hn] at h
      cases h
    | some n =>
      have hrest : Reserves (Secured dryRun O (withPorts S (n :: taken)))
          (reservePresetPorts dryRun id oldPorts (i + 1) ports (n :: taken))
          (fun taken' l => Secured dryRun O (withPorts S taken') l ∧ taken ⊆ taken' ∧ PortsIn (p :: ports) taken') := by
        refine (ih (i + 1) (n :: taken)).post (fun taken' l hl => ?_)
        obtain ⟨hsec, hsub, hports⟩ := hl
        refine ⟨hsec, fun m hm => hsub (mem_cons_of_mem n hm), portsIn_cons.mpr ⟨fun m hm => ?_, hports⟩⟩
        cases hn.symm.trans hm
        exact hsub mem_cons_self
      refine .ite (fun hmem => ?_) (fun _ => ?_)
      · refine hrest.weaken (fun l hl => hl.mono ?_)
        rintro r (hr | ⟨m, hm, rfl⟩)
        · exact .inl hr
        · obtain rfl | hm := mem_cons.mp hm
          · obtain htaken | holdm := hmem
            · exact .inr ⟨m, htaken, rfl⟩
            · exact .inl (hold m holdm)
          · exact .inr ⟨m, hm, rfl⟩
      · refine (reserves_reservePort _ n).bind (fun _ => ?_)
        rw [insert_withPorts]
        exact hrest

theorem eq_of_nonzero_jsonInt (h : nonzero (jsonInt n) = some m) : m = n := by
  have hm := (Option.filter_eq_some_iff.mp h).1
  unfold jsonInt at hm
  split_ifs at hm with hn
  · unfold i64Of at hm
    dsimp only at hm
    split_ifs at hm
    have := Option.some.inj hm
    omega
  · exact (Option.some.inj hm).symm

theorem mem_portTable (he : e ∈ portTable ports table) :
    e ∈ table ∨ ∃ p ∈ ports, nonzero (p.idx "nodePort") = some e.2 := by
  induction ports generalizing table with
  | nil => exact .inl he
  | cons p ports ih =>
    unfold portTable at he
    split at he
    · next port n hport hn =>
      obtain hmem | ⟨p', hp', hnp⟩ := ih he
      · split_ifs at hmem
        · exact .inl hmem
        · obtain hmem | hmem := mem_append.mp hmem
          · exact .inl hmem
          · rw [mem_singleton.mp hmem]
            exact .inr ⟨p, mem_cons_self, hn⟩
      · exact .inr ⟨p', mem_cons_of_mem p hp', hnp⟩
    · obtain hmem | ⟨p', hp', hnp⟩ := ih he
      · exact .inl hmem
      · exact .inr ⟨p', mem_cons_of_mem p hp', hnp⟩

theorem reserves_assignPorts (ports : List Json) (taken : List ℤ) (table : List (ℤ × ℤ))
    (htable : ∀ e ∈ table, e.2 ∈ taken) (hports : PortsIn ports taken) :
    Reserves (Secured dryRun O (withPorts S taken)) (assignPorts dryRun ports taken table)
      (fun r l => Secured dryRun O (withPorts S r.2) l ∧ taken ⊆ r.2 ∧ PortsIn r.1 r.2) := by
  induction ports generalizing taken table with
  | nil => exact .pure (fun l hl => ⟨hl, Subset.refl _, by simp [PortsIn]⟩)
  | cons p ports ih =>
    obtain ⟨hp, hports⟩ := portsIn_cons.mp hports
    unfold assignPorts
    -- an entry that names `n`, before entries that are filled in
    have hcons {p' : Json} {taken' : List ℤ} {table' : List (ℤ × ℤ)} (htable' : ∀ e ∈ table', e.2 ∈ taken')
        (hsub : taken ⊆ taken') (hp' : ∀ m, nonzero (p'.idx "nodePort") = some m → m ∈ taken') :
        Reserves (Secured dryRun O (withPorts S taken')) (assignPorts dryRun ports taken' table' >>= fun r =>
            pure (p' :: r.1, r.2))
          (fun r l => Secured dryRun O (withPorts S r.2) l ∧ taken ⊆ r.2 ∧ PortsIn r.1 r.2) := by
      refine (ih taken' table' htable' (fun q hq m hm => hsub (hports q hq m hm))).bind (fun r => ?_)
      refine .pure (fun l hl => ?_)
      obtain ⟨hsec, hsub', hin⟩ := hl
      exact ⟨hsec, fun m hm => hsub' (hsub hm), portsIn_cons.mpr ⟨fun m hm => hsub' (hp' m hm), hin⟩⟩
    refine .ite (fun _ => hcons htable (Subset.refl _) hp) (fun _ => ?_)
    dsimp only
    cases hlook : table.lookup ((i64Of (p.idx "port")).getD 0) with
    | some n =>
      apply Reserves.attempt_bind
      intro p' hp'
      refine hcons htable (Subset.refl _) (fun m hm => ?_)
      rw [Json.idx_setIdx (panicOn_ok hp')] at hm
      rw [eq_of_nonzero_jsonInt hm]
      exact htable _ (Lists.mem_of_lookup hlook)
    | none =>
      refine (reserves_allocateNextPort taken).bind (fun n => ?_)
      rw [insert_withPorts]
      apply Reserves.attempt_bind
      intro p' hp'
      refine hcons ?_ (subset_cons_self _ _) (fun m hm => ?_)
      · intro e he
        obtain he | he := mem_append.mp he
        · exact mem_cons_of_mem n (htable e he)
        · rw [mem_singleton.mp he]
          exact mem_cons_self
      · rw [Json.idx_setIdx (panicOn_ok hp')] at hm
        rw [eq_of_nonzero_jsonInt hm]
        exact mem_cons_self

theorem portsOf_setIdx {spec : Json} (h : spec.setIdx "ports" (.arr ports) = some spec') :
    portsOf spec' = ports := by
  unfold portsOf
  rw [Json.idx_setIdx h]
  rfl

def AgreeOff (ks : List String) (spec spec' : Json) : Prop := ∀ k ∉ ks, spec'.idx k = spec.idx k

theorem reserves_fillNodePorts (spec : Json) (taken : List ℤ) (hports : PortsIn (portsOf spec) taken) :
    Reserves (Secured dryRun O (withPorts S taken)) (fillNodePorts dryRun spec taken)
      (fun r l => Secured dryRun O (withPorts S r.2) l ∧ taken ⊆ r.2 ∧ PortsIn (portsOf r.1) r.2 ∧
        AgreeOff ["ports"] spec r.1) := by
  refine .ite (fun _ => ?_) (fun _ => .pure (fun l hl => ⟨hl, Subset.refl _, hports, fun _ _ => rfl⟩))
  have htable : ∀ e ∈ portTable (portsOf spec) [], e.2 ∈ taken := by
    intro e he
    obtain hnil | ⟨p, hp, hn⟩ := mem_portTable he
    · cases hnil
    · exact hports p hp e.2 hn
  refine (reserves_assignPorts (portsOf spec) taken _ htable hports).bind (fun r => ?_)
  apply Reserves.attempt_bind
  intro spec' hspec'
  refine .pure (fun l hl => ?_)
  obtain ⟨hsec, hsub, hin⟩ := hl
  refine ⟨hsec, hsub, ?_, fun k hk => Json.idx_setIdx_ne (by simpa using hk) (panicOn_ok hspec')⟩
  rwa [portsOf_setIdx (panicOn_ok hspec')]

theorem reserves_fillHealthCheckPort (spec : Json) (taken : List ℤ)
    (hpreset : ∀ n, nonzero (spec.idx "healthCheckNodePort") = some n → .port n ∈ withPorts S taken) :
    Reserves (Secured dryRun O (withPorts S taken)) (fillHealthCheckPort dryRun spec taken)
      (fun spec' l => AgreeOff ["healthCheckNodePort"] spec spec' ∧ ∃ S' : Set Reservation,
        Secured dryRun O S' l ∧ (∀ r ∈ withPorts S taken, r ∈ S') ∧
        ∀ n, nonzero (spec'.idx "healthCheckNodePort") = some n → .port n ∈ S') := by
  refine .ite (fun _ => ?_) (fun _ => .pure (fun l hl => ⟨fun _ _ => rfl, _, hl, fun _ hr => hr, hpreset⟩))
  refine (reserves_allocateNextPort taken).bind (fun n => ?_)
  intro h log htidy hpre
  refine ⟨htidy, .refl _, fun spec' hspec' => ?_⟩
  refine ⟨fun k hk => Json.idx_setIdx_ne (by simpa using hk) (panicOn_ok hspec'), _, hpre,
    fun r hr => Set.mem_insert_of_mem _ hr, fun m hm => ?_⟩
  rw [Json.idx_setIdx (panicOn_ok hspec')] at hm
  rw [eq_of_nonzero_jsonInt hm]
  exact Set.mem_insert _ _

theorem reserves_reserveNewIps (hrange : net.primary.isSome) (hold : ∀ ip ∈ specIps old, .ip ip ∈ S)
    (hauto : ∀ ip ∈ autoIps, .ip ip ∈ S) :
    Reserves (Secured dryRun O S) (reserveNewIps net dryRun id old spec autoIps)
      (fun stale l => Secured dryRun O (withIps S (specIps spec)) l ∧
        stale = (difference (specIps old) (specIps spec)).map Reservation.ip) := by
  unfold reserveNewIps
  cases hprimary : net.primary with
  | none =>
    rw [hprimary] at hrange
    cases hrange
  | some primary =>
    refine (reserves_reserveIps primary _ _).bind (fun _ => ?_)
    refine .pure (fun l hl => ⟨hl.mono ?_, rfl⟩)
    rintro r (hr | ⟨ip, hip, rfl⟩)
    · exact .inl hr
    · by_cases hin : ip ∈ specIps old
      · exact .inl (hold ip hin)
      · by_cases hau : ip ∈ autoIps
        · exact .inl (hauto ip hau)
        · exact .inr ⟨ip, mem_filter.mpr ⟨hip, by simp [hin, hau]⟩, rfl⟩

theorem reserves_reservePresetHealthCheck (hold : ∀ n ∈ oldPorts, .port n ∈ S)
    (htaken : ∀ n ∈ taken, .port n ∈ S) (spec : Json) :
    Reserves (Secured dryRun O S) (reservePresetHealthCheck dryRun id oldPorts taken spec)
      (fun _ => Secured dryRun O {r | r ∈ S ∨ ∃ n, nonzero (spec.idx "healthCheckNodePort") = some n ∧ r = .port n}) := by
  unfold reservePresetHealthCheck
  cases hn : (nonzero (spec.idx "healthCheckNodePort")).filter (fun n => n ∉ oldPorts && n ∉ taken) with
  | none =>
    refine .pure (fun l hl => hl.mono ?_)
    rintro r (hr | ⟨n, hpre, rfl⟩)
    · exact hr
    · by_cases hin : n ∈ oldPorts
      · exact hold n hin
      · by_cases hta : n ∈ taken
        · exact htaken n hta
        · rw [hpre] at hn
          simp [hin, hta] at hn
  | some n =>
    have hpre := (Option.filter_eq_some_iff.mp hn).1
    refine (reserves_reservePort _ n).post (fun _ l hl => hl.mono ?_)
    rintro r (hr | ⟨m, hm, rfl⟩)
    · exact .inr hr
    · cases hpre.symm.trans hm
      exact .inl rfl

theorem Secured.withOld (hl : Secured dryRun O S l) : Secured dryRun O {r | r ∈ S ∨ r ∈ O} l := by
  refine ⟨hl.1, fun hdry r hr => ?_⟩
  obtain hr | hr := hr
  · exact hl.2 hdry r hr
  · exact .inr (.inl (hl.1 ▸ hr))

theorem reserves_reserveAll (hrange : net.primary.isSome) (old spec : Json) (autoIps : List String) :
    Reserves (Secured dryRun (holdings old) {r | ∃ ip ∈ autoIps, r = .ip ip})
      (reserveAll net dryRun id old spec autoIps)
      (fun r l => Secured dryRun (holdings old) {x | x ∈ holdings r.1} l ∧
        r.2 = difference (holdings old) (holdings r.1)) := by
  apply Reserves.attempt_bind
  intro spec₁ _
  apply Reserves.weaken _ (fun l => Secured.withOld)
  generalize hS : {r | r ∈ {r | ∃ ip ∈ autoIps, r = Reservation.ip ip} ∨ r ∈ holdings old} = S₀
  have holdIps : ∀ ip ∈ specIps old, .ip ip ∈ S₀ := fun ip hip => hS ▸ .inr (ip_mem_holdings.mpr hip)
  have hauto : ∀ ip ∈ autoIps, .ip ip ∈ S₀ := fun ip hip => hS ▸ .inl ⟨ip, hip, rfl⟩
  refine (reserves_reserveNewIps hrange holdIps hauto).bind (fun staleIps => ?_)
  refine .given (fun hstale => ?_)
  generalize hS₁ : withIps S₀ (specIps spec₁) = S₁
  have holdPorts : ∀ n ∈ specPorts old, .port n ∈ S₁ :=
    fun n hn => hS₁ ▸ .inl (hS ▸ .inr (port_mem_holdings.mpr hn))
  have hips : ∀ ip ∈ specIps spec₁, .ip ip ∈ S₁ := fun ip hip => hS₁ ▸ .inr ⟨ip, hip, rfl⟩
  refine Reserves.bind ((reserves_reservePresetPorts holdPorts 0 (portsOf spec₁) []).weaken
    (fun l hl => hl.mono (fun r hr => by simpa [withPorts] using hr))) (fun taken => ?_)
  refine .given (fun hfacts => ?_)
  obtain ⟨-, hports⟩ := hfacts
  refine Reserves.bind (reserves_reservePresetHealthCheck (fun n hn => .inl (holdPorts n hn))
    (fun n hn => .inr ⟨n, hn, rfl⟩) spec₁) (fun _ => ?_)
  generalize hS₂ : {r | r ∈ withPorts S₁ taken ∨
    ∃ n, nonzero (spec₁.idx "healthCheckNodePort") = some n ∧ r = Reservation.port n} = S₂
  have hhealth : ∀ n, nonzero (spec₁.idx "healthCheckNodePort") = some n → .port n ∈ S₂ :=
    fun n hn => hS₂ ▸ .inr ⟨n, hn, rfl⟩
  have htaken : ∀ r ∈ withPorts S₂ taken, r ∈ S₂ := by
    rintro r (hr | ⟨n, hn, rfl⟩)
    · exact hr
    · exact hS₂ ▸ .inl (.inr ⟨n, hn, rfl⟩)
  refine Reserves.bind ((reserves_fillNodePorts spec₁ taken hports).weaken (fun l hl => hl.mono htaken))
    (fun r => ?_)
  obtain ⟨spec₂, taken'⟩ := r
  refine .given (fun hfacts => ?_)
  obtain ⟨-, hports', hagree⟩ := hfacts
  refine Reserves.bind (reserves_fillHealthCheckPort spec₂ taken' (fun n hn => .inl ?_)) (fun spec₃ => ?_)
  · rw [hagree "healthCheckNodePort" (by decide)] at hn
    exact hhealth n hn
  refine .pure (fun l hl => ?_)
  obtain ⟨hagree', S', hsec, hsub, hhealth'⟩ := hl
  have hspecIps : specIps spec₃ = specIps spec₁ :=
    specIps_congr ((hagree' _ (by decide)).trans (hagree _ (by decide)))
      ((hagree' _ (by decide)).trans (hagree _ (by decide)))
  refine ⟨hsec.mono (fun x hx => ?_), ?_⟩
  · cases x with
    | ip ip =>
      have hip := ip_mem_holdings.mp hx
      rw [hspecIps] at hip
      exact hsub _ (.inl (hS₂ ▸ .inl (.inl (hips ip hip))))
    | port n =>
      obtain ⟨p, hp, hn⟩ | hn := mem_specPorts.mp (port_mem_holdings.mp hx)
      · rw [portsOf, hagree' "ports" (by decide)] at hp
        exact hsub _ (.inr ⟨n, hports' p hp n hn, rfl⟩)
      · exact hhealth' n hn
  · rw [difference_holdings, hspecIps, hstale]

theorem reserves_beginAlloc (hrange : net.primary.isSome) (old : Option Json) (body : Json)
    (autoIps : List String) :
    Reserves (Secured dryRun (holdings (old.getD .null)) {r | ∃ ip ∈ autoIps, r = .ip ip})
      (beginAlloc net dryRun id old body autoIps)
      (fun r l => Secured dryRun (holdings (old.getD .null)) {x | x ∈ holdings (r.1.idx "spec")} l ∧
        r.2 = difference (holdings (old.getD .null)) (holdings (r.1.idx "spec"))) := by
  refine (reserves_reserveAll hrange _ _ _).bind (fun r => ?_)
  apply Reserves.attempt_bind
  intro body' hbody'
  refine .pure (fun l hl => ?_)
  rw [Json.idx_setIdx (panicOn_ok hbody')]
  exact hl

theorem reserves_probe (alloc : ServiceIpAllocator) (left offset : ℕ) :
    Reserves (Secured dryRun O S) (probe net alloc id left offset)
      (fun ip => Secured dryRun O (insert (.ip (net.display ip)) S)) := by
  induction left generalizing offset with
  | zero => exact .fail
  | succ left ih =>
    unfold probe
    refine .ite (fun _ => ih _) (fun _ => ?_)
    apply Reserves.callReserve (fun _ _ => Secured.grows) (fun n => rfl)
    · exact .pure (fun l hl => hl.1.add (.inl hl.2))
    · intro e
      cases e with
      | alreadyExists key => exact ih _
      | _ => exact .fail

theorem reserves_fillSlots (starts : ℕ → ℕ) (slots : List (ℕ × Bool)) (spec : Json) :
    Reserves (Secured dryRun O S) (fillSlots net id starts slots spec)
      (fun r => Secured dryRun O (withIps S r.2)) := by
  induction slots generalizing spec S with
  | nil => exact .pure (fun l hl => hl.mono (fun r hr => by simpa [withIps] using hr))
  | cons slot slots ih =>
    obtain ⟨i, v4⟩ := slot
    unfold fillSlots allocateServiceIp
    cases net.allocatorFor v4 with
    | none => exact ih spec
    | some alloc =>
      have hsome : Reserves (Secured dryRun O S)
          (probe net alloc id alloc.size (starts i % alloc.size) >>= fun ip => pure (some ip))
          (fun ip => Secured dryRun O (withIps S (ip.toList.map net.display))) := by
        refine (reserves_probe alloc _ _).bind (fun ip => .pure (fun l hl => hl.mono (fun r hr => ?_)))
        simpa [withIps, or_comm] using hr
      refine hsome.bind (fun ip => ?_)
      cases ip with
      | none => exact (ih spec).weaken (fun l hl => hl.mono (fun r hr => .inl hr))
      | some ip =>
        apply Reserves.attempt_bind
        intro spec' _
        refine ((ih spec').weaken (fun l hl => hl)).bind (fun r => .pure (fun l hl => hl.mono (fun x hx => ?_)))
        obtain hx | ⟨t, ht, rfl⟩ := hx
        · exact .inl (.inl hx)
        · obtain rfl | ht := mem_cons.mp ht
          · exact .inl (.inr ⟨_, by simp, rfl⟩)
          · exact .inr ⟨t, ht, rfl⟩

theorem reserves_maybeAllocateClusterIp (e : Edits) (old : Option Json) (body : Json) :
    Reserves (fun l => l.old = O) (maybeAllocateClusterIp net id e old body)
      (fun r => Secured e.dryRun O {x | ∃ ip ∈ r.2, x = .ip ip}) := by
  have hnone {b : Json} : Reserves (fun l => l.old = O) (pure (b, ([] : List String)))
      (fun r => Secured e.dryRun O {x | ∃ ip ∈ r.2, x = .ip ip}) :=
    .pure (fun l hl => ⟨hl, fun _ r hr => by simp at hr⟩)
  refine .ite (fun _ => hnone) (fun _ => ?_)
  apply Reserves.attempt_bind
  intro body' _
  refine .ite (fun _ => hnone) (fun _ => ?_)
  have hfill : Reserves (Secured e.dryRun O ∅)
      (fillSlots net id e.starts (unallocatedSlots (body'.idx "spec")) (body'.idx "spec"))
      (fun r => Secured e.dryRun O (withIps ∅ r.2)) := reserves_fillSlots _ _ _
  refine (hfill.weaken (fun l hl => ⟨hl, fun _ r hr => hr.elim⟩)).bind (fun r => ?_)
  apply Reserves.attempt_bind
  intro body'' _
  exact .pure (fun l hl => hl.mono (fun x hx => .inr hx))

theorem reserves_body (e : Edits) (old : Option Json) :
    Reserves (fun l => l.old = O) (e.body net id old)
      (fun r => Secured e.dryRun O {x | ∃ ip ∈ r.2, x = .ip ip}) := by
  apply Reserves.attempt_bind
  intro body _
  refine (reserves_maybeAllocateClusterIp e old body).bind (fun r => ?_)
  apply Reserves.attempt_bind
  intro body' _
  exact .pure (fun l hl => hl)

end Allocation

end U7s.Services
