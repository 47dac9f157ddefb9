import U7s.Lib.Lists
import U7s.Quota.Counter

/-! The limits hold as long as no scan is written back while the removal of a pod is pending and no sum overflows. -/

namespace U7s.Quota

open List MachineInt

variable {parseQuantityMilli : String → Option ℤ} {quotas : List ResourceQuota} {s : State}

section Charges

variable (parseQuantityMilli) (quotas)

def State.charge (s : State) (q : ResourceQuota) (e : Entry) : ℤ :=
  total parseQuantityMilli q s.pods e + (s.removed.map (share parseQuantityMilli q e)).sum

def Section.unrecorded : Section → List ResourceQuota
  | .record _ _ todo => todo
  | .adjust _ _ q _ _ rest => q :: rest
  | _ => []

def Section.offset (q : ResourceQuota) (e : Entry) (sec : Section) : ℤ :=
  match sec with
  | .record pod created _ | .adjust pod created _ _ _ _ =>
    if q.name ∈ sec.unrecorded.map ResourceQuota.name then
      if created then -share parseQuantityMilli q e pod else share parseQuantityMilli q e pod
    else 0
  | _ => 0

def Whole (e : Entry) (v : ℤ) : Prop := e.isBytes = true → 1000 ∣ v

def Sane (pod : Json) : Prop :=
  ∀ q ∈ quotas, ∀ e, 0 ≤ share parseQuantityMilli q e pod ∧ share parseQuantityMilli q e pod < e.bound ∧
    Whole e (share parseQuantityMilli q e pod)

def State.Covers (s : State) (q : ResourceQuota) (e : Entry) (v : ℤ) : Prop :=
  s.charge parseQuantityMilli q e ≤ v ∧ Whole e v

def State.SectionSound (s : State) : Section → Prop
  | .check _ pod todo => Sane parseQuantityMilli quotas pod ∧
      ∀ q ∈ quotas, podMatchesQuotaScope q pod = true → ∀ e limit, q.hard.lookup e = some limit →
        (q, e, limit) ∈ todo ∨ total parseQuantityMilli q s.pods e + share parseQuantityMilli q e pod ≤ limit
  | .record pod _ todo => Sane parseQuantityMilli quotas pod ∧ todo <:+ quotas
  | .adjust pod _ q todo updates rest => Sane parseQuantityMilli quotas pod ∧ q :: rest <:+ quotas ∧
      podMatchesQuotaScope q pod = true ∧ (∀ u ∈ updates, s.Covers parseQuantityMilli q u.1 u.2) ∧
      (∀ e ∈ todo, e ∈ q.hard) ∧ ∀ e ∈ q.hard, e ∈ todo ∨ e ∈ updates.map Prod.fst
  | .recompute todo => todo ⊆ quotas
  | .count q todo used rest => q ∈ quotas ∧ rest ⊆ quotas ∧ (∀ e ∈ todo, e ∈ q.hard) ∧
      ∀ u ∈ used, s.Covers parseQuantityMilli q u.1 u.2

structure Sound (s : State) : Prop where
  limits : ∀ q ∈ quotas, ∀ e, ∀ limit ∈ q.hard.lookup e, limit < e.bound
  stored : ∀ name pod, s.pods.lookup name = some pod → Sane parseQuantityMilli quotas pod
  removed : ∀ pod ∈ s.removed, Sane parseQuantityMilli quotas pod
  covered : ∀ q ∈ quotas, ∀ e ∈ q.hard, ∀ v, s.used q.name e = some v →
    s.charge parseQuantityMilli q e + s.held.elim 0 (Section.offset parseQuantityMilli q e) ≤ v ∧ Whole e v
  within : ∀ q ∈ quotas, ∀ e limit, q.hard.lookup e = some limit → total parseQuantityMilli q s.pods e ≤ limit
  inSection : ∀ sec, s.held = some sec → s.SectionSound parseQuantityMilli quotas sec

def State.Quiet (s : State) (q : ResourceQuota) : Prop := ∀ pod ∈ s.removed, podMatchesQuotaScope q pod = false

def SameShares (pod body : Json) : Prop :=
  ∀ q ∈ quotas, ∀ e, share parseQuantityMilli q e body = share parseQuantityMilli q e pod

def signed (created : Bool) (x : ℤ) : ℤ := if created then x else -x

def Section.Settled (s : State) : Section → Prop
  | .check _ pod ((q, e, _) :: _) => e.toPodResource.isSome →
      (s.used q.name e).getD (total parseQuantityMilli q s.pods e) + share parseQuantityMilli q e pod < e.bound
  | .adjust pod created q (e :: _) _ _ => (s.used q.name e = none → s.Quiet q) ∧
      ∀ old ∈ s.used q.name e, old + signed created (share parseQuantityMilli q e pod) < e.bound
  | .count q (_ :: _) _ _ => s.Quiet q
  | _ => True

def State.Permits (s : State) : Action → Prop
  | .startCreate _ pod => Sane parseQuantityMilli quotas pod
  | .advance => ∀ sec ∈ s.held, sec.Settled parseQuantityMilli s
  | .delete name body => ∀ pod ∈ s.pods.lookup name, SameShares parseQuantityMilli quotas pod body
  | .deleteListed name body => ∃ pod ∈ s.pods.lookup name, SameShares parseQuantityMilli quotas pod body
  | _ => True

instance Whole.decidable (e : Entry) (v : ℤ) : Decidable (Whole e v) := inferInstanceAs (Decidable (_ → _))

instance Sane.decidable (pod : Json) : Decidable (Sane parseQuantityMilli quotas pod) :=
  inferInstanceAs (Decidable (∀ q ∈ quotas, ∀ _, _))

instance SameShares.decidable (pod body : Json) : Decidable (SameShares parseQuantityMilli quotas pod body) :=
  inferInstanceAs (Decidable (∀ q ∈ quotas, ∀ _, _))

instance State.Quiet.decidable (s : State) (q : ResourceQuota) : Decidable (s.Quiet q) :=
  inferInstanceAs (Decidable (∀ pod ∈ s.removed, _))

instance Section.Settled.decidable (s : State) : ∀ sec : Section, Decidable (sec.Settled parseQuantityMilli s)
  | .check _ _ (_ :: _) => inferInstanceAs (Decidable (_ → _))
  | .adjust _ _ _ (_ :: _) _ _ => inferInstanceAs (Decidable (_ ∧ _))
  | .count q (_ :: _) _ _ => State.Quiet.decidable s q
  | .check _ _ [] | .adjust _ _ _ [] _ _ | .count _ [] _ _ | .record _ _ _ | .recompute _ => isTrue trivial

instance State.Permits.decidable (s : State) : ∀ a, Decidable (s.Permits parseQuantityMilli quotas a)
  | .startCreate _ pod => Sane.decidable parseQuantityMilli quotas pod
  | .advance => inferInstanceAs (Decidable (∀ sec ∈ s.held, _))
  | .delete name _ => inferInstanceAs (Decidable (∀ pod ∈ s.pods.lookup name, _))
  | .deleteListed name _ => inferInstanceAs (Decidable (∃ pod ∈ s.pods.lookup name, _))
  | .startRemove _ | .startRecompute => isTrue trivial

end Charges

section Arithmetic

variable {q : ResourceQuota} {e : Entry} {pod : Json} {v : ℤ}

theorem formatted_of_whole (h : Whole e v) : formatted e v = v := by
  unfold formatted
  split_ifs with hb
  · obtain ⟨w, rfl⟩ := h hb
    rw [Int.mul_tdiv_cancel_left w (by decide), mul_comm]
  · rfl

theorem sum_shares_nonneg (hq : q ∈ quotas) {pods : List Json}
    (h : ∀ pod ∈ pods, Sane parseQuantityMilli quotas pod) (e : Entry) :
    0 ≤ (pods.map (share parseQuantityMilli q e)).sum ∧ Whole e (pods.map (share parseQuantityMilli q e)).sum := by
  induction pods with
  | nil => exact ⟨le_refl 0, fun _ => dvd_zero _⟩
  | cons pod pods ih =>
    obtain ⟨hnon, hwhole⟩ := ih (fun p hp => h p (mem_cons_of_mem _ hp))
    obtain ⟨hpod, -, hdvd⟩ := h pod mem_cons_self q hq e
    exact ⟨add_nonneg hpod hnon, fun hb => dvd_add (hdvd hb) (hwhole hb)⟩

theorem sum_eq_zero_of_quiet (h : s.Quiet q) : (s.removed.map (share parseQuantityMilli q e)).sum = 0 := by
  refine sum_eq_zero (fun x hx => ?_)
  obtain ⟨pod, hpod, rfl⟩ := mem_map.mp hx
  simp [share, h pod hpod]

theorem total_eq_map (q : ResourceQuota) (pods : Pods) (e : Entry) :
    total parseQuantityMilli q pods e = ((podList pods).map (share parseQuantityMilli q e)).sum := by
  rw [podList, map_map]
  rfl

section

variable (hs : Sound parseQuantityMilli quotas s)
include hs

theorem Sound.total_nonneg (hq : q ∈ quotas) :
    0 ≤ total parseQuantityMilli q s.pods e ∧ Whole e (total parseQuantityMilli q s.pods e) := by
  rw [total_eq_map]
  refine sum_shares_nonneg hq (fun pod hpod => ?_) e
  obtain ⟨⟨name, p⟩, hp, rfl⟩ := mem_map.mp hpod
  exact hs.stored name p (AList.mem_lookup_iff.mpr hp)

theorem Sound.total_le_charge (hq : q ∈ quotas) :
    total parseQuantityMilli q s.pods e ≤ s.charge parseQuantityMilli q e := by
  have hnon := (sum_shares_nonneg hq hs.removed e).1
  unfold State.charge
  omega

theorem Sound.scan_eq (hq : q ∈ quotas) (he : e ∈ q.hard) :
    scan parseQuantityMilli q s.pods e = total parseQuantityMilli q s.pods e := by
  obtain ⟨limit, hlimit⟩ := Option.isSome_iff_exists.mp (AList.lookup_isSome.mpr he)
  exact scan_eq_total (hs.total_nonneg hq).1 ((hs.within q hq e limit hlimit).trans_lt (hs.limits q hq e limit hlimit))

theorem Sound.covers_scan (hq : q ∈ quotas) (he : e ∈ q.hard) (hquiet : s.Quiet q) :
    s.Covers parseQuantityMilli q e (formatted e (scan parseQuantityMilli q s.pods e)) := by
  have hwhole := (hs.total_nonneg hq (e := e)).2
  rw [hs.scan_eq hq he, formatted_of_whole hwhole]
  refine ⟨?_, hwhole⟩
  rw [State.charge, sum_eq_zero_of_quiet hquiet, add_zero]

end

end Arithmetic

section Values

variable {q : ResourceQuota} {e : Entry} {pod : Json} {created : Bool}

theorem offset_head :
    (Section.adjust pod created q todo updates rest).offset parseQuantityMilli q e =
      -signed created (share parseQuantityMilli q e pod) := by
  cases created <;> simp [Section.offset, Section.unrecorded, signed]

theorem podResourceMilli_eq_share (hr : e.toPodResource = some resource) (hmatch : podMatchesQuotaScope q pod)
    (hnonneg : 0 ≤ share parseQuantityMilli q e pod) (hbound : share parseQuantityMilli q e pod < e.bound) :
    podResourceMilli parseQuantityMilli pod "requests" resource = share parseQuantityMilli q e pod := by
  rw [podResourceMilli_eq hr, ← share_of_matches hmatch]
  simp only [Entry.bound, hr, Option.isSome_some, if_true] at hbound
  exact bmod_of_fits (by omega) hbound

theorem newValue_eq (hmatch : podMatchesQuotaScope q pod) (hold : s.used q.name e = some old)
    (hnonneg : 0 ≤ share parseQuantityMilli q e pod) (hbound : share parseQuantityMilli q e pod < e.bound)
    (hnew : 0 ≤ old + signed created (share parseQuantityMilli q e pod))
    (hfits : old + signed created (share parseQuantityMilli q e pod) < e.bound) :
    newValue parseQuantityMilli s q e pod created = old + signed created (share parseQuantityMilli q e pod) := by
  cases hr : e.toPodResource with
  | some resource =>
    have hmilli := podResourceMilli_eq_share hr hmatch hnonneg hbound
    simp only [newValue, podResourceMilliNewValue, hr, hold, hmilli]
    simp only [Entry.bound, hr, Option.isSome_some, if_true] at hfits
    exact addI64_of_fits (hnew.trans' (by decide)) hfits
  | none =>
    have hone : share parseQuantityMilli q e pod = 1 := by
      rw [share_of_matches hmatch, contribution, hr]
    simp only [Entry.bound, hr, hone, Option.isSome_none, Bool.false_eq_true, if_false] at hfits hnew
    simp only [newValue, podCountNewValue, hr, hold, hone]
    cases created with
    | true => exact Int.emod_eq_of_lt hnew hfits
    | false => exact max_eq_left hnew

theorem Sound.covers_newValue (hs : Sound parseQuantityMilli quotas s)
    (hheld : s.held = some (.adjust pod created q (e :: todo) updates rest))
    (hsettled : (Section.adjust pod created q (e :: todo) updates rest).Settled parseQuantityMilli s) :
    s.Covers parseQuantityMilli q e (formatted e (newValue parseQuantityMilli s q e pod created)) := by
  obtain ⟨hsane, hsuffix, hmatch, -, hhard, -⟩ := hs.inSection _ hheld
  obtain ⟨hquiet, hfits⟩ := hsettled
  have hq : q ∈ quotas := hsuffix.subset mem_cons_self
  have he : e ∈ q.hard := hhard e mem_cons_self
  cases hused : s.used q.name e with
  | none =>
    have hscan : newValue parseQuantityMilli s q e pod created = scan parseQuantityMilli q s.pods e := by
      unfold newValue podCountNewValue podResourceMilliNewValue
      rw [hused]
      cases e.toPodResource <;> rfl
    rw [hscan]
    exact hs.covers_scan hq he (hquiet hused)
  | some old =>
    obtain ⟨hnonneg, hbound, hshare⟩ := hsane q hq e
    obtain ⟨hle, hwhole⟩ := hs.covered q hq e he old hused
    rw [hheld, Option.elim, offset_head] at hle
    have hcharge := hs.total_le_charge hq (e := e)
    have htotal := (hs.total_nonneg hq (e := e)).1
    have hsum : Whole e (old + signed created (share parseQuantityMilli q e pod)) := by
      refine fun hb => dvd_add (hwhole hb) ?_
      cases created with
      | true => exact hshare hb
      | false => exact (dvd_neg).mpr (hshare hb)
    rw [newValue_eq hmatch hused hnonneg hbound (by omega) (hfits old hused), formatted_of_whole hsum]
    exact ⟨by omega, hsum⟩

end Values

theorem Sound.hold (hs : Sound parseQuantityMilli quotas s)
    (hoffset : ∀ q ∈ quotas, ∀ e, sec.offset parseQuantityMilli q e ≤
      s.held.elim 0 (Section.offset parseQuantityMilli q e)) (hsec : s.SectionSound parseQuantityMilli quotas sec) :
    Sound parseQuantityMilli quotas (s.hold sec) where
  limits := hs.limits
  stored := hs.stored
  removed := hs.removed
  covered := by
    intro q hq e he v hv
    obtain ⟨hle, hwhole⟩ := hs.covered q hq e he v hv
    exact ⟨(add_le_add_right (hoffset q hq e) _).trans hle, hwhole⟩
  within := hs.within
  inSection := by
    rintro _ ⟨⟩
    exact hsec

theorem Sound.release (hs : Sound parseQuantityMilli quotas s)
    (hoffset : ∀ q ∈ quotas, ∀ e, 0 ≤ s.held.elim 0 (Section.offset parseQuantityMilli q e)) :
    Sound parseQuantityMilli quotas s.release where
  limits := hs.limits
  stored := hs.stored
  removed := hs.removed
  covered := by
    intro q hq e he v hv
    obtain ⟨hle, hwhole⟩ := hs.covered q hq e he v hv
    exact ⟨(add_le_add_right (hoffset q hq e) _).trans hle, hwhole⟩
  within := hs.within
  inSection := by rintro _ ⟨⟩

theorem mem_checksFor (hq : q ∈ quotas) (hmatch : podMatchesQuotaScope q pod)
    (h : q.hard.lookup e = some limit) : (q, e, limit) ∈ checksFor quotas pod := by
  refine mem_flatMap.mpr ⟨q, mem_filter.mpr ⟨hq, hmatch⟩, ?_⟩
  exact mem_map.mpr ⟨⟨e, limit⟩, AList.mem_lookup_iff.mp h, rfl⟩

theorem mem_adjusted : e ∈ adjusted q ↔ e ∈ q.hard := by
  rw [adjusted, mem_append, mem_filter, mem_filter, AList.mem_keys]
  cases e.toPodResource <;> simp

section

variable (hs : Sound parseQuantityMilli quotas s)
include hs

theorem Sound.room (hzero : ∀ q e, s.held.elim 0
      (Section.offset parseQuantityMilli q e) = 0) (hq : q ∈ quotas) (hmatch : podMatchesQuotaScope q pod)
    (he : e ∈ q.hard) (hsane : Sane parseQuantityMilli quotas pod)
    (hfits : e.toPodResource.isSome → (s.used q.name e).getD (total parseQuantityMilli q s.pods e) +
      share parseQuantityMilli q e pod < e.bound)
    (h : exceeded parseQuantityMilli e limit pod (baseline parseQuantityMilli s q e) = false) :
    total parseQuantityMilli q s.pods e + share parseQuantityMilli q e pod ≤ limit := by
  have htotal := (hs.total_nonneg hq (e := e)).1
  have hbase : total parseQuantityMilli q s.pods e ≤ baseline parseQuantityMilli s q e := by
    unfold baseline
    cases hused : s.used q.name e with
    | none => exact (hs.scan_eq hq he).ge
    | some v =>
      have hle := (hs.covered q hq e he v hused).1
      rw [hzero q e, add_zero] at hle
      exact hs.total_le_charge hq |>.trans hle
  rw [← hs.scan_eq hq he] at hfits
  change _ → baseline parseQuantityMilli s q e + _ < _ at hfits
  obtain ⟨hnonneg, hbound, -⟩ := hsane q hq e
  unfold exceeded at h
  cases hr : e.toPodResource with
  | none =>
    rw [hr] at h
    simp only [decide_eq_false_iff_not] at h
    rw [share_of_matches hmatch, contribution, hr]
    simp only
    omega
  | some resource =>
    rw [hr] at h hfits
    simp only [Entry.bound, hr, Option.isSome_some, if_true, forall_const] at hfits
    simp only [podResourceMilli_eq_share hr hmatch hnonneg hbound, decide_eq_false_iff_not] at h
    rw [addI64_of_fits (by omega) hfits] at h
    omega

theorem Sound.check (hheld : s.held = some (.check name pod ((q, e, limit) :: todo)))
    (hsettled : (Section.check name pod ((q, e, limit) :: todo)).Settled parseQuantityMilli s)
    (h : exceeded parseQuantityMilli e limit pod (baseline parseQuantityMilli s q e) = false) :
    Sound parseQuantityMilli quotas (s.hold (.check name pod todo)) := by
  obtain ⟨hsane, hchecked⟩ := hs.inSection _ hheld
  have hzero : ∀ q e, s.held.elim 0 (Section.offset parseQuantityMilli q e) = 0 := by
    intro q e
    rw [hheld]
    rfl
  refine hs.hold (fun q hq e => (hzero q e).ge) ⟨hsane, ?_⟩
  intro q' hq' hmatch e' limit' hlimit
  obtain hmem | hroom := hchecked q' hq' hmatch e' limit' hlimit
  · obtain heq | hmem := mem_cons.mp hmem
    · cases heq
      exact .inr (hs.room hzero hq' hmatch (AList.lookup_isSome.mp (by rw [hlimit]; rfl)) hsane hsettled h)
    · exact .inl hmem
  · exact .inr hroom

theorem Sound.create (hheld : s.held = some (.check name pod [])) (hnone : s.pods.lookup name = none) :
    Sound parseQuantityMilli quotas ({ s with pods := s.pods.insert name pod }.hold (.record pod true quotas)) := by
  obtain ⟨hsane, hchecked⟩ := hs.inSection _ hheld
  have htotal : ∀ q e, total parseQuantityMilli q (s.pods.insert name pod) e =
      total parseQuantityMilli q s.pods e + share parseQuantityMilli q e pod :=
    fun q e => Tables.weight_insert pod hnone
  refine ⟨hs.limits, ?_, hs.removed, ?_, ?_, ?_⟩
  · intro name' pod' hpod'
    by_cases hname : name' = name
    · subst hname
      cases (AList.lookup_insert s.pods).symm.trans hpod'
      exact hsane
    · exact hs.stored name' pod' ((AList.lookup_insert_ne hname).symm.trans hpod')
  · intro q hq e he v hv
    obtain ⟨hle, hwhole⟩ := hs.covered q hq e he v hv
    refine ⟨?_, hwhole⟩
    have hoffset : (Section.record pod true quotas).offset parseQuantityMilli q e =
        -share parseQuantityMilli q e pod := by
      simp only [Section.offset, Section.unrecorded, if_pos (mem_map_of_mem hq), if_true]
    rw [hheld] at hle
    simp only [State.hold, State.charge, Option.elim, htotal]
    simp only [Option.elim, Section.offset, State.charge] at hle
    omega
  · intro q hq e limit hlimit
    change total parseQuantityMilli q (s.pods.insert name pod) e ≤ limit
    rw [htotal]
    by_cases hmatch : podMatchesQuotaScope q pod
    · obtain hmem | hroom := hchecked q hq hmatch e limit hlimit
      · exact absurd hmem not_mem_nil
      · exact hroom
    · rw [share, if_neg hmatch, add_zero]
      exact hs.within q hq e limit hlimit
  · rintro _ ⟨⟩
    exact ⟨hsane, suffix_rfl⟩

end

section Records

theorem name_notMem_rest (hnames : (quotas.map ResourceQuota.name).Nodup) (h : q :: rest <:+ quotas) :
    q.name ∉ rest.map ResourceQuota.name := by
  have hsub := (h.map ResourceQuota.name).sublist.nodup hnames
  exact (nodup_cons.mp hsub).1

theorem offset_record (todo : List ResourceQuota) (e : Entry) :
    (Section.record pod created todo).offset parseQuantityMilli q e =
      if q.name ∈ todo.map ResourceQuota.name then -signed created (share parseQuantityMilli q e pod) else 0 := by
  cases created <;> simp [Section.offset, Section.unrecorded, signed]

variable (parseQuantityMilli pod created) in
theorem offset_rest (hnames : (quotas.map ResourceQuota.name).Nodup) (h : q :: rest <:+ quotas)
    (hq' : q' ∈ quotas) (e : Entry) :
    q' = q ∧ (Section.record pod created rest).offset parseQuantityMilli q' e = 0 ∨
      q'.name ≠ q.name ∧ (Section.record pod created rest).offset parseQuantityMilli q' e =
        (Section.record pod created (q :: rest)).offset parseQuantityMilli q' e := by
  by_cases hname : q'.name = q.name
  · have hq : q' = q := inj_on_of_nodup_map hnames hq' (h.subset mem_cons_self) hname
    subst hq
    have hrest := name_notMem_rest hnames h
    exact .inl ⟨rfl, by rw [offset_record, if_neg hrest]⟩
  · refine .inr ⟨hname, ?_⟩
    simp only [offset_record, map_cons, mem_cons, hname, false_or]

section

variable (hs : Sound parseQuantityMilli quotas s)
include hs

theorem Sound.skip (hnames : (quotas.map ResourceQuota.name).Nodup)
    (hheld : s.held = some (.record pod created (q :: rest))) (hmatch : podMatchesQuotaScope q pod = false) :
    Sound parseQuantityMilli quotas (s.hold (.record pod created rest)) := by
  obtain ⟨hsane, hsuffix⟩ := hs.inSection _ hheld
  refine hs.hold (fun q' hq' e => ?_) ⟨hsane, (suffix_cons q rest).trans hsuffix⟩
  rw [hheld]
  obtain ⟨rfl, hzero⟩ | ⟨-, heq⟩ := offset_rest parseQuantityMilli pod created hnames hsuffix hq' e
  · cases created <;> simp [Section.offset, share, hmatch]
  · exact heq.le

theorem Sound.startAdjust
    (hheld : s.held = some (.record pod created (q :: rest))) (hmatch : podMatchesQuotaScope q pod) :
    Sound parseQuantityMilli quotas (s.hold (.adjust pod created q (adjusted q) [] rest)) := by
  obtain ⟨hsane, hsuffix⟩ := hs.inSection _ hheld
  refine hs.hold (fun q' hq' e => ?_) ⟨hsane, hsuffix, hmatch, ?_, fun e he => mem_adjusted.mp he,
    fun e he => .inl (mem_adjusted.mpr he)⟩
  · rw [hheld]
    exact le_refl _
  · intro u hu
    exact absurd hu not_mem_nil

theorem Sound.adjust (hheld : s.held = some (.adjust pod created q (e :: todo) updates rest))
    (hsettled : (Section.adjust pod created q (e :: todo) updates rest).Settled parseQuantityMilli s) :
    Sound parseQuantityMilli quotas (s.hold (.adjust pod created q todo
      (updates ++ [(e, formatted e (newValue parseQuantityMilli s q e pod created))]) rest)) := by
  obtain ⟨hsane, hsuffix, hmatch, hupdates, hhard, hall⟩ := hs.inSection _ hheld
  have hcovers := hs.covers_newValue hheld hsettled
  refine hs.hold (fun q' hq' e' => ?_) ⟨hsane, hsuffix, hmatch, ?_,
    fun e' he' => hhard e' (mem_cons_of_mem e he'), ?_⟩
  · rw [hheld]
    exact le_refl _
  · intro u hu
    obtain hu | hu := mem_append.mp hu
    · exact hupdates u hu
    · rw [mem_singleton.mp hu]
      exact hcovers
  · intro e' he'
    rw [map_append]
    obtain hmem | hmem := hall e' he'
    · obtain rfl | hmem := mem_cons.mp hmem
      · exact .inr (mem_append_right _ (by simp))
      · exact .inl hmem
    · exact .inr (mem_append_left _ hmem)

end

theorem Sound.write (hs : Sound parseQuantityMilli quotas s) (hnames : (quotas.map ResourceQuota.name).Nodup)
    (hheld : s.held = some (.adjust pod created q [] updates rest)) :
    Sound parseQuantityMilli quotas ((writeQuotaUsedUpdates s q updates).hold (.record pod created rest)) := by
  obtain ⟨hsane, hsuffix, -, hupdates, -, hall⟩ := hs.inSection _ hheld
  refine ⟨hs.limits, hs.stored, hs.removed, ?_, hs.within, ?_⟩
  · intro q' hq' e he v hv
    rw [State.hold, Option.elim]
    change s.charge parseQuantityMilli q' e + _ ≤ v ∧ Whole e v
    simp only [State.hold, writeQuotaUsedUpdates] at hv
    obtain ⟨rfl, hzero⟩ | ⟨hname, heq⟩ := offset_rest parseQuantityMilli pod created hnames hsuffix hq' e
    · rw [hzero, add_zero]
      rw [if_pos rfl] at hv
      cases hlook : updates.lookup e with
      | some w =>
        rw [hlook, Option.some_or, Option.some_inj] at hv
        subst hv
        exact hupdates _ (Lists.mem_of_lookup hlook)
      | none =>
        obtain hmem | hmem := hall e he
        · exact absurd hmem not_mem_nil
        · obtain ⟨u, hu, rfl⟩ := mem_map.mp hmem
          exact absurd rfl (bne_iff_ne.mp (lookup_eq_none_iff.mp hlook u hu))
    · rw [if_neg hname] at hv
      obtain ⟨hle, hwhole⟩ := hs.covered q' hq' e he v hv
      rw [hheld] at hle
      rw [heq]
      exact ⟨hle, hwhole⟩
  · rintro _ ⟨⟩
    exact ⟨hsane, (suffix_cons q rest).trans hsuffix⟩

end Records

section

variable (hs : Sound parseQuantityMilli quotas s)
include hs

theorem Sound.startCount (hheld : s.held = some (.recompute (q :: rest))) :
    Sound parseQuantityMilli quotas (s.hold (.count q q.hard.keys [] rest)) := by
  have hsub : q :: rest ⊆ quotas := hs.inSection _ hheld
  obtain ⟨hq, hrest⟩ := cons_subset.mp hsub
  refine hs.hold (fun q' _ e => ?_) ⟨hq, hrest, fun e he => AList.mem_keys.mpr he, fun u hu => absurd hu not_mem_nil⟩
  rw [hheld]
  exact le_refl 0

theorem Sound.count (hheld : s.held = some (.count q (e :: todo) used rest)) (hquiet : s.Quiet q) :
    Sound parseQuantityMilli quotas
      (s.hold (.count q todo (used ++ [(e, formatted e (scan parseQuantityMilli q s.pods e))]) rest)) := by
  obtain ⟨hq, hrest, hhard, hused⟩ := hs.inSection _ hheld
  refine hs.hold (fun q' _ e => ?_) ⟨hq, hrest, fun e' he' => hhard e' (mem_cons_of_mem e he'), fun u hu => ?_⟩
  · rw [hheld]
    exact le_refl 0
  · obtain hu | hu := mem_append.mp hu
    · exact hused u hu
    · rw [mem_singleton.mp hu]
      exact hs.covers_scan hq (hhard e mem_cons_self) hquiet

theorem Sound.replace (hnames : (quotas.map ResourceQuota.name).Nodup) (hheld : s.held = some (.count q [] used rest)) :
    Sound parseQuantityMilli quotas ((replaceUsed s q used).hold (.recompute rest)) := by
  obtain ⟨hq, hrest, -, hused⟩ := hs.inSection _ hheld
  refine ⟨hs.limits, hs.stored, hs.removed, ?_, hs.within, ?_⟩
  · intro q' hq' e he v hv
    simp only [State.hold, replaceUsed] at hv
    split_ifs at hv with hname
    · cases inj_on_of_nodup_map hnames hq' hq hname
      obtain ⟨hle, hwhole⟩ := hused _ (Lists.mem_of_lookup hv)
      exact ⟨(add_zero _).trans_le hle, hwhole⟩
    · have hcov := hs.covered q' hq' e he v hv
      rw [hheld] at hcov
      exact hcov
  · rintro _ ⟨⟩
    exact hrest

end

section Removals

def State.drop (s : State) (name : String) (body : Json) : State :=
  { s with pods := s.pods.erase name, removed := s.removed ++ [body] }

variable (parseQuantityMilli q e body) in
theorem total_drop (hpod : s.pods.lookup name = some pod) :
    total parseQuantityMilli q (s.drop name body).pods e + share parseQuantityMilli q e pod =
      total parseQuantityMilli q s.pods e := Tables.weight_erase hpod

theorem charge_drop (hpod : s.pods.lookup name = some pod)
    (hsame : share parseQuantityMilli q e body = share parseQuantityMilli q e pod) :
    (s.drop name body).charge parseQuantityMilli q e = s.charge parseQuantityMilli q e := by
  have htotal := total_drop parseQuantityMilli q e body hpod
  have hremoved : ((s.drop name body).removed.map (share parseQuantityMilli q e)).sum =
      (s.removed.map (share parseQuantityMilli q e)).sum + share parseQuantityMilli q e body := by
    rw [State.drop]
    simp
  unfold State.charge
  omega

section

variable (hs : Sound parseQuantityMilli quotas s)
include hs

theorem Sound.inSection_drop (hpod : s.pods.lookup name = some pod)
    (hsame : SameShares parseQuantityMilli quotas pod body) (hheld : s.held = some sec) :
    (s.drop name body).SectionSound parseQuantityMilli quotas sec := by
  have hsec := hs.inSection sec hheld
  have hcovers : ∀ q ∈ quotas, ∀ e v, s.Covers parseQuantityMilli q e v →
      (s.drop name body).Covers parseQuantityMilli q e v := by
    rintro q hq e v ⟨hle, hwhole⟩
    exact ⟨(charge_drop hpod (hsame q hq e)).trans_le hle, hwhole⟩
  cases sec with
  | check name' new todo =>
    refine ⟨hsec.1, fun q hq hmatch e limit hlimit => (hsec.2 q hq hmatch e limit hlimit).imp_right fun hroom => ?_⟩
    have htotal := total_drop parseQuantityMilli q e body hpod
    have hnon := (hs.stored name pod hpod q hq e).1
    omega
  | record new created todo => exact hsec
  | adjust new created q todo updates rest =>
    obtain ⟨hsane, hsuffix, hmatch, hupdates, hall⟩ := hsec
    exact ⟨hsane, hsuffix, hmatch, fun u hu => hcovers q (hsuffix.subset mem_cons_self) _ _ (hupdates u hu), hall⟩
  | recompute todo => exact hsec
  | count q todo used rest =>
    obtain ⟨hq, hrest, hhard, hused⟩ := hsec
    exact ⟨hq, hrest, hhard, fun u hu => hcovers q hq _ _ (hused u hu)⟩

theorem Sound.drop (hpod : s.pods.lookup name = some pod)
    (hsame : SameShares parseQuantityMilli quotas pod body) : Sound parseQuantityMilli quotas (s.drop name body) where
  limits := hs.limits
  stored := by
    intro name' pod' hpod'
    by_cases hname : name' = name
    · subst hname
      exact absurd ((AList.lookup_erase name' s.pods).symm.trans hpod') (Option.some_ne_none pod').symm
    · exact hs.stored name' pod' ((AList.lookup_erase_ne hname).symm.trans hpod')
  removed := by
    intro p hp
    obtain hp | hp := mem_append.mp hp
    · exact hs.removed p hp
    · rw [mem_singleton.mp hp]
      intro q hq e
      rw [hsame q hq e]
      exact hs.stored name pod hpod q hq e
  covered := by
    intro q hq e he v hv
    rw [charge_drop hpod (hsame q hq e)]
    exact hs.covered q hq e he v hv
  within := by
    intro q hq e limit hlimit
    have hle := hs.within q hq e limit hlimit
    have htotal := total_drop parseQuantityMilli q e body hpod
    have hnon := (hs.stored name pod hpod q hq e).1
    omega
  inSection := fun _ hheld => hs.inSection_drop hpod hsame hheld

theorem Sound.startRemove (hheld : s.held = none) (hi : s.removed[i]? = some pod) :
    Sound parseQuantityMilli quotas ({ s with removed := s.removed.eraseIdx i }.hold (.record pod false quotas)) := by
  obtain ⟨hlt, rfl⟩ := List.getElem?_eq_some_iff.mp hi
  have hsane := hs.removed _ (getElem_mem hlt)
  refine ⟨hs.limits, hs.stored, fun p hp => hs.removed p (mem_of_mem_eraseIdx hp), ?_, hs.within, ?_⟩
  · intro q hq e he v hv
    obtain ⟨hle, hwhole⟩ := hs.covered q hq e he v hv
    refine ⟨?_, hwhole⟩
    have hsum : share parseQuantityMilli q e s.removed[i] +
        ((s.removed.eraseIdx i).map (share parseQuantityMilli q e)).sum =
          (s.removed.map (share parseQuantityMilli q e)).sum := by
      exact ((getElem_cons_eraseIdx_perm hlt).map _).sum_eq
    rw [hheld] at hle
    simp only [State.hold, State.charge, Option.elim, offset_record, if_pos (mem_map_of_mem hq), signed]
    simp only [Option.elim, State.charge] at hle
    simp only [Bool.false_eq_true, if_false]
    omega
  · rintro _ ⟨⟩
    exact ⟨hsane, suffix_rfl⟩

end

end Removals

section Steps

section

variable (hs : Sound parseQuantityMilli quotas s)
include hs

theorem Sound.advance (hnames : (quotas.map ResourceQuota.name).Nodup)
    (hheld : s.held = some sec) (hsettled : sec.Settled parseQuantityMilli s) :
    Sound parseQuantityMilli quotas (s.advance parseQuantityMilli quotas sec) := by
  have hfree : (∀ q e, sec.offset parseQuantityMilli q e = 0) → Sound parseQuantityMilli quotas s.release := by
    intro h
    refine hs.release (fun q _ e => ?_)
    rw [hheld, Option.elim, h]
  cases sec with
  | check name pod todo =>
    cases todo with
    | cons c todo =>
      unfold State.advance
      dsimp only
      split_ifs with h
      · exact hfree (fun _ _ => rfl)
      · exact hs.check hheld hsettled (Bool.eq_false_iff.mpr h)
    | nil =>
      unfold State.advance
      dsimp only
      cases hpod : s.pods.lookup name with
      | some p => exact hfree (fun _ _ => rfl)
      | none => exact hs.create hheld hpod
  | record pod created todo =>
    cases todo with
    | cons q todo =>
      unfold State.advance
      dsimp only
      split_ifs with hmatch
      · exact hs.startAdjust hheld hmatch
      · exact hs.skip hnames hheld (Bool.eq_false_iff.mpr hmatch)
    | nil => exact hfree (fun _ _ => rfl)
  | adjust pod created q todo updates rest =>
    cases todo with
    | cons e todo => exact hs.adjust hheld hsettled
    | nil => exact hs.write hnames hheld
  | recompute todo =>
    cases todo with
    | cons q todo => exact hs.startCount hheld
    | nil => exact hfree (fun _ _ => rfl)
  | count q todo used rest =>
    cases todo with
    | cons e todo => exact hs.count hheld hsettled
    | nil =>
      cases used with
      | nil =>
        refine hs.hold (fun q' _ e => ?_) (hs.inSection _ hheld).2.1
        rw [hheld]
        exact le_refl 0
      | cons u used => exact hs.replace hnames hheld

theorem Sound.step (hnames : (quotas.map ResourceQuota.name).Nodup) (ha : s.Permits parseQuantityMilli quotas a) :
    Sound parseQuantityMilli quotas (s.step parseQuantityMilli quotas a) := by
  have hfree : s.held.isNone → ∀ q e, s.held.elim 0 (Section.offset parseQuantityMilli q e) = 0 := by
    intro h q e
    rw [Option.isNone_iff_eq_none.mp h]
    rfl
  cases a with
  | startCreate name pod =>
    unfold State.step
    split_ifs with h
    · exact hs.hold (fun q _ e => (hfree h q e).ge) ⟨ha, fun q hq hmatch e limit hl => .inl (mem_checksFor hq hmatch hl)⟩
    · exact hs
  | startRemove i =>
    unfold State.step
    dsimp only
    split
    · exact hs.startRemove ‹_› ‹_›
    · exact hs
  | startRecompute =>
    unfold State.step
    split_ifs with h
    · exact hs.hold (fun q _ e => (hfree h q e).ge) (Subset.refl quotas)
    · exact hs
  | advance =>
    unfold State.step
    cases hheld : s.held with
    | some sec => exact hs.advance hnames hheld (ha sec hheld)
    | none => exact hs
  | delete name body =>
    unfold State.step
    dsimp only
    cases hpod : s.pods.lookup name with
    | some pod => exact hs.drop hpod (ha pod hpod)
    | none => exact hs
  | deleteListed name body =>
    obtain ⟨pod, hpod, hsame⟩ := ha
    exact hs.drop hpod hsame

end

variable (parseQuantityMilli quotas) in
structure State.Start (s : State) : Prop where
  limits : ∀ q ∈ quotas, ∀ e, ∀ limit ∈ q.hard.lookup e, limit < e.bound
  stored : ∀ pod ∈ podList s.pods, Sane parseQuantityMilli quotas pod
  recorded : ∀ q ∈ quotas, ∀ e ∈ q.hard.keys, ∀ v ∈ s.used q.name e,
    total parseQuantityMilli q s.pods e ≤ v ∧ Whole e v
  within : s.Within parseQuantityMilli quotas
  removed : s.removed = []
  held : s.held = none

theorem State.Start.sound (h : s.Start parseQuantityMilli quotas) : Sound parseQuantityMilli quotas s where
  limits := h.limits
  stored := fun name pod hpod => h.stored pod (mem_map_of_mem (AList.mem_lookup_iff.mp hpod))
  removed := by
    intro pod hpod
    rw [h.removed] at hpod
    exact absurd hpod not_mem_nil
  covered := by
    intro q hq e he v hv
    rw [h.held, charge, h.removed]
    simpa using h.recorded q hq e he v hv
  within := by
    intro q hq e limit hlimit
    rw [total_eq]
    exact h.within q hq e limit hlimit
  inSection := by
    intro sec hsec
    rw [h.held] at hsec
    cases hsec

end Steps

def milli (s : String) : Option ℤ :=
  if s = "1Gi" then some (2 ^ 30 * 1000) else if s = "9000000000000000" then some (9 * 10 ^ 18) else none

def create (name : String) (pod : Json) : List Action := .startCreate name pod :: replicate 8 .advance

end U7s.Quota
