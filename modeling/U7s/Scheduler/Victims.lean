import U7s.Scheduler.Resources

namespace U7s.Scheduler

open List MachineInt

theorem totalOf_perm (h : a.Perm b) (res : Resource) : totalOf a res = totalOf b res :=
  (h.map _).sum_eq

theorem lookup_subAmount (m : AList (fun _ : String => ℤ)) (he : e.1 ∈ m) (name : String) :
    ((subAmount m e).lookup name).getD 0 % 2 ^ 64 =
      ((m.lookup name).getD 0 - if e.1 = name then e.2 else 0) % 2 ^ 64 := by
  obtain ⟨have', hhave⟩ := Option.isSome_iff_exists.mp (AList.lookup_isSome.mpr he)
  simp only [subAmount, hhave]
  by_cases hn : name = e.1
  · subst hn
    rw [AList.lookup_insert, hhave, if_pos rfl]
    exact subI64_emod _ _
  · simp [AList.lookup_insert_ne hn, Ne.symm hn]

theorem mem_subAmount (m : AList (fun _ : String => ℤ)) (e : (_ : String) × ℤ) (h : name ∈ m) :
    name ∈ subAmount m e := by
  unfold subAmount
  split
  · exact (AList.mem_insert _).mpr (.inr h)
  · exact h

theorem mem_addAmount (m : AList (fun _ : String => ℤ)) (e : (_ : String) × ℤ) (h : name ∈ m ∨ name = e.1) :
    name ∈ addAmount m e :=
  (AList.mem_insert _).mpr h.symm

theorem mem_foldl_subAmount (es : List ((_ : String) × ℤ)) (h : name ∈ m) : name ∈ es.foldl subAmount m := by
  induction es generalizing m with
  | nil => exact h
  | cons e es ih => exact ih (mem_subAmount m e h)

theorem mem_foldl_addAmount (es : List ((_ : String) × ℤ)) (h : name ∈ m ∨ name ∈ es.keys) :
    name ∈ es.foldl addAmount m := by
  induction es generalizing m with
  | nil => simpa using h
  | cons e es ih =>
    apply ih
    obtain h | h := h
    · exact .inl (mem_addAmount m e (.inl h))
    · rw [keys_cons, mem_cons] at h
      exact h.imp_left (fun h => mem_addAmount m e (.inr h))

theorem lookup_foldl_subAmount (es : List ((_ : String) × ℤ)) (hes : es.NodupKeys) (hm : ∀ e ∈ es, e.1 ∈ m)
    (name : String) :
    ((es.foldl subAmount m).lookup name).getD 0 % 2 ^ 64 =
      ((m.lookup name).getD 0 - (es.dlookup name).getD 0) % 2 ^ 64 := by
  induction es generalizing m with
  | nil => simp
  | cons e es ih =>
    obtain ⟨hnot, hes⟩ := nodupKeys_cons.mp hes
    have hrest := ih hes (fun x hx => mem_subAmount m e (hm x (mem_cons_of_mem e hx)))
    have hfirst := lookup_subAmount m (hm e mem_cons_self) name
    rw [foldl_cons]
    obtain ⟨k, v⟩ := e
    by_cases hk : k = name
    · subst hk
      rw [dlookup_eq_none.mpr hnot] at hrest
      rw [dlookup_cons_eq]
      simp only [if_true, Option.getD_none, Option.getD_some] at hfirst hrest ⊢
      omega
    · rw [dlookup_cons_ne _ _ (Ne.symm hk)]
      simp only [if_neg hk] at hfirst
      omega

theorem amount_subtract (a b : ResourceRequests) (hb : ∀ name ∈ b.extended, name ∈ a.extended)
    (hres : res ≠ .pods) :
    (a.subtractRequests b).amount res % 2 ^ 64 = (a.amount res - b.amount res) % 2 ^ 64 := by
  cases res with
  | pods => exact absurd rfl hres
  | cpu | memory | ephemeralStorage => exact subI64_emod _ _
  | extended name =>
    refine lookup_foldl_subAmount b.extended.entries b.extended.nodupKeys (fun e he => hb e.1 ?_) name
    exact mem_keys_of_mem he

structure Tracks (used : ResourceRequests) (pods : List (Key × TalliedPod)) : Prop where
  amount : ∀ res, res ≠ .pods → used.amount res % 2 ^ 64 = totalOf pods res % 2 ^ 64
  entries : ∀ p ∈ pods, ∀ name ∈ p.2.requests.extended, name ∈ used.extended

theorem Tracks.perm (h : Tracks used pods) (hperm : pods.Perm pods') : Tracks used pods' :=
  ⟨fun res hres => totalOf_perm hperm res ▸ h.amount res hres,
    fun p hp => h.entries p (hperm.mem_iff.mpr hp)⟩

theorem tracks_foldl (pods : List (Key × TalliedPod)) (acc : ResourceRequests)
    (h : name ∈ acc.extended ∨ ∃ p ∈ pods, name ∈ p.2.requests.extended) :
    name ∈ (pods.foldl (fun acc p => acc.add p.2.requests) acc).extended := by
  induction pods generalizing acc with
  | nil => simpa using h
  | cons q pods ih =>
    apply ih
    obtain h | ⟨p, hp, hname⟩ := h
    · exact .inl (mem_foldl_addAmount _ (.inl h))
    · obtain rfl | hp := mem_cons.mp hp
      · exact .inl (mem_foldl_addAmount _ (.inr hname))
      · exact .inr ⟨p, hp, hname⟩

theorem tracks_summedRequests (pods : List (Key × TalliedPod)) : Tracks (summedRequests pods) pods :=
  ⟨fun res hres => amount_summedRequests pods res hres,
    fun p hp _ hname => tracks_foldl pods {} (.inr ⟨p, hp, hname⟩)⟩

theorem Tracks.subtract (h : Tracks used (p :: pods)) : Tracks (used.subtractRequests p.2.requests) pods := by
  have hentries := h.entries p mem_cons_self
  constructor
  · intro res hres
    have hsub := amount_subtract used p.2.requests hentries hres
    have hused := h.amount res hres
    have hcons : totalOf (p :: pods) res = p.2.requests.amount res + totalOf pods res := by simp [totalOf]
    omega
  · intro q hq name hname
    exact mem_foldl_subAmount _ (h.entries q (mem_cons_of_mem p hq) name hname)

section Room

def NodeItem.checks (node : NodeItem) (requested : ResourceRequests) : Resource → Prop
  | .extended name => requested.amount (.extended name) ≠ 0
  | res => node.capacity res ≠ 0

def loadOf (pods : List (Key × TalliedPod)) (requested : ResourceRequests) : Resource → ℤ
  | .pods => pods.length + 1
  | res => (totalOf pods res + requested.amount res).bmod (2 ^ 64)

def Room (node : NodeItem) (pods : List (Key × TalliedPod)) (requested : ResourceRequests) : Prop :=
  ∀ res, node.checks requested res → loadOf pods requested res ≤ node.capacity res

def Fits (node : NodeItem) (pods : List (Key × TalliedPod)) (requested : ResourceRequests) : Prop :=
  ∀ res, node.checks requested res → totalOf pods res + requested.amount res ≤ node.capacity res

variable {node : NodeItem} {pods pods' : List (Key × TalliedPod)} {used requested : ResourceRequests}

theorem loadOf_perm (h : pods.Perm pods') (res : Resource) :
    loadOf pods requested res = loadOf pods' requested res := by
  cases res with
  | pods => simp [loadOf, h.length_eq]
  | _ => simp only [loadOf, totalOf_perm h]

theorem room_perm (h : pods.Perm pods') : Room node pods requested ↔ Room node pods' requested :=
  forall_congr' (fun res => by rw [loadOf_perm h res])

theorem Tracks.addI64 (h : Tracks used pods) (res : Resource) (hres : res ≠ .pods) (want : ℤ) :
    addI64 (used.amount res) want = (totalOf pods res + want).bmod (2 ^ 64) := by
  have hmod : (used.amount res + want) % 2 ^ 64 = (totalOf pods res + want) % 2 ^ 64 := by
    have := h.amount res hres
    omega
  rw [MachineInt.addI64, ← Int.emod_bmod, ← Int.emod_bmod (totalOf pods res + want)]
  exact congrArg (fun x => Int.bmod x (2 ^ 64)) hmod

theorem knownFits_iff (cap : ℤ) {used : ℤ} (h : addI64 used want = load) :
    knownFits cap used want ↔ (cap ≠ 0 → load ≤ cap) := by
  simp only [knownFits, Bool.or_eq_true, decide_eq_true_eq, h]
  tauto

theorem extendedFits_iff (h : Tracks used pods) :
    (requested.extended.entries.all (fun e => e.2 = 0 ||
      addI64 ((used.extended.lookup e.1).getD 0) e.2 ≤ (node.extended.lookup e.1).getD 0)) ↔
    ∀ name, node.checks requested (.extended name) →
      loadOf pods requested (.extended name) ≤ node.capacity (.extended name) := by
  have hload (name : String) (want : ℤ) (hwant : requested.extended.lookup name = some want) :
      addI64 ((used.extended.lookup name).getD 0) want = loadOf pods requested (.extended name) := by
    have hsum := h.addI64 (.extended name) (by simp) want
    simp only [ResourceRequests.amount] at hsum
    simp [loadOf, ResourceRequests.amount, hwant, hsum]
  rw [all_eq_true]
  constructor
  · intro hall name hchecks
    cases hwant : requested.extended.lookup name with
    | none => exact absurd (by simp [ResourceRequests.amount, hwant]) hchecks
    | some want =>
      have hentry := hall ⟨name, want⟩ (AList.mem_lookup_iff.mp hwant)
      rw [Bool.or_eq_true, decide_eq_true_eq, decide_eq_true_eq, hload name want hwant] at hentry
      refine hentry.resolve_left (fun hzero => hchecks ?_)
      rw [ResourceRequests.amount, hwant]
      exact hzero
  · rintro hall ⟨name, want⟩ hmem
    have hwant : requested.extended.lookup name = some want := AList.mem_lookup_iff.mpr hmem
    rw [Bool.or_eq_true, decide_eq_true_eq, decide_eq_true_eq, hload name want hwant]
    by_cases hzero : want = 0
    · exact .inl hzero
    · refine .inr (hall name ?_)
      rw [NodeItem.checks, ResourceRequests.amount, hwant]
      exact hzero

theorem roomFor_iff (h : Tracks used pods) :
    roomFor node pods.length used requested ↔ Room node pods requested := by
  have hcount : (decide (node.podCapacity = 0) || decide (pods.length < node.podCapacity)) ↔
      (node.checks requested .pods → loadOf pods requested .pods ≤ node.capacity .pods) := by
    simp only [Bool.or_eq_true, decide_eq_true_eq, NodeItem.checks, NodeItem.capacity, loadOf]
    omega
  have hcpu := knownFits_iff node.cpu (h.addI64 .cpu (by simp) requested.cpuMilli)
  have hmem := knownFits_iff node.memory (h.addI64 .memory (by simp) requested.memoryMilli)
  have heph := knownFits_iff node.ephemeralStorage
    (h.addI64 .ephemeralStorage (by simp) requested.ephemeralStorageMilli)
  simp only [roomFor, resourceFits, Bool.and_eq_true]
  rw [hcount, extendedFits_iff h]
  constructor
  · rintro ⟨hpods, ⟨⟨hc, hm⟩, he⟩, hext⟩ res
    cases res with
    | pods => exact hpods
    | cpu => exact hcpu.mp hc
    | memory => exact hmem.mp hm
    | ephemeralStorage => exact heph.mp he
    | extended name => exact hext name
  · intro hroom
    exact ⟨hroom .pods, ⟨⟨hcpu.mpr (hroom .cpu), hmem.mpr (hroom .memory)⟩, heph.mpr (hroom .ephemeralStorage)⟩,
      fun name => hroom (.extended name)⟩

theorem room_iff_fits (hlow : ∀ res, res ≠ .pods → -2 ^ 63 ≤ totalOf pods res + requested.amount res)
    (hhigh : ∀ res, res ≠ .pods → totalOf pods res + requested.amount res < 2 ^ 63) :
    Room node pods requested ↔ Fits node pods requested := by
  have hload (res : Resource) : loadOf pods requested res = totalOf pods res + requested.amount res := by
    by_cases hres : res = .pods
    · rw [hres, totalOf_pods]
      rfl
    · have hexact := Int.bmod_eq_of_le (n := totalOf pods res + requested.amount res) (m := 2 ^ 64)
        (by have := hlow res hres; omega) (by have := hhigh res hres; omega)
      cases res with
      | pods => exact absurd rfl hres
      | _ => exact hexact
  exact forall_congr' (fun res => by rw [hload])

end Room

section Loop

theorem evictUntilFits_spec (node : NodeItem) (requested : ResourceRequests)
    (candidates : List (Key × TalliedPod)) (h : Tracks used (candidates ++ rest)) :
    ∃ done left used', candidates = done ++ left ∧
      evictUntilFits node requested candidates (candidates ++ rest).length used =
        (done.map Prod.fst, (left ++ rest).length, used') ∧
      Tracks used' (left ++ rest) ∧ (left ≠ [] → Room node (left ++ rest) requested) ∧
      ∀ a b, done = a ++ b → b ≠ [] → ¬Room node (b ++ (left ++ rest)) requested := by
  induction candidates generalizing used with
  | nil =>
    refine ⟨[], [], used, rfl, rfl, h, fun hne => absurd rfl hne, fun a b hab hb => ?_⟩
    exact absurd (append_eq_nil_iff.mp hab.symm).2 hb
  | cons p ps ih =>
    unfold evictUntilFits
    by_cases hroom : roomFor node (p :: ps ++ rest).length used requested
    · rw [if_pos hroom]
      refine ⟨[], p :: ps, used, rfl, rfl, h, fun _ => (roomFor_iff h).mp hroom, fun a b hab hb => ?_⟩
      exact absurd (append_eq_nil_iff.mp hab.symm).2 hb
    · rw [if_neg hroom]
      obtain ⟨done, left, used', hsplit, heval, htracks, hleft, hdone⟩ := ih h.subtract
      have hcount : (p :: ps ++ rest).length - 1 = (ps ++ rest).length := rfl
      refine ⟨p :: done, left, used', by rw [hsplit]; rfl, ?_, htracks, hleft, ?_⟩
      · rw [hcount, heval]
        rfl
      · intro a b hab hb
        cases a with
        | nil =>
          subst hab
          have hall : p :: done ++ (left ++ rest) = p :: ps ++ rest := by
            rw [hsplit, cons_append, cons_append, append_assoc]
          rw [hall]
          exact fun hr => hroom ((roomFor_iff h).mpr hr)
        | cons q a =>
          obtain ⟨-, hab⟩ := cons.inj hab
          exact hdone a b hab hb

def isCandidate (pod : PendingPod) (nodePods : List (Key × TalliedPod)) (node : NodeItem) (p : Key × TalliedPod) :
    Bool :=
  p.2.priority < pod.priority && ((node.podCapacity ≠ 0 && nodePods.length ≥ node.podCapacity : Bool) ||
    resourceDeficiencyRelevant node (summedRequests nodePods) pod.requests p.2.requests)

/-- The pods that may be evicted, in the order in which they are. -/
def evictionOrder (pod : PendingPod) (nodePods : List (Key × TalliedPod)) (node : NodeItem) : List (Key × TalliedPod) :=
  (nodePods.filter (isCandidate pod nodePods node)).insertionSort (fun a b => a.2.priority ≤ b.2.priority)

def neverEvicted (pod : PendingPod) (nodePods : List (Key × TalliedPod)) (node : NodeItem) : List (Key × TalliedPod) :=
  nodePods.filter (fun p => !isCandidate pod nodePods node p)

variable {node : NodeItem} {pod : PendingPod} {nodePods : List (Key × TalliedPod)}

/-- The pods of a node are those evicted, those still up for it, and those that never were; the result is empty if
the last two leave no room. -/
theorem selectPreemptionVictims_spec (pod : PendingPod) (nodePods : List (Key × TalliedPod)) (node : NodeItem) :
    ∃ done left rest, rest = neverEvicted pod nodePods node ∧ evictionOrder pod nodePods node = done ++ left ∧
      nodePods.Perm (done ++ (left ++ rest)) ∧ (∀ p ∈ done, isCandidate pod nodePods node p) ∧
      (∀ a b, done = a ++ b → b ≠ [] → ¬Room node (b ++ (left ++ rest)) pod.requests) ∧
      (selectPreemptionVictims pod nodePods node = done.map Prod.fst ∧ Room node (left ++ rest) pod.requests ∨
        selectPreemptionVictims pod nodePods node = [] ∧ left = [] ∧ ¬Room node rest pod.requests) := by
  let rest := neverEvicted pod nodePods node
  let candidates := evictionOrder pod nodePods node
  have hsorted : candidates.Perm (nodePods.filter (isCandidate pod nodePods node)) := perm_insertionSort _ _
  have hperm : (candidates ++ rest).Perm nodePods :=
    (hsorted.append_right rest).trans (filter_append_perm _ _)
  have htracks : Tracks (summedRequests nodePods) (candidates ++ rest) :=
    (tracks_summedRequests nodePods).perm hperm.symm
  obtain ⟨done, left, used, hsplit, heval, hused, hleft, hdone⟩ :=
    evictUntilFits_spec node pod.requests candidates htracks
  have hvictims : selectPreemptionVictims pod nodePods node =
      if roomFor node (left ++ rest).length used pod.requests then done.map Prod.fst else [] := by
    rw [hperm.length_eq] at heval
    exact congrArg (fun r => if roomFor node r.2.1 r.2.2 pod.requests then r.1 else []) heval
  refine ⟨done, left, rest, rfl, hsplit, ?_, fun p hp => ?_, hdone, ?_⟩
  · rw [← append_assoc, ← hsplit]
    exact hperm.symm
  · have hmem := hsorted.mem_iff.mp (hsplit ▸ mem_append_left left hp)
    exact (mem_filter.mp hmem).2
  · rw [hvictims]
    by_cases hroom : roomFor node (left ++ rest).length used pod.requests
    · rw [if_pos hroom]
      exact .inl ⟨rfl, (roomFor_iff hused).mp hroom⟩
    · rw [if_neg hroom]
      have hnot : ¬Room node (left ++ rest) pod.requests := fun h => hroom ((roomFor_iff hused).mpr h)
      have hnil : left = [] := by_contra (fun hne => hnot (hleft hne))
      rw [hnil] at hnot
      exact .inr ⟨rfl, hnil, hnot⟩

theorem perm_without (hkeys : (nodePods.map Prod.fst).Nodup) (hperm : nodePods.Perm (done ++ others)) :
    (nodePods.filter (fun p => p.1 ∉ done.map Prod.fst)).Perm others := by
  have hnodup : ((done ++ others).map Prod.fst).Nodup := (hperm.map _).nodup_iff.mp hkeys
  rw [map_append] at hnodup
  have hdisjoint := (nodup_append'.mp hnodup).2.2
  have hfilter := hperm.filter (fun p => decide (p.1 ∉ done.map Prod.fst))
  rw [filter_append] at hfilter
  have hdone : done.filter (fun p => decide (p.1 ∉ done.map Prod.fst)) = [] := by
    refine filter_eq_nil_iff.mpr (fun p hp => ?_)
    simpa using ⟨p.2, hp⟩
  have hothers : others.filter (fun p => decide (p.1 ∉ done.map Prod.fst)) = others := by
    refine filter_eq_self.mpr (fun p hp => decide_eq_true (fun hmem => ?_))
    exact hdisjoint hmem (mem_map_of_mem hp)
  rwa [hdone, hothers, nil_append] at hfilter

end Loop

section Choice

variable {node : NodeItem} {pod : PendingPod} {nodePods : List (Key × TalliedPod)}

structure Exact (pod : PendingPod) (nodePods : List (Key × TalliedPod)) : Prop where
  nonneg : ∀ p ∈ nodePods, ∀ res, 0 ≤ p.2.requests.amount res
  low : ∀ res, res ≠ .pods → -2 ^ 63 ≤ pod.requests.amount res
  high : ∀ res, res ≠ .pods → totalOf nodePods res + pod.requests.amount res < 2 ^ 63

theorem totalOf_nonneg (h : ∀ p ∈ pods, 0 ≤ p.2.requests.amount res) : 0 ≤ totalOf pods res :=
  sum_nonneg (fun x hx => by
    obtain ⟨p, hp, rfl⟩ := mem_map.mp hx
    exact h p hp)

theorem totalOf_filter_le {pods : List (Key × TalliedPod)} (h : ∀ p ∈ pods, 0 ≤ p.2.requests.amount res)
    (hfg : ∀ p ∈ pods, f p → g p = false → p.2.requests.amount res ≤ 0) :
    totalOf (pods.filter f) res ≤ totalOf (pods.filter g) res := by
  induction pods with
  | nil => exact le_rfl
  | cons p pods ih =>
    have hrest := ih (fun q hq => h q (mem_cons_of_mem p hq)) (fun q hq => hfg q (mem_cons_of_mem p hq))
    have hp := h p mem_cons_self
    have hpfg := hfg p mem_cons_self
    have hcons (l : List (Key × TalliedPod)) : totalOf (p :: l) res = p.2.requests.amount res + totalOf l res := by
      simp [totalOf]
    cases hf : f p <;> cases hg : g p <;> simp only [filter_cons, hf, hg, if_true, Bool.false_eq_true, if_false, hcons]
    · exact hrest
    · omega
    · have := hpfg hf hg
      omega
    · omega

theorem Exact.room_iff (h : Exact pod nodePods)
    (hperm : pods.Perm (nodePods.filter f)) : Room node pods pod.requests ↔ Fits node pods pod.requests := by
  have hbounds (res : Resource) : 0 ≤ totalOf pods res ∧ totalOf pods res ≤ totalOf nodePods res := by
    rw [totalOf_perm hperm]
    constructor
    · exact totalOf_nonneg (fun p hp => h.nonneg p (mem_of_mem_filter hp) res)
    · have hle := totalOf_filter_le (f := f) (g := fun _ => true) (fun p hp => h.nonneg p hp res)
        (fun _ _ _ hfalse => by cases hfalse)
      rwa [filter_true] at hle
  apply room_iff_fits
  · intro res hres
    have := hbounds res
    have := h.low res hres
    omega
  · intro res hres
    have := hbounds res
    have := h.high res hres
    omega

theorem Exact.not_needed (h : Exact pod nodePods) (hchecks : node.checks pod.requests res)
    (hshort : node.capacity res < totalOf nodePods res + pod.requests.amount res)
    (hlower : p.2.priority < pod.priority) (hnot : isCandidate pod nodePods node p = false) :
    p.2.requests.amount res ≤ 0 := by
  have hsum (res : Resource) (hres : res ≠ .pods) (hnonneg : 0 ≤ totalOf nodePods res) :
      addI64 ((summedRequests nodePods).amount res) (pod.requests.amount res) =
        totalOf nodePods res + pod.requests.amount res := by
    rw [(tracks_summedRequests nodePods).addI64 res hres]
    have hlow := h.low res hres
    have hhigh := h.high res hres
    exact Int.bmod_eq_of_le (by omega) (by omega)
  have hnonneg (res : Resource) : 0 ≤ totalOf nodePods res := totalOf_nonneg (fun p hp => h.nonneg p hp res)
  simp only [isCandidate, hlower, decide_true, Bool.true_and, Bool.or_eq_false_iff, resourceDeficiencyRelevant] at hnot
  obtain ⟨hcount, ⟨⟨hcpu, hmem⟩, heph⟩, hext⟩ := hnot
  cases res with
  | pods =>
    rw [totalOf_pods] at hshort
    simp only [NodeItem.checks, NodeItem.capacity, ResourceRequests.amount] at hchecks hshort
    simp only [Bool.and_eq_false_iff, decide_eq_false_iff_not] at hcount
    omega
  | cpu =>
    have hexact := hsum .cpu (by simp) (hnonneg .cpu)
    simp only [ResourceRequests.amount, NodeItem.checks, NodeItem.capacity] at hexact hchecks hshort ⊢
    simpa [resourceShort, hexact, hchecks, hshort] using hcpu
  | memory =>
    have hexact := hsum .memory (by simp) (hnonneg .memory)
    simp only [ResourceRequests.amount, NodeItem.checks, NodeItem.capacity] at hexact hchecks hshort ⊢
    simpa [resourceShort, hexact, hchecks, hshort] using hmem
  | ephemeralStorage =>
    have hexact := hsum .ephemeralStorage (by simp) (hnonneg .ephemeralStorage)
    simp only [ResourceRequests.amount, NodeItem.checks, NodeItem.capacity] at hexact hchecks hshort ⊢
    simpa [resourceShort, hexact, hchecks, hshort] using heph
  | extended name =>
    have hexact := hsum (.extended name) (by simp) (hnonneg _)
    cases hwant : pod.requests.extended.lookup name with
    | none => exact absurd (by simp [ResourceRequests.amount, hwant]) hchecks
    | some want =>
      have hentry := any_eq_false.mp hext ⟨name, want⟩ (AList.mem_lookup_iff.mp hwant)
      simp only [ResourceRequests.amount, NodeItem.checks, NodeItem.capacity, hwant,
        Option.getD_some] at hexact hchecks hshort ⊢
      simpa [hexact, hchecks, hshort] using hentry

theorem Exact.fits_rest (h : Exact pod nodePods)
    (hfits : Fits node (nodePods.filter (fun p => pod.priority ≤ p.2.priority)) pod.requests) :
    Fits node (nodePods.filter (fun p => !isCandidate pod nodePods node p)) pod.requests := by
  intro res hchecks
  have hnonneg (p : Key × TalliedPod) (hp : p ∈ nodePods) := h.nonneg p hp res
  by_cases hshort : totalOf nodePods res + pod.requests.amount res ≤ node.capacity res
  · have hle := totalOf_filter_le (f := fun p => !isCandidate pod nodePods node p) (g := fun _ => true) hnonneg
      (fun _ _ _ hfalse => by cases hfalse)
    rw [filter_true] at hle
    omega
  · have hle := totalOf_filter_le (f := fun p => !isCandidate pod nodePods node p)
      (g := fun p => decide (pod.priority ≤ p.2.priority)) hnonneg (fun p _ hcand hprio =>
        h.not_needed hchecks (not_le.mp hshort) (not_le.mp (of_decide_eq_false hprio)) (by simpa using hcand))
    have := hfits res hchecks
    omega

theorem preemption_victims_sound_complete (pod : PendingPod) (nodePods : List (Key × TalliedPod)) (node : NodeItem)
    (hkeys : (nodePods.map Prod.fst).Nodup) (hexact : Exact pod nodePods) :
    let victims := selectPreemptionVictims pod nodePods node
    (Fits node nodePods pod.requests → victims = []) ∧
    (victims ≠ [] → (∀ v ∈ victims, ∃ p, (v, p) ∈ nodePods ∧ p.priority < pod.priority) ∧
      Fits node (nodePods.filter (fun p => p.1 ∉ victims)) pod.requests) ∧
    (¬Fits node nodePods pod.requests →
      Fits node (nodePods.filter (fun p => pod.priority ≤ p.2.priority)) pod.requests → victims ≠ []) := by
  intro victims
  obtain ⟨done, left, rest, hrest, -, hperm, hcandidates, hneeded, hresult⟩ :=
    selectPreemptionVictims_spec pod nodePods node
  have hall : Room node nodePods pod.requests ↔ Fits node nodePods pod.requests :=
    hexact.room_iff (f := fun _ => true) (by rw [filter_true])
  refine ⟨fun hfits => ?_, fun hne => ?_, fun hnot hfits hnil => ?_⟩
  · -- With room from the start, nothing is evicted.
    have hdone : done = [] := by
      by_contra hne
      exact hneeded [] done rfl hne ((room_perm hperm).mp (hall.mpr hfits))
    obtain ⟨hv, -⟩ | ⟨hv, -⟩ := hresult
    · exact hv.trans (by rw [hdone]; rfl)
    · exact hv
  · obtain ⟨hv, hroom⟩ | ⟨hv, -⟩ := hresult
    · have hwithout := perm_without hkeys hperm
      rw [← hv] at hwithout
      refine ⟨fun v hmem => ?_, ?_⟩
      · change v ∈ selectPreemptionVictims pod nodePods node at hmem
        rw [hv] at hmem
        obtain ⟨p, hp, rfl⟩ := mem_map.mp hmem
        have hcand := hcandidates p hp
        simp only [isCandidate, Bool.and_eq_true, decide_eq_true_eq] at hcand
        exact ⟨p.2, hperm.mem_iff.mpr (mem_append_left _ hp), hcand.1⟩
      · exact (hexact.room_iff (Perm.refl _)).mp ((room_perm hwithout).mpr hroom)
    · exact absurd hv hne
  · obtain ⟨hv, hroom⟩ | ⟨-, -, hroom⟩ := hresult
    · -- Nothing evicted and room all the same: there was room from the start.
      have hdone : done = [] := map_eq_nil_iff.mp (hv.symm.trans hnil)
      rw [hdone] at hperm
      exact hnot (hall.mp ((room_perm hperm).mpr hroom))
    · rw [hrest] at hroom
      exact hroom ((hexact.room_iff (Perm.refl _)).mpr (hexact.fits_rest hfits))

end Choice

section Superfluous

variable {node : NodeItem} {pod : PendingPod} {nodePods : List (Key × TalliedPod)}

def withBack (nodePods : List (Key × TalliedPod)) (victims : List Key) (v : Key) : List (Key × TalliedPod) :=
  nodePods.filter (fun p => p.1 = v ∨ p.1 ∉ victims)

theorem withBack_perm (hkeys : (nodePods.map Prod.fst).Nodup) (hperm : nodePods.Perm (done ++ others)) (hx : x ∈ done) :
    (withBack nodePods (done.map Prod.fst) x.1).Perm (x :: others) := by
  obtain ⟨before, after, rfl⟩ := append_of_mem hx
  have hmoved : nodePods.Perm ((before ++ after) ++ (x :: others)) := by
    refine hperm.trans ?_
    rw [append_assoc, append_assoc, cons_append]
    exact (perm_middle.symm).append_left before
  have hnodup : (((before ++ after) ++ (x :: others)).map Prod.fst).Nodup := (hmoved.map _).nodup_iff.mp hkeys
  rw [map_append] at hnodup
  have hx' : x.1 ∉ (before ++ after).map Prod.fst := fun hmem =>
    (nodup_append'.mp hnodup).2.2 hmem (mem_map_of_mem mem_cons_self)
  have hsame : withBack nodePods ((before ++ x :: after).map Prod.fst) x.1 =
      nodePods.filter (fun p => p.1 ∉ (before ++ after).map Prod.fst) := by
    refine filter_congr (fun p _ => decide_eq_decide.mpr ?_)
    have hmem : p.1 ∈ (before ++ x :: after).map Prod.fst ↔ p.1 = x.1 ∨ p.1 ∈ (before ++ after).map Prod.fst := by
      simp only [map_append, map_cons, mem_append, mem_cons]
      tauto
    rw [hmem]
    constructor
    · rintro (hp | hp)
      · rwa [hp]
      · exact fun hp' => hp (.inr hp')
    · intro hp
      by_cases heq : p.1 = x.1
      · exact .inl heq
      · exact .inr (fun hmem => hmem.elim heq hp)
  rw [hsame]
  exact perm_without hkeys hmoved

theorem not_room_iff (pods : List (Key × TalliedPod)) : ¬Room node pods pod.requests ↔
    ∃ res, node.checks pod.requests res ∧ node.capacity res < loadOf pods pod.requests res := by
  unfold Room
  push Not
  rfl

/-- There is one point at which room is made for the first time, and the victims are the candidates up to it. -/
theorem first_room_unique (hsplit : done ++ left = done' ++ left') (hroom : Room node (left ++ rest) requested)
    (hdone : ∀ a b, done = a ++ b → b ≠ [] → ¬Room node (b ++ (left ++ rest)) requested)
    (hroom' : Room node (left' ++ rest) requested)
    (hdone' : ∀ a b, done' = a ++ b → b ≠ [] → ¬Room node (b ++ (left' ++ rest)) requested) : done = done' := by
  obtain ⟨more, rfl, rfl⟩ | ⟨more, rfl, rfl⟩ := append_eq_append_iff.mp hsplit
  · by_cases hmore : more = []
    · rw [hmore, append_nil]
    · rw [append_assoc] at hroom
      exact absurd hroom (hdone' done more rfl hmore)
  · by_cases hmore : more = []
    · rw [hmore, append_nil]
    · rw [append_assoc] at hroom'
      exact absurd hroom' (hdone done' more rfl hmore)

/-- No victim is superfluous exactly if, where the eviction of the candidates up to `last` first makes room, none of
those before it goes with what is left. -/
theorem no_superfluous_victim_iff (pod : PendingPod) (nodePods : List (Key × TalliedPod)) (node : NodeItem)
    (hkeys : (nodePods.map Prod.fst).Nodup) (hne : selectPreemptionVictims pod nodePods node ≠ []) :
    let victims := selectPreemptionVictims pod nodePods node
    (∀ v ∈ victims, roomFor node (withBack nodePods victims v).length
      (summedRequests (withBack nodePods victims v)) pod.requests = false) ↔
    ∀ earlier last left, evictionOrder pod nodePods node = earlier ++ [last] ++ left →
      Room node (left ++ neverEvicted pod nodePods node) pod.requests →
      (∀ a b, earlier ++ [last] = a ++ b → b ≠ [] →
        ¬Room node (b ++ (left ++ neverEvicted pod nodePods node)) pod.requests) →
      ∀ p ∈ earlier, ∃ res, node.checks pod.requests res ∧
        node.capacity res < loadOf (p :: (left ++ neverEvicted pod nodePods node)) pod.requests res := by
  intro victims
  obtain ⟨done, left, _, rfl, horder, hperm, -, hneeded, ⟨hv, hroom⟩ | ⟨hv, -⟩⟩ :=
    selectPreemptionVictims_spec pod nodePods node
  swap
  · exact absurd hv hne
  have hback : ∀ p ∈ done, roomFor node (withBack nodePods victims p.1).length
      (summedRequests (withBack nodePods victims p.1)) pod.requests = false ↔
        ¬Room node (p :: (left ++ neverEvicted pod nodePods node)) pod.requests := by
    intro p hp
    have hpods := withBack_perm hkeys hperm hp
    rw [← hv] at hpods
    rw [← Bool.not_eq_true, roomFor_iff (tracks_summedRequests _)]
    exact not_congr (room_perm hpods)
  have hdone : done ≠ [] := by
    rintro rfl
    exact hne hv
  obtain ⟨earlier, x, rfl⟩ := (eq_nil_or_concat' done).resolve_left hdone
  constructor
  · intro hall earlier' last left' horder' hroom' hneeded' p hp
    obtain hsame := first_room_unique (horder.symm.trans horder') hroom hneeded hroom' hneeded'
    have hleft : left = left' := by
      rw [horder, hsame] at horder'
      exact append_cancel_left horder'
    have hmem : p ∈ earlier ++ [x] := hsame ▸ mem_append_left _ hp
    rw [← not_room_iff, ← hleft]
    refine (hback p hmem).mp (hall p.1 ?_)
    rw [show victims = _ from hv]
    exact mem_map_of_mem hmem
  · intro hall v hmem
    rw [show victims = _ from hv] at hmem
    obtain ⟨p, hp, rfl⟩ := mem_map.mp hmem
    refine (hback p hp).mpr ?_
    obtain hp | hp := mem_append.mp hp
    · rw [not_room_iff]
      exact hall earlier x left horder hroom hneeded p hp
    · rw [mem_singleton.mp hp]
      exact hneeded earlier [x] rfl (cons_ne_nil x [])

end Superfluous

def exampleNode (cpu memory : ℤ) : NodeItem := ⟨"node", 0, cpu, memory, 0, ∅⟩

def examplePod (priority cpu memory : ℤ) : PendingPod :=
  ⟨⟨"default", "pending"⟩, priority, [], { cpuMilli := cpu, memoryMilli := memory }, [], [], []⟩

def runningPod (name : String) (priority cpu memory : ℤ) : Key × TalliedPod :=
  (⟨"default", name⟩, ⟨"node", [], priority, { cpuMilli := cpu, memoryMilli := memory }, [], []⟩)

theorem wrapped_sum_hides_victims :
    let nodePods := [runningPod "a" 0 5 (2 ^ 63 - 1), runningPod "b" 0 0 (2 ^ 62)]
    let node := exampleNode 5 10
    let pod := examplePod 10 1 1
    (nodePods.map Prod.fst).Nodup ∧ (∀ p ∈ nodePods, ∀ res, 0 ≤ p.2.requests.amount res) ∧
    ¬Fits node nodePods pod.requests ∧
    Fits node (nodePods.filter (fun p => pod.priority ≤ p.2.priority)) pod.requests ∧
    selectPreemptionVictims pod nodePods node = [] := by
  refine ⟨by decide, ?_, ?_, ?_, by decide +kernel⟩
  · intro p hp res
    obtain rfl | rfl : p = runningPod "a" 0 5 (2 ^ 63 - 1) ∨ p = runningPod "b" 0 0 (2 ^ 62) := by simpa using hp
    · cases res <;> simp [runningPod, ResourceRequests.amount]
    · cases res <;> simp [runningPod, ResourceRequests.amount]
  · intro hfits
    have hcpu := hfits .cpu (by simp [NodeItem.checks, NodeItem.capacity, exampleNode])
    revert hcpu
    decide
  · intro res
    cases res <;> simp [NodeItem.checks, NodeItem.capacity, exampleNode, examplePod, ResourceRequests.amount, totalOf,
      runningPod]

theorem preemption_victims_example :
    selectPreemptionVictims (examplePod 10 5 0) [runningPod "a" 0 3 0, runningPod "b" 20 6 0] (exampleNode 12 0) ≠
      [] := by
  refine (preemption_victims_sound_complete _ _ _ (by decide) ⟨?_, ?_, ?_⟩).2.2 ?_ ?_
  · intro p hp res
    obtain rfl | rfl : p = runningPod "a" 0 3 0 ∨ p = runningPod "b" 20 6 0 := by simpa using hp
    · cases res <;> simp [runningPod, ResourceRequests.amount]
    · cases res <;> simp [runningPod, ResourceRequests.amount]
  · intro res _
    cases res <;> simp [examplePod, ResourceRequests.amount]
  · intro res _
    cases res <;> simp [examplePod, runningPod, totalOf, ResourceRequests.amount]
  · intro hfits
    have hcpu := hfits .cpu (by simp [NodeItem.checks, NodeItem.capacity, exampleNode])
    revert hcpu
    decide
  · intro res
    cases res <;> simp [NodeItem.checks, NodeItem.capacity, exampleNode, examplePod, ResourceRequests.amount, totalOf,
      runningPod]

theorem superfluous_victim :
    let nodePods := [runningPod "a" 0 1 0, runningPod "b" 1 10 0]
    let victims := selectPreemptionVictims (examplePod 5 5 0) nodePods (exampleNode 10 0)
    (nodePods.map Prod.fst).Nodup ∧ (∀ p ∈ nodePods, ∀ res, 0 ≤ p.2.requests.amount res) ∧
    victims = [⟨"default", "a"⟩, ⟨"default", "b"⟩] ∧
    roomFor (exampleNode 10 0) (withBack nodePods victims ⟨"default", "a"⟩).length
      (summedRequests (withBack nodePods victims ⟨"default", "a"⟩)) (examplePod 5 5 0).requests = true := by
  refine ⟨by decide, ?_, by decide +kernel, by decide +kernel⟩
  intro p hp res
  obtain rfl | rfl : p = runningPod "a" 0 1 0 ∨ p = runningPod "b" 1 10 0 := by simpa using hp
  · cases res <;> simp [runningPod, ResourceRequests.amount]
  · cases res <;> simp [runningPod, ResourceRequests.amount]

theorem no_superfluous_victim_two :
    let nodePods := [runningPod "a" 0 10 0, runningPod "b" 1 10 0]
    let victims := selectPreemptionVictims (examplePod 5 15 0) nodePods (exampleNode 20 0)
    victims = [⟨"default", "a"⟩, ⟨"default", "b"⟩] ∧
    ∀ v ∈ victims, roomFor (exampleNode 20 0) (withBack nodePods victims v).length
      (summedRequests (withBack nodePods victims v)) (examplePod 5 15 0).requests = false := by
  intro nodePods victims
  have hvictims : victims = [⟨"default", "a"⟩, ⟨"default", "b"⟩] := by decide +kernel
  have horder : evictionOrder (examplePod 5 15 0) nodePods (exampleNode 20 0) = nodePods := rfl
  have hrest : neverEvicted (examplePod 5 15 0) nodePods (exampleNode 20 0) = [] := rfl
  refine ⟨hvictims, (no_superfluous_victim_iff (examplePod 5 15 0) nodePods (exampleNode 20 0) (by decide)
    (by rw [show selectPreemptionVictims _ _ _ = _ from hvictims]; exact cons_ne_nil _ _)).mpr ?_⟩
  intro earlier last left hsplit hroom _ p hp
  rw [horder] at hsplit
  rw [hrest]
  obtain ⟨rfl, rfl⟩ : p = runningPod "a" 0 10 0 ∧ left = [] := by
    rcases earlier with _ | ⟨q, _ | ⟨r, earlier⟩⟩ <;> simp_all [nodePods]
  exact ⟨.cpu, by simp [NodeItem.checks, NodeItem.capacity, exampleNode], by decide +kernel⟩

end U7s.Scheduler
