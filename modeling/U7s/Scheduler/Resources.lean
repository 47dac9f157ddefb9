import U7s.Scheduler.Decisions

namespace U7s.Scheduler

open MachineInt

inductive Resource where
  | pods
  | cpu
  | memory
  | ephemeralStorage
  | extended (name : String)

def ResourceRequests.amount (r : ResourceRequests) : Resource → ℤ
  | .pods => 1
  | .cpu => r.cpuMilli
  | .memory => r.memoryMilli
  | .ephemeralStorage => r.ephemeralStorageMilli
  | .extended name => (r.extended.lookup name).getD 0

def NodeItem.capacity (node : NodeItem) : Resource → ℤ
  | .pods => node.podCapacity
  | .cpu => node.cpu
  | .memory => node.memory
  | .ephemeralStorage => node.ephemeralStorage
  | .extended name => (node.extended.lookup name).getD 0

def NodeItem.limits (node : NodeItem) : Resource → Prop
  | .extended _ => True
  | res => node.capacity res ≠ 0

def totalOf (pods : List (Key × TalliedPod)) (res : Resource) : ℤ :=
  (pods.map (fun p => p.2.requests.amount res)).sum

theorem totalOf_pods (pods : List (Key × TalliedPod)) : totalOf pods .pods = pods.length := by
  simp [totalOf, ResourceRequests.amount]

theorem lookup_addAmount (m : AList (fun _ : String => ℤ)) (e : (_ : String) × ℤ) (name : String) :
    ((addAmount m e).lookup name).getD 0 % 2 ^ 64 =
      ((m.lookup name).getD 0 + if e.1 = name then e.2 else 0) % 2 ^ 64 := by
  unfold addAmount
  by_cases hn : name = e.1
  · subst hn
    rw [AList.lookup_insert, if_pos rfl]
    exact addI64_emod _ _
  · simp [AList.lookup_insert_ne hn, Ne.symm hn]

theorem lookup_foldl_addAmount (es : List ((_ : String) × ℤ)) (hes : es.NodupKeys)
    (m : AList (fun _ : String => ℤ)) (name : String) :
    ((es.foldl addAmount m).lookup name).getD 0 % 2 ^ 64 =
      ((m.lookup name).getD 0 + (es.dlookup name).getD 0) % 2 ^ 64 := by
  induction es generalizing m with
  | nil => simp
  | cons e es ih =>
    obtain ⟨hnot, hes⟩ := List.nodupKeys_cons.mp hes
    have hrest := ih hes (addAmount m e)
    have hfirst := lookup_addAmount m e name
    rw [List.foldl_cons]
    obtain ⟨k, v⟩ := e
    by_cases hk : k = name
    · subst hk
      rw [List.dlookup_eq_none.mpr hnot] at hrest
      rw [List.dlookup_cons_eq]
      simp only [if_true, Option.getD_none, Option.getD_some] at hfirst hrest ⊢
      omega
    · rw [List.dlookup_cons_ne _ _ (Ne.symm hk)]
      simp only [if_neg hk] at hfirst
      omega

theorem amount_add (a b : ResourceRequests) (hres : res ≠ .pods) :
    (a.add b).amount res % 2 ^ 64 = (a.amount res + b.amount res) % 2 ^ 64 := by
  cases res with
  | pods => exact absurd rfl hres
  | cpu | memory | ephemeralStorage => exact addI64_emod _ _
  | extended name => exact lookup_foldl_addAmount b.extended.entries b.extended.nodupKeys a.extended name

theorem amount_foldl_add (pods : List (Key × TalliedPod)) (acc : ResourceRequests) (hres : res ≠ .pods) :
    (pods.foldl (fun acc p => acc.add p.2.requests) acc).amount res % 2 ^ 64 =
      (acc.amount res + totalOf pods res) % 2 ^ 64 := by
  induction pods generalizing acc with
  | nil => simp [totalOf]
  | cons p pods ih =>
    have hadd := amount_add acc p.2.requests hres
    have hcons : totalOf (p :: pods) res = p.2.requests.amount res + totalOf pods res := by simp [totalOf]
    rw [List.foldl_cons, ih]
    omega

theorem amount_summedRequests (pods : List (Key × TalliedPod)) (res : Resource) (hres : res ≠ .pods) :
    (summedRequests pods).amount res % 2 ^ 64 = totalOf pods res % 2 ^ 64 := by
  have hzero : ({} : ResourceRequests).amount res = 0 := by
    cases res with
    | pods => exact absurd rfl hres
    | _ => rfl
  rw [summedRequests, amount_foldl_add pods {} hres, hzero, zero_add]

theorem knownFits_le (h : knownFits cap used want) (hcap : cap ≠ 0) (hmod : used % 2 ^ 64 = total % 2 ^ 64)
    (hlow : -2 ^ 63 ≤ total + want) (hhigh : total + want < 2 ^ 63) : total + want ≤ cap := by
  simp only [knownFits, Bool.or_eq_true, decide_eq_true_eq, hcap, false_or] at h
  rwa [addI64_eq hmod hlow hhigh] at h

theorem roomFor_bound (h : roomFor node pods.length (summedRequests pods) requested) (hlim : node.limits res)
    (hlow : -2 ^ 63 ≤ totalOf pods res + requested.amount res)
    (hhigh : totalOf pods res + requested.amount res < 2 ^ 63) :
    requested.amount res = 0 ∨ totalOf pods res + requested.amount res ≤ node.capacity res := by
  simp only [roomFor, resourceFits, Bool.and_eq_true] at h
  obtain ⟨hcount, ⟨⟨hcpu, hmem⟩, heph⟩, hext⟩ := h
  cases res with
  | pods =>
    have hcap : node.podCapacity ≠ 0 := by simpa [NodeItem.limits, NodeItem.capacity] using hlim
    simp only [hcap, decide_false, Bool.false_or, decide_eq_true_eq] at hcount
    refine Or.inr ?_
    rw [totalOf_pods]
    simp only [ResourceRequests.amount, NodeItem.capacity]
    omega
  | cpu => exact Or.inr (knownFits_le hcpu hlim (amount_summedRequests pods .cpu (by simp)) hlow hhigh)
  | memory => exact Or.inr (knownFits_le hmem hlim (amount_summedRequests pods .memory (by simp)) hlow hhigh)
  | ephemeralStorage =>
    exact Or.inr (knownFits_le heph hlim (amount_summedRequests pods .ephemeralStorage (by simp)) hlow hhigh)
  | extended name =>
    cases hwant : requested.extended.lookup name with
    | none => exact Or.inl (by simp [ResourceRequests.amount, hwant])
    | some want =>
      have hentry := List.all_eq_true.mp hext ⟨name, want⟩ (AList.mem_lookup_iff.mp hwant)
      simp only [Bool.or_eq_true, decide_eq_true_eq] at hentry
      have hamount : requested.amount (.extended name) = want := by simp [ResourceRequests.amount, hwant]
      rw [hamount] at hlow hhigh ⊢
      refine hentry.imp id (fun hle => ?_)
      have hexact := addI64_eq (amount_summedRequests pods (.extended name) (by simp)) hlow hhigh
      exact hexact ▸ hle

end U7s.Scheduler
