import U7s.Services.Promises

namespace U7s.Services

open Addresses Handlers Programs Runs Store List Function AList

abbrev ServiceWorld := World ServiceStore ServiceOp ServiceOp.Reply (Except Failure Json)

inductive ServiceAction where
  | turn (i : ℕ) (f : Fate)
  | drop (i : ℕ) (seen : Bool)

def isWrite (e : Σ o : ServiceOp, o.Reply) : Bool :=
  match e with
  | ⟨.create _ _ _, .ok _⟩ => true
  | ⟨.put _ _ _, .ok _⟩ => true
  | _ => false

def isRelease (e : Σ o : ServiceOp, o.Reply) : Bool :=
  match e with
  | ⟨.release _, _⟩ => true
  | _ => false

def detached (h : ServiceTrace) : Bool :=
  h.any (fun e =>
    match e with
    | ⟨.create _ _ true, .ok _⟩ => true
    | _ => false)

def undo (seen : Bool) (h : ServiceTrace) : List Reservation :=
  if h.getLast?.any isRelease then [] else (ledger (if seen then h else h.dropLast)).created

def stepService (w : ServiceWorld) : ServiceAction → ServiceWorld
  | .turn i f => World.step ServiceStore.exec w (i, f)
  | .drop i seen =>
    if detached (w.past i) then w
    else { w with threads := Function.update w.threads i ⟨w.past i,
      (releaseAll (undo seen (w.past i)) []).bind (fun _ => .ret (.error .cancelled))⟩ }

def ServiceStore.Holds (s : ServiceStore) (id : ServiceName) (r : Reservation) : Prop :=
  ∃ row, s.services.lookup id = some row ∧ r ∈ storedHoldings row

def Canonical (net : Network) (spec : Json) : Prop :=
  ∀ t ∈ specIps spec, ∀ a, net.parse t = some a → net.display a = t

def StillHeld (w : ServiceWorld) (i : ℕ) (id : ServiceName) : Prop :=
  ∀ r ∈ (ledger (w.past i)).old, w.shared.Holds id r

def ClaimHolds (w : ServiceWorld) (i : ℕ) (id : ServiceName) (body : Json) : Prop :=
  ∀ r ∈ (ledger (w.past i)).claimed, r ∈ holdings (body.idx "spec") →
    r ∉ (ledger (w.past i)).created → r ∉ (ledger (w.past i)).old →
    w.shared.reserved.lookup r = some (some id) ∧ ∀ j, r ∉ (ledger (w.past j)).owned

def CallPermitted (net : Network) (w : ServiceWorld) (i : ℕ) (o : ServiceOp) (reply : o.Reply) : Prop :=
  match o, reply with
  | .create id body _, .ok _ => StillHeld w i id ∧ ClaimHolds w i id body ∧ Canonical net (body.idx "spec")
  | .put id body _, .ok _ => StillHeld w i id ∧ ClaimHolds w i id body ∧ Canonical net (body.idx "spec")
  | .delete id _, .ok _ => StillHeld w i id
  | .delete _ true, .error (.notFound _) => (ledger (w.past i)).old = []
  | _, _ => True

def Permitted (net : Network) (w : ServiceWorld) : ServiceAction → Prop
  | .turn i f =>
    match (w.threads i).rest with
    | .call o _ => CallPermitted net w i o (w.shared.exec o f).2
    | .ret _ => True
  | .drop i seen => seen = true ∨ (w.past i).getLast?.any isWrite = false

structure Sound (net : Network) (s : ServiceStore) : Prop where
  unique : ∀ r id id', s.Holds id r → s.Holds id' r → id = id'
  reserved : ∀ r id, s.Holds id r → (s.reserved.lookup r).isSome = true
  setAside : ∀ r owner id, s.reserved.lookup r = some (some owner) → s.Holds id r → id = owner
  canonical : ∀ id row, s.services.lookup id = some row → Canonical net (row.body.idx "spec")

structure Partition (net : Network) (s : ServiceStore) (L : ℕ → Ledger) : Prop where
  sound : Sound net s
  owned : ∀ i, ∀ r ∈ (L i).owned, (s.reserved.lookup r).isSome = true ∧ ∀ id, ¬s.Holds id r
  disjoint : ∀ i j r, r ∈ (L i).owned → r ∈ (L j).owned → i = j
  nodup : ∀ i, (L i).owned.Nodup
  plain : ∀ i, ∀ r ∈ (L i).created, s.reserved.lookup r = some none

theorem created_afterRelease_subset {l : Ledger} : (l.afterRelease r).created ⊆ l.created := by
  unfold Ledger.afterRelease
  split_ifs
  · exact erase_subset
  · exact fun _ => id

section

variable (h : Partition net s L)
include h

theorem Partition.update (hsound : Sound net s')
    (howned : ∀ x ∈ l.owned, ((s'.reserved.lookup x).isSome ∧ ∀ id, ¬s'.Holds id x) ∧ ∀ j ≠ i, x ∉ (L j).owned)
    (hothers : ∀ j ≠ i, ∀ x ∈ (L j).owned, (s'.reserved.lookup x).isSome ∧ ∀ id, ¬s'.Holds id x)
    (hnodup : l.owned.Nodup) (hplain : ∀ x ∈ l.created, s'.reserved.lookup x = some none)
    (hrest : ∀ j ≠ i, ∀ x ∈ (L j).created, s'.reserved.lookup x = some none) :
    Partition net s' (update L i l) := by
  refine ⟨hsound, ?_, fun j k x hj hk => ?_, ?_, ?_⟩
  · exact (forall_update_iff L (fun _ m => ∀ x ∈ m.owned, (s'.reserved.lookup x).isSome ∧
      ∀ id, ¬s'.Holds id x)).mpr ⟨fun x hx => (howned x hx).1, hothers⟩
  · by_cases hji : j = i <;> by_cases hki : k = i
    · exact hji.trans hki.symm
    · rw [hji, update_self] at hj
      rw [update_of_ne hki] at hk
      exact absurd hk ((howned x hj).2 k hki)
    · rw [update_of_ne hji] at hj
      rw [hki, update_self] at hk
      exact absurd hj ((howned x hk).2 j hji)
    · rw [update_of_ne hji] at hj
      rw [update_of_ne hki] at hk
      exact h.disjoint j k x hj hk
  · exact (forall_update_iff L (fun _ m => m.owned.Nodup)).mpr ⟨hnodup, fun j _ => h.nodup j⟩
  · exact (forall_update_iff L (fun _ m => ∀ x ∈ m.created, s'.reserved.lookup x = some none)).mpr
      ⟨hplain, hrest⟩

theorem Partition.alone (hr : r ∈ (L i).owned) : ∀ j ≠ i, r ∉ (L j).owned :=
  fun j hj hr' => hj (h.disjoint j i r hr' hr)

theorem Partition.shrink (howned : l.owned.Subperm (L i).owned)
    (hcreated : l.created ⊆ (L i).created) : Partition net s (Function.update L i l) := by
  refine h.update h.sound (fun x hx => ?_) (fun j _ => h.owned j) ?_ (fun x hx => h.plain i x (hcreated hx))
    (fun j _ => h.plain j)
  · exact ⟨h.owned i x (howned.subset hx), h.alone (howned.subset hx)⟩
  · obtain ⟨m, hperm, hsub⟩ := howned
    exact hperm.nodup_iff.mp ((h.nodup i).sublist hsub)

theorem Partition.reserve (hr : s.reserved.lookup r = none) :
    Partition net { s with revision := rev, reserved := s.reserved.insert r none }
      (Function.update L i { L i with created := (L i).created ++ [r] }) := by
  have hlook : ∀ x, (s.reserved.lookup x).isSome →
      (s.reserved.insert r none).lookup x = s.reserved.lookup x := by
    intro x hx
    apply lookup_insert_ne
    rintro rfl
    rw [hr] at hx
    cases hx
  have hfree : (∀ id, ¬s.Holds id r) ∧ ∀ j, r ∉ (L j).owned := by
    refine ⟨fun id hid => ?_, fun j hj => ?_⟩
    · have := h.sound.reserved r id hid
      rw [hr] at this
      cases this
    · have := (h.owned j r hj).1
      rw [hr] at this
      cases this
  have hkept : ∀ j, ∀ x ∈ (L j).owned, ((s.reserved.insert r none).lookup x).isSome ∧ ∀ id, ¬s.Holds id x := by
    intro j x hx
    rw [hlook x (h.owned j x hx).1]
    exact h.owned j x hx
  have hplain : ∀ j, ∀ x ∈ (L j).created, (s.reserved.insert r none).lookup x = some none := by
    intro j x hx
    rw [hlook x (h.owned j x (mem_append_left _ hx)).1]
    exact h.plain j x hx
  have hperm : (r :: (L i).owned).Perm ((L i).created ++ [r] ++ (L i).stale) := by
    rw [append_assoc]
    exact perm_middle.symm
  refine h.update ⟨h.sound.unique, fun x id hx => ?_, fun x owner id hx hid => ?_, h.sound.canonical⟩ (fun x hx => ?_)
    (fun j _ => hkept j) (hperm.nodup_iff.mp (nodup_cons.mpr ⟨hfree.2 i, h.nodup i⟩)) (fun x hx => ?_)
    (fun j _ => hplain j)
  · rw [hlook x (h.sound.reserved x id hx)]
    exact h.sound.reserved x id hx
  · rw [hlook x (h.sound.reserved x id hid)] at hx
    exact h.sound.setAside x owner id hx hid
  · obtain rfl | hx := mem_cons.mp (hperm.mem_iff.mpr hx)
    · refine ⟨⟨?_, hfree.1⟩, fun j _ => hfree.2 j⟩
      rw [lookup_insert]
      rfl
    · exact ⟨hkept i x hx, h.alone hx⟩
  · obtain hx | hx := mem_append.mp hx
    · exact hplain i x hx
    · rw [mem_singleton.mp hx]
      exact lookup_insert _

theorem Partition.replace (id : ServiceName) (new : List Reservation) (hreserved : s'.reserved = s.reserved)
    (hheld : ∀ id' x, s'.Holds id' x → if id' = id then x ∈ new else s.Holds id' x)
    (hold : ∀ x ∈ (L i).old, s.Holds id x)
    (hnew : ∀ x ∈ new, (s.reserved.lookup x).isSome ∧ (∀ id', s.Holds id' x → id' = id) ∧
      (∀ owner, s.reserved.lookup x = some (some owner) → id = owner) ∧ ∀ j, x ∈ (L j).owned → j = i)
    (hcreated : l.created.Sublist (L i).created) (hfree : ∀ x ∈ l.created, x ∉ new)
    (hstale : ∀ x ∈ l.stale, x ∈ (L i).old ∧ x ∉ new) (hnodup : l.stale.Nodup)
    (hcanonical : ∀ id row, s'.services.lookup id = some row → Canonical net (row.body.idx "spec")) :
    Partition net s' (Function.update L i l) := by
  have hmem : ∀ x ∈ l.created, x ∈ (L i).owned :=
    fun x hx => mem_append_left _ (hcreated.subset hx)
  have hcases : ∀ id' x, s'.Holds id' x → id' = id ∧ x ∈ new ∨ id' ≠ id ∧ s.Holds id' x := by
    intro id' x hx
    have := hheld id' x hx
    split_ifs at this with hid
    · exact .inl ⟨hid, this⟩
    · exact .inr ⟨hid, this⟩
  refine h.update ⟨fun x id₁ id₂ h₁ h₂ => ?_, fun x id' hid' => ?_, fun x owner id' hx hid' => ?_, hcanonical⟩
    (fun x hx => ?_) (fun j hj x hx => ?_) ?_ (fun x hx => ?_) (fun j _ x hx => ?_)
  · obtain ⟨rfl, hn₁⟩ | ⟨he₁, hh₁⟩ := hcases id₁ x h₁ <;> obtain ⟨rfl, hn₂⟩ | ⟨he₂, hh₂⟩ := hcases id₂ x h₂
    · rfl
    · exact absurd ((hnew x hn₁).2.1 id₂ hh₂) he₂
    · exact absurd ((hnew x hn₂).2.1 id₁ hh₁) he₁
    · exact h.sound.unique x id₁ id₂ hh₁ hh₂
  · rw [hreserved]
    obtain ⟨-, hx⟩ | ⟨-, hx⟩ := hcases id' x hid'
    · exact (hnew x hx).1
    · exact h.sound.reserved x id' hx
  · rw [hreserved] at hx
    obtain ⟨rfl, hx'⟩ | ⟨-, hx'⟩ := hcases id' x hid'
    · exact (hnew x hx').2.2.1 owner hx
    · exact h.sound.setAside x owner id' hx hx'
  · rw [hreserved]
    obtain hx | hx := mem_append.mp hx
    · refine ⟨⟨(h.owned i x (hmem x hx)).1, fun id' hid' => ?_⟩, h.alone (hmem x hx)⟩
      obtain ⟨-, hx'⟩ | ⟨-, hx'⟩ := hcases id' x hid'
      · exact hfree x hx hx'
      · exact (h.owned i x (hmem x hx)).2 id' hx'
    · obtain ⟨hxold, hxnew⟩ := hstale x hx
      have hid := hold x hxold
      refine ⟨⟨h.sound.reserved x id hid, fun id' hid' => ?_⟩, fun j _ hj => (h.owned j x hj).2 id hid⟩
      obtain ⟨-, hx'⟩ | ⟨hne, hx'⟩ := hcases id' x hid'
      · exact hxnew hx'
      · exact hne (h.sound.unique x id' id hx' hid)
  · rw [hreserved]
    refine ⟨(h.owned j x hx).1, fun id' hid' => ?_⟩
    obtain ⟨-, hx'⟩ | ⟨-, hx'⟩ := hcases id' x hid'
    · exact hj ((hnew x hx').2.2.2 j hx)
    · exact (h.owned j x hx).2 id' hx'
  · refine nodup_append'.mpr ⟨?_, hnodup, fun x hx hx' => ?_⟩
    · exact ((h.nodup i).sublist (sublist_append_left _ _)).sublist hcreated
    · exact (h.owned i x (hmem x hx)).2 id (hold x (hstale x hx').1)
  · rw [hreserved]
    exact h.plain i x (hcreated.subset hx)
  · rw [hreserved]
    exact h.plain j x hx

theorem Partition.release (hr : r ∈ (L i).owned) :
    Partition net (s.release r) (Function.update L i ((L i).afterRelease r)) := by
  have hlook : ∀ x, x ≠ r → (s.release r).reserved.lookup x = s.reserved.lookup x :=
    fun x hx => lookup_erase_ne hx
  have hheld : ∀ x id, s.Holds id x → x ≠ r := by
    rintro x id hx rfl
    exact (h.owned i x hr).2 id hx
  have howned : ∀ x ∈ ((L i).afterRelease r).owned, x ∈ (L i).owned ∧ x ≠ r := by
    intro x hx
    rw [Ledger.owned_afterRelease] at hx
    exact ⟨mem_of_mem_erase hx, ((h.nodup i).mem_erase_iff.mp hx).1⟩
  have hothers : ∀ j ≠ i, ∀ x ∈ (L j).owned, x ≠ r := by
    rintro j hj x hx rfl
    exact h.alone hr j hj hx
  refine h.update ⟨h.sound.unique, fun x id hx => ?_, fun x owner id hx hid => ?_, h.sound.canonical⟩ (fun x hx => ?_)
    (fun j hj x hx => ?_) ?_ (fun x hx => ?_) (fun j hj x hx => ?_)
  · rw [hlook x (hheld x id hx)]
    exact h.sound.reserved x id hx
  · rw [hlook x (hheld x id hid)] at hx
    exact h.sound.setAside x owner id hx hid
  · obtain ⟨hx, hne⟩ := howned x hx
    rw [hlook x hne]
    exact ⟨h.owned i x hx, h.alone hx⟩
  · rw [hlook x (hothers j hj x hx)]
    exact h.owned j x hx
  · rw [Ledger.owned_afterRelease]
    exact (h.nodup i).erase r
  · rw [hlook x (howned x (mem_append_left _ hx)).2]
    exact h.plain i x (created_afterRelease_subset hx)
  · rw [hlook x (hothers j hj x (mem_append_left _ hx))]
    exact h.plain j x hx

end

section Calls

variable {net : Network} {s : ServiceStore} {id : ServiceName} {body : Json} {f : Fate} {r : Reservation}

theorem exec_create (s : ServiceStore) (id : ServiceName) (body : Json) (detached : Bool)
    (f : Fate) : (∃ e, s.exec (.create id body detached) f = (s, .error e)) ∨
    s.exec (.create id body detached) f = (s.write id body, .ok (s.revision + 1)) := by
  cases f with
  | failed e | refused e => exact .inl ⟨_, rfl⟩
  | served =>
    unfold ServiceStore.exec ServiceStore.create
    dsimp only
    split_ifs
    · exact .inl ⟨_, rfl⟩
    · exact .inr rfl

theorem exec_put (s : ServiceStore) (id : ServiceName) (body : Json) (expected : Option ℕ)
    (f : Fate) : (∃ e, s.exec (.put id body expected) f = (s, .error e)) ∨
    s.exec (.put id body expected) f = (s.write id body, .ok (s.revision + 1)) ∨
    ∃ row, s.services.lookup id = some row ∧ row.body.idx "spec" = body.idx "spec" ∧
      s.exec (.put id body expected) f = (s, .ok row.revision) := by
  cases f with
  | failed e | refused e => exact .inl ⟨_, rfl⟩
  | served =>
    unfold ServiceStore.exec ServiceStore.put
    dsimp only
    cases checkExpected (serviceKey id) ((s.services.lookup id).map StoredService.revision) expected with
    | error e => exact .inl ⟨e, rfl⟩
    | ok u =>
      cases hrow : s.services.lookup id with
      | none => exact .inr (.inl rfl)
      | some row =>
        dsimp only
        split_ifs with hsame
        · refine .inr (.inr ⟨row, rfl, ?_, rfl⟩)
          rw [← withoutResourceVersion_idx body (by decide : "spec" ≠ "metadata"), hsame,
            withoutResourceVersion_idx row.body (by decide)]
        · exact .inr (.inl rfl)

theorem exec_delete (s : ServiceStore) (id : ServiceName) (tolerant : Bool) (f : Fate) :
    (∃ e, s.exec (.delete id tolerant) f = (s, .error e)) ∨
    s.exec (.delete id tolerant) f =
      ({ s with revision := s.revision + 1, services := s.services.erase id }, .ok (s.revision + 1)) := by
  cases f with
  | failed e | refused e => exact .inl ⟨_, rfl⟩
  | served =>
    unfold ServiceStore.exec ServiceStore.delete
    dsimp only
    split_ifs
    · exact .inr rfl
    · exact .inl ⟨_, rfl⟩

theorem exec_reserve (s : ServiceStore) (r : Reservation) (f : Fate) :
    (∃ e, s.exec (.reserve r) f = (s, .error e)) ∨ s.reserved.lookup r = none ∧ s.exec (.reserve r) f =
      ({ s with revision := s.revision + 1, reserved := s.reserved.insert r none }, .ok (s.revision + 1)) := by
  cases f with
  | failed e | refused e => exact .inl ⟨_, rfl⟩
  | served =>
    unfold ServiceStore.exec ServiceStore.reserve
    dsimp only
    split_ifs with hsome
    · exact .inl ⟨_, rfl⟩
    · exact .inr ⟨Option.not_isSome_iff_eq_none.mp hsome, rfl⟩

theorem holds_write (h : (s.write id body).Holds id' x) :
    if id' = id then x ∈ holdings (body.idx "spec") else s.Holds id' x := by
  obtain ⟨row, hrow, hx⟩ := h
  by_cases hid : id' = id
  · rw [if_pos hid]
    rw [hid, ServiceStore.write, lookup_insert] at hrow
    obtain rfl := Option.some.inj hrow
    exact hx
  · rw [if_neg hid]
    rw [ServiceStore.write, lookup_insert_ne hid] at hrow
    exact ⟨row, hrow, hx⟩

theorem canonical_write (h : Sound net s) (hbody : Canonical net (body.idx "spec")) (id' : ServiceName)
    (row : StoredService) (hrow : (s.write id body).services.lookup id' = some row) :
    Canonical net (row.body.idx "spec") := by
  by_cases hid : id' = id
  · rw [hid, ServiceStore.write, lookup_insert] at hrow
    obtain rfl := Option.some.inj hrow
    exact hbody
  · rw [ServiceStore.write, lookup_insert_ne hid] at hrow
    exact h.canonical id' row hrow

theorem nodup_holdings (spec : Json) : (holdings spec).Nodup := by
  have hsorted {α : Type} [DecidableEq α] [LE α] [DecidableRel (α := α) (· ≤ ·)] (l : List α) : (sorted l).Nodup :=
    ((perm_insertionSort _ _).nodup_iff).mpr l.nodup_dedup
  refine nodup_append'.mpr ⟨(hsorted _).map ?_, (hsorted _).map ?_, ?_⟩
  · intro a b hab
    exact Reservation.ip.inj hab
  · intro a b hab
    exact Reservation.port.inj hab
  · intro x hip hport
    obtain ⟨t, -, rfl⟩ := mem_map.mp hip
    obtain ⟨n, -, hn⟩ := mem_map.mp hport
    cases hn

theorem nodup_old (h : ServiceTrace) : (ledger h).old.Nodup := by
  induction h using reverseRecOn with
  | nil => exact nodup_nil
  | append_singleton h e ih =>
    rw [ledger_append]
    obtain ⟨o, reply⟩ := e
    unfold Ledger.note
    split
    · next row _ =>
      cases row with
      | none => exact nodup_nil
      | some row => exact nodup_holdings _
    · exact nodup_nil
    · exact nodup_nil
    · exact nodup_nil
    · exact nodup_nil
    · exact ih
    · exact ih
    · unfold Ledger.afterRelease
      split_ifs
      · exact ih
      · exact ih
    · exact ih

variable {w : ServiceWorld} {i : ℕ}

section

variable (h : Partition net w.shared (fun j => ledger (w.past j)))
include h

section

variable (hheld : StillHeld w i id)
include hheld

theorem backed
    (hclaim : ClaimHolds w i id body) (hx : x ∈ holdings (body.idx "spec")) (hback : (ledger (w.past i)).Backs x) :
    (w.shared.reserved.lookup x).isSome ∧ (∀ id', w.shared.Holds id' x → id' = id) ∧
      (∀ owner, w.shared.reserved.lookup x = some (some owner) → id = owner) ∧
      ∀ j, x ∈ (ledger (w.past j)).owned → j = i := by
  by_cases hcreated : x ∈ (ledger (w.past i)).created
  · have hmem : x ∈ (ledger (w.past i)).owned := mem_append_left _ hcreated
    obtain ⟨hres, hfree⟩ := h.owned i x hmem
    refine ⟨hres, fun id' hid' => absurd hid' (hfree id'), fun owner howner => ?_,
      fun j hj => h.disjoint j i x hj hmem⟩
    rw [h.plain i x hcreated] at howner
    cases howner
  · by_cases hold : x ∈ (ledger (w.past i)).old
    · have hid := hheld x hold
      exact ⟨h.sound.reserved x id hid, fun id' hid' => h.sound.unique x id' id hid' hid,
        fun owner howner => h.sound.setAside x owner id howner hid,
        fun j hj => absurd hid ((h.owned j x hj).2 id)⟩
    · have hclaimed : x ∈ (ledger (w.past i)).claimed := by
        obtain hx | hx | hx := hback
        · exact absurd hx hcreated
        · exact absurd hx hold
        · exact hx
      obtain ⟨hown, hnone⟩ := hclaim x hclaimed hx hcreated hold
      refine ⟨by rw [hown]; rfl, fun id' hid' => h.sound.setAside x id id' hown hid', fun owner howner => ?_,
        fun j hj => absurd hj (hnone j)⟩
      rw [hown] at howner
      exact Option.some.inj (Option.some.inj howner)

theorem partition_land
    (hclaim : ClaimHolds w i id body) (hback : ∀ x ∈ holdings (body.idx "spec"), (ledger (w.past i)).Backs x)
    (hreserved : s'.reserved = w.shared.reserved)
    (hholds : ∀ id' x, s'.Holds id' x → if id' = id then x ∈ holdings (body.idx "spec") else w.shared.Holds id' x)
    (hcanonical : ∀ id row, s'.services.lookup id = some row → Canonical net (row.body.idx "spec")) :
    Partition net s'
      (update (fun j => ledger (w.past j)) i ((ledger (w.past i)).afterWrite body)) := by
  apply h.replace id _ hreserved hholds hheld
  · intro x hx
    exact backed h hheld hclaim hx (hback x hx)
  · exact nil_sublist _
  · intro x hx
    cases hx
  · intro x hx
    obtain ⟨hxold, hxnew⟩ := mem_filter.mp hx
    exact ⟨hxold, of_decide_eq_true hxnew⟩
  · exact (nodup_old _).filter _
  · exact hcanonical

theorem partition_write (hclaim : ClaimHolds w i id body) (hbody : Canonical net (body.idx "spec"))
    (hback : ∀ x ∈ holdings (body.idx "spec"), (ledger (w.past i)).Backs x) :
    Partition net (w.shared.write id body)
      (update (fun j => ledger (w.past j)) i ((ledger (w.past i)).afterWrite body)) :=
  partition_land h hheld hclaim hback rfl (fun _ _ => holds_write) (canonical_write h.sound hbody)

theorem partition_delete :
    Partition net { w.shared with revision := rev, services := w.shared.services.erase id }
      (update (fun j => ledger (w.past j)) i (ledger (w.past i)).afterDelete) := by
  have hrow : ∀ id' row, (w.shared.services.erase id).lookup id' = some row →
      id' ≠ id ∧ w.shared.services.lookup id' = some row := by
    intro id' row hrow
    by_cases hid : id' = id
    · rw [hid, lookup_erase] at hrow
      cases hrow
    · rw [lookup_erase_ne hid] at hrow
      exact ⟨hid, hrow⟩
  apply h.replace id []
  · rfl
  · rintro id' x ⟨row, hlook, hx⟩
    obtain ⟨hne, hlook⟩ := hrow id' row hlook
    rw [if_neg hne]
    exact ⟨row, hlook, hx⟩
  · exact hheld
  · intro x hx
    cases hx
  · exact Sublist.refl _
  · intro x _ hx
    cases hx
  · intro x hx
    exact ⟨hx, not_mem_nil⟩
  · exact nodup_old _
  · intro id' row hlook
    exact h.sound.canonical id' row (hrow id' row hlook).2

end

theorem partition_call (hguard : Guard (w.past i) o) (hpermit : CallPermitted net w i o (w.shared.exec o f).2) :
    Partition net (w.shared.exec o f).1 (update (fun j => ledger (w.past j)) i
      ((ledger (w.past i)).note ⟨o, (w.shared.exec o f).2⟩)) := by
  -- A call that changes neither the store nor what the request owns.
  have hsame {l : Ledger} (hcreated : l.created = (ledger (w.past i)).created)
      (hstale : l.stale = (ledger (w.past i)).stale) :
      Partition net w.shared (update (fun j => ledger (w.past j)) i l) := by
    apply h.shrink
    · unfold Ledger.owned
      rw [hcreated, hstale]
    · rw [hcreated]
      exact fun _ => id
  cases o with
  | get id =>
    rw [show (w.shared.exec (.get id) f).1 = w.shared by cases f <;> rfl]
    apply hsame
    · cases f <;> rfl
    · cases f <;> rfl
  | sentinel r =>
    rw [show (w.shared.exec (.sentinel r) f).1 = w.shared by cases f <;> rfl]
    generalize (w.shared.exec (.sentinel r) f).2 = reply
    match reply with
    | .ok (some (some _)) | .ok (some none) | .ok none | .error _ => exact hsame rfl rfl
  | usedPorts =>
    rw [show (w.shared.exec .usedPorts f).1 = w.shared by cases f <;> rfl]
    exact hsame rfl rfl
  | create id body detached =>
    obtain ⟨e, he⟩ | he := exec_create w.shared id body detached f
    · rw [he]
      exact hsame rfl rfl
    · rw [he] at hpermit ⊢
      exact partition_write h hpermit.1 hpermit.2.1 hpermit.2.2 hguard
  | put id body expected =>
    obtain ⟨e, he⟩ | he | ⟨row, hrow, hspec, he⟩ := exec_put w.shared id body expected f
    · rw [he]
      exact hsame rfl rfl
    · rw [he] at hpermit ⊢
      exact partition_write h hpermit.1 hpermit.2.1 hpermit.2.2 hguard
    · rw [he] at hpermit ⊢
      apply partition_land h hpermit.1 hpermit.2.1 hguard rfl
      · rintro id' x ⟨row', hrow', hx⟩
        split_ifs with hid
        · rw [hid, hrow] at hrow'
          obtain rfl := Option.some.inj hrow'
          rwa [← hspec]
        · exact ⟨row', hrow', hx⟩
      · exact h.sound.canonical
  | delete id tolerant =>
    obtain ⟨e, he⟩ | he := exec_delete w.shared id tolerant f
    · rw [he] at hpermit ⊢
      match tolerant, e with
      | true, .notFound _ =>
        have hold : (ledger (w.past i)).old = [] := hpermit
        apply h.shrink
        · simp only [Ledger.note, Ledger.afterDelete, Ledger.owned, hold, append_nil]
          exact (sublist_append_left _ _).subperm
        · exact fun _ hx => hx
      | false, e => cases e <;> exact hsame rfl rfl
      | true, .revisionMismatch _ _ | true, .alreadyExists _ | true, .sqlite | true, .join | true, .serialization =>
        exact hsame rfl rfl
    · rw [he] at hpermit ⊢
      exact partition_delete h hpermit
  | reserve r =>
    obtain ⟨e, he⟩ | ⟨hfree, he⟩ := exec_reserve w.shared r f
    · rw [he]
      exact hsame rfl rfl
    · rw [he]
      exact h.reserve hfree
  | release r =>
    cases f with
    | served => exact h.release hguard
    | failed _ | refused _ =>
      apply h.shrink
      · change ((ledger (w.past i)).afterRelease r).owned.Subperm _
        rw [Ledger.owned_afterRelease]
        exact erase_sublist.subperm
      · exact created_afterRelease_subset

end

end Calls

theorem owns_undo (hseen : seen = true ∨ h.getLast?.any isWrite = false) : Owns (ledger h) (undo seen h) := by
  unfold undo
  split_ifs with hrelease hs
  · exact nil_subperm
  · exact (sublist_append_left _ _).subperm
  · induction h using reverseRecOn with
    | nil => exact nil_subperm
    | append_singleton h e _ =>
      have hwrite : isWrite e = false := by simpa [hs] using hseen
      have hrelease : isRelease e = false := by simpa using hrelease
      rw [dropLast_concat, ledger_append]
      refine (Sublist.trans ?_ (sublist_append_left _ _)).subperm
      unfold Ledger.note
      split
      · exact Sublist.refl _
      · cases hwrite
      · cases hwrite
      · exact Sublist.refl _
      · exact Sublist.refl _
      · exact sublist_append_left _ _
      · exact Sublist.refl _
      · cases hrelease
      · exact Sublist.refl _

def WorldSound (net : Network) (w : ServiceWorld) : Prop :=
  w.Kept (fun _ => Guard) ∧ Partition net w.shared (fun j => ledger (w.past j))

theorem worldSound_turn (h : WorldSound net w) (hpermit : Permitted net w (.turn i f)) :
    WorldSound net (stepService w (.turn i f)) := by
  refine ⟨h.1.step (i, f), ?_⟩
  cases hrest : (w.threads i).rest with
  | ret x =>
    rw [stepService, World.step_ret ServiceStore.exec (a := (i, f)) hrest]
    exact h.2
  | call o k =>
    obtain ⟨hshared, hpast, -, -⟩ := World.step_call ServiceStore.exec (a := (i, f)) hrest
    have hguard := h.1 i
    rw [hrest] at hguard
    simp only [Permitted, hrest] at hpermit
    have hcall := partition_call h.2 hguard.1 hpermit
    rw [stepService, hshared, hpast]
    have hledgers : (fun j => ledger (update w.past i
        (w.past i ++ [⟨o, (w.shared.exec o f).2⟩]) j)) =
        update (fun j => ledger (w.past j)) i
          ((ledger (w.past i)).note ⟨o, (w.shared.exec o f).2⟩) := by
      funext j
      by_cases hj : j = i
      · rw [hj, update_self, update_self, ledger_append]
      · rw [update_of_ne hj, update_of_ne hj]
    rw [hledgers]
    exact hcall

theorem worldSound_drop (h : WorldSound net w) (hpermit : Permitted net w (.drop i seen)) :
    WorldSound net (stepService w (.drop i seen)) := by
  unfold stepService
  dsimp only
  split_ifs with hdetached
  · exact h
  · have hpast : World.past { w with threads := update w.threads i ⟨w.past i,
        (releaseAll (undo seen (w.past i)) []).bind (fun _ => .ret (.error .cancelled))⟩ } = w.past := by
      funext j
      by_cases hj : j = i
      · simp [hj, World.past]
      · simp [World.past, update_of_ne hj]
    refine ⟨fun j => ?_, ?_⟩
    · rw [hpast]
      by_cases hj : j = i
      · rw [hj]
        dsimp only
        rw [update_self]
        exact keeps_handBack (owns_undo hpermit) _
      · dsimp only
        rw [update_of_ne hj]
        exact h.1 j
    · rw [hpast]
      exact h.2

theorem worldSound_run (h : WorldSound net w) (hpermit : Along stepService (Permitted net) w as) :
    WorldSound net (run stepService w as) := by
  refine hpermit.invariant (WorldSound net) (fun w a hw ha => ?_) h
  cases a with
  | turn i f => exact worldSound_turn hw ha
  | drop i seen => exact worldSound_drop hw ha

def serviceWorld (net : Network) (s : ServiceStore) (qs : ℕ → ServiceRequest) : ServiceWorld :=
  World.start s (fun i => (qs i).program net)

theorem worldSound_start (hrange : net.primary.isSome) (hs : Sound net s) (qs : ℕ → ServiceRequest) :
    WorldSound net (serviceWorld net s qs) := by
  refine ⟨World.kept_start (fun i => keeps_program hrange (qs i)), hs, ?_, ?_, ?_, ?_⟩
  · intro i r hr
    cases hr
  · intro i j r hr
    cases hr
  · intro i
    exact nodup_nil
  · intro i r hr
    cases hr

theorem services_hold_apart (net : Network) (hrange : net.primary.isSome = true) (s : ServiceStore)
    (hs : Sound net s) (qs : ℕ → ServiceRequest) (as : List ServiceAction)
    (hpermit : Along stepService (Permitted net) (serviceWorld net s qs) as) :
    let s' := (run stepService (serviceWorld net s qs) as).shared
    (∀ id id' t t' a, s'.Holds id (.ip t) → s'.Holds id' (.ip t') → net.parse t = some a →
      net.parse t' = some a → id = id') ∧
    (∀ id id' n, s'.Holds id (.port n) → s'.Holds id' (.port n) → id = id') ∧
    ∀ id r, s'.Holds id r → (s'.reserved.lookup r).isSome = true := by
  intro s'
  have hsound : Sound net s' := (worldSound_run (worldSound_start hrange hs qs) hpermit).2.sound
  have htext : ∀ id t a, s'.Holds id (.ip t) → net.parse t = some a → net.display a = t := by
    rintro id t a ⟨row, hrow, ht⟩ ha
    exact hsound.canonical id row hrow t (ip_mem_holdings.mp ht) a ha
  refine ⟨fun id id' t t' a ht ht' ha ha' => ?_, fun id id' n => hsound.unique (.port n) id id',
    fun id r => hsound.reserved r id⟩
  rw [← htext id t a ht ha] at ht
  rw [← htext id' t' a ht' ha'] at ht'
  exact hsound.unique _ id id' ht ht'

def octets (n : ℕ) : List ℕ := [n / 2 ^ 24, n / 2 ^ 16 % 2 ^ 8, n / 2 ^ 8 % 2 ^ 8, n % 2 ^ 8]

def dotted (n : ℕ) : List Char := ['.'].intercalate ((octets n).map (Nat.toDigits 10))

def readDotted (cs : List Char) : Option IpAddr :=
  match (cs.splitOn '.').map (fun d => Nat.ofDigitChars 10 d 0) with
  | [a, b, c, d] => some (.v4 (Fin.ofNat _ (a * 2 ^ 24 + b * 2 ^ 16 + c * 2 ^ 8 + d)))
  | _ => none

theorem not_mem_toDigits (hc : c.isDigit = false) (n : ℕ) : c ∉ Nat.toDigits 10 n := by
  intro h
  have := Nat.isDigit_of_mem_toDigits (by omega) (by omega) h
  rw [hc] at this
  cases this

theorem readDotted_dotted (a : Fin (2 ^ 32)) : readDotted (dotted a.val) = some (.v4 a) := by
  have hsplit : (dotted a.val).splitOn '.' = (octets a.val).map (Nat.toDigits 10) := by
    apply splitOn_intercalate
    · intro d hd
      obtain ⟨n, -, rfl⟩ := mem_map.mp hd
      exact not_mem_toDigits (by decide) n
    · simp [octets]
  have hval : a.val / 2 ^ 24 * 2 ^ 24 + a.val / 2 ^ 16 % 2 ^ 8 * 2 ^ 16 + a.val / 2 ^ 8 % 2 ^ 8 * 2 ^ 8 +
      a.val % 2 ^ 8 = a.val := by
    omega
  unfold readDotted
  rw [hsplit]
  simp only [octets, map_cons, map_nil, Nat.ofDigitChars_ten_toDigits, hval]
  simp

def dottedNetwork : Network where
  parse t := (readDotted t.toList).or
    (match t.toList with
    | ':' :: ds => some (.v6 (Fin.ofNat _ (Nat.ofDigitChars 10 ds 0)))
    | _ => none)
  display
    | .v4 a => String.ofList (dotted a.val)
    | .v6 a => String.ofList (':' :: Nat.toDigits 10 a.val)
  parse_display := by
    rintro (a | a)
    · simp only [String.toList_ofList, readDotted_dotted, Option.some_or]
    · have hsplit : (':' :: Nat.toDigits 10 a.val).splitOn '.' = [':' :: Nat.toDigits 10 a.val] := by
        have hdot : '.' ∉ ':' :: Nat.toDigits 10 a.val := by
          simpa using not_mem_toDigits (by decide) a.val
        have hone : ∀ l ∈ [':' :: Nat.toDigits 10 a.val], '.' ∉ l := by simpa using hdot
        simpa using splitOn_intercalate '.' hone
      simp [readDotted, hsplit, Nat.ofDigitChars_ten_toDigits]
  primary := some ⟨.v4 (Fin.ofNat _ (10 * 2 ^ 24 + 96 * 2 ^ 16)), 2 ^ 8⟩
  secondary := none

def nodePortService (ip : String) (port : ℕ) : Json :=
  .obj [("spec", .obj [("clusterIP", .str ip), ("clusterIPs", .arr [.str ip]),
    ("ports", .arr [.obj [("nodePort", .num (.posInt port)), ("port", .num (.posInt 80))]]),
    ("type", .str "NodePort")])]

def plainEdits (body : Json) : Edits where
  merge _ := .ok body
  resolve _ := .ok
  validate _ := .ok
  admission _ := .ok
  starts _ := 0
  dryRun := false

def web : ServiceName := ("default", "web")

def other : ServiceName := ("default", "other")

def webStore : ServiceStore where
  revision := 3
  services := (∅ : AList _).insert web ⟨3, nodePortService "10.96.0.10" 30001⟩
  reserved := AList.insert (Reservation.port 30001) none (AList.insert (Reservation.ip "10.96.0.10") none ∅)

def webRequests : ℕ → ServiceRequest
  | 0 => .replace ⟨web, none, plainEdits (nodePortService "10.96.0.10" 30002)⟩
  | 1 => .replace ⟨web, none, plainEdits (nodePortService "10.96.0.10" 30001)⟩
  | _ => .create ⟨"default", fun _ => "other", 0, plainEdits (nodePortService "10.96.0.11" 30001), fun _ => .ok ()⟩

instance (s : ServiceStore) (id : ServiceName) (r : Reservation) : Decidable (s.Holds id r) :=
  decidable_of_iff ((s.services.lookup id).any (fun row => r ∈ storedHoldings row) = true) (by
    simp [ServiceStore.Holds, Option.any_eq_true])

theorem canonical_service (hip : ip = "10.96.0.10" ∨ ip = "10.96.0.11") (port : ℕ) :
    Canonical dottedNetwork ((nodePortService ip port).idx "spec") := by
  have hips : specIps ((nodePortService ip port).idx "spec") = [ip] := by
    change specIps ((nodePortService ip 0).idx "spec") = _
    obtain rfl | rfl := hip <;> decide +kernel
  intro t ht a ha
  rw [hips, mem_singleton] at ht
  subst ht
  obtain rfl | rfl := hip <;> obtain rfl := Option.some.inj ha <;> decide +kernel

theorem sound_webStore : Sound dottedNetwork webStore := by
  have hweb : ∀ id row, webStore.services.lookup id = some row →
      id = web ∧ row = ⟨3, nodePortService "10.96.0.10" 30001⟩ := by
    intro id row hrow
    by_cases hid : id = web
    · rw [hid] at hrow
      exact ⟨hid, (Option.some.inj hrow).symm⟩
    · rw [webStore, lookup_insert_ne hid] at hrow
      cases hrow
  have hheld : ∀ id r, webStore.Holds id r → id = web ∧ (r = .ip "10.96.0.10" ∨ r = .port 30001) := by
    rintro id r ⟨row, hrow, hr⟩
    obtain ⟨rfl, rfl⟩ := hweb id row hrow
    have : storedHoldings ⟨3, nodePortService "10.96.0.10" 30001⟩ = [.ip "10.96.0.10", .port 30001] := by
      decide +kernel
    rw [this] at hr
    exact ⟨rfl, by simpa using hr⟩
  refine ⟨fun r id id' h h' => ?_, fun r id h => ?_, fun r owner id hr h => ?_, fun id row hrow => ?_⟩
  · rw [(hheld id r h).1, (hheld id' r h').1]
  · obtain ⟨-, rfl | rfl⟩ := hheld id r h <;> decide +kernel
  · obtain ⟨-, rfl | rfl⟩ := hheld id r h
    · cases hr
    · cases hr
  · obtain ⟨rfl, rfl⟩ := hweb id row hrow
    exact canonical_service (.inl rfl) 30001

theorem kept_port_given_away : Sound dottedNetwork webStore ∧
    let w := run stepService (serviceWorld dottedNetwork webStore webRequests)
      ([1, 0, 0, 0, 1, 0].map (fun i => .turn i .served))
    w.shared.Holds web (.port 30001) ∧ w.shared.reserved.lookup (.port 30001) = none ∧
    let w' := run stepService w ([2, 2, 2].map (fun i => .turn i .served))
    w'.shared.Holds web (.port 30001) ∧ w'.shared.Holds other (.port 30001) := by
  refine ⟨sound_webStore, ?_, ?_, ?_, ?_⟩
  · decide +kernel
  · decide +kernel
  · decide +kernel
  · decide +kernel

def nextBody : Prog ServiceOp ServiceOp.Reply (Except Failure Json) → Option Json
  | .call (.create _ body _) _ => some body
  | .call (.put _ body _) _ => some body
  | _ => none

/-- A request that found nothing it holds or that was set aside may make its next call. -/
theorem permitted_fresh {w : ServiceWorld} (hold : (ledger (w.past i)).old = [])
    (hclaimed : (ledger (w.past i)).claimed = [])
    (hbody : ∀ body, nextBody (w.threads i).rest = some body → Canonical net (body.idx "spec")) (f : Fate) :
    Permitted net w (.turn i f) := by
  have hstill : ∀ id, StillHeld w i id := by simp [StillHeld, hold]
  have hclaim : ∀ id body, ClaimHolds w i id body := by simp [ClaimHolds, hclaimed]
  unfold Permitted
  dsimp only
  split
  · next o _ hrest =>
    rw [hrest] at hbody
    unfold CallPermitted
    split
    · exact ⟨hstill _, hclaim _ _, hbody _ rfl⟩
    · exact ⟨hstill _, hclaim _ _, hbody _ rfl⟩
    · exact hstill _
    · exact hold
    · trivial
  · trivial

def movedTo (n : ℕ) : ServiceWorld :=
  run stepService (serviceWorld dottedNetwork webStore webRequests)
    (([2, 0, 0, 0, 0, 2, 2].take n).map (fun i => .turn i .served))

theorem services_hold_apart_moved :
    ((movedTo 7).shared.Holds web (.port 30002) ∧ (movedTo 7).shared.Holds other (.port 30001)) ∧
    (∀ id id' n, (movedTo 7).shared.Holds id (.port n) → (movedTo 7).shared.Holds id' (.port n) → id = id') ∧
    ∀ id r, (movedTo 7).shared.Holds id r → ((movedTo 7).shared.reserved.lookup r).isSome = true := by
  refine ⟨by decide +kernel, (services_hold_apart dottedNetwork rfl webStore sound_webStore webRequests _ ?_).2⟩
  refine ⟨trivial, trivial, trivial, ⟨?_, ?_, ?_⟩, trivial, trivial, ?_, trivial⟩
  · unfold StillHeld
    decide +kernel
  · intro r hr
    have hnone : (ledger (World.past (movedTo 3) 0)).claimed = [] := by decide +kernel
    exact absurd (hnone ▸ hr) not_mem_nil
  · exact canonical_service (.inl rfl) _
  · have hbody : nextBody ((movedTo 6).threads 2).rest = some (nodePortService "10.96.0.11" 30001) := by decide +kernel
    refine permitted_fresh (w := movedTo 6) (by decide +kernel) (by decide +kernel) (fun body hb => ?_) .served
    obtain rfl := Option.some.inj (hbody.symm.trans hb)
    exact canonical_service (.inr rfl) _

end U7s.Services
