import U7s.Lib.Addresses
import U7s.Lib.Runs
import U7s.Lib.Tables

namespace U7s.LogLimit

open List hiding lookup insert
open Addresses Runs Tables

inductive PeerKey where
  | none
  | v4 (a : Fin (2 ^ 32))
  | v6Prefix64 (a : Fin (2 ^ 64))
  | overflow
deriving DecidableEq

def PeerKey.fromIp (ip : Option IpAddr) : PeerKey :=
  match ip.map IpAddr.toCanonical with
  | .none => .none
  | some (.v4 a) => .v4 a
  | some (.v6 a) => .v6Prefix64 (Fin.ofNat _ (a.val / 2 ^ 64))

abbrev Key := String × PeerKey

structure Bucket where
  windowStart : ℕ
  logged : ℕ := 0
  suppressed : ℕ := 0
  details : List (String × ℕ) := []
  overflowPeers : Finset PeerKey := ∅

def maxDetails : ℕ := 5
def maxDetailLen : ℕ := 64
def maxOverflowPeers : ℕ := 1024
def auditKind : String := "impersonation_denied"
def auditBurstFactor : ℕ := 10

def Bucket.recordSuppressed (b : Bucket) (detail : String) : Bucket :=
  { b with
    suppressed := b.suppressed + 1
    details :=
      if b.details.any (·.1 = detail) then
        b.details.replaceF (fun d => if d.1 = detail then some (d.1, d.2 + 1) else none)
      else if b.details.length < maxDetails then b.details ++ [(detail, 1)]
      else b.details }

structure Summary where
  kind : String
  peer : PeerKey
  count : ℕ
  details : List (String × ℕ)
  overflowPeers : ℕ

def takeSummary (key : Key) (b : Bucket) : Option Summary × Bucket :=
  if 0 < b.suppressed then
    (some ⟨key.1, key.2, b.suppressed, b.details, b.overflowPeers.card⟩, { b with suppressed := 0, details := [] })
  else (none, b)

abbrev Buckets := AList (fun _ : Key => Bucket)

structure Inner where
  buckets : Buckets := ∅
  lastSweep : Option ℕ := none

def Inner.entry (inner : Inner) (key : Key) (peer : PeerKey) (now : ℕ) : Bucket :=
  let b := (inner.buckets.lookup key).getD { windowStart := now }
  if key.2 = .overflow ∧ b.overflowPeers.card < maxOverflowPeers then
    { b with overflowPeers := insert peer b.overflowPeers }
  else b

structure LogLimiter where
  burst : ℕ
  window : ℕ
  maxTracked : ℕ

namespace LogLimiter

variable (L : LogLimiter)

def auditBurst : ℕ := min (L.burst * auditBurstFactor) (2 ^ 32 - 1)

def burstOf (kind : String) : ℕ := if kind = auditKind then L.auditBurst else L.burst

def expired (now : ℕ) (b : Bucket) : Bool := L.window ≤ now - b.windowStart

def sweep (inner : Inner) (now : ℕ) : Inner × List Summary :=
  ({ buckets := ⟨inner.buckets.entries.filter (fun e => ! L.expired now e.2), inner.buckets.nodupKeys.sublist filter_sublist⟩
     lastSweep := some now },
    (inner.buckets.entries.filter (fun e => L.expired now e.2)).filterMap (fun e => (takeSummary e.1 e.2).1))

def full (inner : Inner) (key : Key) : Bool := key ∉ inner.buckets ∧ L.maxTracked ≤ inner.buckets.keys.length

def makeRoom (inner : Inner) (key : Key) (now : ℕ) : Inner × List Summary :=
  if L.full inner key ∧ inner.lastSweep.all (fun t => L.window ≤ now - t) then L.sweep inner now else (inner, [])

def place (inner : Inner) (key : Key) (now : ℕ) : Key :=
  if L.full inner key ∧ L.maxTracked ≤ (L.makeRoom inner key now).1.buckets.keys.length then (key.1, .overflow) else key

def charge (key : Key) (peer : PeerKey) (detail : String) (now : ℕ) (b : Bucket) : Bucket × Bool × Option Summary :=
  if L.expired now b then
    ({ (takeSummary key b).2 with
       windowStart := now
       logged := 1
       overflowPeers := if key.2 = .overflow then {peer} else ∅ }, true, (takeSummary key b).1)
  else if b.logged < L.burstOf key.1 then ({ b with logged := b.logged + 1 }, true, none)
  else (b.recordSuppressed (String.ofList (detail.toList.take maxDetailLen)), false, none)

def checkAt (inner : Inner) (kind : String) (peer : Option IpAddr) (detail : String) (now : ℕ) :
    Inner × Bool × List Summary :=
  let peer := PeerKey.fromIp peer
  let key := L.place inner (kind, peer) now
  let (inner, swept) := L.makeRoom inner (kind, peer) now
  let (b, admits, summary) := L.charge key peer detail now (inner.entry key peer now)
  ({ inner with buckets := inner.buckets.insert key b }, admits, swept ++ summary.toList)

end LogLimiter

structure State where
  inner : Inner := {}
  now : ℕ := 0
  checks : ℕ := 0
  admitted : List (Key × ℕ) := []
  summaries : List Summary := []

inductive Call where
  | check (kind : String) (peer : Option IpAddr) (detail : String)
  | flush

variable {L : LogLimiter} {inner : Inner} {s : State} {now t : ℕ} {key : Key} {peer : PeerKey} {detail : String}

def step (L : LogLimiter) (s : State) (a : ℕ × Call) : State :=
  match a.2 with
  | .check kind peer detail =>
    let key := L.place s.inner (kind, .fromIp peer) a.1
    let (inner, admits, out) := L.checkAt s.inner kind peer detail a.1
    { inner := inner
      now := a.1
      checks := s.checks + 1
      admitted := if admits then (key, a.1) :: s.admitted else s.admitted
      summaries := s.summaries ++ out }
  | .flush =>
    { s with inner := (L.sweep s.inner a.1).1, now := a.1, summaries := s.summaries ++ (L.sweep s.inner a.1).2 }

def reported (out : List Summary) : ℤ := (out.map (fun m => (m.count : ℤ))).sum

def held (m : Buckets) : ℤ := weight m (fun _ b => b.suppressed)

def admittedIn (s : State) (L : LogLimiter) (key : Key) (start : ℕ) : ℕ :=
  s.admitted.countP (fun e => e.1 = key ∧ start ≤ e.2 ∧ e.2 < start + L.window)

def WithinBurst (L : LogLimiter) (s : State) : Prop :=
  ∀ key b, s.inner.buckets.lookup key = some b → admittedIn s L key b.windowStart ≤ L.burstOf key.1

section Sweep

theorem lookup_sweep (key : Key) : (L.sweep inner now).1.buckets.lookup key =
    (inner.buckets.lookup key).filter (fun b => ! L.expired now b) := by
  have hmem : ∀ (m : Buckets) b, m.lookup key = some b ↔ ⟨key, b⟩ ∈ m.entries := fun m b => AList.mem_lookup_iff
  refine Option.ext fun b => ?_
  rw [hmem, Option.filter_eq_some_iff, hmem]
  exact mem_filter

theorem takeSummary_reported (key : Key) (b : Bucket) : reported (takeSummary key b).1.toList = b.suppressed := by
  unfold takeSummary
  split_ifs with hpos
  · simp [reported]
  · simp [reported, Nat.eq_zero_of_not_pos hpos]

theorem takeSummary_suppressed (key : Key) (b : Bucket) : (takeSummary key b).2.suppressed = 0 := by
  unfold takeSummary
  split_ifs with hpos
  · rfl
  · exact Nat.eq_zero_of_not_pos hpos

theorem held_sweep (L : LogLimiter) (inner : Inner) (now : ℕ) :
    held (L.sweep inner now).1.buckets + reported (L.sweep inner now).2 = held inner.buckets := by
  simp only [held, weight, LogLimiter.sweep, reported]
  generalize inner.buckets.entries = entries
  induction entries with
  | nil => rfl
  | cons e entries ih =>
    cases hexp : L.expired now e.2 with
    | false => simp [hexp, ← ih, add_assoc]
    | true =>
      have htake := takeSummary_reported e.1 e.2
      cases hsum : (takeSummary e.1 e.2).1 with
      | none =>
        simp [reported] at htake
        simp [hexp, hsum, ← ih, ← htake]
      | some m =>
        simp [reported] at htake
        simp [hexp, hsum, ← ih, ← htake]
        ring

theorem keys_sweep_sublist : (L.sweep inner now).1.buckets.keys <+ inner.buckets.keys :=
  filter_sublist.map _

theorem place_room (L : LogLimiter) (inner : Inner) (key : Key) (now : ℕ) :
    let room := (L.makeRoom inner key now).1.buckets
    L.place inner key now ∈ room ∨ (L.place inner key now).2 = .overflow ∨ room.keys.length < L.maxTracked := by
  unfold LogLimiter.place
  split_ifs with hfull
  · exact .inr (.inl rfl)
  · by_cases hnew : L.full inner key
    · exact .inr (.inr (Nat.lt_of_not_le fun hle => hfull ⟨hnew, hle⟩))
    · have hstays : L.makeRoom inner key now = (inner, []) := if_neg fun hdue => hnew hdue.1
      simp only [LogLimiter.full, decide_eq_true_eq, not_and, not_le] at hnew
      rw [hstays]
      by_cases hmem : key ∈ inner.buckets
      · exact .inl hmem
      · exact .inr (.inr (hnew hmem))

end Sweep

section Charge

theorem charge_suppressed (L : LogLimiter) (key : Key) (peer : PeerKey) (detail : String) (now : ℕ) (b : Bucket) :
    ((L.charge key peer detail now b).1.suppressed : ℤ) +
    reported (L.charge key peer detail now b).2.2.toList +
    (if (L.charge key peer detail now b).2.1 then 1 else 0) = b.suppressed + 1 := by
  by_cases hexp : L.expired now b
  · simp [LogLimiter.charge, hexp, takeSummary_reported, takeSummary_suppressed]
  · by_cases hlog : b.logged < L.burstOf key.1
    · simp [LogLimiter.charge, hexp, hlog, reported]
    · simp [LogLimiter.charge, hexp, hlog, reported, Bucket.recordSuppressed]

theorem charge_cases (L : LogLimiter) (key : Key) (peer : PeerKey) (detail : String) (now : ℕ) (b : Bucket) :
    let r := L.charge key peer detail now b
    L.expired now b ∧ r.2.1 ∧ r.1.windowStart = now ∧ r.1.logged = 1 ∨
      L.expired now b = false ∧ r.1.windowStart = b.windowStart ∧
        (b.logged < L.burstOf key.1 ∧ r.2.1 ∧ r.1.logged = b.logged + 1 ∨
          r.2.1 = false ∧ r.1.logged = b.logged) := by
  by_cases hexp : L.expired now b
  · simp [LogLimiter.charge, hexp]
  · by_cases hlog : b.logged < L.burstOf key.1
    · simp [LogLimiter.charge, hexp, hlog]
    · simp [LogLimiter.charge, hexp, hlog, Bucket.recordSuppressed]

theorem entry_fields (inner : Inner) (key : Key) (peer : PeerKey) (now : ℕ) :
    let b := (inner.buckets.lookup key).getD { windowStart := now }
    (inner.entry key peer now).windowStart = b.windowStart ∧ (inner.entry key peer now).logged = b.logged ∧
      (inner.entry key peer now).suppressed = b.suppressed := by
  unfold Inner.entry
  dsimp only
  split_ifs <;> exact ⟨rfl, rfl, rfl⟩

end Charge

namespace State

def sweep (L : LogLimiter) (s : State) : State :=
  { s with inner := (L.sweep s.inner s.now).1, summaries := s.summaries ++ (L.sweep s.inner s.now).2 }

def makeRoom (L : LogLimiter) (s : State) (key : Key) : State :=
  { s with inner := (L.makeRoom s.inner key s.now).1, summaries := s.summaries ++ (L.makeRoom s.inner key s.now).2 }

def enter (L : LogLimiter) (s : State) (key : Key) (peer : PeerKey) (detail : String) : State :=
  let (b, admits, summary) := L.charge key peer detail s.now (s.inner.entry key peer s.now)
  { s with
    inner := { s.inner with buckets := s.inner.buckets.insert key b }
    checks := s.checks + 1
    admitted := if admits then (key, s.now) :: s.admitted else s.admitted
    summaries := s.summaries ++ summary.toList }

end State

theorem step_check (peer : Option IpAddr) : step L s (now, .check kind peer detail) =
    (State.makeRoom L { s with now := now } (kind, .fromIp peer)).enter L (L.place s.inner (kind, .fromIp peer) now)
      (.fromIp peer) detail := by
  simp only [State.makeRoom, State.enter, append_assoc]
  rfl

theorem reported_append (out out' : List Summary) : reported (out ++ out') = reported out + reported out' := by
  simp [reported]

structure Sound (L : LogLimiter) (s : State) : Prop where
  conserved : (s.checks : ℤ) = s.admitted.length + reported s.summaries + held s.inner.buckets
  bounded : s.inner.buckets.keys.countP (fun key => key.2 ≠ .overflow) ≤ L.maxTracked
  closed : 0 < L.window → ∀ e ∈ s.admitted,
    e.2 < (s.inner.buckets.lookup e.1).elim s.now (fun b => b.windowStart + L.window)
  counted : 0 < L.window → ∀ key b, s.inner.buckets.lookup key = some b →
    s.admitted.countP (fun e => e.1 = key ∧ b.windowStart ≤ e.2) ≤ b.logged
  fits : 0 < L.burst → ∀ key b, s.inner.buckets.lookup key = some b → b.logged ≤ L.burstOf key.1

theorem sound_init (L : LogLimiter) : Sound L {} := by
  constructor <;> simp [reported, held, weight]

theorem burstOf_pos (h : 0 < L.burst) : 0 < L.burstOf kind := by
  unfold LogLimiter.burstOf LogLimiter.auditBurst auditBurstFactor
  split_ifs <;> omega

section Keeps

variable (hs : Sound L s)
include hs

theorem Sound.later (ht : s.now ≤ t) : Sound L { s with now := t } where
  conserved := hs.conserved
  bounded := hs.bounded
  closed hw e he := by
    have hclosed := hs.closed hw e he
    cases hlook : s.inner.buckets.lookup e.1 with
    | none =>
      rw [hlook] at hclosed
      exact hclosed.trans_le ht
    | some b => rwa [hlook] at hclosed
  counted := hs.counted
  fits := hs.fits

theorem Sound.sweep : Sound L (s.sweep L) where
  conserved := by
    have hheld := held_sweep L s.inner s.now
    simp only [State.sweep, hs.conserved, reported_append]
    linarith
  bounded := keys_sweep_sublist.countP_le.trans hs.bounded
  closed hw e he := by
    have hclosed := hs.closed hw e he
    rw [State.sweep, lookup_sweep]
    cases hlook : s.inner.buckets.lookup e.1 with
    | none => rwa [hlook] at hclosed
    | some b =>
      rw [hlook] at hclosed
      cases hexp : L.expired s.now b with
      | false => simpa [Option.filter, hexp] using hclosed
      | true =>
        have hover : b.windowStart + L.window ≤ s.now := by
          have hle := of_decide_eq_true hexp
          omega
        simpa [Option.filter, hexp] using hclosed.trans_le hover
  counted hw key b hb := by
    rw [State.sweep, lookup_sweep, Option.filter_eq_some_iff] at hb
    exact hs.counted hw key b hb.1
  fits hburst key b hb := by
    rw [State.sweep, lookup_sweep, Option.filter_eq_some_iff] at hb
    exact hs.fits hburst key b hb.1

theorem Sound.makeRoom (key : Key) : Sound L (s.makeRoom L key) := by
  unfold State.makeRoom LogLimiter.makeRoom
  split_ifs
  · exact hs.sweep
  · simpa using hs

theorem Sound.entry_closed (hw : 0 < L.window) (he : e ∈ s.admitted) :
    e.2 < (s.inner.entry e.1 peer s.now).windowStart + L.window := by
  have hclosed := hs.closed hw e he
  rw [(entry_fields ..).1]
  cases hlook : s.inner.buckets.lookup e.1 with
  | none =>
    rw [hlook] at hclosed
    exact hclosed.trans_le (Nat.le_add_right _ _)
  | some b => rwa [hlook] at hclosed

theorem Sound.entry_counted (hw : 0 < L.window) (key : Key) (peer : PeerKey) :
    s.admitted.countP (fun e => e.1 = key ∧ (s.inner.entry key peer s.now).windowStart ≤ e.2) ≤
      (s.inner.entry key peer s.now).logged := by
  rw [(entry_fields ..).1, (entry_fields ..).2.1]
  cases hlook : s.inner.buckets.lookup key with
  | none =>
    refine (countP_eq_zero.mpr fun e he hin => ?_).le
    have hclosed := hs.closed hw e he
    obtain ⟨rfl, hle⟩ := of_decide_eq_true hin
    rw [hlook] at hclosed
    exact absurd hle (not_le.mpr hclosed)
  | some b => exact hs.counted hw key b hlook

theorem Sound.charged (hw : 0 < L.window) :
    let start := (L.charge key peer detail s.now (s.inner.entry key peer s.now)).1.windowStart
    (∀ e ∈ (s.enter L key peer detail).admitted, e.1 = key → e.2 < start + L.window) ∧
      (s.enter L key peer detail).admitted.countP (fun e => e.1 = key ∧ start ≤ e.2) ≤
        (L.charge key peer detail s.now (s.inner.entry key peer s.now)).1.logged := by
  have hclosed : ∀ e ∈ s.admitted, e.1 = key → e.2 < (s.inner.entry key peer s.now).windowStart + L.window := by
    rintro e he rfl
    exact hs.entry_closed hw he
  have hcounted := hs.entry_counted hw key peer
  obtain ⟨hexp, hpass, hstart, hlogged⟩ | ⟨hexp, hstart, hrest⟩ :=
    charge_cases L key peer detail s.now (s.inner.entry key peer s.now)
  all_goals
    simp only [LogLimiter.expired, decide_eq_true_eq, decide_eq_false_iff_not, hstart, State.enter] at hexp ⊢
  · -- The window is over, so no line of the bucket reaches the new one.
    have hnone : s.admitted.countP (fun e => e.1 = key ∧ s.now ≤ e.2) = 0 := by
      refine countP_eq_zero.mpr fun e he hin => ?_
      obtain ⟨hkey, hle⟩ := of_decide_eq_true hin
      have hlt := hclosed e he hkey
      omega
    rw [if_pos hpass]
    refine ⟨?_, ?_⟩
    · rintro e (_ | ⟨_, he⟩) hkey
      · exact Nat.lt_add_of_pos_right hw
      · have hlt := hclosed e he hkey
        omega
    · rw [countP_cons]
      split_ifs <;> omega
  · obtain ⟨-, hpass, hlogged⟩ | ⟨hpass, hlogged⟩ := hrest
    · rw [if_pos hpass]
      refine ⟨?_, ?_⟩
      · rintro e (_ | ⟨_, he⟩) hkey
        · omega
        · exact hclosed e he hkey
      · rw [countP_cons]
        split_ifs <;> omega
    · rw [hpass, hlogged]
      exact ⟨hclosed, hcounted⟩

theorem Sound.charged_fits (hburst : 0 < L.burst) :
    (L.charge key peer detail s.now (s.inner.entry key peer s.now)).1.logged ≤ L.burstOf key.1 := by
  obtain ⟨-, -, -, hlogged⟩ | ⟨-, -, ⟨hlt, -, hlogged⟩ | ⟨-, hlogged⟩⟩ :=
    charge_cases L key peer detail s.now (s.inner.entry key peer s.now)
  · rw [hlogged]
    exact burstOf_pos hburst
  · rw [hlogged]
    exact hlt
  · rw [hlogged, (entry_fields ..).2.1]
    cases hlook : s.inner.buckets.lookup key with
    | none => exact Nat.zero_le _
    | some b => exact hs.fits hburst key b hlook

theorem Sound.enter (hroom : key ∈ s.inner.buckets ∨ key.2 = .overflow ∨ s.inner.buckets.keys.length < L.maxTracked) :
    Sound L (s.enter L key peer detail) where
  conserved := by
    have hcharge := charge_suppressed L key peer detail s.now (s.inner.entry key peer s.now)
    have hinsert := weight_insert_add s.inner.buckets (fun _ b => (b.suppressed : ℤ)) key
      (L.charge key peer detail s.now (s.inner.entry key peer s.now)).1
    have hentry : weightAt s.inner.buckets (fun _ b => (b.suppressed : ℤ)) key =
        (s.inner.entry key peer s.now).suppressed := by
      rw [(entry_fields ..).2.2, weightAt]
      cases s.inner.buckets.lookup key <;> rfl
    have hconserved := hs.conserved
    simp only [State.enter, held, reported_append, Nat.cast_add, Nat.cast_one] at *
    split_ifs at hcharge ⊢ with hpass
    · simp only [length_cons, Nat.cast_add, Nat.cast_one]
      linarith
    · linarith
  bounded := countP_insert_le _ _ (by simpa using hroom) hs.bounded
  closed hw e he := by
    by_cases hkey : e.1 = key
    · subst hkey
      rw [State.enter, AList.lookup_insert]
      exact (hs.charged hw).1 e he rfl
    · rw [State.enter, AList.lookup_insert_ne hkey]
      rw [State.enter] at he
      dsimp only at he
      split_ifs at he
      · exact hs.closed hw e ((mem_cons.mp he).resolve_left fun heq => hkey (by rw [heq]))
      · exact hs.closed hw e he
  counted hw k b hb := by
    by_cases hkey : k = key
    · subst hkey
      rw [State.enter, AList.lookup_insert] at hb
      cases hb
      exact (hs.charged hw).2
    · rw [State.enter, AList.lookup_insert_ne hkey] at hb
      have hcounted := hs.counted hw k b hb
      unfold State.enter
      dsimp only
      split_ifs
      · rwa [countP_cons_of_neg (by simp [Ne.symm hkey])]
      · exact hcounted
  fits hburst k b hb := by
    by_cases hkey : k = key
    · rw [State.enter, hkey, AList.lookup_insert, Option.some_inj] at hb
      subst hb hkey
      exact hs.charged_fits hburst
    · rw [State.enter, AList.lookup_insert_ne hkey] at hb
      exact hs.fits hburst k b hb

theorem Sound.withinBurst (hburst : 0 < L.burst) : WithinBurst L s := by
  intro key b hb
  by_cases hw : 0 < L.window
  · refine le_trans (countP_mono_left ?_) ((hs.counted hw key b hb).trans (hs.fits hburst key b hb))
    simp +contextual
  · have hnone : admittedIn s L key b.windowStart = 0 := countP_eq_zero.mpr fun e _ hin => by simp at hin; omega
    rw [hnone]
    exact Nat.zero_le _

end Keeps

def Timely (s : State) (a : ℕ × Call) : Prop := s.now ≤ a.1

theorem Sound.step (hs : Sound L s) (ht : Timely s a) : Sound L (step L s a) := by
  obtain ⟨now, call⟩ := a
  have hlater := hs.later ht
  cases call with
  | flush => exact hlater.sweep
  | check kind peer detail =>
    rw [step_check]
    exact (hlater.makeRoom _).enter (place_room ..)

theorem rejections_accounted (L : LogLimiter) (calls : List (ℕ × Call)) (h : Along (step L) Timely {} calls) :
    let s := run (step L) {} calls
    (s.checks : ℤ) = s.admitted.length + reported s.summaries + held s.inner.buckets ∧
      (0 < L.burst → WithinBurst L s) ∧ s.inner.buckets.keys.countP (fun key => key.2 ≠ .overflow) ≤ L.maxTracked ∧
      ∀ kind, s.inner.buckets.keys.count (kind, .overflow) ≤ 1 := by
  have hs := h.invariant (Sound L) (fun s a hs ht => hs.step ht) (sound_init L)
  exact ⟨hs.conserved, hs.withinBurst, hs.bounded, fun kind => nodup_iff_count_le_one.mp (AList.keys_nodup _) _⟩

def denials : List (ℕ × Call) := [(0, .check "forbidden" none "alice"), (10, .check "forbidden" none "alice")]

theorem burst_exceeded : Along (step ⟨0, 10, 4096⟩) Timely {} denials ∧
    ¬ WithinBurst ⟨0, 10, 4096⟩ (run (step ⟨0, 10, 4096⟩) {} denials) := by
  refine ⟨by simp only [denials, Along, Timely]; decide, fun hwithin => ?_⟩
  have hle := hwithin ("forbidden", .none) ⟨10, 1, 0, [], ∅⟩ rfl
  exact absurd hle (by decide +kernel)

theorem rejections_accounted_denials : Along (step ⟨5, 10, 4096⟩) Timely {} denials ∧
    WithinBurst ⟨5, 10, 4096⟩ (run (step ⟨5, 10, 4096⟩) {} denials) := by
  have htimely : Along (step ⟨5, 10, 4096⟩) Timely {} denials := by
    simp only [denials, Along, Timely]
    decide
  exact ⟨htimely, (rejections_accounted _ _ htimely).2.1 (by decide)⟩

end U7s.LogLimit
