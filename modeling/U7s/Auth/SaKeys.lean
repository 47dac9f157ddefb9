import U7s.Lib.Runs

/-! The keys that sign service account tokens. Durations are in milliseconds, the clock in seconds. -/

namespace U7s.SaKeys

open Runs List

def asSecs (duration : ℕ) : ℤ := (duration / 1000 : ℕ)

structure RotationPolicy where
  rotateAfter : ℕ
  prepublish : ℕ
  maxTokenLifetime : ℕ
  retireMargin : ℕ

def RotationPolicy.retireAfter (p : RotationPolicy) : ℤ := asSecs (p.maxTokenLifetime + p.retireMargin)

def RotationPolicy.validate (p : RotationPolicy) : Bool := p.prepublish < p.rotateAfter

structure KeyEntry where
  kid : ℕ
  signFrom : ℤ
deriving DecidableEq

structure Snapshot where
  signerKid : Option ℕ
  verify : List ℕ

/-- `persist` may fail before or after it has replaced the key file. -/
inductive Fate where
  | ok | before | after
deriving DecidableEq

structure Ring where
  keys : List KeyEntry
  snapshot : Snapshot
  ticked : ℤ

structure Token where
  kid : ℕ
  signedAt : ℤ
  exp : ℤ

structure Past where
  tokens : List Token := []
  /-- The key that was made when there was no file. -/
  first : Option ℕ := none
  /-- The keys that were offered for verification, and when. -/
  offered : List (ℤ × List ℕ) := []

structure State where
  now : ℤ
  file : Option (List KeyEntry) := none
  ring : Option Ring := none
  past : Past := {}

inductive Act where
  | start (kid successor : ℕ) (fate tickFate : Fate)
  | tick (successor : ℕ) (fate : Fate)
  | sign (lifetime : ℤ)
  | crash
deriving DecidableEq

def Act.lifetime : Act → ℤ
  | .sign lifetime => lifetime
  | _ => 0

def dropRetired (retireAfter now : ℤ) : List KeyEntry → List KeyEntry
  | k :: l :: keys => if l.signFrom + retireAfter ≤ now then dropRetired retireAfter now (l :: keys) else k :: l :: keys
  | keys => keys

def plan (p : RotationPolicy) (now : ℤ) (successor : ℕ) (keys : List KeyEntry) : List KeyEntry × Bool :=
  let kept := dropRetired p.retireAfter now keys
  let newest := (kept.getLast?.map KeyEntry.signFrom).getD now
  if newest + asSecs p.rotateAfter - asSecs p.prepublish ≤ now then
    (kept ++ [⟨successor, max (newest + asSecs p.rotateAfter) (now + asSecs p.prepublish)⟩], true)
  else (kept, kept.length ≠ keys.length)

def buildSnapshot (keys : List KeyEntry) (now : ℤ) : Snapshot where
  signerKid := ((keys.reverse.find? (fun k => k.signFrom ≤ now)).or keys.head?).map KeyEntry.kid
  verify := keys.map KeyEntry.kid

def Past.offer (h : Past) (now : ℤ) (keys : List KeyEntry) : Past :=
  { h with offered := (now, keys.map KeyEntry.kid) :: h.offered }

variable (p : RotationPolicy)

/-- `tick` with `keys` in memory, and whether it succeeds. -/
def State.tick (s : State) (keys : List KeyEntry) (successor : ℕ) (fate : Fate) : State × Bool :=
  let (next, changed) := plan p s.now successor keys
  if changed ∧ fate ≠ .ok then ({ s with file := if fate = .after then some next else s.file }, false)
  else
    ({ s with
        file := if changed then some next else s.file
        ring := some ⟨next, buildSnapshot next s.now, s.now⟩
        past := s.past.offer s.now next }, true)

def State.start (s : State) (kid successor : ℕ) (fate tickFate : Fate) : State :=
  match s.file with
  | some keys =>
    if keys ≠ [] ∧ keys.IsChain (fun a b => a.signFrom < b.signFrom) then (s.tick p keys successor tickFate).1 else s
  | none =>
    let made := { s with file := some [⟨kid, s.now⟩], past := { s.past with first := some kid } }
    match fate with
    | .before => s
    | .after => made
    | .ok => (State.tick p made [⟨kid, s.now⟩] successor tickFate).1

def State.act (s : State) : Act → State
  | .start kid successor fate tickFate => if s.ring.isSome then s else s.start p kid successor fate tickFate
  | .tick successor fate =>
    match s.ring with
    | none => s
    | some r =>
      let (s', ok) := s.tick p r.keys successor fate
      if ok then s' else { s' with ring := some { r with ticked := s.now } }
  | .sign lifetime =>
    match s.ring.bind (fun r => r.snapshot.signerKid) with
    | none => s
    | some kid => { s with past := { s.past with tokens := ⟨kid, s.now, s.now + lifetime⟩ :: s.past.tokens } }
  | .crash => { s with ring := none }

def State.step (s : State) (a : ℤ × Act) : State := State.act p { s with now := a.1 } a.2

/-- Ticks are never further apart than the margin, and tokens do not live too long. -/
def State.Timely (s : State) (a : ℤ × Act) : Prop :=
  s.now ≤ a.1 ∧ (∀ r ∈ s.ring, a.1 ≤ r.ticked + asSecs p.retireMargin) ∧
    a.2.lifetime ≤ asSecs p.maxTokenLifetime

instance : Decidable (State.Timely p s a) := inferInstanceAs (Decidable (_ ∧ _ ∧ _))

/-- The process never ends with a newer list in the file than in memory. -/
def State.InStep (s : State) (a : Act) : Prop :=
  (a = .crash → ∀ r ∈ s.ring, s.file = some r.keys) ∧
    match a with
    | .start _ _ _ tickFate => tickFate ≠ .after
    | _ => True

/-- A key is retired before its successor's successor is due. -/
structure RotationPolicy.Ample : Prop where
  whole : 1000 ∣ p.prepublish
  shorter : asSecs p.prepublish < asSecs p.rotateAfter
  retired : p.retireAfter ≤ asSecs p.rotateAfter - asSecs p.prepublish

variable {p} {s : State} {keys : List KeyEntry}

theorem asSecs_nonneg (d : ℕ) : 0 ≤ asSecs d := Int.natCast_nonneg _

theorem RotationPolicy.retireAfter_ge (p : RotationPolicy) :
    asSecs p.maxTokenLifetime + asSecs p.retireMargin ≤ p.retireAfter := by
  simp only [RotationPolicy.retireAfter, asSecs]
  omega

/-- What `k` and its successor, if there is one, have to do with the tokens. -/
structure Held (p : RotationPolicy) (now : ℤ) (h : Past) (k : KeyEntry) (l : Option KeyEntry) : Prop where
  begun : k.signFrom ≤ now
  spaced : ∀ x ∈ l, k.signFrom + asSecs p.rotateAfter ≤ x.signFrom
  short : ∀ t ∈ h.tokens, t.exp ≤ now + asSecs p.maxTokenLifetime
  covered : ∀ t ∈ h.tokens, now < t.exp →
    (∃ x ∈ l, t.kid = x.kid) ∨ t.kid = k.kid ∧ ∀ x ∈ l, t.exp ≤ x.signFrom + p.retireAfter
  offered : ∀ x ∈ k :: l.toList, x.kid ∈ h.first ∨
    ∃ e ∈ h.offered, x.kid ∈ e.2 ∧ e.1 + asSecs p.prepublish ≤ x.signFrom

theorem Held.offer (h : Held p now past k l) (keys : List KeyEntry) : Held p now (past.offer now keys) k l :=
  ⟨h.begun, h.spaced, h.short, h.covered, fun x hx => (h.offered x hx).imp_right
    (fun ⟨e, he, hx⟩ => ⟨e, mem_cons_of_mem _ he, hx⟩)⟩

theorem Held.retire (h : Held p now past k (some x)) (hr : x.signFrom + p.retireAfter ≤ now) :
    Held p now past x none := by
  refine ⟨?_, nofun, h.short, fun t ht hlive => ?_, fun y hy => h.offered y (mem_cons_of_mem _ hy)⟩
  · have := asSecs_nonneg (p.maxTokenLifetime + p.retireMargin)
    simp only [RotationPolicy.retireAfter] at hr
    omega
  · obtain ⟨_, ⟨⟩, hkid⟩ | ⟨-, hexp⟩ := h.covered t ht hlive
    · exact .inr ⟨hkid, nofun⟩
    · have := hexp x rfl
      omega

theorem Held.push (h : Held p now past k none) (hspaced : k.signFrom + asSecs p.rotateAfter ≤ x.signFrom)
    (hpre : now + asSecs p.prepublish ≤ x.signFrom) : Held p now (past.offer now [k, x]) k (some x) := by
  refine ⟨h.begun, ?_, h.short, fun t ht hlive => ?_, fun y hy => ?_⟩
  · rintro _ ⟨⟩
    exact hspaced
  · obtain ⟨_, ⟨⟩, -⟩ | ⟨hkid, -⟩ := h.covered t ht hlive
    refine .inr ⟨hkid, ?_⟩
    rintro _ ⟨⟩
    have := h.short t ht
    have := p.retireAfter_ge
    have := asSecs_nonneg p.prepublish
    have := asSecs_nonneg p.retireMargin
    omega
  · obtain rfl | rfl : y = k ∨ y = x := by simpa using hy
    · exact (h.offer [y, x]).offered y mem_cons_self
    · exact .inr ⟨_, mem_cons_self, by simp, hpre⟩

theorem Held.plan (hp : p.Ample) (h : Held p now past k l) (kid : ℕ) :
    ∃ k' l' changed, SaKeys.plan p now kid (k :: l.toList) = (k' :: l'.toList, changed) ∧
      Held p now (past.offer now (k' :: l'.toList)) k' l' ∧
      (changed → ∀ x ∈ l, x.signFrom + p.retireAfter ≤ now) := by
  have := hp.retired
  cases l with
  | none =>
    by_cases hd : k.signFrom + asSecs p.rotateAfter - asSecs p.prepublish ≤ now
    · exact ⟨k, some ⟨kid, _⟩, true, by simp [SaKeys.plan, dropRetired, hd],
        h.push (le_max_left _ _) (le_max_right _ _), fun _ => nofun⟩
    · exact ⟨k, none, false, by simp [SaKeys.plan, dropRetired, hd], h.offer _, nofun⟩
  | some x =>
    by_cases hr : x.signFrom + p.retireAfter ≤ now
    · have hx : true → ∀ y ∈ some x, y.signFrom + p.retireAfter ≤ now := fun _ y hy => by cases hy; exact hr
      by_cases hd : x.signFrom + asSecs p.rotateAfter - asSecs p.prepublish ≤ now
      · exact ⟨x, some ⟨kid, _⟩, true, by simp [SaKeys.plan, dropRetired, hr, hd],
          (h.retire hr).push (le_max_left _ _) (le_max_right _ _), hx⟩
      · exact ⟨x, none, true, by simp [SaKeys.plan, dropRetired, hr, hd], (h.retire hr).offer _, hx⟩
    · have hd : ¬ x.signFrom + asSecs p.rotateAfter - asSecs p.prepublish ≤ now := by omega
      exact ⟨k, some x, false, by simp [SaKeys.plan, dropRetired, hr, hd], h.offer _, nofun⟩

/-- A key signs until the first tick that finds its successor due. -/
def Ring.Good (p : RotationPolicy) (now : ℤ) (past : Past) (r : Ring) : Prop :=
  ∃ k l, r.keys = k :: l.toList ∧ r.snapshot.verify = r.keys.map KeyEntry.kid ∧ Held p now past k l ∧
    ((∃ x ∈ l, r.snapshot.signerKid = some x.kid ∧ x.signFrom ≤ now) ∨
      r.snapshot.signerKid = some k.kid ∧ ∀ x ∈ l, r.ticked < x.signFrom)

structure Sound (p : RotationPolicy) (s : State) : Prop where
  up : ∀ r ∈ s.ring, r.Good p s.now s.past
  down : s.ring = none → ∀ keys ∈ s.file, ∃ k l, keys = k :: l.toList ∧ Held p s.now s.past k l
  fresh : s.ring = none → s.file = none → s.past.tokens = []
  signed : ∀ t ∈ s.past.tokens, t.kid ∈ s.past.first ∨
    ∃ e ∈ s.past.offered, t.kid ∈ e.2 ∧ p.prepublish ≤ 1000 * (t.signedAt - e.1)

theorem good_ticked (h : Held p now past k l) :
    Ring.Good p now past ⟨k :: l.toList, buildSnapshot (k :: l.toList) now, now⟩ := by
  refine ⟨k, l, rfl, rfl, h, ?_⟩
  cases l with
  | none => exact .inr ⟨by simp [buildSnapshot, h.begun], nofun⟩
  | some x =>
    by_cases hx : x.signFrom ≤ now
    · exact .inl ⟨x, rfl, by simp [buildSnapshot, hx], hx⟩
    · exact .inr ⟨by simp [buildSnapshot, hx, h.begun], by simpa using hx⟩

theorem Sound.ticked (hs : Sound p s) (h : Held p s.now (s.past.offer s.now (k :: l.toList)) k l) :
    Sound p { s with
      file := f, ring := some ⟨k :: l.toList, buildSnapshot (k :: l.toList) s.now, s.now⟩
      past := s.past.offer s.now (k :: l.toList) } := by
  refine ⟨?_, nofun, nofun, fun t ht => ?_⟩
  · rintro _ ⟨⟩
    exact good_ticked h
  · exact (hs.signed t ht).imp_right (fun ⟨e, he, h⟩ => ⟨e, mem_cons_of_mem _ he, h⟩)

theorem Sound.start (hp : p.Ample) (hs : Sound p s) (hdown : s.ring = none) (hfile : s.file = some keys)
    (hf : fate ≠ .after) : Sound p (s.tick p keys kid fate).1 := by
  obtain ⟨k, l, rfl, h⟩ := hs.down hdown keys hfile
  obtain ⟨k', l', changed, hn, h', -⟩ := h.plan hp kid
  simp only [State.tick, hn]
  split_ifs
  · exact hs
  · exact hs.ticked h'
  · exact hs.ticked h'

theorem Sound.tick (hp : p.Ample) (hs : Sound p s) (hr : s.ring = some r)
    (hgap : s.now ≤ r.ticked + asSecs p.retireMargin) : Sound p (s.act p (.tick kid fate)) := by
  obtain ⟨k, l, hkeys, hv, h, hsig⟩ := hs.up r hr
  obtain ⟨keys, snapshot, ticked⟩ := r
  obtain rfl : keys = k :: l.toList := hkeys
  obtain ⟨k', l', changed, hn, h', hdue⟩ := h.plan hp kid
  simp only [State.act, hr, State.tick, hn]
  by_cases hfail : changed ∧ fate ≠ .ok
  · simp only [if_pos hfail]
    refine ⟨?_, nofun, nofun, hs.signed⟩
    rintro _ ⟨⟩
    refine ⟨k, l, rfl, hv, h, hsig.imp_right (fun ⟨hk, hl⟩ => ⟨hk, fun x hx => ?_⟩)⟩
    -- the last tick was less than the margin ago, and had found the successor due
    have := hdue hfail.1 x hx
    have := hl x hx
    have := p.retireAfter_ge
    have := asSecs_nonneg p.maxTokenLifetime
    omega
  · simp only [if_neg hfail]
    exact hs.ticked h'

theorem Sound.sign (hp : p.Ample) (hs : Sound p s) (hr : s.ring = some r)
    (hgap : s.now ≤ r.ticked + asSecs p.retireMargin) (hlife : lifetime ≤ asSecs p.maxTokenLifetime) :
    Sound p (s.act p (.sign lifetime)) := by
  obtain ⟨k, l, hkeys, hv, h, hsig⟩ := hs.up r hr
  obtain ⟨y, hy, hkid, hbegun, hcov⟩ : ∃ y ∈ k :: l.toList, r.snapshot.signerKid = some y.kid ∧ y.signFrom ≤ s.now ∧
      ((∃ x ∈ l, y.kid = x.kid) ∨ y.kid = k.kid ∧ ∀ x ∈ l, s.now + lifetime ≤ x.signFrom + p.retireAfter) := by
    obtain ⟨x, hx, hkid, hb⟩ | ⟨hkid, hl⟩ := hsig
    · exact ⟨x, by simp [Option.mem_def.mp hx], hkid, hb, .inl ⟨x, hx, rfl⟩⟩
    · refine ⟨k, mem_cons_self, hkid, h.begun, .inr ⟨rfl, fun x hx => ?_⟩⟩
      have := hl x hx
      have := p.retireAfter_ge
      omega
  simp only [State.act, hr, Option.bind_some, hkid]
  refine ⟨?_, nofun, nofun, forall_mem_cons.mpr ⟨?_, hs.signed⟩⟩
  · rintro _ ⟨⟩
    refine ⟨k, l, hkeys, hv, ⟨h.begun, h.spaced, forall_mem_cons.mpr ⟨?_, h.short⟩,
      forall_mem_cons.mpr ⟨fun _ => hcov, h.covered⟩, h.offered⟩, hsig⟩
    simpa using hlife
  · refine (h.offered y hy).imp_right ?_
    rintro ⟨e, he, hmem, hle⟩
    refine ⟨e, he, hmem, ?_⟩
    have := hp.whole
    simp only [asSecs] at hle ⊢
    omega

theorem Sound.act (hp : p.Ample) (hs : Sound p s) (ht : s.Timely p (s.now, a)) (hi : s.InStep a) :
    Sound p (s.act p a) := by
  obtain ⟨-, hgap, hlife⟩ := ht
  cases hr : s.ring with
  | none =>
    cases a with
    | start kid successor fate tickFate =>
      simp only [State.act, hr, Option.isSome_none, State.start]
      cases hfile : s.file with
      | some keys =>
        simp only [Bool.false_eq_true, if_false]
        split_ifs
        · exact hs.start hp hr hfile hi.2
        · exact hs
      | none =>
        have htokens := hs.fresh hr hfile
        have hmade : Sound p { s with
            file := some [⟨kid, s.now⟩], ring := none, past := { s.past with first := some kid } } := by
          refine ⟨nofun, ?_, nofun, by simp [htokens]⟩
          rintro - _ ⟨⟩
          exact ⟨⟨kid, s.now⟩, none, rfl, le_rfl, nofun, by simp [htokens], by simp [htokens], by simp⟩
        cases fate with
        | before => exact hs
        | after => exact hmade
        | ok => exact hmade.start hp rfl rfl hi.2
    | crash =>
      rw [State.act, ← hr]
      exact hs
    | _ => simpa [State.act, hr] using hs
  | some r =>
    cases a with
    | start => simpa [State.act, hr] using hs
    | tick => exact hs.tick hp hr (hgap r hr)
    | sign => exact hs.sign hp hr (hgap r hr) hlife
    | crash =>
      refine ⟨nofun, fun _ keys hkeys => ?_, fun _ hnone => ?_, hs.signed⟩
      · obtain rfl := Option.some.inj ((hi.1 rfl r hr).symm.trans hkeys)
        obtain ⟨k, l, hkeys, -, h, -⟩ := hs.up r hr
        exact ⟨k, l, hkeys, h⟩
      · cases (hi.1 rfl r hr).symm.trans hnone

theorem Sound.later (hs : Sound p s) (ht : s.now ≤ t) : Sound p { s with now := t } := by
  have hheld : ∀ k l, Held p s.now s.past k l → Held p t s.past k l := fun k l h =>
    ⟨h.begun.trans ht, h.spaced, fun x hx => (h.short x hx).trans (by omega),
      fun x hx hl => h.covered x hx (ht.trans_lt hl), h.offered⟩
  refine ⟨fun r hr => ?_, fun hr keys hk => ?_, hs.fresh, hs.signed⟩
  · obtain ⟨k, l, hkeys, hv, h, hsig⟩ := hs.up r hr
    exact ⟨k, l, hkeys, hv, hheld k l h, hsig.imp_left (fun ⟨x, hx, hkid, hb⟩ => ⟨x, hx, hkid, hb.trans ht⟩)⟩
  · obtain ⟨k, l, hkeys, h⟩ := hs.down hr keys hk
    exact ⟨k, l, hkeys, hheld k l h⟩

theorem tokens_outlive_rotation (p : RotationPolicy) (hp : p.Ample) (now : ℤ) (as : List (ℤ × Act))
    (hC : Along (State.step p) (fun s a => s.Timely p a ∧ s.InStep a.2) ⟨now, none, none, {}⟩ as) :
    let s := run (State.step p) ⟨now, none, none, {}⟩ as
    (∀ r ∈ s.ring, (∀ t ∈ s.past.tokens, s.now < t.exp → t.kid ∈ r.snapshot.verify) ∧
      r.keys ≠ [] ∧ r.keys.IsChain (fun a b => a.signFrom < b.signFrom)) ∧
    ∀ t ∈ s.past.tokens, t.kid ∈ s.past.first ∨
      ∃ e ∈ s.past.offered, t.kid ∈ e.2 ∧ p.prepublish ≤ 1000 * (t.signedAt - e.1) := by
  intro s
  have hs : Sound p s := by
    refine hC.invariant (Sound p) (fun s a hs h => ?_) ⟨nofun, fun _ => nofun, fun _ _ => rfl, nofun⟩
    exact (hs.later h.1.1).act hp ⟨le_rfl, h.1.2⟩ h.2
  refine ⟨fun r hr => ?_, hs.signed⟩
  obtain ⟨k, l, hkeys, hv, h, -⟩ := hs.up r hr
  rw [hv, hkeys]
  refine ⟨fun t ht hlive => ?_, by simp, ?_⟩
  · obtain ⟨x, hx, hkid⟩ | ⟨hkid, -⟩ := h.covered t ht hlive
    · simp [Option.mem_def.mp hx, hkid]
    · simp [hkid]
  · have := hp.shorter
    have := asSecs_nonneg p.prepublish
    cases l with
    | none => simp
    | some x =>
      have := h.spaced x rfl
      simp
      omega

def hasty : RotationPolicy := ⟨12000, 2000, 4000, 2000⟩

def overtaken : List (ℤ × Act) :=
  (0, .start 0 1 .ok .ok) :: [2, 4, 6, 8].map (fun now => (now, .tick 1 .ok)) ++ (10, .tick 1 .after) ::
    [12, 14, 16, 18].map (fun now => (now, .tick 2 .before)) ++ [(18, .sign 4), (18, .crash), (19, .start 3 4 .ok .ok)]

theorem live_token_rejected : hasty.validate ∧ Along (State.step hasty) (State.Timely hasty) ⟨0, none, none, {}⟩ overtaken ∧
    (let s := run (State.step hasty) ⟨0, none, none, {}⟩ overtaken
    ∃ r ∈ s.ring, ∃ t ∈ s.past.tokens, s.now < t.exp ∧ t.kid ∉ r.snapshot.verify) := by
  refine ⟨rfl, by decide +kernel, _, rfl, _, mem_cons_self, ?_⟩
  decide +kernel

def restarted : List (ℤ × Act) :=
  [(0, .start 0 1 .ok .ok), (1, .tick 1 .ok), (2, .sign 4), (3, .crash), (4, .start 2 1 .ok .ok)]

theorem tokens_outlive_restart :
    Along (State.step hasty) (fun s a => s.Timely hasty a ∧ s.InStep a.2) ⟨0, none, none, {}⟩ restarted ∧
      (let s := run (State.step hasty) ⟨0, none, none, {}⟩ restarted
      ∀ r ∈ s.ring, ∀ t ∈ s.past.tokens, s.now < t.exp → t.kid ∈ r.snapshot.verify) := by
  have htimely : Along (State.step hasty) (State.Timely hasty) ⟨0, none, none, {}⟩ restarted := by decide +kernel
  have hsteps : Along (State.step hasty) (fun s a => s.InStep a.2) ⟨0, none, none, {}⟩ restarted := by
    refine ⟨⟨nofun, nofun⟩, ⟨nofun, trivial⟩, ⟨nofun, trivial⟩, ⟨fun _ r hr => ?_, trivial⟩, ⟨nofun, nofun⟩, trivial⟩
    cases hr
    rfl
  have hboth := htimely.and hsteps
  exact ⟨hboth, fun r hr => ((tokens_outlive_rotation hasty ⟨by decide, by decide, by decide⟩ 0 restarted hboth).1 r hr).1⟩

end U7s.SaKeys
