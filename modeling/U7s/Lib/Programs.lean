import U7s.Lib.Runs

/-! Requests as programs over a shared state: trees of calls, whose next call may depend on every reply so far.
Programs take turns call by call. -/

namespace Programs

open Runs

inductive Prog (Op : Type) (Re : Op → Type) (α : Type) where
  | ret (a : α)
  | call (o : Op) (k : Re o → Prog Op Re α)

abbrev Trace (Op : Type) (Re : Op → Type) := List (Σ o : Op, Re o)

variable {Op : Type} {Re : Op → Type} {α γ : Type}

namespace Prog

def bind (p : Prog Op Re α) (q : α → Prog Op Re γ) : Prog Op Re γ :=
  match p with
  | .ret a => q a
  | .call o k => .call o (fun r => (k r).bind q)

instance : Monad (Prog Op Re) where
  pure := .ret
  bind := bind

def perform (o : Op) : Prog Op Re (Re o) := .call o .ret

/-- Every call the program can still make meets `G`, and whatever it returns meets `Q`. -/
def Keeps (G : Trace Op Re → Op → Prop) (Q : Trace Op Re → α → Prop) :
    Trace Op Re → Prog Op Re α → Prop
  | h, .ret a => Q h a
  | h, .call o k => G h o ∧ ∀ r, Keeps G Q (h ++ [⟨o, r⟩]) (k r)

variable {G : Trace Op Re → Op → Prop} {Q : Trace Op Re → α → Prop} {R : Trace Op Re → γ → Prop}

@[simp] theorem keeps_bind {q : α → Prog Op Re γ} :
    (p >>= q).Keeps G R h ↔ p.Keeps G (fun h a => (q a).Keeps G R h) h := by
  induction p generalizing h with
  | ret a => exact Iff.rfl
  | call o k ih => exact and_congr_right (fun _ => forall_congr' (fun r => ih r))

theorem Keeps.mono {p : Prog Op Re α}
    (hp : p.Keeps G Q h) (hG : ∀ h o, G h o → G' h o) (hQ : ∀ h a, Q h a → Q' h a) : p.Keeps G' Q' h := by
  induction p generalizing h with
  | ret a => exact hQ h a hp
  | call o k ih => exact ⟨hG h o hp.1, fun r => ih r (hp.2 r)⟩

theorem keeps_congr {p : Prog Op Re α} (hQ : ∀ h a, Q h a ↔ Q' h a) : p.Keeps G Q h ↔ p.Keeps G Q' h :=
  ⟨fun hp => hp.mono (fun _ _ => id) (fun h a => (hQ h a).mp),
    fun hp => hp.mono (fun _ _ => id) (fun h a => (hQ h a).mpr)⟩

end Prog

abbrev Fallible (Op : Type) (Re : Op → Type) (ε α : Type) := ExceptT ε (Prog Op Re) α

namespace Fallible

variable {ε : Type}

def request (o : Op) : Fallible Op Re ε (Re o) := ExceptT.lift (Prog.perform o)

def attempt (x : Except ε α) : Fallible Op Re ε α := ExceptT.mk (.ret x)

def Keeps (G : Trace Op Re → Op → Prop) (Q : Trace Op Re → Except ε α → Prop) (h : Trace Op Re)
    (x : Fallible Op Re ε α) : Prop :=
  Prog.Keeps G Q h x.run

variable {G : Trace Op Re → Op → Prop} {Q : Trace Op Re → Except ε α → Prop}
  {R : Trace Op Re → Except ε γ → Prop}

def Then (G : Trace Op Re → Op → Prop) (R : Trace Op Re → Except ε γ → Prop)
    (f : α → Fallible Op Re ε γ) (h : Trace Op Re) : Except ε α → Prop
  | .ok a => Keeps G R h (f a)
  | .error e => R h (.error e)

@[simp] theorem keeps_bind {f : α → Fallible Op Re ε γ} :
    Keeps G R h (x >>= f) ↔ Keeps G (Then G R f) h x := by
  refine Prog.keeps_bind.trans (Prog.keeps_congr ?_)
  rintro h (e | a) <;> exact Iff.rfl

theorem keeps_ite {c : Prop} [Decidable c] (hx : c → Keeps G Q h x) (hy : ¬ c → Keeps G Q h y) :
    Keeps G Q h (if c then x else y) := by
  split
  · exact hx ‹c›
  · exact hy ‹¬ c›

theorem keeps_attempt_bind {f : α → Fallible Op Re ε γ} (herr : ∀ e, R h (.error e))
    (hf : ∀ a, x = .ok a → Keeps G R h (f a)) : Keeps G R h (attempt x >>= f) := by
  cases x with
  | error e => exact herr e
  | ok a => exact keeps_bind.mpr (hf a rfl)

theorem keeps_request_bind (ho : G h o) (hf : ∀ r, Keeps G R (h ++ [⟨o, r⟩]) (f r)) :
    Keeps G R h (request o >>= f) :=
  keeps_bind.mpr ⟨ho, hf⟩

theorem Keeps.bind (hx : Keeps G Q h x)
    (hok : ∀ h a, Q h (.ok a) → Keeps G R h (f a)) (herr : ∀ h e, Q h (.error e) → R h (.error e)) :
    Keeps G R h (x >>= f) := by
  refine keeps_bind.mpr (Prog.Keeps.mono hx (fun _ _ => id) ?_)
  rintro h (e | a) hr
  · exact herr h e hr
  · exact hok h a hr

def Safe (G : Trace Op Re → Op → Prop) (h : Trace Op Re) (x : Fallible Op Re ε α) : Prop :=
  Keeps G (fun _ _ => True) h x

theorem safe_pure : Safe G h (pure a : Fallible Op Re ε α) := trivial

theorem safe_throw : Safe G h (throw e : Fallible Op Re ε α) := trivial

theorem safe_ite {c : Prop} [Decidable c] (hx : c → Safe G h x) (hy : ¬ c → Safe G h y) :
    Safe G h (if c then x else y) := keeps_ite hx hy

theorem safe_attempt {f : α → Fallible Op Re ε γ} (hf : ∀ a, x = .ok a → Safe G h (f a)) : Safe G h (attempt x >>= f) :=
  keeps_attempt_bind (fun _ => trivial) hf

theorem safe_request (ho : G h o) (hf : ∀ r, Safe G (h ++ [⟨o, r⟩]) (f r)) : Safe G h (request o >>= f) :=
  keeps_request_bind ho hf

theorem Safe.bind (hx : Safe G h x) (hf : ∀ h a, Safe G h (f a)) : Safe G h (x >>= f) :=
  Keeps.bind hx (fun h a _ => hf h a) (fun _ _ _ => trivial)

end Fallible

structure Thread (Op : Type) (Re : Op → Type) (α : Type) where
  past : Trace Op Re
  rest : Prog Op Re α

structure World (σ Op : Type) (Re : Op → Type) (α : Type) where
  shared : σ
  threads : ℕ → Thread Op Re α

variable {σ φ : Type} (exec : σ → (o : Op) → φ → σ × Re o)

def Prog.eval (fates : ℕ → φ) : ℕ → σ → Prog Op Re α → σ × α
  | _, s, .ret a => (s, a)
  | n, s, .call o k => Prog.eval fates (n + 1) (exec s o (fates n)).1 (k (exec s o (fates n)).2)

variable {exec} in
theorem Prog.Keeps.eval {Q : Trace Op Re → α → Prop}
    {Inv : σ → Trace Op Re → Prop} (hstep : ∀ s h o f, Inv s h → G h o →
      Inv (exec s o f).1 (h ++ [⟨o, (exec s o f).2⟩])) (fates : ℕ → φ) (n : ℕ) (hp : p.Keeps G Q h)
    (hs : Inv s h) : ∃ h', Inv (Prog.eval exec fates n s p).1 h' ∧ Q h' (Prog.eval exec fates n s p).2 := by
  induction p generalizing h s n with
  | ret a => exact ⟨h, hs, hp⟩
  | call o k ih => exact ih _ (n + 1) (hp.2 _) (hstep s h o (fates n) hs hp.1)

namespace World

def step (w : World σ Op Re α) (a : ℕ × φ) : World σ Op Re α :=
  match (w.threads a.1).rest with
  | .ret _ => w
  | .call o k =>
    let r := exec w.shared o a.2
    { shared := r.1
      threads := Function.update w.threads a.1 ⟨(w.threads a.1).past ++ [⟨o, r.2⟩], k r.2⟩ }

/-- A request that arrives late is one whose first turn is late, and one that fails midway gets no further turn. -/
def start (s : σ) (ps : ℕ → Prog Op Re α) : World σ Op Re α := ⟨s, fun i => ⟨[], ps i⟩⟩

def past (w : World σ Op Re α) (i : ℕ) : Trace Op Re := (w.threads i).past

theorem step_ret (h : (w.threads a.1).rest = .ret x) : step exec w a = w := by
  simp [step, h]

theorem step_call (h : (w.threads a.1).rest = .call o k) :
    (step exec w a).shared = (exec w.shared o a.2).1 ∧
      (step exec w a).past =
        Function.update w.past a.1 (w.past a.1 ++ [⟨o, (exec w.shared o a.2).2⟩]) ∧
      (step exec w a).threads a.1 =
        ⟨w.past a.1 ++ [⟨o, (exec w.shared o a.2).2⟩], k (exec w.shared o a.2).2⟩ ∧
      ∀ j, j ≠ a.1 → (step exec w a).threads j = w.threads j := by
  have hs : step exec w a = ⟨(exec w.shared o a.2).1, Function.update w.threads a.1
      ⟨w.past a.1 ++ [⟨o, (exec w.shared o a.2).2⟩], k (exec w.shared o a.2).2⟩⟩ := by
    simp only [step, h, past]
  rw [hs]
  refine ⟨rfl, ?_, Function.update_self .., fun j hj => Function.update_of_ne hj ..⟩
  funext j
  by_cases hj : j = a.1
  · subst hj
    simp [past]
  · simp [past, Function.update_of_ne hj]

theorem run_past_of_notMem (hi : i ∉ as.map Prod.fst) : (run (step exec) w as).past i = w.past i := by
  induction as generalizing w with
  | nil => rfl
  | cons a as ih =>
    have hne : i ≠ a.1 := List.ne_of_not_mem_cons hi
    rw [run_cons, ih (List.not_mem_of_not_mem_cons hi)]
    cases hr : (w.threads a.1).rest with
    | ret x => rw [step_ret exec hr]
    | call o k => rw [(step_call exec hr).2.1, Function.update_of_ne hne]

def Kept (G : ℕ → Trace Op Re → Op → Prop) (w : World σ Op Re α) : Prop :=
  ∀ i, (w.threads i).rest.Keeps (G i) (fun _ _ => True) (w.past i)

variable {exec} {G : ℕ → Trace Op Re → Op → Prop}

theorem Kept.step (hw : w.Kept G) (a : ℕ × φ) : (World.step exec w a).Kept G := by
  cases hr : (w.threads a.1).rest with
  | ret x => rwa [step_ret exec hr]
  | call o k =>
    obtain ⟨-, hp, hself, hother⟩ := step_call exec hr
    intro j
    by_cases hj : j = a.1
    · subst hj
      have hk := hw a.1
      rw [hr] at hk
      rw [hself, hp, Function.update_self]
      exact hk.2 _
    · rw [hother j hj, hp, Function.update_of_ne hj]
      exact hw j

def Preserves (exec : σ → (o : Op) → φ → σ × Re o) (G : ℕ → Trace Op Re → Op → Prop)
    (C : World σ Op Re α → ℕ × φ → Prop) (Inv : σ → (ℕ → Trace Op Re) → Prop) : Prop :=
  ∀ (w : World σ Op Re α) (i : ℕ) (f : φ) (o : Op) (k : Re o → Prog Op Re α),
    (w.threads i).rest = .call o k → Inv w.shared w.past → G i (w.past i) o → C w (i, f) →
    Inv (exec w.shared o f).1
      (Function.update w.past i (w.past i ++ [⟨o, (exec w.shared o f).2⟩]))

variable {C : World σ Op Re α → ℕ × φ → Prop} {Inv : σ → (ℕ → Trace Op Re) → Prop}

theorem Preserves.step (h : Preserves exec G C Inv) (hw : w.Kept G) (hi : Inv w.shared w.past) (hC : C w a) :
    Inv (World.step exec w a).shared (World.step exec w a).past := by
  cases hr : (w.threads a.1).rest with
  | ret x => rwa [step_ret exec hr]
  | call o k =>
    obtain ⟨hs, hp, -, -⟩ := step_call exec hr
    rw [hs, hp]
    have hk := hw a.1
    rw [hr] at hk
    exact h w a.1 a.2 o k hr hi hk.1 hC

theorem kept_start {s : σ} {ps : ℕ → Prog Op Re α}
    (h : ∀ i, (ps i).Keeps (G i) (fun _ _ => True) []) : (start s ps).Kept G := h

theorem Preserves.run (h : Preserves exec G C Inv) (hw : w.Kept G) (hi : Inv w.shared w.past)
    (hC : Along (World.step exec) C w as) :
    (run (World.step exec) w as).Kept G ∧
      Inv (run (World.step exec) w as).shared (run (World.step exec) w as).past :=
  hC.invariant (fun w => w.Kept G ∧ Inv w.shared w.past)
    (fun _ a hs ha => ⟨hs.1.step a, h.step hs.1 hs.2 ha⟩) ⟨hw, hi⟩

theorem Preserves.along (h : Preserves exec G C Inv) (hret : ∀ w a, World.step exec w a = w → P w a)
    (hcall : ∀ (w : World σ Op Re α) (i : ℕ) (f : φ) (o : Op) (k : Re o → Prog Op Re α),
      (w.threads i).rest = .call o k → Inv w.shared w.past → G i (w.past i) o → C w (i, f) →
      P w (i, f)) (hw : w.Kept G) (hi : Inv w.shared w.past) (hC : Along (World.step exec) C w as) :
    Along (World.step exec) P w as := by
  induction as generalizing w with
  | nil => trivial
  | cons a as ih =>
    refine ⟨?_, ih (hw.step a) (h.step hw hi hC.1) hC.2⟩
    cases hr : (w.threads a.1).rest with
    | ret x => exact hret w a (step_ret exec hr)
    | call o k =>
      have hk := hw a.1
      rw [hr] at hk
      exact hcall w a.1 a.2 o k hr hi hk.1 hC.1

end World

end Programs
