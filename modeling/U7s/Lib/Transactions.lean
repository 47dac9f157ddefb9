import U7s.Lib.Programs

/-! Programs that may give up with an error and keep a log of what they have taken, which is there to be handed
back. -/

namespace Programs

open Runs

variable {Op : Type} {Re : Op → Type} {ρ ε α γ : Type}

def Logged (Op : Type) (Re : Op → Type) (ρ ε α : Type) : Type := List ρ → Prog Op Re (List ρ × Except ε α)

namespace Logged

def bind (x : Logged Op Re ρ ε α) (f : α → Logged Op Re ρ ε γ) : Logged Op Re ρ ε γ := fun log =>
  (x log).bind (fun r =>
    match r.2 with
    | .ok a => f a r.1
    | .error e => .ret (r.1, .error e))

instance : Monad (Logged Op Re ρ ε) where
  pure a := fun log => .ret (log, .ok a)
  bind := bind

def request (o : Op) : Logged Op Re ρ ε (Re o) := fun log => .call o (fun r => .ret (log, .ok r))

def attempt (x : Except ε α) : Logged Op Re ρ ε α := fun log => .ret (log, x)

def fail (e : ε) : Logged Op Re ρ ε α := attempt (.error e)

def take (r : ρ) : Logged Op Re ρ ε Unit := fun log => .ret (log ++ [r], .ok ())

def handOver : Logged Op Re ρ ε (List ρ) := fun log => .ret ([], .ok log)

def Keeps (G : Trace Op Re → Op → Prop) (Q : Trace Op Re → List ρ → Except ε α → Prop) (h : Trace Op Re)
    (log : List ρ) (x : Logged Op Re ρ ε α) : Prop :=
  (x log).Keeps G (fun h r => Q h r.1 r.2) h

variable {G : Trace Op Re → Op → Prop} {Q : Trace Op Re → List ρ → Except ε α → Prop}
  {R : Trace Op Re → List ρ → Except ε γ → Prop}

theorem Keeps.bind (hx : Keeps G Q h log x) (hok : ∀ h log a, Q h log (.ok a) → Keeps G R h log (f a))
    (herr : ∀ h log e, Q h log (.error e) → R h log (.error e)) : Keeps G R h log (x >>= f) := by
  apply Prog.keeps_bind.mpr
  apply Prog.Keeps.mono hx (fun _ _ => id)
  rintro h ⟨log, e | a⟩ hr
  · exact herr h log e hr
  · exact hok h log a hr

theorem Keeps.mono (hx : Keeps G Q h log x) (hQ : ∀ h log r, Q h log r → Q' h log r) : Keeps G Q' h log x :=
  Prog.Keeps.mono hx (fun _ _ => id) (fun h r => hQ h r.1 r.2)

theorem keeps_request_bind (ho : G h o) (hf : ∀ r, Keeps G R (h ++ [⟨o, r⟩]) log (f r)) :
    Keeps G R h log (request o >>= f) :=
  ⟨ho, hf⟩

theorem keeps_take_bind (hf : Keeps G R h (log ++ [r]) (f ())) : Keeps G R h log (take r >>= f) := hf

end Logged

end Programs
