import Mathlib

/-! Computations that draw on a budget; one that would overdraw is refused. -/

abbrev Metered (ε : Type) := StateT ℕ (Except ε)

namespace Metered

variable {ε α β γ : Type}

def charge (refusal : ε) (units : ℕ) : Metered ε Unit := fun left =>
  if units ≤ left then .ok ((), left - units) else .error refusal

theorem bind_eq_ok {f : α → Metered ε β} :
    (x >>= f) left = .ok r ↔ ∃ a left', x left = .ok (a, left') ∧ f a left' = .ok r := by
  change (x left >>= fun p => f p.1 p.2) = .ok r ↔ _
  cases x left with
  | error e => simp [bind, Except.bind]
  | ok p =>
    obtain ⟨a, left'⟩ := p
    simp [bind, Except.bind]

@[simp] theorem pure_eq_ok : (pure a : Metered ε α) left = .ok r ↔ (a, left) = r := by
  change Except.ok (a, left) = .ok r ↔ _
  simp

@[simp] theorem throw_ne_ok : ¬(throw e : Metered ε α) left = .ok r := by
  change ¬Except.error e = .ok r
  simp

theorem charge_eq_ok (h : charge refusal units left = .ok r) : units ≤ left ∧ r = ((), left - units) := by
  unfold charge at h
  split_ifs at h with hle
  cases h
  exact ⟨hle, rfl⟩

section Ensuring

def Ensures (x : Metered ε α) (P : α → Prop) : Prop := ∀ left r, x left = .ok r → P r.1

variable {P : α → Prop} {Q : β → Prop}

theorem ensures_pure (h : P a) : Ensures (pure a : Metered ε α) P := by
  intro left r hr
  cases pure_eq_ok.mp hr
  exact h

theorem ensures_throw (e : ε) : Ensures (throw e : Metered ε α) P := fun _ _ h => absurd h throw_ne_ok

theorem ensures_true (x : Metered ε α) : Ensures x (fun _ => True) := fun _ _ _ => trivial

theorem Ensures.bind {f : α → Metered ε β} (hx : Ensures x P)
    (hf : ∀ a, P a → Ensures (f a) Q) : Ensures (x >>= f) Q := by
  intro left r hr
  obtain ⟨a, left', ha, hr⟩ := bind_eq_ok.mp hr
  exact hf a (hx left _ ha) left' r hr

theorem ensures_bind (hf : ∀ a, Ensures (f a) Q) : Ensures (x >>= f) Q :=
  (ensures_true x).bind (fun a _ => hf a)

def EnsuresAt (left : ℕ) (x : Metered ε α) (P : α → Prop) : Prop := ∀ r, x left = .ok r → P r.1

theorem Ensures.at (h : Ensures x P) (left : ℕ) : EnsuresAt left x P := h left

theorem ensuresAt_pure (h : P a) : EnsuresAt left (pure a : Metered ε α) P := (ensures_pure h).at left

theorem ensuresAt_throw (e : ε) : EnsuresAt left (throw e : Metered ε α) P := (ensures_throw e).at left

theorem EnsuresAt.bind {f : α → Metered ε β} (hx : EnsuresAt left x P)
    (hf : ∀ a left', x left = .ok (a, left') → P a → EnsuresAt left' (f a) Q) : EnsuresAt left (x >>= f) Q := by
  intro r hr
  obtain ⟨a, left', ha, hr⟩ := bind_eq_ok.mp hr
  exact hf a left' ha (hx _ ha) r hr

/-- What `f` says of a result and the rest of the budget. -/
def upon (x : Metered ε α) (left : ℕ) (f : α → ℕ → List β) : List β :=
  match x left with
  | .ok r => f r.1 r.2
  | .error _ => []

theorem upon_eq {f : α → ℕ → List β} (h : x left = .ok (a, left')) : upon x left f = f a left' := by
  rw [upon, h]

end Ensuring

section Lockstep

def Lockstep (P : α → β → Prop) (left : ℕ) (x : Metered ε α) (y : Metered ε β) : Prop :=
  (∃ a b left', x left = .ok (a, left') ∧ y left = .ok (b, left') ∧ P a b) ∨
    ∃ e, x left = .error e ∧ y left = .error e

variable {P : α → β → Prop}

theorem lockstep_pure (h : P a b) : Lockstep P left (pure a : Metered ε α) (pure b) :=
  .inl ⟨a, b, left, rfl, rfl, h⟩

theorem lockstep_throw (e : ε) : Lockstep P left (throw e : Metered ε α) (throw e) := .inr ⟨e, rfl, rfl⟩

theorem lockstep_bind_same {g : γ → Metered ε β}
    (h : ∀ c left', x left = .ok (c, left') → Lockstep P left' (f c) (g c)) : Lockstep P left (x >>= f) (x >>= g) := by
  change (∃ a b left', (x left >>= fun p => f p.1 p.2) = .ok (a, left') ∧ (x left >>= fun p => g p.1 p.2) = .ok (b, left') ∧
    P a b) ∨ ∃ e, (x left >>= fun p => f p.1 p.2) = .error e ∧ (x left >>= fun p => g p.1 p.2) = .error e
  cases hx : x left with
  | error e => exact .inr ⟨e, rfl, rfl⟩
  | ok p => exact h p.1 p.2 hx

theorem Lockstep.bind {α' β' : Type} {Q : α' → β' → Prop} {f : α → Metered ε α'}
    {g : β → Metered ε β'} (hxy : Lockstep P left x y)
    (h : ∀ a b left', y left = .ok (b, left') → P a b → Lockstep Q left' (f a) (g b)) :
    Lockstep Q left (x >>= f) (y >>= g) := by
  change (∃ a b left', (x left >>= fun p => f p.1 p.2) = .ok (a, left') ∧ (y left >>= fun p => g p.1 p.2) = .ok (b, left') ∧
    Q a b) ∨ ∃ e, (x left >>= fun p => f p.1 p.2) = .error e ∧ (y left >>= fun p => g p.1 p.2) = .error e
  rcases hxy with ⟨a, b, left', hx, hy, hP⟩ | ⟨e, hx, hy⟩
  · rw [hx, hy]
    exact h a b left' hy hP
  · rw [hx, hy]
    exact .inr ⟨e, rfl, rfl⟩

end Lockstep

end Metered
