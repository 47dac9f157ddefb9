import Mathlib

/-! A bounded buffer that drops its oldest entry when it is full; its horizon is the revision of the oldest entry
left. -/

namespace Ring

open List

structure Buffer (ε : Type*) where
  ring : List ε
  horizon : ℕ

variable {ε : Type*} (cap : ℕ) (rev : ε → ℕ)

def Buffer.push (b : Buffer ε) (e : ε) : Buffer ε :=
  let ring := b.ring ++ [e]
  if cap < ring.length then
    ⟨ring.tail, max b.horizon (ring.tail.head?.elim 0 rev)⟩
  else ⟨ring, b.horizon⟩

variable {cap rev} {b : Buffer ε} {e x : ε}

theorem Buffer.push_cases (hc : 0 < cap) (rev : ε → ℕ) (b : Buffer ε) (e : ε) :
    ((b.push cap rev e).ring = b.ring ++ [e] ∧ (b.push cap rev e).horizon = b.horizon) ∨
    ∃ f g rest, b.ring ++ [e] = f :: g :: rest ∧ cap ≤ b.ring.length ∧
      (b.push cap rev e).ring = g :: rest ∧ (b.push cap rev e).horizon = max b.horizon (rev g) := by
  unfold Buffer.push
  dsimp only
  split_ifs with h
  · right
    have hl : 1 < (b.ring ++ [e]).length := by omega
    obtain ⟨f, g, rest, hr⟩ : ∃ f g rest, b.ring ++ [e] = f :: g :: rest := by
      match hb : b.ring ++ [e] with
      | [] | [f] => simp [hb] at hl
      | f :: g :: rest => exact ⟨f, g, rest, rfl⟩
    refine ⟨f, g, rest, hr, by simpa using h, ?_, ?_⟩ <;> simp [hr]
  · exact .inl ⟨rfl, rfl⟩

theorem Buffer.horizon_le_push (b : Buffer ε) (e : ε) : b.horizon ≤ (b.push cap rev e).horizon := by
  unfold Buffer.push
  dsimp only
  split_ifs
  · exact le_max_left _ _
  · exact le_rfl

theorem Buffer.push_suffix (b : Buffer ε) (e : ε) : (b.push cap rev e).ring <:+ b.ring ++ [e] := by
  unfold Buffer.push
  dsimp only
  split_ifs
  · exact tail_suffix _
  · exact suffix_rfl

theorem Buffer.getLast?_push (hc : 0 < cap) (rev : ε → ℕ) (b : Buffer ε) (e : ε) :
    (b.push cap rev e).ring.getLast? = some e := by
  obtain ⟨h, -⟩ | ⟨f, g, rest, hr, -, h, -⟩ := b.push_cases hc rev e
  · simp [h]
  · rw [h]
    have hl : (f :: g :: rest).getLast? = some e := by simp [← hr]
    simpa [getLast?_cons_cons] using hl

theorem Buffer.mem_push_or (hc : 0 < cap) (rev : ε → ℕ) (hx : x ∈ b.ring ++ [e]) :
    x ∈ (b.push cap rev e).ring ∨
      ∃ g rest, b.ring ++ [e] = x :: g :: rest ∧ cap ≤ b.ring.length ∧
        rev g ≤ (b.push cap rev e).horizon := by
  obtain ⟨h, -⟩ | ⟨f, g, rest, hr, hlen, h, hh⟩ := b.push_cases hc rev e
  · exact .inl (h ▸ hx)
  · rw [hr, mem_cons] at hx
    obtain rfl | hx := hx
    · exact .inr ⟨g, rest, hr, hlen, hh ▸ le_max_right _ _⟩
    · exact .inl (h ▸ hx)

theorem Buffer.mem_push_of_pairwise {D : ε → Prop} (hc : 0 < cap)
    (hs : (b.ring ++ [e]).Pairwise (fun a c => D a → rev a ≤ rev c)) (hx : x ∈ b.ring ++ [e]) (hD : D x) :
    x ∈ (b.push cap rev e).ring ∨ rev x ≤ (b.push cap rev e).horizon := by
  obtain h | ⟨g, rest, hr, -, hg⟩ := b.mem_push_or hc rev hx
  · exact .inl h
  · rw [hr, pairwise_cons] at hs
    exact .inr ((hs.1 g mem_cons_self hD).trans hg)

theorem Buffer.foldl_push (hc : 0 < cap) (rev : ε → ℕ) (b : Buffer ε) (es : List ε)
    (hs : (b.ring ++ es).Pairwise (fun a c => rev a < rev c)) :
    (es.foldl (Buffer.push cap rev) b).ring <:+ b.ring ++ es ∧
    (∀ x ∈ b.ring ++ es, x ∈ (es.foldl (Buffer.push cap rev) b).ring ∨
      rev x ≤ (es.foldl (Buffer.push cap rev) b).horizon) ∧
    b.horizon ≤ (es.foldl (Buffer.push cap rev) b).horizon := by
  induction es generalizing b with
  | nil =>
    refine ⟨by simp, fun x hx => .inl (by simpa using hx), le_rfl⟩
  | cons e es ih =>
    have happ : b.ring ++ e :: es = (b.ring ++ [e]) ++ es := by simp
    rw [happ] at hs ⊢
    have hsuf : (b.push cap rev e).ring ++ es <:+ b.ring ++ [e] ++ es := by
      obtain ⟨t, ht⟩ : (b.push cap rev e).ring <:+ b.ring ++ [e] := b.push_suffix e
      exact ⟨t, by rw [← append_assoc, ht]⟩
    obtain ⟨h1, h2, h3⟩ := ih (b.push cap rev e) (hs.sublist hsuf.sublist)
    refine ⟨h1.trans hsuf, fun x hx => ?_, (b.horizon_le_push e).trans h3⟩
    rw [mem_append] at hx
    obtain hx | hx := hx
    · have hp : (b.ring ++ [e]).Pairwise (fun a c => True → rev a ≤ rev c) :=
        (pairwise_append.mp hs).1.imp (fun h _ => h.le)
      obtain hx | hx := Buffer.mem_push_of_pairwise hc hp hx trivial
      · exact h2 x (mem_append_left _ hx)
      · exact .inr (hx.trans h3)
    · exact h2 x (mem_append_right _ hx)

theorem Buffer.length_push_le (b : Buffer ε) (e : ε) (hb : b.ring.length ≤ cap) :
    (b.push cap rev e).ring.length ≤ cap := by
  unfold Buffer.push
  dsimp only
  split_ifs with h
  · simpa using hb
  · exact not_lt.mp h

theorem Buffer.horizon_push_le (b : Buffer ε) (e : ε) (hb : b.horizon ≤ n) (hr : ∀ x ∈ b.ring ++ [e], rev x ≤ n) :
    (b.push cap rev e).horizon ≤ n := by
  unfold Buffer.push
  dsimp only
  split_ifs
  · refine max_le hb ?_
    cases h : (b.ring ++ [e]).tail.head? with
    | none => exact Nat.zero_le n
    | some x => exact hr x (mem_of_mem_tail (mem_of_mem_head? h))
  · exact hb

theorem Buffer.length_foldl_push_le (b : Buffer ε) (es : List ε) (hb : b.ring.length ≤ cap) :
    (es.foldl (Buffer.push cap rev) b).ring.length ≤ cap := by
  induction es generalizing b with
  | nil => exact hb
  | cons e es ih => exact ih _ (b.length_push_le e hb)

theorem Buffer.horizon_foldl_push_le (b : Buffer ε) (es : List ε) (hb : b.horizon ≤ n)
    (hr : ∀ x ∈ b.ring ++ es, rev x ≤ n) : (es.foldl (Buffer.push cap rev) b).horizon ≤ n := by
  induction es generalizing b with
  | nil => exact hb
  | cons e es ih =>
    have hpush : ∀ x ∈ b.ring ++ [e], rev x ≤ n := fun x hx =>
      hr x (append_cons _ _ _ ▸ mem_append_left es hx)
    refine ih _ (b.horizon_push_le e hb hpush) fun x hx => ?_
    obtain hx | hx := mem_append.mp hx
    · exact hpush x ((b.push_suffix e).subset hx)
    · exact hr x (mem_append_right _ (mem_cons_of_mem e hx))

theorem Buffer.getLast_mem_foldl_push (hc : 0 < cap) (b : Buffer ε) (hne : es ≠ []) :
    es.getLast hne ∈ (es.foldl (Buffer.push cap rev) b).ring := by
  obtain ⟨pre, e, rfl⟩ := (eq_nil_or_concat' es).resolve_left hne
  rw [getLast_concat, foldl_append]
  exact mem_of_mem_getLast? (Buffer.getLast?_push hc rev _ e)

def recent (n : ℕ) (l : List ε) : List ε := l.drop (l.length - n)

theorem recent_suffix (n : ℕ) (l : List ε) : recent n l <:+ l := drop_suffix _ _

theorem length_recent (n : ℕ) (l : List ε) : (recent n l).length = min n l.length := by
  rw [recent, length_drop]
  omega

theorem recent_of_le (h : l.length ≤ n) : recent n l = l := by
  rw [recent, Nat.sub_eq_zero_of_le h, drop_zero]

theorem suffix_recent (h : l <:+ m) (hl : l.length ≤ n) : l <:+ recent n m :=
  suffix_of_suffix_length_le h (recent_suffix n m) (by
    rw [length_recent]
    have := h.length_le
    omega)

theorem mem_recent_suffix (h : l <:+ m) : x ∈ recent n l ↔ x ∈ l ∧ x ∈ recent n m := by
  have hle : (recent n l).length ≤ n := by
    rw [length_recent]
    omega
  constructor
  · intro hx
    exact ⟨(recent_suffix n l).subset hx, (suffix_recent ((recent_suffix n l).trans h) hle).subset hx⟩
  · rintro ⟨hx, hm⟩
    by_cases hl : l.length ≤ n
    · rwa [recent_of_le hl]
    · -- A longer suffix has all the recent entries of the list.
      have hlen := length_recent n m
      have hm' : recent n m <:+ l :=
        suffix_of_suffix_length_le (recent_suffix n m) h (by omega)
      exact (suffix_recent hm' (by omega)).subset hm

end Ring
