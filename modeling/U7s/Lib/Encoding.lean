import Mathlib

namespace Encoding

open List Bool

abbrev Byte := Fin 256

instance neZero_256 : NeZero 256 := ⟨by decide⟩

def ascii (s : String) : List Byte := s.toList.map (fun c => Fin.ofNat 256 c.toNat)

def secondOk (b₀ b₁ : Byte) : Bool :=
  if b₀ = 0xE0 then 0xA0 ≤ b₁ && b₁ ≤ 0xBF
  else if b₀ = 0xED then 0x80 ≤ b₁ && b₁ ≤ 0x9F
  else if b₀ = 0xF0 then 0x90 ≤ b₁ && b₁ ≤ 0xBF
  else if b₀ = 0xF4 then 0x80 ≤ b₁ && b₁ ≤ 0x8F
  else 0x80 ≤ b₁ && b₁ ≤ 0xBF

def isContinuation (b : Byte) : Bool := 0x80 ≤ b && b ≤ 0xBF

def utf8Step : List Byte → Option (Char × List Byte)
  | [] => none
  | b₀ :: bs =>
    if b₀ < 0x80 then some (Char.ofNat b₀.val, bs)
    else if 0xC2 ≤ b₀ && b₀ ≤ 0xDF then
      match bs with
      | b₁ :: bs =>
        if secondOk b₀ b₁ then some (Char.ofNat ((b₀.val - 0xC0) * 64 + (b₁.val - 0x80)), bs) else none
      | [] => none
    else if 0xE0 ≤ b₀ && b₀ ≤ 0xEF then
      match bs with
      | b₁ :: b₂ :: bs =>
        if secondOk b₀ b₁ && isContinuation b₂ then
          some (Char.ofNat ((b₀.val - 0xE0) * 4096 + (b₁.val - 0x80) * 64 + (b₂.val - 0x80)), bs)
        else none
      | _ => none
    else if 0xF0 ≤ b₀ && b₀ ≤ 0xF4 then
      match bs with
      | b₁ :: b₂ :: b₃ :: bs =>
        if secondOk b₀ b₁ && isContinuation b₂ && isContinuation b₃ then
          some (Char.ofNat ((b₀.val - 0xF0) * 262144 + (b₁.val - 0x80) * 4096 + (b₂.val - 0x80) * 64 +
            (b₃.val - 0x80)), bs)
        else none
      | _ => none
    else none

def brokenTail (b₀ : Byte) (bs : List Byte) : ℕ :=
  match bs with
  | b₁ :: bs =>
    if 0xE0 ≤ b₀ && b₀ ≤ 0xF4 && secondOk b₀ b₁ then
      match bs with
      | b₂ :: _ => if 0xF0 ≤ b₀ && isContinuation b₂ then 2 else 1
      | [] => 1
    else 0
  | [] => 0

def strictFrom : ℕ → List Byte → Option (List Char)
  | _, [] => some []
  | 0, _ :: _ => none
  | n + 1, b :: bs =>
    match utf8Step (b :: bs) with
    | some (c, rest) => (strictFrom n rest).map (c :: ·)
    | none => none

def lossyFrom : ℕ → List Byte → List Char
  | _, [] => []
  | 0, _ :: _ => []
  | n + 1, b :: bs =>
    match utf8Step (b :: bs) with
    | some (c, rest) => c :: lossyFrom n rest
    | none => '�' :: lossyFrom n (bs.drop (brokenTail b bs))

def fromUtf8 (bs : List Byte) : Option String := (strictFrom bs.length bs).map String.ofList

def fromUtf8Lossy (bs : List Byte) : String := String.ofList (lossyFrom bs.length bs)

theorem secondOk_bounds (h : secondOk b₀ b₁) :
    0x80 ≤ b₁.val ∧ b₁.val ≤ 0xBF ∧ (b₀.val = 0xE0 → 0xA0 ≤ b₁.val) ∧ (b₀.val = 0xED → b₁.val ≤ 0x9F) ∧
      (b₀.val = 0xF0 → 0x90 ≤ b₁.val) ∧ (b₀.val = 0xF4 → b₁.val ≤ 0x8F) := by
  unfold secondOk at h
  split_ifs at h <;> simp only [Fin.ext_iff, Fin.le_def, and_eq_true, decide_eq_true_eq] at * <;> omega

theorem isContinuation_bounds (h : isContinuation b) : 0x80 ≤ b.val ∧ b.val ≤ 0xBF := by
  simp only [isContinuation, Fin.le_def, and_eq_true, decide_eq_true_eq] at h
  omega

theorem toNat_ofNat_ge (h : 0x80 ≤ n) (hvalid : n.isValidChar) : 0x80 ≤ (Char.ofNat n).toNat := by
  rw [Char.toNat_ofNat, if_pos hvalid]
  exact h

theorem utf8Step_cases (h : utf8Step (b :: bs) = some (c, rest)) :
    rest.length ≤ bs.length ∧ (b < 0x80 ∧ c = Char.ofNat b.val ∧ rest = bs ∨ 0x80 ≤ b ∧ 0x80 ≤ c.toNat) := by
  by_cases h1 : b < 0x80
  · unfold utf8Step at h
    dsimp only at h
    rw [if_pos h1] at h
    cases h
    exact ⟨le_refl _, .inl ⟨h1, rfl, rfl⟩⟩
  have hlead : 0x80 ≤ b := not_lt.mp h1
  unfold utf8Step at h
  dsimp only at h
  rw [if_neg h1] at h
  split_ifs at h with h2 h3 h4
  · simp only [Fin.le_def, and_eq_true, decide_eq_true_eq] at h2
    match bs, h with
    | b₁ :: bs, h =>
      dsimp only at h
      split_ifs at h with hs
      obtain ⟨rfl, rfl⟩ := Prod.mk.inj (Option.some.inj h)
      refine ⟨Nat.le_succ _, .inr ⟨hlead, toNat_ofNat_ge ?_ (.inl ?_)⟩⟩ <;> omega
  · simp only [Fin.le_def, and_eq_true, decide_eq_true_eq] at h3
    match bs, h with
    | b₁ :: b₂ :: bs, h =>
      dsimp only at h
      split_ifs at h with hs
      rw [and_eq_true] at hs
      obtain ⟨hlo₁, hhi₁, hE0, hED, -⟩ := secondOk_bounds hs.1
      obtain ⟨hlo₂, hhi₂⟩ := isContinuation_bounds hs.2
      obtain ⟨rfl, rfl⟩ := Prod.mk.inj (Option.some.inj h)
      refine ⟨by simp only [length_cons]; omega, .inr ⟨hlead, toNat_ofNat_ge ?_ ?_⟩⟩
      · omega
      · omega
  · simp only [Fin.le_def, and_eq_true, decide_eq_true_eq] at h4
    match bs, h with
    | b₁ :: b₂ :: b₃ :: bs, h =>
      dsimp only at h
      split_ifs at h with hs
      rw [and_eq_true, and_eq_true] at hs
      obtain ⟨hlo₁, hhi₁, -, -, hF0, hF4⟩ := secondOk_bounds hs.1.1
      obtain ⟨hlo₂, hhi₂⟩ := isContinuation_bounds hs.1.2
      obtain ⟨hlo₃, hhi₃⟩ := isContinuation_bounds hs.2
      obtain ⟨rfl, rfl⟩ := Prod.mk.inj (Option.some.inj h)
      refine ⟨by simp only [length_cons]; omega, .inr ⟨hlead, toNat_ofNat_ge ?_ ?_⟩⟩
      · omega
      · omega

theorem lossyFrom_of_some (h : strictFrom n bs = some cs) : lossyFrom n bs = cs := by
  induction n generalizing bs cs with
  | zero =>
    cases bs with
    | nil => exact Option.some.inj h
    | cons b bs => cases h
  | succ n ih =>
    cases bs with
    | nil => exact Option.some.inj h
    | cons b bs =>
      unfold strictFrom at h
      unfold lossyFrom
      cases hstep : utf8Step (b :: bs) with
      | none =>
        rw [hstep] at h
        cases h
      | some r =>
        rw [hstep] at h
        obtain ⟨cs', hcs', rfl⟩ := Option.map_eq_some_iff.mp h
        exact congrArg (r.1 :: ·) (ih hcs')

theorem replacement_mem_of_none (hn : bs.length ≤ n) (h : strictFrom n bs = none) : '�' ∈ lossyFrom n bs := by
  induction n generalizing bs with
  | zero =>
    cases bs with
    | nil => cases h
    | cons b bs => exact absurd hn (by simp)
  | succ n ih =>
    cases bs with
    | nil => cases h
    | cons b bs =>
      unfold strictFrom at h
      unfold lossyFrom
      cases hstep : utf8Step (b :: bs) with
      | none => exact mem_cons_self
      | some r =>
        rw [hstep] at h
        have hlen := (utf8Step_cases hstep).1
        rw [length_cons] at hn
        exact mem_cons_of_mem _ (ih (by omega) (Option.map_eq_none_iff.mp h))

theorem fromUtf8Lossy_of_some (h : fromUtf8 bs = some s) : fromUtf8Lossy bs = s := by
  obtain ⟨cs, hcs, rfl⟩ := Option.map_eq_some_iff.mp h
  exact congrArg String.ofList (lossyFrom_of_some hcs)

theorem fromUtf8_of_lossy (h : fromUtf8Lossy bs = s) (hs : '�' ∉ s.toList) : fromUtf8 bs = some s := by
  cases hstrict : fromUtf8 bs with
  | some t => rw [← h, fromUtf8Lossy_of_some hstrict]
  | none =>
    have hmem := replacement_mem_of_none (le_refl _) (Option.map_eq_none_iff.mp hstrict)
    rw [← h, fromUtf8Lossy, String.toList_ofList] at hs
    exact absurd hmem hs

def isVisible (n : ℕ) : Bool := 0x20 ≤ n && n < 0x7f || n = 9

theorem utf8Step_ascii (h : isVisible b.val) (bs : List Byte) :
    utf8Step (b :: bs) = some (Char.ofNat b.val, bs) := by
  have hb : b < 0x80 := by
    simp only [isVisible, or_eq_true, and_eq_true, decide_eq_true_eq] at h
    rw [Fin.lt_def]
    omega
  exact if_pos hb

theorem strictFrom_visible (h : ∀ b ∈ bs, isVisible b.val) :
    strictFrom bs.length bs = some (bs.map (fun b => Char.ofNat b.val)) := by
  induction bs with
  | nil => rfl
  | cons b bs ih =>
    rw [length_cons]
    unfold strictFrom
    rw [utf8Step_ascii (h b mem_cons_self)]
    simp only [ih (fun b hb => h b (mem_cons_of_mem _ hb)), Option.map_some, map_cons]

theorem visible_of_strictFrom (h : strictFrom n bs = some cs) (hcs : ∀ c ∈ cs, isVisible c.toNat) :
    ∀ b ∈ bs, isVisible b.val := by
  induction n generalizing bs cs with
  | zero =>
    cases bs with
    | nil => simp
    | cons b bs => cases h
  | succ n ih =>
    cases bs with
    | nil => simp
    | cons b bs =>
      unfold strictFrom at h
      cases hstep : utf8Step (b :: bs) with
      | none =>
        rw [hstep] at h
        cases h
      | some r =>
        rw [hstep] at h
        obtain ⟨cs', hcs', rfl⟩ := Option.map_eq_some_iff.mp h
        have hc := hcs r.1 mem_cons_self
        obtain ⟨-, ⟨-, hchar, hrest⟩ | ⟨-, hbig⟩⟩ := utf8Step_cases hstep
        · rw [hrest] at hcs'
          intro x hx
          obtain rfl | hx := mem_cons.mp hx
          · rw [hchar, Char.toNat_ofNat, if_pos (.inl (by omega))] at hc
            exact hc
          · exact ih hcs' (fun c hc => hcs c (mem_cons_of_mem _ hc)) x hx
        · simp only [isVisible, or_eq_true, and_eq_true, decide_eq_true_eq] at hc
          omega

def hexDigit (b : Byte) : Option ℕ :=
  if 0x30 ≤ b.val ∧ b.val ≤ 0x39 then some (b.val - 0x30)
  else if 0x41 ≤ b.val ∧ b.val ≤ 0x46 then some (b.val - 0x41 + 10)
  else if 0x61 ≤ b.val ∧ b.val ≤ 0x66 then some (b.val - 0x61 + 10)
  else none

def percentDecodeBytes : List Byte → List Byte
  | b :: h :: l :: bs =>
    match decide (b = 0x25), hexDigit h, hexDigit l with
    | true, some x, some y => Fin.ofNat 256 (x * 16 + y) :: percentDecodeBytes bs
    | _, _, _ => b :: percentDecodeBytes (h :: l :: bs)
  | b :: bs => b :: percentDecodeBytes bs
  | [] => []

def plusToSpace (bs : List Byte) : List Byte := bs.map (fun b => if b = 0x2B then 0x20 else b)

def splitBytes (sep : Byte) (bs : List Byte) : List (List Byte) := bs.splitOn sep

def splitPair (bs : List Byte) : List Byte × List Byte :=
  (bs.takeWhile (· ≠ 0x3D), (bs.dropWhile (· ≠ 0x3D)).tail)

def formPairs (query : List Byte) : List (String × String) :=
  ((splitBytes 0x26 query).filter (fun p => p ≠ [])).map (fun p =>
    (fromUtf8Lossy (percentDecodeBytes (plusToSpace (splitPair p).1)),
      fromUtf8Lossy (percentDecodeBytes (plusToSpace (splitPair p).2))))

end Encoding
