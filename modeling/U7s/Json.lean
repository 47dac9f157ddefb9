import Mathlib

namespace U7s

/-- `serde_json::Number`. A float is kept as the text it prints as. -/
inductive Number where
  | posInt (n : ℕ)
  | negInt (n : ℤ)
  | float (text : String)
  deriving DecidableEq

/-- `serde_json::Value`. An object lists its members in ascending key order, so that equal objects are equal lists.
-/
inductive Json where
  | null
  | bool (b : Bool)
  | num (n : Number)
  | str (s : String)
  | arr (items : List Json)
  | obj (fields : List (String × Json))

namespace Json

mutual

def beq : Json → Json → Bool
  | .null, .null => true
  | .bool a, .bool b => a == b
  | .num a, .num b => a == b
  | .str a, .str b => a == b
  | .arr xs, .arr ys => beqItems xs ys
  | .obj fs, .obj gs => beqFields fs gs
  | _, _ => false

def beqItems : List Json → List Json → Bool
  | [], [] => true
  | x :: xs, y :: ys => beq x y && beqItems xs ys
  | _, _ => false

def beqFields : List (String × Json) → List (String × Json) → Bool
  | [], [] => true
  | (k, x) :: fs, (l, y) :: gs => k == l && beq x y && beqFields fs gs
  | _, _ => false

end

mutual

theorem beq_iff : ∀ a b : Json, beq a b ↔ a = b
  | .null, b | .bool _, b | .num _, b | .str _, b => by cases b <;> simp [beq]
  | .arr xs, b => by
    cases b with
    | arr ys => simp [beq, beqItems_iff xs ys]
    | _ => simp [beq]
  | .obj fs, b => by
    cases b with
    | obj gs => simp [beq, beqFields_iff fs gs]
    | _ => simp [beq]

theorem beqItems_iff : ∀ xs ys : List Json, beqItems xs ys ↔ xs = ys
  | [], ys => by cases ys <;> simp [beqItems]
  | x :: xs, ys => by
    cases ys with
    | nil => simp [beqItems]
    | cons y ys => simp [beqItems, beq_iff x y, beqItems_iff xs ys]

theorem beqFields_iff : ∀ fs gs : List (String × Json), beqFields fs gs ↔ fs = gs
  | [], gs => by cases gs <;> simp [beqFields]
  | (k, x) :: fs, gs => by
    cases gs with
    | nil => simp [beqFields]
    | cons g gs => simp [beqFields, beq_iff x g.2, beqFields_iff fs gs, Prod.ext_iff]

end

instance : DecidableEq Json := fun a b => decidable_of_iff (beq a b = true) (beq_iff a b)

def lookup (k : String) : List (String × Json) → Option Json
  | [] => none
  | (l, v) :: fs => if l = k then some v else lookup k fs

def insert (k : String) (v : Json) : List (String × Json) → List (String × Json)
  | [] => [(k, v)]
  | (l, w) :: fs =>
    if l = k then (k, v) :: fs else if k < l then (k, v) :: (l, w) :: fs else (l, w) :: insert k v fs

def erase (k : String) (fs : List (String × Json)) : List (String × Json) :=
  fs.filter (fun f => f.1 ≠ k)

@[simp] theorem lookup_insert_self (k : String) (v : Json) (fs : List (String × Json)) :
    lookup k (insert k v fs) = some v := by
  induction fs with
  | nil => simp [insert, lookup]
  | cons f fs ih =>
    simp only [insert]
    split_ifs with h1 h2
    · simp [lookup]
    · simp [lookup]
    · simp [lookup, h1, ih]

theorem lookup_insert_ne (h : l ≠ k) (v : Json) (fs : List (String × Json)) :
    lookup l (insert k v fs) = lookup l fs := by
  induction fs with
  | nil => simp [insert, lookup, h.symm]
  | cons f fs ih =>
    simp only [insert]
    split_ifs with h1 h2
    · simp [lookup, h.symm, h1]
    · simp [lookup, h.symm]
    · simp [lookup, ih]

theorem lookup_erase_ne (h : l ≠ k) (fs : List (String × Json)) : lookup l (erase k fs) = lookup l fs := by
  induction fs with
  | nil => rfl
  | cons f fs ih =>
    by_cases hf : f.1 = k
    · simpa [erase, hf, lookup, h.symm] using ih
    · simp only [erase, ne_eq, hf, not_false_eq_true, decide_true, List.filter_cons_of_pos, lookup]
      rw [← ih]
      rfl

theorem lookup_erase_self (k : String) (fs : List (String × Json)) : lookup k (erase k fs) = none := by
  induction fs with
  | nil => rfl
  | cons f fs ih =>
    by_cases hf : f.1 = k
    · simpa [erase, hf] using ih
    · simp only [erase, ne_eq, hf, not_false_eq_true, decide_true, List.filter_cons_of_pos, lookup]
      exact ih

theorem mem_of_lookup (h : lookup k fs = some v) : (k, v) ∈ fs := by
  induction fs with
  | nil => cases h
  | cons f fs ih =>
    obtain ⟨l, w⟩ := f
    rw [lookup] at h
    split_ifs at h with hk
    · cases h
      rw [hk]
      exact List.mem_cons_self
    · exact List.mem_cons_of_mem _ (ih h)

def get? (j : Json) (k : String) : Option Json :=
  match j with
  | .obj fs => lookup k fs
  | _ => none

def idx (j : Json) (k : String) : Json := (j.get? k).getD .null

def asStr? : Json → Option String
  | .str s => some s
  | _ => none

def asArray? : Json → Option (List Json)
  | .arr xs => some xs
  | _ => none

/-- Writing through `value[k]`. `Null` turns into an object first; other values panic. -/
def setIdx (j : Json) (k : String) (v : Json) : Option Json :=
  match j with
  | .null => some (.obj [(k, v)])
  | .obj fs => some (.obj (insert k v fs))
  | _ => none

theorem idx_setIdx {j : Json} (h : j.setIdx k v = some j') : j'.idx k = v := by
  cases j with
  | null => simp only [setIdx, Option.some.injEq] at h; subst h; simp [idx, get?, lookup]
  | obj fs => simp only [setIdx, Option.some.injEq] at h; subst h; simp [idx, get?]
  | _ => simp [setIdx] at h

theorem idx_setIdx_ne {j : Json} (hl : l ≠ k) (h : j.setIdx k v = some j') : j'.idx l = j.idx l := by
  cases j with
  | null => simp only [setIdx, Option.some.injEq] at h; subst h; simp [idx, get?, lookup, hl.symm]
  | obj fs =>
    simp only [setIdx, Option.some.injEq] at h
    subst h
    simp [idx, get?, lookup_insert_ne hl]
  | _ => simp [setIdx] at h

def modifyIdx (j : Json) (k : String) (f : Json → Option Json) : Option Json :=
  (f (j.idx k)).bind (fun v => j.setIdx k v)

theorem idx_modifyIdx {j : Json} (h : j.modifyIdx k f = some j') :
    f (j.idx k) = some (j'.idx k) := by
  obtain ⟨v, hv, h⟩ := Option.bind_eq_some_iff.mp h
  rw [hv, idx_setIdx h]

theorem idx_modifyIdx_ne {j : Json} (hl : l ≠ k) (h : j.modifyIdx k f = some j') : j'.idx l = j.idx l := by
  obtain ⟨v, -, h⟩ := Option.bind_eq_some_iff.mp h
  exact idx_setIdx_ne hl h

def mapItems (f : Json → Option Json) : Json → Option Json
  | .arr xs => (xs.mapM f).map .arr
  | j => some j

mutual

def depth : Json → ℕ
  | .arr xs => depthItems xs + 1
  | .obj fs => depthFields fs + 1
  | _ => 0

def depthItems : List Json → ℕ
  | [] => 0
  | x :: xs => max (depth x) (depthItems xs)

def depthFields : List (String × Json) → ℕ
  | [] => 0
  | (_, x) :: fs => max (depth x) (depthFields fs)

end

theorem depth_of_lookup (h : lookup k fs = some v) : depth v ≤ depthFields fs := by
  induction fs with
  | nil => simp [lookup] at h
  | cons f fs ih =>
    simp only [lookup] at h
    simp only [depthFields]
    split_ifs at h with hk
    · cases h
      exact le_max_left _ _
    · exact (ih h).trans (le_max_right _ _)

theorem depthFields_insert_le (k : String) (v : Json) (fs : List (String × Json)) :
    depthFields (insert k v fs) ≤ max (depth v) (depthFields fs) := by
  induction fs with
  | nil => simp [insert, depthFields]
  | cons f fs ih =>
    simp only [insert]
    split_ifs <;> simp only [depthFields] <;> omega

theorem depth_idx_le (j : Json) (k : String) : depth (j.idx k) ≤ depth j - 1 := by
  cases j with
  | obj fs =>
    simp only [idx, get?]
    cases hl : lookup k fs with
    | none => simp [depth]
    | some v => simpa [depth] using depth_of_lookup hl
  | _ => simp [idx, get?, depth]

theorem depth_setIdx_le (h : j.setIdx k v = some j') : depth j' ≤ max (depth j) (depth v + 1) := by
  cases j with
  | null => simp only [setIdx, Option.some.injEq] at h; subst h; simp [depth, depthFields]
  | obj fs =>
    simp only [setIdx, Option.some.injEq] at h
    subst h
    have := depthFields_insert_le k v fs
    simp only [depth]
    omega
  | _ => simp [setIdx] at h

mutual

def mapFloats (f : String → String) : Json → Json
  | .num (.float x) => .num (.float (f x))
  | .arr xs => .arr (mapFloatsItems f xs)
  | .obj fs => .obj (mapFloatsFields f fs)
  | j => j

def mapFloatsItems (f : String → String) : List Json → List Json
  | [] => []
  | x :: xs => mapFloats f x :: mapFloatsItems f xs

def mapFloatsFields (f : String → String) : List (String × Json) → List (String × Json)
  | [] => []
  | (k, x) :: fs => (k, mapFloats f x) :: mapFloatsFields f fs

end

mutual

theorem mapFloats_id : ∀ j : Json, mapFloats id j = j
  | .null | .bool _ | .num (.posInt _) | .num (.negInt _) | .num (.float _) | .str _ => rfl
  | .arr xs => by simp [mapFloats, mapFloatsItems_id xs]
  | .obj fs => by simp [mapFloats, mapFloatsFields_id fs]

theorem mapFloatsItems_id : ∀ xs : List Json, mapFloatsItems id xs = xs
  | [] => rfl
  | x :: xs => by simp [mapFloatsItems, mapFloats_id x, mapFloatsItems_id xs]

theorem mapFloatsFields_id : ∀ fs : List (String × Json), mapFloatsFields id fs = fs
  | [] => rfl
  | (k, x) :: fs => by simp [mapFloatsFields, mapFloats_id x, mapFloatsFields_id fs]

end

mutual

theorem mapFloats_comp (f g : String → String) : ∀ j : Json, mapFloats f (mapFloats g j) = mapFloats (f ∘ g) j
  | .null | .bool _ | .num (.posInt _) | .num (.negInt _) | .num (.float _) | .str _ => rfl
  | .arr xs => by simp [mapFloats, mapFloatsItems_comp f g xs]
  | .obj fs => by simp [mapFloats, mapFloatsFields_comp f g fs]

theorem mapFloatsItems_comp (f g : String → String) :
    ∀ xs : List Json, mapFloatsItems f (mapFloatsItems g xs) = mapFloatsItems (f ∘ g) xs
  | [] => rfl
  | x :: xs => by simp [mapFloatsItems, mapFloats_comp f g x, mapFloatsItems_comp f g xs]

theorem mapFloatsFields_comp (f g : String → String) :
    ∀ fs : List (String × Json), mapFloatsFields f (mapFloatsFields g fs) = mapFloatsFields (f ∘ g) fs
  | [] => rfl
  | (k, x) :: fs => by simp [mapFloatsFields, mapFloats_comp f g x, mapFloatsFields_comp f g fs]

end

theorem lookup_mapFloatsFields (f : String → String) (k : String) (fs : List (String × Json)) :
    lookup k (mapFloatsFields f fs) = (lookup k fs).map (mapFloats f) := by
  induction fs with
  | nil => rfl
  | cons g fs ih =>
    simp only [mapFloatsFields, lookup]
    split_ifs
    · rfl
    · exact ih

@[simp] theorem idx_mapFloats (f : String → String) (j : Json) (k : String) :
    (mapFloats f j).idx k = mapFloats f (j.idx k) := by
  cases j with
  | obj fs =>
    simp only [mapFloats, idx, get?, lookup_mapFloatsFields]
    cases lookup k fs <;> simp [mapFloats]
  | num n => cases n <;> simp [mapFloats, idx, get?]
  | _ => simp [mapFloats, idx, get?]

@[simp] theorem mapFloats_eq_null : mapFloats f j = .null ↔ j = .null := by
  cases j with
  | num n => cases n <;> simp [mapFloats]
  | _ => simp [mapFloats]

@[simp] theorem asStr?_mapFloats (f : String → String) (j : Json) : (mapFloats f j).asStr? = j.asStr? := by
  cases j with
  | num n => cases n <;> rfl
  | _ => rfl

end Json

/-- `serde_json::from_slice` and `serde_json::to_vec`. The parser bounds the nesting, and a float that is printed
and read back may come out as a neighbour. -/
structure JsonCodec (β : Type) where
  fromSlice : β → Option Json
  toVec : Json → β
  depthLimit : ℕ
  refloat : String → String
  two_le_depthLimit : 2 ≤ depthLimit
  depth_le : ∀ b j, fromSlice b = some j → j.depth ≤ depthLimit
  fromSlice_toVec : ∀ j, j.depth ≤ depthLimit → fromSlice (toVec j) = some (j.mapFloats refloat)
  fromSlice_deep : ∀ j, depthLimit < j.depth → fromSlice (toVec j) = none

theorem JsonCodec.fromSlice_toVec_some {β : Type} (codec : JsonCodec β)
    (h : codec.fromSlice (codec.toVec j) = some j') : j' = j.mapFloats codec.refloat := by
  rcases lt_or_ge codec.depthLimit j.depth with hd | hd
  · rw [codec.fromSlice_deep j hd] at h
    cases h
  · rw [codec.fromSlice_toVec j hd] at h
    exact (Option.some.inj h).symm

def JsonCodec.parsed : JsonCodec (Option Json) where
  fromSlice b := b.filter (fun j => j.depth ≤ 127)
  toVec := some
  depthLimit := 127
  refloat := id
  two_le_depthLimit := by decide
  depth_le b j h := by
    obtain ⟨-, hj⟩ := Option.filter_eq_some_iff.mp h
    simpa using hj
  fromSlice_toVec j h := by simp [Option.filter, h, Json.mapFloats_id]
  fromSlice_deep j h := by simp [Option.filter, Nat.not_le.mpr h]

theorem JsonCodec.parsed_eq_some (h : JsonCodec.parsed.fromSlice b = some j) : b = some j :=
  (Option.filter_eq_some_iff.mp h).1

end U7s
