import U7s.Handlers.App

/-! Revisions are never reused, so a row that still has its revision is still the same row. -/

namespace U7s.Handlers

open Store Programs List
open Rbac (parseU64 structFields vecOf stringOf defaulted required)

variable {β : Type} (codec : JsonCodec β)

theorem parseU64_toString (n : ℕ) : parseU64 (toString n) = if n < 2 ^ 64 then some n else none := by
  have hlist : (toString n).toList = Nat.toDigits 10 n := Nat.toList_repr
  have hdigit : ∀ c ∈ Nat.toDigits 10 n, c.isDigit :=
    fun c hc => Nat.isDigit_of_mem_toDigits (by decide) (by decide) hc
  have hplus : ∀ cs, Nat.toDigits 10 n ≠ '+' :: cs := by
    intro cs hcs
    have hd := hdigit '+' (by simp [hcs])
    exact absurd hd (by decide)
  have hvalue : (Nat.toDigits 10 n).foldl (fun n c => 10 * n + (c.toNat - '0'.toNat)) 0 = n := by
    exact Nat.ofDigitChars_ten_toDigits
  unfold parseU64
  rw [hlist]
  split
  · next hcs => exact (hplus _ hcs).elim
  · rw [if_pos ⟨Nat.toDigits_ne_nil, all_eq_true.mpr hdigit⟩, hvalue]

theorem parseResourceVersion_toString (hn : 0 < n) (h : parseResourceVersion (some (toString n)) = .ok e) :
    e = some n := by
  have hempty : toString n ≠ "" := Nat.repr_ne_empty
  have hzero : toString n ≠ "0" := by
    intro hz
    have hp := parseU64_toString n
    rw [hz] at hp
    have h0 : parseU64 "0" = some 0 := by decide
    rw [h0] at hp
    split_ifs at hp
    cases hp
    exact hn.false
  simp only [parseResourceVersion, hempty, hzero, or_self, if_false, parseU64_toString] at h
  split_ifs at h
  · cases h
    rfl

def Blind {α : Type} (d : Json → Option α) : Prop := ∀ f j, d (j.mapFloats f) = d j

section Blind

variable {α : Type}

theorem blind_stringOf : Blind stringOf := fun f j => Json.asStr?_mapFloats f j

theorem mapM_blind (hd : Blind d) (f : String → String) (xs : List Json) :
    (Json.mapFloatsItems f xs).mapM d = xs.mapM d := by
  induction xs with
  | nil => rfl
  | cons x xs ih => rw [Json.mapFloatsItems, mapM_cons, mapM_cons, hd f x, ih]

theorem blind_vecOf (hd : Blind d) : Blind (vecOf d) := by
  intro f j
  cases j with
  | arr xs => exact mapM_blind hd f xs
  | num n => cases n <;> rfl
  | _ => rfl

theorem blind_mapOf (hd : Blind d) : Blind (mapOf d) := by
  intro f j
  cases j with
  | obj fs =>
    simp only [Json.mapFloats, mapOf]
    induction fs with
    | nil => rfl
    | cons m fs ih => rw [Json.mapFloatsFields, mapM_cons, mapM_cons, hd f m.2, ih]
  | num n => cases n <;> rfl
  | _ => rfl

theorem defaulted_blind (hd : Blind d) (a : α) (f : String → String) (j : Option Json) :
    defaulted a d (j.map (Json.mapFloats f)) = defaulted a d j := by
  cases j with
  | none => rfl
  | some j => exact hd f j

theorem required_blind (hd : Blind d) (f : String → String) (j : Option Json) :
    required d (j.map (Json.mapFloats f)) = required d j := by
  cases j with
  | none => rfl
  | some j => exact hd f j

theorem structFields_mapFloats (names : List String) (f : String → String) (j : Json) :
    structFields names (j.mapFloats f) =
      (structFields names j).map (fun fields => fields.map (Option.map (Json.mapFloats f))) := by
  cases j with
  | obj fs => simp [Json.mapFloats, structFields, Json.lookup_mapFloatsFields]
  | arr xs =>
    have hitems : Json.mapFloatsItems f xs = xs.map (Json.mapFloats f) := by
      induction xs with
      | nil => rfl
      | cons x xs ih => rw [Json.mapFloatsItems, ih, map_cons]
    simp only [Json.mapFloats, structFields, hitems, length_map]
    split_ifs <;> simp
  | num n => cases n <;> rfl
  | _ => rfl

end Blind

def rowsRead : (Σ o : AppOp β, o.Reply) → List (String × Row β)
  | ⟨.get key, .ok (some row)⟩ => [(key, row)]
  | ⟨.list _, .ok rows⟩ => rows
  | _ => []

def Carries (put stored : Json) : Prop :=
  ∃ f, (∀ k ≠ "metadata", stored.idx k = (put.idx k).mapFloats f) ∧
    ∀ k ≠ "resourceVersion", (stored.idx "metadata").idx k = ((put.idx "metadata").idx k).mapFloats f

structure Past (s : AppState β) (key : String) (row : Row β) : Prop where
  stamped : row.Stamped codec
  pos : 0 < row.revision
  bounded : row.revision ≤ s.db.revision
  same : ∀ row', s.db.objects.lookup key = some row' → row'.revision = row.revision → row' = row

structure Known (s : AppState β) (h : History β) : Prop where
  read : ∀ e ∈ h, ∀ p ∈ rowsRead e, Past codec s p.1 p.2
  written : ∀ key value expected rv, ⟨.put key value expected, .ok rv⟩ ∈ h → rv ≤ s.db.revision ∧
    ∀ row, s.db.objects.lookup key = some row → row.revision = rv →
      ∃ put stored, codec.fromSlice value = some put ∧ codec.fromSlice row.value = some stored ∧
        Carries put stored

structure Versioned (s : AppState β) : Prop where
  sound : s.db.Sound codec
  pos : ∀ key row, s.db.objects.lookup key = some row → 0 < row.revision

variable {codec} {s : AppState β} {h : History β}

theorem carries_mapFloats (f : String → String) (j : Json) : Carries j (j.mapFloats f) :=
  ⟨f, fun k _ => Json.idx_mapFloats f j k, fun k _ => by rw [Json.idx_mapFloats, Json.idx_mapFloats]⟩

theorem Carries.trans (hab : Carries a b) (hbc : Carries b c) : Carries a c := by
  obtain ⟨f, hf, hf'⟩ := hab
  obtain ⟨g, hg, hg'⟩ := hbc
  refine ⟨g ∘ f, fun k hk => ?_, fun k hk => ?_⟩
  · rw [hg k hk, hf k hk, Json.mapFloats_comp]
  · rw [hg' k hk, hf' k hk, Json.mapFloats_comp]

theorem withoutResourceVersion_idx (j : Json) (hk : k ≠ "metadata") :
    (withoutResourceVersion j).idx k = j.idx k := by
  unfold withoutResourceVersion
  split
  · split
    · simp [Json.idx, Json.get?, Json.lookup_insert_ne hk]
    · rfl
  · rfl

theorem withoutResourceVersion_metadata (j : Json) (hk : k ≠ "resourceVersion") :
    ((withoutResourceVersion j).idx "metadata").idx k = (j.idx "metadata").idx k := by
  unfold withoutResourceVersion
  split
  · split
    · next hm => simp [Json.idx, Json.get?, hm, Json.lookup_erase_ne hk]
    · rfl
  · rfl

theorem carries_of_semanticallyEqual (he : semanticallyEqualIgnoringResourceVersion codec value stored) :
    ∃ put j, codec.fromSlice value = some put ∧ codec.fromSlice stored = some j ∧ Carries put j := by
  unfold semanticallyEqualIgnoringResourceVersion at he
  split at he
  · next put j hput hj =>
    have he : withoutResourceVersion put = withoutResourceVersion j := by simpa using he
    refine ⟨put, j, hput, hj, id, fun k hk => ?_, fun k hk => ?_⟩
    · rw [Json.mapFloats_id, ← withoutResourceVersion_idx j hk, ← he, withoutResourceVersion_idx put hk]
    · rw [Json.mapFloats_id, ← withoutResourceVersion_metadata j hk, ← he,
        withoutResourceVersion_metadata put hk]
  · cases he

theorem carries_of_stamp (hst : stampResourceVersion codec value r = .ok (stamped, ns, objName)) :
    ∃ put j, codec.fromSlice value = some put ∧ codec.fromSlice stamped = some j ∧ Carries put j := by
  obtain ⟨j, hj, -⟩ := stampResourceVersion_ok codec hst
  unfold stampResourceVersion at hst
  split at hst
  · cases hst
  · next put hput =>
    split at hst
    · cases hst
    · next md hmd =>
      split at hst
      · cases hst
      · next obj hobj =>
        cases hst
        refine ⟨put, j, hput, hj, codec.refloat, fun k hk => ?_, fun k hk => ?_⟩
        · rw [codec.fromSlice_toVec_some hj, Json.idx_mapFloats, Json.idx_setIdx_ne hk hobj]
        · rw [codec.fromSlice_toVec_some hj, Json.idx_mapFloats, Json.idx_mapFloats, Json.idx_setIdx hobj,
            Json.idx_setIdx_ne hk hmd]

variable (codec) in
theorem exec_commit (s : AppState β) (o : AppOp β) (f : List Bool) :
    (exec codec s o f).1.db = s.db ∨ ∃ w, Commit1 codec s.db w (exec codec s o f).1.db := by
  cases o with
  | put key value expected =>
    obtain ⟨e, he⟩ | ⟨row, -, -, -, he⟩ | ⟨stamped, ns, objName, -, -, hst, he⟩ :=
      exec_put codec s key f value expected
    · exact .inl (by rw [he])
    · exact .inl (by rw [he])
    · exact .inr ⟨_, by rw [he]; exact .put hst⟩
  | createIfNamespaceActive nsKey key value =>
    obtain ⟨e, he⟩ | ⟨stamped, ns, objName, -, hst, he⟩ := exec_create codec s key f nsKey value
    · exact .inl (by rw [he])
    · exact .inr ⟨_, by rw [he]; exact .put hst⟩
  | delete key expected =>
    obtain ⟨e, he⟩ | ⟨row, hrow, -, he⟩ := exec_delete codec s key f expected
    · exact .inl (by rw [he])
    · exact .inr ⟨_, by rw [he]; exact .delete hrow⟩
  | _ => exact .inl rfl

theorem exec_revision_le (o : AppOp β) (f : List Bool) : s.db.revision ≤ (exec codec s o f).1.db.revision := by
  obtain he | ⟨w, hw⟩ := exec_commit codec s o f
  · rw [he]
  · have := (hw.revision_eq codec).2
    omega

theorem exec_lookup (hrow : (exec codec s o f).1.db.objects.lookup key = some row) :
    s.db.objects.lookup key = some row ∨ s.db.revision < row.revision := by
  obtain he | ⟨w, hw⟩ := exec_commit codec s o f
  · exact .inl (by rwa [he] at hrow)
  · obtain ⟨-, hk⟩ | ⟨-, -, hr, -⟩ := hw.lookup_cases codec hrow
    · exact .inl hk
    · exact .inr (by omega)

theorem Versioned.exec (hv : Versioned codec s) (o : AppOp β) (f : List Bool) :
    Versioned codec (exec codec s o f).1 := by
  constructor
  · obtain he | ⟨w, hw⟩ := exec_commit codec s o f
    · rw [he]
      exact hv.sound
    · exact hw.sound codec hv.sound
  · intro key row hrow
    rcases exec_lookup hrow with hrow | hlt
    · exact hv.pos key row hrow
    · omega

theorem Versioned.past (hv : Versioned codec s) (hrow : s.db.objects.lookup key = some row) :
    Past codec s key row := by
  refine ⟨hv.sound.stamped key row hrow, hv.pos key row hrow, hv.sound.bounded key row hrow, ?_⟩
  intro row' hrow' _
  exact Option.some.inj (hrow'.symm.trans hrow)

theorem Past.exec (hp : Past codec s key row) (o : AppOp β) (f : List Bool) :
    Past codec (exec codec s o f).1 key row := by
  refine ⟨hp.stamped, hp.pos, hp.bounded.trans (exec_revision_le o f), fun row' hrow' hr => ?_⟩
  rcases exec_lookup hrow' with hold | hlt
  · exact hp.same row' hold hr
  · have := hp.bounded
    omega

theorem Known.exec (hk : Known codec s h) (o : AppOp β) (f : List Bool) :
    Known codec (exec codec s o f).1 h := by
  refine ⟨fun e he p hp => (hk.read e he p hp).exec o f, fun key value expected rv hmem => ?_⟩
  obtain ⟨hle, hrow⟩ := hk.written key value expected rv hmem
  refine ⟨hle.trans (exec_revision_le o f), fun row hl hr => ?_⟩
  rcases exec_lookup hl with hold | hlt
  · exact hrow row hold hr
  · omega

theorem mem_rowsUnder :
    p ∈ rowsUnder db pre ↔ db.objects.lookup p.1 = some p.2 ∧ Text.startsWith p.1 pre := by
  simp only [rowsUnder, mem_insertionSort, mem_map, mem_filter]
  constructor
  · rintro ⟨e, ⟨he, hpre⟩, rfl⟩
    exact ⟨AList.mem_lookup_iff.mpr he, hpre⟩
  · rintro ⟨hl, hpre⟩
    exact ⟨⟨p.1, p.2⟩, ⟨AList.mem_lookup_iff.mp hl, hpre⟩, rfl⟩

theorem exec_rowsRead (hp : p ∈ rowsRead ⟨o, (exec codec s o f).2⟩) : s.db.objects.lookup p.1 = some p.2 := by
  cases o with
  | get key =>
    rcases exec_get codec s key f with he | he
    · simp [he, rowsRead] at hp
    · rw [he] at hp
      cases hl : s.db.objects.lookup key with
      | none => simp [rowsRead, hl] at hp
      | some row =>
        obtain rfl : p = (key, row) := by simpa [rowsRead, hl] using hp
        exact hl
  | list pre =>
    rcases exec_list codec s f pre with he | he
    · simp [he, rowsRead] at hp
    · rw [he] at hp
      exact (mem_rowsUnder.mp hp).1
  | _ => simp [rowsRead] at hp

theorem Known.step (hv : Versioned codec s) (hk : Known codec s h) (o : AppOp β) (f : List Bool) :
    Known codec (Handlers.exec codec s o f).1 (h ++ [⟨o, (Handlers.exec codec s o f).2⟩]) := by
  have hk' := hk.exec o f
  constructor
  · intro e he p hp
    rcases mem_append.mp he with he | he
    · exact hk'.read e he p hp
    · obtain rfl := mem_singleton.mp he
      exact (hv.past (exec_rowsRead hp)).exec o f
  · intro key value expected rv hmem
    rcases mem_append.mp hmem with hmem | hmem
    · exact hk'.written key value expected rv hmem
    · have he := mem_singleton.mp hmem
      obtain rfl : AppOp.put key value expected = o := congrArg Sigma.fst he
      have hrv : (Handlers.exec codec s (.put key value expected) f).2 = .ok rv :=
        (eq_of_heq (Sigma.mk.inj he).2).symm
      obtain ⟨e, hx⟩ | ⟨row, hrow, -, heq, hx⟩ | ⟨stamped, ns, objName, -, -, hst, hx⟩ :=
        exec_put codec s key f value expected
      · rw [hx] at hrv
        cases hrv
      · rw [hx] at hrv ⊢
        cases hrv
        refine ⟨hv.sound.bounded key row hrow, fun row' hrow' _ => ?_⟩
        obtain rfl : row' = row := Option.some.inj (hrow'.symm.trans hrow)
        exact carries_of_semanticallyEqual heq
      · rw [hx] at hrv ⊢
        cases hrv
        refine ⟨le_rfl, fun row' hrow' _ => ?_⟩
        rw [wrote_lookup] at hrow'
        cases hrow'
        exact carries_of_stamp hst

theorem Past.of_checkExpected (hp : Past codec s key row)
    (hchk : checkExpected key ((s.db.objects.lookup key).map Row.revision) (some row.revision) = .ok ()) :
    s.db.objects.lookup key = some row := by
  obtain ⟨row', hrow', hrev⟩ := Option.map_eq_some_iff.mp (checkExpected_pos hp.pos hchk)
  rw [hrow', hp.same row' hrow' hrev]

theorem Past.resourceVersion_eq (hp : Past codec s key row) (hb : codec.fromSlice row.value = some body) :
    resourceVersion body = some (toString row.revision) := by
  obtain ⟨obj, hobj, hrv, -⟩ := hp.stamped
  obtain rfl : obj = body := Option.some.inj (hobj.symm.trans hb)
  rw [resourceVersion, hrv]
  rfl

theorem Past.of_resourceVersion (hp : Past codec s key row) (hb : codec.fromSlice row.value = some body)
    (hrv : resourceVersion new = resourceVersion body)
    (he : parseResourceVersion (resourceVersion new) = .ok expected)
    (hchk : checkExpected key ((s.db.objects.lookup key).map Row.revision) expected = .ok ()) :
    s.db.objects.lookup key = some row := by
  rw [hrv, hp.resourceVersion_eq hb] at he
  obtain rfl := parseResourceVersion_toString hp.pos he
  exact hp.of_checkExpected hchk

theorem known_nil (s : AppState β) : Known codec s [] := ⟨nofun, nofun⟩

theorem known_preserves {α : Type} (G : ℕ → History β → AppOp β → Prop)
    (C : World (AppState β) (AppOp β) AppOp.Reply α → ℕ × List Bool → Prop) :
    World.Preserves (exec codec) G C (fun s past => Versioned codec s ∧ ∀ i, Known codec s (past i)) := by
  intro w i f o k _ hi _ _
  refine ⟨hi.1.exec o f, fun j => ?_⟩
  by_cases hj : j = i
  · subst hj
    rw [Function.update_self]
    exact (hi.2 j).step hi.1 o f
  · rw [Function.update_of_ne hj]
    exact (hi.2 j).exec o f

variable (codec) in
def storedObject (s : AppState β) (key : String) : Option Json :=
  (s.db.objects.lookup key).bind (fun row => codec.fromSlice row.value)

theorem storedObject_of_lookup (hrow : s.db.objects.lookup k = some row)
    (hb : codec.fromSlice row.value = some body) : storedObject codec s k = some body := by
  rw [storedObject, hrow]
  exact hb

theorem storedObject_congr (hk : s'.db.objects.lookup k = s.db.objects.lookup k) :
    storedObject codec s' k = storedObject codec s k := by
  rw [storedObject, hk, storedObject]

theorem storedObject_wrote (k : String)
    (hst : stampResourceVersion codec (codec.toVec new) (s.db.revision + 1) = .ok (stamped, n, objName)) :
    ∃ stored, codec.fromSlice (codec.toVec new) = some (new.mapFloats codec.refloat) ∧
      storedObject codec (s.wrote k stamped n objName) k = some stored ∧ Carries new stored := by
  obtain ⟨put, stored, hput, hstored, hc⟩ := carries_of_stamp hst
  obtain rfl := codec.fromSlice_toVec_some hput
  refine ⟨stored, hput, ?_, (carries_mapFloats _ _).trans hc⟩
  rw [storedObject, wrote_lookup]
  exact hstored

end U7s.Handlers
