import U7s.Lib.Text
import U7s.Patch.Members

/-! How the elements of a keyed list are told apart. The code looks them up by the text of their merge-key fields
(`keyOf`), which is another for other fields; from there on the fields stand for the text. -/

namespace U7s.Patch

open List
open Text (append_cons_inj)

abbrev KeyFields := List (String × Json)

def presentKeyFields (v : Json) (mergeKeys : List String) : KeyFields :=
  mergeKeys.filterMap (fun k => (v.get? k).map (fun val => (k, val)))

def indexFields (v : Json) (mergeKeys : List String) : KeyFields :=
  let f := presentKeyFields v mergeKeys
  if mergeKeys.any (fun k => k = "protocol") && !f.any (fun g => g.1 = "protocol") then f ++ [("protocol", .str "TCP")]
  else f

/-- How values print: two values alike never, and a control character only escaped. -/
structure Printer where
  text : Json → String
  injective : text.Injective
  escaped : ∀ v, '\x00' ∉ (text v).toList

def keyOf (printer : Printer) (fields : KeyFields) : String :=
  fields.foldl (fun s f => s ++ f.1 ++ "=" ++ printer.text f.2 ++ "\x00") ""

theorem toList_keyOf (printer : Printer) (fields : KeyFields) : (keyOf printer fields).toList =
    fields.flatMap (fun f => f.1.toList ++ '=' :: ((printer.text f.2).toList ++ ['\x00'])) := by
  induction fields using reverseRecOn with
  | nil => rfl
  | append_singleton fields f ih =>
    rw [keyOf, foldl_append, flatMap_append, ← ih]
    simp [keyOf]

theorem keyOf_injective (printer : Printer) (hf : ∀ f ∈ fields, '=' ∉ f.1.toList)
    (hg : ∀ g ∈ fields', '=' ∉ g.1.toList) (h : keyOf printer fields = keyOf printer fields') : fields = fields' := by
  have htext := congrArg String.toList h
  rw [toList_keyOf, toList_keyOf] at htext
  clear h
  induction fields generalizing fields' with
  | nil =>
    cases fields' with
    | nil => rfl
    | cons g fields' => simp at htext
  | cons f fields ih =>
    cases fields' with
    | nil => simp at htext
    | cons g fields' =>
      obtain ⟨hf, hfs⟩ := forall_mem_cons.mp hf
      obtain ⟨hg, hgs⟩ := forall_mem_cons.mp hg
      simp only [flatMap_cons, append_assoc, cons_append, nil_append] at htext
      obtain ⟨hname, htext⟩ := append_cons_inj hf hg htext
      obtain ⟨hvalue, htext⟩ := append_cons_inj (printer.escaped f.2) (printer.escaped g.2) htext
      rw [Prod.ext (String.toList_injective hname) (printer.injective (String.toList_injective hvalue)),
        ih hfs hgs htext]

def masksOf (lookups : List KeyFields) : List (List String) :=
  lookups.foldl (fun masks f =>
    if f = [] then masks
    else if f.map Prod.fst ∈ masks then masks else masks ++ [f.map Prod.fst]) []

def keysFor (fields : KeyFields) (masks : List (List String)) : List KeyFields :=
  masks.filterMap (fun mask => mask.mapM (fun n => fields.find? (fun f => f.1 = n)))

structure KeyIndex where
  masks : List (List String)
  map : AList (fun _ : KeyFields => List ℕ)

namespace KeyIndex

def new (masks : List (List String)) : KeyIndex := ⟨masks, ∅⟩

def insert (index : KeyIndex) (pos : ℕ) (fields : KeyFields) : KeyIndex :=
  { index with
    map := (keysFor fields index.masks).foldl (fun m k => m.insert k ((m.lookup k).getD [] ++ [pos])) index.map }

def get (index : KeyIndex) (lookup : KeyFields) : List ℕ :=
  if lookup = [] then [] else (index.map.lookup lookup).getD []

end KeyIndex

def firstByKey (lookups : List KeyFields) : AList (fun _ : KeyFields => ℕ) :=
  lookups.zipIdx.foldl (fun m e => if e.1 = [] ∨ e.1 ∈ m then m else m.insert e.1 e.2) ∅

def firstMatching (first : AList (fun _ : KeyFields => ℕ)) (masks : List (List String)) (fields : KeyFields) :
    Option ℕ :=
  ((keysFor fields masks).filterMap (fun k => first.lookup k)).min?

section Scan

def agrees (fields lookup : KeyFields) : Bool :=
  lookup.all (fun f => fields.find? (fun g => g.1 = f.1) = some f)

variable {fields lookup : KeyFields} {masks : List (List String)} {mask : List String} {lookups : List KeyFields}

theorem mapM_find?_eq_some : mask.mapM (fun n => fields.find? (fun f => f.1 = n)) = some lookup ↔
    lookup.map Prod.fst = mask ∧ agrees fields lookup := by
  induction mask generalizing lookup with
  | nil =>
    cases lookup with
    | nil => simp [agrees]
    | cons f lookup => simp
  | cons n mask ih =>
    rw [mapM_cons]
    cases lookup with
    | nil => simp [Option.bind_eq_some_iff]
    | cons f lookup =>
      simp only [Option.bind_eq_bind, Option.pure_def, Option.bind_eq_some_iff, Option.some.injEq, cons.injEq,
        map_cons, agrees, all_cons, Bool.and_eq_true, decide_eq_true_eq]
      constructor
      · rintro ⟨g, hg, rest, hrest, rfl, rfl⟩
        have hfound := find?_some hg
        have hn : g.1 = n := of_decide_eq_true hfound
        obtain ⟨hmask, hall⟩ := ih.mp hrest
        exact ⟨⟨hn, hmask⟩, hn ▸ hg, hall⟩
      · rintro ⟨⟨hn, hmask⟩, hf, hall⟩
        exact ⟨f, hn ▸ hf, lookup, ih.mpr ⟨hmask, hall⟩, rfl, rfl⟩

theorem mem_keysFor : lookup ∈ keysFor fields masks ↔ lookup.map Prod.fst ∈ masks ∧ agrees fields lookup := by
  simp only [keysFor, mem_filterMap, mapM_find?_eq_some]
  constructor
  · rintro ⟨mask, hmask, rfl, hall⟩
    exact ⟨hmask, hall⟩
  · rintro ⟨hmask, hall⟩
    exact ⟨_, hmask, rfl, hall⟩

theorem nodup_keysFor (h : masks.Nodup) : (keysFor fields masks).Nodup := by
  apply h.filterMap
  intro mask mask' lookup hm hm'
  exact (mapM_find?_eq_some.mp hm).1.symm.trans (mapM_find?_eq_some.mp hm').1

theorem masksOf_concat (f : KeyFields) : masksOf (lookups ++ [f]) =
    if f = [] then masksOf lookups
    else if f.map Prod.fst ∈ masksOf lookups then masksOf lookups else masksOf lookups ++ [f.map Prod.fst] := by
  rw [masksOf, foldl_append]
  rfl

theorem mem_masksOf : mask ∈ masksOf lookups ↔ ∃ f ∈ lookups, f ≠ [] ∧ f.map Prod.fst = mask := by
  induction lookups using reverseRecOn with
  | nil => simp [masksOf]
  | append_singleton lookups f ih =>
    rw [masksOf_concat]
    split_ifs with hf hmem
    · simp [ih, hf]
    · rw [ih]
      constructor
      · rintro ⟨g, hg, h⟩
        exact ⟨g, mem_append_left _ hg, h⟩
      · rintro ⟨g, hg, hne, rfl⟩
        rcases mem_append.mp hg with hg | hg
        · exact ⟨g, hg, hne, rfl⟩
        · rw [mem_singleton] at hg
          subst hg
          exact ih.mp hmem
    · simp only [mem_append, mem_singleton, ih]
      constructor
      · rintro (⟨g, hg, h⟩ | rfl)
        · exact ⟨g, .inl hg, h⟩
        · exact ⟨f, .inr rfl, hf, rfl⟩
      · rintro ⟨g, hg | rfl, hne, rfl⟩
        · exact .inl ⟨g, hg, hne, rfl⟩
        · exact .inr rfl

theorem nodup_masksOf (lookups : List KeyFields) : (masksOf lookups).Nodup := by
  induction lookups using reverseRecOn with
  | nil => exact nodup_nil
  | append_singleton lookups f ih =>
    rw [masksOf_concat]
    split_ifs with hf hmem
    · exact ih
    · exact ih
    · refine Nodup.append ih (nodup_singleton _) ?_
      rw [disjoint_singleton]
      exact hmem

theorem firstByKey_concat (f : KeyFields) : firstByKey (lookups ++ [f]) =
    if f = [] ∨ f ∈ firstByKey lookups then firstByKey lookups
    else (firstByKey lookups).insert f lookups.length := by
  rw [firstByKey, zipIdx_append, foldl_append, zero_add]
  rfl

theorem lookup_firstByKey (k : KeyFields) : (firstByKey lookups).lookup k =
    if k = [] then none else lookups.findIdx? (fun f => f = k) := by
  induction lookups using reverseRecOn with
  | nil => simp [firstByKey]
  | append_singleton lookups f ih =>
    rw [firstByKey_concat, findIdx?_append]
    by_cases hk : k = f
    · subst hk
      by_cases hempty : k = []
      · rw [if_pos (.inl hempty), ih]
        simp [hempty]
      · have hmem : k ∈ firstByKey lookups ↔ (lookups.findIdx? (fun f => f = k)).isSome := by
          rw [← AList.lookup_isSome, ih, if_neg hempty]
        cases hfind : lookups.findIdx? (fun f => f = k) with
        | none =>
          rw [if_neg (by simp [hempty, hmem, hfind])]
          simp [hempty]
        | some i =>
          rw [if_pos (.inr (by simp [hmem, hfind])), ih]
          simp [hfind]
    · have hother : (if f = [] ∨ f ∈ firstByKey lookups then firstByKey lookups
          else (firstByKey lookups).insert f lookups.length).lookup k = (firstByKey lookups).lookup k := by
        split_ifs
        · rfl
        · exact AList.lookup_insert_ne hk
      rw [hother, ih]
      simp [Ne.symm hk]

theorem firstMatching_eq (lookups : List KeyFields) (fields : KeyFields) :
    firstMatching (firstByKey lookups) (masksOf lookups) fields =
      lookups.findIdx? (fun f => f ≠ [] && agrees fields f) := by
  have hmem : ∀ i, i ∈ (keysFor fields (masksOf lookups)).filterMap (fun k => (firstByKey lookups).lookup k) ↔
      ∃ k, k ≠ [] ∧ agrees fields k ∧ lookups.findIdx? (fun f => f = k) = some i := by
    intro i
    simp only [mem_filterMap, mem_keysFor, mem_masksOf, lookup_firstByKey]
    constructor
    · rintro ⟨k, ⟨-, hagrees⟩, hk⟩
      split_ifs at hk with hempty
      exact ⟨k, hempty, hagrees, hk⟩
    · rintro ⟨k, hempty, hagrees, hk⟩
      refine ⟨k, ⟨⟨k, ?_, hempty, rfl⟩, hagrees⟩, by rw [if_neg hempty, hk]⟩
      obtain ⟨hi, hget, -⟩ := findIdx?_eq_some_iff_getElem.mp hk
      rw [← of_decide_eq_true hget]
      exact getElem_mem hi
  have hbound : ∀ i k, k ≠ [] → agrees fields k → lookups.findIdx? (fun f => f = k) = some i →
      ∃ hi : i < lookups.length, (lookups[i] ≠ [] && agrees fields lookups[i]) := by
    intro i k hempty hagrees hk
    obtain ⟨hi, hget, -⟩ := findIdx?_eq_some_iff_getElem.mp hk
    refine ⟨hi, ?_⟩
    rw [of_decide_eq_true hget]
    simp [hempty, hagrees]
  rw [firstMatching]
  cases hfind : lookups.findIdx? (fun f => f ≠ [] && agrees fields f) with
  | none =>
    rw [min?_eq_none_iff, eq_nil_iff_forall_not_mem]
    intro i hi
    obtain ⟨k, hempty, hagrees, hk⟩ := (hmem i).mp hi
    obtain ⟨hlt, hsat⟩ := hbound i k hempty hagrees hk
    have hnone := findIdx?_eq_none_iff.mp hfind _ (getElem_mem hlt)
    rw [hsat] at hnone
    cases hnone
  | some i =>
    obtain ⟨hi, hsat, hfirst⟩ := findIdx?_eq_some_iff_getElem.mp hfind
    have hsat' : lookups[i] ≠ [] ∧ agrees fields lookups[i] := by simpa using hsat
    rw [min?_eq_some_iff]
    constructor
    · refine (hmem i).mpr ⟨lookups[i], hsat'.1, hsat'.2, ?_⟩
      rw [findIdx?_eq_some_iff_getElem]
      refine ⟨hi, by simp, fun j hj => ?_⟩
      intro heq
      apply hfirst j hj
      rw [of_decide_eq_true heq]
      exact hsat
    · intro j hj
      obtain ⟨k, hempty, hagrees, hk⟩ := (hmem j).mp hj
      obtain ⟨hlt, hsatj⟩ := hbound j k hempty hagrees hk
      by_contra hlt'
      exact hfirst j (not_le.mp hlt') hsatj

end Scan

end U7s.Patch
