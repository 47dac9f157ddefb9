import U7s.Patch.Strategic

namespace U7s.CustomResources

open Patch Json
open List hiding lookup insert

theorem members_induction {motive : Json → Prop} (obj : ∀ fs, (∀ f ∈ fs, motive f.2) → motive (.obj fs))
    (arr : ∀ items, (∀ v ∈ items, motive v) → motive (.arr items)) (rest : ∀ v, depth v = 0 → motive v) :
    ∀ v, motive v :=
  @rec motive (fun items => ∀ v ∈ items, motive v) (fun fs => ∀ f ∈ fs, motive f.2) (fun f => motive f.2)
    (rest _ rfl) (fun _ => rest _ rfl) (fun _ => rest _ rfl) (fun _ => rest _ rfl) arr obj
    (forall_mem_nil _) (fun _ _ hv hvs => forall_mem_cons.mpr ⟨hv, hvs⟩)
    (forall_mem_nil _) (fun _ _ hf hfs => forall_mem_cons.mpr ⟨hf, hfs⟩) (fun _ _ hv => hv)

def properties (schema : Json) : Option (List (String × Json)) :=
  match schema.get? "properties" with
  | some (.obj ps) => some ps
  | _ => none

def memberSchema (schema : Json) (key : String) : Option Json :=
  (lookup key ((properties schema).getD [])).orElse (fun _ => additionalPropertiesSchema schema)

def itemsSchema (schema : Json) : Option Json :=
  if (properties schema).isSome || (additionalPropertiesSchema schema).isSome then none else schema.get? "items"

def insertDefault (fs : List (String × Json)) (property : String × Json) : List (String × Json) :=
  match lookup property.1 fs, property.2.get? "default" with
  | none, some d => Json.insert property.1 d fs
  | _, _ => fs

mutual

def applyCrdSchemaDefaults (schema : Json) : Json → Json
  | .obj fs => .obj (((properties schema).getD []).foldl insertDefault (defaultMembers schema fs))
  | .arr items => .arr (defaultItems (itemsSchema schema) items)
  | v => v

def defaultMembers (schema : Json) : List (String × Json) → List (String × Json)
  | [] => []
  | (key, v) :: fs =>
    (key, match memberSchema schema key with
      | some s => applyCrdSchemaDefaults s v
      | none => v) :: defaultMembers schema fs

def defaultItems (schema : Option Json) : List Json → List Json
  | [] => []
  | v :: items =>
    (match schema with
      | some s => applyCrdSchemaDefaults s v
      | none => v) :: defaultItems schema items

end

def defaultOf (schema : Json) (key : String) : Option Json :=
  (lookup key ((properties schema).getD [])).bind (fun s => s.get? "default")

def walk : Option Json → Json → Json
  | some s, v => applyCrdSchemaDefaults s v
  | none, v => v

/-- Where an object of the value lacks a property, `A` holds of its schema and the property. -/
inductive Lacking (A : Json → String → Prop) : Json → Json → Prop
  | obj (hd : ∀ k, lookup k fs = none → A schema k)
      (hm : ∀ k v s, lookup k fs = some v → memberSchema schema k = some s → Lacking A s v) :
      Lacking A schema (.obj fs)
  | arr (hi : ∀ s, itemsSchema schema = some s → ∀ v ∈ items, Lacking A s v) : Lacking A schema (.arr items)
  | rest (h : depth v = 0) : Lacking A schema v

/-- The value lacks no property that has a default. -/
def Complete : Json → Json → Prop := Lacking (fun schema k => defaultOf schema k = none)

/-- The defaults of the properties that the value lacks lack nothing themselves. -/
def DefaultsComplete : Json → Json → Prop :=
  Lacking (fun schema k => ∀ d s, defaultOf schema k = some d → memberSchema schema k = some s → Complete s d)

/-- `w` is `v` with the defaults of properties at places where `v` lacks them. -/
inductive Filled : Json → Json → Json → Prop
  | obj (kept : ∀ k v, lookup k fs = some v → ∃ w, lookup k gs = some w)
      (alone : ∀ k v, lookup k fs = some v → memberSchema schema k = none → lookup k gs = some v)
      (walked : ∀ k v w s, lookup k fs = some v → lookup k gs = some w → memberSchema schema k = some s →
        Filled s v w)
      (added : ∀ k w, lookup k fs = none → lookup k gs = some w → defaultOf schema k = some w) :
      Filled schema (.obj fs) (.obj gs)
  | arr (hl : vs.length = ws.length) (alone : itemsSchema schema = none → ws = vs)
      (walked : ∀ (i : ℕ) v w s, vs[i]? = some v → ws[i]? = some w → itemsSchema schema = some s → Filled s v w) :
      Filled schema (.arr vs) (.arr ws)
  | rest (h : depth v = 0) : Filled schema v v

variable {schema : Json} {fs ps : List (String × Json)}

theorem defaultMembers_eq_map : defaultMembers schema fs = fs.map (fun f => (f.1, walk (memberSchema schema f.1) f.2)) := by
  induction fs with
  | nil => rfl
  | cons f fs ih => simp only [defaultMembers, ih, map_cons]; cases memberSchema schema f.1 <;> rfl

theorem defaultItems_eq_map : defaultItems c items = items.map (walk c) := by
  induction items with
  | nil => rfl
  | cons v items ih => simp only [defaultItems, ih]; cases c <;> rfl

theorem lookup_defaultMembers : lookup k (defaultMembers schema fs) = (lookup k fs).map (walk (memberSchema schema k)) := by
  rw [defaultMembers_eq_map]
  induction fs with
  | nil => rfl
  | cons f fs ih =>
    simp only [map_cons, lookup]
    split_ifs with hk
    · rw [hk]; rfl
    · exact ih

theorem lookup_insertDefault : lookup k (insertDefault fs p) =
    (lookup k fs).or (if p.1 = k then p.2.get? "default" else none) := by
  unfold insertDefault
  cases hl : lookup p.1 fs with
  | some v => grind
  | none => cases hd : p.2.get? "default" <;> grind [lookup_insert]

theorem lookup_insertDefaults (hp : Sorted ps) : lookup k (ps.foldl insertDefault fs) =
    (lookup k fs).or ((lookup k ps).bind (fun s => s.get? "default")) := by
  induction ps generalizing fs with
  | nil => exact (Option.or_none).symm
  | cons p ps ih =>
    obtain ⟨hlt, hp⟩ := pairwise_cons.mp hp
    rw [foldl_cons, ih hp, lookup_insertDefault, Option.or_assoc, lookup]
    split_ifs with hk
    · rw [hk] at hlt
      rw [lookup_eq_none_of_lt hlt]
      simp
    · rfl

theorem sorted_insertDefaults (hf : Sorted fs) : Sorted (ps.foldl insertDefault fs) := by
  induction ps generalizing fs with
  | nil => exact hf
  | cons p ps ih =>
    apply ih
    unfold insertDefault
    split
    · exact hf.insert
    · exact hf

section

variable (hs : schema.Ordered)
include hs

theorem ordered_of_get (h : schema.get? k = some s) : s.Ordered := by
  cases schema with
  | obj fs => exact OrderedFields.of_lookup hs.2 h
  | _ => cases h

theorem properties_ordered : (obj ((properties schema).getD [])).Ordered := by
  unfold properties
  split
  · next h => exact ordered_of_get hs h
  · exact ⟨Pairwise.nil, trivial⟩

theorem memberSchema_ordered (h : memberSchema schema k = some s) : s.Ordered := by
  unfold memberSchema at h
  cases hl : lookup k ((properties schema).getD []) with
  | some t =>
    rw [hl] at h
    cases h
    exact OrderedFields.of_lookup (properties_ordered hs).2 hl
  | none =>
    rw [hl] at h
    exact ordered_of_get hs (Option.filter_eq_some_iff.mp h).1

theorem itemsSchema_ordered (h : itemsSchema schema = some s) : s.Ordered := by
  unfold itemsSchema at h
  split_ifs at h
  exact ordered_of_get hs h

theorem applyCrdSchemaDefaults_obj (hf : Sorted fs) :
    ∃ gs, applyCrdSchemaDefaults schema (.obj fs) = .obj gs ∧ Sorted gs ∧
      ∀ k, lookup k gs = ((lookup k fs).map (walk (memberSchema schema k))).or (defaultOf schema k) := by
  refine ⟨_, by rw [applyCrdSchemaDefaults], sorted_insertDefaults ?_, fun k => ?_⟩
  · rw [defaultMembers_eq_map]
    exact pairwise_map.mpr hf
  · rw [lookup_insertDefaults (properties_ordered hs).1, lookup_defaultMembers]
    rfl

theorem defaultOf_ordered (h : defaultOf schema k = some d) : d.Ordered := by
  obtain ⟨s, hl, hd⟩ := Option.bind_eq_some_iff.mp h
  exact ordered_of_get (OrderedFields.of_lookup (properties_ordered hs).2 hl) hd

theorem lacking_iff {A : Json → String → Prop} {F : Json → Json → Prop}
    (hobj : ∀ schema fs, schema.Ordered → Sorted fs → (F schema (.obj fs) ↔ (∀ k, lookup k fs = none → A schema k) ∧
      ∀ k v, lookup k fs = some v → ∀ s, memberSchema schema k = some s → F s v))
    (harr : ∀ schema items, F schema (.arr items) ↔ ∀ v ∈ items, ∀ s, itemsSchema schema = some s → F s v)
    (hrest : ∀ schema v, depth v = 0 → F schema v) (hv : v.Ordered) : F schema v ↔ Lacking A schema v := by
  induction v using members_induction generalizing schema with
  | obj fs ih =>
    have hm := fun k v (hk : lookup k fs = some v) s (hs' : memberSchema schema k = some s) =>
      ih _ (mem_of_lookup hk) (memberSchema_ordered hs hs') (hv.2.of_lookup hk)
    rw [hobj schema fs hs hv.1]
    constructor
    · rintro ⟨hd, h⟩
      exact .obj hd (fun k v s hk hs' => (hm k v hk s hs').mp (h k v hk s hs'))
    · rintro (⟨hd, h⟩ | _ | h)
      · exact ⟨hd, fun k v hk s hs' => (hm k v hk s hs').mpr (h k v s hk hs')⟩
      · cases h
  | arr items ih =>
    have hm := fun v (hv' : v ∈ items) s (hs' : itemsSchema schema = some s) =>
      ih v hv' (itemsSchema_ordered hs hs') (orderedItems_iff.mp hv v hv')
    rw [harr]
    constructor
    · exact fun h => .arr (fun s hs' v hv' => (hm v hv' s hs').mp (h v hv' s hs'))
    · rintro (_ | h | h)
      · exact fun v hv' s hs' => (hm v hv' s hs').mpr (h s hs' v hv')
      · cases h
  | rest v h => exact iff_of_true (hrest schema v h) (.rest h)

theorem fixed_iff (hv : v.Ordered) : applyCrdSchemaDefaults schema v = v ↔ Complete schema v := by
  refine lacking_iff (F := fun schema v => applyCrdSchemaDefaults schema v = v) hs (fun schema fs hs hf => ?_) (fun schema items => ?_) (fun schema v h => ?_) hv
  · obtain ⟨gs, he, hg, hl⟩ := applyCrdSchemaDefaults_obj hs hf
    have hext : gs = fs ↔ ∀ k, lookup k gs = lookup k fs := ⟨by rintro rfl k; rfl, hg.ext hf⟩
    rw [he, obj.injEq, hext, ← forall_and]
    refine forall_congr' fun k => ?_
    rw [hl]
    cases lookup k fs <;> cases memberSchema schema k <;> simp [walk]
  · rw [applyCrdSchemaDefaults, defaultItems_eq_map, arr.injEq]
    refine (Eq.congr_right (map_id items).symm).trans (map_inj_left.trans ?_)
    cases itemsSchema schema <;> simp [walk]
  · cases v with
    | arr | obj => cases h
    | _ => rfl

theorem again_iff (hv : v.Ordered) :
    applyCrdSchemaDefaults schema (applyCrdSchemaDefaults schema v) = applyCrdSchemaDefaults schema v ↔
      DefaultsComplete schema v := by
  refine lacking_iff (F := fun schema v =>
    applyCrdSchemaDefaults schema (applyCrdSchemaDefaults schema v) = applyCrdSchemaDefaults schema v) hs (fun schema fs hs hf => ?_) (fun schema items => ?_) (fun schema v h => ?_) hv
  · obtain ⟨gs, he, hg, hl⟩ := applyCrdSchemaDefaults_obj hs hf
    obtain ⟨gs', he', hg', hl'⟩ := applyCrdSchemaDefaults_obj hs hg
    have hext : gs' = gs ↔ ∀ k, lookup k gs' = lookup k gs := ⟨by rintro rfl k; rfl, hg'.ext hg⟩
    rw [he, he', obj.injEq, hext, ← forall_and]
    refine forall_congr' fun k => ?_
    rw [hl', hl]
    have hd := fun d s (h : defaultOf schema k = some d) (h' : memberSchema schema k = some s) =>
      fixed_iff (memberSchema_ordered hs h') (defaultOf_ordered hs h)
    cases lookup k fs <;> cases hm : defaultOf schema k <;> cases hm' : memberSchema schema k <;> simp_all [walk]
  · simp only [applyCrdSchemaDefaults, defaultItems_eq_map, arr.injEq, map_map, map_inj_left]
    cases itemsSchema schema <;> simp [walk]
  · cases v with
    | arr | obj => cases h
    | _ => rfl

end

theorem filled (hs : schema.Ordered) (hv : v.Ordered) : Filled schema v (applyCrdSchemaDefaults schema v) := by
  induction v using members_induction generalizing schema with
  | obj fs ih =>
    obtain ⟨gs, he, -, hl⟩ := applyCrdSchemaDefaults_obj hs hv.1
    rw [he]
    refine .obj (fun k v hk => ⟨_, by rw [hl, hk]; rfl⟩) (fun k v hk hm => by rw [hl, hk, hm]; rfl)
      (fun k v w s hk hw hm => ?_) (fun k w hk hw => by rwa [hl, hk] at hw)
    rw [hl, hk, hm] at hw
    cases hw
    exact ih _ (mem_of_lookup hk) (memberSchema_ordered hs hm) (hv.2.of_lookup hk)
  | arr items ih =>
    rw [applyCrdSchemaDefaults, defaultItems_eq_map]
    refine .arr (length_map _).symm (fun hi => by rw [hi]; exact map_id _) (fun i v w s hi hw hs' => ?_)
    rw [getElem?_map, hi, hs'] at hw
    cases hw
    have hv' := mem_of_getElem? hi
    exact ih v hv' (itemsSchema_ordered hs hs') (orderedItems_iff.mp hv v hv')
  | rest v h =>
    cases v with
    | arr | obj => cases h
    | _ => exact .rest h

theorem crd_defaults_stable_iff (schema v : Json) (hs : schema.Ordered) (hv : v.Ordered) :
    Filled schema v (applyCrdSchemaDefaults schema v) ∧
      (applyCrdSchemaDefaults schema (applyCrdSchemaDefaults schema v) = applyCrdSchemaDefaults schema v ↔
        DefaultsComplete schema v) :=
  ⟨filled hs hv, again_iff hs hv⟩

def nested (default : Json) : Json :=
  .obj [("properties", .obj [("a", .obj [("default", default),
    ("properties", .obj [("b", .obj [("default", .str "x")])])])])]

theorem crd_defaults_unstable :
    applyCrdSchemaDefaults (nested (.obj [])) (applyCrdSchemaDefaults (nested (.obj [])) (.obj [])) ≠
      applyCrdSchemaDefaults (nested (.obj [])) (.obj []) := by
  decide +kernel

theorem crd_defaults_stable_nested : DefaultsComplete (nested (.obj [("b", .str "y")])) (.obj []) := by
  refine (crd_defaults_stable_iff _ _ ?_ ?_).2.mp (by decide +kernel)
  · simp only [nested, Ordered, OrderedFields, Sorted]
    decide +kernel
  · exact ⟨Pairwise.nil, trivial⟩

end U7s.CustomResources
