import U7s.Patch.Strategic

/-! The fields that a manager owns: a set of paths, kept as a nested object in `managedFields`. -/

namespace U7s.FieldManager

open Patch List

abbrev Path := List String

section Extract

def UNOWNED : List String :=
  ["apiVersion", "kind", "metadata.name", "metadata.namespace", "metadata.creationTimestamp", "metadata.selfLink",
    "metadata.uid", "metadata.clusterName", "metadata.generation", "metadata.managedFields",
    "metadata.resourceVersion"]

def MAP_FIELDS : List String := ["metadata.labels", "metadata.annotations"]

def join (dotted key : String) : String := if dotted = "" then key else dotted ++ "." ++ key

def keyValue (v : Option Json) (key : String) : Option Json :=
  v.orElse (fun _ => if key = "protocol" then some (.str "TCP") else none)

variable (text : Json → String) (schema : Option Json)

def itemId (keys : List String) : Json → Option String
  | .obj fs =>
    if keys.any (fun k => k ≠ "protocol" && (Json.lookup k fs).isSome) then
      some ("k:" ++ text (.obj (keys.foldl (fun key k =>
        ((keyValue (Json.lookup k fs) k).map (fun v => Json.insert k v key)).getD key) [])))
    else none
  | _ => none

def itemIds (items : List Json) (keys : List String) : Option (List String) :=
  (items.mapM (itemId text keys)).filter (fun ids => ids.Nodup)

def isScalar : Json → Bool
  | .obj _ => false
  | .arr _ => false
  | .null => false
  | _ => true

mutual

def walkChildren (dotted : String) (path : Path) (m : List (String × Json)) : List (Path × Option Json) :=
  match m with
  | [] => []
  | (k, child) :: m =>
    (if join dotted k ∈ UNOWNED then [] else walkField (join dotted k) (path ++ ["f:" ++ k]) child) ++
      walkChildren dotted path m
termination_by structural m

def walkField (dotted : String) (path : Path) (v : Json) : List (Path × Option Json) :=
  match v with
  | .null => []
  | .obj [] => [(path, some (.obj []))]
  | .obj (f :: m) => (if dotted ∈ MAP_FIELDS then [(path, none)] else []) ++ walkChildren dotted path (f :: m)
  | .arr items =>
    match ssaMergeKeyForPath dotted schema with
    | .key keys =>
      match itemIds text items keys with
      | some ids => walkItems dotted path ids items
      | none => [(path, some (.arr items))]
    | .set =>
      if items.all isScalar then items.map (fun item => (path ++ ["v:" ++ text item], some item))
      else [(path, some (.arr items))]
    | _ => [(path, some (.arr items))]
  | v => [(path, some v)]
termination_by structural v

def walkItems (dotted : String) (path : Path) (ids : List String) (items : List Json) : List (Path × Option Json) :=
  match ids, items with
  | id :: ids, .obj m :: items =>
    (path ++ [id], none) :: (walkChildren dotted (path ++ [id]) m ++ walkItems dotted path ids items)
  | id :: ids, _ :: items => (path ++ [id], none) :: walkItems dotted path ids items
  | _, _ => []
termination_by structural items

end

def extract (obj : Json) : List (Path × Option Json) :=
  match obj with
  | .obj m => walkChildren text schema "" [] m
  | _ => []

end Extract

abbrev PathSet := Finset Path

inductive Node where
  | mk (member : Bool) (children : List (String × Node))

namespace Node

def empty : Node := ⟨false, []⟩

def entry (e : String) (f : Node → Node) : List (String × Node) → List (String × Node)
  | [] => [(e, f empty)]
  | (k, n) :: cs =>
    if k = e then (k, f n) :: cs
    else if e < k then (e, f empty) :: (k, n) :: cs
    else (k, n) :: entry e f cs

def insert : Path → Node → Node
  | [], ⟨_, cs⟩ => ⟨true, cs⟩
  | e :: p, ⟨m, cs⟩ => ⟨m, entry e (insert p) cs⟩

mutual

def render : Node → Json
  | ⟨m, cs⟩ => .obj (renderChildren cs (if m && !cs.isEmpty then [(".", .obj [])] else []))

def renderChildren : List (String × Node) → List (String × Json) → List (String × Json)
  | [], m => m
  | (k, c) :: cs, m => renderChildren cs (Json.insert k (render c) m)

end

end Node

def toFieldsV1 (set : PathSet) : Json := (set.sort.foldl (fun root path => root.insert path) Node.empty).render

mutual

def parseNode (path : Path) (node : Json) : List Path :=
  match node with
  | .obj [] => if path = [] then [] else [path]
  | .obj (f :: m) => parseMembers path (f :: m)
  | _ => []
termination_by structural node

def parseMembers (path : Path) (m : List (String × Json)) : List Path :=
  match m with
  | [] => []
  | (k, child) :: m => (if k = "." then [path] else parseNode (path ++ [k]) child) ++ parseMembers path m
termination_by structural m

end

def parseFieldsV1 (node : Json) : PathSet := (parseNode [] node).toFinset

namespace Node

variable {e k : String} {p q path : Path} {n : Node} {cs : List (String × Node)} {m : Bool}

def Has : Node → Path → Prop
  | ⟨m, _⟩, [] => m = true
  | ⟨_, cs⟩, e :: p => ∃ x ∈ cs, x.1 = e ∧ x.2.Has p

def Alive : Node → Prop
  | ⟨m, cs⟩ => m = true ∨ cs ≠ []

inductive Sound : Node → Prop
  | mk {m : Bool} {cs : List (String × Node)} (hkeys : (cs.map Prod.fst).Pairwise (· < ·)) (hdot : "." ∉ cs.map Prod.fst)
      (halive : ∀ x ∈ cs, x.2.Alive) (hsound : ∀ x ∈ cs, x.2.Sound) : Sound ⟨m, cs⟩

theorem not_has_empty : ¬empty.Has p := by
  cases p with
  | nil | cons e p => simp [empty, Has]

theorem has_cons : Has ⟨m, (k, n) :: cs⟩ (e :: p) ↔ k = e ∧ n.Has p ∨ Has ⟨m, cs⟩ (e :: p) := by
  simp [Has]

theorem has_insert (n : Node) (q p : Path) : (n.insert q).Has p ↔ p = q ∨ n.Has p := by
  induction q generalizing n p with
  | nil =>
    obtain ⟨m, cs⟩ := n
    cases p <;> simp [insert, Has]
  | cons e q ih =>
    obtain ⟨m, cs⟩ := n
    cases p with
    | nil => simp [insert, Has]
    | cons k p =>
      simp only [insert]
      induction cs with
      | nil =>
        rw [entry, has_cons, ih]
        simp [not_has_empty, eq_comm]
      | cons x cs ihcs =>
        unfold entry
        split_ifs with hk hlt
        · rw [has_cons, has_cons]
          grind
        · rw [has_cons, ih]
          simp only [not_has_empty]
          grind
        · rw [has_cons, has_cons]
          grind

theorem alive_insert (n : Node) (q : Path) : (n.insert q).Alive := by
  obtain ⟨m, cs⟩ := n
  cases q with
  | nil => exact .inl rfl
  | cons e q =>
    refine .inr ?_
    cases cs with
    | nil => simp [entry]
    | cons x cs =>
      unfold entry
      split_ifs <;> simp

theorem mem_entry (hx : x ∈ entry e f cs) :
    x ∈ cs ∨ x.1 = e ∧ (x.2 = f empty ∨ ∃ n, (e, n) ∈ cs ∧ x.2 = f n) := by
  induction cs with
  | nil => grind [entry]
  | cons y cs ih =>
    unfold entry at hx
    split_ifs at hx <;> grind

theorem pairwise_entry (h : (cs.map Prod.fst).Pairwise (· < ·)) :
    ((entry e f cs).map Prod.fst).Pairwise (· < ·) := by
  induction cs with
  | nil => simp [entry]
  | cons y cs ih =>
    obtain ⟨hy, hcs⟩ := pairwise_cons.mp h
    unfold entry
    split_ifs with hk hlt
    · exact h
    · exact .cons (fun k hk => (mem_cons.mp hk).elim (fun he => he ▸ hlt) (fun hm => hlt.trans (hy k hm))) h
    · refine .cons (fun k hkey => ?_) (ih hcs)
      obtain ⟨x, hx, rfl⟩ := mem_map.mp hkey
      obtain hx | ⟨he, -⟩ := mem_entry hx
      · exact hy _ (mem_map_of_mem hx)
      · exact he ▸ lt_of_le_of_ne (not_lt.mp hlt) hk

theorem Sound.empty : Sound empty := .mk (by simp) (by simp) (by simp) (by simp)

theorem Sound.insert (hn : n.Sound) (hq : "." ∉ q) : (n.insert q).Sound := by
  induction q generalizing n with
  | nil =>
    cases hn with
    | mk hkeys hdot halive hsound => exact .mk hkeys hdot halive hsound
  | cons e q ih =>
    obtain ⟨he, hq⟩ := not_or.mp (mem_cons.not.mp hq)
    cases hn with
    | @mk m cs hkeys hdot halive hsound =>
      refine .mk (pairwise_entry hkeys) (fun hmem => ?_) (fun x hx => ?_) (fun x hx => ?_)
      · obtain ⟨x, hx, hdot'⟩ := mem_map.mp hmem
        obtain hx | ⟨hx, -⟩ := mem_entry hx
        · exact hdot (hdot' ▸ mem_map_of_mem hx)
        · exact he (hdot'.symm.trans hx)
      · obtain hx | ⟨-, hx | ⟨c, -, hx⟩⟩ := mem_entry hx
        · exact halive x hx
        · exact hx ▸ alive_insert _ q
        · exact hx ▸ alive_insert _ q
      · obtain hx | ⟨-, hx | ⟨c, hc, hx⟩⟩ := mem_entry hx
        · exact hsound x hx
        · exact hx ▸ ih Sound.empty hq
        · exact hx ▸ ih (hsound _ hc) hq

theorem mem_insert_fresh (h : k ∉ fs.map Prod.fst) :
    x ∈ Json.insert k v fs ↔ x = (k, v) ∨ x ∈ fs := by
  induction fs with
  | nil => simp [Json.insert]
  | cons y fs ih =>
    unfold Json.insert
    split_ifs <;> grind

theorem mem_renderChildren {fs : List (String × Json)} {x : String × Json} (hkeys : (cs.map Prod.fst).Nodup)
    (hfs : ∀ y ∈ cs, y.1 ∉ fs.map Prod.fst) :
    x ∈ renderChildren cs fs ↔ (∃ y ∈ cs, x = (y.1, y.2.render)) ∨ x ∈ fs := by
  induction cs generalizing fs with
  | nil => simp [renderChildren]
  | cons y cs ih =>
    obtain ⟨hy, hcs⟩ := nodup_cons.mp hkeys
    have hfresh (z) : z ∈ Json.insert y.1 y.2.render fs ↔ z = (y.1, y.2.render) ∨ z ∈ fs :=
      mem_insert_fresh (hfs y mem_cons_self)
    rw [renderChildren, ih hcs (fun z hz hmem => ?_), hfresh]
    · grind
    · obtain ⟨w, hw, he⟩ := mem_map.mp hmem
      obtain rfl | hw := (hfresh w).mp hw
      · exact hy (he ▸ mem_map_of_mem hz)
      · exact hfs z (mem_cons_of_mem _ hz) (he ▸ mem_map_of_mem hw)

theorem mem_parseMembers : p ∈ parseMembers path fs ↔
    ∃ x ∈ fs, if x.1 = "." then p = path else p ∈ parseNode (path ++ [x.1]) x.2 := by
  induction fs with
  | nil => simp [parseMembers]
  | cons x fs ih =>
    simp only [parseMembers, mem_append, ih, mem_cons, exists_eq_or_imp]
    split_ifs <;> simp

theorem parseNode_obj (h : fs ≠ []) : parseNode path (.obj fs) = parseMembers path fs := by
  cases fs with
  | nil => exact absurd rfl h
  | cons x fs => rfl

theorem mem_parseNode_render (hn : n.Sound) (hpath : path = [] ∧ ¬n.Has [] ∨ path ≠ [] ∧ n.Alive) :
    p ∈ parseNode path n.render ↔ ∃ q, p = path ++ q ∧ n.Has q := by
  induction hn generalizing path p with
  | @mk m cs hkeys hdot halive _ ih =>
    by_cases hcs : cs = []
    · subst hcs
      have hrender : render ⟨m, []⟩ = .obj [] := by simp [render, renderChildren]
      have hhas (q : Path) : Has ⟨m, []⟩ q ↔ q = [] ∧ m := by cases q <;> simp [Has]
      obtain ⟨rfl, hroot⟩ | ⟨hne, rfl | hm⟩ := hpath
      · obtain rfl : m = false := by simpa [hhas] using hroot
        simp [hrender, parseNode, hhas]
      · simp [hrender, parseNode, hhas, hne]
      · exact absurd rfl hm
    have hmem (x : String × Json) : x ∈ renderChildren cs (if m then [(".", .obj [])] else []) ↔
        (∃ y ∈ cs, x = (y.1, y.2.render)) ∨ m ∧ x = (".", .obj []) := by
      rw [mem_renderChildren hkeys.nodup]
      · cases m <;> simp
      · intro y hy hdot'
        cases m with
        | false => simp at hdot'
        | true => exact hdot (mem_map.mpr ⟨y, hy, by simpa using hdot'⟩)
    have hrender : parseNode path (render ⟨m, cs⟩) =
        parseMembers path (renderChildren cs (if m then [(".", .obj [])] else [])) := by
      obtain ⟨y, hy⟩ := exists_mem_of_ne_nil cs hcs
      have hsome := (hmem (y.1, y.2.render)).mpr (.inl ⟨y, hy, rfl⟩)
      rw [← parseNode_obj (ne_nil_of_mem hsome), render]
      simp [hcs]
    have hkey {y} (hy : y ∈ cs) : y.1 ≠ "." := fun he => hdot (he ▸ mem_map_of_mem hy)
    have hchild {y} (hy : y ∈ cs) := @ih y hy p (path ++ [y.1]) (.inr ⟨by simp, halive y hy⟩)
    rw [hrender, mem_parseMembers]
    constructor
    · rintro ⟨x, hx, hp⟩
      obtain ⟨y, hy, rfl⟩ | ⟨hm, rfl⟩ := (hmem x).mp hx
      · rw [if_neg (hkey hy)] at hp
        obtain ⟨q, rfl, hq⟩ := (hchild hy).mp hp
        exact ⟨y.1 :: q, by simp, y, hy, rfl, hq⟩
      · exact ⟨[], by simpa using hp, hm⟩
    · rintro ⟨q, rfl, hq⟩
      cases q with
      | nil => exact ⟨_, (hmem _).mpr (.inr ⟨hq, rfl⟩), by simp⟩
      | cons e q =>
        obtain ⟨y, hy, rfl, hq⟩ := hq
        refine ⟨_, (hmem _).mpr (.inl ⟨y, hy, rfl⟩), ?_⟩
        rw [if_neg (hkey hy)]
        exact (hchild hy).mpr ⟨q, by simp, hq⟩

theorem foldl_insert {ps : List Path} (hn : n.Sound) (hps : ∀ q ∈ ps, "." ∉ q) :
    (ps.foldl (fun n q => n.insert q) n).Sound ∧
      ∀ p, (ps.foldl (fun n q => n.insert q) n).Has p ↔ p ∈ ps ∨ n.Has p := by
  induction ps generalizing n with
  | nil => exact ⟨hn, by simp⟩
  | cons q ps ih =>
    obtain ⟨hsound, hhas⟩ := ih (hn.insert (hps q mem_cons_self)) (fun r hr => hps r (mem_cons_of_mem _ hr))
    refine ⟨hsound, fun p => ?_⟩
    rw [foldl_cons, hhas, has_insert, mem_cons, ← or_assoc, or_comm (a := p = q)]

end Node

def Named (p : Path) : Prop := p ≠ [] ∧ "." ∉ p

theorem parseFieldsV1_toFieldsV1 {set : PathSet} (h : ∀ p ∈ set, Named p) : parseFieldsV1 (toFieldsV1 set) = set := by
  have hdot : ∀ q ∈ set.sort, "." ∉ q := fun q hq => (h q ((Finset.mem_sort _).mp hq)).2
  obtain ⟨hsound, hhas⟩ := Node.foldl_insert Node.Sound.empty hdot
  have hroot : ¬Node.Has (set.sort.foldl (fun n q => n.insert q) Node.empty) [] := by
    rw [hhas]
    rintro (hq | hq)
    · exact (h _ ((Finset.mem_sort _).mp hq)).1 rfl
    · exact Node.not_has_empty hq
  ext p
  rw [parseFieldsV1, mem_toFinset, toFieldsV1, Node.mem_parseNode_render hsound (.inl ⟨rfl, hroot⟩)]
  simp [hhas, Node.not_has_empty]

section Walk

variable {text : Json → String} {schema : Option Json} {path : Path}

theorem ne_dot (s t : String) (hs : 2 ≤ s.length) : s ++ t ≠ "." := by
  intro h
  have hlen := congrArg String.length h
  rw [String.length_append] at hlen
  have : ".".length = 1 := rfl
  omega

theorem Named.concat (hpath : "." ∉ path) (ha : a ≠ ".") : Named (path ++ [a]) := by
  refine ⟨by simp, fun hmem => ?_⟩
  obtain hmem | hmem := mem_append.mp hmem
  · exact hpath hmem
  · exact ha (mem_singleton.mp hmem).symm

theorem ne_dot_of_itemIds {items : List Json} {keys : List String}
    (h : items.mapM (itemId text keys) = some ids) : ∀ id ∈ ids, id ≠ "." := by
  induction items generalizing ids with
  | nil =>
    cases h
    simp
  | cons item items ih =>
    simp only [mapM_cons, Option.bind_eq_bind, Option.bind_eq_some_iff, Option.pure_def, Option.some.injEq] at h
    obtain ⟨id, hid, ids', hids, rfl⟩ := h
    intro id' hid'
    obtain rfl | hid' := mem_cons.mp hid'
    · cases item with
      | obj fs =>
        rw [itemId] at hid
        split_ifs at hid
        cases hid
        exact ne_dot "k:" _ (by decide)
      | _ => cases hid
    · exact ih hids id' hid'

mutual

theorem named_walkChildren (dotted : String) (path : Path) (m : List (String × Json)) (hpath : "." ∉ path) :
    ∀ x ∈ walkChildren text schema dotted path m, Named x.1 :=
  match m with
  | [] => by simp [walkChildren]
  | (k, child) :: m => by
    intro x hx
    obtain hx | hx := mem_append.mp hx
    · split_ifs at hx
      · cases hx
      · exact named_walkField _ _ child (.concat hpath (ne_dot "f:" k (by decide))) x hx
    · exact named_walkChildren dotted path m hpath x hx

theorem named_walkField (dotted : String) (path : Path) (v : Json) (hpath : Named path) :
    ∀ x ∈ walkField text schema dotted path v, Named x.1 :=
  have hself (j : Option Json) : ∀ x ∈ [(path, j)], Named x.1 := by simpa using hpath
  match v with
  | .null => by simp [walkField]
  | .obj [] => hself _
  | .obj (f :: m) => by
    intro x hx
    obtain hx | hx := mem_append.mp hx
    · split_ifs at hx
      · exact hself _ x hx
      · cases hx
    · exact named_walkChildren dotted path (f :: m) hpath.2 x hx
  | .arr items => by
    rw [walkField]
    split
    · split
      · rename_i hids
        exact named_walkItems dotted path _ items hpath.2 (ne_dot_of_itemIds (Option.filter_eq_some_iff.mp hids).1)
      · exact hself _
    · split_ifs
      · intro x hx
        obtain ⟨item, -, rfl⟩ := mem_map.mp hx
        exact .concat hpath.2 (ne_dot "v:" _ (by decide))
      · exact hself _
    · exact hself _
  | .bool _ | .num _ => hself _
  | .str _ => hself _

theorem named_walkItems (dotted : String) (path : Path) (ids : List String) (items : List Json) (hpath : "." ∉ path)
    (hids : ∀ id ∈ ids, id ≠ ".") : ∀ x ∈ walkItems text schema dotted path ids items, Named x.1 :=
  match ids, items with
  | [], _ | _ :: _, [] => by simp [walkItems]
  | id :: ids, item :: items => by
    have hid : Named (path ++ [id]) := .concat hpath (hids id mem_cons_self)
    have hrest := named_walkItems dotted path ids items hpath (fun id hid => hids id (mem_cons_of_mem _ hid))
    cases item with
    | obj m =>
      intro x hx
      obtain rfl | hx := mem_cons.mp hx
      · exact hid
      obtain hx | hx := mem_append.mp hx
      · exact named_walkChildren dotted _ m hid.2 x hx
      · exact hrest x hx
    | _ => exact forall_mem_cons.mpr ⟨hid, hrest⟩

end

theorem fieldsV1_round_trips (text : Json → String) (schema : Option Json) (obj : Json) :
    parseFieldsV1 (toFieldsV1 ((extract text schema obj).map Prod.fst).toFinset) =
      ((extract text schema obj).map Prod.fst).toFinset := by
  apply parseFieldsV1_toFieldsV1
  intro p hp
  obtain ⟨x, hx, rfl⟩ := mem_map.mp (mem_toFinset.mp hp)
  cases obj with
  | obj m => exact named_walkChildren "" [] m not_mem_nil x hx
  | _ => cases hx

end Walk

end U7s.FieldManager
