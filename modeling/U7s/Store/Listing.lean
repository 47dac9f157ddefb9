import U7s.Handlers.FieldSelector
import U7s.Lib.Paging
import U7s.Store.Keys
import U7s.Store.Revisions

namespace U7s.Store

open List Option

open Handlers (FieldSelector.walk FieldSelector.jsonPathEquals)

structure StoreObject (β : Type) where
  key : String
  value : β
  revision : ℕ
  deriving DecidableEq

structure FieldSelector where
  field : String
  value : String
  negated : Bool
  deriving DecidableEq

structure ListOptions where
  fieldSelector : Option FieldSelector
  limit : Option ℕ
  continueKey : Option String

structure ListResponse (β : Type) where
  items : List (StoreObject β)
  revision : ℕ
  continueKey : Option String
  remainingCount : Option ℕ
  deriving DecidableEq

def raiseLast : List UInt8 → Option (List UInt8)
  | [] => none
  | b :: bytes => if b < 0xFF then some ((b + 1) :: bytes) else (raiseLast bytes).map (0x00 :: ·)

def prefixUpperBound (p : String) : Option String :=
  match raiseLast p.toUTF8.data.toList.reverse with
  | none => some ""
  | some bytes => String.fromUTF8? ⟨bytes.reverse.toArray⟩

def inRange (p upper key : String) : Bool := p ≤ key && (upper = "" || key < upper)

def pastCursor (ck key : String) : Bool := ck = "" || ck < key

def clampListLimit (limit : Option ℕ) : Option ℕ := limit.filter (fun l => l < 2 ^ 63 - 1 - 1)

inductive SqlValue where
  | null
  | text (s : String)
  | number

def asciiLower (c : Char) : Char := if 'A' ≤ c ∧ c ≤ 'Z' then Char.ofNat (c.toNat + 32) else c

def like : List Char → List Char → Bool
  | [], s => s = []
  | c :: pattern, s =>
    if c = '%' then s.tails.any (like pattern)
    else
      match s with
      | [] => false
      | d :: s => (c = '_' || asciiLower c = asciiLower d) && like pattern s

def jsonExtract (render : Json → String) (obj : Json) (path : List String) : SqlValue :=
  match FieldSelector.walk obj path with
  | none | some .null => .null
  | some (.str s) => .text s
  | some (.bool _) | some (.num _) => .number
  | some v => .text (render v)

def SqlValue.equalsOrAbsent (value : String) : SqlValue → Bool
  | .null => value = ""
  | .text s => s = value
  | .number => false

variable {β : Type} (codec : JsonCodec β) (render : Json → String)

def Db.sortedRows (db : Db β) : List (String × Row β) :=
  (db.objects.entries.map (fun e => (e.1, e.2))).insertionSort (fun a b => a.1 ≤ b.1)

def Db.objectsWhere (db : Db β) (cond : String → Row β → Bool) : List (StoreObject β) :=
  (db.sortedRows.filter (fun e => cond e.1 e.2)).map (fun e => ⟨e.1, e.2.value, e.2.revision⟩)

def queryAll (db : Db β) (cond : String → Row β → Bool) (lim : Option ℕ) : List (StoreObject β) :=
  let rows := db.objectsWhere cond
  lim.elim rows rows.take

def paginateInMemory (items : List (StoreObject β)) (limit : Option ℕ) : List (StoreObject β) × Option String :=
  match limit with
  | none => (items, none)
  | some limit =>
    if limit < items.length then
      let items := items.take limit
      (items, items.getLast?.map StoreObject.key)
    else (items, none)

def indexedPage (db : Db β) (cond : String → Row β → Bool) (ck : String) (limit : Option ℕ) :
    List (StoreObject β) × Option String :=
  paginateInMemory (queryAll db (fun key row => cond key row && pastCursor ck key) (limit.map (· + 1))) limit

def plainPage (db : Db β) (cond : String → Row β → Bool) (ck : String) (limit : Option ℕ) :
    List (StoreObject β) × Option String :=
  let raw := queryAll db (fun key row => cond key row && pastCursor ck key) (limit.map (· + 1))
  match limit with
  | none => (raw, none)
  | some limit =>
    if limit < raw.length then
      let items := raw.dropLast
      (items, items.getLast?.map StoreObject.key)
    else (raw, none)

def matchesSelector (sel : FieldSelector) (value : β) : Bool :=
  match codec.fromSlice value with
  | none => false
  | some parsed => FieldSelector.jsonPathEquals parsed sel.field sel.value != sel.negated

def scanChunks (fetch : String → List (StoreObject β)) (keep : StoreObject β → Bool) (pageLimit : ℕ) :
    ℕ → String → List (StoreObject β) → Option (List (StoreObject β))
  | 0, _, _ => none
  | fuel + 1, cursor, survivors =>
    let chunk := fetch cursor
    let cursor := (chunk.getLast?.map StoreObject.key).getD cursor
    let survivors := survivors ++ chunk.filter keep
    if chunk.length < pageLimit + 1 ∨ pageLimit < survivors.length then some survivors
    else scanChunks fetch keep pageLimit fuel cursor survivors

/-- A round that is not the last reads a row of its own, so more rounds than there are rows never happen unless the
loop goes round for ever. -/
def genericPage (db : Db β) (cond : String → Row β → Bool) (sel : FieldSelector) (ck : String) (limit : Option ℕ) :
    Option (List (StoreObject β) × Option String) :=
  let fetchChunk (cursor : String) (lim : Option ℕ) :=
    queryAll db (fun key row => cond key row && pastCursor cursor key) lim
  let keep (o : StoreObject β) := matchesSelector codec sel o.value
  let filtered :=
    match clampListLimit limit with
    | none => some ((fetchChunk ck none).filter keep)
    | some pageLimit =>
      scanChunks (fun cursor => fetchChunk cursor (some (pageLimit + 1))) keep pageLimit
        (db.objects.entries.length + 1) ck []
  filtered.map (fun items => paginateInMemory items limit)

def selectPage (db : Db β) (p upper : String) (opts : ListOptions) : Option (List (StoreObject β) × Option String) :=
  let ck := opts.continueKey.getD ""
  let limit := clampListLimit opts.limit
  match opts.fieldSelector with
  | none => some (plainPage db (fun key _ => inRange p upper key) ck limit)
  | some sel =>
    if sel.negated = false ∧ sel.field = "metadata.name" then
      some (indexedPage db (fun key row => inRange p upper key && row.objName = some sel.value) ck limit)
    else if sel.negated = false ∧ sel.field = "metadata.namespace" then
      some (indexedPage db (fun key row => inRange p upper key &&
        (row.ns = some sel.value || (sel.value = "" && row.ns = none))) ck limit)
    else if sel.negated = false ∧ sel.field = "spec.nodeName" ∧ Text.startsWith p "/registry/pods/" then
      some (indexedPage db (fun key row => like (p ++ "%").toList key.toList &&
        (codec.fromSlice row.value).any (fun obj =>
          (jsonExtract render obj ["spec", "nodeName"]).equalsOrAbsent sel.value)) ck limit)
    else genericPage codec db (fun key _ => inRange p upper key) sel ck opts.limit

def remainingCount (db : Db β) (p upper : String) (continueKey : Option String) : Option ℕ :=
  continueKey.map (fun cursor => db.sortedRows.countP (fun e => inRange p upper e.1 && cursor < e.1))

def listSync (db : Db β) (p : String) (opts : ListOptions) : Option (ListResponse β) :=
  (prefixUpperBound p).bind (fun upper =>
    (selectPage codec render db p upper opts).map (fun (items, continueKey) =>
      ⟨items, db.revision, continueKey, remainingCount db p upper continueKey⟩))

def selected (p upper : String) (sel : Option FieldSelector) (key : String) (row : Row β) : Bool :=
  match sel with
  | none => inRange p upper key
  | some sel =>
    if sel.negated = false ∧ sel.field = "metadata.name" then inRange p upper key && row.objName = some sel.value
    else if sel.negated = false ∧ sel.field = "metadata.namespace" then
      inRange p upper key && (row.ns = some sel.value || (sel.value = "" && row.ns = none))
    else if sel.negated = false ∧ sel.field = "spec.nodeName" ∧ Text.startsWith p "/registry/pods/" then
      like (p ++ "%").toList key.toList &&
        (codec.fromSlice row.value).any (fun obj =>
          (jsonExtract render obj ["spec", "nodeName"]).equalsOrAbsent sel.value)
    else inRange p upper key && matchesSelector codec sel row.value

def pageLimit (p : String) (sel : Option FieldSelector) (limit : Option ℕ) : Option ℕ :=
  match sel with
  | none => clampListLimit limit
  | some sel =>
    if sel.negated = false ∧ (sel.field = "metadata.name" ∨ sel.field = "metadata.namespace" ∨
      (sel.field = "spec.nodeName" ∧ Text.startsWith p "/registry/pods/")) then clampListLimit limit
    else limit

theorem prefixUpperBound_slash (q : String) : prefixUpperBound (q ++ "/") = some (q ++ "0") := by
  have hbytes (c : String) (b : UInt8) (hc : c.toUTF8.data.toList = [b]) :
      (q ++ c).toUTF8.data.toList = q.toUTF8.data.toList ++ [b] := by
    simp only [String.toUTF8_eq_toByteArray, String.toByteArray_append] at hc ⊢
    rw [ByteArray.data_append, Array.toList_append, hc]
  have hslash := hbytes "/" 0x2F (by decide +kernel)
  have hzero := hbytes "0" 0x30 (by decide +kernel)
  have hraised : (⟨((0x2F + 1 : UInt8) :: q.toUTF8.data.toList.reverse).reverse.toArray⟩ : ByteArray) =
      (q ++ "0").toUTF8 := by
    apply ByteArray.ext
    rw [reverse_cons, reverse_reverse]
    exact (congrArg List.toArray hzero).symm
  unfold prefixUpperBound
  rw [hslash, reverse_append, reverse_singleton, singleton_append, raiseLast, if_pos (by decide)]
  dsimp only
  rw [hraised]
  exact dif_pos (q ++ "0").isValidUTF8

theorem between_slash_zero (q k : List Char) : (¬ k < q ++ ['/'] ∧ k < q ++ ['0']) ↔ q ++ ['/'] <+: k := by
  induction q generalizing k with
  | nil =>
    cases k with
    | nil => simp
    | cons c k =>
      simp only [nil_append, cons_lt_cons_iff, not_lt_nil, and_false, or_false,
        cons_prefix_cons, nil_prefix, and_true, not_lt]
      constructor
      · rintro ⟨hle, hlt⟩
        apply le_antisymm hle
        -- `0` is the character after `/`
        exact Nat.le_of_lt_succ hlt
      · rintro rfl
        decide
  | cons x q ih =>
    cases k with
    | nil => simp
    | cons c k =>
      simp only [cons_append, cons_lt_cons_iff, cons_prefix_cons, ← ih k]
      rcases lt_trichotomy c x with h | rfl | h
      · simp [h, h.ne']
      · simp
      · simp [h.ne, h.ne']

theorem inRange_slash (q key : String) : inRange (q ++ "/") (q ++ "0") key = Text.startsWith key (q ++ "/") := by
  have hne : q ++ "0" ≠ "" := by simp
  rw [Bool.eq_iff_iff, Text.startsWith_iff]
  simp only [inRange, Bool.and_eq_true, Bool.or_eq_true, decide_eq_true_eq, hne, false_or]
  rw [← not_lt, String.lt_iff_toList_lt, String.lt_iff_toList_lt, String.toList_append, String.toList_append]
  exact between_slash_zero q.toList key.toList

theorem groupListPrefix_slash (group plural : String) (ns : Option String) :
    ∃ q, groupListPrefix group plural ns = q ++ "/" := by
  unfold groupListPrefix listPrefix clusterListPrefix
  split_ifs
  · cases ns
    · exact ⟨_, rfl⟩
    · exact ⟨_, rfl⟩
  · cases ns
    · exact ⟨_, rfl⟩
    · exact ⟨_, rfl⟩

theorem like_of_prefix (h : p <+: s) : like (p ++ ['%']) s := by
  induction p generalizing s with
  | nil =>
    have hall : like ['%'] s = s.tails.any (like []) := by simp [like]
    rw [nil_append, hall, List.any_eq_true]
    exact ⟨[], (mem_tails _ _).mpr (nil_suffix), rfl⟩
  | cons c p ih =>
    cases s with
    | nil => cases prefix_nil.mp h
    | cons d s =>
      obtain ⟨rfl, hps⟩ := cons_prefix_cons.mp h
      rw [cons_append, like]
      split_ifs with hc
      · rw [List.any_eq_true]
        exact ⟨s, (mem_tails _ _).mpr (suffix_cons c s), ih hps⟩
      · simp [ih hps]

theorem Db.sortedRows_perm (db : Db β) : db.sortedRows.Perm (db.objects.entries.map (fun e => (e.1, e.2))) :=
  perm_insertionSort _ _

theorem Db.mem_sortedRows {db : Db β} :
    (key, row) ∈ db.sortedRows ↔ db.objects.lookup key = some row := by
  rw [db.sortedRows_perm.mem_iff, ← mem_def, AList.mem_lookup_iff, List.mem_map]
  constructor
  · rintro ⟨⟨k, r⟩, he, heq⟩
    cases heq
    exact he
  · intro he
    exact ⟨⟨key, row⟩, he, rfl⟩

theorem Db.sortedRows_pairwise (db : Db β) : db.sortedRows.Pairwise (fun a b => a.1 < b.1) := by
  have hle : db.sortedRows.Pairwise (fun a b => a.1 ≤ b.1) := by
    exact pairwise_insertionSort _ _
  have hne : db.sortedRows.Pairwise (fun a b => a.1 ≠ b.1) := by
    apply pairwise_map.mp
    apply (db.sortedRows_perm.map Prod.fst).nodup_iff.mpr
    rw [List.map_map]
    exact db.objects.nodupKeys
  exact (hle.and hne).imp (fun h => lt_of_le_of_ne h.1 h.2)

theorem Db.objectsWhere_pairwise (db : Db β) (cond : String → Row β → Bool) :
    (db.objectsWhere cond).Pairwise (fun a b => a.key < b.key) :=
  pairwise_map.mpr (db.sortedRows_pairwise.filter _)

theorem Db.mem_objectsWhere {db : Db β} {cond : String → Row β → Bool} :
    o ∈ db.objectsWhere cond ↔
      ∃ row, db.objects.lookup o.key = some row ∧ cond o.key row ∧ o.value = row.value ∧ o.revision = row.revision := by
  simp only [objectsWhere, List.mem_map, mem_filter, Prod.exists, mem_sortedRows]
  constructor
  · rintro ⟨key, row, ⟨hrow, hcond⟩, rfl⟩
    exact ⟨row, hrow, hcond, rfl, rfl⟩
  · rintro ⟨row, hrow, hcond, hvalue, hrev⟩
    exact ⟨o.key, row, ⟨hrow, hcond⟩, by rw [← hvalue, ← hrev]⟩

theorem Db.objectsWhere_eq_iff {db : Db β} :
    db.objectsWhere c = db.objectsWhere d ↔ ∀ key row, db.objects.lookup key = some row → c key row = d key row := by
  constructor
  · intro heq key row hrow
    have hmem (c : String → Row β → Bool) :
        (⟨key, row.value, row.revision⟩ : StoreObject β) ∈ db.objectsWhere c ↔ c key row := by
      rw [mem_objectsWhere]
      simp [hrow]
    rw [Bool.eq_iff_iff, ← hmem c, ← hmem d, heq]
  · intro hagree
    unfold objectsWhere
    congr 1
    apply filter_congr
    rintro ⟨key, row⟩ he
    exact hagree key row (mem_sortedRows.mp he)

theorem Db.length_objectsWhere_le (db : Db β) (cond : String → Row β → Bool) :
    (db.objectsWhere cond).length ≤ db.objects.entries.length := by
  have hlen := db.sortedRows_perm.length_eq
  rw [length_map] at hlen
  rw [objectsWhere, length_map, ← hlen]
  exact length_filter_le _ _

theorem Db.filter_objectsWhere (db : Db β) (cond : String → Row β → Bool) (keep : StoreObject β → Bool) :
    (db.objectsWhere cond).filter keep =
      db.objectsWhere (fun key row => cond key row && keep ⟨key, row.value, row.revision⟩) := by
  simp only [objectsWhere, List.filter_map, List.filter_filter]
  congr 1
  apply filter_congr
  intro e _
  exact Bool.and_comm _ _

theorem pastCursor_getD (h : cursor ≠ some "") (key : String) :
    pastCursor (cursor.getD "") key = cursor.all (fun c => c < key) := by
  cases cursor with
  | none => simp [pastCursor]
  | some c =>
    have hc : c ≠ "" := fun hc => h (congrArg some hc)
    simp [pastCursor, hc]

theorem queryAll_pastCursor (db : Db β) (cond : String → Row β → Bool) (h : cursor ≠ some "") (lim : Option ℕ) :
    queryAll db (fun key row => cond key row && pastCursor (cursor.getD "") key) lim =
      lim.elim (Paging.after StoreObject.key cursor (db.objectsWhere cond))
        (Paging.after StoreObject.key cursor (db.objectsWhere cond)).take := by
  unfold queryAll Paging.after
  rw [db.filter_objectsWhere]
  simp only [pastCursor_getD h]

section Pages

variable {db : Db β} {cond : String → Row β → Bool} {cursor : Option String}

theorem indexedPage_eq (h : cursor ≠ some "") (limit : Option ℕ) :
    indexedPage db cond (cursor.getD "") limit =
      Paging.cut StoreObject.key limit (Paging.after StoreObject.key cursor (db.objectsWhere cond)) := by
  unfold indexedPage
  rw [queryAll_pastCursor db cond h]
  cases limit with
  | none => rfl
  | some l =>
    exact Paging.cut_take l _

theorem plainPage_eq (h : cursor ≠ some "") (limit : Option ℕ) :
    plainPage db cond (cursor.getD "") limit =
      Paging.cut StoreObject.key limit (Paging.after StoreObject.key cursor (db.objectsWhere cond)) := by
  unfold plainPage
  rw [queryAll_pastCursor db cond h]
  cases limit with
  | none => rfl
  | some l =>
    simp only [map_some, elim_some, Paging.cut]
    generalize Paging.after StoreObject.key cursor (db.objectsWhere cond) = rest
    have hlen : (rest.take (l + 1)).length = min (l + 1) rest.length := length_take
    have hprobe : l < rest.length → (rest.take (l + 1)).dropLast = rest.take l := by
      intro hlt
      rw [dropLast_eq_take, take_take]
      congr 1
      omega
    have hmore : l < (rest.take (l + 1)).length ↔ l < rest.length := by omega
    simp only [hmore]
    split_ifs with hlt
    · rw [hprobe hlt]
    · rw [take_of_length_le (by omega)]

theorem scanChunks_spec (htable : table.Pairwise (fun a b => a.key < b.key)) (hkeys : ∀ o ∈ table, o.key ≠ "")
    (fetch : String → List (StoreObject β)) (pageLimit : ℕ) (hfetch : ∀ cursor : Option String, cursor ≠ some "" →
      fetch (cursor.getD "") = (Paging.after StoreObject.key cursor table).take (pageLimit + 1))
    (keep : StoreObject β → Bool) (hcursor : cursor ≠ some "")
    (hfuel : (Paging.after StoreObject.key cursor table).length < fuel) (survivors : List (StoreObject β)) :
    ∃ m, scanChunks fetch keep pageLimit fuel (cursor.getD "") survivors =
        some (survivors ++ ((Paging.after StoreObject.key cursor table).take m).filter keep) ∧
      ((Paging.after StoreObject.key cursor table).length ≤ m ∨
        pageLimit < (survivors ++ ((Paging.after StoreObject.key cursor table).take m).filter keep).length) := by
  induction fuel generalizing cursor survivors with
  | zero => omega
  | succ fuel ih =>
    rw [scanChunks, hfetch cursor hcursor]
    split_ifs with hstop
    · refine ⟨pageLimit + 1, rfl, ?_⟩
      obtain hshort | hfull := hstop
      · left
        rw [length_take] at hshort
        omega
      · exact Or.inr hfull
    · rw [length_take] at hstop
      -- the chunk is full, so it has a last row, and what is past that row is what the chunk left over
      cases hlast : ((Paging.after StoreObject.key cursor table).take (pageLimit + 1)).getLast? with
      | none =>
        have hnil := congrArg length (getLast?_eq_none_iff.mp hlast)
        rw [length_take, length_nil] at hnil
        omega
      | some o =>
        have hrest := Paging.after_getLast_take htable hlast
        have ho : o ∈ table := (Paging.mem_after.mp (mem_of_mem_take (mem_of_getLast? hlast))).1
        have hkey : some o.key ≠ some "" := fun h => hkeys o ho (some.inj h)
        have hlen := congrArg length hrest
        rw [length_drop] at hlen
        obtain ⟨m, hm, hend⟩ := ih hkey (by omega)
          (survivors ++ ((Paging.after StoreObject.key cursor table).take (pageLimit + 1)).filter keep)
        rw [hrest] at hm hend
        refine ⟨pageLimit + 1 + m, ?_, ?_⟩
        · rw [map_some, getD_some]
          rw [getD_some] at hm
          rw [hm, append_assoc, ← filter_append, ← take_add]
        · rw [append_assoc, ← filter_append, ← take_add, length_drop] at hend
          obtain hend | hend := hend
          · left
            omega
          · exact Or.inr hend

theorem genericPage_eq (h : cursor ≠ some "") (hkeys : ∀ key row, db.objects.lookup key = some row → cond key row →
    key ≠ "") (sel : FieldSelector) (limit : Option ℕ) :
    genericPage codec db cond sel (cursor.getD "") limit =
      some (Paging.cut StoreObject.key limit (Paging.after StoreObject.key cursor
        (db.objectsWhere (fun key row => cond key row && matchesSelector codec sel row.value)))) := by
  have hfilter : Paging.after StoreObject.key cursor
      (db.objectsWhere (fun key row => cond key row && matchesSelector codec sel row.value)) =
      (Paging.after StoreObject.key cursor (db.objectsWhere cond)).filter
        (fun o => matchesSelector codec sel o.value) := by
    rw [← db.filter_objectsWhere cond (fun o => matchesSelector codec sel o.value)]
    exact filter_comm _ _ _
  rw [hfilter]
  unfold genericPage
  simp only [queryAll_pastCursor db cond h]
  cases hclamp : clampListLimit limit with
  | none => rfl
  | some l =>
    obtain ⟨rfl, -⟩ := filter_eq_some_iff.mp hclamp
    have hfuel : (Paging.after StoreObject.key cursor (db.objectsWhere cond)).length <
        db.objects.entries.length + 1 := by
      apply Nat.lt_succ_of_le
      exact (length_filter_le _ _).trans (db.length_objectsWhere_le cond)
    have hne : ∀ o ∈ db.objectsWhere cond, o.key ≠ "" := by
      intro o ho
      obtain ⟨row, hrow, hcond, -⟩ := Db.mem_objectsWhere.mp ho
      exact hkeys o.key row hrow hcond
    obtain ⟨m, hm, hend⟩ := scanChunks_spec (db.objectsWhere_pairwise cond) hne
      (fun ck => queryAll db (fun key row => cond key row && pastCursor ck key) (some (l + 1))) l
      (fun cursor h => queryAll_pastCursor db cond h (some (l + 1)))
      (fun o => matchesSelector codec sel o.value) h hfuel []
    dsimp only
    rw [hm]
    exact congrArg some (Paging.cut_filter_take hend)

end Pages

section Walks

variable {codec render} {db : Db β} {p upper : String}

theorem like_nil (hc : c ≠ '%') (pattern : List Char) : like (c :: pattern) [] = false := by
  simp [like, hc]

section

variable (hkeys : p ≠ "" ∨ "" ∉ db.objects)
include hkeys

theorem inRange_key_ne (hrow : db.objects.lookup key = some row) (h : inRange p upper key) : key ≠ "" := by
  rintro rfl
  obtain hp | hmem := hkeys
  · simp only [inRange, Bool.and_eq_true, decide_eq_true_eq] at h
    have hle : "" ≤ p := not_lt.mp (fun hlt => not_lt_nil _ (String.lt_iff_toList_lt.mp hlt))
    exact hp (le_antisymm h.1 hle)
  · exact hmem (AList.lookup_isSome.mp (by rw [hrow]; rfl))

theorem selected_key_ne (hrow : db.objects.lookup key = some row)
    (h : selected codec render p upper sel key row) : key ≠ "" := by
  unfold selected at h
  split at h
  · exact inRange_key_ne hkeys hrow h
  · split_ifs at h with _ _ hnode
    · exact inRange_key_ne hkeys hrow (Bool.and_eq_true_iff.mp h).1
    · exact inRange_key_ne hkeys hrow (Bool.and_eq_true_iff.mp h).1
    · rintro rfl
      -- the pattern starts with a character that has to be there
      obtain ⟨t, ht⟩ := Text.startsWith_iff.mp hnode.2.2
      have hpattern : (p ++ "%").toList = '/' :: ("registry/pods/".toList ++ t ++ ['%']) := by
        rw [String.toList_append, ← ht]
        rfl
      rw [hpattern] at h
      simp [like_nil] at h
    · exact inRange_key_ne hkeys hrow (Bool.and_eq_true_iff.mp h).1

theorem selectPage_eq (sel : Option FieldSelector) (limit : Option ℕ) (h : cursor ≠ some "") :
    selectPage codec render db p upper ⟨sel, limit, cursor⟩ =
      some (Paging.cut StoreObject.key (pageLimit p sel limit)
        (Paging.after StoreObject.key cursor (db.objectsWhere (selected codec render p upper sel)))) := by
  unfold selectPage selected pageLimit
  cases sel with
  | none => exact congrArg some (plainPage_eq h _)
  | some sel =>
    by_cases hname : sel.negated = false ∧ sel.field = "metadata.name"
    · simp only [if_pos hname]
      rw [if_pos ⟨hname.1, Or.inl hname.2⟩]
      exact congrArg some (indexedPage_eq h _)
    · by_cases hns : sel.negated = false ∧ sel.field = "metadata.namespace"
      · simp only [if_neg hname, if_pos hns]
        rw [if_pos ⟨hns.1, Or.inr (Or.inl hns.2)⟩]
        exact congrArg some (indexedPage_eq h _)
      · by_cases hnode : sel.negated = false ∧ sel.field = "spec.nodeName" ∧ Text.startsWith p "/registry/pods/"
        · simp only [if_neg hname, if_neg hns, if_pos hnode]
          rw [if_pos ⟨hnode.1, Or.inr (Or.inr hnode.2)⟩]
          exact congrArg some (indexedPage_eq h _)
        · simp only [if_neg hname, if_neg hns, if_neg hnode]
          rw [if_neg (by tauto)]
          apply genericPage_eq codec h
          intro key row hrow hcond
          exact inRange_key_ne hkeys hrow hcond

end

theorem listSync_eq (hp : prefixUpperBound p = some upper) (hkeys : p ≠ "" ∨ "" ∉ db.objects)
    (sel : Option FieldSelector) (limit : Option ℕ) (h : cursor ≠ some "") :
    (listSync codec render db p ⟨sel, limit, cursor⟩).map (fun r => (r.items, r.continueKey)) =
      some (Paging.cut StoreObject.key (pageLimit p sel limit)
        (Paging.after StoreObject.key cursor (db.objectsWhere (selected codec render p upper sel)))) := by
  rw [listSync, hp, bind_some, selectPage_eq hkeys sel limit h, map_some, map_some]

theorem pageLimit_none (sel : Option FieldSelector) : pageLimit p sel none = none := by
  unfold pageLimit
  split
  · rfl
  · exact ite_self _

variable (codec render) in
theorem listSync_unlimited (hp : prefixUpperBound p = some upper) (hkeys : p ≠ "" ∨ "" ∉ db.objects)
    (sel : Option FieldSelector) :
    ∃ all, listSync codec render db p ⟨sel, none, none⟩ = some all ∧
      all.items = db.objectsWhere (selected codec render p upper sel) := by
  have hpage : (listSync codec render db p ⟨sel, none, none⟩).map (fun r => (r.items, r.continueKey)) = _ :=
    listSync_eq hp hkeys sel none (by simp)
  rw [pageLimit_none, Paging.after_none] at hpage
  obtain ⟨all, hall, heq⟩ := map_eq_some_iff.mp hpage
  exact ⟨all, hall, congrArg Prod.fst heq⟩

variable (codec render) in
/-- The lists that a client asks for while it is given a key to continue from, each of the store as it is by then.
-/
def walkPages (p : String) (sel : Option FieldSelector) (limit : ℕ) (dbs : List (Db β)) :
    Option (List (List (StoreObject β))) :=
  Paging.follow (fun db cursor =>
    (listSync codec render db p ⟨sel, some limit, cursor⟩).map (fun r => (r.items, r.continueKey))) none dbs

theorem pageLimit_ne_zero (h : limit ≠ some 0) (sel : Option FieldSelector) : pageLimit p sel limit ≠ some 0 := by
  have hclamp : clampListLimit limit ≠ some 0 := fun hzero => h (filter_eq_some_iff.mp hzero).1
  unfold pageLimit
  split
  · exact hclamp
  · split_ifs
    · exact hclamp
    · exact h

theorem listSync_reads (hp : prefixUpperBound p = some upper) (hkeys : p ≠ "" ∨ "" ∉ db.objects)
    (sel : Option FieldSelector) (limit : ℕ) :
    Paging.Reads StoreObject.key
      (fun db cursor => (listSync codec render db p ⟨sel, some limit, cursor⟩).map (fun r => (r.items, r.continueKey)))
      (fun db => db.objectsWhere (selected codec render p upper sel)) (pageLimit p sel (some limit)) (· ≠ some "") db where
  page_eq _ hcursor := listSync_eq hp hkeys sel (some limit) hcursor
  ascending := db.objectsWhere_pairwise _
  good_key o ho := by
    obtain ⟨row, hrow, hsel, -⟩ := Db.mem_objectsWhere.mp ho
    intro hkey
    exact selected_key_ne hkeys hrow hsel (some.inj hkey)

variable (codec render) in
/-- Following the continue keys of a store that stays as it is ends with the items of the list without a limit; and
whatever is written between the pages, a key that every list would have is returned once. -/
theorem walkPages_complete (p : String) (hp : (prefixUpperBound p).isSome) (sel : Option FieldSelector) (limit : ℕ)
    (hlimit : 1 ≤ limit) :
    (∀ db : Db β, (p ≠ "" ∨ "" ∉ db.objects) →
      ∃ all n pages, listSync codec render db p ⟨sel, none, none⟩ = some all ∧
        walkPages codec render p sel limit (List.replicate n db) = some pages ∧ pages.flatten = all.items ∧
        all.items.Pairwise (fun a b => a.key < b.key)) ∧
    (∀ (dbs : List (Db β)) (pages : List (List (StoreObject β))), (∀ db ∈ dbs, p ≠ "" ∨ "" ∉ db.objects) →
      walkPages codec render p sel limit dbs = some pages → ∀ key : String,
      (∀ db ∈ dbs, ∃ all, listSync codec render db p ⟨sel, none, none⟩ = some all ∧ ∃ o ∈ all.items, o.key = key) →
      (pages.flatten.map StoreObject.key).count key = 1) := by
  obtain ⟨upper, hupper⟩ := isSome_iff_exists.mp hp
  have hzero := pageLimit_ne_zero (p := p) (show some limit ≠ some 0 by simp; omega) sel
  constructor
  · intro db hkeys
    obtain ⟨all, hall, hitems⟩ := listSync_unlimited codec render hupper hkeys sel
    obtain ⟨pages, hpages, hflat⟩ := Paging.follow_replicate (listSync_reads hupper hkeys sel limit) hzero
      (show (none : Option String) ≠ some "" by simp) (Nat.lt_succ_self _)
    rw [Paging.after_none] at hflat
    refine ⟨all, _, pages, hall, hpages, hflat.trans hitems.symm, ?_⟩
    rw [hitems]
    exact db.objectsWhere_pairwise _
  · intro dbs pages hkeys hpages key hstays
    apply Paging.count_follow (fun db hdb => listSync_reads hupper (hkeys db hdb) sel limit) hzero (by simp) hpages
    intro db hdb
    obtain ⟨all, hall, o, ho, hkey⟩ := hstays db hdb
    obtain ⟨all', hall', hitems⟩ := listSync_unlimited codec render hupper (hkeys db hdb) sel
    rw [hall] at hall'
    cases hall'
    exact ⟨o, hitems ▸ ho, hkey⟩

def emptyKeyDb : Db (Option Json) :=
  ⟨((∅ : AList (fun _ : String => Row (Option Json))).insert "" ⟨some (.obj []), 1, none, none⟩).insert "a"
    ⟨some (.obj []), 2, none, none⟩, 2⟩

def podsDb : Db (Option Json) :=
  ⟨((∅ : AList (fun _ : String => Row (Option Json))).insert "/registry/pods/a/x"
    ⟨some (.obj []), 1, none, none⟩).insert "/registry/pods/a/y" ⟨some (.obj []), 2, none, none⟩, 2⟩

theorem walkPages_pods :
    (prefixUpperBound "/registry/pods/").isSome ∧
      ∃ all n pages, listSync JsonCodec.parsed (fun _ => "") podsDb "/registry/pods/" ⟨none, none, none⟩ = some all ∧
        walkPages JsonCodec.parsed (fun _ => "") "/registry/pods/" none 1 (List.replicate n podsDb) = some pages ∧
        pages.flatten = all.items ∧ all.items.Pairwise (fun a b => a.key < b.key) := by
  have hp : (prefixUpperBound "/registry/pods/").isSome := by decide +kernel
  refine ⟨hp, ?_⟩
  exact (walkPages_complete JsonCodec.parsed (fun _ => "") "/registry/pods/" hp none 1 le_rfl).1 podsDb (by simp)

theorem emptyKeyDb_page (cursor : Option String) (h : cursor = none ∨ cursor = some "") :
    (listSync JsonCodec.parsed (fun _ => "") emptyKeyDb "" ⟨none, some 1, cursor⟩).map
      (fun r => (r.items, r.continueKey)) = some ([⟨"", some (.obj []), 1⟩], some "") := by
  obtain rfl | rfl := h
  · decide +kernel
  · decide +kernel

theorem walkPages_empty_key :
    (∃ all, listSync JsonCodec.parsed (fun _ => "") emptyKeyDb "" ⟨none, none, none⟩ = some all ∧
      all.items.length = 2) ∧
      ∀ n, walkPages JsonCodec.parsed (fun _ => "") "" none 1 (List.replicate n emptyKeyDb) = none := by
  constructor
  · exact ⟨⟨[⟨"", some (.obj []), 1⟩, ⟨"a", some (.obj []), 2⟩], 2, none, none⟩, by decide +kernel, rfl⟩
  · have hwalk : ∀ n cursor, cursor = none ∨ cursor = some "" →
        Paging.follow (fun db cursor => (listSync JsonCodec.parsed (fun _ => "") db "" ⟨none, some 1, cursor⟩).map
          (fun r => (r.items, r.continueKey))) cursor (List.replicate n emptyKeyDb) = none := by
      intro n
      induction n with
      | zero => exact fun _ _ => rfl
      | succ n ih =>
        intro cursor hcursor
        rw [replicate_succ, Paging.follow, emptyKeyDb_page cursor hcursor]
        dsimp only
        rw [ih _ (Or.inr rfl), map_none]
    exact fun n => hwalk n none (Or.inl rfl)

end Walks

end U7s.Store
