import U7s.Json

namespace U7s.Store

structure Row (β : Type) where
  value : β
  revision : ℕ
  ns : Option String
  objName : Option String
  deriving DecidableEq

structure Db (β : Type) where
  objects : AList (fun _ : String => Row β)
  revision : ℕ

def Db.new (β : Type) : Db β := ⟨∅, 0⟩

inductive StoreError where
  | notFound (key : String)
  | revisionMismatch (expected current : ℕ)
  | alreadyExists (key : String)
  | sqlite
  | join
  | serialization
  deriving DecidableEq

inductive CreateNamespacedError where
  | namespaceTerminating
  | namespaceNotFound
  | store (e : StoreError)
  deriving DecidableEq

structure Tx (β : Type) where
  db : Db β
  faults : List Bool
  committed : Bool

abbrev Sql (ε β α : Type) := StateT (Tx β) (Except ε) α

section Statements

variable {ε β α : Type}

def statement (e : ε) (f : Db β → α × Db β) : Sql ε β α := fun tx =>
  if tx.faults.headD false then .error e
  else .ok ((f tx.db).1, { tx with db := (f tx.db).2, faults := tx.faults.tail })

def query (e : ε) (f : Db β → α) : Sql ε β α := statement e (fun db => (f db, db))

def readable : List α → List Bool → List α × List Bool
  | [], faults => ([], faults)
  | a :: as, faults =>
    let rest := readable as faults.tail
    (if faults.headD false then rest.1 else a :: rest.1, rest.2)

def queryRows (e : ε) (f : Db β → List α) : Sql ε β (List α) := fun tx =>
  if tx.faults.headD false then .error e
  else
    let rows := readable (f tx.db) tx.faults.tail
    .ok (rows.1, { tx with faults := rows.2 })

def execute (e : ε) (f : Db β → Db β) : Sql ε β Unit := statement e (fun db => ((), f db))

def beginImmediate (e : ε) : Sql ε β Unit := execute e id

def commit (e : ε) : Sql ε β Unit := fun tx =>
  if tx.faults.headD false then .error e
  else .ok ((), { tx with faults := tx.faults.tail, committed := true })

def transaction (body : Sql ε β α) (faults : List Bool) (db : Db β) : Except ε α × Db β :=
  match body ⟨db, faults, false⟩ with
  | .ok (a, tx) => (.ok a, if tx.committed then tx.db else db)
  | .error e => (.error e, db)

theorem bind_ok {γ : Type} {f : α → Sql ε β γ} {r : γ × Tx β}
    (h : (x >>= f) tx = .ok r) : ∃ a t, x tx = .ok (a, t) ∧ f a t = .ok r := by
  simp only [bind, StateT.bind] at h
  cases hx : x tx with
  | error e => simp [hx, Except.bind] at h
  | ok p => exact ⟨p.1, p.2, rfl, by simpa [hx, Except.bind] using h⟩

theorem query_bind {g : α → Sql ε β γ} (h : (query e f >>= g) tx = .ok r) :
    g (f tx.db) { tx with faults := tx.faults.tail } = .ok r := by
  obtain ⟨a, t, hq, h⟩ := bind_ok h
  simp only [query, statement] at hq
  split_ifs at hq
  cases hq
  exact h

theorem readable_sublist (as : List α) (faults : List Bool) : (readable as faults).1.Sublist as := by
  induction as generalizing faults with
  | nil => exact .slnil
  | cons a as ih =>
    simp only [readable]
    split_ifs
    · exact (ih _).cons a
    · exact (ih _).cons_cons a

theorem queryRows_ok (h : queryRows e f tx = .ok (as, t)) :
    as.Sublist (f tx.db) ∧ ∃ faults, t = { tx with faults := faults } := by
  simp only [queryRows] at h
  split_ifs at h
  cases h
  exact ⟨readable_sublist _ _, _, rfl⟩

theorem execute_bind {g : Unit → Sql ε β γ} (h : (execute e f >>= g) tx = .ok r) :
    g () { tx with db := f tx.db, faults := tx.faults.tail } = .ok r := by
  obtain ⟨a, t, he, h⟩ := bind_ok h
  simp only [execute, statement] at he
  split_ifs at he
  cases he
  exact h

theorem commit_bind {g : Unit → Sql ε β γ} (h : (commit e >>= g) tx = .ok r) :
    g () { tx with faults := tx.faults.tail, committed := true } = .ok r := by
  obtain ⟨a, t, hc, h⟩ := bind_ok h
  simp only [commit] at hc
  split_ifs at hc
  cases hc
  exact h

theorem pure_ok (h : (pure a : Sql ε β α) tx = .ok (b, t)) : b = a ∧ t = tx := by
  cases h
  exact ⟨rfl, rfl⟩

theorem throw_ok (h : (throw e : Sql ε β α) tx = .ok r) : False := by
  simp [throw, throwThe, MonadExceptOf.throw, StateT.lift] at h

end Statements

variable {β : Type} (codec : JsonCodec β)

/-- The stamped bytes with the namespace and the name. The writes through `obj["metadata"]["resourceVersion"]` panic
on a value that is no object, which the caller sees as a failed join. -/
def stampResourceVersion (value : β) (revision : ℕ) :
    Except StoreError (β × Option String × Option String) :=
  match codec.fromSlice value with
  | none => .error .serialization
  | some obj =>
    let ns := ((obj.idx "metadata").idx "namespace").asStr?
    let objName := ((obj.idx "metadata").idx "name").asStr?
    match (obj.idx "metadata").setIdx "resourceVersion" (.str (toString revision)) with
    | none => .error .join
    | some metadata =>
      match obj.setIdx "metadata" metadata with
      | none => .error .join
      | some obj => .ok (codec.toVec obj, ns, objName)

def withoutResourceVersion (obj : Json) : Json :=
  match obj with
  | .obj fs =>
    match Json.lookup "metadata" fs with
    | some (.obj m) => .obj (Json.insert "metadata" (.obj (Json.erase "resourceVersion" m)) fs)
    | _ => obj
  | _ => obj

def semanticallyEqualIgnoringResourceVersion (newValue storedValue : β) : Bool :=
  match codec.fromSlice newValue, codec.fromSlice storedValue with
  | some new, some stored => withoutResourceVersion new = withoutResourceVersion stored
  | _, _ => false

def incrementRevision (db : Db β) : Db β := { db with revision := db.revision + 1 }

def upsert (key : String) (row : Row β) (db : Db β) : Db β :=
  { db with objects := db.objects.insert key row }

def deleteRow (key : String) (db : Db β) : Db β := { db with objects := db.objects.erase key }

def checkExpected (key : String) (storedRv expected : Option ℕ) : Except StoreError Unit :=
  match storedRv, expected with
  | _, none => .ok ()
  | none, some 0 => .ok ()
  | some _, some 0 => .error (.alreadyExists key)
  | none, some exp => .error (.revisionMismatch exp 0)
  | some rv, some exp => if rv = exp then .ok () else .error (.revisionMismatch exp rv)

structure PutOk (β : Type) where
  revision : ℕ
  isCreate : Bool
  written : Option (β × Option String)

def putSync (key : String) (value : β) (expected : Option ℕ) : Sql StoreError β (PutOk β) := do
  beginImmediate .sqlite
  let stored ← query .sqlite (fun db => db.objects.lookup key)
  match checkExpected key (stored.map Row.revision) expected with
  | .error e => throw e
  | .ok () =>
  match stored.filter (fun row => semanticallyEqualIgnoringResourceVersion codec value row.value) with
  | some row => pure ⟨row.revision, false, none⟩
  | none =>
    execute .sqlite incrementRevision
    let newRevision ← query .sqlite Db.revision
    match stampResourceVersion codec value newRevision with
    | .error e => throw e
    | .ok (stamped, ns, objName) =>
      execute .sqlite (upsert key ⟨stamped, newRevision, ns, objName⟩)
      commit .sqlite
      pure ⟨newRevision, stored.isNone, some (stamped, ns)⟩

structure DeleteOk (β : Type) where
  revision : ℕ
  lastValue : β
  ns : Option String

def checkDeleteExpected (storedRv : ℕ) (expected : Option ℕ) : Except StoreError Unit :=
  match expected with
  | none => .ok ()
  | some 0 => .ok ()
  | some exp => if storedRv ≠ exp then .error (.revisionMismatch exp storedRv) else .ok ()

def deleteSync (key : String) (expected : Option ℕ) : Sql StoreError β (DeleteOk β) := do
  beginImmediate .sqlite
  let stored ← query .sqlite (fun db => db.objects.lookup key)
  match stored with
  | none => throw (.notFound key)
  | some row =>
  match checkDeleteExpected row.revision expected with
  | .error e => throw e
  | .ok () =>
    execute .sqlite incrementRevision
    let newRevision ← query .sqlite Db.revision
    execute .sqlite (deleteRow key)
    commit .sqlite
    pure ⟨newRevision, row.value, row.ns⟩

structure CreateOk (β : Type) where
  revision : ℕ
  stamped : β
  ns : Option String

def namespaceTerminating (value : β) : Bool :=
  match codec.fromSlice value with
  | some ns => ((ns.idx "status").idx "phase").asStr? = some "Terminating"
  | none => false

def checkNamespaceActive (nsKey : Option String) : Sql CreateNamespacedError β Unit :=
  match nsKey with
  | none => pure ()
  | some nsKey => do
    let ns ← query (.store .sqlite) (fun db => db.objects.lookup nsKey)
    match ns with
    | none => throw .namespaceNotFound
    | some row => if namespaceTerminating codec row.value then throw .namespaceTerminating else pure ()

def createIfNamespaceActiveSync (nsKey : Option String) (key : String) (value : β) :
    Sql CreateNamespacedError β (CreateOk β) := do
  beginImmediate (.store .sqlite)
  checkNamespaceActive codec nsKey
  let stored ← query (.store .sqlite) (fun db => db.objects.lookup key)
  match stored with
  | some _ => throw (.store (.alreadyExists key))
  | none =>
    execute (.store .sqlite) incrementRevision
    let newRevision ← query (.store .sqlite) Db.revision
    match stampResourceVersion codec value newRevision with
    | .error e => throw (.store e)
    | .ok (stamped, ns, objName) =>
      execute (.store .sqlite) (upsert key ⟨stamped, newRevision, ns, objName⟩)
      commit (.store .sqlite)
      pure ⟨newRevision, stamped, ns⟩

def namespaceRows (ns : String) (db : Db β) : List (String × β) :=
  (db.objects.entries.filter (fun e => e.2.ns = some ns)).map (fun e => (e.1, e.2.value))

def deletePairs : List (String × β) → Sql StoreError β (List (String × β × ℕ))
  | [] => pure []
  | (key, body) :: pairs => do
    execute .sqlite incrementRevision
    let rev ← query .sqlite Db.revision
    execute .sqlite (deleteRow key)
    let rest ← deletePairs pairs
    pure ((key, body, rev) :: rest)

def deleteNamespaceSync (ns : String) : Sql StoreError β (List (String × β × ℕ)) := do
  beginImmediate .sqlite
  let pairs ← queryRows .sqlite (namespaceRows ns)
  if pairs.isEmpty then pure []
  else
    let result ← deletePairs pairs
    commit .sqlite
    pure result

end U7s.Store
