import U7s.Lib.Programs
import U7s.Handlers.Objects
import U7s.Store.Keys
import U7s.Rbac.Authorize

/-! The state that requests share. A handler is a program over the calls on it; what it computes between two of them
no other request can see. -/

namespace U7s.Handlers

open Store Programs
open Rbac (RbacInner)
open Text (startsWith)

structure AppState (β : Type) where
  db : Db β
  rbac : RbacInner

inductive AppOp (β : Type) where
  | get (key : String)
  | list (pre : String)
  | put (key : String) (value : β) (expected : Option ℕ)
  | createIfNamespaceActive (nsKey : Option String) (key : String) (value : β)
  | delete (key : String) (expected : Option ℕ)
  | applyObject (rbacKey : String) (body : Json)
  | removeObject (rbacKey : String)

def AppOp.Reply {β : Type} : AppOp β → Type
  | .get _ => Except StoreError (Option (Row β))
  | .list _ => Except StoreError (List (String × Row β))
  | .put _ _ _ => Except StoreError ℕ
  | .createIfNamespaceActive _ _ _ => Except CreateNamespacedError ℕ
  | .delete _ _ => Except StoreError ℕ
  | .applyObject _ _ => Unit
  | .removeObject _ => Unit

variable {β : Type} (codec : JsonCodec β)

def rowsUnder (db : Db β) (pre : String) : List (String × Row β) :=
  ((db.objects.entries.filter (fun e => startsWith e.1 pre)).map (fun e => (e.1, e.2))).insertionSort
    (fun a b => a.1 ≤ b.1)

def exec (s : AppState β) (o : AppOp β) (faults : List Bool) : AppState β × o.Reply :=
  match o with
  | .get key => (s, if faults.headD false then .error .sqlite else .ok (s.db.objects.lookup key))
  | .list pre => (s, if faults.headD false then .error .sqlite else .ok (rowsUnder s.db pre))
  | .put key value expected =>
    let r := transaction (putSync codec key value expected) faults s.db
    ({ s with db := r.2 }, r.1.map PutOk.revision)
  | .createIfNamespaceActive nsKey key value =>
    let r := transaction (createIfNamespaceActiveSync codec nsKey key value) faults s.db
    ({ s with db := r.2 }, r.1.map CreateOk.revision)
  | .delete key expected =>
    let r := transaction (deleteSync key expected) faults s.db
    ({ s with db := r.2 }, r.1.map DeleteOk.revision)
  | .applyObject key body => ({ s with rbac := Rbac.applyObject s.rbac key body }, ())
  | .removeObject key => ({ s with rbac := Rbac.removeObject s.rbac key }, ())

abbrev History (β : Type) := Trace (AppOp β) AppOp.Reply

abbrev Handler (β α : Type) := Fallible (AppOp β) AppOp.Reply Failure α

abbrev Request (β : Type) := Prog (AppOp β) AppOp.Reply (Except Failure Json)

abbrev App (β : Type) := World (AppState β) (AppOp β) AppOp.Reply (Except Failure Json)

def App.step (w : App β) (a : ℕ × List Bool) : App β := World.step (exec codec) w a

def storeGet (key : String) : Handler β (Except StoreError (Option (Row β))) :=
  Fallible.request (AppOp.get key)

def storeList (pre : String) : Handler β (Except StoreError (List (String × Row β))) :=
  Fallible.request (AppOp.list pre)

def storePut (key : String) (value : β) (expected : Option ℕ) : Handler β (Except StoreError ℕ) :=
  Fallible.request (AppOp.put key value expected)

def storeCreateIfNamespaceActive (nsKey : Option String) (key : String) (value : β) :
    Handler β (Except CreateNamespacedError ℕ) :=
  Fallible.request (AppOp.createIfNamespaceActive nsKey key value)

def storeDelete (key : String) (expected : Option ℕ) : Handler β (Except StoreError ℕ) :=
  Fallible.request (AppOp.delete key expected)

def rbacApplyObject (key : String) (body : Json) : Handler β Unit :=
  Fallible.request (AppOp.applyObject key body)

def rbacRemoveObject (key : String) : Handler β Unit := Fallible.request (AppOp.removeObject key)

section Exec

variable (s : AppState β) (key : String) (faults : List Bool)

def AppState.wrote (s : AppState β) (key : String) (stamped : β) (ns objName : Option String) : AppState β :=
  { s with db := upsert key ⟨stamped, s.db.revision + 1, ns, objName⟩ (incrementRevision s.db) }

def AppState.deleted (s : AppState β) (key : String) : AppState β :=
  { s with db := deleteRow key (incrementRevision s.db) }

theorem exec_get :
    exec codec s (.get key) faults = (s, .error .sqlite) ∨
      exec codec s (.get key) faults = (s, .ok (s.db.objects.lookup key)) := by
  by_cases hf : faults.headD false
  · exact .inl (congrArg (Prod.mk s) (if_pos hf))
  · exact .inr (congrArg (Prod.mk s) (if_neg hf))

theorem exec_list (pre : String) :
    exec codec s (.list pre) faults = (s, .error .sqlite) ∨
      exec codec s (.list pre) faults = (s, .ok (rowsUnder s.db pre)) := by
  by_cases hf : faults.headD false
  · exact .inl (congrArg (Prod.mk s) (if_pos hf))
  · exact .inr (congrArg (Prod.mk s) (if_neg hf))

theorem exec_put (value : β) (expected : Option ℕ) :
    (∃ e, exec codec s (.put key value expected) faults = (s, .error e)) ∨
    (∃ row, s.db.objects.lookup key = some row ∧
      checkExpected key (some row.revision) expected = .ok () ∧
      semanticallyEqualIgnoringResourceVersion codec value row.value ∧
      exec codec s (.put key value expected) faults = (s, .ok row.revision)) ∨
    ∃ stamped ns objName,
      checkExpected key ((s.db.objects.lookup key).map Row.revision) expected = .ok () ∧
      (∀ row, s.db.objects.lookup key = some row →
        semanticallyEqualIgnoringResourceVersion codec value row.value = false) ∧
      stampResourceVersion codec value (s.db.revision + 1) = .ok (stamped, ns, objName) ∧
      exec codec s (.put key value expected) faults =
        (s.wrote key stamped ns objName, .ok (s.db.revision + 1)) := by
  obtain ⟨e, he⟩ | ⟨row, hrow, hchk, heq, he⟩ | ⟨stamped, ns, objName, hchk, hne, hst, he⟩ :=
    transaction_put codec s.db key value expected faults
  · exact .inl ⟨e, by simp only [exec, he, Except.map]⟩
  · exact .inr (.inl ⟨row, hrow, hchk, heq, by simp only [exec, he, Except.map]⟩)
  · exact .inr (.inr ⟨stamped, ns, objName, hchk, hne, hst, by
      simp only [exec, he, Except.map, AppState.wrote]⟩)

theorem exec_create (nsKey : Option String) (value : β) :
    (∃ e, exec codec s (.createIfNamespaceActive nsKey key value) faults = (s, .error e)) ∨
    ∃ stamped ns objName, s.db.objects.lookup key = none ∧
      stampResourceVersion codec value (s.db.revision + 1) = .ok (stamped, ns, objName) ∧
      exec codec s (.createIfNamespaceActive nsKey key value) faults =
        (s.wrote key stamped ns objName, .ok (s.db.revision + 1)) := by
  obtain ⟨e, he⟩ | ⟨stamped, ns, objName, hnone, hst, he⟩ :=
    transaction_create codec s.db nsKey key value faults
  · exact .inl ⟨e, by simp only [exec, he, Except.map]⟩
  · exact .inr ⟨stamped, ns, objName, hnone, hst, by simp only [exec, he, Except.map, AppState.wrote]⟩

theorem exec_delete (expected : Option ℕ) :
    (∃ e, exec codec s (.delete key expected) faults = (s, .error e)) ∨
    ∃ row, s.db.objects.lookup key = some row ∧ checkDeleteExpected row.revision expected = .ok () ∧
      exec codec s (.delete key expected) faults = (s.deleted key, .ok (s.db.revision + 1)) := by
  obtain ⟨e, he⟩ | ⟨row, hrow, hchk, he⟩ := transaction_delete s.db key expected faults
  · exact .inl ⟨e, by simp only [exec, he, Except.map]⟩
  · exact .inr ⟨row, hrow, hchk, by simp only [exec, he, Except.map, AppState.deleted]⟩

variable {s key}

@[simp] theorem wrote_lookup :
    (s.wrote key stamped ns objName).db.objects.lookup key =
      some ⟨stamped, s.db.revision + 1, ns, objName⟩ := by
  simp [AppState.wrote, upsert]

theorem wrote_lookup_ne (h : key' ≠ key) :
    (s.wrote key stamped ns objName).db.objects.lookup key' = s.db.objects.lookup key' := by
  simp [AppState.wrote, upsert, incrementRevision, AList.lookup_insert_ne h]

@[simp] theorem deleted_lookup : (s.deleted key).db.objects.lookup key = none := by
  simp [AppState.deleted, deleteRow]

theorem deleted_lookup_ne (h : key' ≠ key) : (s.deleted key).db.objects.lookup key' = s.db.objects.lookup key' := by
  simp [AppState.deleted, deleteRow, incrementRevision, AList.lookup_erase_ne h]

end Exec

end U7s.Handlers
