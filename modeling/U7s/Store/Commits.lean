import U7s.Store.Db

namespace U7s.Store

structure InternalEvent (β : Type) where
  key : String
  revision : ℕ
  value : Option β
  isCreate : Bool
  deletedBody : Option β
  deriving DecidableEq

structure Write (β : Type) where
  event : InternalEvent β
  ns : Option String
  deriving DecidableEq

variable {β : Type} (codec : JsonCodec β)

inductive Call (β : Type) where
  | put (key : String) (value : β) (expected : Option ℕ) (faults : List Bool)
  | createIfNamespaceActive (nsKey : Option String) (key : String) (value : β) (faults : List Bool)
  | delete (key : String) (expected : Option ℕ) (faults : List Bool)
  | deleteNamespaceResources (ns : String) (faults : List Bool)

inductive Reply (β : Type) where
  | revision (r : ℕ)
  | deleted (r : ℕ) (lastValue : β)
  | keys (ks : List String)

structure Outcome (β : Type) where
  reply : Except CreateNamespacedError (Reply β)
  db : Db β
  writes : List (Write β)

def putEvent (key : String) (r : PutOk β) : List (Write β) :=
  match r.written with
  | none => []
  | some (stamped, ns) => [⟨⟨key, r.revision, some stamped, r.isCreate, none⟩, ns⟩]

def put (db : Db β) (key : String) (value : β) (expected : Option ℕ) (faults : List Bool) :
    Outcome β :=
  match transaction (putSync codec key value expected) faults db with
  | (.ok r, db) => ⟨.ok (.revision r.revision), db, putEvent key r⟩
  | (.error e, db) => ⟨.error (.store e), db, []⟩

def createIfNamespaceActive (db : Db β) (nsKey : Option String) (key : String) (value : β)
    (faults : List Bool) : Outcome β :=
  match transaction (createIfNamespaceActiveSync codec nsKey key value) faults db with
  | (.ok r, db) =>
    ⟨.ok (.revision r.revision), db, [⟨⟨key, r.revision, some r.stamped, true, none⟩, r.ns⟩]⟩
  | (.error e, db) => ⟨.error e, db, []⟩

def delete (db : Db β) (key : String) (expected : Option ℕ) (faults : List Bool) : Outcome β :=
  match transaction (deleteSync key expected) faults db with
  | (.ok r, db) =>
    ⟨.ok (.deleted r.revision r.lastValue), db,
      [⟨⟨key, r.revision, none, false, some r.lastValue⟩, r.ns⟩]⟩
  | (.error e, db) => ⟨.error (.store e), db, []⟩

def namespaceDeleteEvent (ns : String) (d : String × β × ℕ) : Write β :=
  ⟨⟨d.1, d.2.2, none, false, some d.2.1⟩, some ns⟩

def deleteNamespaceResources (db : Db β) (ns : String) (faults : List Bool) : Outcome β :=
  match transaction (deleteNamespaceSync ns) faults db with
  | (.ok deleted, db) =>
    ⟨.ok (.keys (deleted.map (fun d => d.1))), db, deleted.map (namespaceDeleteEvent ns)⟩
  | (.error e, db) => ⟨.error (.store e), db, []⟩

def perform (db : Db β) : Call β → Outcome β
  | .put key value expected faults => put codec db key value expected faults
  | .createIfNamespaceActive nsKey key value faults =>
    createIfNamespaceActive codec db nsKey key value faults
  | .delete key expected faults => delete db key expected faults
  | .deleteNamespaceResources ns faults => deleteNamespaceResources db ns faults

inductive Commit1 : Db β → Write β → Db β → Prop
  | put {db : Db β} {key : String} {value stamped : β} {ns objName : Option String}
      (h : stampResourceVersion codec value (db.revision + 1) = .ok (stamped, ns, objName)) :
      Commit1 db
        ⟨⟨key, db.revision + 1, some stamped, (db.objects.lookup key).isNone, none⟩, ns⟩
        (upsert key ⟨stamped, db.revision + 1, ns, objName⟩ (incrementRevision db))
  | delete {db : Db β} {key : String} {row : Row β} (h : db.objects.lookup key = some row) :
      Commit1 db ⟨⟨key, db.revision + 1, none, false, some row.value⟩, row.ns⟩
        (deleteRow key (incrementRevision db))

inductive Commits : Db β → List (Write β) → Db β → Prop
  | nil (db : Db β) : Commits db [] db
  | cons {db db' db'' : Db β} {w : Write β} {ws : List (Write β)} (h : Commit1 codec db w db')
      (hs : Commits db' ws db'') : Commits db (w :: ws) db''

theorem Commits.single (h : Commit1 codec db w db') : Commits codec db [w] db' := .cons h (.nil _)

theorem transaction_cases {ε α : Type} (body : Sql ε β α) (faults : List Bool) (db : Db β) :
    (∃ e, transaction body faults db = (.error e, db)) ∨
    (∃ a, transaction body faults db = (.ok a, db) ∧ ∃ fs, body ⟨db, faults, false⟩ = .ok (a, fs) ∧
      fs.committed = false) ∨
    (∃ a fs, transaction body faults db = (.ok a, fs.db) ∧
      body ⟨db, faults, false⟩ = .ok (a, fs) ∧ fs.committed) := by
  unfold transaction
  cases h : body ⟨db, faults, false⟩ with
  | error e => exact .inl ⟨e, rfl⟩
  | ok p =>
    obtain ⟨a, tx⟩ := p
    cases hc : tx.committed with
    | false => exact .inr (.inl ⟨a, by simp [hc], tx, rfl, hc⟩)
    | true => exact .inr (.inr ⟨a, tx, by simp [hc], rfl, hc⟩)

theorem putSync_ok (h : putSync codec key value expected tx = .ok (r, t)) :
    checkExpected key ((tx.db.objects.lookup key).map Row.revision) expected = .ok () ∧
    ((t.committed = tx.committed ∧ ∃ row, tx.db.objects.lookup key = some row ∧
        semanticallyEqualIgnoringResourceVersion codec value row.value ∧
        r = ⟨row.revision, false, none⟩) ∨
      (t.committed ∧
        (tx.db.objects.lookup key).filter
          (fun row => semanticallyEqualIgnoringResourceVersion codec value row.value) = none ∧
        ∃ stamped ns objName,
        stampResourceVersion codec value (tx.db.revision + 1) = .ok (stamped, ns, objName) ∧
        t.db = upsert key ⟨stamped, tx.db.revision + 1, ns, objName⟩ (incrementRevision tx.db) ∧
        r = ⟨tx.db.revision + 1, (tx.db.objects.lookup key).isNone, some (stamped, ns)⟩)) := by
  replace h := execute_bind h
  replace h := query_bind h
  dsimp only [id] at h
  cases hc : checkExpected key ((tx.db.objects.lookup key).map Row.revision) expected with
  | error e =>
    rw [hc] at h
    exact (throw_ok h).elim
  | ok u =>
    refine ⟨rfl, ?_⟩
    rw [hc] at h
    cases hf : (tx.db.objects.lookup key).filter
        (fun row => semanticallyEqualIgnoringResourceVersion codec value row.value) with
    | some row =>
      simp only [hf] at h
      obtain ⟨rfl, rfl⟩ := pure_ok h
      obtain ⟨hrow, heq⟩ := Option.filter_eq_some_iff.mp hf
      exact .inl ⟨rfl, row, hrow, heq, rfl⟩
    | none =>
      simp only [hf] at h
      replace h := execute_bind h
      replace h := query_bind h
      dsimp only [incrementRevision] at h
      cases hs : stampResourceVersion codec value (tx.db.revision + 1) with
      | error e =>
        rw [hs] at h
        exact (throw_ok h).elim
      | ok p =>
        rw [hs] at h
        replace h := execute_bind h
        replace h := commit_bind h
        obtain ⟨rfl, rfl⟩ := pure_ok h
        exact .inr ⟨rfl, rfl, p.1, p.2.1, p.2.2, rfl, rfl, rfl⟩

theorem deleteSync_ok (h : deleteSync key expected tx = .ok (r, t)) :
    t.committed ∧ ∃ row, tx.db.objects.lookup key = some row ∧
      checkDeleteExpected row.revision expected = .ok () ∧
      t.db = deleteRow key (incrementRevision tx.db) ∧
      r = ⟨tx.db.revision + 1, row.value, row.ns⟩ := by
  replace h := execute_bind h
  replace h := query_bind h
  dsimp only [id] at h
  cases hrow : tx.db.objects.lookup key with
  | none =>
    rw [hrow] at h
    exact (throw_ok h).elim
  | some row =>
    simp only [hrow] at h
    cases hc : checkDeleteExpected row.revision expected with
    | error e =>
      rw [hc] at h
      exact (throw_ok h).elim
    | ok u =>
      rw [hc] at h
      replace h := execute_bind h
      replace h := query_bind h
      replace h := execute_bind h
      replace h := commit_bind h
      obtain ⟨rfl, rfl⟩ := pure_ok h
      exact ⟨rfl, row, rfl, hc, rfl, rfl⟩

theorem checkNamespaceActive_ok (h : checkNamespaceActive codec nsKey tx = .ok (u, t)) : t.db = tx.db := by
  cases nsKey with
  | none =>
    obtain ⟨-, rfl⟩ := pure_ok h
    rfl
  | some nsKey =>
    replace h := query_bind h
    cases hrow : tx.db.objects.lookup nsKey with
    | none =>
      rw [hrow] at h
      exact (throw_ok h).elim
    | some row =>
      simp only [hrow] at h
      split_ifs at h
      · exact (throw_ok h).elim
      · obtain ⟨-, rfl⟩ := pure_ok h
        rfl

theorem createIfNamespaceActiveSync_ok (h : createIfNamespaceActiveSync codec nsKey key value tx = .ok (r, t)) :
    t.committed ∧ tx.db.objects.lookup key = none ∧ ∃ objName,
      stampResourceVersion codec value (tx.db.revision + 1) = .ok (r.stamped, r.ns, objName) ∧
      t.db = upsert key ⟨r.stamped, tx.db.revision + 1, r.ns, objName⟩ (incrementRevision tx.db) ∧
      r.revision = tx.db.revision + 1 := by
  replace h := execute_bind h
  obtain ⟨_, t₂, h₂, h⟩ := bind_ok h
  have hdb := checkNamespaceActive_ok codec h₂
  dsimp only [id] at hdb
  rw [← hdb]
  replace h := query_bind h
  cases hrow : t₂.db.objects.lookup key with
  | some row =>
    rw [hrow] at h
    exact (throw_ok h).elim
  | none =>
    simp only [hrow] at h
    replace h := execute_bind h
    replace h := query_bind h
    dsimp only [incrementRevision] at h
    cases hs : stampResourceVersion codec value (t₂.db.revision + 1) with
    | error e =>
      rw [hs] at h
      exact (throw_ok h).elim
    | ok p =>
      rw [hs] at h
      replace h := execute_bind h
      replace h := commit_bind h
      obtain ⟨rfl, rfl⟩ := pure_ok h
      exact ⟨rfl, rfl, p.2.2, rfl, rfl, rfl⟩

theorem deletePairs_ok (h : deletePairs pairs tx = .ok (ds, t)) (hk : (pairs.map Prod.fst).Nodup)
    (hp : ∀ p ∈ pairs, ∃ row, tx.db.objects.lookup p.1 = some row ∧ row.value = p.2 ∧
      row.ns = some ns) : Commits codec tx.db (ds.map (namespaceDeleteEvent ns)) t.db := by
  induction pairs generalizing tx ds with
  | nil =>
    obtain ⟨rfl, rfl⟩ := pure_ok h
    exact .nil _
  | cons p pairs ih =>
    obtain ⟨key, body⟩ := p
    replace h := execute_bind h
    replace h := query_bind h
    replace h := execute_bind h
    obtain ⟨rest, t₄, h₄, h⟩ := bind_ok h
    obtain ⟨rfl, rfl⟩ := pure_ok h
    obtain ⟨hkey, hk'⟩ := List.nodup_cons.mp hk
    obtain ⟨row, hrow, rfl, hns⟩ := hp (key, body) List.mem_cons_self
    have hc : Commit1 codec _ _ _ := .delete hrow
    rw [hns] at hc
    refine .cons hc (ih h₄ hk' ?_)
    intro q hq
    obtain ⟨row', hrow', hq'⟩ := hp q (List.mem_cons_of_mem _ hq)
    have hne : q.1 ≠ key := by
      rintro rfl
      exact hkey (List.mem_map.mpr ⟨q, hq, rfl⟩)
    exact ⟨row', by simpa [deleteRow, incrementRevision, AList.lookup_erase_ne hne] using hrow', hq'⟩

theorem namespaceRows_mem (h : p ∈ namespaceRows ns db) :
    ∃ row, db.objects.lookup p.1 = some row ∧ row.value = p.2 ∧ row.ns = some ns := by
  simp only [namespaceRows, List.mem_map, List.mem_filter, decide_eq_true_eq] at h
  obtain ⟨⟨key, row⟩, ⟨hmem, hns⟩, rfl⟩ := h
  exact ⟨row, AList.mem_lookup_iff.mpr hmem, rfl, hns⟩

theorem namespaceRows_nodup (ns : String) (db : Db β) : ((namespaceRows ns db).map Prod.fst).Nodup := by
  have hs : ((namespaceRows ns db).map Prod.fst).Sublist db.objects.keys := by
    simp only [namespaceRows, List.map_map]
    exact (List.filter_sublist).map _
  exact db.objects.keys_nodup.sublist hs

theorem deleteNamespaceSync_ok (h : deleteNamespaceSync ns tx = .ok (ds, t)) :
    (t.committed = tx.committed ∧ ds = []) ∨
    (t.committed ∧ Commits codec tx.db (ds.map (namespaceDeleteEvent ns)) t.db) := by
  replace h := execute_bind h
  obtain ⟨pairs, t₂, h₂, h⟩ := bind_ok h
  obtain ⟨hsub, fs, rfl⟩ := queryRows_ok h₂
  split_ifs at h with hp
  · obtain ⟨rfl, rfl⟩ := pure_ok h
    exact .inl ⟨rfl, rfl⟩
  · obtain ⟨_, t₃, h₃, h⟩ := bind_ok h
    replace h := commit_bind h
    obtain ⟨rfl, rfl⟩ := pure_ok h
    have hn := (namespaceRows_nodup ns tx.db).sublist (hsub.map _)
    have hs := deletePairs_ok codec h₃ hn (fun p hp => namespaceRows_mem (hsub.subset hp))
    exact .inr ⟨rfl, hs⟩

theorem transaction_put (db : Db β) (key : String) (value : β) (expected : Option ℕ) (faults : List Bool) :
    (∃ e, transaction (putSync codec key value expected) faults db = (.error e, db)) ∨
    (∃ row, db.objects.lookup key = some row ∧
      checkExpected key (some row.revision) expected = .ok () ∧
      semanticallyEqualIgnoringResourceVersion codec value row.value ∧
      transaction (putSync codec key value expected) faults db = (.ok ⟨row.revision, false, none⟩, db)) ∨
    ∃ stamped ns objName,
      checkExpected key ((db.objects.lookup key).map Row.revision) expected = .ok () ∧
      (∀ row, db.objects.lookup key = some row →
        semanticallyEqualIgnoringResourceVersion codec value row.value = false) ∧
      stampResourceVersion codec value (db.revision + 1) = .ok (stamped, ns, objName) ∧
      transaction (putSync codec key value expected) faults db =
        (.ok ⟨db.revision + 1, (db.objects.lookup key).isNone, some (stamped, ns)⟩,
          upsert key ⟨stamped, db.revision + 1, ns, objName⟩ (incrementRevision db)) := by
  obtain ⟨e, he⟩ | ⟨r, hr, t, ht, hc⟩ | ⟨r, t, hr, ht, hc⟩ :=
    transaction_cases (putSync codec key value expected) faults db
  · exact .inl ⟨e, he⟩
  · obtain ⟨hchk, ⟨-, row, hrow, heq, rfl⟩ | ⟨hc', -⟩⟩ := putSync_ok codec ht
    · rw [hrow] at hchk
      exact .inr (.inl ⟨row, hrow, hchk, heq, hr⟩)
    · simp [hc] at hc'
  · obtain ⟨hchk, ⟨hc', -⟩ | ⟨-, hf, stamped, ns, objName, hs, hdb, rfl⟩⟩ := putSync_ok codec ht
    · simp [hc] at hc'
    · refine .inr (.inr ⟨stamped, ns, objName, hchk, ?_, hs, by rw [hr, hdb]⟩)
      intro row hrow
      simpa [hrow] using hf

theorem transaction_create (db : Db β) (nsKey : Option String) (key : String) (value : β) (faults : List Bool) :
    (∃ e, transaction (createIfNamespaceActiveSync codec nsKey key value) faults db = (.error e, db)) ∨
    ∃ stamped ns objName, db.objects.lookup key = none ∧
      stampResourceVersion codec value (db.revision + 1) = .ok (stamped, ns, objName) ∧
      transaction (createIfNamespaceActiveSync codec nsKey key value) faults db =
        (.ok ⟨db.revision + 1, stamped, ns⟩,
          upsert key ⟨stamped, db.revision + 1, ns, objName⟩ (incrementRevision db)) := by
  obtain ⟨e, he⟩ | ⟨r, hr, t, ht, hc⟩ | ⟨r, t, hr, ht, hc⟩ :=
    transaction_cases (createIfNamespaceActiveSync codec nsKey key value) faults db
  · exact .inl ⟨e, he⟩
  · obtain ⟨hc', -⟩ := createIfNamespaceActiveSync_ok codec ht
    simp [hc] at hc'
  · obtain ⟨-, hnone, objName, hs, hdb, hrev⟩ := createIfNamespaceActiveSync_ok codec ht
    exact .inr ⟨r.stamped, r.ns, objName, hnone, hs, by rw [hr, hdb, ← hrev]⟩

theorem transaction_delete (db : Db β) (key : String) (expected : Option ℕ) (faults : List Bool) :
    (∃ e, transaction (deleteSync key expected) faults db = (.error e, db)) ∨
    ∃ row, db.objects.lookup key = some row ∧ checkDeleteExpected row.revision expected = .ok () ∧
      transaction (deleteSync key expected) faults db =
        (.ok ⟨db.revision + 1, row.value, row.ns⟩, deleteRow key (incrementRevision db)) := by
  obtain ⟨e, he⟩ | ⟨r, hr, t, ht, hc⟩ | ⟨r, t, hr, ht, hc⟩ :=
    transaction_cases (deleteSync key expected) faults db
  · exact .inl ⟨e, he⟩
  · obtain ⟨hc', -⟩ := deleteSync_ok ht
    simp [hc] at hc'
  · obtain ⟨-, row, hrow, hchk, hdb, rfl⟩ := deleteSync_ok ht
    exact .inr ⟨row, hrow, hchk, by rw [hr, hdb]⟩

theorem perform_commits (db : Db β) (c : Call β) :
    Commits codec db (perform codec db c).writes (perform codec db c).db := by
  cases c with
  | put key value expected faults =>
    simp only [perform, put]
    obtain ⟨e, he⟩ | ⟨row, -, -, -, hr⟩ | ⟨stamped, ns, objName, -, -, hs, hr⟩ :=
      transaction_put codec db key value expected faults
    · rw [he]
      exact .nil _
    · rw [hr]
      exact .nil _
    · rw [hr]
      exact .single codec (.put hs)
  | createIfNamespaceActive nsKey key value faults =>
    simp only [perform, createIfNamespaceActive]
    obtain ⟨e, he⟩ | ⟨stamped, ns, objName, hnone, hs, hr⟩ :=
      transaction_create codec db nsKey key value faults
    · rw [he]
      exact .nil _
    · rw [hr]
      have hc1 : Commit1 codec db ⟨⟨key, _, _, _, _⟩, _⟩ _ := .put hs
      rw [hnone] at hc1
      exact .single codec hc1
  | delete key expected faults =>
    simp only [perform, delete]
    obtain ⟨e, he⟩ | ⟨row, hrow, -, hr⟩ := transaction_delete db key expected faults
    · rw [he]
      exact .nil _
    · rw [hr]
      exact .single codec (.delete hrow)
  | deleteNamespaceResources ns faults =>
    simp only [perform, deleteNamespaceResources]
    obtain ⟨e, he⟩ | ⟨r, hr, t, ht, hc⟩ | ⟨r, t, hr, ht, hc⟩ :=
      transaction_cases (deleteNamespaceSync ns) faults db
    · rw [he]
      exact .nil _
    · rw [hr]
      obtain ⟨-, rfl⟩ | ⟨hc', -⟩ := deleteNamespaceSync_ok codec ht
      · exact .nil _
      · simp [hc] at hc'
    · rw [hr]
      obtain ⟨hc', -⟩ | ⟨-, hs⟩ := deleteNamespaceSync_ok codec ht
      · simp [hc] at hc'
      · exact hs

end U7s.Store
