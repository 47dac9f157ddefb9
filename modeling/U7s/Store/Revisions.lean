import U7s.Lib.Runs
import U7s.Store.Commits

namespace U7s.Store

open Runs

variable {β : Type} (codec : JsonCodec β)

def runCalls (db : Db β) (cs : List (Call β)) : Db β :=
  run (fun db c => (perform codec db c).db) db cs

def history (db : Db β) : List (Call β) → List (Write β)
  | [] => []
  | c :: cs => (perform codec db c).writes ++ history (perform codec db c).db cs

theorem Commits.append (h : Commits codec db ws db') (h' : Commits codec db' ws' db'') :
    Commits codec db (ws ++ ws') db'' := by
  induction h with
  | nil => exact h'
  | cons hc _ ih => exact .cons hc (ih h')

theorem runCalls_commits (db : Db β) (cs : List (Call β)) :
    Commits codec db (history codec db cs) (runCalls codec db cs) := by
  induction cs generalizing db with
  | nil => exact .nil db
  | cons c cs ih => exact (perform_commits codec db c).append codec (ih _)

def Row.Stamped (row : Row β) : Prop :=
  ∃ obj, codec.fromSlice row.value = some obj ∧
    (obj.idx "metadata").idx "resourceVersion" = .str (toString row.revision) ∧
    row.ns = ((obj.idx "metadata").idx "namespace").asStr? ∧
    row.objName = ((obj.idx "metadata").idx "name").asStr?

structure Db.Sound (db : Db β) : Prop where
  bounded : ∀ k row, db.objects.lookup k = some row → row.revision ≤ db.revision
  distinct : ∀ k₁ k₂ row₁ row₂, db.objects.lookup k₁ = some row₁ → db.objects.lookup k₂ = some row₂ →
    row₁.revision = row₂.revision → k₁ = k₂
  stamped : ∀ k row, db.objects.lookup k = some row → row.Stamped codec

theorem stampResourceVersion_ok (h : stampResourceVersion codec value r = .ok (stamped, ns, objName)) :
    (⟨stamped, r, ns, objName⟩ : Row β).Stamped codec := by
  unfold stampResourceVersion at h
  cases hv : codec.fromSlice value with
  | none => simp [hv] at h
  | some obj =>
    simp only [hv] at h
    cases hm : (obj.idx "metadata").setIdx "resourceVersion" (.str (toString r)) with
    | none =>
      rw [hm] at h
      cases h
    | some metadata =>
      simp only [hm] at h
      cases ho : obj.setIdx "metadata" metadata with
      | none => simp [ho] at h
      | some obj' =>
        simp only [ho] at h
        obtain ⟨rfl, rfl, rfl⟩ := h
        have hd : obj'.depth ≤ codec.depthLimit := by
          have h1 := codec.depth_le _ _ hv
          have h2 := Json.depth_idx_le obj "metadata"
          have h3 := Json.depth_setIdx_le hm
          have h4 := Json.depth_setIdx_le ho
          have h5 := codec.two_le_depthLimit
          simp only [Json.depth] at h3
          omega
        have hns := Json.idx_setIdx_ne (show "namespace" ≠ "resourceVersion" by decide) hm
        have hname := Json.idx_setIdx_ne (show "name" ≠ "resourceVersion" by decide) hm
        refine ⟨_, codec.fromSlice_toVec _ hd, ?_, ?_, ?_⟩
        · simp [Json.idx_setIdx ho, Json.idx_setIdx hm, Json.mapFloats]
        · simp [Json.idx_setIdx ho, hns]
        · simp [Json.idx_setIdx ho, hname]

theorem Db.new_sound : (new β).Sound codec := by
  constructor <;> simp [new]

theorem Commit1.revision_eq (h : Commit1 codec db w db') :
    w.event.revision = db.revision + 1 ∧ db'.revision = db.revision + 1 := by
  cases h <;> exact ⟨rfl, rfl⟩

theorem Commit1.lookup_cases (h : Commit1 codec db w db') (hk : db'.objects.lookup k = some row) :
    (k ≠ w.event.key ∧ db.objects.lookup k = some row) ∨
      (k = w.event.key ∧ w.event.value = some row.value ∧ row.revision = db.revision + 1 ∧
        row.Stamped codec) := by
  cases h with
  | @put key value stamped ns objName hs =>
    simp only [upsert] at hk
    by_cases he : k = key
    · subst he
      rw [AList.lookup_insert, Option.some.injEq] at hk
      subst hk
      exact .inr ⟨rfl, rfl, rfl, stampResourceVersion_ok codec hs⟩
    · rw [AList.lookup_insert_ne he] at hk
      exact .inl ⟨he, hk⟩
  | @delete key row' hrow =>
    simp only [deleteRow] at hk
    by_cases he : k = key
    · subst he
      simp at hk
    · rw [AList.lookup_erase_ne he] at hk
      exact .inl ⟨he, hk⟩

theorem Commit1.sound (h : Commit1 codec db w db') (hs : db.Sound codec) : db'.Sound codec := by
  obtain ⟨-, hrev⟩ := h.revision_eq codec
  constructor
  · intro k row hk
    obtain ⟨-, hk⟩ | ⟨-, -, hr, -⟩ := h.lookup_cases codec hk
    · have := hs.bounded k row hk
      omega
    · omega
  · intro k₁ k₂ row₁ row₂ h₁ h₂ he
    obtain ⟨-, h₁⟩ | ⟨e₁, -, r₁, -⟩ := h.lookup_cases codec h₁ <;>
      obtain ⟨-, h₂⟩ | ⟨e₂, -, r₂, -⟩ := h.lookup_cases codec h₂
    · exact hs.distinct _ _ _ _ h₁ h₂ he
    · have := hs.bounded _ _ h₁
      omega
    · have := hs.bounded _ _ h₂
      omega
    · rw [e₁, e₂]
  · intro k row hk
    obtain ⟨-, hk⟩ | ⟨-, -, -, hst⟩ := h.lookup_cases codec hk
    · exact hs.stamped k row hk
    · exact hst

theorem Commits.sound (h : Commits codec db ws db') (hs : db.Sound codec) : db'.Sound codec := by
  induction h with
  | nil => exact hs
  | cons hc _ ih => exact ih (hc.sound codec hs)

theorem Commits.revisions (h : Commits codec db ws db') :
    ws.map (fun w => w.event.revision) = List.range' (db.revision + 1) ws.length ∧
      db'.revision = db.revision + ws.length := by
  induction h with
  | nil => exact ⟨rfl, rfl⟩
  | cons hc _ ih =>
    obtain ⟨hw, hdb⟩ := hc.revision_eq codec
    rw [hdb] at ih
    simp only [List.map_cons, List.length_cons, List.range'_succ, hw, ih.1, true_and]
    omega

def Suppressed (db : Db β) : Call β → Prop
  | .put key value _ _ => ∃ row, db.objects.lookup key = some row ∧
      semanticallyEqualIgnoringResourceVersion codec value row.value = true
  | _ => False

theorem Commits.eq_of_nil (h : Commits codec db [] db') : db' = db := by
  cases h
  rfl

theorem perform_error (h : (perform codec db c).reply = .error e) : (perform codec db c).writes = [] := by
  cases c with
  | put key value expected faults =>
    simp only [perform, put] at h ⊢
    split at h <;> simp_all
  | createIfNamespaceActive nsKey key value faults =>
    simp only [perform, createIfNamespaceActive] at h ⊢
    split at h <;> simp_all
  | delete key expected faults =>
    simp only [perform, delete] at h ⊢
    split at h <;> simp_all
  | deleteNamespaceResources ns faults =>
    simp only [perform, deleteNamespaceResources] at h ⊢
    split at h <;> simp_all

theorem put_writes (h : (put codec db key value expected faults).writes ≠ []) :
    checkExpected key ((db.objects.lookup key).map Row.revision) expected = .ok () ∧
    (∀ row, db.objects.lookup key = some row →
      semanticallyEqualIgnoringResourceVersion codec value row.value = false) ∧
    ∃ row, (put codec db key value expected faults).db.objects.lookup key = some row ∧
      row.revision = db.revision + 1 := by
  simp only [put] at h ⊢
  obtain ⟨e, he⟩ | ⟨row, -, -, -, hr⟩ | ⟨stamped, ns, objName, hchk, hne, hs, hr⟩ :=
    transaction_put codec db key value expected faults
  · simp [he] at h
  · simp [hr, putEvent] at h
  · refine ⟨hchk, hne, ?_⟩
    simp [hr, upsert]

theorem perform_suppressed (h : Suppressed codec db c) : (perform codec db c).writes = [] := by
  cases c with
  | put key value expected faults =>
    obtain ⟨row, hrow, he⟩ := h
    by_contra hw
    obtain ⟨-, hne, -⟩ := put_writes codec hw
    simp [hne row hrow] at he
  | _ => exact h.elim

theorem Commits.row_above (h : Commits codec db ws db') (hr : r ≤ db.revision)
    (hk : ∀ row, db.objects.lookup key = some row → r < row.revision) :
    ∀ row, db'.objects.lookup key = some row → r < row.revision := by
  induction h with
  | nil => exact hk
  | cons hc _ ih =>
    obtain ⟨-, hrev⟩ := hc.revision_eq codec
    apply ih (by omega)
    intro row hrow
    obtain ⟨-, hrow⟩ | ⟨-, -, hrow, -⟩ := hc.lookup_cases codec hrow
    · exact hk row hrow
    · omega

theorem Commits.row_kept (h : Commits codec db ws db') (hk : (db.objects.lookup key).isSome)
    (hw : ∀ w ∈ ws, w.event.key = key → w.event.value ≠ none) : (db'.objects.lookup key).isSome := by
  induction h with
  | nil => exact hk
  | cons hc _ ih =>
    refine ih ?_ (fun w hm => hw w (List.mem_cons_of_mem _ hm))
    cases hc with
    | @put key' value stamped ns objName hs =>
      by_cases he : key = key'
      · subst he
        simp [upsert]
      · simpa [upsert, incrementRevision, AList.lookup_insert_ne he] using hk
    | @delete key' row hrow =>
      have he : key ≠ key' := fun he => hw _ List.mem_cons_self he.symm rfl
      simpa [deleteRow, incrementRevision, AList.lookup_erase_ne he] using hk

theorem checkExpected_pos (hr : 0 < r) (h : checkExpected key storedRv (some r) = .ok ()) : storedRv = some r := by
  obtain ⟨r, rfl⟩ := Nat.exists_eq_succ_of_ne_zero hr.ne'
  cases storedRv with
  | none => simp [checkExpected] at h
  | some rv =>
    simp only [checkExpected] at h
    split_ifs at h with he
    rw [he]

theorem checkExpected_zero (h : checkExpected key storedRv (some 0) = .ok ()) : storedRv = none := by
  cases storedRv with
  | none => rfl
  | some rv => simp [checkExpected] at h

theorem put_twice (hs : db.Sound codec) (h : (put codec db key v (some r) f).writes ≠ [])
    (h' : (put codec (runCalls codec (put codec db key v (some r) f).db cs) key v' (some r) f').writes
      ≠ []) :
    r = 0 ∧ ∃ w ∈ history codec (put codec db key v (some r) f).db cs,
      w.event.key = key ∧ w.event.value = none := by
  obtain ⟨hchk, -, row, hrow, hrev⟩ := put_writes codec h
  obtain ⟨hchk', -, -⟩ := put_writes codec h'
  have hruns := runCalls_commits codec (put codec db key v (some r) f).db cs
  obtain rfl | hr := eq_zero_or_pos r
  · refine ⟨rfl, ?_⟩
    by_contra hno
    push Not at hno
    have hkept := hruns.row_kept codec (by simp [hrow]) hno
    have hgone := checkExpected_zero hchk'
    simp only [Option.map_eq_none_iff] at hgone
    simp [hgone] at hkept
  · have hstored := checkExpected_pos hr hchk
    have hstored' := checkExpected_pos hr hchk'
    simp only [Option.map_eq_some_iff] at hstored hstored'
    obtain ⟨row₀, hrow₀, rfl⟩ := hstored
    obtain ⟨row₁, hrow₁, he⟩ := hstored'
    have hle := hs.bounded _ _ hrow₀
    obtain ⟨-, hmono⟩ := (perform_commits codec db (.put key v (some row₀.revision) f)).revisions codec
    simp only [perform] at hmono
    have hnew : ∀ row', (put codec db key v (some row₀.revision) f).db.objects.lookup key = some row' →
        row₀.revision < row'.revision := by
      intro row' hrow'
      rw [hrow, Option.some.injEq] at hrow'
      subst hrow'
      omega
    have habove := hruns.row_above codec (by omega) hnew row₁ hrow₁
    omega

/-- What the tables hold after a run, how the next call moves them, and that two puts over one revision do not both
go through. -/
theorem revisions_of_every_run (cs : List (Call β)) :
    let db := runCalls codec (Db.new β) cs
    db.Sound codec ∧
    (history codec (Db.new β) cs).map (fun w => w.event.revision) = List.range' 1 db.revision ∧
    (∀ c, let out := perform codec db c
      Commits codec db out.writes out.db ∧ db.revision ≤ out.db.revision ∧
      out.writes.map (fun w => w.event.revision) =
        List.range' (db.revision + 1) (out.db.revision - db.revision) ∧
      (∀ e, out.reply = .error e → out.db = db) ∧ (Suppressed codec db c → out.db = db)) ∧
    (∀ key v v' r f f' ds, (put codec db key v (some r) f).writes ≠ [] →
      (put codec (runCalls codec (put codec db key v (some r) f).db ds) key v' (some r) f').writes
        ≠ [] →
      r = 0 ∧ ∃ w ∈ history codec (put codec db key v (some r) f).db ds,
        w.event.key = key ∧ w.event.value = none) := by
  have hruns := runCalls_commits codec (Db.new β) cs
  have hsound := hruns.sound codec (Db.new_sound codec)
  obtain ⟨hrevs, hlen⟩ := hruns.revisions codec
  refine ⟨hsound, ?_, ?_, ?_⟩
  · rw [hrevs, hlen]
    simp [Db.new]
  · intro c
    have hc := perform_commits codec (runCalls codec (Db.new β) cs) c
    obtain ⟨hw, hr⟩ := hc.revisions codec
    refine ⟨hc, by omega, ?_, ?_, ?_⟩
    · rw [hw, hr, Nat.add_sub_cancel_left]
    · intro e he
      rw [perform_error codec he] at hc
      exact hc.eq_of_nil codec
    · intro hsup
      rw [perform_suppressed codec hsup] at hc
      exact hc.eq_of_nil codec
  · intro key v v' r f f' ds h h'
    exact put_twice codec hsound h h'

theorem create_delete_create :
    let v : Option Json := some (.obj [("metadata", .obj [("name", .str "a")])])
    let db := (put JsonCodec.parsed (Db.new _) "/registry/nodes/a" v (some 0) []).db
    let db' := runCalls JsonCodec.parsed db [.delete "/registry/nodes/a" none []]
    (put JsonCodec.parsed (Db.new _) "/registry/nodes/a" v (some 0) []).writes ≠ [] ∧
      (put JsonCodec.parsed db' "/registry/nodes/a" v (some 0) []).writes ≠ [] := by
  decide

end U7s.Store
