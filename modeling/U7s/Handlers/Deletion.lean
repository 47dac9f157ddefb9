import U7s.Handlers.Termination

/-! `metadata.deletionTimestamp`: the delete path sets it once, and every update pins it to what the request has
read. -/

namespace U7s.Handlers

open Store Programs Fallible Runs Option

variable {β : Type} (codec : JsonCodec β)

def Follows (q : ObjectRequest) (old : Option Json) (new : Json) : Prop :=
  deletionMark new = markOf old ∨ markOf old = .null ∧ ∃ d, q = .delete d ∧ deletionMark new = .str d.now

structure ReplaceRequest.Plain (q : ReplaceRequest) : Prop where
  prepare : ∀ old body, q.prepare old q.body = .ok body → ∃ md, body.idx "metadata" = .obj md
  admission : ∀ old body body', q.admission old body = .ok body' → deletionMark body' = deletionMark body

structure PatchRequest.Plain (q : PatchRequest) : Prop where
  create : ∀ body, q.create = .ok body → deletionMark body = .null
  merge : q.isSsa = true → ∀ stored body, q.merge stored = .ok body → ∃ md, body.idx "metadata" = .obj md
  validate : ∀ stored body body', q.validate stored body = .ok body' → deletionMark body' = deletionMark body
  admission : ∀ stored body body', q.admission stored body = .ok body' → deletionMark body' = deletionMark body

def ObjectRequest.Plain : ObjectRequest → Prop
  | .delete _ => True
  | .replace q => q.Plain
  | .patch q => q.Plain

theorem addIf_mark (h : addIf c (addFinalizer f) body = .ok body') :
    deletionMark body' = deletionMark body ∧ resourceVersion body' = resourceVersion body := by
  cases c with
  | false =>
    cases h
    exact ⟨rfl, rfl⟩
  | true =>
    obtain ⟨-, -, hmeta⟩ := setMetadata_idx (panicOn_ok h)
    exact ⟨hmeta _ (by decide), by rw [resourceVersion, hmeta _ (by decide), resourceVersion]⟩

theorem markPropagation_mark (h : markPropagation t opts body = .ok body') :
    deletionMark body' = deletionMark body ∧ resourceVersion body' = resourceVersion body := by
  obtain ⟨orphaned, ho, h⟩ := except_bind_ok h
  obtain ⟨hmark₁, hrv₁⟩ := addIf_mark ho
  obtain ⟨hmark₂, hrv₂⟩ := addIf_mark h
  exact ⟨hmark₂.trans hmark₁, hrv₂.trans hrv₁⟩

theorem softDeleted_mark (h : softDeleted now body = .ok body') :
    deletionMark body' = deletionMark body ∨ deletionMark body = .null ∧ deletionMark body' = .str now := by
  obtain ⟨stamped, hst, h⟩ := except_bind_ok h
  have hlast : deletionMark body' = deletionMark stamped := by
    split_ifs at h
    · rw [deletionMark, (stampTerminating_idx (panicOn_ok h)).1 _ (by decide), deletionMark]
    · cases h
      rfl
  unfold stampDeletionTimestamp at hst
  split_ifs at hst with hnull
  · exact Or.inr ⟨hnull, hlast.trans (setMetadata_idx (panicOn_ok hst)).2.1⟩
  · cases hst
    exact Or.inl hlast

theorem decide_follows (h : q.decide t body = .ok (some soft)) :
    Follows (.delete q) (some body) soft ∧ resourceVersion soft = resourceVersion body := by
  obtain ⟨-, -, h⟩ := except_bind_ok h
  obtain ⟨marked, hm, h⟩ := except_bind_ok h
  obtain ⟨hmark, hrv⟩ := markPropagation_mark hm
  have hsoft : softDeleted q.now marked = .ok soft := by
    unfold applyDeletePolicy at h
    split_ifs at h
    · cases hs : softDeleted q.now marked with
      | error e => simp [hs, Except.map] at h
      | ok b => simpa [hs, Except.map] using h
    · cases h
  refine ⟨?_, (softDeleted_resourceVersion hsoft).trans hrv⟩
  obtain hkeep | ⟨hnull, hnow⟩ := softDeleted_mark hsoft
  · exact Or.inl (hkeep.trans hmark)
  · exact Or.inr ⟨hmark.symm.trans hnull, q, rfl, hnow⟩

theorem replace_follows {q : ReplaceRequest} (hq : q.Plain)
    (h : q.edit old = .ok new) : deletionMark new = markOf old := by
  obtain ⟨prepared, hp, h⟩ := except_bind_ok h
  obtain ⟨md, hmd⟩ := hq.prepare old prepared hp
  rw [hq.admission old _ new h]
  exact deletionMark_pin hmd old

theorem patch_follows {q : PatchRequest} (hq : q.Plain) (h : q.edit body = .ok new) :
    deletionMark new = deletionMark body := by
  obtain ⟨merged, -, h⟩ := except_bind_ok h
  obtain ⟨withUid, hu, h⟩ := except_bind_ok h
  obtain ⟨md, hmd, hb⟩ := bind_eq_some_iff.mp (panicOn_ok hu)
  obtain ⟨fs, rfl⟩ : ∃ fs, md = .obj fs := by
    unfold Json.setIdx at hmd
    split at hmd
    · cases hmd
      exact ⟨_, rfl⟩
    · cases hmd
      exact ⟨_, rfl⟩
    · cases hmd
  rw [hq.validate body _ new h]
  exact deletionMark_pin (Json.idx_setIdx hb) (some body)

def Conditioned (t : Target) (expected : Option ℕ) (read new : Json) : ObjectRequest → Prop
  | .delete _ => resourceVersion new = resourceVersion read ∧ parseResourceVersion (resourceVersion new) = .ok expected
  | .replace _ => checkReplaceResourceVersionPrecondition t expected (some read) = .ok ()
  | .patch _ => True

/-- The mark that a request writes is that of the object it has read. A `PUT` that lost the race to create the
object has read none. -/
def MarkGuard (t : Target) (q : ObjectRequest) (h : History β) : AppOp β → Prop
  | .put key value expected => key = t.key ∧ ∃ new, value = codec.toVec new ∧
      ((∃ row body, decisionRead h = some row ∧ ⟨.get t.key, .ok (some row)⟩ ∈ h ∧
        codec.fromSlice row.value = some body ∧ Follows q (some body) new ∧ Conditioned t expected body new q) ∨
      decisionRead h = none ∧ Follows q none new ∧ (expected = none ∧ (∃ p, q = .replace p) ∨ expected = some 0))
  | .createIfNamespaceActive _ key value => key = t.key ∧ ∃ new, value = codec.toVec new ∧ Follows q none new
  | .delete key _ => key = t.key
  | _ => True

section Programs

variable {codec}

theorem create_follows (hq : q.Plain) (h : Creates new q) : deletionMark new = .null := by
  cases q with
  | delete q => exact h.elim
  | replace q => exact replace_follows hq h
  | patch q => exact hq.create new h

theorem Computes.follows (hq : q.Plain) (h : Computes t expected (some body) new q) :
    Follows q (some body) new ∧ Conditioned t expected body new q := by
  cases q with
  | delete q =>
    obtain ⟨_, hbody, hd, he⟩ := h
    cases hbody
    obtain ⟨hfollows, hrv⟩ := decide_follows hd
    exact ⟨hfollows, hrv, he⟩
  | replace q => exact ⟨Or.inl (replace_follows hq h.2), h.1⟩
  | patch q =>
    obtain ⟨_, mid, hbody, ha, he | ⟨hssa, merged, hmerge, hv⟩⟩ := h <;> cases hbody
    · exact ⟨Or.inl ((hq.admission body mid new ha).trans (patch_follows hq he)), trivial⟩
    · obtain ⟨md, hmd⟩ := hq.merge hssa body merged hmerge
      refine ⟨Or.inl ?_, trivial⟩
      rw [hq.admission body mid new ha, hq.validate body _ mid hv]
      exact deletionMark_pin hmd (some body)

theorem program_marks {q : ObjectRequest} (hq : q.Plain) (hns : t.ns.isSome) :
    (q.program codec t).Keeps (MarkGuard codec t q) (fun _ _ => True) [] := by
  refine Prog.Keeps.mono (program_serves q t) (fun h o hG => ?_) (fun _ _ _ => trivial)
  cases o with
  | put key value expected =>
    obtain ⟨-, hkey, hwrites⟩ := hG
    obtain ⟨new, rfl, ⟨row, body, ⟨hr, hm, hb⟩, hc⟩ | ⟨hr, ⟨p, rfl⟩, hpre, hedit⟩⟩ := hwrites hns
    · exact ⟨hkey, new, rfl, Or.inl ⟨row, body, hr, hm, hb, hc.follows hq⟩⟩
    · refine ⟨hkey, new, rfl, Or.inr ⟨hr, Or.inl (replace_follows hq hedit), ?_⟩⟩
      cases expected with
      | none => exact Or.inl ⟨rfl, p, rfl⟩
      | some e =>
        simp only [checkReplaceResourceVersionPrecondition] at hpre
        split_ifs at hpre with hzero
        exact Or.inr (congrArg some hzero.symm)
  | createIfNamespaceActive nsKey key value =>
    obtain ⟨-, hkey, new, rfl, hc⟩ := hG
    exact ⟨hkey, new, rfl, Or.inl (create_follows hq hc)⟩
  | delete key expected => exact hG.2.1
  | _ => trivial

end Programs

/-- No write came between a request's read and its own, where the write does not see to it: a `PUT` without a
resource version or with zero, and a `PATCH` that does not name the revision it has read. -/
def Unraced (t : Target) (qs : ℕ → ObjectRequest) (w : App β) (a : ℕ × List Bool) : Prop :=
  let stored := w.shared.db.objects.lookup t.key
  let read := decisionRead (w.past a.1)
  match (w.threads a.1).rest, qs a.1 with
  | .call (.put _ _ expected) _, .replace _ => expected.getD 0 = 0 → stored = read
  | .call (.put _ _ expected) _, .patch _ => expected = read.map Row.revision ∨ stored = read
  | _, _ => True

/-- What a step stores has the mark stored before, but for the digits of floats, or the first mark, from the clock
of a `DELETE`. -/
def MarkKept (t : Target) (qs : ℕ → ObjectRequest) (w : App β) (a : ℕ × List Bool) : Prop :=
  let old := storedObject codec w.shared t.key
  ∀ new, storedObject codec (App.step codec w a).shared t.key = some new →
    (∃ f, deletionMark new = (markOf old).mapFloats f) ∨
      markOf old = .null ∧ ∃ d, qs a.1 = .delete d ∧ deletionMark new = .str d.now

section Steps

variable {codec}

theorem markKept_same (h : old = some new) : ∃ f, deletionMark new = (markOf old).mapFloats f := by
  subst h
  exact ⟨id, (Json.mapFloats_id _).symm⟩

theorem Follows.carries (h : Follows q old new) (hc : Carries new new') :
    (∃ f, deletionMark new' = (markOf old).mapFloats f) ∨
      markOf old = .null ∧ ∃ d, q = .delete d ∧ deletionMark new' = .str d.now := by
  obtain ⟨f, -, hmeta⟩ := hc
  have hmark : deletionMark new' = (deletionMark new).mapFloats f := hmeta _ (by decide)
  obtain hsame | ⟨hnull, d, hd, hnow⟩ := h
  · exact Or.inl ⟨f, hsame ▸ hmark⟩
  · refine Or.inr ⟨hnull, d, hd, ?_⟩
    rw [hmark, hnow]
    rfl

theorem Past.of_precondition (hp : Past codec s t.key row) (hb : codec.fromSlice row.value = some body)
    (he : e ≠ 0) (hpre : checkReplaceResourceVersionPrecondition t (some e) (some body) = .ok ())
    (hchk : checkExpected t.key ((s.db.objects.lookup t.key).map Row.revision) (some e) = .ok ()) :
    s.db.objects.lookup t.key = some row := by
  simp only [checkReplaceResourceVersionPrecondition, bind_some, hp.resourceVersion_eq hb,
    parseU64_toString] at hpre
  split_ifs at hpre with hlt heq heq
  · obtain rfl : row.revision = e := heq
    exact hp.of_checkExpected hchk
  · exact absurd heq.symm he

theorem MarkGuard.follows (hk : Known codec s h) (hG : MarkGuard codec t q h (.put key value expected))
    (hreplace : ∀ p, q = .replace p → expected.getD 0 = 0 → s.db.objects.lookup t.key = decisionRead h)
    (hpatch : ∀ p, q = .patch p → expected = (decisionRead h).map Row.revision ∨
      s.db.objects.lookup t.key = decisionRead h)
    (hchk : checkExpected t.key ((s.db.objects.lookup t.key).map Row.revision) expected = .ok ()) :
    key = t.key ∧ ∃ new, value = codec.toVec new ∧ Follows q (storedObject codec s t.key) new := by
  obtain ⟨rfl, new, rfl, ⟨row, body, hread, hmem, hb, hfollows, hcond⟩ | ⟨hread, hfollows, he⟩⟩ := hG
  · have hpast : Past codec s t.key row := hk.read _ hmem (_, row) (List.mem_singleton.mpr rfl)
    have hrow : s.db.objects.lookup t.key = some row := by
      cases q with
      | delete d => exact hpast.of_resourceVersion hb hcond.1 hcond.2 hchk
      | replace p =>
        by_cases hzero : expected.getD 0 = 0
        · exact (hreplace p rfl hzero).trans hread
        · cases expected with
          | none => exact absurd rfl hzero
          | some e => exact hpast.of_precondition hb hzero hcond hchk
      | patch p =>
        obtain rfl | hsame := hpatch p rfl
        · rw [hread] at hchk
          exact hpast.of_checkExpected hchk
        · exact hsame.trans hread
    exact ⟨rfl, new, rfl, storedObject_of_lookup hrow hb ▸ hfollows⟩
  · have hnone : s.db.objects.lookup t.key = none := by
      obtain ⟨rfl, p, rfl⟩ | rfl := he
      · exact (hreplace p rfl rfl).trans hread
      · cases hl : s.db.objects.lookup t.key with
        | none => rfl
        | some row => simp [hl, checkExpected] at hchk
    have habsent : storedObject codec s t.key = none := by rw [storedObject, hnone, bind_none]
    exact ⟨rfl, new, rfl, habsent.symm ▸ hfollows⟩

end Steps

variable {codec} in
theorem mark_stays (h : Along (App.step codec) (MarkKept codec t qs) w as)
    (hold : storedObject codec w.shared t.key = some old) (hmark : deletionMark old = .str ts)
    (hthere : ∀ bs, bs <+: as → storedObject codec (run (App.step codec) w bs).shared t.key ≠ none)
    (hnew : storedObject codec (run (App.step codec) w as).shared t.key = some new) :
    deletionMark new = .str ts := by
  induction as generalizing w old with
  | nil =>
    obtain rfl : old = new := some.inj (hold.symm.trans hnew)
    exact hmark
  | cons a as ih =>
    obtain ⟨next, hnext⟩ := ne_none_iff_exists'.mp (hthere [a] (by simp))
    have hkept := h.1 next hnext
    rw [hold, markOf, elim_some, hmark] at hkept
    obtain ⟨f, hf⟩ | ⟨hnull, -⟩ := hkept
    · refine ih h.2 hnext hf (fun bs hbs => ?_) hnew
      exact hthere (a :: bs) (List.cons_prefix_cons.mpr ⟨rfl, hbs⟩)
    · cases hnull

theorem marks_kept (hns : t.ns.isSome) (qs : ℕ → ObjectRequest) (hqs : ∀ i, (qs i).Plain)
    (s : AppState β) (hs : Versioned codec s) (as : List (ℕ × List Bool))
    (hC : Along (App.step codec) (Unraced t qs) (requests codec t qs s) as) :
    Along (App.step codec) (MarkKept codec t qs) (requests codec t qs s) as := by
  refine (known_preserves (fun i => MarkGuard codec t (qs i)) (Unraced t qs)).along ?_ ?_
    (World.kept_start (fun i => program_marks (hqs i) hns)) ⟨hs, fun _ => known_nil s⟩ hC
  · intro w a hw new hnew
    rw [App.step, hw] at hnew
    exact Or.inl (markKept_same hnew)
  · intro w i f o k hcall hi hG hU new hnew
    rw [App.step, (World.step_call (exec codec) hcall).1] at hnew
    have hsame : (exec codec w.shared o f).1.db = w.shared.db →
        (∃ g, deletionMark new = (markOf (storedObject codec w.shared t.key)).mapFloats g) := by
      intro he
      rw [storedObject, he] at hnew
      exact markKept_same hnew
    cases o with
    | put key value expected =>
      obtain ⟨e, he⟩ | ⟨_, -, -, -, he⟩ | ⟨stamped, ns, objName, hchk, -, hst, he⟩ :=
        exec_put codec w.shared key f value expected
      · exact Or.inl (hsame (by rw [he]))
      · exact Or.inl (hsame (by rw [he]))
      · obtain rfl : key = t.key := hG.1
        have hfollows := hG.follows (hi.2 i) (fun p hp => by simpa only [Unraced, hcall, hp] using hU)
          (fun p hp => by simpa only [Unraced, hcall, hp] using hU) hchk
        obtain ⟨-, put, rfl, hfollows⟩ := hfollows
        obtain ⟨stored, -, hstored, hc⟩ := storedObject_wrote t.key hst
        rw [he] at hnew
        obtain rfl : stored = new := some.inj (hstored.symm.trans hnew)
        exact hfollows.carries hc
    | createIfNamespaceActive nsKey key value =>
      obtain ⟨e, he⟩ | ⟨stamped, ns, objName, hnone, hst, he⟩ := exec_create codec w.shared key f nsKey value
      · exact Or.inl (hsame (by rw [he]))
      · obtain ⟨rfl, put, rfl, hfollows⟩ := hG
        obtain ⟨stored, -, hstored, hc⟩ := storedObject_wrote t.key hst
        rw [he] at hnew
        obtain rfl : stored = new := some.inj (hstored.symm.trans hnew)
        have habsent : storedObject codec w.shared t.key = none := by rw [storedObject, hnone, bind_none]
        rw [habsent]
        exact hfollows.carries hc
    | delete key expected =>
      obtain ⟨e, he⟩ | ⟨-, -, -, he⟩ := exec_delete codec w.shared key f expected
      · exact Or.inl (hsame (by rw [he]))
      · obtain rfl : key = t.key := hG
        rw [he, storedObject, deleted_lookup] at hnew
        cases hnew
    | _ => exact Or.inl (hsame rfl)

/-- As long as no update races with another write, only a `DELETE` sets a mark, and it stays until the object is
removed. -/
theorem deletion_irreversible {t : Target} (hns : t.ns.isSome) (qs : ℕ → ObjectRequest) (hqs : ∀ i, (qs i).Plain)
    (s : AppState β) (hs : Versioned codec s) (as bs : List (ℕ × List Bool))
    (hC : Along (App.step codec) (Unraced t qs) (requests codec t qs s) (as ++ bs)) :
    let after := fun ds => storedObject codec (run (App.step codec) (requests codec t qs s) ds).shared t.key
    Along (App.step codec) (MarkKept codec t qs) (requests codec t qs s) (as ++ bs) ∧
      ∀ old ts, after as = some old → deletionMark old = .str ts →
        (∀ cs, cs <+: bs → after (as ++ cs) ≠ none) →
        ∀ new, after (as ++ bs) = some new → deletionMark new = .str ts := by
  intro after
  have hkept := marks_kept codec hns qs hqs s hs (as ++ bs) hC
  refine ⟨hkept, fun old ts hold hmark hthere new hnew => ?_⟩
  refine mark_stays (along_append.mp hkept).2 hold hmark (fun cs hcs => ?_) ?_
  · rw [← run_append]
    exact hthere cs hcs
  · rw [← run_append]
    exact hnew

def heldMapBody : Json :=
  .obj [("metadata", .obj [("finalizers", .arr [.str "example.com/hold"]), ("name", .str "a"),
    ("namespace", .str "default")])]

def blindReplace : ReplaceRequest := ⟨heldMapBody, false, fun _ body => .ok body, fun _ body => .ok body⟩

def markRequests : ℕ → ObjectRequest
  | 0 => .delete plainDelete
  | _ => .replace blindReplace

def heldMapState : AppState (Option Json) :=
  (exec JsonCodec.parsed ⟨.new _, .new⟩ (.put heldMap.key (some heldMapBody) (some 0)) []).1

def markRun (as : List ℕ) : App (Option Json) :=
  run (App.step JsonCodec.parsed) (requests JsonCodec.parsed heldMap markRequests heldMapState)
    (as.map (fun i => (i, [])))

theorem blind_put_undeletes :
    (storedBody (markRun [1, 0, 0])).map deletionMark = some (.str "2026-01-01T00:00:00Z") ∧
      (storedBody (markRun [1, 0, 0, 1])).map deletionMark = some .null := by
  decide +kernel

theorem deletion_irreversible_put :
    ∃ new, storedObject JsonCodec.parsed (markRun [0, 0, 1, 1]).shared heldMap.key = some new ∧
      deletionMark new = .str "2026-01-01T00:00:00Z" := by
  have hmarked : (storedObject JsonCodec.parsed (markRun [0, 0]).shared heldMap.key).map deletionMark =
      some (.str "2026-01-01T00:00:00Z") := by decide +kernel
  have hthere : ∀ cs ∈ List.inits [(1, []), (1, [])], storedObject JsonCodec.parsed (run (App.step JsonCodec.parsed)
      (requests JsonCodec.parsed heldMap markRequests heldMapState) ([(0, []), (0, [])] ++ cs)).shared heldMap.key ≠
      none := by decide +kernel
  have hnew : (storedObject JsonCodec.parsed (markRun [0, 0, 1, 1]).shared heldMap.key).isSome := by decide +kernel
  have hplain : ∀ i, (markRequests i).Plain := by
    rintro (_ | i)
    · trivial
    · refine ⟨fun old body h => ?_, fun old body body' h => ?_⟩
      · cases h
        exact ⟨_, rfl⟩
      · cases h
        rfl
  have hversioned : Versioned JsonCodec.parsed heldMapState :=
    Versioned.exec ⟨Db.new_sound _, by simp [Db.new]⟩ _ _
  obtain ⟨old, hold, hmark⟩ := map_eq_some_iff.mp hmarked
  obtain ⟨new, hnew⟩ := isSome_iff_exists.mp hnew
  refine ⟨new, hnew, ?_⟩
  refine (deletion_irreversible JsonCodec.parsed (t := heldMap) rfl markRequests hplain heldMapState hversioned
    [(0, []), (0, [])] [(1, []), (1, [])] ⟨trivial, trivial, trivial, fun _ => ?_, trivial⟩).2 old _ hold hmark
    (fun cs hcs => hthere cs ((List.mem_inits _ _).mpr hcs)) new hnew
  exact (by decide +kernel : (markRun [0, 0, 1]).shared.db.objects.lookup heldMap.key =
    decisionRead ((markRun [0, 0, 1]).past 1))

end U7s.Handlers
