import U7s.Lib.Runs

/-! A register whose writes carry a version and whose removals carry none. A write at or below the newest version
seen is ignored. -/

namespace Register

open Runs

inductive Op (α : Type*) where
  | put (version : ℕ) (a : α)
  | remove
  deriving DecidableEq

structure Reg (α : Type*) where
  floor : Option ℕ
  value : Option α

variable {α : Type*}

def Reg.step (r : Reg α) : Op α → Reg α
  | .put v a => if r.floor.any (fun f => f ≥ v) then r else ⟨some v, some a⟩
  | .remove => { r with value := none }

def Op.version? : Op α → Option ℕ
  | .put v _ => some v
  | .remove => none

def Below (v : ℕ) (r : Reg α) : Prop := ∀ f, r.floor = some f → f < v

theorem Reg.step_below {o : Op α} (hr : Below v r) (ho : ∀ w, o.version? = some w → w < v) : Below v (r.step o) := by
  cases o with
  | remove => exact hr
  | put w a =>
    simp only [Reg.step]
    split_ifs
    · exact hr
    · rintro f hf
      cases hf
      exact ho w rfl

theorem run_below {ops : List (Op α)} (hr : Below v r)
    (ho : ∀ o ∈ ops, ∀ w, o.version? = some w → w < v) : Below v (run Reg.step r ops) :=
  (along_of_forall ho).invariant (Below v) (fun _ _ hr ho => Reg.step_below hr ho) hr

theorem run_above {ops : List (Op α)} [DecidableEq α] (ho : ∀ o ∈ ops, ∀ w, o.version? = some w → w < v) :
    run Reg.step ⟨some v, a⟩ ops = ⟨some v, if Op.remove ∈ ops then none else a⟩ := by
  induction ops generalizing a with
  | nil => simp
  | cons o ops ih =>
    have ho' : ∀ o ∈ ops, ∀ w, o.version? = some w → w < v :=
      fun o hm => ho o (List.mem_cons_of_mem _ hm)
    cases o with
    | remove =>
      rw [run_cons, Reg.step, ih ho']
      simp
    | put w b =>
      have hw : w < v := ho _ List.mem_cons_self w rfl
      have hstep : Reg.step ⟨some v, a⟩ (.put w b) = ⟨some v, a⟩ := by simp [Reg.step, hw.le]
      rw [run_cons, hstep, ih ho']
      simp

theorem run_newest [DecidableEq α] {r : Reg α} {pre post : List (Op α)} {v : ℕ} {a : α} (hr : Below v r)
    (hpre : ∀ o ∈ pre, ∀ w, o.version? = some w → w < v) (hpost : ∀ o ∈ post, ∀ w, o.version? = some w → w < v) :
    (run Reg.step r (pre ++ .put v a :: post)).value =
      if Op.remove ∈ post then none else some a := by
  have hbelow := run_below hr hpre
  have hacc : (run Reg.step r pre).step (.put v a) = ⟨some v, some a⟩ := by
    have hno : ((run Reg.step r pre).floor.any (fun f => f ≥ v)) = false := by
      rw [Option.any_eq_false]
      intro f hf
      simpa using hbelow f hf
    simp [Reg.step, hno]
  rw [run_append, run_cons, hacc, run_above hpost]

theorem run_no_put {ops : List (Op α)} (hr : r.value = none)
    (ho : ∀ o ∈ ops, o.version? = none) : (run Reg.step r ops).value = none := by
  refine (along_of_forall ho).invariant (fun r : Reg α => r.value = none) ?_ hr
  intro r o hr ho
  cases o with
  | remove => rfl
  | put w a => cases ho

end Register
