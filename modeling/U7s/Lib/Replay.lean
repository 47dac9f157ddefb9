import Mathlib

/-! Replay of a keyed event log: the last event of a key decides what is left there. -/

namespace Replay

open List

variable {κ ν ε : Type*} [DecidableEq κ] (key : ε → κ) (value : ε → Option ν) (rev : ε → ℕ)

def replay (m : κ → Option ν) (es : List ε) : κ → Option ν :=
  es.foldl (fun m e => Function.update m (key e) (value e)) m

def lastFor (k : κ) (es : List ε) : Option ε := (es.filter (fun e => key e = k)).getLast?

variable {key value rev}

@[simp] theorem lastFor_nil : lastFor key k [] = none := rfl

theorem lastFor_append : lastFor key k (es ++ fs) = (lastFor key k fs).or (lastFor key k es) := by
  simp [lastFor]

theorem lastFor_concat : lastFor key k (es ++ [e]) = if key e = k then some e else lastFor key k es := by
  by_cases h : key e = k <;> simp [lastFor, h]

theorem lastFor_mem (h : lastFor key k es = some e) : e ∈ es ∧ key e = k := by
  simpa using mem_of_getLast? h

theorem lastFor_eq_none : lastFor key k es = none ↔ ∀ e ∈ es, key e ≠ k := by
  simp [lastFor]

theorem exists_lastFor (key : ε → κ) (h : e ∈ es) : ∃ d, lastFor key (key e) es = some d := by
  rw [← Option.ne_none_iff_exists', Ne, lastFor_eq_none]
  exact fun hn => hn e h rfl

theorem replay_apply (m : κ → Option ν) (es : List ε) (k : κ) :
    replay key value m es k = (lastFor key k es).elim (m k) value := by
  induction es using reverseRecOn with
  | nil => rfl
  | append_singleton es e ih =>
    rw [replay, lastFor_concat]
    by_cases h : key e = k
    · subst h
      simp
    · simpa [h, Function.update_of_ne (Ne.symm h), replay] using ih

theorem lastFor_of_newest (hs : es.Pairwise (fun a b => rev a < rev b)) (he : e ∈ es) (hk : key e = k)
    (hn : ∀ d ∈ es, key d = k → rev d ≤ rev e) : lastFor key k es = some e := by
  subst hk
  obtain ⟨d, hd⟩ := exists_lastFor key he
  obtain ⟨hm, hdk⟩ := lastFor_mem hd
  rw [hd]
  by_contra hne
  obtain ⟨as, bs, rfl⟩ := append_of_mem he
  have hle := hn d hm hdk
  rw [pairwise_append, pairwise_cons] at hs
  simp only [mem_append, mem_cons] at hm
  obtain ha | rfl | hb := hm
  · have hd' : lastFor key (key e) (e :: bs) = some d := by
      obtain ⟨c, hc⟩ := exists_lastFor key (mem_cons_self : e ∈ e :: bs)
      simpa [lastFor_append, hc] using hd
    have hlt := hs.2.2 d ha d (lastFor_mem hd').1
    omega
  · exact hne rfl
  · have := hs.2.1.1 d hb
    omega

theorem lastFor_newest_of_key (hs : es.Pairwise (fun a b => key a = key b → rev a ≤ rev b))
    (h : lastFor key k es = some e) : ∀ d ∈ es, key d = k → rev d ≤ rev e := by
  induction es using reverseRecOn with
  | nil => simp at h
  | append_singleton es c ih =>
    rw [pairwise_append] at hs
    intro d hd hk
    rw [lastFor_concat] at h
    simp only [mem_append, mem_singleton] at hd
    split_ifs at h with hc
    · obtain rfl := Option.some_inj.mp h
      obtain hd | rfl := hd
      · exact hs.2.2 d hd c (by simp) (hk.trans hc.symm)
      · exact le_rfl
    · obtain hd | rfl := hd
      · exact ih hs.1 h d hd hk
      · exact absurd hk hc

theorem lastFor_newest (hs : es.Pairwise (fun a b => rev a < rev b)) (h : lastFor key k es = some e) :
    ∀ d ∈ es, key d = k → rev d ≤ rev e :=
  lastFor_newest_of_key (hs.imp fun h _ => h.le) h

/-- Whoever holds the state at revision `R` and replays `fs` ends in the state of the whole log, if `fs` touches the
key only when the log did so after `R`, and then ends with the log's last word. -/
theorem replay_catches_up (hs : es.Pairwise (fun a b => rev a < rev b))
    (hnew : ∀ e, lastFor key k es = some e → R < rev e →
      ∃ d, lastFor key k fs = some d ∧ value d = value e)
    (hold : (∀ e, lastFor key k es = some e → rev e ≤ R) → lastFor key k fs = none) :
    replay key value (replay key value m (es.filter (fun e => rev e ≤ R))) fs k =
      replay key value m es k := by
  rw [replay_apply, replay_apply _ es]
  cases he : lastFor key k es with
  | none =>
    rw [hold (by simp [he])]
    have hn : lastFor key k (es.filter (fun e => rev e ≤ R)) = none :=
      lastFor_eq_none.mpr (fun e h => lastFor_eq_none.mp he e (mem_of_mem_filter h))
    simp [replay_apply, hn]
  | some e =>
    obtain ⟨hm, hk⟩ := lastFor_mem he
    rcases lt_or_ge R (rev e) with hR | hR
    · obtain ⟨d, hd, hv⟩ := hnew e he hR
      simp [hd, hv]
    · rw [hold (by simpa [he] using hR)]
      have hl : lastFor key k (es.filter (fun e => rev e ≤ R)) = some e :=
        lastFor_of_newest (hs.filter _) (by simpa [hm] using hR) hk
          (fun d hd => lastFor_newest hs he d (mem_of_mem_filter hd))
      simp [replay_apply, hl]

end Replay
