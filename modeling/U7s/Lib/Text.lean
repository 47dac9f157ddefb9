import Mathlib

namespace Text

open List

def splitOnce (c : Char) (s : String) : Option (String × String) :=
  if c ∈ s.toList then
    some (String.ofList (s.toList.takeWhile (· ≠ c)), String.ofList (s.toList.dropWhile (· ≠ c)).tail)
  else none

def rsplitOnce (c : Char) (s : String) : Option (String × String) :=
  if c ∈ s.toList then
    some (String.ofList (s.toList.reverse.dropWhile (· ≠ c)).tail.reverse,
      String.ofList (s.toList.reverse.takeWhile (· ≠ c)).reverse)
  else none

def startsWith (s p : String) : Bool := p.toList.isPrefixOf s.toList

def endsWith (s p : String) : Bool := p.toList.isSuffixOf s.toList

def stripPrefix (p s : String) : Option String :=
  if startsWith s p then some (String.ofList (s.toList.drop p.toList.length)) else none

def stripSuffix (c : Char) (s : String) : Option String :=
  if s.toList.getLast? = some c then some (String.ofList s.toList.dropLast) else none

def segments (c : Char) (s : String) : List String :=
  ((s.toList.splitOn c).filter (fun cs => cs ≠ [])).map String.ofList

theorem segments_append (c : Char) (s t : String) :
    segments c (s ++ String.singleton c ++ t) = segments c s ++ segments c t := by
  have hl : (s ++ String.singleton c ++ t).toList = s.toList ++ c :: t.toList := by simp
  rw [segments, hl, splitOn_append_cons_of_beq _ _ (by simp), filter_append, map_append]
  rfl

theorem segments_single (hs : s ≠ "") (hc : c ∉ s.toList) : segments c s = [s] := by
  have hne : s.toList ≠ [] := by simpa using hs
  simp [segments, splitOn_eq_singleton hc, hne]

theorem splitOnce_some (h : splitOnce c s = some (a, b)) : s.toList = a.toList ++ c :: b.toList ∧ c ∉ a.toList := by
  unfold splitOnce at h
  split_ifs at h with hc
  obtain ⟨rfl, rfl⟩ := h
  simp only [String.toList_ofList]
  have hd : s.toList.dropWhile (· ≠ c) ≠ [] := by
    intro hd
    simpa using dropWhile_eq_nil_iff.mp hd c hc
  have hh : (s.toList.dropWhile (· ≠ c)).head hd = c := by
    simpa using head_dropWhile_not (fun x => decide (x ≠ c)) hd
  constructor
  · conv_lhs => rw [← takeWhile_append_dropWhile (p := fun x => decide (x ≠ c)) (l := s.toList)]
    rw [← cons_head_tail hd, hh]
    rfl
  · intro hm
    simpa using mem_takeWhile_imp hm

theorem splitOnce_none (h : splitOnce c s = none) : c ∉ s.toList := by
  unfold splitOnce at h
  split_ifs at h with hc
  exact hc

theorem startsWith_iff : startsWith s p ↔ p.toList <+: s.toList := by
  simp [startsWith]

theorem stripPrefix_some (h : stripPrefix p s = some r) : s.toList = p.toList ++ r.toList := by
  unfold stripPrefix at h
  split_ifs at h with hp
  obtain ⟨t, ht⟩ := startsWith_iff.mp hp
  simp only [Option.some.injEq] at h
  subst h
  simp [← ht]

theorem rsplitOnce_append (s : String) (h : c ∉ t.toList) :
    rsplitOnce c (s ++ String.singleton c ++ t) = some (s, t) := by
  have hl : (s ++ String.singleton c ++ t).toList = s.toList ++ c :: t.toList := by simp
  have hp : ∀ x ∈ t.toList.reverse, decide (x ≠ c) := by
    intro x hx
    simpa using ne_of_mem_of_not_mem (mem_reverse.mp hx) h
  have hr : (s.toList ++ c :: t.toList).reverse = t.toList.reverse ++ c :: s.toList.reverse := by simp
  rw [rsplitOnce, hl, hr, dropWhile_append_of_pos hp,
    takeWhile_append_of_pos hp]
  simp

theorem stripSuffix_append (c : Char) (s : String) : stripSuffix c (s ++ String.singleton c) = some s := by
  simp [stripSuffix]

@[ext] structure Segment where
  text : String
  nonempty : text ≠ ""
  noSlash : '/' ∉ text.toList
  deriving DecidableEq

theorem append_cons_prefix_iff (ha : c ∉ a) (hb : c ∉ b) : a ++ c :: x <+: b ++ c :: y ↔ a = b ∧ x <+: y := by
  induction a generalizing b with
  | nil =>
    cases b with
    | nil => simp
    | cons d b => simp [(ne_and_not_mem_of_not_mem_cons hb).1]
  | cons d a ih =>
    obtain ⟨hd, ha⟩ := ne_and_not_mem_of_not_mem_cons ha
    cases b with
    | nil => simp [hd.symm]
    | cons e b =>
      simp only [cons_append, cons_prefix_cons, cons.injEq, and_assoc,
        ih ha (ne_and_not_mem_of_not_mem_cons hb).2]

theorem append_cons_inj (ha : c ∉ a) (hb : c ∉ b) (h : a ++ c :: x = b ++ c :: y) : a = b ∧ x = y := by
  have hprefix : a ++ c :: x <+: b ++ c :: y := by rw [h]
  have hab := ((append_cons_prefix_iff ha hb).mp hprefix).1
  rw [hab] at h
  exact ⟨hab, (cons.inj (append_cancel_left h)).2⟩

def isWhitespace (c : Char) : Bool :=
  let n := c.toNat
  (9 ≤ n && n ≤ 13) || n = 0x20 || n = 0x85 || n = 0xa0 || n = 0x1680 || (0x2000 ≤ n && n ≤ 0x200a) || n = 0x2028 ||
    n = 0x2029 || n = 0x202f || n = 0x205f || n = 0x3000

def trimEnd (p : Char → Bool) (cs : List Char) : List Char := (cs.reverse.dropWhile p).reverse

def trim (cs : List Char) : List Char := trimEnd isWhitespace (cs.dropWhile isWhitespace)

def splitOnceText (pat : List Char) : List Char → Option (List Char × List Char)
  | [] => if pat = [] then some ([], []) else none
  | c :: cs =>
    if pat.isPrefixOf (c :: cs) then some ([], (c :: cs).drop pat.length)
    else (splitOnceText pat cs).map (fun s => (c :: s.1, s.2))

def join (sep : Char) (ss : List String) : String := String.ofList (List.intercalate [sep] (ss.map String.toList))

theorem trim_of_ends (hhead : ∀ c ∈ cs.head?, isWhitespace c = false)
    (hlast : ∀ c ∈ cs.getLast?, isWhitespace c = false) : trim cs = cs := by
  have hdrop : ∀ l : List Char, (∀ c ∈ l.head?, isWhitespace c = false) → l.dropWhile isWhitespace = l := by
    intro l hl
    cases l with
    | nil => rfl
    | cons c l => simp [hl c rfl]
  rw [trim, hdrop cs hhead, trimEnd, hdrop, reverse_reverse]
  simpa using hlast

theorem trim_of_forall (h : ∀ c ∈ cs, isWhitespace c = false) : trim cs = cs :=
  trim_of_ends (fun c hc => h c (mem_of_head? hc)) (fun c hc => h c (mem_of_getLast? hc))

theorem splitOnceText_append (h : d ∉ cs) (rest : List Char) :
    splitOnceText (d :: pat) (cs ++ rest) = (splitOnceText (d :: pat) rest).map (fun s => (cs ++ s.1, s.2)) := by
  induction cs with
  | nil => simp
  | cons c cs ih =>
    obtain ⟨hd, hcs⟩ := ne_and_not_mem_of_not_mem_cons h
    have hnot : (d :: pat).isPrefixOf (c :: (cs ++ rest)) = false := by simp [isPrefixOf, hd]
    rw [cons_append, splitOnceText, if_neg (by simp [hnot]), ih hcs, Option.map_map]
    rfl

theorem splitOnceText_eq_none (h : d ∉ cs) : splitOnceText (d :: pat) cs = none := by
  have happend : splitOnceText (d :: pat) (cs ++ []) = _ := splitOnceText_append h []
  rwa [append_nil] at happend

theorem splitOnceText_some (h : splitOnceText pat cs = some (a, b)) : cs = a ++ (pat ++ b) := by
  induction cs generalizing a with
  | nil =>
    rw [splitOnceText] at h
    split_ifs at h with hpat
    cases h
    rw [hpat]
    rfl
  | cons c cs ih =>
    rw [splitOnceText] at h
    split_ifs at h with hpat
    · cases h
      exact (prefix_iff_eq_append.mp ( isPrefixOf_iff_prefix.mp hpat)).symm
    · obtain ⟨s, hs, hpair⟩ := Option.map_eq_some_iff.mp h
      cases hpair
      rw [ih hs, cons_append]

theorem splitOnceText_ne_none (pat xs ys : List Char) : splitOnceText pat (xs ++ (pat ++ ys)) ≠ none := by
  induction xs with
  | nil =>
    have hpat : pat.isPrefixOf (pat ++ ys) := isPrefixOf_iff_prefix.mpr (prefix_append pat ys)
    cases hcs : pat ++ ys with
    | nil => simp [splitOnceText, (append_eq_nil_iff.mp hcs).1]
    | cons c cs =>
      rw [hcs] at hpat
      simp [splitOnceText, hpat]
  | cons c xs ih =>
    rw [cons_append, splitOnceText]
    split_ifs
    · simp
    · simpa using ih

end Text
