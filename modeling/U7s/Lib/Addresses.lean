import Mathlib

/-! IP addresses as in the Rust standard library, ranges, and what a range covers when an IPv4-mapped address counts
as the IPv4 one. -/

namespace Addresses

instance neZero_v4 : NeZero (2 ^ 32) := ⟨by decide⟩

instance neZero_v6 : NeZero (2 ^ 128) := ⟨by decide⟩

inductive IpAddr where
  | v4 (a : Fin (2 ^ 32))
  | v6 (a : Fin (2 ^ 128))
deriving DecidableEq

namespace IpAddr

def isV4 : IpAddr → Bool
  | .v4 _ => true
  | .v6 _ => false

def width (ip : IpAddr) : ℕ := if ip.isV4 then 32 else 128

def isMapped : IpAddr → Bool
  | .v4 _ => false
  | .v6 a => a.val / 2 ^ 32 = 0xffff

def toCanonical (ip : IpAddr) : IpAddr :=
  match ip with
  | .v4 a => .v4 a
  | .v6 a => if ip.isMapped then .v4 (Fin.ofNat _ a.val) else .v6 a

theorem toCanonical_of_not_mapped {ip : IpAddr} (h : ip.isMapped = false) : ip.toCanonical = ip := by
  cases ip with
  | v4 a => rfl
  | v6 a => exact if_neg (Bool.eq_false_iff.mp h)

theorem eq_of_toCanonical_v6 {ip : IpAddr} (h : ip.toCanonical = .v6 a) : ip = .v6 a := by
  cases ip with
  | v4 b => cases h
  | v6 b =>
    unfold toCanonical at h
    split_ifs at h
    exact h

def ofOctets (b : List (Fin 256)) : Option IpAddr :=
  let n := b.foldl (fun n (o : Fin 256) => n * 256 + o.val) 0
  if b.length = 4 then some (.v4 (Fin.ofNat _ n))
  else if b.length = 16 then some (.v6 (Fin.ofNat _ n))
  else none

def isLoopback : IpAddr → Bool
  | .v4 a => a.val / 2 ^ 24 = 127
  | .v6 a => a.val = 1

def isUnspecified : IpAddr → Bool
  | .v4 a => a.val = 0
  | .v6 a => a.val = 0

def isLinkLocal : IpAddr → Bool
  | .v4 a => a.val / 2 ^ 16 = 0xa9fe
  | .v6 a => a.val / 2 ^ 118 = 0xfe80 / 2 ^ 6

def isMulticast : IpAddr → Bool
  | .v4 a => a.val / 2 ^ 28 = 0xe
  | .v6 a => a.val / 2 ^ 120 = 0xff

end IpAddr

def cidrContains (base : IpAddr) (len : ℕ) (ip : IpAddr) : Bool :=
  match base, ip with
  | .v4 b, .v4 i => 32 - len ≥ 128 || b.val >>> (32 - len) == i.val >>> (32 - len)
  | .v6 b, .v6 i => 128 - len ≥ 128 || b.val >>> (128 - len) == i.val >>> (128 - len)
  | _, _ => false

def rangeContains (base : IpAddr) (size : ℕ) (ip : IpAddr) : Bool :=
  match base, ip with
  | .v4 b, .v4 i => b.val ≤ i.val && i.val - b.val < size
  | .v6 b, .v6 i => b.val ≤ i.val && i.val - b.val < size
  | _, _ => false

def Covers (contains : IpAddr → Bool) (ip : IpAddr) : Prop :=
  ∃ y, contains y = true ∧ y.toCanonical = ip.toCanonical

theorem isV4_of_cidrContains (h : cidrContains base len ip) : base.isV4 = ip.isV4 := by
  cases base <;> cases ip <;> first | rfl | exact absurd h Bool.false_ne_true

theorem isV4_of_rangeContains (h : rangeContains base size ip) : base.isV4 = ip.isV4 := by
  cases base <;> cases ip <;> first | rfl | exact absurd h Bool.false_ne_true

theorem Covers.canonical {base : IpAddr}
    (hfamily : ∀ y, contains y → base.isV4 = y.isV4) (hbase : base.isV4 ∨ ip.toCanonical.isV4 = false)
    (h : Covers contains ip) : contains ip.toCanonical := by
  obtain ⟨y, hy, heq⟩ := h
  cases y with
  | v4 a =>
    rw [← heq]
    exact hy
  | v6 a =>
    obtain hbase | hip := hbase
    · have hv4 := hfamily _ hy
      rw [hbase] at hv4
      cases hv4
    · cases hcan : ip.toCanonical with
      | v4 b =>
        rw [hcan] at hip
        cases hip
      | v6 b =>
        rw [hcan] at heq
        rw [← IpAddr.eq_of_toCanonical_v6 heq]
        exact hy

end Addresses
