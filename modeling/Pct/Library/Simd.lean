import Pct.Library.Fault
import Mathlib.Data.Vector.Basic

/-!
# Byte lanes and bit masks

Lane-wise operations on fixed-size byte vectors, and masks whose bit `k` reports a
condition on lane `k`. What a scanner needs of a mask is `bitmask_eq_zero` (no lane
fires) and `bitmask_first` (the trailing zeros count the lanes in front of the first
one that does).
-/

namespace Simd

open Rust

/-- Set bit `k` for every `k < n` that satisfies `p`. -/
def bitmask (w n : Nat) (p : Nat → Bool) : BitVec w :=
  (List.range n).foldl (fun mask k => if p k then mask ||| 1#w <<< k else mask) 0#w

theorem getLsbD_bitmask {w n : Nat} (hn : n ≤ w) (p : Nat → Bool) (k : Nat) :
    (bitmask w n p).getLsbD k = (decide (k < n) && p k) := by
  induction n with
  | zero => simp [bitmask]
  | succ n ih =>
    have ih := ih (by omega)
    unfold bitmask at ih ⊢
    rw [List.range_succ, List.foldl_append, List.foldl_cons, List.foldl_nil]
    by_cases hk : k = n
    · subst hk
      have hlt : k < w := by omega
      split
      · rename_i hp
        rw [BitVec.getLsbD_or, ih]
        simp [hp, hlt]
      · rename_i hp
        rw [ih]
        simp [hp]
    · have hlt : decide (k < n + 1) = decide (k < n) := by
        rw [decide_eq_decide]
        omega
      split
      · have : ¬ (k - n = 0 ∧ n ≤ k) := by omega
        rw [BitVec.getLsbD_or, ih, hlt]
        simp
        omega
      · rw [ih, hlt]

/-- The mask is zero when no lane fires. -/
theorem bitmask_eq_zero {w n : Nat} (hn : n ≤ w) (p : Nat → Bool) :
    bitmask w n p = 0#w ↔ ∀ k < n, p k = false := by
  constructor
  · intro h k hk
    have := getLsbD_bitmask hn p k
    simpa [h, hk] using this
  · intro h
    apply BitVec.eq_of_getLsbD_eq
    intro k hk
    rw [getLsbD_bitmask hn]
    by_cases hkn : k < n <;> simp [hkn, h]

/-- `trailing_zeros` of a mask that fires is the first lane that does. -/
theorem bitmask_first {w n : Nat} (hn : n ≤ w) {p : Nat → Bool} (h : bitmask w n p ≠ 0#w) :
    (bitmask w n p).ctz.toNat < n ∧ p (bitmask w n p).ctz.toNat = true ∧
      ∀ k < (bitmask w n p).ctz.toNat, p k = false := by
  have hset := BitVec.getLsbD_true_ctz_of_ne_zero h
  rw [getLsbD_bitmask hn, Bool.and_eq_true, decide_eq_true_iff] at hset
  refine ⟨hset.1, hset.2, fun k hk => ?_⟩
  have hclear := BitVec.getLsbD_false_of_lt_ctz hk
  rw [getLsbD_bitmask hn] at hclear
  simpa [hk.trans hset.1] using hclear

variable {n : Nat}

/-- `Simd::from_slice`. -/
def fromSlice (n : Nat) (xs : List UInt8) : Exec (Vector UInt8 n) :=
  if h : n ≤ xs.length then .ok (Vector.ofFn fun k => xs.get ⟨k, by omega⟩)
  else .error .indexOutOfBounds

/-- `Simd::splat`. -/
def splat (b : UInt8) : Vector UInt8 n := Vector.replicate n b

def simdGe (v w : Vector UInt8 n) : Vector Bool n := Vector.zipWith (fun a b => decide (b ≤ a)) v w
def simdEq (v w : Vector UInt8 n) : Vector Bool n := Vector.zipWith (fun a b => a == b) v w
def maskOr (v w : Vector Bool n) : Vector Bool n := Vector.zipWith (· || ·) v w
def bitAnd (v w : Vector UInt8 n) : Vector UInt8 n := Vector.zipWith (· &&& ·) v w
def shr (v w : Vector UInt8 n) : Vector UInt8 n := Vector.zipWith (· >>> ·) v w

/-- `to_bitmask`: lane `k` in bit `k`. -/
def toBitmask (m : Vector Bool n) : BitVec 64 := bitmask 64 n fun k => m[k]?.getD false

/-- `swizzle_dyn`: lane `k` holds `table[idx[k]]`, or zero when that index is too large. -/
def swizzleDyn (table idx : Vector UInt8 n) : Vector UInt8 n :=
  idx.map fun i => table[i.toNat]?.getD 0

/-! ## Lanes of one vector

A lane-wise computation on a vector and constants is a map over the vector. -/

section Lanes

variable (v table : Vector UInt8 n) (b : UInt8)

@[simp] theorem simdGe_splat : simdGe v (splat b) = v.map fun a => decide (b ≤ a) := by
  ext k hk
  simp [simdGe, splat]

@[simp] theorem simdEq_splat : simdEq v (splat b) = v.map (· == b) := by
  ext k hk
  simp [simdEq, splat]

@[simp] theorem bitAnd_splat : bitAnd v (splat b) = v.map (· &&& b) := by
  ext k hk
  simp [bitAnd, splat]

@[simp] theorem shr_splat : shr v (splat b) = v.map (· >>> b) := by
  ext k hk
  simp [shr, splat]

@[simp] theorem maskOr_map (p q : UInt8 → Bool) :
    maskOr (v.map p) (v.map q) = v.map fun a => p a || q a := by
  ext k hk
  simp [maskOr]

@[simp] theorem bitAnd_map (f g : UInt8 → UInt8) :
    bitAnd (v.map f) (v.map g) = v.map fun a => f a &&& g a := by
  ext k hk
  simp [bitAnd]

@[simp] theorem swizzleDyn_map (f : UInt8 → UInt8) :
    swizzleDyn table (v.map f) = v.map fun a => table[(f a).toNat]?.getD 0 := by
  ext k hk
  simp [swizzleDyn]

end Lanes

theorem fromSlice_eq {xs : List UInt8} (h : xs.length = n) :
    ∃ v, fromSlice n xs = .ok v ∧ ∀ k : Nat, v[k]? = xs[k]? := by
  subst h
  refine ⟨Vector.ofFn fun k => xs.get k, by simp [fromSlice], fun k => ?_⟩
  by_cases h : k < xs.length <;> simp [h]

end Simd
