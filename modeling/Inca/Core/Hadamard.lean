import Mathlib.Algebra.BigOperators.Ring.Finset
import Mathlib.Data.Nat.Bitwise
import Mathlib.Data.Nat.Count
import Mathlib.Tactic.LinearCombination
import Mathlib.Tactic.Ring

/-!
# The Hadamard transform, level by level

A vector is a function on indices. `mix b` combines every two elements whose indices differ in
bit `b`; the transform of `2 ^ k` elements is `mix` for the bits below `k`, one after the other.

* `mix_mix`, `mix_comm`, `dot_mix`: a level is twice its own inverse, levels commute, and each
  is symmetric.
* `transform_eq_sum`: an entry of the transform is the sum of the elements, each with the sign of
  the bits that its index shares with the entry's.
* `transform_transform`: twice the transform is a multiple by `2 ^ k`.
* `dot_transform`: the transform is symmetric, and so (`dot_transform_self`) it keeps the norm
  up to that factor.
-/
namespace Inca.Hadamard
open Finset

variable {R : Type} [CommRing R]

/-- The index that differs in bit `b`. -/
def twin (b i : Nat) : Nat := i ^^^ 2 ^ b

def sign (c : Bool) : R := if c then -1 else 1

def mix (b : Nat) (x : Nat → R) (i : Nat) : R := sign (i.testBit b) * x i + x (twin b i)

def transform : Nat → (Nat → R) → Nat → R
  | 0, x => x
  | k + 1, x => mix k (transform k x)

/-- How many bits of `n` are set. -/
def popcount (n : Nat) : Nat := Nat.count (fun b => n.testBit b) (n.log2 + 1)

def dot (n : Nat) (x y : Nat → R) : R := ∑ i ∈ range n, x i * y i

/-! ## Indices -/

theorem twin_twin (b i : Nat) : twin b (twin b i) = i := Nat.xor_xor_cancel_right i (2 ^ b)

theorem twin_comm (a b i : Nat) : twin a (twin b i) = twin b (twin a i) := by
  unfold twin
  rw [Nat.xor_assoc, Nat.xor_comm (2 ^ b), ← Nat.xor_assoc]

theorem twin_lt {b k i : Nat} (hb : b < k) (hi : i < 2 ^ k) : twin b i < 2 ^ k :=
  Nat.xor_lt_two_pow hi (Nat.pow_lt_pow_right (Nat.lt_succ_self 1) hb)

theorem testBit_twin (b i : Nat) : (twin b i).testBit b = !i.testBit b := by
  rw [twin, Nat.testBit_xor, Nat.testBit_two_pow_self, Bool.xor_true]

theorem testBit_twin_of_ne {a b : Nat} (h : a ≠ b) (i : Nat) : (twin b i).testBit a = i.testBit a := by
  rw [twin, Nat.testBit_xor, Nat.testBit_two_pow_of_ne h.symm, Bool.xor_false]

/-! ## One level -/

theorem sign_not (c : Bool) : sign (R := R) (!c) = -sign c := by
  cases c with
  | false => rfl
  | true => exact (neg_neg 1).symm

theorem sign_mul_sign (c : Bool) : sign (R := R) c * sign c = 1 := by
  cases c with
  | false => exact one_mul 1
  | true => exact (neg_mul_neg 1 1).trans (one_mul 1)

theorem mix_mix (b : Nat) (x : Nat → R) (i : Nat) : mix b (mix b x) i = 2 * x i := by
  unfold mix
  rw [twin_twin, testBit_twin, sign_not]
  linear_combination x i * sign_mul_sign (R := R) (i.testBit b)

theorem mix_comm {a b : Nat} (h : a ≠ b) (x : Nat → R) : mix a (mix b x) = mix b (mix a x) := by
  funext i
  unfold mix
  rw [testBit_twin_of_ne h, testBit_twin_of_ne h.symm, twin_comm]
  ring

/-- Every index is the other one of a pair. -/
theorem sum_twin {b k : Nat} (hb : b < k) (f : Nat → R) : ∑ i ∈ range (2 ^ k), f (twin b i) = ∑ i ∈ range (2 ^ k), f i := by
  refine sum_nbij' (twin b) (twin b) ?_ ?_ ?_ ?_ ?_
  · exact fun i hi => mem_range.mpr (twin_lt hb (mem_range.mp hi))
  · exact fun i hi => mem_range.mpr (twin_lt hb (mem_range.mp hi))
  · exact fun i _ => twin_twin b i
  · exact fun i _ => twin_twin b i
  · exact fun i _ => rfl

theorem dot_mix {b k : Nat} (hb : b < k) (x y : Nat → R) : dot (2 ^ k) (mix b x) y = dot (2 ^ k) x (mix b y) := by
  have hcross : ∑ i ∈ range (2 ^ k), x (twin b i) * y i = ∑ i ∈ range (2 ^ k), x i * y (twin b i) := by
    rw [← sum_twin hb]
    simp only [twin_twin]
  have hself : ∀ i, sign (i.testBit b) * x i * y i = x i * (sign (i.testBit b) * y i) := fun i => by ring
  simp only [dot, mix, add_mul, mul_add, sum_add_distrib, hcross, hself]

/-! ## All levels -/

theorem mix_transform {k b : Nat} (h : k ≤ b) (x : Nat → R) : mix b (transform k x) = transform k (mix b x) := by
  induction k with
  | zero => rfl
  | succ k ih => rw [transform, mix_comm (by omega), ih (by omega), transform]

theorem transform_zero (k i : Nat) : transform k (fun _ => (0 : R)) i = 0 := by
  induction k generalizing i with
  | zero => rfl
  | succ k ih => rw [transform, mix, ih, ih, mul_zero, add_zero]

theorem transform_transform (k : Nat) (x : Nat → R) : transform k (transform k x) = fun i => 2 ^ k * x i := by
  induction k with
  | zero =>
    funext i
    rw [pow_zero, one_mul, transform, transform]
  | succ k ih =>
    funext i
    rw [transform, transform, ← mix_transform (Nat.le_refl k), ih, mix_mix, pow_succ]
    ring

theorem dot_transform {n k : Nat} (h : k ≤ n) (x y : Nat → R) :
    dot (2 ^ n) (transform k x) y = dot (2 ^ n) x (transform k y) := by
  induction k generalizing y with
  | zero => rfl
  | succ k ih => rw [transform, dot_mix (by omega), ih (by omega), ← mix_transform (Nat.le_refl k), transform]

theorem dot_transform_self (k : Nat) (x : Nat → R) :
    dot (2 ^ k) (transform k x) (transform k x) = 2 ^ k * dot (2 ^ k) x x := by
  rw [dot_transform (Nat.le_refl k), transform_transform, dot, dot, mul_sum]
  refine sum_congr rfl fun i _ => ?_
  ring

/-! ## The sum -/

/-- The sign that `j` has in entry `i`, as far as the bits below `k` go. -/
def weight (k i j : Nat) : R := (-1) ^ Nat.count (fun b => (i &&& j).testBit b) k

theorem weight_succ (k i j : Nat) :
    weight (R := R) (k + 1) i j = weight k i j * sign (i.testBit k && j.testBit k) := by
  unfold weight
  rw [Nat.count_succ, Nat.testBit_and, pow_add]
  cases i.testBit k && j.testBit k with
  | false => exact congrArg (_ * ·) (pow_zero _)
  | true => exact congrArg (_ * ·) (pow_one _)

/-- A bit that is not among those that count may be flipped. -/
theorem weight_twin {a b : Nat} (h : a ≤ b) (i j : Nat) : weight (R := R) a (twin b i) j = weight a i j := by
  induction a with
  | zero => rfl
  | succ a ih => rw [weight_succ, weight_succ, ih (by omega), testBit_twin_of_ne (by omega)]

/-- More bits than a number has do not count. -/
theorem count_testBit {n k l : Nat} (hn : n < 2 ^ k) (hkl : k ≤ l) :
    Nat.count (fun b => n.testBit b) l = Nat.count (fun b => n.testBit b) k := by
  obtain ⟨d, rfl⟩ := Nat.exists_eq_add_of_le hkl
  have hhigh : Nat.count (fun b => n.testBit (k + b)) d = 0 := by
    apply Nat.count_of_forall_not
    intro b _ hb
    have hlt : n < 2 ^ (k + b) := Nat.lt_of_lt_of_le hn (Nat.pow_le_pow_right Nat.two_pos (Nat.le_add_right k b))
    exact absurd hb (by rw [Nat.testBit_lt_two_pow hlt]; exact Bool.false_ne_true)
  rw [Nat.count_add, hhigh, Nat.add_zero]

theorem weight_eq {k i : Nat} (hi : i < 2 ^ k) (j : Nat) : weight (R := R) k i j = (-1) ^ popcount (i &&& j) := by
  have hlt : i &&& j < 2 ^ k := Nat.lt_of_le_of_lt Nat.and_le_left hi
  have hself := Nat.lt_log2_self (n := i &&& j)
  have hcount : Nat.count (fun b => (i &&& j).testBit b) k = popcount (i &&& j) := by
    rcases Nat.le_total k ((i &&& j).log2 + 1) with h | h
    · exact (count_testBit hlt h).symm
    · exact count_testBit hself h
  rw [weight, hcount]

theorem two_pow_add_eq_xor {k m : Nat} (hm : m < 2 ^ k) : 2 ^ k + m = 2 ^ k ^^^ m := by
  apply Nat.eq_of_testBit_eq
  intro c
  rw [Nat.testBit_xor]
  rcases Nat.lt_trichotomy c k with hlt | rfl | hgt
  · rw [Nat.testBit_two_pow_add_gt hlt, Nat.testBit_two_pow_of_ne hlt.ne', Bool.false_xor]
  · rw [Nat.testBit_two_pow_add_eq, Nat.testBit_two_pow_self, Bool.true_xor]
  · have hle : 2 ^ (k + 1) ≤ 2 ^ c := Nat.pow_le_pow_right Nat.two_pos hgt
    rw [Nat.pow_succ] at hle
    rw [Nat.testBit_lt_two_pow (by omega), Nat.testBit_two_pow_of_ne hgt.ne, Bool.false_xor,
      Nat.testBit_lt_two_pow (by omega)]

/-- The levels so far have reached the elements whose indices differ in the bits below `k` only. -/
theorem transform_eq_sum_xor (k : Nat) (x : Nat → R) (i : Nat) :
    transform k x i = ∑ m ∈ range (2 ^ k), weight k i (i ^^^ m) * x (i ^^^ m) := by
  induction k generalizing i with
  | zero => simp [transform, weight]
  | succ k ih =>
    rw [transform, mix, ih, ih, Nat.pow_succ, Nat.mul_two, sum_range_add, mul_sum]
    refine congrArg₂ (· + ·) (sum_congr rfl fun m hm => ?_) (sum_congr rfl fun m hm => ?_)
    · -- bit `k` is the same in both indices
      have hbit : (i ^^^ m).testBit k = i.testBit k := by
        rw [Nat.testBit_xor, Nat.testBit_lt_two_pow (mem_range.mp hm), Bool.xor_false]
      rw [weight_succ, hbit, Bool.and_self]
      ring
    · -- it differs, so the element has no sign from this level
      have hindex : i ^^^ (2 ^ k + m) = twin k i ^^^ m := by
        rw [two_pow_add_eq_xor (mem_range.mp hm), twin, Nat.xor_assoc]
      have hbit : (twin k i ^^^ m).testBit k = !i.testBit k := by
        rw [Nat.testBit_xor, testBit_twin, Nat.testBit_lt_two_pow (mem_range.mp hm), Bool.xor_false]
      rw [hindex, weight_succ, hbit, Bool.and_not_self, weight_twin (Nat.le_refl k)]
      show _ = _ * 1 * _
      rw [mul_one]

/-- **The transform, entry by entry.** -/
theorem transform_eq_sum {k i : Nat} (hi : i < 2 ^ k) (x : Nat → R) :
    transform k x i = ∑ j ∈ range (2 ^ k), (-1) ^ popcount (i &&& j) * x j := by
  rw [transform_eq_sum_xor]
  refine sum_nbij' (i ^^^ ·) (i ^^^ ·) ?_ ?_ ?_ ?_ ?_
  · exact fun m hm => mem_range.mpr (Nat.xor_lt_two_pow hi (mem_range.mp hm))
  · exact fun m hm => mem_range.mpr (Nat.xor_lt_two_pow hi (mem_range.mp hm))
  · exact fun m _ => Nat.xor_xor_cancel_left i m
  · exact fun m _ => Nat.xor_xor_cancel_left i m
  · exact fun m _ => by rw [weight_eq hi]

theorem transform_congr {k i : Nat} (hi : i < 2 ^ k) {x y : Nat → R} (h : ∀ j < 2 ^ k, x j = y j) :
    transform k x i = transform k y i := by
  rw [transform_eq_sum hi, transform_eq_sum hi]
  refine sum_congr rfl fun j hj => ?_
  rw [h j (mem_range.mp hj)]

end Inca.Hadamard
