import Mathlib.Algebra.BigOperators.Group.Finset.Basic
import Mathlib.Data.Nat.Choose.Basic
import Mathlib.Tactic.Ring

/-!
# Iterated prefix sums

`iterFold op f p` is the sequence `f` after `p` rounds of "replace every entry
by the fold of the entries up to it". A chain of `p` accumulators, each fed
with the running total of the one before, holds `iterFold op f p k` after entry
`k`. `iterSum` is the case of the exact addition.

* `iterFold_hom`: a map that commutes with the operation commutes with the chain.
* `iterFold_eq_iterSum`: an operation that adds exactly on the running totals
  of the exact chain gives the exact chain.
* `iterSum_eq`: entry `t` is counted `(k - t + p).choose p` times by `p + 1`
  accumulators.
-/
namespace Inca

section Fold
variable {α β : Type} (op : α → α → α) (f : Nat → α)

/-- The fold of the entries up to `k`. -/
def running : Nat → α
  | 0 => f 0
  | k + 1 => op (running k) (f (k + 1))

def iterFold : Nat → Nat → α
  | 0 => f
  | p + 1 => running op (iterFold p)

theorem iterFold_zero (k : Nat) : iterFold op f 0 k = f k := rfl

theorem iterFold_first (p : Nat) : iterFold op f (p + 1) 0 = iterFold op f p 0 := rfl

theorem iterFold_next (p k : Nat) :
    iterFold op f (p + 1) (k + 1) = op (iterFold op f (p + 1) k) (iterFold op f p (k + 1)) := rfl

theorem iterFold_hom {op' : β → β → β} {φ : α → β} (h : ∀ x y, φ (op x y) = op' (φ x) (φ y)) (p k : Nat) :
    φ (iterFold op f p k) = iterFold op' (fun i => φ (f i)) p k := by
  induction p generalizing k with
  | zero => rw [iterFold_zero, iterFold_zero]
  | succ p ihp =>
    induction k with
    | zero => rw [iterFold_first, iterFold_first, ihp]
    | succ k ihk => rw [iterFold_next, iterFold_next, h, ihk, ihp]

end Fold

def iterSum (f : Nat → Int) : Nat → Nat → Int := iterFold (· + ·) f

theorem iterSum_zero (f : Nat → Int) (k : Nat) : iterSum f 0 k = f k := iterFold_zero _ f k

theorem iterSum_first (f : Nat → Int) (p : Nat) : iterSum f (p + 1) 0 = iterSum f p 0 := iterFold_first _ f p

theorem iterSum_next (f : Nat → Int) (p k : Nat) :
    iterSum f (p + 1) (k + 1) = iterSum f (p + 1) k + iterSum f p (k + 1) := iterFold_next _ f p k

theorem iterFold_eq_iterSum {op : Int → Int → Int} {f : Nat → Int} {p m : Nat}
    (h : ∀ q < p, ∀ k < m, op (iterSum f (q + 1) k) (iterSum f q (k + 1)) = iterSum f (q + 1) (k + 1)) :
    ∀ q ≤ p, ∀ k ≤ m, iterFold op f q k = iterSum f q k := by
  intro q
  induction q with
  | zero => intro _ k _; rw [iterFold_zero, iterSum_zero]
  | succ q ihq =>
    intro hq k
    induction k with
    | zero => intro _; rw [iterFold_first, iterSum_first, ihq (by omega) 0 (by omega)]
    | succ k ihk =>
      intro hk
      rw [iterFold_next, ihk (by omega), ihq (by omega) _ hk]
      exact h q (by omega) k (by omega)

open Finset in
theorem iterSum_eq (f : Nat → Int) (p k : Nat) :
    iterSum f (p + 1) k = ∑ t ∈ range (k + 1), ((k - t + p).choose p : Int) * f t := by
  induction p generalizing k with
  | zero =>
    induction k with
    | zero => simp [iterSum_first, iterSum_zero]
    | succ k ih => rw [iterSum_next, ih, sum_range_succ _ (k + 1)]; simp [iterSum_zero]
  | succ p ihp =>
    induction k with
    | zero => rw [iterSum_first, ihp]; simp
    | succ k ihk =>
      rw [iterSum_next, ihk, ihp, sum_range_succ _ (k + 1), sum_range_succ _ (k + 1), ← add_assoc,
        ← sum_add_distrib]
      congr 1
      · refine sum_congr rfl fun t ht => ?_
        have hd : k + 1 - t = k - t + 1 := by have := mem_range.mp ht; omega
        -- Pascal's rule, entry by entry
        rw [hd, show k - t + 1 + (p + 1) = (k - t + (p + 1)) + 1 by omega,
          Nat.choose_succ_succ (k - t + (p + 1)) p, show k - t + 1 + p = k - t + (p + 1) by omega]
        push_cast; ring
      · simp

end Inca
