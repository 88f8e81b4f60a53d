import Mathlib.Dynamics.FixedPoints.Basic

/-!
# Shift and xor

A word xored with its own shift. The shift distributes over `xor` and vanishes when it is repeated often
enough, so the word can be recovered: of two words with the same result the difference is its own shift.

* `xor_map_injective`: the argument, for any such map of words.
* `xor_shiftLeft_injective`, `xor_shiftRight_injective`: shifts.
-/
namespace Inca.ShiftXor

variable {w : Nat}

/-- `f` distributes over `xor`, and `n` times `f` is zero. -/
theorem xor_map_injective {f : BitVec w → BitVec w} (hxor : ∀ x y, f (x ^^^ y) = f x ^^^ f y) {n : Nat}
    (hzero : ∀ x, f^[n] x = 0#w) : Function.Injective fun x => x ^^^ f x := by
  intro x y h
  have hfix : Function.IsFixedPt f (x ^^^ y) := by
    show f (x ^^^ y) = x ^^^ y
    rw [hxor, ← BitVec.xor_eq_zero_iff]
    have h' : x ^^^ f x ^^^ (y ^^^ f y) = 0#w := BitVec.xor_eq_zero_iff.mpr h
    rw [← h']
    ac_rfl
  rw [← BitVec.xor_eq_zero_iff, ← hzero (x ^^^ y)]
  exact (hfix.iterate n).symm

theorem iterate_shiftLeft (k n : Nat) (x : BitVec w) : (fun x : BitVec w => x <<< k)^[n] x = x <<< (k * n) := by
  induction n with
  | zero => rw [Function.iterate_zero_apply, Nat.mul_zero, BitVec.shiftLeft_zero]
  | succ n ih => rw [Function.iterate_succ_apply', ih, Nat.mul_succ, BitVec.shiftLeft_add]

theorem iterate_shiftRight (k n : Nat) (x : BitVec w) : (fun x : BitVec w => x >>> k)^[n] x = x >>> (k * n) := by
  induction n with
  | zero => rw [Function.iterate_zero_apply, Nat.mul_zero, BitVec.ushiftRight_zero]
  | succ n ih => rw [Function.iterate_succ_apply', ih, Nat.mul_succ, BitVec.shiftRight_add]

theorem xor_shiftLeft_injective {k : Nat} (hk : 0 < k) : Function.Injective fun x : BitVec w => x ^^^ x <<< k := by
  refine xor_map_injective (f := fun x => x <<< k) (n := w) (fun x y => BitVec.shiftLeft_xor_distrib x y k) fun x => ?_
  rw [iterate_shiftLeft]
  exact BitVec.shiftLeft_eq_zero (Nat.le_mul_of_pos_left w hk)

theorem xor_shiftRight_injective {k : Nat} (hk : 0 < k) : Function.Injective fun x : BitVec w => x ^^^ x >>> k := by
  refine xor_map_injective (f := fun x => x >>> k) (n := w) (fun x y => BitVec.ushiftRight_xor_distrib x y k) fun x => ?_
  rw [iterate_shiftRight]
  exact BitVec.ushiftRight_eq_zero (Nat.le_mul_of_pos_left w hk)

end Inca.ShiftXor
