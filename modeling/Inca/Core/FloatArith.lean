import Inca.Core.BinaryFormat

/-!
# Sums and products of binary floating-point numbers

Exact sums and products, in units of the least subnormal number, and rounded. An operation
without a number as its result is `none`; which NaN a processor gives then, is up to a `NanRule`.
Two patterns are the `Same` if they are equal or both NaN.

* `Strict.same`: an operation that has no result for NaN does not tell apart patterns that are
  the same, and gives the same under all rules.
* `sum_comm`.
-/
namespace Inca.BinaryFormat

variable {w m : Nat}

def Same (m : Nat) (x y : BitVec w) : Prop := x = y ∨ IsNaN m x ∧ IsNaN m y

/-- The NaN that is given for two operands. -/
structure NanRule (w m : Nat) where
  choose : BitVec w → BitVec w → BitVec w
  isNaN : ∀ x y, IsNaN m (choose x y)

/-- No result if an operand is NaN. -/
def Strict (m : Nat) (op : BitVec w → BitVec w → Option (BitVec w)) : Prop :=
  ∀ x y, IsNaN m x ∨ IsNaN m y → op x y = none

def NanRule.apply (R : NanRule w m) (op : BitVec w → BitVec w → Option (BitVec w)) (x y : BitVec w) : BitVec w :=
  (op x y).getD (R.choose x y)

theorem Strict.eq {op : BitVec w → BitVec w → Option (BitVec w)} (h : Strict m op) {x x' y y' : BitVec w}
    (hx : Same m x x') (hy : Same m y y') : op x y = op x' y' := by
  rcases hx with rfl | hx
  · rcases hy with rfl | hy
    · rfl
    · rw [h x y (.inr hy.1), h x y' (.inr hy.2)]
  · rw [h x y (.inl hx.1), h x' y' (.inl hx.2)]

theorem NanRule.apply_same (R R' : NanRule w m) {op : BitVec w → BitVec w → Option (BitVec w)} {x x' y y' : BitVec w}
    (h : op x y = op x' y') : Same m (R.apply op x y) (R'.apply op x' y') := by
  unfold NanRule.apply
  rw [h]
  cases op x' y' with
  | none => exact .inr ⟨R.isNaN x y, R'.isNaN x' y'⟩
  | some z => exact .inl rfl

theorem Strict.same {op : BitVec w → BitVec w → Option (BitVec w)} (h : Strict m op) (R R' : NanRule w m)
    {x x' y y' : BitVec w} (hx : Same m x x') (hy : Same m y y') : Same m (R.apply op x y) (R'.apply op x' y') :=
  R.apply_same R' (h.eq hx hy)

/-! ## Sums -/

/-- The value of a finite pattern in units. -/
def int (m : Nat) (x : BitVec w) : Int := if x.msb then -(units m (magnitude x) : Int) else units m (magnitude x)

def IsInf (m : Nat) (x : BitVec w) : Prop := magnitude x = infinity w m

instance (m : Nat) (x : BitVec w) : Decidable (IsInf m x) := Nat.decEq _ _

/-- The sign of a sum that is zero is that of the operands if they agree. -/
def sum (m : Nat) (x y : BitVec w) : Option (BitVec w) :=
  if IsNaN m x ∨ IsNaN m y then none
  else if IsInf m x ∧ IsInf m y then if x.msb = y.msb then some x else none
  else if IsInf m x then some x
  else if IsInf m y then some y
  else
    let s := int m x + int m y
    some (rounded w m 0 (if s = 0 then x.msb && y.msb else decide (s < 0)) s.natAbs)

theorem strict_sum (m : Nat) : Strict m (sum (w := w) m) := fun _ _ h => if_pos h

theorem sum_comm (hw : 0 < w) (m : Nat) (x y : BitVec w) : sum m x y = sum m y x := by
  by_cases hnan : IsNaN m x ∨ IsNaN m y
  · rw [strict_sum m x y hnan, strict_sum m y x hnan.symm]
  have hnan' : ¬(IsNaN m y ∨ IsNaN m x) := fun h => hnan h.symm
  simp only [sum, if_neg hnan, if_neg hnan']
  by_cases hx : IsInf m x
  · by_cases hy : IsInf m y
    · -- two infinities of one sign are the same pattern
      simp only [hx, hy, and_self, if_true, eq_comm (a := y.msb)]
      split
      · next hsign => rw [eq_of_magnitude hw hsign (hx.trans hy.symm)]
      · rfl
    · simp only [hx, hy, and_false, false_and, if_true, if_false]
  · by_cases hy : IsInf m y
    · simp only [hx, hy, and_false, false_and, if_true, if_false]
    · simp only [hx, hy, and_false, if_false, add_comm (int m x), Bool.and_comm x.msb]

/-! ## Products -/

def product (m bias : Nat) (x y : BitVec w) : Option (BitVec w) :=
  if IsNaN m x ∨ IsNaN m y then none
  else if IsInf m x ∨ IsInf m y then
    if magnitude x = 0 ∨ magnitude y = 0 then none else some (pack w (x.msb ^^ y.msb) (infinity w m))
  else some (rounded w m (bias - 1 + m) (x.msb ^^ y.msb) (units m (magnitude x) * units m (magnitude y)))

theorem strict_product (m bias : Nat) : Strict m (product (w := w) m bias) := fun _ _ h => if_pos h

end Inca.BinaryFormat
