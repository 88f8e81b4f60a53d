import Mathlib.Data.BitVec

/-!
# Signed saturating addition

`satAdd` is the `|+|` of two's complement words: the exact sum when it is
representable, the nearest end of the range otherwise.

* `toInt_satAdd`: as an integer it is the sum, cut off at the ends of the range.
-/
namespace Inca

variable {w : Nat}

/-- The two's complement range of width `w`. -/
def InRange (w : Nat) (z : Int) : Prop := -2 ^ (w - 1) ≤ z ∧ z < 2 ^ (w - 1)

instance (w : Nat) (z : Int) : Decidable (InRange w z) := inferInstanceAs (Decidable (_ ∧ _))

def satAdd (x y : BitVec w) : BitVec w :=
  if 2 ^ (w - 1) ≤ x.toInt + y.toInt then BitVec.intMax w
  else if x.toInt + y.toInt < -2 ^ (w - 1) then BitVec.intMin w
  else x + y

theorem toInt_add_of_range {x y : BitVec w} (hw : 0 < w) (h : InRange w (x.toInt + y.toInt)) :
    (x + y).toInt = x.toInt + y.toInt := by
  obtain ⟨h1, h2⟩ := h
  have hp : (2 : Int) ^ w = 2 * 2 ^ (w - 1) := by
    obtain ⟨v, rfl⟩ : ∃ v, w = v + 1 := ⟨w - 1, by omega⟩
    simp [pow_succ, Int.mul_comm]
  rw [BitVec.toInt_add, Int.bmod_eq_of_le] <;> push_cast <;> omega

theorem toInt_satAdd (hw : 0 < w) (x y : BitVec w) :
    (satAdd x y).toInt = max (-2 ^ (w - 1)) (min (2 ^ (w - 1) - 1) (x.toInt + y.toInt)) := by
  have hpos : (0 : Int) < 2 ^ (w - 1) := Int.pow_pos (by decide)
  unfold satAdd
  split
  · next h => rw [BitVec.toInt_intMax]; omega
  · next h =>
    split
    · next h' => rw [BitVec.toInt_intMin_of_pos hw]; omega
    · next h' => rw [toInt_add_of_range hw ⟨by omega, by omega⟩]; omega

end Inca
