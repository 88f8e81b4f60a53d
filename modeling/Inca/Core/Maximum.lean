import Mathlib.Data.Set.Insert
import Mathlib.Order.Bounds.Basic

/-!
# Maxima that start at a floor

A search for the largest value of `f` on a set starts with some value, its floor, and takes a
value that is larger than the one it has. What it has is the maximum of the values seen and the
floor (`Best`). Two searches are joined by the larger one of their results, if the floor of the
second is not above that of the first.

* `Best.add`, `Best.join`: one more value, and another search.
* `best_foldl`: a loop.
* `Best.isGreatest`: a floor that is not above all values does not show.
-/
namespace Inca.Maximum

variable {ι K : Type} [LinearOrder K] {f : ι → K} {S T : Set ι} {floor floor' x y : K}

def Best (floor : K) (f : ι → K) (S : Set ι) (x : K) : Prop := IsGreatest (insert floor (f '' S)) x

theorem best_empty (floor : K) (f : ι → K) : Best floor f ∅ floor := by
  rw [Best, Set.image_empty, insert_empty_eq]
  exact isGreatest_singleton

theorem Best.floor_le (h : Best floor f S x) : floor ≤ x := h.2 (Set.mem_insert _ _)

theorem Best.le (h : Best floor f S x) {i : ι} (hi : i ∈ S) : f i ≤ x := h.2 (.inr ⟨i, hi, rfl⟩)

theorem Best.add (h : Best floor f S x) (i : ι) : Best floor f (insert i S) (if f i > x then f i else x) := by
  have hmax := IsGreatest.insert (f i) h
  rw [Set.insert_comm, ← Set.image_insert_eq, max_comm, max_def_lt] at hmax
  exact hmax

theorem Best.join (h : Best floor f S x) (h' : Best floor' f T y) (hfloor : floor' ≤ floor) :
    Best floor f (S ∪ T) (if y > x then y else x) := by
  have hlow := h.floor_le
  have hmax : (if y > x then y else x) = max x y := (max_def_lt x y).symm
  rw [hmax]
  constructor
  · rw [Set.image_union, ← Set.insert_union]
    rcases le_or_gt y x with hle | hlt
    · rw [max_eq_left hle]
      exact .inl h.1
    · rw [max_eq_right hlt.le]
      rcases h'.1 with rfl | hmem
      · exact absurd hlt (not_lt_of_ge (hfloor.trans hlow))
      · exact .inr hmem
  · intro z hz
    rcases hz with rfl | ⟨i, hi | hi, rfl⟩
    · exact hlow.trans (le_max_left x y)
    · exact (h.le hi).trans (le_max_left x y)
    · exact (h'.le hi).trans (le_max_right x y)

theorem best_foldl (floor : K) (f : Nat → K) (n : Nat) :
    Best floor f {i | i < n} ((List.range n).foldl (fun x i => if f i > x then f i else x) floor) := by
  induction n with
  | zero =>
    have hempty : {i | i < 0} = (∅ : Set Nat) := Set.eq_empty_of_forall_notMem fun i => Nat.not_lt_zero i
    rw [hempty]
    exact best_empty floor f
  | succ n ih =>
    have hsucc : {i | i < n + 1} = insert n {i | i < n} := by
      ext i
      exact Nat.lt_succ_iff_lt_or_eq.trans or_comm
    rw [List.range_succ, List.foldl_append, hsucc]
    exact ih.add n

theorem Best.isGreatest (h : Best floor f S x) {i : ι} (hi : i ∈ S) (hfloor : floor ≤ f i) : IsGreatest (f '' S) x := by
  refine ⟨?_, fun z hz => h.2 (.inr hz)⟩
  rcases h.1 with rfl | hmem
  · exact ⟨i, hi, le_antisymm (h.le hi) hfloor⟩
  · exact hmem

end Inca.Maximum
