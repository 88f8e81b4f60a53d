import Mathlib.Data.Nat.Log
import Mathlib.Tactic.Ring

/-!
# Natural numbers in a binary floating-point format

`roundBits p n` is what a conversion to a format with `p` significant bits
makes of `n`: the nearest multiple of `ulp p n`, which is the distance of two
neighbours in the format at `n`, and in the middle between two the one with
the even mantissa. The range of the format is not limited.

* `le_roundBits`, `roundBits_le`: no multiple of the distance lies between `n`
  and its rounding.
* `roundBits_eq_self`, `roundBits_mono`.
* `roundBits_down`, `roundBits_up`: which of the two neighbours it is.
-/
namespace Inca

variable {p n m : Nat}

theorem log2_mono (h : m ≤ n) : m.log2 ≤ n.log2 := by
  rw [Nat.log2_eq_log_two, Nat.log2_eq_log_two]
  exact Nat.log_mono_right h

/-- Unit in the last place of `p` significant bits, at `n`. -/
def ulp (p n : Nat) : Nat := 2 ^ (n.log2 + 1 - p)

def roundBits (p n : Nat) : Nat :=
  if 2 * (n % ulp p n) < ulp p n ∨ 2 * (n % ulp p n) = ulp p n ∧ n / ulp p n % 2 = 0 then
    n / ulp p n * ulp p n
  else (n / ulp p n + 1) * ulp p n

theorem ulp_pos (p n : Nat) : 0 < ulp p n := Nat.two_pow_pos _

theorem ulp_of_lt (hp : 0 < p) (h : n < 2 ^ p) : ulp p n = 1 := by
  have hlog : n.log2 + 1 - p = 0 := by
    rcases Nat.eq_zero_or_pos n with rfl | hn
    · rw [Nat.log2_zero]
      omega
    · have := (Nat.log2_lt (by omega)).mpr h
      omega
  rw [ulp, hlog, Nat.pow_zero]

/-- Quotient and remainder of a number that is given by them. -/
theorem div_mod_ulp {q r : Nat} (hn : n = q * ulp p n + r) (hr : r < ulp p n) : n / ulp p n = q ∧ n % ulp p n = r := by
  refine (Nat.div_mod_unique (ulp_pos p n)).mpr ⟨?_, hr⟩
  rw [Nat.mul_comm]
  omega

/-- Below the middle, or in the middle with an even mantissa. -/
theorem roundBits_down {q r : Nat} (hn : n = q * ulp p n + r) (h : 2 * r < ulp p n ∨ 2 * r = ulp p n ∧ q % 2 = 0) :
    roundBits p n = q * ulp p n := by
  have := ulp_pos p n
  obtain ⟨hq, hr⟩ := div_mod_ulp hn (by omega)
  rw [roundBits, hq, hr, if_pos h]

/-- Above the middle, or in the middle with an odd mantissa. -/
theorem roundBits_up {q r : Nat} (hn : n = q * ulp p n + r) (hr : r < ulp p n)
    (h : ulp p n < 2 * r ∨ 2 * r = ulp p n ∧ q % 2 = 1) : roundBits p n = (q + 1) * ulp p n := by
  obtain ⟨hq, hr⟩ := div_mod_ulp hn hr
  rw [roundBits, hq, hr, if_neg (by omega)]

theorem ulp_dvd_roundBits (p n : Nat) : ulp p n ∣ roundBits p n := by
  unfold roundBits
  split
  · exact Nat.dvd_mul_left _ _
  · exact Nat.dvd_mul_left _ _

theorem le_roundBits (hm : m ≤ n) (hd : ulp p n ∣ m) : m ≤ roundBits p n := by
  obtain ⟨k, rfl⟩ := hd
  have hk : k ≤ n / ulp p n := (Nat.le_div_iff_mul_le (ulp_pos p n)).mpr (by rwa [Nat.mul_comm])
  rw [Nat.mul_comm]
  unfold roundBits
  split
  · exact Nat.mul_le_mul_right _ hk
  · exact Nat.mul_le_mul_right _ (by omega)

theorem roundBits_le (hm : n ≤ m) (hd : ulp p n ∣ m) : roundBits p n ≤ m := by
  obtain ⟨k, rfl⟩ := hd
  have hs := ulp_pos p n
  have hdiv := Nat.div_add_mod n (ulp p n)
  rw [Nat.mul_comm (ulp p n) k]
  unfold roundBits
  split
  · refine Nat.mul_le_mul_right _ (Nat.le_of_mul_le_mul_left ?_ hs)
    omega
  · next hup =>
    -- a remainder is left, so the multiple is above the lower neighbour
    refine Nat.mul_le_mul_right _ (Nat.lt_of_mul_lt_mul_left (a := ulp p n) ?_)
    omega

theorem roundBits_eq_self (hd : ulp p n ∣ n) : roundBits p n = n :=
  Nat.le_antisymm (roundBits_le (Nat.le_refl n) hd) (le_roundBits (Nat.le_refl n) hd)

theorem roundBits_of_lt (hp : 0 < p) (h : n < 2 ^ p) : roundBits p n = n :=
  roundBits_eq_self (by rw [ulp_of_lt hp h]; exact Nat.one_dvd n)

/-- A number of `p` bits, shifted, is in the format. -/
theorem roundBits_mul_two_pow (hp : 0 < p) (h : m < 2 ^ p) (j : Nat) : roundBits p (m * 2 ^ j) = m * 2 ^ j := by
  rcases Nat.eq_zero_or_pos m with rfl | hm
  · rw [Nat.zero_mul]
    exact roundBits_of_lt hp (Nat.two_pow_pos p)
  · have hlt := (Nat.log2_lt (by omega)).mpr h
    have hlog : (m * 2 ^ j).log2 < p + j := by
      refine (Nat.log2_lt (Nat.mul_pos hm (Nat.two_pow_pos j)).ne').mpr ?_
      rw [Nat.pow_add]
      exact Nat.mul_lt_mul_of_pos_right h (Nat.two_pow_pos j)
    refine roundBits_eq_self (Nat.dvd_mul_left_of_dvd ?_ m)
    exact Nat.pow_dvd_pow 2 (by omega)

theorem roundBits_le_two_pow (hp : 0 < p) (n : Nat) : roundBits p n ≤ 2 ^ (n.log2 + 1) :=
  roundBits_le (Nat.lt_log2_self).le (Nat.pow_dvd_pow 2 (by omega))

theorem two_pow_le_roundBits (hp : 0 < p) (hn : n ≠ 0) : 2 ^ n.log2 ≤ roundBits p n :=
  le_roundBits (Nat.log2_self_le hn) (Nat.pow_dvd_pow 2 (by omega))

theorem roundBits_le_add (p n : Nat) : roundBits p n ≤ n + ulp p n := by
  have hup : n ≤ (n / ulp p n + 1) * ulp p n := by
    rw [Nat.add_mul, Nat.one_mul]
    exact (Nat.lt_div_mul_add (ulp_pos p n)).le
  refine (roundBits_le hup (Nat.dvd_mul_left _ _)).trans ?_
  rw [Nat.add_mul, Nat.one_mul]
  exact Nat.add_le_add_right (Nat.div_mul_le_self n _) _

/-- The error is small against the number. -/
theorem ulp_mul_le (hn : 2 ^ p ≤ n) : ulp (p + 1) n * 2 ^ p ≤ n := by
  have hn0 : n ≠ 0 := by
    have := Nat.two_pow_pos p
    omega
  have hlog : p ≤ n.log2 := (Nat.le_log2 hn0).mpr hn
  rw [ulp, ← Nat.pow_add, show n.log2 + 1 - (p + 1) + p = n.log2 by omega]
  exact Nat.log2_self_le hn0

/-- Rounding keeps the order. -/
theorem roundBits_mono (hp : 0 < p) (h : m ≤ n) : roundBits p m ≤ roundBits p n := by
  rcases Nat.eq_zero_or_pos m with rfl | hm
  · rw [roundBits_of_lt hp (Nat.two_pow_pos p)]
    exact Nat.zero_le _
  · have hlog := log2_mono h
    rcases Nat.lt_or_eq_of_le hlog with hlt | heq
    · -- a power of two lies between them
      calc roundBits p m ≤ 2 ^ (m.log2 + 1) := roundBits_le_two_pow hp m
        _ ≤ 2 ^ n.log2 := Nat.pow_le_pow_right (by decide) hlt
        _ ≤ roundBits p n := two_pow_le_roundBits hp (by omega)
    · have hs : ulp p m = ulp p n := by rw [ulp, ulp, heq]
      rcases Nat.lt_or_eq_of_le (Nat.div_le_div_right (c := ulp p n) h) with hlt | hq
      · -- a multiple of the distance does
        have hmid : (m / ulp p n + 1) * ulp p n ≤ n :=
          (Nat.mul_le_mul_right _ hlt).trans (Nat.div_mul_le_self n _)
        refine (roundBits_le ?_ (hs ▸ Nat.dvd_mul_left _ _)).trans (le_roundBits hmid (Nat.dvd_mul_left _ _))
        rw [← hs, Nat.add_mul, Nat.one_mul]
        exact (Nat.lt_div_mul_add (ulp_pos p m)).le
      · -- both lie between the same neighbours
        have hr : m % ulp p n ≤ n % ulp p n := by
          have hm' := Nat.div_add_mod m (ulp p n)
          have hn' := Nat.div_add_mod n (ulp p n)
          rw [hq] at hm'
          omega
        unfold roundBits
        rw [hs, hq]
        split
        · split
          · exact Nat.le_refl _
          · exact Nat.mul_le_mul_right _ (by omega)
        · next hup =>
          rw [if_neg (by have := Nat.mod_lt m (ulp_pos p n); omega)]

end Inca
