import Mathlib.Algebra.Order.Field.Basic
import Mathlib.Algebra.Order.Ring.Rat
import Mathlib.Data.Nat.Log
import Mathlib.Order.Monotone.Basic
import Mathlib.Tactic.FieldSimp
import Mathlib.Tactic.Linarith
import Mathlib.Tactic.Ring

/-!
# Binary floating-point formats

The magnitude of a number in a format with `m` mantissa bits is a pattern `n`: the
exponent field is `n / 2 ^ m`, the mantissa `n % 2 ^ m`. `units m n` is the value in units
of the least subnormal number, as a natural number. The patterns from infinity on have
values here too, as if the exponent field were not limited.

`roundTo m k N` is the pattern that is nearest to `N / 2 ^ k` units, and the even one of
two.

* `units_strictMono`: the order of the values is that of the patterns.
* `roundTo_eq`: any two neighbours around `N / 2 ^ k` determine the rounding.
* `roundTo_nearest`, `roundTo_even`: no pattern is nearer, and one that is as near is odd.
* `le_roundTo_iff`: what is rounded to a pattern or beyond it.
* `value_eq`: the value of a pattern as a rational number.
* `guard_sticky`: the decision between two neighbours by the highest bit that is cut off, and
  whether there is another one below it.
* `rounded_nearest`: with a sign, and infinity behind the last finite pattern, this is the
  nearest number of the format, ties to even.
-/
namespace Inca.BinaryFormat

variable {m k n N : Nat}

def units (m n : Nat) : Nat := if n / 2 ^ m = 0 then n else (2 ^ m + n % 2 ^ m) * 2 ^ (n / 2 ^ m - 1)

/-- The pattern of a mantissa of `m + 1` bits, the leading one included, with a scale. -/
theorem units_add {s x : Nat} (hlo : 2 ^ m ≤ x ∨ s = 0) (hhi : x ≤ 2 ^ (m + 1)) :
    units m (s * 2 ^ m + x) = x * 2 ^ s := by
  have hpos := Nat.two_pow_pos m
  rw [Nat.pow_succ] at hhi
  rcases Nat.lt_or_ge x (2 ^ m) with hx | hx
  · -- subnormal
    obtain rfl : s = 0 := by omega
    rw [Nat.zero_mul, Nat.zero_add, units, if_pos (Nat.div_eq_of_lt hx), Nat.pow_zero, Nat.mul_one]
  · rcases Nat.lt_or_ge x (2 ^ m * 2) with hx' | hx'
    · have hn : s * 2 ^ m + x = (x - 2 ^ m) + (s + 1) * 2 ^ m := by
        rw [Nat.add_mul, Nat.one_mul]
        omega
      rw [hn, units, Nat.add_mul_div_right _ _ hpos, Nat.add_mul_mod_self_right, Nat.div_eq_of_lt (by omega),
        Nat.mod_eq_of_lt (by omega), if_neg (by omega), Nat.zero_add, Nat.add_sub_cancel, Nat.add_sub_cancel' hx]
    · -- the first pattern of the next exponent
      obtain rfl : x = 2 ^ m * 2 := by omega
      have hn : s * 2 ^ m + 2 ^ m * 2 = (s + 2) * 2 ^ m := by ring
      rw [hn, units, Nat.mul_div_cancel _ hpos, Nat.mul_mod_left, if_neg (by omega),
        show s + 2 - 1 = s + 1 by omega, Nat.pow_succ]
      ring

theorem units_of_le {x : Nat} (h : x ≤ 2 ^ (m + 1)) : units m x = x := by
  have hx := units_add (s := 0) (.inr rfl) h
  rwa [Nat.zero_mul, Nat.zero_add, Nat.pow_zero, Nat.mul_one] at hx

/-- Every pattern has this form. -/
theorem exists_scale (m n : Nat) : ∃ s x, (2 ^ m ≤ x ∨ s = 0) ∧ x < 2 ^ (m + 1) ∧ n = s * 2 ^ m + x := by
  have hpos := Nat.two_pow_pos m
  have hmod := Nat.mod_lt n hpos
  have hdiv := Nat.div_add_mod' n (2 ^ m)
  rw [Nat.pow_succ]
  rcases Nat.eq_zero_or_pos (n / 2 ^ m) with hzero | hfield
  · rw [hzero] at hdiv
    exact ⟨0, n, .inr rfl, by omega, by omega⟩
  · refine ⟨n / 2 ^ m - 1, 2 ^ m + n % 2 ^ m, .inl (by omega), by omega, ?_⟩
    rw [Nat.sub_mul, Nat.one_mul]
    have := Nat.le_mul_of_pos_left (2 ^ m) hfield
    omega

theorem units_strictMono (m : Nat) : StrictMono (units m) := by
  refine strictMono_nat_of_lt_succ fun n => ?_
  obtain ⟨s, x, hlo, hhi, rfl⟩ := exists_scale m n
  rw [Nat.add_assoc, units_add hlo hhi.le, units_add (by omega) hhi]
  exact Nat.mul_lt_mul_of_pos_right (Nat.lt_succ_self x) (Nat.two_pow_pos s)

/-! ## Rounding -/

/-- The scale of the neighbours of `N / 2 ^ k`. -/
def scale (m k N : Nat) : Nat := (N / 2 ^ k).log2 - m

/-- The lower neighbour. -/
def lower (m k N : Nat) : Nat := scale m k N * 2 ^ m + N / 2 ^ (k + scale m k N)

def roundTo (m k N : Nat) : Nat :=
  let gap := 2 ^ (k + scale m k N)
  if 2 * (N % gap) < gap ∨ 2 * (N % gap) = gap ∧ lower m k N % 2 = 0 then lower m k N else lower m k N + 1

/-- `T` and `T + 1` are the neighbours of `N / 2 ^ k`, with `r` and `gap` in units of `1 / 2 ^ k`. -/
structure Between (m k N T r gap : Nat) : Prop where
  low : N = units m T * 2 ^ k + r
  next : units m (T + 1) * 2 ^ k = units m T * 2 ^ k + gap
  lt : r < gap

theorem Between.unique {T T' r r' gap gap' : Nat} (h : Between m k N T r gap) (h' : Between m k N T' r' gap') :
    T = T' ∧ r = r' ∧ gap = gap' := by
  have key : ∀ {T T' r r' gap gap'}, Between m k N T r gap → Between m k N T' r' gap' → T ≤ T' := by
    intro T T' r r' gap gap' h h'
    by_contra hlt
    have hle := Nat.mul_le_mul_right (2 ^ k) ((units_strictMono m).monotone (show T' + 1 ≤ T by omega))
    have := h.low
    have := h'.low
    have := h'.next
    have := h'.lt
    omega
  obtain rfl := Nat.le_antisymm (key h h') (key h' h)
  have := h.low
  have := h'.low
  have := h.next
  have := h'.next
  exact ⟨rfl, by omega, by omega⟩

theorem between_lower (m k N : Nat) :
    Between m k N (lower m k N) (N % 2 ^ (k + scale m k N)) (2 ^ (k + scale m k N)) := by
  have hquot : N / 2 ^ (k + scale m k N) = N / 2 ^ k / 2 ^ scale m k N := by
    rw [Nat.div_div_eq_div_mul, Nat.pow_add]
  have hlog : N / 2 ^ k < 2 ^ ((N / 2 ^ k).log2 + 1) := Nat.lt_log2_self
  have hlo : 2 ^ m ≤ N / 2 ^ (k + scale m k N) ∨ scale m k N = 0 := by
    rcases Nat.eq_zero_or_pos (scale m k N) with hzero | hpos
    · exact .inr hzero
    · left
      have hne : N / 2 ^ k ≠ 0 := by
        intro h
        rw [scale, h, Nat.log2_zero] at hpos
        omega
      rw [hquot, Nat.le_div_iff_mul_le (Nat.two_pow_pos _), ← Nat.pow_add]
      refine Nat.le_trans (Nat.pow_le_pow_right Nat.two_pos ?_) (Nat.log2_self_le hne)
      unfold scale at hpos ⊢
      omega
  have hhi : N / 2 ^ (k + scale m k N) < 2 ^ (m + 1) := by
    rw [hquot, Nat.div_lt_iff_lt_mul (Nat.two_pow_pos _), ← Nat.pow_add]
    refine Nat.lt_of_lt_of_le hlog (Nat.pow_le_pow_right Nat.two_pos ?_)
    unfold scale
    omega
  refine ⟨?_, ?_, Nat.mod_lt _ (Nat.two_pow_pos _)⟩
  · rw [lower, units_add hlo hhi.le, Nat.mul_assoc, ← Nat.pow_add, Nat.add_comm (scale m k N)]
    exact (Nat.div_add_mod' N _).symm
  · rw [lower, Nat.add_assoc, units_add hlo hhi.le, units_add (by omega) hhi, Nat.succ_eq_add_one]
    ring

theorem roundTo_eq {T r gap : Nat} (h : Between m k N T r gap) :
    roundTo m k N = if 2 * r < gap ∨ 2 * r = gap ∧ T % 2 = 0 then T else T + 1 := by
  obtain ⟨hT, hr, hgap⟩ := (between_lower m k N).unique h
  rw [← hT, ← hr, ← hgap]
  rfl

/-- A value of the format is its own rounding. -/
theorem roundTo_units (m n : Nat) : roundTo m 0 (units m n) = n := by
  have hlt : units m n < units m (n + 1) := units_strictMono m (Nat.lt_succ_self n)
  have h : Between m 0 (units m n) n 0 (units m (n + 1) - units m n) := by
    refine ⟨?_, ?_, by omega⟩
    · rw [Nat.pow_zero, Nat.mul_one, Nat.add_zero]
    · rw [Nat.pow_zero, Nat.mul_one, Nat.mul_one]
      omega
  rw [roundTo_eq h, if_pos (.inl (by omega))]

/-- The distance of a pattern from `N / 2 ^ k`, in units of `1 / 2 ^ k`. -/
def distance (m k N n : Nat) : Nat := (N - units m n * 2 ^ k) + (units m n * 2 ^ k - N)

/-- Other patterns are at least as far away as the neighbour on their side. -/
theorem Between.distance_le {T r gap : Nat} (h : Between m k N T r gap) (n : Nat) :
    (n ≤ T ∧ r ≤ distance m k N n ∨ T < n ∧ gap - r ≤ distance m k N n) ∧
      distance m k N T = r ∧ distance m k N (T + 1) = gap - r := by
  have := h.low
  have := h.next
  have := h.lt
  unfold distance
  refine ⟨?_, by omega, by omega⟩
  rcases Nat.lt_or_ge T n with hn | hn
  · have := Nat.mul_le_mul_right (2 ^ k) ((units_strictMono m).monotone (show T + 1 ≤ n from hn))
    exact .inr ⟨hn, by omega⟩
  · have := Nat.mul_le_mul_right (2 ^ k) ((units_strictMono m).monotone hn)
    exact .inl ⟨hn, by omega⟩

theorem roundTo_nearest (m k N n : Nat) : distance m k N (roundTo m k N) ≤ distance m k N n := by
  have h := between_lower m k N
  obtain ⟨hn, hlow, hhigh⟩ := h.distance_le n
  rw [roundTo_eq h]
  split
  · rw [hlow]
    omega
  · rw [hhigh]
    omega

/-- A different value that is as near. -/
theorem roundTo_even {n : Nat} (h : distance m k N n = distance m k N (roundTo m k N))
    (hne : units m n ≠ units m (roundTo m k N)) : roundTo m k N % 2 = 0 := by
  have hb := between_lower m k N
  have hlt := hb.lt
  have hlow := hb.low
  have hgap := hb.next
  obtain ⟨hn, hdist, hdist'⟩ := hb.distance_le n
  rw [roundTo_eq hb] at h hne ⊢
  have hcases : n ≤ lower m k N ∨ lower m k N + 1 ≤ n := by omega
  split at h
  · next hdown =>
    rw [if_pos hdown] at hne ⊢
    rcases hdown with hlt | heq
    · -- no other pattern is as near as the lower neighbour
      exfalso
      have hle : n ≤ lower m k N := by omega
      have hmono := Nat.mul_le_mul_right (2 ^ k) ((units_strictMono m).monotone hle)
      rw [hdist] at h
      unfold distance at h
      have heq : units m n * 2 ^ k = units m (lower m k N) * 2 ^ k := by omega
      exact hne (Nat.eq_of_mul_eq_mul_right (Nat.two_pow_pos k) heq)
    · exact heq.2
  · next hup =>
    rw [if_neg hup] at hne ⊢
    rw [hdist'] at h
    rcases hcases with hle | hge
    · -- a tie, with an odd lower neighbour
      omega
    · exfalso
      have hmono := Nat.mul_le_mul_right (2 ^ k) ((units_strictMono m).monotone hge)
      unfold distance at h
      have heq : units m n * 2 ^ k = units m (lower m k N + 1) * 2 ^ k := by omega
      exact hne (Nat.eq_of_mul_eq_mul_right (Nat.two_pow_pos k) heq)

/-- From the middle below an even pattern on. -/
theorem le_roundTo_iff {T : Nat} (hodd : T % 2 = 1) :
    T + 1 ≤ roundTo m k N ↔ (units m T + units m (T + 1)) * 2 ^ k ≤ 2 * N := by
  have hb := between_lower m k N
  have hlow := hb.low
  have hgap := hb.next
  have hlt := hb.lt
  have hmono : ∀ {a b}, a ≤ b → units m a * 2 ^ k ≤ units m b * 2 ^ k := fun hab =>
    Nat.mul_le_mul_right (2 ^ k) ((units_strictMono m).monotone hab)
  rw [roundTo_eq hb, Nat.add_mul]
  rcases Nat.lt_trichotomy (lower m k N) T with hT | rfl | hT
  · have h1 := hmono (show lower m k N + 1 ≤ T from hT)
    have h2 := hmono (show lower m k N + 1 ≤ T + 1 by omega)
    constructor
    · intro h
      split at h <;> omega
    · intro h
      omega
  · constructor
    · intro h
      split at h <;> omega
    · intro h
      rw [if_neg (by omega)]
  · have h1 := hmono (show T ≤ lower m k N by omega)
    have h2 := hmono (show T + 1 ≤ lower m k N from hT)
    constructor
    · intro h
      omega
    · intro h
      split <;> omega

/-- The highest bit that is cut off, and the ones below it. -/
theorem guard_sticky (M c : Nat) :
    (2 * (M % 2 ^ (c + 1)) < 2 ^ (c + 1) ∨ 2 * (M % 2 ^ (c + 1)) = 2 ^ (c + 1) ∧ M / 2 ^ (c + 1) % 2 = 0) ↔
      ¬(M / 2 ^ c % 2 = 1 ∧ (M % 2 ^ c ≠ 0 ∨ M / 2 ^ (c + 1) % 2 = 1)) := by
  have hmod : M % 2 ^ (c + 1) = M % 2 ^ c + 2 ^ c * (M / 2 ^ c % 2) := Nat.mod_pow_succ
  have hlt := Nat.mod_lt M (Nat.two_pow_pos c)
  rw [hmod, Nat.pow_succ]
  rcases Nat.mod_two_eq_zero_or_one (M / 2 ^ c) with hbit | hbit
  · rw [hbit]
    omega
  · rw [hbit, Nat.mul_one]
    omega

/-- The rounding by these bits, if the neighbours are `2 ^ (c + 1)` steps of `2 ^ j` apart. -/
theorem roundTo_guard {T M c j : Nat} (h : Between m k N T (M % 2 ^ (c + 1) * 2 ^ j) (2 ^ (c + 1) * 2 ^ j))
    (hT : T % 2 = M / 2 ^ (c + 1) % 2) :
    roundTo m k N = if M / 2 ^ c % 2 = 1 ∧ (M % 2 ^ c ≠ 0 ∨ T % 2 = 1) then T + 1 else T := by
  have hpos := Nat.two_pow_pos j
  have hiff := guard_sticky M c
  rw [← Nat.mul_lt_mul_right hpos, ← Nat.mul_left_inj hpos.ne', Nat.mul_assoc] at hiff
  rw [roundTo_eq h, hT]
  by_cases hup : M / 2 ^ c % 2 = 1 ∧ (M % 2 ^ c ≠ 0 ∨ M / 2 ^ (c + 1) % 2 = 1)
  · rw [if_pos hup, if_neg fun hdown => hiff.mp hdown hup]
  · rw [if_neg hup, if_pos (hiff.mpr hup)]

/-- Below half a unit. -/
theorem roundTo_eq_zero (m : Nat) (h : 2 * N < 2 ^ k) : roundTo m k N = 0 := by
  have hb : Between m k N 0 N (2 ^ k) := by
    have h0 : units m 0 = 0 := units_of_le (Nat.zero_le _)
    have h1 : units m 1 = 1 := units_of_le Nat.one_le_two_pow
    refine ⟨?_, ?_, by omega⟩
    · rw [h0]
      omega
    · rw [h0, h1]
      omega
  rw [roundTo_eq hb, if_pos (.inl h)]

/-! ## Values -/

/-- The value of a pattern, in a format with this bias. -/
def value (m bias n : Nat) : ℚ :=
  if n / 2 ^ m = 0 then (n % 2 ^ m : Nat) / 2 ^ m * 2 ^ (1 - bias : Int)
  else (1 + (n % 2 ^ m : Nat) / 2 ^ m) * 2 ^ ((n / 2 ^ m : Nat) - bias : Int)

theorem value_eq {bias : Nat} (hbias : 0 < bias) (m n : Nat) : value m bias n = units m n / 2 ^ (bias - 1 + m) := by
  have hpow : (2 : ℚ) ^ (1 - bias : Int) = 1 / 2 ^ (bias - 1) := by
    rw [show (1 - bias : Int) = -((bias - 1 : Nat) : Int) by omega, zpow_neg, zpow_natCast, one_div]
  unfold value units
  split
  · next hzero =>
    have hn : n % 2 ^ m = n := Nat.mod_eq_of_lt ((Nat.div_eq_zero_iff_lt (Nat.two_pow_pos m)).mp hzero)
    rw [hn, hpow, pow_add]
    field_simp
  · next hfield =>
    have hexp : ((n / 2 ^ m : Nat) - bias : Int) = ((n / 2 ^ m - 1 : Nat) : Int) + (1 - bias) := by
      generalize n / 2 ^ m = e at hfield
      omega
    rw [hexp, zpow_add₀ two_ne_zero, zpow_natCast, hpow, pow_add]
    push_cast
    field_simp

/-- Distances as rational numbers. -/
theorem abs_value_sub {bias : Nat} (hbias : 0 < bias) (m k N n : Nat) :
    |value m bias n - N / 2 ^ (bias - 1 + m + k)| = distance m k N n / 2 ^ (bias - 1 + m + k) := by
  have hval : value m bias n - N / 2 ^ (bias - 1 + m + k) =
      ((units m n * 2 ^ k : Nat) - (N : ℚ)) / 2 ^ (bias - 1 + m + k) := by
    rw [value_eq hbias, pow_add _ (bias - 1 + m) k]
    push_cast
    field_simp
  have hdist : ((distance m k N n : Nat) : ℚ) = |((units m n * 2 ^ k : Nat) : ℚ) - N| := by
    unfold distance
    rcases Nat.le_total N (units m n * 2 ^ k) with h | h
    · rw [Nat.sub_eq_zero_of_le h, Nat.zero_add, Nat.cast_sub h, abs_of_nonneg]
      exact sub_nonneg.mpr (Nat.cast_le.mpr h)
    · rw [Nat.sub_eq_zero_of_le h, Nat.add_zero, Nat.cast_sub h, abs_sub_comm, abs_of_nonneg]
      exact sub_nonneg.mpr (Nat.cast_le.mpr h)
  rw [hval, abs_div, hdist, abs_of_pos (show (0 : ℚ) < 2 ^ (bias - 1 + m + k) from pow_pos two_pos _)]

theorem value_nonneg {bias : Nat} (hbias : 0 < bias) (m n : Nat) : 0 ≤ value m bias n := by
  rw [value_eq hbias]
  exact div_nonneg (Nat.cast_nonneg _) (pow_nonneg zero_le_two _)

/-! ## Signs -/

variable {w bias : Nat}

/-- A pattern of `w` bits without its sign. -/
def magnitude (x : BitVec w) : Nat := x.toNat % 2 ^ (w - 1)

/-- The magnitude of infinity. -/
def infinity (w m : Nat) : Nat := 2 ^ (w - 1) - 2 ^ m

def IsNaN (m : Nat) (x : BitVec w) : Prop := infinity w m < magnitude x

def Finite (m : Nat) (x : BitVec w) : Prop := magnitude x < infinity w m

instance (m : Nat) (x : BitVec w) : Decidable (IsNaN m x) := Nat.decLt _ _

instance (m : Nat) (x : BitVec w) : Decidable (Finite m x) := Nat.decLt _ _

/-- The value of a finite pattern. -/
def rat (m bias : Nat) (x : BitVec w) : ℚ :=
  if x.msb then -value m bias (magnitude x) else value m bias (magnitude x)

def pack (w : Nat) (neg : Bool) (n : Nat) : BitVec w := BitVec.ofNat w (neg.toNat * 2 ^ (w - 1) + n)

/-- The result of an operation whose exact value is `N / 2 ^ k` units. -/
def rounded (w m k : Nat) (neg : Bool) (N : Nat) : BitVec w := pack w neg (min (roundTo m k N) (infinity w m))

theorem infinity_lt (w m : Nat) : infinity w m < 2 ^ (w - 1) :=
  Nat.sub_lt (Nat.two_pow_pos _) (Nat.two_pow_pos _)

theorem two_pow_pred (hw : 0 < w) : 2 ^ w = 2 * 2 ^ (w - 1) := by
  obtain ⟨v, rfl⟩ : ∃ v, w = v + 1 := ⟨w - 1, by omega⟩
  rw [Nat.pow_succ, Nat.add_sub_cancel, Nat.mul_comm]

/-- A pattern is its sign and its magnitude. -/
theorem toNat_eq (hw : 0 < w) (x : BitVec w) : x.toNat = x.msb.toNat * 2 ^ (w - 1) + magnitude x := by
  have hlt := x.isLt
  rw [two_pow_pred hw] at hlt
  rw [BitVec.msb_eq_decide, magnitude]
  by_cases h : 2 ^ (w - 1) ≤ x.toNat
  · rw [decide_eq_true h, Nat.mod_eq_sub_mod h, Nat.mod_eq_of_lt (by omega), Bool.toNat_true]
    omega
  · rw [decide_eq_false h, Nat.mod_eq_of_lt (by omega), Bool.toNat_false]
    omega

theorem eq_of_magnitude (hw : 0 < w) {x y : BitVec w} (hsign : x.msb = y.msb) (hmag : magnitude x = magnitude y) :
    x = y := by
  apply BitVec.eq_of_toNat_eq
  rw [toNat_eq hw, toNat_eq hw, hsign, hmag]

theorem toNat_pack (hw : 0 < w) (neg : Bool) {n : Nat} (hn : n < 2 ^ (w - 1)) :
    (pack w neg n).toNat = neg.toNat * 2 ^ (w - 1) + n := by
  have := two_pow_pred hw
  rw [pack, BitVec.toNat_ofNat, Nat.mod_eq_of_lt]
  cases neg with
  | false =>
    rw [Bool.toNat_false]
    omega
  | true =>
    rw [Bool.toNat_true]
    omega

theorem pack_spec (hw : 0 < w) (neg : Bool) {n : Nat} (hn : n < 2 ^ (w - 1)) :
    (pack w neg n).msb = neg ∧ magnitude (pack w neg n) = n := by
  rw [BitVec.msb_eq_decide, magnitude, toNat_pack hw neg hn, Nat.mul_comm, Nat.mul_add_mod, Nat.mod_eq_of_lt hn]
  refine ⟨?_, rfl⟩
  cases neg with
  | false =>
    rw [Bool.toNat_false]
    exact decide_eq_false (by omega)
  | true =>
    rw [Bool.toNat_true]
    exact decide_eq_true (by omega)

theorem rounded_spec (hw : 0 < w) (m k : Nat) (neg : Bool) (N : Nat) :
    (rounded w m k neg N).msb = neg ∧ magnitude (rounded w m k neg N) = min (roundTo m k N) (infinity w m) :=
  pack_spec hw neg (Nat.lt_of_le_of_lt (Nat.min_le_right _ _) (infinity_lt w m))

/-- `x` is nearest to `v` among the finite patterns, and even if another value is as near. -/
structure Nearest (m bias : Nat) (v : ℚ) (x : BitVec w) : Prop where
  finite : Finite m x
  nearest : ∀ y : BitVec w, Finite m y → |rat m bias x - v| ≤ |rat m bias y - v|
  even : ∀ y : BitVec w, Finite m y → |rat m bias y - v| = |rat m bias x - v| → rat m bias y ≠ rat m bias x →
    x.toNat % 2 = 0

/-- The value `a`, with a sign. -/
def signed (neg : Bool) (a : ℚ) : ℚ := if neg then -a else a

theorem rat_eq (m bias : Nat) (x : BitVec w) : rat m bias x = signed x.msb (value m bias (magnitude x)) := rfl

theorem abs_signed_sub (neg : Bool) (a b : ℚ) : |signed neg a - signed neg b| = |a - b| := by
  cases neg with
  | false => rfl
  | true =>
    show |-a - -b| = |a - b|
    rw [neg_sub_neg, abs_sub_comm]

theorem abs_signed_sub_of_ne {neg neg' : Bool} (h : neg ≠ neg') {a b : ℚ} (ha : 0 ≤ a) (hb : 0 ≤ b) :
    |signed neg a - signed neg' b| = a + b := by
  cases neg with
  | false =>
    cases neg' with
    | false => exact absurd rfl h
    | true =>
      show |a - -b| = a + b
      rw [sub_neg_eq_add, abs_of_nonneg (add_nonneg ha hb)]
  | true =>
    cases neg' with
    | false =>
      show |-a - b| = a + b
      rw [← neg_add', abs_neg, abs_of_nonneg (add_nonneg ha hb)]
    | true => exact absurd rfl h

theorem abs_rat_sub {y : BitVec w} {neg : Bool} (hy : y.msb = neg) (v : ℚ) :
    |rat m bias y - signed neg v| = |value m bias (magnitude y) - v| := by
  rw [rat_eq, hy, abs_signed_sub]

theorem value_zero (hbias : 0 < bias) (m : Nat) : value m bias 0 = 0 := by
  rw [value_eq hbias, units, if_pos (Nat.zero_div _), Nat.cast_zero, zero_div]

/-- A number of the other sign is not nearer than zero. -/
theorem abs_rat_sub_of_ne (hbias : 0 < bias) {y : BitVec w} {neg : Bool} (hy : y.msb ≠ neg) {v : ℚ} (hv : 0 ≤ v) :
    |rat m bias y - signed neg v| = value m bias (magnitude y) + |value m bias 0 - v| := by
  rw [rat_eq, abs_signed_sub_of_ne hy (value_nonneg hbias m _) hv, value_zero hbias, zero_sub, abs_neg, abs_of_nonneg hv]

theorem toNat_mod_two (hw : 1 < w) (x : BitVec w) : x.toNat % 2 = magnitude x % 2 := by
  obtain ⟨v, rfl⟩ : ∃ v, w = v + 2 := ⟨w - 2, by omega⟩
  rw [toNat_eq (by omega), show v + 2 - 1 = v + 1 by omega, Nat.pow_succ, ← Nat.mul_assoc, Nat.add_comm,
    Nat.add_mul_mod_self_right]

section
variable (hbias : 0 < bias) (m k N : Nat)
include hbias

/-- The magnitude is nearest, as a value. -/
theorem value_roundTo_nearest (n : Nat) : |value m bias (roundTo m k N) - N / 2 ^ (bias - 1 + m + k)| ≤
    |value m bias n - N / 2 ^ (bias - 1 + m + k)| := by
  rw [abs_value_sub hbias, abs_value_sub hbias]
  exact (div_le_div_iff_of_pos_right (pow_pos two_pos _)).mpr (Nat.cast_le.mpr (roundTo_nearest m k N n))

theorem value_roundTo_even {n : Nat} (heq : |value m bias n - N / 2 ^ (bias - 1 + m + k)| =
    |value m bias (roundTo m k N) - N / 2 ^ (bias - 1 + m + k)|) (hne : value m bias n ≠ value m bias (roundTo m k N)) :
    roundTo m k N % 2 = 0 := by
  have hpos : (0 : ℚ) < 2 ^ (bias - 1 + m + k) := pow_pos two_pos _
  rw [abs_value_sub hbias, abs_value_sub hbias, div_left_inj' hpos.ne', Nat.cast_inj] at heq
  refine roundTo_even heq fun hunits => hne ?_
  rw [value_eq hbias, value_eq hbias, hunits]

end

/-- **Rounding.** -/
theorem rounded_nearest (hw : 1 < w) (hbias : 0 < bias) (k : Nat) (neg : Bool) {N : Nat}
    (h : roundTo m k N < infinity w m) :
    Nearest m bias (signed neg (N / 2 ^ (bias - 1 + m + k))) (rounded w m k neg N) := by
  obtain ⟨hsign, hmag⟩ := rounded_spec (show 0 < w by omega) m k neg N
  rw [Nat.min_eq_left h.le] at hmag
  have hN : (0 : ℚ) ≤ N / 2 ^ (bias - 1 + m + k) := div_nonneg (Nat.cast_nonneg _) (pow_nonneg zero_le_two _)
  have hself : |rat m bias (rounded w m k neg N) - signed neg (N / 2 ^ (bias - 1 + m + k))| =
      |value m bias (roundTo m k N) - N / 2 ^ (bias - 1 + m + k)| := by
    rw [abs_rat_sub hsign, hmag]
  refine ⟨?_, ?_, ?_⟩
  · rw [Finite, hmag]
    exact h
  · intro y _
    rw [hself]
    by_cases hy : y.msb = neg
    · rw [abs_rat_sub hy]
      exact value_roundTo_nearest hbias m k N _
    · rw [abs_rat_sub_of_ne hbias hy hN]
      have := value_roundTo_nearest hbias m k N 0
      have := value_nonneg hbias m (magnitude y)
      linarith
  · intro y _ heq hne
    rw [hself] at heq
    rw [toNat_mod_two hw, hmag]
    by_cases hy : y.msb = neg
    · rw [abs_rat_sub hy] at heq
      refine value_roundTo_even hbias m k N heq fun hval => hne ?_
      rw [rat_eq, rat_eq, hy, hsign, hmag, hval]
    · -- the other number is zero
      rw [abs_rat_sub_of_ne hbias hy hN] at heq
      have hle := value_roundTo_nearest hbias m k N 0
      have hnonneg := value_nonneg hbias m (magnitude y)
      refine value_roundTo_even hbias m k N (n := 0) (by linarith) fun hval => hne ?_
      have hy0 : value m bias (magnitude y) = 0 := by linarith
      rw [rat_eq, rat_eq, hmag, ← hval, value_zero hbias, hy0]
      unfold signed
      split <;> split <;> simp

end Inca.BinaryFormat
