import Mathlib.Algebra.BigOperators.Ring.Finset
import Mathlib.Data.Rat.Floor
import Mathlib.Tactic.Linarith
import Inca.L2Machine.Dithering

/-!
# The quantiser of the dithering compressor (`compressor/impl/dithering.cc`)

`CompressImpl` rounds a normalised element down to a level or up to the next
one, with one output of the random generator (`levelOf`, `quantize_eq`). The
distance of the two levels is 1 in the linear partition; in the natural one
the levels are 0, 1 and the powers of two, found with `RoundNextPow2`.

* `roundNextPow2_toNat`: the bit trick gives the next power of two.
* `natural_levels`: the two levels of the natural partition, and the element between them.
* `Cell`: the element lies between the two levels, at the fraction that is
  handed to `Bernoulli`.
* `mean_eq`: the average of the level over all outputs of the generator.
* `mean_iff`: for which fractions it is the element, up to `2 ^ -60` of the
  distance; `Bernoulli` compares with four times the fraction.
-/
namespace Inca.L2.Quantizer
open Inca.L2.Compress Inca.L2.Dithering

/-! ## RoundNextPow2 -/

/-- Bit `i` of `v` says whether one of the `n` bits of `y` from `i` on is set. -/
def Covers (v y : BitVec 32) (n : Nat) : Prop :=
  ∀ i, v.getLsbD i = true ↔ ∃ j, i ≤ j ∧ j < i + n ∧ y.getLsbD j = true

theorem covers_self (y : BitVec 32) : Covers y y 1 := by
  intro i
  constructor
  · intro h
    exact ⟨i, Nat.le_refl i, Nat.lt_succ_self i, h⟩
  · intro h
    obtain ⟨j, hij, hji, hj⟩ := h
    rwa [show i = j by omega]

/-- One line of the function. -/
theorem Covers.double {v y : BitVec 32} {n : Nat} (h : Covers v y n) : Covers (v ||| v >>> n) y (2 * n) := by
  intro i
  rw [BitVec.getLsbD_or, BitVec.getLsbD_ushiftRight, Bool.or_eq_true, h i, h (n + i)]
  constructor
  · intro hj
    rcases hj with ⟨j, hij, hji, hj⟩ | ⟨j, hij, hji, hj⟩
    · exact ⟨j, hij, by omega, hj⟩
    · exact ⟨j, by omega, by omega, hj⟩
  · intro hj
    obtain ⟨j, hij, hji, hj⟩ := hj
    by_cases hlt : j < i + n
    · exact .inl ⟨j, hij, hlt, hj⟩
    · exact .inr ⟨j, by omega, by omega, hj⟩

/-- All bits from the leading one down. -/
theorem covers_all {v y : BitVec 32} (h : Covers v y 32) (hy : y.toNat ≠ 0) :
    v.toNat = 2 ^ (y.toNat.log2 + 1) - 1 := by
  have hlog : y.toNat.log2 < 32 := (Nat.log2_lt hy).mpr y.isLt
  have hlt : 2 ^ (y.toNat.log2 + 1) - 1 < 2 ^ 32 := by
    have := Nat.pow_le_pow_right (n := 2) (by decide) (show y.toNat.log2 + 1 ≤ 32 by omega)
    omega
  apply Nat.eq_of_testBit_eq
  intro i
  rw [Nat.testBit_two_pow_sub_one, ← BitVec.getLsbD, Bool.eq_iff_iff, h i, decide_eq_true_eq]
  constructor
  · intro hj
    obtain ⟨j, hij, -, hj⟩ := hj
    have hle : 2 ^ j ≤ y.toNat := Nat.ge_two_pow_of_testBit hj
    have := (Nat.le_log2 hy).mpr hle
    omega
  · intro hi
    exact ⟨y.toNat.log2, by omega, by omega, Nat.testBit_log2 hy⟩

/-- The lines of the function, from `v - 1` on. -/
theorem roundNextPow2_covers (v : BitVec 32) : ∃ u, Covers u (v - 1) 32 ∧ roundNextPow2 v = u + 1 :=
  ⟨_, (covers_self (v - 1)).double.double.double.double.double, rfl⟩

theorem roundNextPow2_toNat {v : BitVec 32} (h1 : 1 < v.toNat) (h2 : v.toNat ≤ 2 ^ 31) :
    (roundNextPow2 v).toNat = 2 ^ ((v.toNat - 1).log2 + 1) := by
  obtain ⟨u, hu, hv⟩ := roundNextPow2_covers v
  have hsub : (v - 1).toNat = v.toNat - 1 := by
    rw [BitVec.toNat_sub_of_le (by rw [BitVec.le_def]; exact h1.le)]
    rfl
  have hall := covers_all hu (by omega)
  rw [hsub] at hall
  have hlog : (v.toNat - 1).log2 < 31 := (Nat.log2_lt (by omega)).mpr (by omega)
  have hpow := Nat.pow_le_pow_right (n := 2) (by decide) (show (v.toNat - 1).log2 + 1 ≤ 31 by omega)
  have hpos := Nat.two_pow_pos ((v.toNat - 1).log2 + 1)
  rw [hv, BitVec.toNat_add, hall, show (1 : BitVec 32).toNat = 1 from rfl]
  omega

/-! ## Levels -/

section Levels
variable {K : Type} [Field K] [LinearOrder K] [FloorSemiring K]

/-- The level below a normalised element.
mirrors byteps/byteps/common/compressor/impl/dithering.cc:76, 91 -/
def floorOf (ptype : PartitionType) (x : K) : Nat :=
  match ptype with
  | .linear => ⌊x⌋₊
  | .natural => (roundNextPow2 (BitVec.ofNat 32 ⌈x⌉₊) >>> 1).toNat

/-- Distance to the level above it.
mirrors byteps/byteps/common/compressor/impl/dithering.cc:77, 92 -/
def lengthOf (ptype : PartitionType) (x : K) : Nat :=
  match ptype with
  | .linear => 1
  | .natural => if floorOf .natural x ≠ 0 then floorOf .natural x else 1

/-- What `Bernoulli` is called with.
mirrors byteps/byteps/common/compressor/impl/dithering.cc:77, 93 -/
def probOf (ptype : PartitionType) (x : K) : K := (x - floorOf ptype x) / lengthOf ptype x

/-- The level of a normalised element for an output of the generator.
mirrors byteps/byteps/common/compressor/impl/dithering.cc:77, 94 -/
def levelOf (ptype : PartitionType) (x : K) (r : BitVec 64) : BitVec 32 :=
  BitVec.ofNat 32 (floorOf ptype x + lengthOf ptype x * (bernoulliOf (probOf ptype x) r).toNat)

/-- The compressor's quantiser draws one output and takes its level. -/
theorem quantize_eq (cfg : Cfg) (scale : K) (rng : Rng) (x : K) :
    quantize cfg scale rng x =
      (levelOf cfg.ptype (|x| / scale * (cfg.levels.toNat : K)) rng.xorshift128p.1, rng.xorshift128p.2) := by
  unfold quantize
  cases cfg.ptype with
  | linear => simp [levelOf, floorOf, lengthOf, probOf, bernoulli_eq]
  | natural =>
    obtain ⟨floor, hfloor⟩ : ∃ f, roundNextPow2 (BitVec.ofNat 32 ⌈|x| / scale * (cfg.levels.toNat : K)⌉₊) >>> 1 = f :=
      ⟨_, rfl⟩
    have hnat : floorOf .natural (|x| / scale * (cfg.levels.toNat : K)) = floor.toNat := by rw [← hfloor]; rfl
    simp only [levelOf, lengthOf, probOf, bernoulli_eq, hnat, hfloor]
    by_cases h0 : floor = 0
    · simp [h0]
    · have h0' : floor.toNat ≠ 0 := fun h => h0 (BitVec.eq_of_toNat_eq h)
      simp only [ne_eq, h0, h0', not_false_eq_true, if_true, BitVec.ofNat_add, BitVec.ofNat_mul,
        BitVec.ofNat_toNat, BitVec.setWidth_eq]

theorem lengthOf_pos (ptype : PartitionType) (x : K) : 0 < lengthOf ptype x := by
  cases ptype with
  | linear => exact Nat.one_pos
  | natural =>
    show 0 < if floorOf .natural x ≠ 0 then floorOf .natural x else 1
    split
    · omega
    · exact Nat.one_pos

variable [IsStrictOrderedRing K]

/-- The element is between the two levels, and the upper one fits a word. -/
structure Cell (ptype : PartitionType) (x : K) : Prop where
  floor_le : (floorOf ptype x : K) ≤ x
  le_add : x ≤ floorOf ptype x + lengthOf ptype x
  lt : floorOf ptype x + lengthOf ptype x < 2 ^ 32

omit [IsStrictOrderedRing K] in
theorem cell_linear {x : K} (h0 : 0 ≤ x) (hx : x < 2 ^ 32 - 1) : Cell .linear x where
  floor_le := Nat.floor_le h0
  le_add := by
    show x ≤ (⌊x⌋₊ : K) + ((1 : Nat) : K)
    rw [Nat.cast_one]
    exact (Nat.lt_floor_add_one x).le
  lt := by
    have : ⌊x⌋₊ < 2 ^ 32 - 1 := (Nat.floor_lt h0).mpr (by norm_num at hx ⊢; exact hx)
    show ⌊x⌋₊ + 1 < 2 ^ 32
    omega

omit [IsStrictOrderedRing K] in
/-- The levels of the natural partition around an element. -/
theorem floorOf_natural {x : K} (hx : x ≤ 2 ^ 31) : floorOf .natural x =
    if ⌈x⌉₊ ≤ 1 then 0 else 2 ^ (⌈x⌉₊ - 1).log2 := by
  have hc : ⌈x⌉₊ ≤ 2 ^ 31 := Nat.ceil_le.mpr (by norm_num at hx ⊢; exact hx)
  show (roundNextPow2 (BitVec.ofNat 32 ⌈x⌉₊) >>> 1).toNat = _
  by_cases h1 : ⌈x⌉₊ ≤ 1
  · rw [if_pos h1]
    rcases Nat.le_one_iff_eq_zero_or_eq_one.mp h1 with h | h
    · rw [h]; decide
    · rw [h]; decide
  · rw [if_neg h1]
    have hword : (BitVec.ofNat 32 ⌈x⌉₊).toNat = ⌈x⌉₊ := by
      rw [BitVec.toNat_ofNat]
      omega
    rw [BitVec.toNat_ushiftRight, roundNextPow2_toNat (by omega) (by omega), hword, Nat.shiftRight_eq_div_pow,
      Nat.pow_succ, Nat.pow_one, Nat.mul_div_cancel _ (by decide)]

omit [IsStrictOrderedRing K] in
/-- The cell of an element is `[0, 1]`, or between two powers of two. -/
theorem natural_cases {x : K} (hx : x ≤ 2 ^ 31) :
    floorOf .natural x = 0 ∧ lengthOf .natural x = 1 ∧ ⌈x⌉₊ ≤ 1 ∨
      ∃ j < 31, floorOf .natural x = 2 ^ j ∧ lengthOf .natural x = 2 ^ j ∧ 2 ^ j < ⌈x⌉₊ ∧ ⌈x⌉₊ ≤ 2 ^ (j + 1) := by
  have hfloor := floorOf_natural hx
  have hc : ⌈x⌉₊ ≤ 2 ^ 31 := Nat.ceil_le.mpr (by norm_num at hx ⊢; exact hx)
  by_cases h1 : ⌈x⌉₊ ≤ 1
  · left
    rw [if_pos h1] at hfloor
    exact ⟨hfloor, by simp [lengthOf, hfloor], h1⟩
  · right
    rw [if_neg h1] at hfloor
    have hne : ⌈x⌉₊ - 1 ≠ 0 := by omega
    have hpos := Nat.two_pow_pos (⌈x⌉₊ - 1).log2
    refine ⟨(⌈x⌉₊ - 1).log2, (Nat.log2_lt hne).mpr (by omega), hfloor, ?_, ?_, ?_⟩
    · unfold lengthOf
      rw [if_pos (by omega), hfloor]
    · have := Nat.log2_self_le hne
      omega
    · have := Nat.lt_log2_self (n := ⌈x⌉₊ - 1)
      omega

theorem cell_natural {x : K} (h0 : 0 ≤ x) (hx : x ≤ 2 ^ 31) : Cell .natural x := by
  have hle : x ≤ (⌈x⌉₊ : K) := Nat.le_ceil x
  rcases natural_cases hx with ⟨hfloor, hlen, h1⟩ | ⟨j, hj, hfloor, hlen, hlow, hhigh⟩
  · have h1' : (⌈x⌉₊ : K) ≤ 1 := by exact_mod_cast h1
    refine ⟨?_, ?_, ?_⟩
    · rw [hfloor, Nat.cast_zero]
      exact h0
    · rw [hfloor, hlen, Nat.cast_zero, Nat.cast_one, zero_add]
      exact hle.trans h1'
    · rw [hfloor, hlen]
      decide
  · have hpow : 2 ^ j < 2 ^ 31 := Nat.pow_lt_pow_right (Nat.lt_succ_self 1) hj
    refine ⟨?_, ?_, ?_⟩
    · rw [hfloor]
      exact (Nat.lt_ceil.mp hlow).le
    · rw [hfloor, hlen, ← Nat.cast_add, ← Nat.two_mul, ← Nat.pow_succ']
      exact hle.trans (Nat.cast_le.mpr hhigh)
    · rw [hfloor, hlen]
      omega

omit [IsStrictOrderedRing K] in
theorem levelOf_toNat {ptype : PartitionType} {x : K} (h : floorOf ptype x + lengthOf ptype x < 2 ^ 32) (r : BitVec 64) :
    (levelOf ptype x r).toNat = floorOf ptype x + lengthOf ptype x * (bernoulliOf (probOf ptype x) r).toNat := by
  rw [levelOf, BitVec.toNat_ofNat, Nat.mod_eq_of_lt]
  cases bernoulliOf (probOf ptype x) r with
  | false => simp; omega
  | true => simpa using h

/-- The fraction that is handed to `Bernoulli`. -/
theorem Cell.prob {ptype : PartitionType} {x : K} (h : Cell ptype x) :
    0 ≤ probOf ptype x ∧ probOf ptype x ≤ 1 ∧ x = floorOf ptype x + lengthOf ptype x * probOf ptype x := by
  have hpos : (0 : K) < lengthOf ptype x := by exact_mod_cast lengthOf_pos ptype x
  have hfl := h.floor_le
  have hle := h.le_add
  unfold probOf
  refine ⟨div_nonneg (by linarith) hpos.le, (div_le_one hpos).mpr (by linarith), ?_⟩
  rw [mul_div_cancel₀ _ hpos.ne']
  ring

end Levels

/-! ## The mean -/

/-- The average level over all outputs of the generator. -/
def mean (ptype : PartitionType) (x : ℚ) : ℚ :=
  (∑ r ∈ Finset.range (2 ^ 64), ((levelOf ptype x (BitVec.ofNat 64 r)).toNat : ℚ)) / 2 ^ 64

/-- Numbers below `n` and below `t`. -/
theorem card_lt (n : Nat) (t : ℚ) : ((Finset.range n).filter fun r : Nat => (r : ℚ) < t).card = min n ⌈t⌉₊ := by
  have : (Finset.range n).filter (fun r : Nat => (r : ℚ) < t) = Finset.range (min n ⌈t⌉₊) := by
    ext r
    rw [Finset.mem_filter, Finset.mem_range, Finset.mem_range, Nat.lt_min, Nat.lt_ceil]
  rw [this, Finset.card_range]

/-- Two levels, the upper one for the outputs below `t`. -/
theorem sum_two_levels (n floor length : Nat) (t : ℚ) :
    ∑ r ∈ Finset.range n, ((floor + length * (decide ((r : ℚ) < t)).toNat : Nat) : ℚ) =
      n * floor + length * (min n ⌈t⌉₊ : Nat) := by
  have hone : ∀ r : Nat, ((floor + length * (decide ((r : ℚ) < t)).toNat : Nat) : ℚ) =
      floor + length * (if (r : ℚ) < t then 1 else 0) := by
    intro r
    by_cases h : (r : ℚ) < t
    · simp [h]
    · simp [h]
  rw [Finset.sum_congr rfl fun r _ => hone r, Finset.sum_add_distrib, Finset.sum_const, Finset.card_range,
    nsmul_eq_mul, ← Finset.mul_sum, Finset.sum_boole, card_lt]

theorem mean_eq {ptype : PartitionType} {x : ℚ} (h : Cell ptype x) :
    mean ptype x = floorOf ptype x + lengthOf ptype x *
      ((min (2 ^ 64) ⌈probOf ptype x * (2 ^ 64 - 1) * 4⌉₊ : Nat) : ℚ) / 2 ^ 64 := by
  have hsum : ∑ r ∈ Finset.range (2 ^ 64), ((levelOf ptype x (BitVec.ofNat 64 r)).toNat : ℚ) =
      ∑ r ∈ Finset.range (2 ^ 64), ((floorOf ptype x + lengthOf ptype x *
        (decide ((r : ℚ) < probOf ptype x * (2 ^ 64 - 1) * 4)).toNat : Nat) : ℚ) := by
    refine Finset.sum_congr rfl fun r hr => ?_
    have hr : (BitVec.ofNat 64 r).toNat = r := by
      rw [BitVec.toNat_ofNat, Nat.mod_eq_of_lt (Finset.mem_range.mp hr)]
    rw [levelOf_toNat h.lt, bernoulliOf, hr]
  rw [mean, hsum, sum_two_levels]
  push_cast
  ring

theorem shiftLeft_le {s : BitVec 32} (hs : s.toNat ≤ 31) : (1#32 <<< (s - 1)).toNat ≤ 2 ^ 31 := by
  by_cases h0 : s.toNat = 0
  · -- a shift by `2 ^ 32 - 1`
    rw [show s = 0 from BitVec.eq_of_toNat_eq h0, BitVec.shiftLeft_eq', BitVec.shiftLeft_eq_zero (by decide)]
    decide
  · have hsub : (s - 1).toNat = s.toNat - 1 := by
      rw [BitVec.toNat_sub_of_le (by rw [BitVec.le_def]; exact Nat.one_le_iff_ne_zero.mpr h0)]
      rfl
    rw [BitVec.shiftLeft_eq', BitVec.toNat_shiftLeft, hsub, Nat.shiftLeft_eq]
    calc
      (1#32).toNat * 2 ^ (s.toNat - 1) % 2 ^ 32 ≤ 1 * 2 ^ (s.toNat - 1) := Nat.mod_le _ _
      _ = 2 ^ (s.toNat - 1) := Nat.one_mul _
      _ ≤ 2 ^ 31 := Nat.pow_le_pow_right (by decide) (by omega)

/-- `n` is zero or a power of two, and not above the highest level. -/
def IsLevel (s n : Nat) : Prop := n = 0 ∨ ∃ j, n = 2 ^ j ∧ n ≤ 2 ^ (s - 1)

/-- **The natural partition.** -/
theorem natural_levels {s : Nat} (hs : 1 ≤ s) (hs' : s ≤ 31) {y : ℚ} (h0 : 0 ≤ y) (hy : y ≤ 2 ^ (s - 1)) :
    (floorOf .natural y : ℚ) ≤ y ∧ y ≤ floorOf .natural y + lengthOf .natural y ∧
      IsLevel s (floorOf .natural y) ∧ IsLevel s (floorOf .natural y + lengthOf .natural y) := by
  have hbound : (2 : ℚ) ^ (s - 1) ≤ 2 ^ 31 := pow_le_pow_right₀ one_le_two (by omega)
  have hceil : ⌈y⌉₊ ≤ 2 ^ (s - 1) := Nat.ceil_le.mpr (by exact_mod_cast hy)
  obtain ⟨hlow, hhigh, -⟩ := cell_natural h0 (hy.trans hbound)
  refine ⟨hlow, hhigh, ?_⟩
  rcases natural_cases (hy.trans hbound) with ⟨hfloor, hlen, -⟩ | ⟨j, -, hfloor, hlen, hlt, -⟩
  · rw [hfloor, hlen]
    exact ⟨.inl rfl, .inr ⟨0, rfl, Nat.one_le_two_pow⟩⟩
  · -- the lower level is below the highest one, so the next power is not above it
    have hj : j < s - 1 := (Nat.pow_lt_pow_iff_right (Nat.lt_succ_self 1)).mp (hlt.trans_le hceil)
    rw [hfloor, hlen, ← Nat.two_mul, ← Nat.pow_succ']
    exact ⟨.inr ⟨j, rfl, Nat.pow_le_pow_right Nat.two_pos hj.le⟩, .inr ⟨j + 1, rfl, Nat.pow_le_pow_right Nat.two_pos hj⟩⟩

theorem natural_levels_five : (floorOf .natural (3 / 2 : ℚ) : ℚ) ≤ 3 / 2 ∧ IsLevel 5 (floorOf .natural (3 / 2 : ℚ)) := by
  obtain ⟨hlow, -, hlevel, -⟩ := natural_levels (show 1 ≤ 5 by omega) (by omega) (y := 3 / 2) (by norm_num) (by norm_num)
  exact ⟨hlow, hlevel⟩

/-- The quantiser's range: every element of a gradient is normalised to one. -/
theorem cell_of_le_levels (cfg : Cfg) (hs : cfg.s.toNat ≤ 31) {x : ℚ} (h0 : 0 ≤ x) (hx : x ≤ cfg.levels.toNat) :
    Cell cfg.ptype x := by
  obtain ⟨s, ptype, ntype⟩ := cfg
  cases ptype with
  | linear =>
    have hs' : (s.toNat : ℚ) ≤ 31 := by exact_mod_cast hs
    have hx' : x ≤ s.toNat := hx
    exact cell_linear h0 (by norm_num; linarith)
  | natural =>
    refine cell_natural h0 (hx.trans ?_)
    exact_mod_cast shiftLeft_le hs

/-- The average is the normalised element, up to `2 ^ -60` of the distance of
the levels, for fractions that near 1 or so small that one more output of the
generator counts as much as the factor 4. -/
theorem mean_iff (cfg : Cfg) (hs : cfg.s.toNat ≤ 31) (x : ℚ) (h0 : 0 ≤ x) (hx : x ≤ cfg.levels.toNat) :
    |mean cfg.ptype x - x| ≤ lengthOf cfg.ptype x * (1 / 2 ^ 60) ↔
      1 - probOf cfg.ptype x ≤ 1 / 2 ^ 60 ∨
        (⌈probOf cfg.ptype x * (2 ^ 64 - 1) * 4⌉₊ : ℚ) ≤ probOf cfg.ptype x * 2 ^ 64 + 16 := by
  have hcell := cell_of_le_levels cfg hs h0 hx
  obtain ⟨hp0, hp1, hxp⟩ := hcell.prob
  have hlen : (0 : ℚ) < lengthOf cfg.ptype x := by exact_mod_cast lengthOf_pos cfg.ptype x
  have hmean := mean_eq hcell
  generalize probOf cfg.ptype x = p at *
  generalize (lengthOf cfg.ptype x : ℚ) = length at *
  generalize (floorOf cfg.ptype x : ℚ) = floor at *
  have hm : p * (2 ^ 64 - 1) * 4 ≤ (⌈p * (2 ^ 64 - 1) * 4⌉₊ : ℚ) := Nat.le_ceil _
  generalize ⌈p * (2 ^ 64 - 1) * 4⌉₊ = m at *
  -- the average is never below the element
  have hbias : mean cfg.ptype x - x = length * (((min (2 ^ 64) m : Nat) : ℚ) / 2 ^ 64 - p) := by
    rw [hmean, hxp]
    ring
  have hcast : ((min (2 ^ 64) m : Nat) : ℚ) = min (2 ^ 64) (m : ℚ) := by push_cast; rfl
  have hnonneg : 0 ≤ ((min (2 ^ 64) m : Nat) : ℚ) / 2 ^ 64 - p := by
    rw [hcast, sub_nonneg, le_div_iff₀ (by positivity)]
    refine le_min ?_ ?_
    · linarith
    · linarith
  rw [hbias, abs_of_nonneg (mul_nonneg hlen.le hnonneg), mul_le_mul_iff_right₀ hlen, sub_le_iff_le_add,
    div_le_iff₀ (by positivity), hcast, min_le_iff]
  constructor
  · intro h
    cases h with
    | inl h => left; linarith
    | inr h => right; linarith
  · intro h
    cases h with
    | inl h => left; linarith
    | inr h => right; linarith

theorem probOf_natural_four : probOf .natural (4 : ℚ) = 1 := by
  have hfloor : floorOf .natural (4 : ℚ) = 2 := by
    rw [floorOf_natural (by norm_num), Nat.ceil_ofNat]
    decide
  unfold probOf lengthOf
  norm_num [hfloor]

theorem mean_four : |mean .natural 4 - 4| ≤ lengthOf .natural (4 : ℚ) * (1 / 2 ^ 60) := by
  refine (mean_iff ⟨3, .natural, .max⟩ (by decide) 4 (by norm_num) ?_).mpr (.inl ?_)
  · have : (Cfg.levels ⟨3, .natural, .max⟩).toNat = 4 := by decide
    rw [this]
    norm_num
  · rw [probOf_natural_four]
    norm_num

/-- An element half way between the levels 0 and 1 is always rounded up. -/
theorem mean_counterexample : (0 : ℚ) ≤ 1 / 2 ∧ (1 / 2 : ℚ) ≤ (Cfg.levels ⟨1, .linear, .max⟩).toNat ∧
    mean .linear (1 / 2) = 1 ∧ ¬|mean .linear (1 / 2) - 1 / 2| ≤ lengthOf .linear (1 / 2 : ℚ) * (1 / 2 ^ 60) := by
  have hlevels : (Cfg.levels ⟨1, .linear, .max⟩).toNat = 1 := by decide
  have hcell : Cell .linear (1 / 2 : ℚ) := cell_linear (by norm_num) (by norm_num)
  have hfloor : floorOf .linear (1 / 2 : ℚ) = 0 := by
    show ⌊(1 / 2 : ℚ)⌋₊ = 0
    exact Nat.floor_eq_zero.mpr (by norm_num)
  have hmean : mean .linear (1 / 2) = 1 := by
    have hall : 2 ^ 64 ≤ ⌈probOf .linear (1 / 2 : ℚ) * (2 ^ 64 - 1) * 4⌉₊ := by
      refine Nat.cast_le.mp (le_trans ?_ (Nat.le_ceil _))
      unfold probOf lengthOf
      rw [hfloor]
      norm_num
    rw [mean_eq hcell, Nat.min_eq_left hall, hfloor]
    unfold lengthOf
    norm_num
  refine ⟨by norm_num, ?_, hmean, ?_⟩
  · rw [hlevels]
    norm_num
  · rw [hmean]
    unfold lengthOf
    norm_num

end Inca.L2.Quantizer
