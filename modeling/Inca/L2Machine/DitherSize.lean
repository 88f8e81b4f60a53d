import Inca.L1Encoding.BitWords
import Inca.L2Machine.LevelStream
import Inca.L2Machine.Quantizer

/-!
# The size of a dithered gradient (`compressor/impl/dithering.cc`)

With the linear partition and the maximum as the norm an element's level is at
most `k`. An element costs the code of its gap, a sign and the code of its
level. A gap of `g` leaves `g - 1` elements out, and its code is never longer
than what these would have cost, so the longest stream is that of a gradient
whose elements are all equal.

`RunCompressLoopOnce` fails if the result is larger than the gradient, and the
buffer that the stream is written to is not larger either.

The level is computed in `double` and `float`. All that is used of these is that
rounding keeps the order, and which numbers are not rounded (`Rounding`); exact
arithmetic is one instance.

* `length_codeOf_le`, `le_length_codeOf`: the length of a stream.
* `Rounding.level_le`, `Rounding.level_quarter`: levels in rounded arithmetic.
* `sizeOf_le`, `sizeOf_ones`: the largest size, and a gradient that has it.
* `fits_iff`: for which `k` and which lengths it fits; for all lengths from 32
  on, if `k` is below `2 ^ 20`.
-/
namespace Inca.L2.DitherSize
open Inca.BitList Inca.L1.BitStream Inca.L1.BitWords Inca.L2.Compress Inca.L2.Dithering Inca.L2.Quantizer Inca.L2.LevelStream

/-! ## Compress with given draws -/

/-- What `Compress` returns as the size.
mirrors byteps/byteps/common/compressor/impl/dithering.cc:70-116 -/
def sizeOf (levels : Nat → Level) (len : Nat) : Nat :=
  compressedSize 32 (floatBlocks (writeLevels (fun _ => 0) levels len).writer.flush)

section Compress
variable {K : Type} [Field K] [LinearOrder K]

/-- Conversions of real numbers to `double` and `float`: they keep the order, and numbers of 53 and of
24 bits keep their value. -/
structure Rounding (K : Type) [Field K] [LinearOrder K] where
  double : K → K
  float : K → K
  double_mono : Monotone double
  float_mono : Monotone float
  double_exact : ∀ m : Nat, m ≤ 2 ^ 53 → double ((m : K) / (4 : Nat)) = (m : K) / (4 : Nat)
  float_exact : ∀ m j : Nat, m ≤ 2 ^ 24 → j ≤ 32 → float ((m * 2 ^ j : Nat) : K) = (m * 2 ^ j : Nat)

def Rounding.exact : Rounding K := ⟨id, id, monotone_id, monotone_id, fun _ _ => rfl, fun _ _ _ _ => rfl⟩

/-- mirrors byteps/byteps/common/compressor/utils.h:91 -/
def Rounding.bernoulli (R : Rounding K) (p : K) (r : BitVec 64) : Bool :=
  R.double r.toNat < R.double (R.double (p * R.double (2 ^ 64 - 1 : Nat)) * (4 : Nat))

theorem Rounding.exact_bernoulli [IsStrictOrderedRing K] (p : K) (r : BitVec 64) :
    Rounding.exact.bernoulli p r = bernoulliOf p r := by
  have hmax : ((2 ^ 64 - 1 : Nat) : K) = 2 ^ 64 - 1 := by norm_num
  have hfour : ((4 : Nat) : K) = 4 := Nat.cast_ofNat
  unfold bernoulliOf
  rw [← hmax, ← hfour]
  rfl

/-- mirrors byteps/byteps/common/compressor/impl/dithering.cc:74-75 -/
def Rounding.normalized (R : Rounding K) (k : BitVec 32) (scale x : K) : K :=
  R.float (R.double (R.double (|x| / scale) * k.toNat))

variable [FloorSemiring K]

/-- The sum is a `float`; its conversion to `unsigned` is undefined from `2 ^ 32` on.
mirrors byteps/byteps/common/compressor/impl/dithering.cc:74-77 -/
def Rounding.level (R : Rounding K) (k : BitVec 32) (scale x : K) (r : BitVec 64) : BitVec 32 :=
  let normalized := R.normalized k scale x
  let floor := ⌊normalized⌋₊
  BitVec.ofNat 32 ⌊R.float (floor + (R.bernoulli (R.float (normalized - floor)) r).toNat : Nat)⌋₊

/-- Signs and levels; the generator's output for element `i` is `draws i`.
mirrors byteps/byteps/common/compressor/impl/dithering.cc:57-61, 73-82 -/
def Rounding.levels (R : Rounding K) (k : BitVec 32) (len : Nat) (src : Nat → K) (draws : Nat → BitVec 64) (i : Nat) :
    Level :=
  ⟨decide (src i < 0), R.level k (scaleOf id .max len src) (src i) (draws i)⟩

/-- `sizeOf` is the size of the tensor that the compressor returns. -/
theorem compress_size {sqrt : K → K} {cfg : Cfg} {sh : Shape} {src : Nat → K} {rng rng' : Rng} {t : Tensor K}
    (h : compress sqrt cfg sh rng src = .ok (rng', t)) :
    t.size = sizeOf (drawn cfg (scaleOf sqrt cfg.ntype sh.len src) src rng) sh.len := by
  have hshape := sh.bytes_lt
  obtain ⟨hwr, -⟩ := encode_levels cfg (scaleOf sqrt cfg.ntype sh.len src) src rng (show sh.len ≤ 2 ^ 63 by omega)
  obtain ⟨hbits, rfl⟩ := compress_ok cfg sqrt h
  rw [sizeOf, ← hwr, floatBlocks, roundBits_of_lt (by decide) hbits]
  rfl

theorem Rounding.exact_level [IsStrictOrderedRing K] (k : BitVec 32) (scale x : K) (r : BitVec 64) :
    Rounding.exact.level k scale x r = levelOf .linear (|x| / scale * (k.toNat : K)) r := by
  simp only [Rounding.level, Rounding.exact_bernoulli]
  simp only [Rounding.normalized, Rounding.exact, id_eq, Nat.floor_natCast, levelOf, floorOf, lengthOf, probOf,
    Nat.one_mul, Nat.cast_one, div_one]

/-- In exact arithmetic these are the levels that the compressor draws. -/
theorem drawn_exact [IsStrictOrderedRing K] (sqrt : K → K) (k : BitVec 32) (len : Nat) (src : Nat → K) (rng : Rng) :
    drawn ⟨k, .linear, .max⟩ (scaleOf sqrt .max len src) src rng = Rounding.exact.levels k len src fun i =>
      (rngAt ⟨k, .linear, .max⟩ (scaleOf sqrt .max len src) src rng i).xorshift128p.1 := by
  have hscale : scaleOf sqrt .max len src = scaleOf id .max len src := rfl
  funext i
  rw [drawn, quantize_eq, Rounding.levels, Rounding.exact_level, hscale]
  rfl

end Compress

/-! ## Streams -/

theorem length_eliasDelta (x : Nat) : (eliasDelta x).length = 2 * (1 + x.log2).log2 + 1 + x.log2 := by
  simp only [eliasDelta_eq, List.length_append, List.length_replicate, List.length_cons, msbBits_length]
  omega

theorem length_eliasDelta_mono {x y : Nat} (h : x ≤ y) : (eliasDelta x).length ≤ (eliasDelta y).length := by
  have hlog := log2_mono h
  have hlog' : (1 + x.log2).log2 ≤ (1 + y.log2).log2 := log2_mono (by omega)
  rw [length_eliasDelta, length_eliasDelta]
  omega

theorem log2_lt_self {x : Nat} (h : 0 < x) : x.log2 < x :=
  (Nat.log2_lt h.ne').mpr Nat.lt_two_pow_self

/-- Three bits for every element that a gap leaves out. -/
theorem length_eliasDelta_le {x : Nat} (h : 0 < x) : (eliasDelta x).length ≤ 3 * (x - 1) + 1 := by
  have hlog := log2_lt_self h
  have hlog' := log2_lt_self (show 0 < 1 + x.log2 by omega)
  rw [length_eliasDelta]
  omega

/-- The bits of an element of level `k` behind its neighbour. -/
def costOf (k : Nat) : Nat := 2 + (eliasDelta k).length

theorem three_le_costOf (k : Nat) : 3 ≤ costOf k := by
  rw [costOf, length_eliasDelta]
  omega

theorem le_lastPos {last : Int} {tks : List Token} (hg : Growing last tks) : last ≤ lastPos last tks := by
  induction tks generalizing last with
  | nil => exact Int.le_refl last
  | cons tk tks ih =>
    have := ih hg.2.2
    have := hg.1
    rw [lastPos]
    omega

theorem length_code_le {last : Int} {tk : Token} {k : Nat} (hlt : last < tk.pos) (hk : tk.quantized.toNat ≤ k) :
    (tk.code last).length ≤ (tk.pos - last).toNat * costOf k := by
  have hgap := length_eliasDelta_le (show 0 < (tk.pos - last).toNat by omega)
  have hlevel := length_eliasDelta_mono hk
  have hcost := three_le_costOf k
  obtain ⟨g, hg⟩ : ∃ g, (tk.pos - last).toNat = g + 1 := ⟨(tk.pos - last).toNat - 1, by omega⟩
  rw [hg] at hgap ⊢
  have hskip : g * 3 ≤ g * costOf k := Nat.mul_le_mul_left g hcost
  rw [Token.code, List.length_append, List.length_cons, hg, Nat.add_mul, Nat.one_mul, costOf] at *
  omega

theorem le_length_code (last : Int) (tk : Token) {m : Nat} (hm : m ≤ tk.quantized.toNat) :
    costOf m ≤ (tk.code last).length := by
  have hgap := length_eliasDelta (tk.pos - last).toNat
  have hlevel := length_eliasDelta_mono hm
  rw [Token.code, List.length_append, List.length_cons, costOf]
  omega

/-- **Length.** Every position up to the last one is paid for at most once. -/
theorem length_codeOf_le {last : Int} {tks : List Token} {k : Nat} (hg : Growing last tks)
    (hk : ∀ tk ∈ tks, tk.quantized.toNat ≤ k) :
    (codeOf last tks).length ≤ (lastPos last tks - last).toNat * costOf k := by
  induction tks generalizing last with
  | nil => exact Nat.zero_le _
  | cons tk tks ih =>
    obtain ⟨hlt, -, hg⟩ := hg
    obtain ⟨hk, hk'⟩ := List.forall_mem_cons.mp hk
    have hle := le_lastPos hg
    have hsplit : (lastPos last (tk :: tks) - last).toNat =
        (tk.pos - last).toNat + (lastPos tk.pos tks - tk.pos).toNat := by
      rw [lastPos]
      omega
    rw [codeOf, List.length_append, hsplit, Nat.add_mul]
    exact Nat.add_le_add (length_code_le hlt hk) (ih hg hk')

theorem tokens_succ {levels : Nat → Level} {len : Nat} (h : 0 < (levels len).quantized.toNat) :
    tokens levels (len + 1) = tokens levels len ++ [⟨len, (levels len).signbit, (levels len).quantized⟩] := by
  refine if_pos ?_
  intro h0
  rw [h0] at h
  exact absurd h (by decide)

/-- All levels are `k`. -/
theorem length_codeOf_eq {levels : Nat → Level} {k len : Nat} (hk0 : 0 < k)
    (hk : ∀ i < len, (levels i).quantized.toNat = k) :
    (codeOf (-1) (tokens levels len)).length = len * costOf k ∧ lastPos (-1) (tokens levels len) = len - 1 := by
  induction len with
  | zero => exact ⟨(Nat.zero_mul _).symm, rfl⟩
  | succ len ih =>
    obtain ⟨hlen, hlast⟩ := ih fun i hi => hk i (by omega)
    have hq : (levels len).quantized.toNat = k := hk len (by omega)
    have htk := tokens_succ (show 0 < (levels len).quantized.toNat by omega)
    have hgap : ((len : Int) - (len - 1)).toNat = 1 := by omega
    have hone : (eliasDelta 1).length = 1 := by decide
    refine ⟨?_, ?_⟩
    · rw [htk, codeOf_concat, List.length_append, hlen, Token.code, List.length_append, List.length_cons, hlast,
        hgap, hone, hq, Nat.add_mul, Nat.one_mul, costOf]
      omega
    · rw [htk, lastPos_concat]
      show (len : Int) = ((len + 1 : Nat) : Int) - 1
      omega

/-- Levels from `m` on, except that of the first element. -/
theorem le_length_codeOf {levels : Nat → Level} {m len : Nat} (hm0 : 0 < m)
    (hm : ∀ i, 0 < i → i < len → m ≤ (levels i).quantized.toNat) :
    (len - 1) * costOf m ≤ (codeOf (-1) (tokens levels len)).length := by
  induction len with
  | zero => exact (Nat.zero_mul _).le.trans (Nat.zero_le _)
  | succ len ih =>
    cases len with
    | zero => exact (Nat.zero_mul _).le.trans (Nat.zero_le _)
    | succ len =>
      have hlen := ih fun i h0 hi => hm i h0 (by omega)
      have hq := hm (len + 1) (by omega) (by omega)
      have hcode := le_length_code (lastPos (-1) (tokens levels (len + 1)))
        ⟨len + 1, (levels (len + 1)).signbit, (levels (len + 1)).quantized⟩ hq
      rw [tokens_succ (by omega), codeOf_concat, List.length_append, Nat.add_sub_cancel, Nat.add_mul, Nat.one_mul]
      exact Nat.add_le_add hlen hcode

/-! ## Rounded levels -/

section Levels
variable {K : Type} [Field K] [LinearOrder K]

/-- The maximum, as the loop computes it. -/
theorem foldl_max (l : List Nat) (src : Nat → K) (a : K) :
    a ≤ l.foldl (fun scale i => if scale > |src i| then scale else |src i|) a ∧
      ∀ i ∈ l, |src i| ≤ l.foldl (fun scale i => if scale > |src i| then scale else |src i|) a := by
  induction l generalizing a with
  | nil => exact ⟨le_refl a, fun i hi => by cases hi⟩
  | cons j l ih =>
    obtain ⟨ha, hl⟩ := ih (if a > |src j| then a else |src j|)
    have hmax : a ≤ (if a > |src j| then a else |src j|) ∧ |src j| ≤ if a > |src j| then a else |src j| := by
      split
      · next h => exact ⟨le_refl a, h.le⟩
      · next h => exact ⟨not_lt.mp h, le_refl _⟩
    refine ⟨hmax.1.trans ha, ?_⟩
    intro i hi
    cases hi with
    | head => exact hmax.2.trans ha
    | tail _ hi => exact hl i hi

theorem foldl_max_le {l : List Nat} {src : Nat → K} {a b : K} (ha : a ≤ b) (hl : ∀ i ∈ l, |src i| ≤ b) :
    l.foldl (fun scale i => if scale > |src i| then scale else |src i|) a ≤ b := by
  induction l generalizing a with
  | nil => exact ha
  | cons j l ih =>
    obtain ⟨hj, hl⟩ := List.forall_mem_cons.mp hl
    rw [List.foldl_cons]
    split
    · exact ih ha hl
    · exact ih hj hl

theorem scaleOf_max (len : Nat) (src : Nat → K) :
    0 ≤ scaleOf id .max len src ∧ ∀ i < len, |src i| ≤ scaleOf id .max len src := by
  obtain ⟨hscale, hle⟩ := foldl_max (List.range len) src 0
  exact ⟨hscale, fun i hi => hle i (List.mem_range.mpr hi)⟩

theorem scaleOf_eq_one [IsStrictOrderedRing K] {len j : Nat} {src : Nat → K} (hle : ∀ i < len, |src i| ≤ 1) (hj : j < len)
    (h1 : |src j| = 1) : scaleOf id .max len src = 1 := by
  refine le_antisymm (foldl_max_le zero_le_one fun i hi => hle i (List.mem_range.mp hi)) ?_
  rw [← h1]
  exact (scaleOf_max len src).2 j hj

namespace Rounding
variable (R : Rounding K)

theorem float_natCast {n : Nat} (hn : n ≤ 2 ^ 24) : R.float (n : K) = n := by
  have h := R.float_exact n 0 hn (by decide)
  rwa [Nat.pow_zero, Nat.mul_one] at h

theorem float_zero : R.float 0 = 0 := by
  have h := R.float_natCast (show 0 ≤ 2 ^ 24 by decide)
  rwa [Nat.cast_zero] at h

theorem float_two_pow {j : Nat} (hj : j ≤ 32) : R.float ((2 ^ j : Nat) : K) = (2 ^ j : Nat) := by
  have h := R.float_exact 1 j (by decide) hj
  rwa [Nat.one_mul] at h

theorem level_eq [FloorSemiring K] (k : BitVec 32) (scale x : K) (r : BitVec 64) : ∃ b : Bool,
    R.level k scale x r = BitVec.ofNat 32 ⌊R.float (⌊R.normalized k scale x⌋₊ + b.toNat : Nat)⌋₊ :=
  ⟨_, rfl⟩

variable [IsStrictOrderedRing K]

theorem double_natCast {n : Nat} (hn : n ≤ 2 ^ 51) : R.double (n : K) = n := by
  have h := R.double_exact (4 * n) (by omega)
  rwa [Nat.cast_mul, mul_div_cancel_left₀ _ (by norm_num)] at h

theorem double_zero : R.double 0 = 0 := by
  have h := R.double_natCast (show 0 ≤ 2 ^ 51 by decide)
  rwa [Nat.cast_zero] at h

theorem double_one : R.double 1 = 1 := by
  have h := R.double_natCast (show 1 ≤ 2 ^ 51 by decide)
  rwa [Nat.cast_one] at h

theorem bernoulli_zero (r : BitVec 64) : R.bernoulli 0 r = false := by
  rw [bernoulli, zero_mul, R.double_zero, zero_mul, R.double_zero, decide_eq_false_iff_not, not_lt, ← R.double_zero]
  exact R.double_mono (Nat.cast_nonneg _)

/-- An element of the gradient is normalised into the range of the levels. -/
theorem normalized_le {k : BitVec 32} (hk : k.toNat ≤ 2 ^ 24) {scale x : K} (hscale : 0 ≤ scale) (hx : |x| ≤ scale) :
    0 ≤ R.normalized k scale x ∧ R.normalized k scale x ≤ k.toNat := by
  have hquot0 := R.double_mono (div_nonneg (abs_nonneg x) hscale)
  have hquot1 := R.double_mono (div_le_one_of_le₀ hx hscale)
  rw [R.double_zero] at hquot0
  rw [R.double_one] at hquot1
  have hprod0 := R.double_mono (mul_nonneg hquot0 (Nat.cast_nonneg k.toNat))
  have hprod1 := R.double_mono (mul_le_of_le_one_left (Nat.cast_nonneg k.toNat) hquot1)
  rw [R.double_zero] at hprod0
  rw [R.double_natCast (by omega)] at hprod1
  have hnorm0 := R.float_mono hprod0
  have hnorm1 := R.float_mono hprod1
  rw [R.float_zero] at hnorm0
  rw [R.float_natCast hk] at hnorm1
  exact ⟨hnorm0, hnorm1⟩

variable [FloorSemiring K]

/-- The upper end of the range. -/
theorem level_of_normalized {k : BitVec 32} (hk : k.toNat ≤ 2 ^ 24) {scale x : K} (h : R.normalized k scale x = k.toNat)
    (r : BitVec 64) : R.level k scale x r = k := by
  simp only [level, h, Nat.floor_natCast, sub_self, R.float_zero, R.bernoulli_zero, Bool.toNat_false, Nat.add_zero,
    R.float_natCast hk, BitVec.ofNat_toNat, BitVec.setWidth_eq]

theorem level_le {k : BitVec 32} (hk : k.toNat ≤ 2 ^ 24) {scale x : K} (hscale : 0 ≤ scale) (hx : |x| ≤ scale)
    (r : BitVec 64) : (R.level k scale x r).toNat ≤ k.toNat := by
  obtain ⟨h0, hle⟩ := R.normalized_le hk hscale hx
  rcases Nat.lt_or_ge ⌊R.normalized k scale x⌋₊ k.toNat with hlt | hge
  · obtain ⟨b, hlevel⟩ := R.level_eq k scale x r
    have hb := b.toNat_le
    rw [hlevel, R.float_natCast (by omega), Nat.floor_natCast, BitVec.toNat_ofNat]
    exact (Nat.mod_le _ _).trans (by omega)
  · -- the upper end: nothing is left for `Bernoulli`
    have heq : R.normalized k scale x = k.toNat := le_antisymm hle ((Nat.le_floor_iff h0).mp hge)
    rw [R.level_of_normalized hk heq]

theorem level_one {k : BitVec 32} (hk : k.toNat ≤ 2 ^ 24) (r : BitVec 64) : R.level k 1 1 r = k := by
  refine R.level_of_normalized hk ?_ r
  rw [normalized, abs_one, div_one, R.double_one, one_mul, R.double_natCast (by omega), R.float_natCast hk]

/-- A quarter of the largest element, if `k` is large: the level is large and fits a word. -/
theorem level_quarter {k : BitVec 32} (hk : 2 ^ 24 ≤ k.toNat) (r : BitVec 64) :
    2 ^ 22 ≤ (R.level k 1 (1 / (4 : Nat)) r).toNat := by
  have hk32 := k.isLt
  have hnorm : R.normalized k 1 (1 / (4 : Nat)) = R.float ((k.toNat : K) / (4 : Nat)) := by
    have hquot := R.double_exact 1 (by decide)
    have hprod := R.double_exact k.toNat (by omega)
    rw [Nat.cast_one] at hquot
    rw [normalized, abs_of_nonneg (by positivity), div_one, hquot, one_div_mul_eq_div, hprod]
  have hge : ((2 ^ 22 : Nat) : K) ≤ R.normalized k 1 (1 / (4 : Nat)) := by
    rw [hnorm, ← R.float_two_pow (by decide)]
    refine R.float_mono ((le_div_iff₀ (by norm_num)).mpr ?_)
    exact_mod_cast hk
  have hle : R.normalized k 1 (1 / (4 : Nat)) ≤ ((2 ^ 30 : Nat) : K) := by
    rw [hnorm, ← R.float_two_pow (by decide)]
    refine R.float_mono ((div_le_iff₀ (by norm_num)).mpr ?_)
    exact_mod_cast hk32.le
  have hfloor := Nat.le_floor hge
  have hfloor' := Nat.floor_le_of_le hle
  obtain ⟨b, hlevel⟩ := R.level_eq k 1 (1 / (4 : Nat)) r
  have hb := b.toNat_le
  -- the sum may be rounded too
  have hsum := R.float_mono (Nat.cast_le.mpr (show 2 ^ 22 ≤ ⌊R.normalized k 1 (1 / (4 : Nat))⌋₊ + b.toNat by omega))
  have hsum' := R.float_mono (Nat.cast_le.mpr (show ⌊R.normalized k 1 (1 / (4 : Nat))⌋₊ + b.toNat ≤ 2 ^ 31 by omega))
  rw [R.float_two_pow (by decide)] at hsum hsum'
  have hlow := Nat.le_floor hsum
  have hhigh := Nat.floor_le_of_le hsum'
  rw [hlevel, BitVec.toNat_ofNat, Nat.mod_eq_of_lt (by omega)]
  exact hlow

end Rounding
end Levels

/-! ## When it fits -/

/-- `blocks()` after `bits` bits. -/
def wordsOf (bits : Nat) : Nat := (roundBits 24 bits + 31) / 32

theorem wordsOf_mono {a b : Nat} (h : a ≤ b) : wordsOf a ≤ wordsOf b :=
  Nat.div_le_div_right (Nat.add_le_add_right (roundBits_mono (by decide) h) 31)

theorem sizeOf_eq (levels : Nat → Level) {len : Nat} (hlen : len ≤ 2 ^ 63) :
    sizeOf levels len = wordsOf (codeOf (-1) (tokens levels len)).length * 4 + 8 := by
  have hbits := (wroteLevels (fun _ => 0) levels hlen).wrote.flush.2
  rw [sizeOf, compressedSize, floatBlocks, hbits]
  rfl

/-- At 30 bits for an element, two words are left over of 32 elements. -/
theorem wordsOf_add_two_le {len : Nat} (hlen : 32 ≤ len) : wordsOf (len * 30) + 2 ≤ len := by
  have hround : roundBits 24 (len * 30) + 64 ≤ len * 32 := by
    by_cases hlt : len * 30 < 2 ^ 24
    · rw [roundBits_of_lt (by decide) hlt]
      omega
    · have hadd := roundBits_le_add 24 (len * 30)
      have hulp : ulp 24 (len * 30) * 2 ^ 23 ≤ len * 30 := ulp_mul_le (by omega)
      omega
  rw [wordsOf]
  omega

theorem costOf_mono {a b : Nat} (h : a ≤ b) : costOf a ≤ costOf b :=
  Nat.add_le_add_left (length_eliasDelta_mono h) 2

section Fits
variable {K : Type} [Field K] [LinearOrder K] [IsStrictOrderedRing K] [FloorSemiring K] (R : Rounding K) (k : BitVec 32)

theorem sizeOf_le (hk : k.toNat ≤ 2 ^ 24) {len : Nat} (hlen : len ≤ 2 ^ 63) (src : Nat → K) (draws : Nat → BitVec 64) :
    sizeOf (R.levels k len src draws) len ≤ wordsOf (len * costOf k.toNat) * 4 + 8 := by
  have h := wroteLevels (fun _ => 0) (R.levels k len src draws) hlen
  have hcode : (codeOf (-1) (tokens (R.levels k len src draws) len)).length ≤ len * costOf k.toNat := by
    refine (length_codeOf_le h.growing ?_).trans (Nat.mul_le_mul_right _ ?_)
    · intro tk htk
      obtain ⟨hpos, -, hlevel⟩ := mem_tokens.mp htk
      obtain ⟨hscale, hle⟩ := scaleOf_max len src
      have hquant : _ = tk.quantized := congrArg Level.quantized hlevel
      rw [← hquant]
      exact R.level_le hk hscale (hle tk.pos hpos) (draws tk.pos)
    · have := h.last_lt
      omega
  rw [sizeOf_eq _ hlen]
  have := wordsOf_mono hcode
  omega

/-- A gradient whose elements are all 1. -/
theorem sizeOf_ones (hk0 : 0 < k.toNat) (hk : k.toNat ≤ 2 ^ 24) {len : Nat} (hlen : len ≤ 2 ^ 63)
    (draws : Nat → BitVec 64) :
    sizeOf (R.levels k len (fun _ => 1) draws) len = wordsOf (len * costOf k.toNat) * 4 + 8 := by
  have hlevel : ∀ i < len, (R.levels k len (fun _ => 1) draws i).quantized.toNat = k.toNat := by
    intro i hi
    have hscale : scaleOf id .max len (fun _ => (1 : K)) = 1 :=
      scaleOf_eq_one (fun _ _ => abs_one.le) hi abs_one
    unfold Rounding.levels
    rw [hscale, R.level_one hk]
  rw [sizeOf_eq _ hlen, (length_codeOf_eq hk0 hlevel).1]

/-- One element of 1 and 31 of a quarter. -/
theorem sizeOf_quarters (hk : 2 ^ 24 ≤ k.toNat) (draws : Nat → BitVec 64) :
    4 * 32 < sizeOf (R.levels k 32 (fun i => if i = 0 then 1 else 1 / (4 : Nat)) draws) 32 := by
  have hquarter : |(1 : K) / (4 : Nat)| ≤ 1 := by
    rw [abs_of_nonneg (by positivity)]
    norm_num
  have hscale : scaleOf id .max 32 (fun i => if i = 0 then (1 : K) else 1 / (4 : Nat)) = 1 := by
    refine scaleOf_eq_one (j := 0) ?_ (by decide) abs_one
    intro i _
    split
    · exact abs_one.le
    · exact hquarter
  have hlevel : ∀ i, 0 < i → i < 32 → 2 ^ 22 ≤
      (R.levels k 32 (fun i => if i = 0 then 1 else 1 / (4 : Nat)) draws i).quantized.toNat := by
    intro i h0 _
    simp only [Rounding.levels, hscale, if_neg h0.ne']
    exact R.level_quarter hk (draws i)
  have hwords := wordsOf_mono (le_length_codeOf (by decide) hlevel)
  have h32 : wordsOf ((32 - 1) * costOf (2 ^ 22)) = 32 := by decide +kernel
  rw [sizeOf_eq _ (by decide)]
  omega

/-- The longest stream decides. -/
theorem fits_of_length_iff (hk : 1 ≤ k.toNat) (hk24 : k.toNat ≤ 2 ^ 24) {len : Nat} (h32 : 32 ≤ len)
    (h64 : 4 * len < 2 ^ 64) :
    (∀ (src : Nat → K) (draws : Nat → BitVec 64), (∃ i < len, src i ≠ 0) →
      sizeOf (R.levels k len src draws) len ≤ 4 * len) ↔ wordsOf (len * costOf k.toNat) + 2 ≤ len := by
  constructor
  · intro h
    have hones := h (fun _ => 1) (fun _ => 0) ⟨0, by omega, one_ne_zero⟩
    rw [sizeOf_ones R k hk hk24 (by omega)] at hones
    omega
  · intro h src draws _
    have hle := sizeOf_le R k hk24 (show len ≤ 2 ^ 63 by omega) src draws
    omega

/-- **Size.** For a given length the sizes of all gradients fit if the longest stream does. For all
lengths from 32 on they do exactly for `k < 2 ^ 20`. -/
theorem fits_iff (hk : 1 ≤ k.toNat) :
    (k.toNat ≤ 2 ^ 24 → ∀ len, 32 ≤ len → 4 * len < 2 ^ 64 →
      ((∀ (src : Nat → K) (draws : Nat → BitVec 64), (∃ i < len, src i ≠ 0) →
          sizeOf (R.levels k len src draws) len ≤ 4 * len) ↔ wordsOf (len * costOf k.toNat) + 2 ≤ len)) ∧
    ((∀ len, 32 ≤ len → 4 * len < 2 ^ 64 → ∀ (src : Nat → K) (draws : Nat → BitVec 64), (∃ i < len, src i ≠ 0) →
        sizeOf (R.levels k len src draws) len ≤ 4 * len) ↔ k.toNat < 2 ^ 20) := by
  refine ⟨fun hk24 len => fits_of_length_iff R k hk hk24, ?_, ?_⟩
  · intro h
    by_contra hge
    rcases Nat.le_total k.toNat (2 ^ 24) with hle | hle
    · have hwords := (fits_of_length_iff R k hk hle (by decide) (by decide)).mp (h 32 (by decide) (by decide))
      have hcost : costOf (2 ^ 20) ≤ costOf k.toNat := costOf_mono (by omega)
      have hbits := wordsOf_mono (Nat.mul_le_mul_left 32 hcost)
      have h31 : wordsOf (32 * costOf (2 ^ 20)) = 31 := by decide +kernel
      omega
    · have hsize := h 32 (by decide) (by decide) (fun i => if i = 0 then 1 else 1 / (4 : Nat)) (fun _ => 0)
        ⟨0, by decide, by rw [if_pos rfl]; exact one_ne_zero⟩
      exact absurd hsize (Nat.not_le.mpr (sizeOf_quarters R k hle _))
  · intro hlt len h32 h64
    have hcost : costOf k.toNat ≤ 30 := (costOf_mono (show k.toNat ≤ 2 ^ 20 - 1 by omega)).trans (by decide +kernel)
    have hbits := wordsOf_mono (Nat.mul_le_mul_left len hcost)
    have hwords := wordsOf_add_two_le h32
    exact (fits_of_length_iff R k hk (by omega) h32 h64).mpr (by omega)

end Fits

/-- Sixteen levels and 32 elements. -/
theorem fits_sixteen :
    sizeOf (Rounding.exact.levels 16 32 (fun i => (i : ℚ)) fun _ => 0x8000000000000000) 32 ≤ 4 * 32 :=
  (fits_iff (K := ℚ) .exact 16 (by decide)).2.mpr (by decide) 32 (by decide) (by decide) _ _ ⟨1, by decide, by decide⟩

/-- **Counterexample.** Of `2 ^ 20` levels, 32 elements that are all 1 take 132 bytes. -/
theorem fits_counterexample :
    sizeOf (Rounding.exact.levels 0x100000 32 (fun _ => (1 : ℚ)) fun _ => 0) 32 = 132 := by
  rw [sizeOf_ones _ _ (by decide) (by decide) (by decide)]
  decide +kernel

end Inca.L2.DitherSize
