import Inca.Core.BinaryFormat
import Inca.Core.While
import Mathlib.Data.Nat.Bitwise

/-!
# Conversions of `float16` (`common/cpu_reducer.h`)

`HalfBits2Float` and `Float2HalfBits` in the widths of the source, `int` and `unsigned` as
words of 32 bits. A unit of `float16` is `2 ^ 125` units of `float32`.

* `float2HalfBits_eq`, `halfBits2Float_eq`: the conversions of the format, but for NaN.
* `float2HalfBits_nearest`: the nearest number, ties to even, the sign kept and 65520 and
  more mapped to infinity.
-/
namespace Inca.L1.Half
open Inca.BinaryFormat

/-! ## The code -/

/-- From the fields of a `float16`; `none` if the loop did not end.
mirrors byteps/byteps/common/cpu_reducer.h:88-114 -/
def ofFields (sign exp mantissa : BitVec 32) : Option (BitVec 32) :=
  if 0 < exp.toInt ∧ exp.toInt < 31 then
    some (sign <<< 31 ||| (exp + 0x70#32) <<< 23 ||| mantissa <<< 13)
  else if exp = 0x0#32 then
    if mantissa ≠ 0x0#32 then do
      let (_, mantissa, exp) ← collect (fun s : BitVec 32 × BitVec 32 => s.1 &&& 0x1#32 <<< 10 = 0x0#32) (fun _ => ())
        (fun s => (s.1 <<< 1, s.2 - 0x1#32)) 10 (mantissa, exp + 0x71#32)
      some (sign <<< 31 ||| exp <<< 23 ||| (mantissa &&& 0x3ff#32) <<< 13)
    else some (sign <<< 31)
  else if exp = 0x1f#32 then
    if mantissa ≠ 0x0#32 then some 0x7fffffff#32 else some (0xff#32 <<< 23 ||| sign <<< 31)
  else some 0x0#32

/-- mirrors byteps/byteps/common/cpu_reducer.h:83-117 -/
def halfBits2Float (src : BitVec 16) : Option (BitVec 32) :=
  ofFields (src.setWidth 32 >>> 15 &&& 0x1#32) (src.setWidth 32 >>> 10 &&& 0x1f#32) (src.setWidth 32 &&& 0x3ff#32)

/-- mirrors byteps/byteps/common/cpu_reducer.h:166-178 -/
def roundEven (sign u : BitVec 16) (mantissa : BitVec 32) (stickyBit : Bool) : BitVec 16 :=
  let roundBit := decide (mantissa.sshiftRight 12 &&& 0x1#32 ≠ 0x0#32)
  let stickyBit := stickyBit || decide (mantissa &&& (0x1#32 <<< 12 - 0x1#32) ≠ 0x0#32)
  let u := if (roundBit && stickyBit) || (roundBit && decide (u &&& 0x1#16 ≠ 0x0#16)) then u + 0x1#16 else u
  u ||| sign

/-- `1 << rshift` wraps for a shift by 31, as does the difference.
mirrors byteps/byteps/common/cpu_reducer.h:119-179 -/
def float2HalfBits (s : BitVec 32) : BitVec 16 :=
  let sign := (s >>> 16 &&& 0x8000#32).setWidth 16
  let exp := ((s >>> 23 &&& 0xff#32) - 0x7f#32).setWidth 16
  let mantissa := s &&& 0x7fffff#32
  if s &&& 0x7fffffff#32 = 0x0#32 then sign
  else if 15 < exp.toInt then
    if exp.toInt = 128 ∧ mantissa ≠ 0x0#32 then 0x7fff#16 else sign ||| 0x7c00#16
  else if -14 ≤ exp.toInt then
    let exp := exp + 0xf#16
    let u := ((exp.signExtend 32 &&& 0x1f#32) <<< 10).setWidth 16
    let u := u ||| (mantissa.sshiftRight 13).setWidth 16
    roundEven sign u mantissa false
  else
    let rshift := (-14 - exp.toInt).toNat
    if rshift < 32 then
      let mantissa := mantissa ||| 0x1#32 <<< 23
      let stickyBit := decide (mantissa &&& (0x1#32 <<< rshift - 0x1#32) ≠ 0x0#32)
      let mantissa := mantissa.sshiftRight rshift
      let u := (mantissa.sshiftRight 13).setWidth 16 &&& 0x3ff#16
      roundEven sign u mantissa stickyBit
    else roundEven sign 0x0#16 0x0#32 false

/-! ## Fields -/

theorem toNat_low {w : Nat} (x : BitVec w) (j : Nat) (hj : j ≤ w) :
    (x &&& BitVec.ofNat w (2 ^ j - 1)).toNat = x.toNat % 2 ^ j := by
  have hle := Nat.pow_le_pow_right Nat.two_pos hj
  have hpos := Nat.two_pow_pos j
  rw [BitVec.toNat_and, BitVec.toNat_ofNat, Nat.mod_eq_of_lt (by omega), Nat.and_two_pow_sub_one_eq_mod]

theorem toNat_field (x : BitVec 32) (i j : Nat) (hj : j ≤ 32) :
    (x >>> i &&& BitVec.ofNat 32 (2 ^ j - 1)).toNat = x.toNat / 2 ^ i % 2 ^ j := by
  rw [toNat_low _ j hj, BitVec.toNat_ushiftRight, Nat.shiftRight_eq_div_pow]

theorem toNat_sshiftRight {x : BitVec 32} (h : x.toNat < 2 ^ 31) (i : Nat) :
    (x.sshiftRight i).toNat = x.toNat / 2 ^ i := by
  have hmsb : x.msb = false := BitVec.msb_eq_false_iff_two_mul_lt.mpr (by omega)
  rw [BitVec.sshiftRight_eq_of_msb_false hmsb, BitVec.toNat_ushiftRight, Nat.shiftRight_eq_div_pow]

theorem toNat_shiftLeft {w : Nat} {x : BitVec w} {i : Nat} (h : x.toNat * 2 ^ i < 2 ^ w) :
    (x <<< i).toNat = x.toNat * 2 ^ i := by
  rw [BitVec.toNat_shiftLeft, Nat.shiftLeft_eq, Nat.mod_eq_of_lt h]

/-- Bits that do not overlap. -/
theorem toNat_or {w : Nat} {x y : BitVec w} {a i : Nat} (hx : x.toNat = a * 2 ^ i) (hy : y.toNat < 2 ^ i) :
    (x ||| y).toNat = x.toNat + y.toNat := by
  rw [BitVec.toNat_or, hx, Nat.mul_comm, Nat.two_pow_add_eq_or_of_lt hy]

theorem ne_zero_iff {w : Nat} (x : BitVec w) : x ≠ 0#w ↔ x.toNat ≠ 0 := by
  rw [Ne, ← BitVec.toNat_inj, BitVec.toNat_ofNat, Nat.zero_mod]

/-! ## From `float` -/

/-- The last lines, as a number. -/
theorem roundEven_eq {sign u : BitVec 16} {mantissa : BitVec 32} {neg : Bool} (stickyBit : Bool)
    (hsign : sign.toNat = neg.toNat * 2 ^ 15) (hu : u.toNat < 2 ^ 15 - 1) (hm : mantissa.toNat < 2 ^ 31) :
    roundEven sign u mantissa stickyBit =
      pack 16 neg (if mantissa.toNat / 2 ^ 12 % 2 = 1 ∧ ((stickyBit = true ∨ mantissa.toNat % 2 ^ 12 ≠ 0) ∨ u.toNat % 2 = 1)
        then u.toNat + 1 else u.toNat) := by
  have hround : (mantissa.sshiftRight 12 &&& 0x1#32).toNat = mantissa.toNat / 2 ^ 12 % 2 := by
    rw [show 0x1#32 = BitVec.ofNat 32 (2 ^ 1 - 1) from rfl, toNat_low _ 1 (by omega), toNat_sshiftRight hm, Nat.pow_one]
  have hlow : (mantissa &&& (0x1#32 <<< 12 - 0x1#32)).toNat = mantissa.toNat % 2 ^ 12 := toNat_low mantissa 12 (by omega)
  have hodd : (u &&& 0x1#16).toNat = u.toNat % 2 := toNat_low u 1 (by omega)
  have hcond : ((decide (mantissa.sshiftRight 12 &&& 0x1#32 ≠ 0x0#32) &&
      (stickyBit || decide (mantissa &&& (0x1#32 <<< 12 - 0x1#32) ≠ 0x0#32))) ||
        (decide (mantissa.sshiftRight 12 &&& 0x1#32 ≠ 0x0#32) && decide (u &&& 0x1#16 ≠ 0x0#16))) = true ↔
      mantissa.toNat / 2 ^ 12 % 2 = 1 ∧ ((stickyBit = true ∨ mantissa.toNat % 2 ^ 12 ≠ 0) ∨ u.toNat % 2 = 1) := by
    simp only [Bool.or_eq_true, Bool.and_eq_true, decide_eq_true_eq, ne_zero_iff, hround, hlow, hodd,
      Nat.mod_two_ne_zero]
    rw [← and_or_left]
  have hor : ∀ v : BitVec 16, v.toNat < 2 ^ 15 → v ||| sign = pack 16 neg v.toNat := by
    intro v hv
    apply BitVec.eq_of_toNat_eq
    rw [BitVec.or_comm, toNat_or hsign hv, toNat_pack (by omega) neg hv, hsign]
  have hsucc : (u + 0x1#16).toNat = u.toNat + 1 := by
    show (u.toNat + 1) % 2 ^ 16 = u.toNat + 1
    exact Nat.mod_eq_of_lt (by omega)
  unfold roundEven
  by_cases h : mantissa.toNat / 2 ^ 12 % 2 = 1 ∧ ((stickyBit = true ∨ mantissa.toNat % 2 ^ 12 ≠ 0) ∨ u.toNat % 2 = 1)
  · rw [if_pos h]
    simp only [if_pos (hcond.mpr h)]
    rw [hor _ (by omega), hsucc]
  · rw [if_neg h]
    simp only [if_neg fun hc => h (hcond.mp hc)]
    exact hor u (by omega)

variable {s : BitVec 32}

/-- The exponent field and the mantissa of a magnitude. -/
theorem units_field {x e f : Nat} (hx : x = e * 2 ^ 23 + f) (he : 0 < e) (hf : f < 2 ^ 23) :
    units 23 x = (2 ^ 23 + f) * 2 ^ (e - 1) := by
  have hn : x = (e - 1) * 2 ^ 23 + (2 ^ 23 + f) := by
    rw [hx, Nat.sub_mul, Nat.one_mul]
    have := Nat.le_mul_of_pos_left (2 ^ 23) he
    omega
  rw [hn, units_add (.inl (by omega)) (by omega)]

/-- Normal numbers of both formats. -/
theorem between_normal {x e f : Nat} (hx : x = e * 2 ^ 23 + f) (he : 113 ≤ e) (hf : f < 2 ^ 23) :
    Between 10 125 (units 23 x) ((e - 112) * 2 ^ 10 + f / 2 ^ 13) (f % 2 ^ (12 + 1) * 2 ^ (e - 1))
      (2 ^ (12 + 1) * 2 ^ (e - 1)) := by
  obtain ⟨d, rfl⟩ : ∃ d, e = d + 113 := ⟨e - 113, by omega⟩
  have hdiv := Nat.div_add_mod' f (2 ^ 13)
  have hlt : f / 2 ^ 13 < 2 ^ 10 := by omega
  have hT : (d + 113 - 112) * 2 ^ 10 + f / 2 ^ 13 = d * 2 ^ 10 + (2 ^ 10 + f / 2 ^ 13) := by
    rw [show d + 113 - 112 = d + 1 by omega, Nat.add_mul, Nat.one_mul, Nat.add_assoc]
  have hpow : 2 ^ (d + 113 - 1) = 2 ^ d * 2 ^ 112 := by
    rw [show d + 113 - 1 = d + 112 by omega, Nat.pow_add]
  rw [hT, hpow]
  refine ⟨?_, ?_, Nat.mul_lt_mul_of_pos_right (Nat.mod_lt _ (Nat.two_pow_pos _)) (Nat.mul_pos (Nat.two_pow_pos _) (Nat.two_pow_pos _))⟩
  · rw [units_field hx (by omega) hf, hpow, units_add (.inl (by omega)) (by omega)]
    nth_rewrite 1 [← hdiv]
    ring
  · rw [Nat.add_assoc, units_add (.inl (by omega)) (by omega), units_add (.inl (by omega)) (by omega)]
    ring

/-- Normal numbers that are subnormal in `float16`. -/
theorem between_subnormal {x e f : Nat} (hx : x = e * 2 ^ 23 + f) (he : 0 < e) (hle : e ≤ 112) (hf : f < 2 ^ 23) :
    Between 10 125 (units 23 x) ((2 ^ 23 + f) / 2 ^ (125 - e + 1)) ((2 ^ 23 + f) % 2 ^ (125 - e + 1) * 2 ^ (e - 1))
      (2 ^ (125 - e + 1) * 2 ^ (e - 1)) := by
  have hdiv := Nat.div_add_mod' (2 ^ 23 + f) (2 ^ (125 - e + 1))
  have hgap : 2 ^ (125 - e + 1) * 2 ^ (e - 1) = 2 ^ 125 := by
    rw [← Nat.pow_add]
    congr 1
    omega
  have hlt : (2 ^ 23 + f) / 2 ^ (125 - e + 1) < 2 ^ 10 := by
    rw [Nat.div_lt_iff_lt_mul (Nat.two_pow_pos _), ← Nat.pow_add]
    exact Nat.lt_of_lt_of_le (show 2 ^ 23 + f < 2 ^ 24 by omega) (Nat.pow_le_pow_right Nat.two_pos (by omega))
  refine ⟨?_, ?_, Nat.mul_lt_mul_of_pos_right (Nat.mod_lt _ (Nat.two_pow_pos _)) (Nat.two_pow_pos _)⟩
  · rw [units_field hx he hf, units_of_le (by omega), ← hgap, ← Nat.mul_assoc, ← Nat.add_mul, hdiv]
  · rw [units_of_le (by omega), units_of_le (by omega), hgap]
    ring

theorem sign_toNat (s : BitVec 32) : ((s >>> 16 &&& 0x8000#32).setWidth 16).toNat = s.msb.toNat * 2 ^ 15 := by
  have hand : (s >>> 16 &&& 0x8000#32).toNat = s.msb.toNat * 2 ^ 15 := by
    rw [BitVec.toNat_and, BitVec.toNat_ushiftRight, show (0x8000#32).toNat = 2 ^ 15 from rfl, Nat.and_two_pow,
      Nat.testBit_shiftRight]
    rfl
  have := s.msb.toNat_lt
  rw [BitVec.toNat_setWidth, hand, Nat.mod_eq_of_lt (by omega)]

theorem exp_toNat (s : BitVec 32) : (s >>> 23 &&& 0xff#32).toNat = magnitude s / 2 ^ 23 := by
  rw [show 0xff#32 = BitVec.ofNat 32 (2 ^ 8 - 1) from rfl, toNat_field s 23 8 (by omega), magnitude]
  have := s.isLt
  omega

theorem exp_toInt (s : BitVec 32) :
    (((s >>> 23 &&& 0xff#32) - 0x7f#32).setWidth 16).toInt = (magnitude s / 2 ^ 23 : Nat) - 127 := by
  have hlt : magnitude s / 2 ^ 23 < 256 := by
    unfold magnitude
    omega
  rw [BitVec.toInt_eq_toNat_cond, BitVec.toNat_setWidth, BitVec.toNat_sub, exp_toNat]
  simp only [BitVec.toNat_ofNat]
  split <;> omega

theorem mantissa_toNat (s : BitVec 32) : (s &&& 0x7fffff#32).toNat = magnitude s % 2 ^ 23 := by
  rw [show 0x7fffff#32 = BitVec.ofNat 32 (2 ^ 23 - 1) from rfl, toNat_low s 23 (by omega), magnitude]
  omega

theorem magnitude_toNat (s : BitVec 32) : (s &&& 0x7fffffff#32).toNat = magnitude s := toNat_low s 31 (by omega)

/-- The sign, with nothing but zeros or infinity behind it. -/
theorem sign_or (s : BitVec 32) {v : BitVec 16} (hv : v.toNat < 2 ^ 15) :
    (s >>> 16 &&& 0x8000#32).setWidth 16 ||| v = pack 16 s.msb v.toNat := by
  apply BitVec.eq_of_toNat_eq
  rw [toNat_or (sign_toNat s) hv, sign_toNat, toNat_pack (by omega) _ hv]

/-- The exponent and the mantissa of a normal number, moved to their places. -/
theorem normal_toNat {exp : BitVec 16} {mantissa : BitVec 32} {e : Nat} (he : exp.toInt = (e : Int) - 127)
    (hlo : 113 ≤ e) (hhi : e ≤ 142) (hm : mantissa.toNat < 2 ^ 23) :
    ((((exp + 0xf#16).signExtend 32 &&& 0x1f#32) <<< 10).setWidth 16 ||| (mantissa.sshiftRight 13).setWidth 16).toNat =
      (e - 112) * 2 ^ 10 + mantissa.toNat / 2 ^ 13 := by
  have hexp : (exp + 0xf#16).toNat = e - 112 := by
    rw [BitVec.toInt_eq_toNat_cond] at he
    have := exp.isLt
    rw [BitVec.toNat_add]
    simp only [BitVec.toNat_ofNat]
    split at he <;> omega
  have hext : ((exp + 0xf#16).signExtend 32).toNat = e - 112 := by
    have hmsb : (exp + 0xf#16).msb = false := BitVec.msb_eq_false_iff_two_mul_lt.mpr (by omega)
    rw [BitVec.signExtend_eq_setWidth_of_msb_false hmsb, BitVec.toNat_setWidth, hexp, Nat.mod_eq_of_lt (by omega)]
  have hlow : ((exp + 0xf#16).signExtend 32 &&& 0x1f#32).toNat = e - 112 := by
    rw [show 0x1f#32 = BitVec.ofNat 32 (2 ^ 5 - 1) from rfl, toNat_low _ 5 (by omega), hext, Nat.mod_eq_of_lt (by omega)]
  have hshift : ((((exp + 0xf#16).signExtend 32 &&& 0x1f#32) <<< 10).setWidth 16).toNat = (e - 112) * 2 ^ 10 := by
    rw [BitVec.toNat_setWidth, toNat_shiftLeft (by omega), hlow, Nat.mod_eq_of_lt (by omega)]
  have hmant : ((mantissa.sshiftRight 13).setWidth 16).toNat = mantissa.toNat / 2 ^ 13 := by
    rw [BitVec.toNat_setWidth, toNat_sshiftRight (by omega), Nat.mod_eq_of_lt (by omega)]
  rw [toNat_or hshift (by omega), hshift, hmant]

/-- The bits that the shift to a subnormal number cuts off. -/
theorem sticky_iff (M : BitVec 32) {rshift : Nat} (hr : rshift < 32) :
    M &&& (0x1#32 <<< rshift - 0x1#32) ≠ 0x0#32 ↔ M.toNat % 2 ^ rshift ≠ 0 := by
  have hmask : 0x1#32 <<< rshift - 0x1#32 = BitVec.ofNat 32 (2 ^ rshift - 1) := by
    have hlt : 2 ^ rshift < 2 ^ 32 := Nat.pow_lt_pow_right (by omega) hr
    have hpos := Nat.two_pow_pos rshift
    have hshift : (0x1#32 <<< rshift).toNat = 2 ^ rshift := by
      rw [toNat_shiftLeft]
      · exact Nat.one_mul _
      · rw [show (0x1#32).toNat = 1 from rfl]
        omega
    apply BitVec.eq_of_toNat_eq
    rw [BitVec.toNat_sub, hshift, BitVec.toNat_ofNat, BitVec.toNat_ofNat]
    omega
  rw [hmask, ne_zero_iff, toNat_low _ rshift hr.le]

/-- Both parts of the bits that are cut off. -/
theorem mod_add_ne_zero (M a b : Nat) : (M % 2 ^ a ≠ 0 ∨ M / 2 ^ a % 2 ^ b ≠ 0) ↔ M % 2 ^ (a + b) ≠ 0 := by
  have hmod : M % 2 ^ (a + b) = M % 2 ^ a + 2 ^ a * (M / 2 ^ a % 2 ^ b) := by rw [Nat.pow_add, Nat.mod_mul]
  have hpos := Nat.two_pow_pos a
  rw [hmod, Ne, Ne, Ne, Nat.add_eq_zero_iff, Nat.mul_eq_zero]
  omega

/-- Below the greatest finite number, and its neighbour. -/
theorem rounded_half {neg : Bool} {N : Nat} (h : roundTo 10 125 N ≤ 0x7c00) :
    rounded 16 10 125 neg N = pack 16 neg (roundTo 10 125 N) := by
  rw [rounded, Nat.min_eq_left]
  exact h

theorem roundEven_normal {sign u : BitVec 16} {mantissa : BitVec 32} {neg : Bool} {x e : Nat}
    (hsign : sign.toNat = neg.toNat * 2 ^ 15) (hx : x = e * 2 ^ 23 + mantissa.toNat) (hlo : 113 ≤ e) (hhi : e ≤ 142)
    (hm : mantissa.toNat < 2 ^ 23) (hu : u.toNat = (e - 112) * 2 ^ 10 + mantissa.toNat / 2 ^ 13) :
    roundEven sign u mantissa false = rounded 16 10 125 neg (units 23 x) := by
  have hround := roundTo_guard (between_normal hx hlo hm) (by omega)
  rw [← hu] at hround
  rw [roundEven_eq false hsign (by omega) (by omega), rounded_half]
  · rw [hround]
    simp only [Bool.false_eq_true, false_or]
  · rw [hround]
    split <;> omega

theorem roundEven_subnormal {sign : BitVec 16} {M : BitVec 32} {neg : Bool} {x e f : Nat}
    (hsign : sign.toNat = neg.toNat * 2 ^ 15) (hx : x = e * 2 ^ 23 + f) (hf : f < 2 ^ 23) (hlo : 82 ≤ e) (hhi : e ≤ 112)
    (hM : M.toNat = 2 ^ 23 + f) :
    roundEven sign (((M.sshiftRight (113 - e)).sshiftRight 13).setWidth 16 &&& 0x3ff#16) (M.sshiftRight (113 - e))
      (decide (M &&& (0x1#32 <<< (113 - e) - 0x1#32) ≠ 0x0#32)) = rounded 16 10 125 neg (units 23 x) := by
  have hshift : (M.sshiftRight (113 - e)).toNat = (2 ^ 23 + f) / 2 ^ (113 - e) := by
    rw [toNat_sshiftRight (by omega), hM]
  have hle : (2 ^ 23 + f) / 2 ^ (113 - e) < 2 ^ 23 := by
    rw [Nat.div_lt_iff_lt_mul (Nat.two_pow_pos _)]
    have := Nat.pow_le_pow_right Nat.two_pos (show 1 ≤ 113 - e by omega)
    omega
  have hu : (((M.sshiftRight (113 - e)).sshiftRight 13).setWidth 16 &&& 0x3ff#16).toNat =
      (2 ^ 23 + f) / 2 ^ (125 - e + 1) := by
    rw [show 0x3ff#16 = BitVec.ofNat 16 (2 ^ 10 - 1) from rfl, toNat_low _ 10 (by omega), BitVec.toNat_setWidth,
      toNat_sshiftRight (by omega), hshift, show 125 - e + 1 = 113 - e + 13 by omega, Nat.pow_add,
      ← Nat.div_div_eq_div_mul]
    omega
  have hround := roundTo_guard (between_subnormal hx (by omega) hhi hf) rfl
  -- the bits below the guard bit, in the two parts that the code looks at
  have hsticky : (decide (M &&& (0x1#32 <<< (113 - e) - 0x1#32) ≠ 0x0#32) = true ∨
      (2 ^ 23 + f) / 2 ^ (113 - e) % 2 ^ 12 ≠ 0) ↔ (2 ^ 23 + f) % 2 ^ (125 - e) ≠ 0 := by
    rw [decide_eq_true_eq, sticky_iff M (by omega), hM, mod_add_ne_zero, show 113 - e + 12 = 125 - e by omega]
  have hguard : (2 ^ 23 + f) / 2 ^ (113 - e) / 2 ^ 12 = (2 ^ 23 + f) / 2 ^ (125 - e) := by
    rw [Nat.div_div_eq_div_mul, ← Nat.pow_add, show 113 - e + 12 = 125 - e by omega]
  have hsmall : (2 ^ 23 + f) / 2 ^ (125 - e + 1) < 2 ^ 10 := by
    rw [← hu, show 0x3ff#16 = BitVec.ofNat 16 (2 ^ 10 - 1) from rfl, toNat_low _ 10 (by omega)]
    exact Nat.mod_lt _ (Nat.two_pow_pos _)
  rw [roundEven_eq _ hsign (by omega) (by omega), rounded_half]
  · simp only [hu, hshift, hsticky, hguard, hround]
  · rw [hround]
    split <;> omega

/-- Half a unit of `float16` and less. -/
theorem roundEven_zero {sign : BitVec 16} {neg : Bool} {x : Nat} (hsign : sign.toNat = neg.toNat * 2 ^ 15)
    (hx : x < 82 * 2 ^ 23) : roundEven sign 0x0#16 0x0#32 false = rounded 16 10 125 neg (units 23 x) := by
  have hlt := units_strictMono 23 hx
  have hpow : units 23 (82 * 2 ^ 23) = 2 ^ 23 * 2 ^ 81 := units_field (Nat.add_zero _).symm (by omega) (by omega)
  have hzero : roundTo 10 125 (units 23 x) = 0 := roundTo_eq_zero 10 (by omega)
  rw [roundEven_eq false hsign (by decide) (by decide), rounded_half (by omega), hzero]
  rfl

/-- Infinity is the rounding of 65520 and more. -/
theorem infinity_le_iff (N : Nat) : infinity 16 10 ≤ roundTo 10 125 N ↔ 65520 * 2 ^ 149 ≤ N := by
  have hmax : units 10 0x7bff = 2047 * 2 ^ 29 := units_add (s := 29) (x := 2047) (.inl (by omega)) (by omega)
  have hinf : units 10 (0x7bff + 1) = 2048 * 2 ^ 29 := units_add (s := 29) (x := 2048) (.inl (by omega)) (by omega)
  show 0x7bff + 1 ≤ roundTo 10 125 N ↔ _
  rw [le_roundTo_iff (by omega), hmax, hinf]
  omega

/-- Beyond the greatest number of `float16`. -/
theorem rounded_large {neg : Bool} {x : Nat} (hx : 143 * 2 ^ 23 ≤ x) :
    rounded 16 10 125 neg (units 23 x) = pack 16 neg 0x7c00 := by
  have hle := (units_strictMono 23).monotone hx
  have hpow : units 23 (143 * 2 ^ 23) = 2 ^ 23 * 2 ^ 142 := units_field (Nat.add_zero _).symm (by omega) (by omega)
  rw [rounded, Nat.min_eq_right ((infinity_le_iff _).mpr (by omega))]
  rfl

/-- **The conversion to `float16`.** -/
theorem float2HalfBits_eq (h : ¬IsNaN 23 s) : float2HalfBits s = rounded 16 10 125 s.msb (units 23 (magnitude s)) := by
  have hmag : magnitude s < 2 ^ 31 := Nat.mod_lt _ (Nat.two_pow_pos _)
  have hx : magnitude s = magnitude s / 2 ^ 23 * 2 ^ 23 + (s &&& 0x7fffff#32).toNat := by
    rw [mantissa_toNat]
    exact (Nat.div_add_mod' _ _).symm
  have hm : (s &&& 0x7fffff#32).toNat < 2 ^ 23 := by
    rw [mantissa_toNat]
    exact Nat.mod_lt _ (Nat.two_pow_pos _)
  have hnan : ¬(2 ^ 31 - 2 ^ 23 < magnitude s) := h
  have hzero : s &&& 0x7fffffff#32 = 0x0#32 ↔ magnitude s = 0 := by
    rw [← magnitude_toNat, ← not_iff_not]
    exact ne_zero_iff _
  have hexp := exp_toInt s
  unfold float2HalfBits
  simp only [hexp]
  generalize hmant : s &&& 0x7fffff#32 = mantissa at hx hm ⊢
  generalize he : magnitude s / 2 ^ 23 = e at hexp hx ⊢
  split
  · next h0 =>
    rw [hzero.mp h0, ← roundEven_zero (sign_toNat s) (by omega)]
    rw [roundEven_eq false (sign_toNat s) (by decide) (by decide), ← BitVec.or_zero (x := BitVec.setWidth 16 _)]
    exact sign_or s (by decide)
  · split
    · rw [if_neg, rounded_large (by omega)]
      · exact sign_or s (by decide)
      · rw [ne_zero_iff]
        omega
    · split
      · exact roundEven_normal (sign_toNat s) hx (by omega) (by omega) hm (normal_toNat hexp (by omega) (by omega) hm)
      · have hr : (-14 - ((e : Int) - 127)).toNat = 113 - e := by omega
        rw [hr]
        split
        · have hM : (mantissa ||| 0x1#32 <<< 23).toNat = 2 ^ 23 + mantissa.toNat := by
            rw [BitVec.or_comm, toNat_or (a := 1) (i := 23) rfl hm]
            rfl
          exact roundEven_subnormal (sign_toNat s) hx hm (by omega) (by omega) hM
        · exact roundEven_zero (sign_toNat s) (by omega)

/-- The value of a `float`, in units. -/
theorem rat_float (s : BitVec 32) : rat 23 127 s = signed s.msb (units 23 (magnitude s) / 2 ^ 149) := by
  rw [rat_eq, value_eq (by omega)]

theorem abs_signed {neg : Bool} {a : ℚ} (ha : 0 ≤ a) : |signed neg a| = a := by
  cases neg with
  | false => exact abs_of_nonneg ha
  | true => exact (abs_neg a).trans (abs_of_nonneg ha)

theorem le_abs_rat_iff (s : BitVec 32) : 65520 ≤ |rat 23 127 s| ↔ 65520 * 2 ^ 149 ≤ units 23 (magnitude s) := by
  have hpos : (0 : ℚ) < 2 ^ 149 := pow_pos two_pos _
  rw [rat_float, abs_signed (div_nonneg (Nat.cast_nonneg _) hpos.le), le_div_iff₀ hpos]
  exact_mod_cast Iff.rfl

/-- **Nearest, ties to even.** -/
theorem float2HalfBits_nearest (s : BitVec 32) (h : ¬IsNaN 23 s) :
    (float2HalfBits s).msb = s.msb ∧
      (magnitude s = infinity 32 23 ∨ 65520 ≤ |rat 23 127 s| → magnitude (float2HalfBits s) = infinity 16 10) ∧
      (Finite 23 s → |rat 23 127 s| < 65520 → Nearest 10 15 (rat 23 127 s) (float2HalfBits s)) := by
  rw [float2HalfBits_eq h]
  obtain ⟨hsign, hmag⟩ := rounded_spec (show 0 < 16 by omega) 10 125 s.msb (units 23 (magnitude s))
  refine ⟨hsign, ?_, ?_⟩
  · intro hlarge
    have hle : 65520 * 2 ^ 149 ≤ units 23 (magnitude s) := by
      rcases hlarge with hinf | hlarge
      · rw [hinf]
        have hunits : units 23 (infinity 32 23) = 2 ^ 23 * 2 ^ 254 :=
          units_field (show infinity 32 23 = 255 * 2 ^ 23 + 0 from rfl) (by omega) (by omega)
        omega
      · exact (le_abs_rat_iff s).mp hlarge
    rw [hmag, Nat.min_eq_right ((infinity_le_iff _).mpr hle)]
  · intro _ hsmall
    rw [rat_float]
    show Nearest 10 15 (signed s.msb (units 23 (magnitude s) / 2 ^ (15 - 1 + 10 + 125))) _
    apply rounded_nearest (by omega) (by omega)
    rw [← Nat.not_le, infinity_le_iff, ← le_abs_rat_iff, not_le]
    exact hsmall

/-- `1 + 2 ^ -11`, in the middle between two numbers of `float16`. -/
theorem float2HalfBits_nearest_tie :
    float2HalfBits 0x3f801000#32 = 0x3c00#16 ∧ (float2HalfBits 0x3f801000#32).msb = (0x3f801000#32).msb :=
  ⟨by decide, (float2HalfBits_nearest 0x3f801000#32 (by decide)).1⟩

theorem float2HalfBits_nan (h : IsNaN 23 s) : float2HalfBits s = 0x7fff#16 := by
  have hnan : 2 ^ 31 - 2 ^ 23 < magnitude s := h
  have hmag : magnitude s < 2 ^ 31 := Nat.mod_lt _ (Nat.two_pow_pos _)
  have hexp := exp_toInt s
  have hmant : s &&& 0x7fffff#32 ≠ 0x0#32 := by
    rw [ne_zero_iff, mantissa_toNat]
    omega
  have hzero : s &&& 0x7fffffff#32 ≠ 0x0#32 := by
    rw [ne_zero_iff, magnitude_toNat]
    omega
  unfold float2HalfBits
  simp only [hexp, if_neg hzero]
  rw [if_pos (by omega), if_pos ⟨by omega, hmant⟩]

/-! ## To `float` -/

variable {src : BitVec 16}

/-- The fields of a `float16`, as words of 32 bits. -/
theorem fields_toNat (src : BitVec 16) :
    (src.setWidth 32 >>> 15 &&& 0x1#32).toNat = src.msb.toNat ∧
      (src.setWidth 32 >>> 10 &&& 0x1f#32).toNat = magnitude src / 2 ^ 10 ∧
      (src.setWidth 32 &&& 0x3ff#32).toNat = magnitude src % 2 ^ 10 := by
  have hlt := src.isLt
  have hsrc := toNat_eq (by omega) src
  have hmag : magnitude src < 2 ^ 15 := Nat.mod_lt _ (Nat.two_pow_pos _)
  have hwide : (src.setWidth 32).toNat = src.toNat := by rw [BitVec.toNat_setWidth, Nat.mod_eq_of_lt (by omega)]
  have hsign := src.msb.toNat_lt
  refine ⟨?_, ?_, ?_⟩
  · rw [show 0x1#32 = BitVec.ofNat 32 (2 ^ 1 - 1) from rfl, toNat_field _ 15 1 (by omega), hwide, hsrc]
    omega
  · rw [show 0x1f#32 = BitVec.ofNat 32 (2 ^ 5 - 1) from rfl, toNat_field _ 10 5 (by omega), hwide, hsrc]
    omega
  · rw [show 0x3ff#32 = BitVec.ofNat 32 (2 ^ 10 - 1) from rfl, toNat_low _ 10 (by omega), hwide, hsrc]
    omega

/-- Sign, exponent and mantissa of a `float`. -/
theorem assemble {sign exp mantissa : BitVec 32} {neg : Bool} (hsign : sign.toNat = neg.toNat) (he : exp.toNat < 2 ^ 8)
    (hm : mantissa.toNat < 2 ^ 10) :
    sign <<< 31 ||| exp <<< 23 ||| mantissa <<< 13 = pack 32 neg (exp.toNat * 2 ^ 23 + mantissa.toNat * 2 ^ 13) := by
  have hneg := neg.toNat_lt
  have h1 : (sign <<< 31).toNat = neg.toNat * 2 ^ 31 := by rw [toNat_shiftLeft (by omega), hsign]
  have h2 : (exp <<< 23).toNat = exp.toNat * 2 ^ 23 := toNat_shiftLeft (by omega)
  have h3 : (mantissa <<< 13).toNat = mantissa.toNat * 2 ^ 13 := toNat_shiftLeft (by omega)
  have h23 : (exp <<< 23 ||| mantissa <<< 13).toNat = exp.toNat * 2 ^ 23 + mantissa.toNat * 2 ^ 13 := by
    rw [toNat_or h2 (by omega), h2, h3]
  apply BitVec.eq_of_toNat_eq
  rw [BitVec.or_assoc, toNat_or h1 (by omega), h1, h23, toNat_pack (by omega) neg (by omega)]

/-- A pattern with the value in question is the result of the conversion. -/
theorem rounded_float {neg : Bool} {N X : Nat} (hX : X ≤ infinity 32 23) (h : units 23 X = N) :
    rounded 32 23 0 neg N = pack 32 neg X := by
  rw [rounded, ← h, roundTo_units, Nat.min_eq_left hX]

theorem widen_normal {n : Nat} (hpos : 0 < n / 2 ^ 10) :
    units 23 ((n / 2 ^ 10 + 112) * 2 ^ 23 + n % 2 ^ 10 * 2 ^ 13) = units 10 n * 2 ^ 125 := by
  have hmod := Nat.mod_lt n (Nat.two_pow_pos 10)
  rw [units_field rfl (by omega) (by omega)]
  generalize ht : n % 2 ^ 10 = t at hmod ⊢
  obtain ⟨d, hd⟩ : ∃ d, n / 2 ^ 10 = d + 1 := ⟨n / 2 ^ 10 - 1, by omega⟩
  have hn : n = d * 2 ^ 10 + (2 ^ 10 + t) := by omega
  rw [hd, hn, units_add (.inl (by omega)) (by omega), show d + 1 + 112 - 1 = d + 112 by omega, Nat.pow_add]
  ring

theorem widen_subnormal {t j : Nat} (hj : j ≤ 112) (ht : 2 ^ 10 ≤ t * 2 ^ j) (ht' : t * 2 ^ j < 2 ^ 11) :
    units 23 ((113 - j) * 2 ^ 23 + (t * 2 ^ j - 2 ^ 10) * 2 ^ 13) = t * 2 ^ 125 := by
  have hmant : 2 ^ 23 + (t * 2 ^ j - 2 ^ 10) * 2 ^ 13 = t * 2 ^ j * 2 ^ 13 := by omega
  have hpow : 2 ^ 125 = 2 ^ j * 2 ^ 13 * 2 ^ (113 - j - 1) := by
    have hexp : 125 = j + 13 + (113 - j - 1) := by omega
    rw [← Nat.pow_add, ← Nat.pow_add, ← hexp]
  rw [units_field rfl (by omega) (by omega), hmant, hpow]
  ring

theorem bit_ten {x : BitVec 32} (h : x.toNat < 2 ^ 11) : x &&& 0x1#32 <<< 10 = 0x0#32 ↔ x.toNat < 2 ^ 10 := by
  rw [← not_iff_not, ← Ne, ne_zero_iff, BitVec.toNat_and, show (0x1#32 <<< 10).toNat = 2 ^ 10 from rfl, Nat.and_two_pow,
    Nat.testBit_eq_decide_div_mod_eq]
  by_cases hbit : x.toNat / 2 ^ 10 % 2 = 1
  · rw [decide_eq_true hbit, Bool.toNat_true]
    omega
  · rw [decide_eq_false hbit, Bool.toNat_false]
    omega

/-- The loop shifts the leading bit of the mantissa to its place. -/
theorem normalize {t : BitVec 32} (hpos : t.toNat ≠ 0) (ht : t.toNat < 2 ^ 10) :
    ∃ j ≤ 10, 2 ^ 10 ≤ t.toNat * 2 ^ j ∧ t.toNat * 2 ^ j < 2 ^ 11 ∧ ∃ r,
      collect (fun s : BitVec 32 × BitVec 32 => s.1 &&& 0x1#32 <<< 10 = 0x0#32) (fun _ => ())
        (fun s => (s.1 <<< 1, s.2 - 0x1#32)) 10 (t, 0x0#32 + 0x71#32) =
          some (r, BitVec.ofNat 32 (t.toNat * 2 ^ j), BitVec.ofNat 32 (113 - j)) := by
  have hlog := (Nat.log2_lt hpos).mpr ht
  have hlo := Nat.log2_self_le hpos
  have hhi : t.toNat < 2 ^ (t.toNat.log2 + 1) := Nat.lt_log2_self
  have hscale : ∀ i ≤ 10 - t.toNat.log2, t.toNat * 2 ^ i < 2 ^ (t.toNat.log2 + 1 + i) := by
    intro i _
    rw [Nat.pow_add _ _ i]
    exact Nat.mul_lt_mul_of_pos_right hhi (Nat.two_pow_pos i)
  have hlt : t.toNat * 2 ^ (10 - t.toNat.log2) < 2 ^ 11 := by
    refine Nat.lt_of_lt_of_le (hscale _ le_rfl) (Nat.pow_le_pow_right Nat.two_pos ?_)
    omega
  have hge : 2 ^ 10 ≤ t.toNat * 2 ^ (10 - t.toNat.log2) := by
    rw [show 2 ^ 10 = 2 ^ t.toNat.log2 * 2 ^ (10 - t.toNat.log2) by rw [← Nat.pow_add]; congr 1; omega]
    exact Nat.mul_le_mul_right _ hlo
  have hval : ∀ y < 2 ^ 11, (BitVec.ofNat 32 y).toNat = y := fun y hy => by
    rw [BitVec.toNat_ofNat, Nat.mod_eq_of_lt (by omega)]
  refine ⟨10 - t.toNat.log2, by omega, hge, hlt, (List.range (10 - t.toNat.log2)).map fun _ => (), ?_⟩
  have hloop := collect_eq (fun s : BitVec 32 × BitVec 32 => s.1 &&& 0x1#32 <<< 10 = 0x0#32) (fun _ => ())
    (fun s => (s.1 <<< 1, s.2 - 0x1#32)) (f := fun i => (BitVec.ofNat 32 (t.toNat * 2 ^ i), BitVec.ofNat 32 (113 - i)))
    (n := 10 - t.toNat.log2) ?_ ?_ ?_ (show 10 - t.toNat.log2 ≤ 10 by omega)
  · simp only [Nat.pow_zero, Nat.mul_one, BitVec.ofNat_toNat, BitVec.setWidth_eq] at hloop
    exact hloop
  · intro i hi
    have hsmall : t.toNat * 2 ^ i < 2 ^ 10 :=
      Nat.lt_of_lt_of_le (hscale i (by omega)) (Nat.pow_le_pow_right Nat.two_pos (by omega))
    refine (bit_ten ?_).mpr ?_
    · rw [hval _ (by omega)]
      omega
    · rw [hval _ (by omega)]
      exact hsmall
  · intro hzero
    have := (bit_ten (by rw [hval _ hlt]; exact hlt)).mp hzero
    rw [hval _ hlt] at this
    omega
  · intro i hi
    refine Prod.ext ?_ ?_
    · apply BitVec.eq_of_toNat_eq
      show (BitVec.ofNat 32 (t.toNat * 2 ^ i) <<< 1).toNat = (BitVec.ofNat 32 (t.toNat * 2 ^ (i + 1))).toNat
      rw [BitVec.toNat_shiftLeft, BitVec.toNat_ofNat, BitVec.toNat_ofNat, Nat.shiftLeft_eq, Nat.mod_mul_mod, Nat.mul_assoc,
        ← Nat.pow_succ]
    · apply BitVec.eq_of_toNat_eq
      show (BitVec.ofNat 32 (113 - i) - 0x1#32).toNat = (BitVec.ofNat 32 (113 - (i + 1))).toNat
      rw [BitVec.toNat_sub, BitVec.toNat_ofNat, BitVec.toNat_ofNat, BitVec.toNat_ofNat]
      omega

variable {sign exp mantissa : BitVec 32} {neg : Bool}

theorem ofFields_normal {n : Nat} (hsign : sign.toNat = neg.toNat) (he : exp.toNat = n / 2 ^ 10)
    (hm : mantissa.toNat = n % 2 ^ 10) (hpos : 0 < n / 2 ^ 10) (hlt : n / 2 ^ 10 < 31) :
    ofFields sign exp mantissa = some (rounded 32 23 0 neg (units 10 n * 2 ^ 125)) := by
  have hint : exp.toInt = (n / 2 ^ 10 : Nat) := by rw [BitVec.toInt_eq_toNat_of_lt (by omega), he]
  have hsum : (exp + 0x70#32).toNat = n / 2 ^ 10 + 112 := by
    rw [BitVec.toNat_add, he]
    show (n / 2 ^ 10 + 112) % 2 ^ 32 = n / 2 ^ 10 + 112
    omega
  have hinf : infinity 32 23 = 255 * 2 ^ 23 := rfl
  rw [ofFields, if_pos (by rw [hint]; omega), assemble hsign (by omega) (by omega), hsum, hm,
    rounded_float (by omega) (widen_normal hpos)]

theorem ofFields_subnormal (hsign : sign.toNat = neg.toNat) (hpos : mantissa.toNat ≠ 0) (hm : mantissa.toNat < 2 ^ 10) :
    ofFields sign 0x0#32 mantissa = some (rounded 32 23 0 neg (mantissa.toNat * 2 ^ 125)) := by
  obtain ⟨j, hj, hge, hlt, r, hloop⟩ := normalize hpos hm
  have he : (BitVec.ofNat 32 (113 - j)).toNat = 113 - j := by
    rw [BitVec.toNat_ofNat, Nat.mod_eq_of_lt (by omega)]
  have hlow : (BitVec.ofNat 32 (mantissa.toNat * 2 ^ j) &&& 0x3ff#32).toNat = mantissa.toNat * 2 ^ j - 2 ^ 10 := by
    rw [show 0x3ff#32 = BitVec.ofNat 32 (2 ^ 10 - 1) from rfl, toNat_low _ 10 (by omega), BitVec.toNat_ofNat]
    omega
  have hinf : infinity 32 23 = 255 * 2 ^ 23 := rfl
  rw [ofFields, if_neg (by decide), if_pos rfl, if_pos ((ne_zero_iff _).mpr hpos), hloop]
  show some _ = some _
  rw [assemble hsign (by omega) (by omega), he, hlow,
    rounded_float (by omega) (widen_subnormal (by omega) hge hlt)]

theorem ofFields_zero (hsign : sign.toNat = neg.toNat) :
    ofFields sign 0x0#32 0x0#32 = some (rounded 32 23 0 neg 0) := by
  have hpack : sign <<< 31 ||| 0x0#32 <<< 23 ||| 0x0#32 <<< 13 = pack 32 neg 0 := assemble hsign (by decide) (by decide)
  have hzero : 0x0#32 <<< 23 = 0x0#32 := rfl
  have hzero' : 0x0#32 <<< 13 = 0x0#32 := rfl
  rw [hzero, hzero', BitVec.or_zero, BitVec.or_zero] at hpack
  rw [rounded_float (Nat.zero_le _) (units_of_le (Nat.zero_le _)), ← hpack]
  rfl

theorem ofFields_infinity (hsign : sign.toNat = neg.toNat) :
    ofFields sign 0x1f#32 0x0#32 = some (pack 32 neg (infinity 32 23)) := by
  have hpack : sign <<< 31 ||| 0xff#32 <<< 23 ||| 0x0#32 <<< 13 = pack 32 neg (infinity 32 23) :=
    assemble hsign (by decide) (by decide)
  have hzero : 0x0#32 <<< 13 = 0x0#32 := rfl
  rw [hzero, BitVec.or_zero, BitVec.or_comm] at hpack
  rw [← hpack]
  rfl

/-- **The conversion to `float`.** -/
theorem halfBits2Float_eq (h : ¬IsNaN 10 src) :
    halfBits2Float src = some (if magnitude src = infinity 16 10 then pack 32 src.msb (infinity 32 23)
      else rounded 32 23 0 src.msb (units 10 (magnitude src) * 2 ^ 125)) := by
  obtain ⟨hsign, hexp, hmant⟩ := fields_toNat src
  have hmag : magnitude src < 2 ^ 15 := Nat.mod_lt _ (Nat.two_pow_pos _)
  have hnan : ¬(2 ^ 15 - 2 ^ 10 < magnitude src) := h
  have hinf : infinity 16 10 = 31 * 2 ^ 10 := rfl
  have hof : ∀ {x : BitVec 32} {n : Nat}, x.toNat = n → x = BitVec.ofNat 32 n := fun hx => by
    rw [← hx, BitVec.ofNat_toNat, BitVec.setWidth_eq]
  unfold halfBits2Float
  rcases Nat.eq_zero_or_pos (magnitude src / 2 ^ 10) with hzero | hpos
  · rw [hzero] at hexp
    have hlow : magnitude src % 2 ^ 10 = magnitude src := by omega
    rw [hlow] at hmant
    rw [if_neg (by omega), hof hexp, units_of_le (by omega)]
    rcases Nat.eq_zero_or_pos (magnitude src) with hm | hm
    · rw [hm] at hmant ⊢
      rw [hof hmant, Nat.zero_mul]
      exact ofFields_zero hsign
    · rw [← hmant]
      exact ofFields_subnormal hsign (by omega) (by omega)
  · by_cases hlt : magnitude src / 2 ^ 10 < 31
    · rw [if_neg (by omega)]
      exact ofFields_normal hsign hexp hmant hpos hlt
    · rw [show magnitude src / 2 ^ 10 = 31 by omega] at hexp
      rw [show magnitude src % 2 ^ 10 = 0 by omega] at hmant
      rw [if_pos (by omega), hof hexp, hof hmant]
      exact ofFields_infinity hsign

theorem halfBits2Float_nan (h : IsNaN 10 src) : halfBits2Float src = some 0x7fffffff#32 := by
  obtain ⟨-, hexp, hmant⟩ := fields_toNat src
  have hmag : magnitude src < 2 ^ 15 := Nat.mod_lt _ (Nat.two_pow_pos _)
  have hnan : 2 ^ 15 - 2 ^ 10 < magnitude src := h
  have he : src.setWidth 32 >>> 10 &&& 0x1f#32 = 0x1f#32 := by
    apply BitVec.eq_of_toNat_eq
    rw [hexp]
    show _ = 31
    omega
  have hm : src.setWidth 32 &&& 0x3ff#32 ≠ 0x0#32 := by
    rw [ne_zero_iff, hmant]
    omega
  unfold halfBits2Float ofFields
  rw [he, if_neg (by decide), if_neg (by decide), if_pos rfl, if_pos hm]

theorem halfBits2Float_isSome (src : BitVec 16) : (halfBits2Float src).isSome = true := by
  by_cases h : IsNaN 10 src
  · rw [halfBits2Float_nan h]
    rfl
  · rw [halfBits2Float_eq h]
    rfl

end Inca.L1.Half
