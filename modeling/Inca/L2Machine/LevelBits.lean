import Inca.L2Machine.LevelStream

/-!
# How many bits the dithering loop writes (`compressor/impl/dithering.cc`)

The loop of `CompressImpl` on levels that have been drawn, for a writer of words of
any width. A level that is not 0 costs the code of its gap, a sign and its own
code; a 0 costs nothing, but makes the next gap larger. The code of a gap `g` has at
most `3 * (g - 1) + 1` bits, and a level with its sign and the shortest gap has at least
3: so what a run of zeros adds to the next gap is less than what the zeros would have cost
as levels.

`EliasDeltaEncode` takes `floor(log2(x))` in `double`. For numbers of up to 32 bits this is
the exact logarithm; just below a power of two from `2 ^ 48` or so on the `double` is that power's
logarithm, and the code is one bit longer (`FloorLog2`).

* `eliasDeltaEncodeBy_bits`: what a code adds does not depend on the writer.
* `writeLevelBy_bits_le`, `writeLevels_bits_le`: a step keeps the bits within the budget of the elements up to the last
  level, and so does the loop.
-/
namespace Inca.L2.LevelBits
open Inca.L1.BitStream Inca.L2.LevelStream

variable {w : Nat}

/-! ## The loop -/

/-- `std::floor(std::log2(x))`: the argument and the result are rounded to `double`. -/
structure FloorLog2 where
  toFun : Nat → Nat
  exact : ∀ x, 0 < x → x < 2 ^ 32 → toFun x = x.log2
  log2_le : ∀ x, 0 < x → x.log2 ≤ toFun x
  le_log2 : ∀ x, 0 < x → toFun x ≤ x.log2 + 1

instance : CoeFun FloorLog2 fun _ => Nat → Nat := ⟨FloorLog2.toFun⟩

/-- Without rounding. -/
def FloorLog2.ofNat : FloorLog2 where
  toFun := Nat.log2
  exact _ _ _ := rfl
  log2_le _ _ := Nat.le_refl _
  le_log2 _ _ := Nat.le_succ _

/-- `len` is a `size_t`.
mirrors byteps/byteps/common/compressor/impl/dithering.cc:70-103 -/
def writeLevels (floorLog2 : FloorLog2) (d : Nat → BitVec w) (levels : Nat → Level) (len : BitVec 64) : Writing w :=
  writeLevelsBy floorLog2 d levels len.toNat

/-- How many bits `EliasDeltaEncode` puts for `x`, seen at an empty writer. -/
def eliasBits (floorLog2 : FloorLog2) (w x : Nat) : Nat :=
  (eliasDeltaEncodeBy floorLog2 { dptr := fun _ => (0 : BitVec w) } x).bits

/-! ## The length of a code -/

/-- The writer's word is never left full, so bits are counted one by one. -/
theorem put_bits {wr : BitWriter w} (h : wr.usedBits < w) (b : Bool) :
    (wr.put b).usedBits < w ∧ (wr.put b).bits = wr.bits + 1 := by
  unfold BitWriter.put
  split
  · next hfull =>
    refine ⟨by simp only; omega, ?_⟩
    simp only [BitWriter.bits, Nat.succ_mul]
    omega
  · next hfull =>
    refine ⟨by simp only; omega, ?_⟩
    simp only [BitWriter.bits]
    omega

theorem putBits_bits {wr : BitWriter w} (h : wr.usedBits < w) (x n : Nat) :
    (putBits x n wr).usedBits < w ∧ (putBits x n wr).bits = wr.bits + n := by
  induction n generalizing wr with
  | zero => exact ⟨h, rfl⟩
  | succ n ih =>
    obtain ⟨hused, hbits⟩ := put_bits h (x >>> n &&& 1 ≠ 0)
    obtain ⟨hused', hbits'⟩ := ih hused
    exact ⟨hused', by rw [putBits, hbits', hbits]; omega⟩

section Length
variable (floorLog2 : FloorLog2)

/-- The length of the code of `x`. -/
def codeLength (x : Nat) : Nat := 2 * floorLog2 (1 + floorLog2 x) + 1 + floorLog2 x

theorem eliasDeltaEncodeBy_bits {wr : BitWriter w} (h : wr.usedBits < w) (x : Nat) :
    (eliasDeltaEncodeBy floorLog2 wr x).usedBits < w ∧
      (eliasDeltaEncodeBy floorLog2 wr x).bits = wr.bits + codeLength floorLog2 x := by
  obtain ⟨hused, hbits⟩ := putBits_bits h 0 (floorLog2 (1 + floorLog2 x))
  obtain ⟨hused', hbits'⟩ := putBits_bits hused (1 + floorLog2 x) (floorLog2 (1 + floorLog2 x) + 1)
  obtain ⟨hused'', hbits''⟩ := putBits_bits hused' x (1 + floorLog2 x - 1)
  refine ⟨hused'', ?_⟩
  rw [eliasDeltaEncodeBy, hbits'', hbits', hbits, codeLength]
  omega

theorem eliasBits_eq (hw : 0 < w) (x : Nat) : eliasBits floorLog2 w x = codeLength floorLog2 x := by
  have hused : ({ dptr := fun _ => (0 : BitVec w) } : BitWriter w).usedBits < w := hw
  rw [eliasBits, (eliasDeltaEncodeBy_bits floorLog2 hused x).2]
  simp [BitWriter.bits]

theorem log2_add_one_lt {x : Nat} (hx : 3 ≤ x) : x.log2 + 1 < x := by
  have h := Nat.lt_two_pow_self (n := x - 2)
  have hpow : 2 ^ (x - 1) = 2 * 2 ^ (x - 2) := by
    rw [show x - 1 = x - 2 + 1 by omega, Nat.pow_succ, Nat.mul_comm]
  have := (Nat.log2_lt (by omega : x ≠ 0)).mpr (show x < 2 ^ (x - 1) by omega)
  omega

theorem floorLog2_lt {x : Nat} (hx : 0 < x) : floorLog2 x < x := by
  by_cases hsmall : x < 2 ^ 32
  · rw [floorLog2.exact x hx hsmall]
    exact (Nat.log2_lt (by omega)).mpr Nat.lt_two_pow_self
  · have hle := floorLog2.le_log2 x hx
    have := log2_add_one_lt (show 3 ≤ x by omega)
    omega

/-- The code of a gap against the gap. -/
theorem codeLength_le {x : Nat} (hx : 0 < x) : codeLength floorLog2 x ≤ 3 * (x - 1) + 1 := by
  have hlen := floorLog2_lt floorLog2 (x := 1 + floorLog2 x) (by omega)
  have hlt := floorLog2_lt floorLog2 hx
  unfold codeLength
  omega

/-- `log2` keeps the order from a number of at most 32 bits on. -/
theorem floorLog2_mono {x y : Nat} (hx : 0 < x) (hsmall : x < 2 ^ 32) (hxy : x ≤ y) : floorLog2 x ≤ floorLog2 y := by
  rw [floorLog2.exact x hx hsmall]
  have hlog : x.log2 ≤ y.log2 := (Nat.le_log2 (by omega)).mpr ((Nat.log2_self_le hx.ne').trans hxy)
  exact hlog.trans (floorLog2.log2_le y (by omega))

theorem codeLength_mono {x y : Nat} (hx : 0 < x) (hsmall : x < 2 ^ 32) (hxy : x ≤ y) :
    codeLength floorLog2 x ≤ codeLength floorLog2 y := by
  have hlog := floorLog2_mono floorLog2 hx hsmall hxy
  have hlt := floorLog2_lt floorLog2 hx
  have hlen := floorLog2_mono floorLog2 (x := 1 + floorLog2 x) (y := 1 + floorLog2 y) (by omega) (by omega) (by omega)
  unfold codeLength
  omega

end Length

/-! ## The loop's budget -/

section Budget
variable (floorLog2 : FloorLog2) {levels : Nat → Level} {Q : Nat}

/-- The elements up to the last level that is not 0 have paid for all bits; `last_non_zero_pos + 1` is their
number, around `-1` too. -/
structure Within (Q i : Nat) (st : Writing w) : Prop where
  used_lt : st.writer.usedBits < w
  pos_le : (st.lastNonZeroPos + 1).toNat ≤ i
  bits_le : st.writer.bits ≤ (st.lastNonZeroPos + 1).toNat * (2 + codeLength floorLog2 Q)

/-- The gap counts the element and the zeros before it. -/
theorem gap_eq {last : BitVec 64} {i : Nat} (hi : i + 1 < 2 ^ 64) (hlast : (last + 1).toNat ≤ i) :
    (BitVec.ofNat 64 i - last).toNat = i + 1 - (last + 1).toNat := by
  bv_omega

theorem gap_mul_le {g : Nat} (hg : 0 < g) : 3 * (g - 1) + 2 + codeLength floorLog2 Q ≤ g * (2 + codeLength floorLog2 Q) := by
  obtain ⟨m, rfl⟩ : ∃ m, g = m + 1 := ⟨g - 1, by omega⟩
  have hthree : 3 ≤ 2 + codeLength floorLog2 Q := by unfold codeLength; omega
  have := Nat.mul_le_mul_left m hthree
  have hmul : (m + 1) * (2 + codeLength floorLog2 Q) = m * (2 + codeLength floorLog2 Q) + (2 + codeLength floorLog2 Q) :=
    Nat.succ_mul _ _
  omega

theorem writeLevelBy_bits_le {st : Writing w} {i : Nat} (hi : i + 1 < 2 ^ 64) (hQ : (levels i).quantized.toNat ≤ Q)
    (h : Within floorLog2 Q i st) : Within floorLog2 Q (i + 1) (writeLevelBy floorLog2 levels st i) := by
  simp only [writeLevelBy]
  split
  · next hq =>
    have hpos : 0 < (levels i).quantized.toNat := Nat.pos_of_ne_zero fun h0 => hq (BitVec.eq_of_toNat_eq h0)
    have hgap := gap_eq hi h.pos_le
    have hle := h.pos_le
    have hnext : (BitVec.ofNat 64 i + 1).toNat = i + 1 := by bv_omega
    -- the gap, the sign and the level
    obtain ⟨hused, hbits⟩ := eliasDeltaEncodeBy_bits floorLog2 h.used_lt (BitVec.ofNat 64 i - st.lastNonZeroPos).toNat
    obtain ⟨hused', hbits'⟩ := put_bits hused (levels i).signbit
    obtain ⟨hused'', hbits''⟩ := eliasDeltaEncodeBy_bits floorLog2 hused' (levels i).quantized.toNat
    refine ⟨hused'', hnext.le, ?_⟩
    have hcode := codeLength_le floorLog2 (x := i + 1 - (st.lastNonZeroPos + 1).toNat) (by omega)
    have hlevel := codeLength_mono floorLog2 hpos (levels i).quantized.isLt hQ
    have hbudget := gap_mul_le floorLog2 (Q := Q) (g := i + 1 - (st.lastNonZeroPos + 1).toNat) (by omega)
    have hbefore := h.bits_le
    rw [hbits'', hbits', hbits, hgap]
    simp only [hnext]
    calc st.writer.bits + codeLength floorLog2 (i + 1 - (st.lastNonZeroPos + 1).toNat) + 1 +
          codeLength floorLog2 (levels i).quantized.toNat
        ≤ (st.lastNonZeroPos + 1).toNat * (2 + codeLength floorLog2 Q) +
          (i + 1 - (st.lastNonZeroPos + 1).toNat) * (2 + codeLength floorLog2 Q) := by omega
      _ = (i + 1) * (2 + codeLength floorLog2 Q) := by
        rw [← Nat.add_mul, Nat.add_sub_cancel' (by omega)]
  · exact ⟨h.used_lt, h.pos_le.trans (Nat.le_succ i), h.bits_le⟩

theorem within_writeLevelsBy (hw : 0 < w) (d : Nat → BitVec w) {n : Nat} (hn : n < 2 ^ 64)
    (hQ : ∀ i < n, (levels i).quantized.toNat ≤ Q) :
    Within floorLog2 Q n ((List.range n).foldl (writeLevelBy floorLog2 levels) ⟨{ dptr := d }, -1⟩) := by
  induction n with
  | zero =>
    have hstart : ((-1 : BitVec 64) + 1).toNat = 0 := by decide
    exact ⟨hw, hstart.le, by simp [BitWriter.bits]⟩
  | succ n ih =>
    rw [List.range_succ, List.foldl_append]
    exact writeLevelBy_bits_le floorLog2 hn (hQ n n.lt_succ_self)
      (ih (by omega) fun i hi => hQ i (by omega))

/-- **The bound.** Levels that are at most `Q`, zeros among them: no stream is longer than that of a vector whose
levels are all `Q`. -/
theorem writeLevels_bits_le (hw : 0 < w) (d : Nat → BitVec w) (levels : Nat → Level) (len : BitVec 64)
    (hQ : ∀ i < len.toNat, (levels i).quantized.toNat ≤ Q) :
    (writeLevels floorLog2 d levels len).writer.bits ≤ len.toNat * (2 + eliasBits floorLog2 w Q) := by
  have h := within_writeLevelsBy floorLog2 hw d len.isLt hQ
  rw [eliasBits_eq floorLog2 hw]
  exact h.bits_le.trans (Nat.mul_le_mul_right _ h.pos_le)

end Budget

/-- Three levels, one of them 0, in words of 16 bits. -/
theorem writeLevels_bits_le_three :
    (writeLevels .ofNat (fun _ => (0 : BitVec 16)) (fun i => ⟨true, if i = 1 then 0 else 3⟩) 3).writer.bits ≤
      3 * (2 + eliasBits .ofNat 16 3) :=
  writeLevels_bits_le .ofNat (by decide) _ _ 3 (by decide)

end Inca.L2.LevelBits
