import Mathlib.Logic.Function.Basic
import Mathlib.Tactic.Ring
import Inca.Core.BitList

/-!
# Bit streams and Elias delta codes (`compressor/utils.h`)

`BitWriter` packs bits into words of `w` bits, the first one topmost, and
`Flush` writes an unfinished word without counting it as full. `BitReader`
takes them out again; it may be asked for bits behind the stream and never
says so. Both are templates over the word type, here over `w`.

* `Wrote`: what a writer has written so far; `Wrote.put`, `Wrote.flush`.
* `BitReader.At`: a reader at bit `p` (`At.get`).
* `eliasDeltaDecode_of_spells`: at the code of `x > 0` the decoder returns `x`
  and stands behind the code.
-/
namespace Inca.L1.BitStream
open Inca.BitList

variable {w : Nat}

/-! ## BitWriter -/

/-- `numBlocks` is `_blocks`: the full words.
mirrors byteps/byteps/common/compressor/utils.h:121-153 -/
structure BitWriter (w : Nat) where
  dptr : Nat → BitVec w
  accum : BitVec w := 0
  usedBits : Nat := 0
  numBlocks : Nat := 0

namespace BitWriter

/-- mirrors byteps/byteps/common/compressor/utils.h:126-134 -/
def put (wr : BitWriter w) (x : Bool) : BitWriter w :=
  let accum := shiftIn wr.accum x
  if wr.usedBits + 1 = w then
    { dptr := Function.update wr.dptr wr.numBlocks accum
      accum := accum
      usedBits := 0
      numBlocks := wr.numBlocks + 1 }
  else { wr with accum := accum, usedBits := wr.usedBits + 1 }

/-- mirrors byteps/byteps/common/compressor/utils.h:136-142 -/
def flush (wr : BitWriter w) : BitWriter w :=
  if wr.usedBits > 0 then
    let accum := wr.accum <<< (w - wr.usedBits)
    { wr with accum := accum, dptr := Function.update wr.dptr wr.numBlocks accum }
  else wr

/-- mirrors byteps/byteps/common/compressor/utils.h:144 -/
def bits (wr : BitWriter w) : Nat := wr.numBlocks * w + wr.usedBits

/-- The source divides floats; this is the exact quotient, rounded up.
mirrors byteps/byteps/common/compressor/utils.h:145 -/
def blocks (wr : BitWriter w) : Nat := (wr.bits + (w - 1)) / w

end BitWriter

/-- The bits `bs` have been written: those of the full words stand in the buffer, the others in
the accumulator. -/
structure Wrote (wr : BitWriter w) (bs : List Bool) : Prop where
  used_lt : wr.usedBits < w
  bits : wr.bits = bs.length
  full : ∀ p < wr.numBlocks * w, bs[p]? = some (bitAt wr.dptr p)
  accum : ∀ i < wr.usedBits, bs[wr.numBlocks * w + i]? = some (wr.accum.getLsbD (wr.usedBits - 1 - i))

namespace Wrote
variable {wr : BitWriter w} {bs : List Bool}

theorem init (hw : 0 < w) (d : Nat → BitVec w) : Wrote { dptr := d } [] :=
  ⟨hw, by simp [BitWriter.bits], fun p hp => by simp at hp, fun i hi => absurd hi (Nat.not_lt_zero i)⟩

theorem bitAt_update {d : Nat → BitVec w} {n i : Nat} (v : BitVec w) (hi : i < w) :
    bitAt (Function.update d n v) (n * w + i) = v.getMsbD i := by
  have hw : 0 < w := by omega
  rw [bitAt, Nat.add_comm, Nat.add_mul_div_right _ _ hw, Nat.div_eq_of_lt hi, Nat.zero_add,
    Function.update_self, Nat.add_mul_mod_self_right, Nat.mod_eq_of_lt hi]

theorem bitAt_update_of_lt {d : Nat → BitVec w} {n p : Nat} (v : BitVec w) (hp : p < n * w) :
    bitAt (Function.update d n v) p = bitAt d p := by
  have hne : p / w ≠ n := (Nat.div_lt_of_lt_mul (Nat.mul_comm n w ▸ hp)).ne
  rw [bitAt, Function.update_of_ne hne, bitAt]

/-- The accumulator after one more bit. -/
theorem accum_put (h : Wrote wr bs) (x : Bool) {i : Nat} (hi : i < wr.usedBits + 1) :
    (bs ++ [x])[wr.numBlocks * w + i]? = some ((shiftIn wr.accum x).getLsbD (wr.usedBits - i)) := by
  have hlen : wr.numBlocks * w + wr.usedBits = bs.length := h.bits
  have hu := h.used_lt
  rcases Nat.lt_succ_iff_lt_or_eq.mp hi with hlt | rfl
  · obtain ⟨j, hj⟩ : ∃ j, wr.usedBits - i = j + 1 := ⟨wr.usedBits - i - 1, by omega⟩
    have hj' : wr.usedBits - 1 - i = j := by omega
    rw [List.getElem?_append_left (by omega), h.accum i hlt, hj, hj', shiftIn_succ _ _ (by omega)]
  · rw [hlen, List.getElem?_concat_length, Nat.sub_self, shiftIn_zero (by omega)]

theorem put (h : Wrote wr bs) (x : Bool) : Wrote (wr.put x) (bs ++ [x]) := by
  have hlen : wr.numBlocks * w + wr.usedBits = bs.length := h.bits
  have hu := h.used_lt
  have hold : ∀ p < wr.numBlocks * w, (bs ++ [x])[p]? = some (bitAt wr.dptr p) := fun p hp => by
    rw [List.getElem?_append_left (by omega), h.full p hp]
  unfold BitWriter.put
  split
  · next hfull =>
    -- the word is full and goes to the buffer
    have hmul : (wr.numBlocks + 1) * w = wr.numBlocks * w + w := Nat.succ_mul _ _
    refine ⟨by simp; omega, ?_, fun p hp => ?_, fun i hi => absurd hi (Nat.not_lt_zero i)⟩
    · simp only [BitWriter.bits, List.length_append, List.length_singleton]; omega
    · simp only at hp ⊢
      by_cases hlt : p < wr.numBlocks * w
      · rw [bitAt_update_of_lt _ hlt, hold p hlt]
      · obtain ⟨i, rfl⟩ := Nat.exists_eq_add_of_le (Nat.le_of_not_lt hlt)
        have hi : i < w := by omega
        rw [bitAt_update _ hi, h.accum_put x (by omega), BitVec.getMsbD_eq_getLsbD, decide_eq_true hi,
          Bool.true_and, show w - 1 - i = wr.usedBits - i by omega]
  · next hfull =>
    refine ⟨by simp; omega, ?_, hold, fun i hi => ?_⟩
    · simp only [BitWriter.bits, List.length_append, List.length_singleton]; omega
    · rw [h.accum_put x hi]
      simp only [Nat.add_sub_cancel]

/-- After `Flush` all bits stand in the buffer. -/
theorem flush (h : Wrote wr bs) : Spells wr.flush.dptr 0 bs ∧ wr.flush.bits = bs.length := by
  have hlen : wr.numBlocks * w + wr.usedBits = bs.length := h.bits
  have hu := h.used_lt
  unfold BitWriter.flush
  split
  · refine ⟨fun p b hb => ?_, h.bits⟩
    rw [Nat.zero_add]
    by_cases hlt : p < wr.numBlocks * w
    · rw [bitAt_update_of_lt _ hlt]
      exact Option.some.inj ((h.full p hlt).symm.trans hb)
    · obtain ⟨i, rfl⟩ := Nat.exists_eq_add_of_le (Nat.le_of_not_lt hlt)
      have hp := (List.getElem?_eq_some_iff.mp hb).1
      have hi : i < wr.usedBits := by omega
      rw [bitAt_update _ (by omega : i < w)]
      have hacc := Option.some.inj ((h.accum i hi).symm.trans hb)
      rw [← hacc, BitVec.getMsbD_eq_getLsbD, BitVec.getLsbD_shiftLeft]
      have h1 : i < w := by omega
      have h2 : w - 1 - i < w := by omega
      have h3 : ¬ w - 1 - i < w - wr.usedBits := by omega
      have h4 : w - 1 - i - (w - wr.usedBits) = wr.usedBits - 1 - i := by omega
      simp [h1, h2, h3, h4]
  · refine ⟨fun p b hb => ?_, h.bits⟩
    have hp := (List.getElem?_eq_some_iff.mp hb).1
    rw [Nat.zero_add]
    exact Option.some.inj ((h.full p (by omega)).symm.trans hb)

end Wrote

/-! ## BitReader -/

/-- mirrors byteps/byteps/common/compressor/utils.h:159-179 -/
structure BitReader (w : Nat) where
  dptr : Nat → BitVec w
  usedBits : Nat := 0
  numBlocks : Nat := 0
  accum : BitVec w := 0

namespace BitReader

/-- mirrors byteps/byteps/common/compressor/utils.h:163-169 -/
def get (rd : BitReader w) : Bool × BitReader w :=
  let rd := if rd.usedBits = 0 then
      { rd with accum := rd.dptr rd.numBlocks, numBlocks := rd.numBlocks + 1, usedBits := w }
    else rd
  (rd.accum.getLsbD (rd.usedBits - 1), { rd with usedBits := rd.usedBits - 1 })

/-- mirrors byteps/byteps/common/compressor/utils.h:171 -/
def bits (rd : BitReader w) : Nat := rd.numBlocks * w - rd.usedBits

/-- The next bit of the reader is bit `p` of the words `d`. -/
structure At (rd : BitReader w) (d : Nat → BitVec w) (p : Nat) : Prop where
  dptr : rd.dptr = d
  used_lt : rd.usedBits < w
  pos : rd.numBlocks * w = p + rd.usedBits
  accum : 0 < rd.usedBits → rd.accum = d (rd.numBlocks - 1)

variable {rd : BitReader w} {d : Nat → BitVec w} {p : Nat}

theorem At.init (hw : 0 < w) (d : Nat → BitVec w) : At { dptr := d } d 0 :=
  ⟨rfl, hw, by simp, fun h => absurd h (Nat.lt_irrefl 0)⟩

theorem At.bits (h : At rd d p) : rd.bits = p := by
  rw [BitReader.bits, h.pos, Nat.add_sub_cancel]

theorem At.get (h : At rd d p) : (rd.get).1 = bitAt d p ∧ At (rd.get).2 d (p + 1) := by
  have hu := h.used_lt
  have hw : 0 < w := by omega
  unfold BitReader.get
  by_cases h0 : rd.usedBits = 0
  · -- the next word is loaded
    have hp : p = rd.numBlocks * w := by rw [h.pos, h0]; rfl
    simp only [h0, if_true]
    refine ⟨?_, h.dptr, by simp; omega, ?_, fun _ => by simp [h.dptr]⟩
    · rw [hp, bitAt, Nat.mul_div_cancel _ hw, Nat.mul_mod_left, BitVec.getMsbD_eq_getLsbD, h.dptr,
        decide_eq_true hw, Bool.true_and, Nat.sub_zero]
    · simp only [Nat.succ_mul]; omega
  · obtain ⟨n, hn⟩ : ∃ n, rd.numBlocks = n + 1 := by
      cases hb : rd.numBlocks with
      | zero => have := h.pos; rw [hb] at this; omega
      | succ n => exact ⟨n, rfl⟩
    have hp : p = n * w + (w - rd.usedBits) := by have := h.pos; rw [hn, Nat.succ_mul] at this; omega
    simp only [h0, if_false]
    refine ⟨?_, h.dptr, by simp; omega, ?_, fun _ => h.accum (by omega)⟩
    · have hlt : w - rd.usedBits < w := by omega
      have hsub : w - 1 - (w - rd.usedBits) = rd.usedBits - 1 := by omega
      rw [hp, bitAt, Nat.add_comm (n * w), Nat.add_mul_div_right _ _ hw, Nat.div_eq_of_lt hlt, Nat.zero_add,
        Nat.add_mul_mod_self_right, Nat.mod_eq_of_lt hlt, BitVec.getMsbD_eq_getLsbD, decide_eq_true hlt,
        Bool.true_and, hsub, h.accum (by omega), hn, Nat.add_sub_cancel]
    · have := h.pos; simp only; omega

end BitReader

/-! ## Elias delta codes -/

/-- `for (i = n - 1; i >= 0; --i) Put((x >> i) & 1)` -/
def putBits (x : Nat) : Nat → BitWriter w → BitWriter w
  | 0, wr => wr
  | n + 1, wr => putBits x n (wr.put (x >>> n &&& 1 ≠ 0))

/-- `floorLog2` is `std::floor(std::log2(x))`.
mirrors byteps/byteps/common/compressor/utils.h:192-200 -/
def eliasDeltaEncodeBy (floorLog2 : Nat → Nat) (wr : BitWriter w) (x : Nat) : BitWriter w :=
  let len := 1 + floorLog2 x
  let lenthOfLen := floorLog2 len
  let wr := putBits 0 lenthOfLen wr
  let wr := putBits len (lenthOfLen + 1) wr
  putBits x (len - 1) wr

/-- With the exact logarithm. -/
def eliasDeltaEncode (wr : BitWriter w) (x : Nat) : BitWriter w := eliasDeltaEncodeBy Nat.log2 wr x

/-- `while (!Get()) lenth_of_len++`; `none` if `fuel` rounds are not enough. -/
def countZeros : Nat → Nat → BitReader w → Option (Nat × BitReader w)
  | 0, _, _ => none
  | fuel + 1, n, rd =>
    let r := rd.get
    if r.1 then some (n, r.2) else countZeros fuel (n + 1) r.2

/-- `for (i = 0; i < n; i++) { x <<= 1; if (Get()) x |= 1; }` -/
def getBits : Nat → Nat → BitReader w → Nat × BitReader w
  | 0, x, rd => (x, rd)
  | n + 1, x, rd =>
    let r := rd.get
    getBits n (if r.1 then x <<< 1 ||| 1 else x <<< 1) r.2

/-- mirrors byteps/byteps/common/compressor/utils.h:202-217 -/
def eliasDeltaDecode (fuel : Nat) (rd : BitReader w) : Option (Nat × BitReader w) :=
  (countZeros fuel 0 rd).map fun (lenthOfLen, rd) =>
    let (len, rd) := getBits lenthOfLen 1 rd
    getBits (len - 1) 1 rd

theorem Wrote.putBits {wr : BitWriter w} {bs : List Bool} (h : Wrote wr bs) (x n : Nat) :
    Wrote (putBits x n wr) (bs ++ msbBits n x) := by
  induction n generalizing wr bs with
  | zero => simpa [BitStream.putBits, msbBits] using h
  | succ n ih =>
    have hbit : decide (x >>> n &&& 1 ≠ 0) = x.testBit n := by
      rw [Bool.eq_iff_iff, decide_eq_true_iff, Nat.testBit, bne_iff_ne, Nat.and_comm]
    have := ih (h.put (x.testBit n))
    rw [List.append_assoc, List.singleton_append] at this
    rwa [BitStream.putBits, hbit]

theorem Wrote.eliasDeltaEncode {wr : BitWriter w} {bs : List Bool} (h : Wrote wr bs) (x : Nat) :
    Wrote (eliasDeltaEncode wr x) (bs ++ eliasDelta x) := by
  have := ((h.putBits 0 (1 + x.log2).log2).putBits (1 + x.log2) ((1 + x.log2).log2 + 1)).putBits x
    (1 + x.log2 - 1)
  rw [msbBits_zero, List.append_assoc, List.append_assoc, ← List.append_assoc (List.replicate _ _)] at this
  exact this

section Decode
variable {rd : BitReader w} {d : Nat → BitVec w} {p : Nat}

theorem countZeros_of_spells {k fuel : Nat} (n : Nat) (h : rd.At d p) (hk : k < fuel)
    (hs : Spells d p (List.replicate k false ++ [true])) :
    ∃ rd', countZeros fuel n rd = some (n + k, rd') ∧ rd'.At d (p + k + 1) := by
  induction k generalizing fuel n rd p with
  | zero =>
    obtain ⟨hget, hat⟩ := h.get
    obtain ⟨fuel, rfl⟩ : ∃ f, fuel = f + 1 := ⟨fuel - 1, by omega⟩
    have hb : bitAt d p = true := (spells_cons.mp hs).1
    exact ⟨_, by simp [countZeros, hget, hb], hat⟩
  | succ k ih =>
    obtain ⟨hget, hat⟩ := h.get
    obtain ⟨fuel, rfl⟩ : ∃ f, fuel = f + 1 := ⟨fuel - 1, by omega⟩
    rw [List.replicate_succ, List.cons_append] at hs
    obtain ⟨hb, hs⟩ := spells_cons.mp hs
    have hk' : k < fuel := by omega
    obtain ⟨rd', hc, hat'⟩ := ih (n + 1) hat hk' hs
    refine ⟨rd', ?_, ?_⟩
    · rw [countZeros, hget, hb, if_neg Bool.false_ne_true, hc, Nat.add_assoc, Nat.add_comm 1 k]
    · rwa [show p + (k + 1) + 1 = p + 1 + k + 1 by omega]

theorem getBits_of_spells {bs : List Bool} (x : Nat) (h : rd.At d p) (hs : Spells d p bs) :
    (getBits bs.length x rd).1 = ofBits x bs ∧ (getBits bs.length x rd).2.At d (p + bs.length) := by
  induction bs generalizing x rd p with
  | nil => exact ⟨rfl, h⟩
  | cons b bs ih =>
    obtain ⟨hget, hat⟩ := h.get
    obtain ⟨hb, hs⟩ := spells_cons.mp hs
    have hx : (if rd.get.1 then x <<< 1 ||| 1 else x <<< 1) = 2 * x + b.toNat := by
      rw [hget, hb]
      cases b with
      | false => simp [Nat.shiftLeft_eq, Nat.mul_comm]
      | true =>
        rw [if_pos rfl, Nat.shiftLeft_eq, Nat.mul_comm, pow_one]
        exact (Nat.two_pow_add_eq_or_of_lt (i := 1) (by decide) x).symm
    have := ih (2 * x + b.toNat) hat hs
    rw [List.length_cons, getBits, hx, ofBits, List.foldl_cons, show p + (bs.length + 1) = p + 1 + bs.length by omega]
    exact this

/-- Decoding what was encoded. -/
theorem eliasDeltaDecode_of_spells {x fuel : Nat} (hx : x ≠ 0) (h : rd.At d p)
    (hs : Spells d p (eliasDelta x)) (hf : (eliasDelta x).length ≤ fuel) :
    ∃ rd', eliasDeltaDecode fuel rd = some (x, rd') ∧ rd'.At d (p + (eliasDelta x).length) := by
  have hlen : (eliasDelta x).length = 2 * (1 + x.log2).log2 + 1 + x.log2 := by
    rw [eliasDelta_eq]; simp; omega
  rw [eliasDelta_eq, List.append_cons] at hs
  obtain ⟨hzeros, hs⟩ := spells_append.mp hs
  obtain ⟨hlens, hnum⟩ := spells_append.mp hs
  simp only [List.length_append, List.length_replicate, List.length_singleton] at hlens hnum
  obtain ⟨rd₁, hcount, h₁⟩ := countZeros_of_spells 0 h (by omega : (1 + x.log2).log2 < fuel) hzeros
  obtain ⟨hlen₂, h₂⟩ := getBits_of_spells 1 h₁ hlens
  rw [msbBits_length] at hlen₂ h₂ hnum
  rw [ofBits_log2 (by omega)] at hlen₂
  obtain ⟨hnum₃, h₃⟩ := getBits_of_spells 1 h₂ hnum
  rw [msbBits_length] at hnum₃ h₃
  rw [ofBits_log2 hx] at hnum₃
  refine ⟨(getBits x.log2 1 (getBits (1 + x.log2).log2 1 rd₁).2).2, ?_, ?_⟩
  · rw [eliasDeltaDecode, hcount, Option.map_some, Nat.zero_add]
    simp only [hlen₂, Nat.add_sub_cancel_left]
    exact congrArg some (Prod.ext hnum₃ rfl)
  · rw [hlen]
    convert h₃ using 1
    omega

end Decode
end Inca.L1.BitStream
