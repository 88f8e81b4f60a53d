import Mathlib.Tactic.Ring
import Inca.Core.RoundBits
import Inca.L1Encoding.BitStream

/-!
# Bit streams as the machine reads and measures them (`compressor/utils.h`)

`BitWriter` and `BitReader` are templates over the word, which the dispatch of
the compressors (`compressor/common.h`) instantiates with 16, 32 and 64 bits.
Two expressions do not follow the word: `Get` tests a bit with the mask
`1 << n`, an `int` whatever the word is, and `blocks` divides in `float`.
`BitStream` has the bit and the quotient that are meant; here they are as
written.

* `getMasked_eq_get`: up to 32 bits the mask is the bit.
* `round_trip_iff`: what was written is read back, for 16 and 32 bits; for 64
  bits it is not, whatever the machine makes of a shift by more than 31.
* `stores_eq`: the words that `Put` and `Flush` write.
* `blocks_iff`: for which numbers of bits `blocks` counts them, that is, where
  the rounding of the conversion to `float` does no harm.
-/
namespace Inca.L1.BitWords
open Inca.BitList Inca.L1.BitStream

variable {w : Nat}

/-! ## Get -/

/-- `1 << n`; a shift by the width of `int` or more is undefined, `undef n` is what it gives. -/
def intShl (undef : Nat → BitVec 32) (n : Nat) : BitVec 32 := if n < 32 then 1 <<< n else undef n

/-- `x & mask`: `x` is promoted to `int`, or `mask` is converted to the wider word.
mirrors byteps/byteps/common/compressor/utils.h:168 -/
def andInt (x : BitVec w) (mask : BitVec 32) : BitVec (max w 32) :=
  x.setWidth (max w 32) &&& mask.signExtend (max w 32)

/-- mirrors byteps/byteps/common/compressor/utils.h:163-169 -/
def getMasked (undef : Nat → BitVec 32) (rd : BitReader w) : Bool × BitReader w :=
  let rd := if rd.usedBits = 0 then
      { rd with accum := rd.dptr rd.numBlocks, numBlocks := rd.numBlocks + 1, usedBits := w }
    else rd
  (andInt rd.accum (intShl undef (rd.usedBits - 1)) != 0, { rd with usedBits := rd.usedBits - 1 })

def writeBits (wr : BitWriter w) (bs : List Bool) : BitWriter w := bs.foldl BitWriter.put wr

def readBits (undef : Nat → BitVec 32) : Nat → BitReader w → List Bool
  | 0, _ => []
  | n + 1, rd =>
    let r := getMasked undef rd
    r.1 :: readBits undef n r.2

/-- The bits that are read after `bs` was written to the buffer `d` and flushed. -/
def readBack (undef : Nat → BitVec 32) (d : Nat → BitVec w) (bs : List Bool) : List Bool :=
  readBits undef bs.length { dptr := (writeBits { dptr := d } bs).flush.dptr }

/-! ### Words of 16 and 32 bits -/

theorem andInt_eq_zero_iff {x : BitVec w} {mask : BitVec 32} :
    andInt x mask = 0 ↔ ∀ i < max w 32, x.getLsbD i = true → (mask.signExtend (max w 32)).getLsbD i = false := by
  constructor
  · intro h i hi hx
    have hbit := congrArg (fun v => v.getLsbD i) h
    simp only [andInt, BitVec.getLsbD_and, BitVec.getLsbD_setWidth, hi, decide_true, hx, Bool.true_and] at hbit
    simpa using hbit
  · intro h
    apply BitVec.eq_of_getLsbD_eq
    intro i hi
    simp only [andInt, BitVec.getLsbD_and, BitVec.getLsbD_setWidth, hi, decide_true, Bool.true_and]
    cases hx : x.getLsbD i with
    | false => simp
    | true => simp [h i hi hx]

/-- In `int` the mask tests its bit. -/
theorem andInt_intShl (undef : Nat → BitVec 32) (hw : w ≤ 32) (x : BitVec w) {n : Nat} (hn : n < w) :
    (andInt x (intShl undef n) != 0) = x.getLsbD n := by
  have hmask : ∀ i < 32, ((intShl undef n).signExtend (max w 32)).getLsbD i = decide (i = n) := by
    intro i hi
    have hn32 : n < 32 := by omega
    have hlt : i < max w 32 := by omega
    rw [BitVec.getLsbD_signExtend, decide_eq_true hlt, Bool.true_and, if_pos hi, intShl, if_pos hn32]
    exact (BitVec.getLsbD_twoPow n i).trans (by simp only [decide_eq_true hn32, Bool.true_and, eq_comm])
  rw [Bool.eq_iff_iff, bne_iff_ne, ne_eq, andInt_eq_zero_iff]
  constructor
  · intro h
    by_contra hx
    apply h
    intro i hi hxi
    rw [hmask i (by omega), decide_eq_false_iff_not]
    intro hin
    exact hx (hin ▸ hxi)
  · intro hx h
    have := h n (by omega) hx
    rw [hmask n (by omega)] at this
    simp at this

theorem getMasked_eq_get (undef : Nat → BitVec 32) (hw : w ≤ 32) {rd : BitReader w} {d : Nat → BitVec w} {p : Nat}
    (h : rd.At d p) : getMasked undef rd = rd.get := by
  have hu := h.used_lt
  unfold getMasked BitReader.get
  refine Prod.ext ?_ rfl
  simp only
  split
  · exact andInt_intShl undef hw _ (by simp only; omega)
  · exact andInt_intShl undef hw _ (by omega)

/-- A reader at a list of bits returns them. -/
theorem readBits_of_spells (undef : Nat → BitVec 32) (hw : w ≤ 32) {rd : BitReader w} {d : Nat → BitVec w}
    {p : Nat} {bs : List Bool} (h : rd.At d p) (hs : Spells d p bs) : readBits undef bs.length rd = bs := by
  induction bs generalizing rd p with
  | nil => rfl
  | cons b bs ih =>
    obtain ⟨hb, hs⟩ := spells_cons.mp hs
    obtain ⟨hget, hat⟩ := h.get
    rw [List.length_cons, readBits]
    simp only [getMasked_eq_get undef hw h]
    rw [hget, hb, ih hat hs]

theorem wrote_writeBits {wr : BitWriter w} {cs : List Bool} (h : Wrote wr cs) (bs : List Bool) :
    Wrote (writeBits wr bs) (cs ++ bs) := by
  induction bs generalizing wr cs with
  | nil => simpa [writeBits] using h
  | cons b bs ih =>
    have := ih (h.put b)
    rwa [List.append_assoc, List.singleton_append] at this

theorem readBack_eq (undef : Nat → BitVec 32) (hw0 : 0 < w) (hw : w ≤ 32) (d : Nat → BitVec w) (bs : List Bool) :
    readBack undef d bs = bs :=
  readBits_of_spells undef hw (.init hw0 _) (wrote_writeBits (.init hw0 d) bs).flush.1

/-! ### Words of 64 bits -/

/-- Bits 31 to 63 of a mask that comes from an `int` are the same. -/
theorem getLsbD_signExtend_high (mask : BitVec 32) {i : Nat} (hi : 32 ≤ i) (hi' : i < 64) :
    (mask.signExtend 64).getLsbD i = mask.msb := by
  rw [BitVec.getLsbD_signExtend, decide_eq_true hi', Bool.true_and, if_neg (by omega)]

/-- Such a mask tests all bits from 31 on at once. -/
theorem andInt_twoPow (mask : BitVec 32) {n : Nat} (hn : 32 ≤ n) (hn' : n < 64) :
    (andInt (BitVec.twoPow 64 n) mask != 0) = mask.msb := by
  have hone : ∀ i, (BitVec.twoPow 64 n).getLsbD i = true → i = n := by
    intro i hi
    rw [BitVec.getLsbD_twoPow, Bool.and_eq_true, decide_eq_true_eq, decide_eq_true_eq] at hi
    exact hi.2.symm
  rw [Bool.eq_iff_iff, bne_iff_ne, ne_eq, andInt_eq_zero_iff]
  constructor
  · intro h
    by_contra hm
    apply h
    intro i _ hi
    rw [hone i hi]
    exact (getLsbD_signExtend_high mask hn hn').trans (Bool.eq_false_iff.mpr hm)
  · intro hm h
    have hbit : (BitVec.twoPow 64 n).getLsbD n = true := by
      rw [BitVec.getLsbD_twoPow, decide_eq_true hn', decide_eq_true rfl, Bool.and_true]
    have := h n (by omega) hbit
    rw [show (mask.signExtend (max 64 32)).getLsbD n = mask.msb from getLsbD_signExtend_high mask hn hn', hm] at this
    cases this

/-- The first bit that is read of a word with a single 1 in its upper half. -/
theorem readBits_head (undef : Nat → BitVec 32) {d : Nat → BitVec 64} {n m : Nat} (hn : 32 ≤ n) (hn' : n < 64)
    (hd : d 0 = BitVec.twoPow 64 n) : (readBits undef (m + 1) { dptr := d }).head? = some (undef 63).msb := by
  have hmask : intShl undef 63 = undef 63 := if_neg (by decide)
  rw [readBits, List.head?_cons]
  simp only [getMasked, if_true, hd, hmask]
  rw [andInt_twoPow _ hn hn']

/-- A single 1, and the 0 of the bits 0 and 1, are both read as the sign of what `1 << 63` gives. -/
theorem readBack_true (undef : Nat → BitVec 32) (d : Nat → BitVec 64) :
    (readBack undef d [true]).head? = some (undef 63).msb := by
  refine readBits_head undef (n := 63) (by decide) (by decide) ?_
  show Function.update d 0 (shiftIn 0 true <<< (64 - 1)) 0 = _
  rw [Function.update_self]
  decide

theorem readBack_false_true (undef : Nat → BitVec 32) (d : Nat → BitVec 64) :
    (readBack undef d [false, true]).head? = some (undef 63).msb := by
  refine readBits_head undef (n := 62) (by decide) (by decide) ?_
  show Function.update d 0 (shiftIn (shiftIn 0 false) true <<< (64 - 2)) 0 = _
  rw [Function.update_self]
  decide

/-- **Bit streams.** For the word types of the dispatch, and whatever a shift beyond `int` gives:
bits that are written and flushed are read back as they were, exactly if the word is not the one
of 64 bits. -/
theorem round_trip_iff (hw : w = 16 ∨ w = 32 ∨ w = 64) (undef : Nat → BitVec 32) :
    (∀ (d : Nat → BitVec w) (bs : List Bool), readBack undef d bs = bs) ↔ w ≠ 64 := by
  constructor
  · intro h h64
    subst h64
    have htrue := readBack_true undef fun _ => 0
    have hfalse := readBack_false_true undef fun _ => 0
    rw [h] at htrue hfalse
    rw [← htrue] at hfalse
    cases hfalse
  · intro h64 d bs
    exact readBack_eq undef (by omega) (by omega) d bs

/-- What an x86 machine does: it shifts by the lowest five bits of the count. -/
def shiftMod32 (n : Nat) : BitVec 32 := 1 <<< (n % 32)

/-- Words of 32 bits. -/
theorem round_trip_three :
    readBack (w := 32) shiftMod32 (fun _ => 0) [true, false, true] = [true, false, true] :=
  (round_trip_iff (w := 32) (.inr (.inl rfl)) shiftMod32).mpr (by decide) _ _

/-- **Counterexample.** The bits 0, 1 are read as 1, 0. -/
theorem round_trip_counterexample :
    readBack (w := 64) shiftMod32 (fun _ => 0) [false, true] = [true, false] := by
  decide +kernel

/-! ## Blocks -/

/-- A `float` has 24 significant bits; its quotient by the width, a power of two, is exact, and so
is `std::ceil`.
mirrors byteps/byteps/common/compressor/utils.h:145 -/
def floatBlocks (wr : BitWriter w) : Nat := (roundBits 24 wr.bits + (w - 1)) / w

/-- The indices at which `Put` and `Flush` write a word, from a writer on.
mirrors byteps/byteps/common/compressor/utils.h:130-133, 137-141 -/
def stores : BitWriter w → List Bool → List Nat
  | wr, [] => if wr.usedBits > 0 then [wr.numBlocks] else []
  | wr, x :: bs => (if wr.usedBits + 1 = w then [wr.numBlocks] else []) ++ stores (wr.put x) bs

/-- The size that `CompressImpl` returns: the words, the bit count and the scale.
mirrors byteps/byteps/common/compressor/impl/dithering.cc:114-115 -/
def compressedSize (w blocks : Nat) : Nat := blocks * (w / 8) + w / 8 + 4

/-- Where `DecompressImpl` reads the bit count; the scale is behind it.
mirrors byteps/byteps/common/compressor/impl/dithering.cc:129-134 -/
def bitsIndex (w size : Nat) : Nat := (size - 4 - w / 8) / (w / 8)

theorem bitsIndex_compressedSize (hw : 8 ≤ w) (blocks : Nat) : bitsIndex w (compressedSize w blocks) = blocks := by
  have hb : 0 < w / 8 := Nat.div_pos hw (by decide)
  have hsub : blocks * (w / 8) + w / 8 + 4 - 4 - w / 8 = blocks * (w / 8) := by omega
  rw [bitsIndex, compressedSize, hsub, Nat.mul_div_cancel _ hb]

theorem ceil_eq_iff (hw : 0 < w) {x c : Nat} : (x + (w - 1)) / w = c ↔ x ≤ c * w ∧ c * w < x + w := by
  rw [Nat.div_eq_iff hw]
  omega

/-- The words are written in order, each once. -/
theorem stores_eq {wr : BitWriter w} {cs : List Bool} (h : Wrote wr cs) (bs : List Bool) :
    stores wr bs = List.range' wr.numBlocks (((cs ++ bs).length + (w - 1)) / w - wr.numBlocks) := by
  have hu := h.used_lt
  have hw : 0 < w := by omega
  induction bs generalizing wr cs with
  | nil =>
    have hlen : wr.numBlocks * w + wr.usedBits = cs.length := h.bits
    unfold stores
    rw [List.append_nil]
    split
    · have hc : (cs.length + (w - 1)) / w = wr.numBlocks + 1 := by
        rw [ceil_eq_iff hw, Nat.add_mul]
        omega
      rw [hc, Nat.add_sub_cancel_left]
      rfl
    · have hc : (cs.length + (w - 1)) / w = wr.numBlocks := by
        rw [ceil_eq_iff hw]
        omega
      rw [hc, Nat.sub_self]
      rfl
  | cons b bs ih =>
    have hlen : wr.numBlocks * w + wr.usedBits = cs.length := h.bits
    have hput := h.put b
    unfold stores
    rw [ih hput hput.used_lt, List.append_assoc, List.singleton_append]
    split
    · next hfull =>
      -- the new word is counted
      have hnum : (wr.put b).numBlocks = wr.numBlocks + 1 := by simp [BitWriter.put, hfull]
      have hle : wr.numBlocks + 1 ≤ ((cs ++ b :: bs).length + (w - 1)) / w := by
        rw [Nat.le_div_iff_mul_le hw, Nat.add_mul, List.length_append, List.length_cons]
        omega
      rw [hnum, List.singleton_append, show ((cs ++ b :: bs).length + (w - 1)) / w - wr.numBlocks =
        ((cs ++ b :: bs).length + (w - 1)) / w - (wr.numBlocks + 1) + 1 by omega, List.range'_succ]
    · next hfull =>
      have hnum : (wr.put b).numBlocks = wr.numBlocks := by simp [BitWriter.put, hfull]
      rw [hnum, List.nil_append]

/-! ### Rounding and words -/

/-- Rounding `n` to `p` bits does not change its number of words: up to a distance of half a word
between two floats, `n` bits do not stop in the first half of a distance after a full word; in a
distance of a word the even neighbour wins; and beyond, the words of `n` end at a float. -/
def Counted (p w n : Nat) : Prop :=
  if ulp p n < w then n % w = 0 ∨ ulp p n < 2 * (n % w)
  else if ulp p n = w then n % w = 0 ∨ w < 2 * (n % w) ∨ 2 * (n % (2 * w)) = 3 * w
  else ulp p n ∣ (n + (w - 1)) / w * w

instance (p w n : Nat) : Decidable (Counted p w n) := inferInstanceAs (Decidable (ite _ _ _))

section Rounding
variable {p n : Nat} {j : Nat} (hw : w = 2 ^ j)
include hw

theorem words_of_ne (hr : n % w ≠ 0) : (n + (w - 1)) / w = n / w + 1 := by
  have hpos : 0 < w := hw ▸ Nat.two_pow_pos j
  have hlt := Nat.mod_lt n hpos
  have hdiv := Nat.div_add_mod n w
  rw [ceil_eq_iff hpos, Nat.add_mul, Nat.mul_comm (n / w)]
  omega

/-- A distance that is less than a word. -/
theorem counted_small (hs : ulp p n < w) : n / w * w < roundBits p n ↔ ulp p n < 2 * (n % w) := by
  have hpos : 0 < w := hw ▸ Nat.two_pow_pos j
  have hu := ulp_pos p n
  obtain ⟨c, hc⟩ : 2 * ulp p n ∣ w := by
    rw [hw, ulp, Nat.mul_comm, ← Nat.pow_succ]
    refine Nat.pow_dvd_pow 2 ?_
    rw [hw, ulp] at hs
    exact (Nat.pow_lt_pow_iff_right (by decide)).mp hs
  -- the full words are an even number of distances
  have hwords : n / w * w = (n / w * c * 2) * ulp p n := by
    calc n / w * w = n / w * (2 * ulp p n * c) := by rw [← hc]
      _ = (n / w * c * 2) * ulp p n := by ring
  have hdiv := Nat.div_add_mod n w
  rw [Nat.mul_comm, hwords] at hdiv
  rw [hwords]
  by_cases hlt : n % w < ulp p n
  · constructor
    · intro h
      by_contra hle
      rw [roundBits_down hdiv.symm (by omega)] at h
      exact Nat.lt_irrefl _ h
    · intro h
      rw [roundBits_up hdiv.symm hlt (by omega), Nat.add_mul]
      omega
  · refine ⟨fun _ => by omega, fun _ => ?_⟩
    have hle : (n / w * c * 2 + 1) * ulp p n ≤ roundBits p n :=
      le_roundBits (by rw [Nat.add_mul]; omega) (Nat.dvd_mul_left _ _)
    rw [Nat.add_mul] at hle
    omega

/-- A distance of one word. -/
theorem counted_word (hs : ulp p n = w) :
    n / w * w < roundBits p n ↔ w < 2 * (n % w) ∨ 2 * (n % (2 * w)) = 3 * w := by
  have hpos : 0 < w := hw ▸ Nat.two_pow_pos j
  have hlt := Nat.mod_lt n hpos
  have hmod : n % (2 * w) = n % w + w * (n / w % 2) := by rw [Nat.mul_comm, Nat.mod_mul]
  have hdiv : n = n / w * ulp p n + n % w := by rw [hs, Nat.mul_comm, Nat.div_add_mod]
  rw [hmod]
  rcases Nat.mod_two_eq_zero_or_one (n / w) with h2 | h2
  · rw [h2, Nat.mul_zero, Nat.add_zero]
    by_cases hup : w < 2 * (n % w)
    · rw [roundBits_up hdiv (by omega) (by omega), hs, Nat.add_mul]
      omega
    · rw [roundBits_down hdiv (by omega), hs]
      omega
  · rw [h2, Nat.mul_one]
    by_cases hup : 2 * (n % w) < w
    · rw [roundBits_down hdiv (by omega), hs]
      omega
    · rw [roundBits_up hdiv (by omega) (by omega), hs, Nat.add_mul]
      omega

/-- A distance of several words. -/
theorem counted_large (hs : w < ulp p n) :
    roundBits p n = (n + (w - 1)) / w * w ↔ ulp p n ∣ (n + (w - 1)) / w * w := by
  have hpos : 0 < w := hw ▸ Nat.two_pow_pos j
  have h2 : 2 * w ≤ ulp p n := by
    rw [hw, ulp, Nat.mul_comm, ← Nat.pow_succ]
    rw [hw, ulp] at hs
    exact Nat.pow_le_pow_right (by decide) ((Nat.pow_lt_pow_iff_right (by decide)).mp hs)
  obtain ⟨hle, hlt⟩ := (ceil_eq_iff hpos).mp (rfl : (n + (w - 1)) / w = (n + (w - 1)) / w)
  constructor
  · intro h
    rw [← h]
    exact ulp_dvd_roundBits p n
  · intro hd
    by_cases heq : n = (n + (w - 1)) / w * w
    · rw [← heq] at hd ⊢
      exact roundBits_eq_self hd
    · -- the next multiple is nearer than half a distance
      obtain ⟨q, hq⟩ := hd
      rw [hq] at hle hlt heq ⊢
      cases q with
      | zero => omega
      | succ q =>
        rw [Nat.mul_comm, Nat.add_mul, Nat.one_mul] at hle hlt heq ⊢
        have hn : n = q * ulp p n + (n - q * ulp p n) := by omega
        rw [roundBits_up hn (by omega) (by omega), Nat.add_mul, Nat.one_mul]

theorem ulp_dvd (h : ulp p n ≤ w) : ulp p n ∣ w := by
  rw [hw, ulp] at h ⊢
  exact Nat.pow_dvd_pow 2 ((Nat.pow_le_pow_iff_right (by decide)).mp h)

theorem dvd_ulp (h : w < ulp p n) : w ∣ ulp p n := by
  rw [hw, ulp] at h ⊢
  exact Nat.pow_dvd_pow 2 ((Nat.pow_lt_pow_iff_right (by decide)).mp h).le

/-- Full words end at floats, so a partial word is lost or kept. -/
theorem ceil_roundBits_of_le (hle : ulp p n ≤ w) (hr : n % w ≠ 0) :
    (roundBits p n + (w - 1)) / w = (n + (w - 1)) / w ↔ n / w * w < roundBits p n := by
  have hpos : 0 < w := hw ▸ Nat.two_pow_pos j
  have hwords := words_of_ne hw hr
  have hup : roundBits p n ≤ (n / w + 1) * w := by
    refine roundBits_le ?_ (Nat.dvd_mul_left_of_dvd (ulp_dvd hw hle) _)
    rw [← hwords]
    exact ((ceil_eq_iff hpos).mp rfl).1
  rw [ceil_eq_iff hpos, hwords]
  rw [Nat.add_mul] at hup ⊢
  omega

/-- Floats are whole words: two multiples of `w` less than `w` apart are equal. -/
theorem ceil_roundBits_of_gt (hlt : w < ulp p n) :
    (roundBits p n + (w - 1)) / w = (n + (w - 1)) / w ↔ roundBits p n = (n + (w - 1)) / w * w := by
  have hpos : 0 < w := hw ▸ Nat.two_pow_pos j
  obtain ⟨k, hk⟩ := (dvd_ulp hw hlt).trans (ulp_dvd_roundBits p n)
  have hwords : (w * k + (w - 1)) / w = k := by
    rw [Nat.mul_add_div hpos, Nat.div_eq_of_lt (by omega), Nat.add_zero]
  rw [hk, hwords, Nat.mul_comm w k]
  exact (Nat.mul_left_inj hpos.ne').symm

/-- The words are counted right exactly if rounding does not change their number. -/
theorem ceil_roundBits_iff : (roundBits p n + (w - 1)) / w = (n + (w - 1)) / w ↔ Counted p w n := by
  unfold Counted
  by_cases hle : ulp p n ≤ w
  · by_cases hr : n % w = 0
    · have hself : roundBits p n = n := roundBits_eq_self ((ulp_dvd hw hle).trans (Nat.dvd_of_mod_eq_zero hr))
      rw [hself]
      refine ⟨fun _ => ?_, fun _ => rfl⟩
      split
      · exact .inl hr
      · rw [if_pos (by omega)]
        exact .inl hr
    · rw [ceil_roundBits_of_le hw hle hr]
      by_cases hlt : ulp p n < w
      · rw [if_pos hlt, counted_small hw hlt]
        omega
      · rw [if_neg hlt, if_pos (by omega), counted_word hw (by omega)]
        omega
  · have hlt : w < ulp p n := by omega
    rw [ceil_roundBits_of_gt hw hlt, if_neg (by omega), if_neg (by omega), counted_large hw hlt]

end Rounding

theorem bits_flush (wr : BitWriter w) : wr.flush.bits = wr.bits := by
  unfold BitWriter.flush
  split
  · rfl
  · rfl

/-- **Blocks.** For the word types of the dispatch and every sequence of bits: `blocks` is the number
of words that `Put` and `Flush` have written exactly if rounding the number of bits to a `float`
does not change it. Then the bit count and the scale stand behind the written words, and
`DecompressImpl` always looks for them where they were put. -/
theorem blocks_iff (hw : w = 16 ∨ w = 32 ∨ w = 64) (d : Nat → BitVec w) (bs : List Bool) :
    let blocks := floatBlocks (writeBits { dptr := d } bs).flush
    let written := stores { dptr := d } bs
    (blocks = written.length ↔ Counted 24 w bs.length) ∧
    (Counted 24 w bs.length → blocks ∉ written ∧ blocks + 1 ∉ written) ∧
    bitsIndex w (compressedSize w blocks) = blocks := by
  intro blocks written
  have hpos : 0 < w := by omega
  have hpow : ∃ j, w = 2 ^ j := by
    rcases hw with rfl | rfl | rfl
    · exact ⟨4, rfl⟩
    · exact ⟨5, rfl⟩
    · exact ⟨6, rfl⟩
  obtain ⟨j, hj⟩ := hpow
  have hinit : Wrote { dptr := d } ([] : List Bool) := .init hpos d
  have hblocks : blocks = (roundBits 24 bs.length + (w - 1)) / w := by
    show (roundBits 24 (writeBits { dptr := d } bs).flush.bits + (w - 1)) / w = _
    rw [bits_flush, (wrote_writeBits hinit bs).bits, List.nil_append]
  have hwritten : written = List.range' 0 ((bs.length + (w - 1)) / w) := by
    have := stores_eq hinit bs
    rwa [List.nil_append, Nat.sub_zero] at this
  have hiff : blocks = written.length ↔ Counted 24 w bs.length := by
    rw [hwritten, List.length_range', hblocks]
    exact ceil_roundBits_iff hj
  refine ⟨hiff, fun hc => ?_, bitsIndex_compressedSize (by omega) blocks⟩
  have hlen := hiff.mpr hc
  rw [hwritten, List.length_range'] at hlen
  rw [hwritten, ← List.range_eq_range', List.mem_range, List.mem_range]
  omega

/-- 33 bits are two words. -/
theorem blocks_thirty_three :
    floatBlocks (writeBits (w := 32) { dptr := fun _ => 0 } (List.replicate 33 true)).flush =
      (stores (w := 32) { dptr := fun _ => 0 } (List.replicate 33 true)).length :=
  (blocks_iff (w := 32) (.inr (.inl rfl)) (fun _ => 0) (List.replicate 33 true)).1.mpr (by decide)

/-- **Counterexample.** Of `2 ^ 24 + 1` bits, the bit count is written over the last word. -/
theorem blocks_counterexample :
    let bs := List.replicate (2 ^ 24 + 1) true
    floatBlocks (writeBits (w := 32) { dptr := fun _ => 0 } bs).flush = 2 ^ 19 ∧
    (stores (w := 32) { dptr := fun _ => 0 } bs).length = 2 ^ 19 + 1 ∧
    2 ^ 19 ∈ stores (w := 32) { dptr := fun _ => 0 } bs := by
  intro bs
  have hlen : bs.length = 2 ^ 24 + 1 := List.length_replicate
  have hinit : Wrote (w := 32) { dptr := fun _ => 0 } ([] : List Bool) := .init (by decide) _
  have hwritten : stores (w := 32) { dptr := fun _ => 0 } bs = List.range' 0 (2 ^ 19 + 1) := by
    rw [stores_eq hinit bs, List.nil_append, hlen]
    exact congrArg (List.range' 0) (show (2 ^ 24 + 1 + (32 - 1)) / 32 - 0 = 2 ^ 19 + 1 by decide)
  refine ⟨?_, ?_, ?_⟩
  · rw [floatBlocks, bits_flush, (wrote_writeBits hinit bs).bits, List.nil_append, hlen]
    decide +kernel
  · rw [hwritten, List.length_range']
  · rw [hwritten, ← List.range_eq_range', List.mem_range]
    exact Nat.lt_succ_self _

end Inca.L1.BitWords
