import Inca.Core.BitList
import Inca.Core.Memory
import Inca.L2Machine.Compress

/-!
# Onebit over memory, for every element width (`compressor/impl/onebit.cc`)

`CompressImpl` and `DecompressImpl` are instantiated for elements of 16, 32 and
64 bits. The buffers are bytes here: the scale is a `float` behind the packed
words, whatever their width, and a worker decompresses over the compressed
words, which it saves to the compressor's own buffer first. Floating-point
operations are parameters (`FloatOps`), of which the product with 1 and -1 is
all that matters.

The loop counter of `DecompressImpl` is an `int`.

* `signOf_eq`: the sign, computed in unsigned arithmetic but for 16 bits.
* `load_compress`: the words and the scale that are in the compressed tensor.
* `unpackChunk_apply`, `unpack_apply`: what the two loops write.
* `onebit_round_trip`: every element comes out as the scale or its negative, up to
  `2 ^ 31` words.
* `compressed_le_align`, `decompress_frame`: the buffers are long enough.
-/
namespace Inca.L2.OnebitWidths
open Inca.BitList Inca.Memory
open Inca.L2.Compress (alignFor chunksFor packFor getLsbD_packFor)

variable {w : Nat}

/-! ## The code -/

/-- The operations on bit patterns; `meanAbs` is lines 52 to 56. -/
structure FloatOps (w : Nat) where
  isNeg : BitVec w → Bool
  one : BitVec 32
  meanAbs : Nat → (Nat → BitVec w) → BitVec 32
  neg : BitVec 32 → BitVec 32
  mul : Int → BitVec 32 → BitVec 32
  convert : BitVec 32 → BitVec w
  one_mul : ∀ x, mul 1 x = x
  neg_one_mul : ∀ x, mul (-1) x = neg x

/-- mirrors byteps/byteps/common/compressor/impl/onebit.cc:50-57 -/
def FloatOps.scale (ops : FloatOps w) (useScale : Bool) (len : Nat) (src : Nat → BitVec w) : BitVec 32 :=
  if useScale then ops.meanAbs len src else ops.one

/-- The buffer and the size that is returned; elements from `len` on are what is behind the gradient.
mirrors byteps/byteps/common/compressor/impl/onebit.cc:38-81 -/
def compress (ops : FloatOps w) (useScale : Bool) (buf : Nat → Byte) (src : Nat → BitVec w) (len : Nat) :
    (Nat → Byte) × Nat :=
  let n := chunksFor w len
  let dst := (List.range n).foldl (fun m i => store m (i * (w / 8)) (packFor w ops.isNeg src i)) buf
  (store dst (n * (w / 8)) (ops.scale useScale len src), n * (w / 8) + 4)

/-- Operands shorter than `int` are promoted to it, and the result is converted to `int`.
mirrors byteps/byteps/common/compressor/impl/onebit.cc:111 -/
def signOf (x : BitVec w) : Int :=
  ((1#(max w 32) - ((x.setWidth (max w 32) &&& 1#(max w 32)) <<< 1)).setWidth 32).toInt

/-- mirrors byteps/byteps/common/compressor/impl/onebit.cc:110-114 -/
def unpackChunk (ops : FloatOps w) (scale : BitVec 32) (i : Nat) : Nat → BitVec w → (Nat → Byte) → Nat → Byte
  | 0, _, dst => dst
  | j + 1, x, dst => unpackChunk ops scale i j (x >>> 1)
      (store dst ((i * w + j) * (w / 8)) (ops.convert (ops.mul (signOf x) scale)))

/-- The rounds of the outer loop from the last word of `n` on.
mirrors byteps/byteps/common/compressor/impl/onebit.cc:108 -/
def rounds (n : Nat) : Nat := ((BitVec.ofInt 32 (n - 1)).toInt + 1).toNat

/-- mirrors byteps/byteps/common/compressor/impl/onebit.cc:108-115 -/
def unpack (ops : FloatOps w) (scale : BitVec 32) (ptr : Nat → Byte) : Nat → (Nat → Byte) → Nat → Byte
  | 0, dst => dst
  | i + 1, dst => unpack ops scale ptr i (unpackChunk ops scale i w (load w ptr (i * (w / 8))) dst)

/-- What is in `dst` afterwards: the tensor's own buffer, or that of the compressor.
mirrors byteps/byteps/common/compressor/impl/onebit.cc:87-139 -/
def decompress (ops : FloatOps w) (inPlace : Bool) (data buf : Nat → Byte) (size : Nat) : Nat → Byte :=
  let n := (size - 4) / (w / 8)
  let scale := load 32 data (n * (w / 8))
  if inPlace then unpack ops scale (memcpy buf data size) (rounds n) data
  else unpack ops scale data (rounds n) buf

/-! ## Compress -/

/-- Different elements do not overlap. -/
theorem elements_disjoint {i j : Nat} (b : Nat) (h : i ≠ j) : i * b + b ≤ j * b ∨ j * b + b ≤ i * b := by
  rcases Nat.lt_or_gt_of_ne h with hlt | hgt
  · left
    rw [← Nat.succ_mul]
    exact Nat.mul_le_mul_right b hlt
  · right
    rw [← Nat.succ_mul]
    exact Nat.mul_le_mul_right b hgt

theorem load_foldl_store (hw : 8 ∣ w) (f : Nat → BitVec w) (buf : Nat → Byte) (n i : Nat) :
    load w ((List.range n).foldl (fun m i => store m (i * (w / 8)) (f i)) buf) (i * (w / 8)) =
      if i < n then f i else load w buf (i * (w / 8)) := by
  induction n with
  | zero => rfl
  | succ n ih =>
    rw [List.range_succ, List.foldl_append, List.foldl_cons, List.foldl_nil]
    by_cases hi : i = n
    · rw [hi, load_store hw, if_pos (Nat.lt_succ_self n)]
    · rw [load_store_of_disjoint hw _ _ (elements_disjoint (w / 8) hi), ih]
      simp only [Nat.lt_succ_iff_lt_or_eq, hi, or_false]

variable (ops : FloatOps w) (useScale : Bool) (buf : Nat → Byte) (src : Nat → BitVec w) (len : Nat)

/-- What a reader finds that has the bytes of the tensor. -/
theorem load_compress (hw : 8 ∣ w) {data : Nat → Byte}
    (hdata : ∀ a < (compress ops useScale buf src len).2, data a = (compress ops useScale buf src len).1 a) :
    (∀ i < chunksFor w len, load w data (i * (w / 8)) = packFor w ops.isNeg src i) ∧
      load 32 data (chunksFor w len * (w / 8)) = ops.scale useScale len src := by
  have hsize : (compress ops useScale buf src len).2 = chunksFor w len * (w / 8) + 4 := rfl
  rw [hsize] at hdata
  refine ⟨fun i hi => ?_, ?_⟩
  · have hmul := Nat.mul_le_mul_right (w / 8) (Nat.succ_le_of_lt hi)
    rw [Nat.succ_mul] at hmul
    rw [load_congr hw fun b _ hb => hdata b (by omega)]
    show load w (store _ _ _) _ = _
    rw [load_store_of_disjoint hw _ _ (.inl hmul), load_foldl_store hw, if_pos hi]
  · rw [load_congr (by decide) fun b _ hb => hdata b hb]
    exact load_store (by decide) _ _ _

theorem chunksFor_compress (hw : 8 ≤ w) : ((compress ops useScale buf src len).2 - 4) / (w / 8) = chunksFor w len :=
  Nat.mul_div_cancel _ (Nat.div_pos hw (by decide))

/-! ## Decompress -/

theorem signOf_eq (hw : w = 16 ∨ w = 32 ∨ w = 64) (x : BitVec w) :
    signOf x = if x.getLsbD 0 then -1 else 1 := by
  unfold signOf
  rcases hw with rfl | rfl | rfl
  all_goals
    rw [BitVec.and_one_eq_setWidth_ofBool_getLsbD, BitVec.getLsbD_setWidth]
    cases x.getLsbD 0 with
    | false => decide
    | true => decide

/-- What is written for a bit. -/
def valueOf (scale : BitVec 32) (b : Bool) : BitVec w := ops.convert (if b then ops.neg scale else scale)

theorem convert_sign (hw : w = 16 ∨ w = 32 ∨ w = 64) (scale : BitVec 32) (x : BitVec w) :
    ops.convert (ops.mul (signOf x) scale) = valueOf ops scale (x.getLsbD 0) := by
  rw [signOf_eq hw, valueOf]
  cases x.getLsbD 0 with
  | false => rw [if_neg Bool.false_ne_true, ops.one_mul, if_neg Bool.false_ne_true]
  | true => rw [if_pos rfl, ops.neg_one_mul, if_pos rfl]

/-- The elements `i * w` to `i * w + n - 1`, from the lowest bit backwards. -/
theorem unpackChunk_apply (hw : w = 16 ∨ w = 32 ∨ w = 64) (scale : BitVec 32) (i n : Nat) (x : BitVec w)
    (dst : Nat → Byte) (p : Nat) : load w (unpackChunk ops scale i n x dst) (p * (w / 8)) =
      if i * w ≤ p ∧ p < i * w + n then valueOf ops scale (x.getLsbD (n - 1 - (p - i * w)))
      else load w dst (p * (w / 8)) := by
  have h8 : 8 ∣ w := by omega
  induction n generalizing x dst with
  | zero => rw [unpackChunk, if_neg (by omega)]
  | succ n ih =>
    rw [unpackChunk, ih, convert_sign ops hw]
    by_cases hp : p = i * w + n
    · rw [if_neg (by omega), if_pos (by omega), hp, load_store h8]
      congr 2
      omega
    · rw [load_store_of_disjoint h8 _ _ (elements_disjoint (w / 8) hp)]
      by_cases hlt : i * w ≤ p ∧ p < i * w + n
      · rw [if_pos hlt, if_pos (by omega), BitVec.getLsbD_ushiftRight]
        congr 2
        omega
      · rw [if_neg hlt, if_neg (by omega)]

theorem unpack_apply (hw : w = 16 ∨ w = 32 ∨ w = 64) (scale : BitVec 32) (ptr dst : Nat → Byte) (n p : Nat) :
    load w (unpack ops scale ptr n dst) (p * (w / 8)) =
      if p < n * w then valueOf ops scale ((load w ptr (p / w * (w / 8))).getLsbD (w - 1 - p % w))
      else load w dst (p * (w / 8)) := by
  induction n generalizing dst with
  | zero => rw [unpack, if_neg (by omega)]
  | succ n ih =>
    rw [unpack, ih, unpackChunk_apply ops hw, Nat.succ_mul]
    by_cases hlt : p < n * w
    · rw [if_pos hlt, if_pos (by omega)]
    · rw [if_neg hlt]
      by_cases hin : p < n * w + w
      · have hdiv : p / w = n := by
          rw [Nat.div_eq_iff (by omega)]
          omega
        have hmod : p % w = p - n * w := by
          rw [← hdiv]
          exact Nat.mod_eq_sub_div_mul
        rw [if_pos (by omega), if_pos hin, hdiv, hmod]
      · rw [if_neg (by omega), if_neg hin]

/-- The counter starts below zero if the number of words is too large for it. -/
theorem rounds_eq {n : Nat} (h : n ≤ 2 ^ 32) : rounds n = if n ≤ 2 ^ 31 then n else 0 := by
  rw [rounds, BitVec.toInt_ofInt, Int.bmod_def]
  split
  · split
    · omega
    · omega
  · split
    · omega
    · omega

theorem rounds_of_le {n : Nat} (h : n ≤ 2 ^ 31) : rounds n = n := by
  rw [rounds_eq (by omega), if_pos h]

/-- The padded length is a whole number of words. -/
theorem chunksFor_mul (hw : 0 < w) (len : Nat) : chunksFor w len * w = len + (w - len % w) % w := by
  refine Nat.div_mul_cancel ?_
  have hlt := Nat.mod_lt len hw
  have hdiv := Nat.div_add_mod len w
  by_cases h0 : len % w = 0
  · rw [h0, Nat.sub_zero, Nat.mod_self, Nat.add_zero]
    exact Nat.dvd_of_mod_eq_zero h0
  · rw [Nat.mod_eq_of_lt (show w - len % w < w by omega)]
    refine ⟨len / w + 1, ?_⟩
    rw [Nat.mul_add, Nat.mul_one]
    omega

theorem le_chunksFor_mul (hw : 0 < w) (len : Nat) : len ≤ chunksFor w len * w ∧ chunksFor w len * w < len + w := by
  have := Nat.mod_lt (w - len % w) hw
  rw [chunksFor_mul hw]
  omega

/-- Elements that are inside of the padded length, if the loop runs over all words. -/
theorem load_decompress (hw : w = 16 ∨ w = 32 ∨ w = 64) {data : Nat → Byte}
    (hdata : ∀ a < (compress ops useScale buf src len).2, data a = (compress ops useScale buf src len).1 a)
    (hn : chunksFor w len ≤ 2 ^ 31) (inPlace : Bool) (buf' : Nat → Byte) {i : Nat} (hi : i < chunksFor w len * w) :
    load w (decompress ops inPlace data buf' (compress ops useScale buf src len).2) (i * (w / 8)) =
      valueOf ops (ops.scale useScale len src) (ops.isNeg (src i)) := by
  have h8 : 8 ∣ w := by omega
  have hpos : 0 < w := by omega
  obtain ⟨hwords, hscale⟩ := load_compress ops useScale buf src len h8 hdata
  have hdiv : i / w < chunksFor w len := (Nat.div_lt_iff_lt_mul hpos).mpr hi
  -- both read the words that were written
  have hbit : (load w data (i / w * (w / 8))).getLsbD (w - 1 - i % w) = ops.isNeg (src i) := by
    rw [hwords _ hdiv, getLsbD_packFor ops.isNeg src _ (Nat.mod_lt i hpos), Nat.div_add_mod']
  unfold decompress
  simp only [chunksFor_compress ops useScale buf src len (show 8 ≤ w by omega), hscale, rounds_of_le hn]
  cases inPlace with
  | false => rw [if_neg Bool.false_ne_true, unpack_apply ops hw, if_pos hi, hbit]
  | true =>
    have hcopy : i / w * (w / 8) + w / 8 ≤ (compress ops useScale buf src len).2 := by
      have hmul := Nat.mul_le_mul_right (w / 8) (Nat.succ_le_of_lt hdiv)
      rw [Nat.succ_mul] at hmul
      exact hmul.trans (Nat.le_add_right _ _)
    rw [if_pos rfl, unpack_apply ops hw, if_pos hi, load_memcpy h8 buf' data hcopy, hbit]

/-- **Onebit.** Into another buffer or in place, whatever was in the buffers and is behind the
gradient: a negative element comes out as minus the scale, any other one as the scale. -/
theorem onebit_round_trip (hw : w = 16 ∨ w = 32 ∨ w = 64) {data : Nat → Byte}
    (hdata : ∀ a < (compress ops useScale buf src len).2, data a = (compress ops useScale buf src len).1 a)
    (hlen : len ≤ 2 ^ 31 * w) (inPlace : Bool) (buf' : Nat → Byte) {i : Nat} (hi : i < len) :
    load w (decompress ops inPlace data buf' (compress ops useScale buf src len).2) (i * (w / 8)) =
      if ops.isNeg (src i) then ops.convert (ops.neg (ops.scale useScale len src))
      else ops.convert (ops.scale useScale len src) := by
  obtain ⟨hle, hlt⟩ := le_chunksFor_mul (show 0 < w by omega) len
  have hn : chunksFor w len ≤ 2 ^ 31 := by
    have : chunksFor w len * w < (2 ^ 31 + 1) * w := by
      rw [Nat.succ_mul]
      omega
    exact Nat.le_of_lt_succ (Nat.lt_of_mul_lt_mul_right this)
  rw [load_decompress ops useScale buf src len hw hdata hn inPlace buf' (by omega), valueOf]
  exact apply_ite ops.convert _ _ _

/-- Patterns of `float`; no other factors occur. -/
def float32 : FloatOps 32 where
  isNeg x := x.msb && decide (x.setWidth 31 ≠ 0)
  one := 0x3f800000
  meanAbs _ _ := 0x3f800000
  neg x := x ^^^ 0x80000000
  mul k x := if k = 1 then x else x ^^^ 0x80000000
  convert x := x
  one_mul _ := rfl
  neg_one_mul _ := rfl

/-- Two words, the second one for a single element, in place. -/
theorem onebit_two_words :
    let src := fun i => if i = 32 then 0xc0000000#32 else 0
    let c := compress float32 false (fun _ => 0) src 33
    load 32 (decompress float32 true c.1 (fun _ => 0) c.2) (32 * 4) = 0xbf800000 := by
  intro src c
  rw [show 32 * 4 = 32 * (32 / 8) from rfl,
    onebit_round_trip float32 false (fun _ => 0) src 33 (.inr (.inl rfl)) (fun _ _ => rfl) (by decide) true _ (by decide)]
  decide

/-- **Counterexample.** The loop counter is negative from the start if there are more than `2 ^ 31`
words: the buffer keeps its zeros. -/
theorem onebit_counterexample :
    let c := compress float32 false (fun _ => 0) (fun _ => 0) (2 ^ 36 + 1)
    load 32 (decompress float32 false c.1 (fun _ => 0) c.2) 0 = 0 ∧
      float32.convert (float32.scale false (2 ^ 36 + 1) fun _ => 0) = 0x3f800000 := by
  intro c
  refine ⟨?_, rfl⟩
  have hrounds : rounds (chunksFor 32 (2 ^ 36 + 1)) = 0 := by
    rw [rounds_eq (by decide), if_neg (by decide)]
  have hkeep : decompress float32 false c.1 (fun _ => 0) c.2 = fun _ => 0 := by
    unfold decompress
    simp only [show (c.2 - 4) / (32 / 8) = chunksFor 32 (2 ^ 36 + 1) from
      chunksFor_compress float32 false _ _ _ (by decide), hrounds]
    rfl
  rw [hkeep]
  decide

/-! ## Bounds -/

/-- The buffers end with the last element that is packed. -/
theorem align_eq (hw : 8 ∣ w) (hpos : 0 < w) (len : Nat) : alignFor w (len * (w / 8)) = chunksFor w len * w * (w / 8) := by
  have hmin : w / 8 * (w / 8) * 8 = w * (w / 8) := by
    rw [Nat.mul_assoc, Nat.div_mul_cancel hw, Nat.mul_comm]
  unfold alignFor
  simp only [hmin]
  rw [Nat.mul_mod_mul_right, ← Nat.sub_mul, Nat.mul_mod_mul_right, ← Nat.add_mul, chunksFor_mul hpos]

/-- The compressed tensor fits the compressor's buffer, to which it is written and saved. -/
theorem compressed_le_align (hw : w = 16 ∨ w = 32 ∨ w = 64) (hlen : 0 < len) :
    (compress ops useScale buf src len).2 ≤ alignFor w (len * (w / 8)) := by
  obtain ⟨hle, -⟩ := le_chunksFor_mul (show 0 < w by omega) len
  have hn : 0 < chunksFor w len := Nat.pos_of_mul_pos_right (show 0 < chunksFor w len * w by omega)
  show chunksFor w len * (w / 8) + 4 ≤ _
  rw [align_eq (by omega) (by omega)]
  rcases hw with rfl | rfl | rfl
  · omega
  · omega
  · omega

theorem unpackChunk_frame (scale : BitVec 32) (i n : Nat) (x : BitVec w) (dst : Nat → Byte) {a : Nat}
    (ha : (i * w + n) * (w / 8) ≤ a) : unpackChunk ops scale i n x dst a = dst a := by
  induction n generalizing x dst with
  | zero => rfl
  | succ n ih =>
    have hstep : (i * w + n) * (w / 8) + w / 8 ≤ a := by
      rwa [← Nat.succ_mul]
    rw [unpackChunk, ih _ _ (by omega), store, if_neg (by omega)]

theorem unpack_frame (scale : BitVec 32) (ptr dst : Nat → Byte) (n : Nat) {a : Nat} (ha : n * w * (w / 8) ≤ a) :
    unpack ops scale ptr n dst a = dst a := by
  induction n generalizing dst with
  | zero => rfl
  | succ n ih =>
    have hle : n * w * (w / 8) ≤ (n + 1) * w * (w / 8) :=
      Nat.mul_le_mul_right _ (Nat.mul_le_mul_right _ (Nat.le_succ n))
    rw [unpack, ih _ (hle.trans ha), unpackChunk_frame ops scale n w _ dst (by rwa [← Nat.succ_mul])]

/-- Nothing is written behind the aligned length. -/
theorem decompress_frame (hw : w = 16 ∨ w = 32 ∨ w = 64) (hn : chunksFor w len ≤ 2 ^ 31) (inPlace : Bool)
    (data buf' : Nat → Byte) {a : Nat} (ha : alignFor w (len * (w / 8)) ≤ a) :
    decompress ops inPlace data buf' (compress ops useScale buf src len).2 a = if inPlace then data a else buf' a := by
  rw [align_eq (by omega) (by omega)] at ha
  unfold decompress
  simp only [chunksFor_compress ops useScale buf src len (show 8 ≤ w by omega), rounds_of_le hn]
  cases inPlace with
  | false => exact unpack_frame ops _ _ _ _ ha
  | true => exact unpack_frame ops _ _ _ _ ha

end Inca.L2.OnebitWidths
