import Inca.Core.FloatArith
import Inca.Core.Scatter
import Inca.L1Encoding.Half

/-!
# Sums of `float16` vectors (`common/cpu_reducer.cc`)

Four routines, each compiled with AVX and F16C or without. With them, eight elements at a
time are summed by vector instructions if the processor has these too (`is_avx_and_f16c`),
and a scalar loop does the elements that are left; without them, the scalar loop does all of
them. Vector instructions round to nearest even; which NaN an instruction gives is up to the
processor (`Cpu`), and results are compared up to the choice of a NaN (`Same`).

The scalar loop starts where the vector loop would have ended, whether that has run or not.

* `vectorIter_eq`: a vector instruction does what its lanes do one after the other.
* `cvtphPs_same`, `sumLane_same`, `mulLane_same`: a lane computes what the scalar code computes.
* `avx_iff`: the elements are written once each, and as without AVX, if and only if the check
  is true or there are less than eight of them.
* `sum_float16_iff`: so for the four routines.
-/
namespace Inca.L2.HalfSum
open Inca.BinaryFormat Inca.L1.Half Inca.Scatter

/-! ## The code -/

/-- The NaNs of the instructions: scalar and vector sums and products, and vector conversions. -/
structure Cpu where
  addss : NanRule 32 23
  mulss : NanRule 32 23
  addps : NanRule 32 23
  mulps : NanRule 32 23
  cvtph : BitVec 16 → BitVec 32
  cvtps : BitVec 32 → BitVec 16
  isNaN_cvtph : ∀ x, IsNaN 23 (cvtph x)
  isNaN_cvtps : ∀ x, IsNaN 10 (cvtps x)

/-- One lane of `_mm256_cvtph_ps`. -/
def Cpu.cvtphPs (C : Cpu) (x : BitVec 16) : BitVec 32 :=
  if IsNaN 10 x then C.cvtph x
  else if IsInf 10 x then pack 32 x.msb (infinity 32 23)
  else rounded 32 23 0 x.msb (units 10 (magnitude x) * 2 ^ 125)

/-- One lane of `_mm256_cvtps_ph`, to nearest even. -/
def Cpu.cvtpsPh (C : Cpu) (x : BitVec 32) : BitVec 16 :=
  if IsNaN 23 x then C.cvtps x else rounded 16 10 125 x.msb (units 23 (magnitude x))

/-- `HalfBits2Float`, which ends. -/
def toFloat (x : BitVec 16) : BitVec 32 := (halfBits2Float x).get (halfBits2Float_isSome x)

/-- `x + y` and back to `float16`. -/
def Cpu.sumScalar (C : Cpu) (x y : BitVec 32) : BitVec 16 := float2HalfBits (C.addss.apply (sum 23) x y)

def Cpu.mulScalar (C : Cpu) (x alpha : BitVec 32) : BitVec 32 := C.mulss.apply (product 23 127) x alpha

/-- One lane of `_mm256_add_ps` and `_mm256_cvtps_ph`. -/
def Cpu.sumLane (C : Cpu) (x y : BitVec 32) : BitVec 16 := C.cvtpsPh (C.addps.apply (sum 23) x y)

/-- One lane of `_mm256_mul_ps`. -/
def Cpu.mulLane (C : Cpu) (x alpha : BitVec 32) : BitVec 32 := C.mulps.apply (product 23 127) x alpha

/-- The rounds of a loop over elements, one at a time; the state is the buffer and what was written. -/
def loop (f : Nat → BitVec 16 → BitVec 16) (is : List Nat) (b : (Nat → BitVec 16) × List (Nat × BitVec 16)) :
    (Nat → BitVec 16) × List (Nat × BitVec 16) :=
  let r := scatter id f is b.1
  (r.1, b.2 ++ r.2)

/-- One round of a vector loop: eight elements are loaded before any is stored. -/
def vectorIter (f : Nat → BitVec 16 → BitVec 16) (b : (Nat → BitVec 16) × List (Nat × BitVec 16)) (i : Nat) :
    (Nat → BitVec 16) × List (Nat × BitVec 16) :=
  let lanes := writes id f (List.range' i 8) b.1
  (lanes.foldl store b.1, b.2 ++ lanes)

/-- `for (size_t i = 0; i < (size_t)(len / 8) * 8; i += 8)` -/
def blocks (count : Nat) : List Nat := (List.range (count / 8)).map (· * 8)

/-- A routine with AVX: `lane` and `scalar` give the new value of element `i` from the old one in `dst`. -/
def avx (check : Bool) (S : Scheduler Nat) (lane scalar : Nat → BitVec 16 → BitVec 16) (dst : Nat → BitVec 16)
    (len : Nat) : (Nat → BitVec 16) × List (Nat × BitVec 16) :=
  let count := len / 2
  let b := if check then (S.order (blocks count)).foldl (vectorIter lane) (dst, []) else (dst, [])
  loop scalar (List.range' (count / 8 * 8) (count - count / 8 * 8)) b

/-- A routine without AVX. -/
def plain (S : Scheduler Nat) (scalar : Nat → BitVec 16 → BitVec 16) (dst : Nat → BitVec 16) (len : Nat) :
    (Nat → BitVec 16) × List (Nat × BitVec 16) :=
  loop scalar (S.order (List.range (len / 2))) (dst, [])

section
variable (C : Cpu) (check : Bool) (S : Scheduler Nat) (dst src src1 src2 : Nat → BitVec 16) (alpha : BitVec 32) (len : Nat)

/-- mirrors byteps/byteps/common/cpu_reducer.cc:96-127 -/
def sumFloat16Avx : (Nat → BitVec 16) × List (Nat × BitVec 16) :=
  avx check S (fun i inout => C.sumLane (C.cvtphPs (src i)) (C.cvtphPs inout))
    (fun i inout => C.sumScalar (toFloat inout) (toFloat (src i))) dst len

/-- mirrors byteps/byteps/common/cpu_reducer.cc:96-101, 129-137 -/
def sumFloat16 : (Nat → BitVec 16) × List (Nat × BitVec 16) :=
  plain S (fun i inout => C.sumScalar (toFloat inout) (toFloat (src i))) dst len

/-- mirrors byteps/byteps/common/cpu_reducer.cc:187-220 -/
def sumFloat16OfAvx : (Nat → BitVec 16) × List (Nat × BitVec 16) :=
  avx check S (fun i _ => C.sumLane (C.cvtphPs (src1 i)) (C.cvtphPs (src2 i)))
    (fun i _ => C.sumScalar (toFloat (src1 i)) (toFloat (src2 i))) dst len

/-- mirrors byteps/byteps/common/cpu_reducer.cc:187-194, 222-231 -/
def sumFloat16Of : (Nat → BitVec 16) × List (Nat × BitVec 16) :=
  plain S (fun i _ => C.sumScalar (toFloat (src1 i)) (toFloat (src2 i))) dst len

/-- mirrors byteps/byteps/common/cpu_reducer.cc:274-311 -/
def sumFloat16AlphaAvx : (Nat → BitVec 16) × List (Nat × BitVec 16) :=
  avx check S (fun i inout => C.sumLane (C.mulLane (C.cvtphPs (src i)) alpha) (C.cvtphPs inout))
    (fun i inout => C.sumScalar (toFloat inout) (C.mulScalar (toFloat (src i)) alpha)) dst len

/-- mirrors byteps/byteps/common/cpu_reducer.cc:274-280, 313-321 -/
def sumFloat16Alpha : (Nat → BitVec 16) × List (Nat × BitVec 16) :=
  plain S (fun i inout => C.sumScalar (toFloat inout) (C.mulScalar (toFloat (src i)) alpha)) dst len

/-- mirrors byteps/byteps/common/cpu_reducer.cc:372-410 -/
def sumFloat16OfAlphaAvx : (Nat → BitVec 16) × List (Nat × BitVec 16) :=
  avx check S (fun i _ => C.sumLane (C.cvtphPs (src1 i)) (C.mulLane (C.cvtphPs (src2 i)) alpha))
    (fun i _ => C.sumScalar (toFloat (src1 i)) (C.mulScalar (toFloat (src2 i)) alpha)) dst len

/-- mirrors byteps/byteps/common/cpu_reducer.cc:372-379, 412-421 -/
def sumFloat16OfAlpha : (Nat → BitVec 16) × List (Nat × BitVec 16) :=
  plain S (fun i _ => C.sumScalar (toFloat (src1 i)) (C.mulScalar (toFloat (src2 i)) alpha)) dst len

end

/-! ## Lanes -/

variable {C : Cpu}

theorem cvtphPs_same (C : Cpu) (x : BitVec 16) : Same 23 (C.cvtphPs x) (toFloat x) := by
  unfold Cpu.cvtphPs toFloat
  by_cases h : IsNaN 10 x
  · right
    simp only [if_pos h, halfBits2Float_nan h, Option.get_some]
    exact ⟨C.isNaN_cvtph x, by decide⟩
  · left
    simp only [if_neg h, halfBits2Float_eq h]
    rfl

theorem cvtpsPh_same (C : Cpu) {x y : BitVec 32} (h : Same 23 x y) : Same 10 (C.cvtpsPh x) (float2HalfBits y) := by
  have hnan : ∀ {x y}, IsNaN 23 x → IsNaN 23 y → Same 10 (C.cvtpsPh x) (float2HalfBits y) := by
    intro x y hx hy
    right
    rw [Cpu.cvtpsPh, if_pos hx, float2HalfBits_nan hy]
    exact ⟨C.isNaN_cvtps x, by decide⟩
  rcases h with rfl | h
  · by_cases hx : IsNaN 23 x
    · exact hnan hx hx
    · left
      rw [Cpu.cvtpsPh, if_neg hx, float2HalfBits_eq hx]
  · exact hnan h.1 h.2

theorem sumLane_same {x x' y y' : BitVec 32} (hx : Same 23 x x') (hy : Same 23 y y') :
    Same 10 (C.sumLane x y) (C.sumScalar x' y') :=
  cvtpsPh_same C ((strict_sum 23).same _ _ hx hy)

/-- The vector code of two routines adds in the other order. -/
theorem sumLane_same_swap {x x' y y' : BitVec 32} (hx : Same 23 x x') (hy : Same 23 y y') :
    Same 10 (C.sumLane x y) (C.sumScalar y' x') := by
  apply cvtpsPh_same C
  apply C.addps.apply_same C.addss
  rw [(strict_sum 23).eq hx hy, sum_comm (by omega)]

theorem mulLane_same {x x' : BitVec 32} (hx : Same 23 x x') (alpha : BitVec 32) :
    Same 23 (C.mulLane x alpha) (C.mulScalar x' alpha) :=
  (strict_product 23 127).same _ _ hx (.inl rfl)

/-! ## Loops -/

variable {f : Nat → BitVec 16 → BitVec 16} {b : (Nat → BitVec 16) × List (Nat × BitVec 16)}

theorem vectorIter_eq (i : Nat) : vectorIter f b i = loop f (List.range' i 8) b := by
  have hnodup : ((List.range' i 8).map id).Nodup := by
    rw [List.map_id]
    exact List.nodup_range'
  rw [vectorIter, loop, scatter_eq hnodup]

theorem loop_append (is is' : List Nat) : loop f (is ++ is') b = loop f is' (loop f is b) := by
  simp only [loop, scatter_append, List.append_assoc]

/-- The vector loop, as one loop over elements. -/
theorem foldl_vectorIter (is : List Nat) :
    is.foldl (vectorIter f) b = loop f (is.flatMap fun i => List.range' i 8) b := by
  induction is generalizing b with
  | nil => simp [loop, scatter]
  | cons i is ih => rw [List.foldl_cons, ih, List.flatMap_cons, loop_append, vectorIter_eq]

theorem flatMap_blocks (count : Nat) :
    (blocks count).flatMap (fun i => List.range' i 8) = List.range (count / 8 * 8) := by
  unfold blocks
  generalize count / 8 = n
  induction n with
  | zero => rfl
  | succ n ih =>
    rw [List.range_succ, List.map_append, List.flatMap_append, ih, List.map_singleton, List.flatMap_singleton,
      Nat.succ_mul, List.range_eq_range', List.range_eq_range', ← List.range'_append_1, Nat.zero_add]

/-- A loop over different elements. -/
theorem loop_apply {is : List Nat} (h : is.Nodup) (i : Nat) :
    (loop f is b).1 i = if i ∈ is then f i (b.1 i) else b.1 i := by
  have hnodup : (is.map id).Nodup := by rwa [List.map_id]
  unfold loop
  split
  · next hi => exact scatter_of_mem hnodup hi b.1
  · next hi =>
    apply scatter_of_notMem
    rwa [List.map_id]

theorem loop_log {is : List Nat} (h : is.Nodup) : (loop f is b).2.map Prod.fst = b.2.map Prod.fst ++ is := by
  have hnodup : (is.map id).Nodup := by rwa [List.map_id]
  rw [loop, scatter_eq hnodup, writes, List.map_append, List.map_map]
  congr 1
  exact List.map_id is

/-! ## Elements -/

/-- Every element below `count` is written once and nothing else, and the result is that of `r`. -/
def Agrees (b r : (Nat → BitVec 16) × List (Nat × BitVec 16)) (count : Nat) : Prop :=
  (b.2.map Prod.fst).Perm (List.range count) ∧ ∀ i, Same 10 (b.1 i) (r.1 i)

section
variable (lane scalar : Nat → BitVec 16 → BitVec 16) (S S' : Scheduler Nat) (dst : Nat → BitVec 16) (len : Nat)

theorem plain_apply (i : Nat) :
    (plain S scalar dst len).1 i = if i < len / 2 then scalar i (dst i) else dst i := by
  have hnodup : (S.order (List.range (len / 2))).Nodup := (S.perm _).nodup_iff.mpr List.nodup_range
  rw [plain, loop_apply hnodup]
  simp only [(S.perm _).mem_iff, List.mem_range]

/-- The check is true. -/
theorem avx_of_check :
    (((avx true S lane scalar dst len).2.map Prod.fst).Perm (List.range (len / 2))) ∧
      ∀ i, (avx true S lane scalar dst len).1 i =
        if i < len / 2 / 8 * 8 then lane i (dst i) else if i < len / 2 then scalar i (dst i) else dst i := by
  have hperm : ((S.order (blocks (len / 2))).flatMap fun i => List.range' i 8).Perm (List.range (len / 2 / 8 * 8)) := by
    rw [← flatMap_blocks]
    exact (S.perm _).flatMap_right _
  have hnodup := hperm.nodup_iff.mpr List.nodup_range
  have htail : (List.range' (len / 2 / 8 * 8) (len / 2 - len / 2 / 8 * 8)).Nodup := List.nodup_range'
  simp only [avx, if_true, foldl_vectorIter]
  refine ⟨?_, fun i => ?_⟩
  · rw [loop_log htail, loop_log hnodup, List.map_nil, List.nil_append]
    refine (hperm.append_right _).trans (List.Perm.of_eq ?_)
    rw [List.range_eq_range', List.range_eq_range']
    have happend := List.range'_append_1 (s := 0) (m := len / 2 / 8 * 8) (n := len / 2 - len / 2 / 8 * 8)
    rw [Nat.zero_add] at happend
    rw [happend]
    congr 1
    omega
  · rw [loop_apply htail, loop_apply hnodup]
    simp only [hperm.mem_iff, List.mem_range, List.mem_range'_1]
    by_cases hi : i < len / 2 / 8 * 8
    · rw [if_neg (by omega), if_pos hi, if_pos hi]
    · rw [if_neg hi, if_neg hi]
      by_cases hi' : i < len / 2
      · rw [if_pos (by omega), if_pos hi']
      · rw [if_neg (by omega), if_neg hi']

/-- The check is false: the elements of the vector loop are left as they are. -/
theorem avx_of_not_check :
    (avx false S lane scalar dst len).2.map Prod.fst = List.range' (len / 2 / 8 * 8) (len / 2 - len / 2 / 8 * 8) ∧
      ∀ i, (avx false S lane scalar dst len).1 i =
        if len / 2 / 8 * 8 ≤ i ∧ i < len / 2 then scalar i (dst i) else dst i := by
  have htail : (List.range' (len / 2 / 8 * 8) (len / 2 - len / 2 / 8 * 8)).Nodup := List.nodup_range'
  simp only [avx, Bool.false_eq_true, if_false]
  refine ⟨?_, fun i => ?_⟩
  · rw [loop_log htail]
    rfl
  · rw [loop_apply htail]
    simp only [List.mem_range'_1, Nat.add_sub_cancel' (Nat.div_mul_le_self (len / 2) 8)]

/-- **A routine with AVX.** -/
theorem avx_iff (check : Bool) (hsame : ∀ i v, Same 10 (lane i v) (scalar i v)) :
    Agrees (avx check S lane scalar dst len) (plain S' scalar dst len) (len / 2) ↔ check = true ∨ len / 2 < 8 := by
  cases check with
  | true =>
    obtain ⟨hlog, hval⟩ := avx_of_check lane scalar S dst len
    refine ⟨fun _ => .inl rfl, fun _ => ⟨hlog, fun i => ?_⟩⟩
    rw [hval, plain_apply]
    by_cases hi : i < len / 2 / 8 * 8
    · rw [if_pos hi, if_pos (by omega)]
      exact hsame i (dst i)
    · rw [if_neg hi]
      exact .inl rfl
  | false =>
    obtain ⟨hlog, hval⟩ := avx_of_not_check lane scalar S dst len
    constructor
    · rintro ⟨hperm, -⟩
      right
      by_contra hlt
      -- nothing writes the first element
      have hmem : 0 ∈ List.range (len / 2) := List.mem_range.mpr (by omega)
      rw [← hperm.mem_iff, hlog, List.mem_range'_1] at hmem
      omega
    · rintro (hcheck | hlt)
      · cases hcheck
      · have hzero : len / 2 / 8 * 8 = 0 := by omega
        rw [hzero] at hlog hval
        refine ⟨?_, fun i => ?_⟩
        · rw [hlog, Nat.sub_zero, ← List.range_eq_range']
        · left
          rw [hval, plain_apply]
          simp only [Nat.zero_le, true_and]

end

/-- **The four routines.** -/
theorem sum_float16_iff (C : Cpu) (check : Bool) (S S' : Scheduler Nat) (dst src src1 src2 : Nat → BitVec 16)
    (alpha : BitVec 32) (len : Nat) :
    (Agrees (sumFloat16Avx C check S dst src len) (sumFloat16 C S' dst src len) (len / 2) ↔
      check = true ∨ len / 2 < 8) ∧
    (Agrees (sumFloat16OfAvx C check S dst src1 src2 len) (sumFloat16Of C S' dst src1 src2 len) (len / 2) ↔
      check = true ∨ len / 2 < 8) ∧
    (Agrees (sumFloat16AlphaAvx C check S dst src alpha len) (sumFloat16Alpha C S' dst src alpha len) (len / 2) ↔
      check = true ∨ len / 2 < 8) ∧
    (Agrees (sumFloat16OfAlphaAvx C check S dst src1 src2 alpha len) (sumFloat16OfAlpha C S' dst src1 src2 alpha len)
        (len / 2) ↔
      check = true ∨ len / 2 < 8) := by
  have hload := cvtphPs_same C
  refine ⟨avx_iff _ _ S S' dst len check ?_, avx_iff _ _ S S' dst len check ?_, avx_iff _ _ S S' dst len check ?_,
    avx_iff _ _ S S' dst len check ?_⟩
  · exact fun i v => sumLane_same_swap (hload (src i)) (hload v)
  · exact fun i v => sumLane_same (hload (src1 i)) (hload (src2 i))
  · exact fun i v => sumLane_same_swap (mulLane_same (hload (src i)) alpha) (hload v)
  · exact fun i v => sumLane_same (hload (src1 i)) (mulLane_same (hload (src2 i)) alpha)

/-- A processor with one NaN for everything. -/
def Cpu.quiet : Cpu where
  addss := ⟨fun _ _ => 0x7fc00000#32, fun _ _ => by decide⟩
  mulss := ⟨fun _ _ => 0x7fc00000#32, fun _ _ => by decide⟩
  addps := ⟨fun _ _ => 0x7fc00000#32, fun _ _ => by decide⟩
  mulps := ⟨fun _ _ => 0x7fc00000#32, fun _ _ => by decide⟩
  cvtph := fun _ => 0x7fc00000#32
  cvtps := fun _ => 0x7e00#16
  isNaN_cvtph := fun _ => by decide
  isNaN_cvtps := fun _ => by decide

/-- **Counterexample.** Eight elements, each the sum of 1 and 1, on a processor that fails the check. -/
theorem sum_float16_counterexample :
    (sumFloat16Avx .quiet false (.inOrder _) (fun _ => 0x3c00#16) (fun _ => 0x3c00#16) 16).1 0 = 0x3c00#16 ∧
      (sumFloat16 .quiet (.inOrder _) (fun _ => 0x3c00#16) (fun _ => 0x3c00#16) 16).1 0 = 0x4000#16 := by
  constructor
  · exact (avx_of_not_check _ _ _ _ _).2 0
  · rw [sumFloat16, plain_apply]
    decide

end Inca.L2.HalfSum
