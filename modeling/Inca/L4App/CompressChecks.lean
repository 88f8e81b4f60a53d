import Inca.Core.RoundBits
import Inca.L2Machine.Compress
import Inca.L2Machine.Drive
import Inca.L4App.KeyDraw
import Inca.L4App.TensorKeys

/-!
# Size checks of compressed partitions (`common/operations.cc`, `common/core_loops.cc`)

`InitTensor` turns compression off for small tensors, and makes a compressor
for every partition of the others; its buffer has the length of the partition
aligned to 128 bytes, and topk and randomk take their fraction of the aligned
length. When a partition is compressed, `k` is checked against half of its
elements, and the result against its length. The process ends if a check fails.

A tensor that is large enough is cut into partitions of `bound` bytes and what
is left over, which may be as short as one element.

* `kOf_le`: for an aligned length `k` is small enough, although it is computed
  with 24 significant bits.
* `check_onebit`, `check_sparse`: when a partition passes.
* `checks_iff`: when all partitions of a tensor pass; this is up to what is
  left over.
* `drive_partition`: no partition meets what `HadamardRotate` asserts, with the
  residues for which `DriveCompressor` leaves its vector or changes dimension.
-/
namespace Inca.L4.CompressChecks
open Inca.L2.Compress Inca.L4.KeyDraw Inca.L4.TensorKeys

/-- mirrors byteps/byteps/common/global.cc:48 -/
def minCompressBytes : Nat := 1 <<< 16

/-- A `float` in `(0, 1/2]`: `num / 2 ^ exp`. -/
structure Factor where
  num : Nat
  exp : Nat
  pos : 0 < num
  lt : num < 2 ^ 24
  le_half : 2 * num ≤ 2 ^ exp

inductive Algorithm
  | onebit
  | topk (factor : Factor)
  | randomk (factor : Factor)

/-- `factor * size / 4`: the size is converted to `float`, and the product is rounded; the division
is exact.
mirrors byteps/byteps/common/compressor/impl/topk.cc:35-41, randomk.cc:32-38 -/
def kOf (factor : Factor) (size : Nat) : Nat :=
  let k := roundBits 24 (factor.num * roundBits 24 size) / (2 ^ factor.exp * 4)
  if k = 0 then 1 else k

inductive Fault
  /-- the buffer is not allocated -/
  | badAlloc
  | k
  | compressedSize
  deriving DecidableEq

/-- `len` was assigned to an `int`, and goes on as a `size_t`.
mirrors byteps/byteps/common/operations.cc:441, core_loops.cc:943 -/
def sizeT (len : Nat) : Nat := (toInt32 len % 2 ^ 64).toNat

/-- What `CompressImpl` returns as the size.
mirrors byteps/byteps/common/compressor/impl/onebit.cc:80, topk.cc:56, 96, randomk.cc:60, 75 -/
def checkedSize (alg : Algorithm) (size : Nat) : Except Fault Nat :=
  match alg with
  | .onebit => .ok (chunkLen (size / 4) * 4 + 4)
  | .topk factor | .randomk factor =>
    let k := kOf factor (align size)
    if k ≤ size / 4 / 2 then .ok (k * 8) else .error .k

/-- A partition of `len` bytes.
mirrors byteps/byteps/common/operations.cc:463-467, compressor/compressor.h:59-60,
core_loops.cc:943-950 -/
def check (alg : Algorithm) (len : Nat) : Except Fault Unit :=
  let size := sizeT len
  if 2 ^ 63 ≤ align size then .error .badAlloc
  else
    match checkedSize alg size with
    | .error e => .error e
    | .ok compressed => if compressed ≤ size then .ok () else .error .compressedSize

/-! ## One partition -/

theorem le_align (size : Nat) : size ≤ align size ∧ align size < size + 128 := by
  rw [align_def]
  omega

theorem align_eq {size : Nat} (h : 128 ∣ size) : align size = size := by
  rw [align_def]
  omega

theorem sizeT_of_lt {len : Nat} (h : len < 2 ^ 31) : sizeT len = len := by
  rw [sizeT, toInt32_of_lt h]
  omega

/-- No buffer is that large. -/
theorem check_of_ge (alg : Algorithm) {len : Nat} (h : 2 ^ 31 ≤ len) (hlt : len < 2 ^ 32) :
    check alg len = .error .badAlloc := by
  have hint : toInt32 len = (len : Int) - 2 ^ 32 := by
    rw [toInt32, BitVec.toInt_eq_toNat_cond, BitVec.toNat_ofNat, Nat.mod_eq_of_lt hlt, if_neg (by omega)]
    rfl
  have hsize : 2 ^ 63 ≤ sizeT len := by
    rw [sizeT, hint]
    omega
  have := le_align (sizeT len)
  unfold check
  exact if_pos (by omega)

theorem check_of_lt (alg : Algorithm) {len : Nat} (h : len < 2 ^ 31) :
    check alg len = .ok () ↔ ∃ c, checkedSize alg len = .ok c ∧ c ≤ len := by
  have hal := le_align len
  unfold check
  simp only [sizeT_of_lt h]
  rw [if_neg (by omega)]
  cases hc : checkedSize alg len with
  | error e => simp
  | ok c => simp

theorem check_onebit {len : Nat} (h : len < 2 ^ 31) (h4 : 4 ∣ len) (h0 : 0 < len) :
    check .onebit len = .ok () ↔ len ≠ 4 := by
  rw [check_of_lt .onebit h]
  unfold checkedSize chunkLen chunksFor
  simp only [Except.ok.injEq, exists_eq_left']
  omega

section Sparse
variable (factor : Factor)

/-- The check of `k` implies the other one. -/
theorem check_sparse {alg : Algorithm} (halg : alg = .topk factor ∨ alg = .randomk factor) {len : Nat}
    (h : len < 2 ^ 31) : check alg len = .ok () ↔ kOf factor (align len) ≤ len / 8 := by
  have hsize : checkedSize alg len =
      if kOf factor (align len) ≤ len / 4 / 2 then .ok (kOf factor (align len) * 8) else .error .k := by
    rcases halg with rfl | rfl
    · rfl
    · rfl
  rw [check_of_lt alg h, hsize, Nat.div_div_eq_div_mul]
  by_cases hk : kOf factor (align len) ≤ len / (4 * 2)
  · rw [if_pos hk]
    simp only [Except.ok.injEq, exists_eq_left']
    omega
  · rw [if_neg hk]
    simp [hk]

/-- An aligned length has 24 significant bits. -/
theorem roundBits_aligned {size : Nat} (h128 : 128 ∣ size) (h : size ≤ 2 ^ 31) : roundBits 24 size = size := by
  obtain ⟨c, rfl⟩ := h128
  rw [Nat.mul_comm]
  rcases Nat.lt_or_ge c (2 ^ 24) with hc | hc
  · exact roundBits_mul_two_pow (by decide) hc 7
  · obtain rfl : c = 2 ^ 24 := by omega
    exact roundBits_mul_two_pow (p := 24) (m := 1) (by decide) (by decide) 31

/-- `k` against a bound, without the division. -/
theorem kOf_le_iff {size m : Nat} (h128 : 128 ∣ size) (h : size ≤ 2 ^ 31) : kOf factor size ≤ m ↔
    1 ≤ m ∧ roundBits 24 (factor.num * size) < (m + 1) * (2 ^ factor.exp * 4) := by
  have hpos : 0 < 2 ^ factor.exp * 4 := Nat.mul_pos (Nat.two_pow_pos _) (by decide)
  rw [← Nat.div_lt_iff_lt_mul hpos]
  unfold kOf
  rw [roundBits_aligned h128 h]
  generalize roundBits 24 (factor.num * size) / (2 ^ factor.exp * 4) = k
  dsimp only
  split
  · omega
  · omega

/-- Half of an aligned length has 24 significant bits too. -/
theorem kOf_le {size : Nat} (h128 : 128 ∣ size) (h0 : 0 < size) (h : size < 2 ^ 31) :
    kOf factor size ≤ size / 8 := by
  refine (kOf_le_iff factor h128 h.le).mpr ⟨by omega, ?_⟩
  obtain ⟨c, hc⟩ := h128
  have hsize : size = c * 2 ^ 7 := by omega
  have hc24 : c < 2 ^ 24 := by omega
  -- the exact half, as a number of the format
  have hhalf : factor.num * size ≤ c * 2 ^ (factor.exp + 6) := by
    have := Nat.mul_le_mul_left (c * 2 ^ 6) factor.le_half
    calc factor.num * size = c * 2 ^ 6 * (2 * factor.num) := by rw [hsize]; ring
      _ ≤ c * 2 ^ 6 * 2 ^ factor.exp := this
      _ = c * 2 ^ (factor.exp + 6) := by rw [Nat.pow_add]; ring
  have hle : roundBits 24 (factor.num * size) ≤ c * 2 ^ (factor.exp + 6) := by
    have := roundBits_mono (p := 24) (by decide) hhalf
    rwa [roundBits_mul_two_pow (by decide) hc24] at this
  have hdiv : size / 8 = c * 16 := by omega
  calc roundBits 24 (factor.num * size) ≤ c * 2 ^ (factor.exp + 6) := hle
    _ = c * 16 * (2 ^ factor.exp * 4) := by rw [Nat.pow_add]; ring
    _ < (size / 8 + 1) * (2 ^ factor.exp * 4) := by
      rw [hdiv]
      exact Nat.mul_lt_mul_of_pos_right (Nat.lt_succ_self _) (Nat.mul_pos (Nat.two_pow_pos _) (by decide))

end Sparse

/-! ## All partitions -/

/-- The condition on what is left over. For topk and randomk the product of the fraction and the aligned
length, as a `float`, is less than 4 times the first `k` that is too large. -/
def RestFits (alg : Algorithm) (r : Nat) : Prop :=
  match alg with
  | .onebit => r ≠ 4
  | .topk factor | .randomk factor =>
    8 ≤ r ∧ roundBits 24 (factor.num * align r) < (r / 8 + 1) * (2 ^ factor.exp * 4)

theorem kOf_align_le_iff (factor : Factor) {len : Nat} (h : len < 2 ^ 31) : kOf factor (align len) ≤ len / 8 ↔
    8 ≤ len ∧ roundBits 24 (factor.num * align len) < (len / 8 + 1) * (2 ^ factor.exp * 4) := by
  have halign : 128 ∣ align len ∧ align len ≤ 2 ^ 31 := by
    rw [align_def]
    omega
  rw [kOf_le_iff factor halign.1 halign.2, Nat.le_div_iff_mul_le (by decide)]

theorem check_iff_restFits (alg : Algorithm) {len : Nat} (h : len < 2 ^ 31) (h4 : 4 ∣ len) (h0 : 0 < len) :
    check alg len = .ok () ↔ RestFits alg len := by
  cases alg with
  | onebit => exact check_onebit h h4 h0
  | topk factor => exact (check_sparse factor (.inl rfl) h).trans (kOf_align_le_iff factor h)
  | randomk factor => exact (check_sparse factor (.inr rfl) h).trans (kOf_align_le_iff factor h)

theorem restFits_of_aligned (alg : Algorithm) {len : Nat} (h : len < 2 ^ 31) (h128 : 128 ∣ len) (h0 : 0 < len) :
    RestFits alg len := by
  have hk (factor : Factor) : kOf factor (align len) ≤ len / 8 := by
    rw [align_eq h128]
    exact kOf_le factor h128 h0 h
  cases alg with
  | onebit =>
    show len ≠ 4
    omega
  | topk factor => exact (kOf_align_le_iff factor h).mp (hk factor)
  | randomk factor => exact (kOf_align_le_iff factor h).mp (hk factor)

theorem mem_partitionTensor {bound size : Nat} (hb : 0 < bound) {p : Part} :
    p ∈ partitionTensor bound size ↔ ∃ j, j * bound < size ∧ p = ⟨j * bound, min bound (size - j * bound)⟩ := by
  rw [partitionTensor_eq hb, List.mem_map]
  constructor
  · intro h
    obtain ⟨j, hj, rfl⟩ := h
    exact ⟨j, (lt_numParts_iff hb).mp (List.mem_range.mp hj), rfl⟩
  · intro h
    obtain ⟨j, hj, rfl⟩ := h
    exact ⟨j, List.mem_range.mpr ((lt_numParts_iff hb).mpr hj), rfl⟩

/-- The lengths: `bound`, and what is left over. -/
theorem part_len {bound size j : Nat} (hj : j * bound < size) :
    min bound (size - j * bound) = bound ∧ bound ≤ size ∨
      size % bound ≠ 0 ∧ min bound (size - j * bound) = size % bound := by
  by_cases hfull : bound ≤ size - j * bound
  · exact .inl ⟨Nat.min_eq_left hfull, by omega⟩
  · right
    have hmod : size % bound = size - j * bound := by
      rw [Nat.mod_eq_iff]
      exact .inr ⟨by omega, j, by rw [Nat.mul_comm bound j]; omega⟩
    rw [hmod]
    exact ⟨by omega, Nat.min_eq_right (by omega)⟩

/-- **Checks.** All partitions of a tensor of floats pass exactly if the first one is shorter than
2 GiB and what is left over fits. -/
theorem checks_iff (alg : Algorithm) {bound size : Nat} (hb : 0 < bound) (hpage : 4096 ∣ bound)
    (hbound : bound < 2 ^ 32) (hfloat : 4 ∣ size) (hsize : minCompressBytes ≤ size) :
    (∀ p ∈ partitionTensor bound size, check alg p.len = .ok ()) ↔
      min bound size < 2 ^ 31 ∧ (size % bound ≠ 0 → RestFits alg (size % bound)) := by
  have h0 : 0 < size := Nat.lt_of_lt_of_le (by decide) hsize
  have h4 : 4 ∣ size % bound := (Nat.dvd_mod_iff (Nat.dvd_trans (by decide) hpage)).mpr hfloat
  have hrest : size % bound ≤ min bound size :=
    Nat.le_min.mpr ⟨(Nat.mod_lt size hb).le, Nat.mod_le size bound⟩
  constructor
  · intro h
    have hlt : min bound size < 2 ^ 31 := by
      by_contra hge
      have hfirst := h ⟨0 * bound, min bound (size - 0 * bound)⟩ ((mem_partitionTensor hb).mpr ⟨0, by omega, rfl⟩)
      have hbad : check alg (min bound size) = .error .badAlloc := check_of_ge alg (by omega) (by omega)
      simp only [Nat.zero_mul, Nat.sub_zero, hbad] at hfirst
      cases hfirst
    refine ⟨hlt, fun hne => ?_⟩
    have hj : size / bound * bound < size := by
      have := Nat.div_add_mod' size bound
      omega
    have hlast := h ⟨_, _⟩ ((mem_partitionTensor hb).mpr ⟨size / bound, hj, rfl⟩)
    have hlen : min bound (size - size / bound * bound) = size % bound := by
      rw [← Nat.mod_eq_sub_div_mul]
      exact Nat.min_eq_right (Nat.mod_lt size hb).le
    simp only [hlen] at hlast
    exact (check_iff_restFits alg (by omega) h4 (by omega)).mp hlast
  · intro h p hp
    obtain ⟨hlt, hfits⟩ := h
    obtain ⟨j, hj, rfl⟩ := (mem_partitionTensor hb).mp hp
    rcases part_len hj with ⟨hlen, hle⟩ | ⟨hne, hlen⟩
    · -- `bound` is aligned
      have h128 : 128 ∣ bound := Nat.dvd_trans (by decide) hpage
      have hlt' : bound < 2 ^ 31 := by omega
      simp only [hlen]
      exact (check_iff_restFits alg hlt' (Nat.dvd_trans (by decide) h128) hb).mpr
        (restFits_of_aligned alg hlt' h128 hb)
    · simp only [hlen]
      exact (check_iff_restFits alg (by omega) h4 (by omega)).mpr (hfits hne)

def half : Factor := ⟨1, 1, by decide, by decide, by decide⟩

/-- A partition of the default length, and one of 4096 bytes. -/
theorem checks_aligned : check (.topk half) 4096000 = .ok () ∧ check (.topk half) 4096 = .ok () := by
  have hall : ∀ p ∈ partitionTensor 4096000 4100096, check (.topk half) p.len = .ok () :=
    (checks_iff (.topk half) (by decide) (by decide) (by decide) (by decide) (by decide)).mpr
      ⟨by decide, fun _ => restFits_of_aligned _ (by decide) (by decide) (by decide)⟩
  exact ⟨hall ⟨0, 4096000⟩ ((mem_partitionTensor (by decide)).mpr ⟨0, by decide, by decide⟩),
    hall ⟨4096000, 4096⟩ ((mem_partitionTensor (by decide)).mpr ⟨1, by decide, by decide⟩)⟩

/-- **Counterexample.** One element is left over: onebit makes 8 bytes of its 4, and a `k` of 16 for
the aligned length is more than half of it. A tensor of one partition fails too. -/
theorem checks_counterexample :
    (⟨4096000, 4⟩ : Part) ∈ partitionTensor 4096000 4096004 ∧ check .onebit 4 = .error .compressedSize ∧
    check (.topk half) 4 = .error .k ∧ check (.randomk half) 4 = .error .k ∧
    (⟨0, 65540⟩ : Part) ∈ partitionTensor 4096000 65540 ∧ check (.topk half) 65540 = .error .k := by
  refine ⟨?_, by decide +kernel, by decide +kernel, by decide +kernel, ?_, by decide +kernel⟩
  · exact (mem_partitionTensor (by decide)).mpr ⟨1, by decide, by decide⟩
  · exact (mem_partitionTensor (by decide)).mpr ⟨0, by decide, by decide⟩

/-! ## DRIVE -/

section Drive
open Inca.L2
variable {K : Type} [Field K] [LinearOrder K]

/-- The elements of a partition, as `Compress` counts them.
mirrors byteps/byteps/common/core_loops.cc:943-946, compressor/common.h:50-52 -/
def elements (p : Part) : Nat := sizeT p.len / 4

theorem elements_lt (p : Part) : elements p < 2 ^ 62 := by
  unfold elements sizeT
  omega

/-- **Partitions in DRIVE.** The assertion fails in one of the calls, for every partition. The
dimension is kept, and the vector is not left, exactly for multiples of 32. -/
theorem drive_partition (bound size : Nat) (sqrt : Nat → K) (seed : Nat) (rng : Rng) (src : Nat → K) :
    ∀ p ∈ partitionTensor bound size, ¬Drive.Sound sqrt seed rng src (elements p) ∧
      (Drive.assertion (elements p) = true ↔ elements p = 1) ∧
      Drive.assertion (Drive.rotatedLen (Drive.compressedSize (elements p))) = false ∧
      (Drive.rotatedLen (Drive.compressedSize (elements p)) = elements p ↔ 32 ∣ elements p) ∧
      (Drive.compress true sqrt seed rng src (elements p) = .error .bounds ↔ ¬32 ∣ elements p) := by
  intro p _
  have hlt := elements_lt p
  exact ⟨Drive.not_sound sqrt seed rng src _, Drive.assertion_iff (by omega), Drive.assertion_rotatedLen _,
    Drive.rotatedLen_eq_iff _, Drive.compress_bounds_iff sqrt seed rng src (by omega)⟩

theorem drive_partition_default : (⟨0, 4096000⟩ : Part) ∈ partitionTensor 4096000 4096004 ∧
    ¬Drive.Sound (fun _ => (1 : ℚ)) 0 ⟨1, 2⟩ (fun _ => 1) (elements ⟨0, 4096000⟩) := by
  have hmem : (⟨0, 4096000⟩ : Part) ∈ partitionTensor 4096000 4096004 :=
    (mem_partitionTensor (by decide)).mpr ⟨0, by decide, by decide⟩
  exact ⟨hmem, (drive_partition 4096000 4096004 (fun _ => (1 : ℚ)) 0 ⟨1, 2⟩ (fun _ => 1) _ hmem).1⟩

/-- **Counterexample.** A partition of `2 ^ 14` elements is rotated with the assertion false, in both
calls; one of `2 ^ 14 + 1` is also read behind its end, and comes back in another dimension. -/
theorem drive_partition_counterexample :
    (⟨0, 65536⟩ : Part) ∈ partitionTensor 4096000 65536 ∧ elements ⟨0, 65536⟩ = 2 ^ 14 ∧
    Drive.assertion (2 ^ 14) = false ∧ Drive.assertion (Drive.rotatedLen (Drive.compressedSize (2 ^ 14))) = false ∧
    (⟨0, 65540⟩ : Part) ∈ partitionTensor 4096000 65540 ∧ elements ⟨0, 65540⟩ = 2 ^ 14 + 1 ∧
    Drive.rotatedLen (Drive.compressedSize (2 ^ 14 + 1)) = 2 ^ 14 + 32 ∧
    Drive.compress true (fun _ => (1 : ℚ)) 0 ⟨1, 2⟩ (fun _ => 1) (2 ^ 14 + 1) = .error .bounds := by
  refine ⟨?_, by decide +kernel, by decide +kernel, Drive.assertion_rotatedLen _, ?_, by decide +kernel,
    by decide +kernel, ?_⟩
  · exact (mem_partitionTensor (by decide)).mpr ⟨0, by decide, by decide⟩
  · exact (mem_partitionTensor (by decide)).mpr ⟨0, by decide, by decide⟩
  · exact (Drive.compress_bounds_iff _ _ _ _ (by omega)).mpr (by omega)

end Drive

end Inca.L4.CompressChecks
