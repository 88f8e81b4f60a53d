import Inca.Core.Hadamard
import Inca.Core.While
import Inca.L2Machine.OnebitWidths
import Mathlib.Analysis.Real.Sqrt

/-!
# DRIVE (`compressor/impl/drive.cc`)

A gradient is rotated by a Hadamard transform behind a random diagonal of signs, and only the
signs of the result are sent, with one scale. Accesses to the vector that is rotated are checked
(`Fault.bounds`); whether the assertion of `HadamardRotate` is compiled in, is a parameter.

Arithmetic is exact. `Bernoulli(0.5)` is true for every output of the generator, so the diagonal
is the identity, in both calls.

* `level_eq`, `rotateLoop_ok`: a round of the outer loop is one level of the transform, and the
  loop is the transform of a vector whose length is a power of two.
* `hadamardRotate_eq_sum`: in a commutative ring, the loops as a matrix of signs.
* `compress_eq`, `decompress_eq`: the two calls.
* `drive_dot`: the inner product of a vector with what comes out is its squared norm, for up to
  `2 ^ 31` words.
* `compress_bounds_iff`: elements behind the vector are read unless it fills all words.
* `compress_assertion_iff`, `decompress_assertion`: what is asserted is that there is one element, which is
  never so in `Decompress`.
-/
namespace Inca.L2.Drive
open Inca.L2.Compress Inca.Hadamard Inca.BitList

/-! ## The code -/

variable {K : Type}

/-- Why a call does not return: the assertion; an access behind the end of the vector; a division by the
step of the outer loop, when that is 0; an outer loop that goes on; a vector of zeros, whose scale is
`0 / 0`. -/
inductive Fault
  | assertion
  | bounds
  | division
  | endless
  | zeros
  deriving DecidableEq

/-- `len & (len-1) == 0`, where `==` binds stronger.
mirrors byteps/byteps/common/compressor/impl/drive.cc:43 -/
def assertion (len : Nat) : Bool := (len &&& (decide ((len + 2 ^ 64 - 1) % 2 ^ 64 = 0)).toNat) ≠ 0

section Rotation
variable [CommRing K]

def read (n : Nat) (v : Nat → K) (i : Nat) : Except Fault K := if i < n then .ok (v i) else .error .bounds

def write (n : Nat) (v : Nat → K) (i : Nat) (x : K) : Except Fault (Nat → K) :=
  if i < n then .ok (Function.update v i x) else .error .bounds

/-- mirrors byteps/byteps/common/compressor/impl/drive.cc:53-55 -/
def butterfly (n h hf i : Nat) (v : Nat → K) (j : Nat) : Except Fault (Nat → K) := do
  let front ← read n v (i * h + j)
  let back ← read n v (i * h + hf + j)
  let v ← write n v (i * h + j) (front + back)
  let front ← read n v (i * h + j)
  let back ← read n v (i * h + hf + j)
  write n v (i * h + hf + j) (front - ((2 : Nat) : K) * back)

/-- mirrors byteps/byteps/common/compressor/impl/drive.cc:50-57 -/
def level (n len h : Nat) (v : Nat → K) : Except Fault (Nat → K) :=
  (List.range (len / h)).foldlM (fun v i => (List.range (h / 2)).foldlM (butterfly n h (h / 2) i) v) v

/-- mirrors byteps/byteps/common/compressor/impl/drive.cc:47-59 -/
def rotateLoop (n len : Nat) : Nat → Nat → (Nat → K) → Except Fault (Nat → K)
  | 0, _, _ => .error .endless
  | fuel + 1, h, v =>
    if h ≤ len then
      if h = 0 then .error .division
      else do
        let v ← level n len h v
        rotateLoop n len fuel (h * 2 % 2 ^ 64) v
    else .ok v

/-- `n` is the length of the vector, `len` that of the part that is rotated; `h` is 0 in round 64.
mirrors byteps/byteps/common/compressor/impl/drive.cc:35-66 -/
def hadamardRotate (ndebug : Bool) (n : Nat) (dst : Nat → K) (len : Nat) : Except Fault (Nat → K) :=
  if ndebug || assertion len then rotateLoop n len 64 2 dst else .error .assertion

end Rotation

variable [Field K] [LinearOrder K]

/-- One element of the diagonal, and the division.
mirrors byteps/byteps/common/compressor/impl/drive.cc:94-110, 196-208 -/
def signed (seed : Nat) (sqrtD : K) (rng : Rng) (x : K) : K × Rng :=
  if seed ≠ 0 then
    let r := rng.bernoulli (0.5 : K)
    ((if r.1 then x else -x) / sqrtD, r.2)
  else (x / sqrtD, rng)

/-- The loop over the diagonal; `src` is what is read for an element. -/
def diagonal (seed : Nat) (sqrtD : K) (src : (Nat → K) → Nat → K) (len : Nat) (s : (Nat → K) × Rng) : (Nat → K) × Rng :=
  (List.range len).foldl (fun s i =>
    let r := signed seed sqrtD s.2 (src s.1 i)
    (Function.update s.1 i r.1, r.2)) s

/-- mirrors byteps/byteps/common/compressor/impl/drive.cc:115-119 -/
def norms (n : Nat) (temp : Nat → K) (len : Nat) : Except Fault (K × K) :=
  (List.range len).foldlM (fun s i => do
    let x ← read n temp i
    return (s.1 + |x|, s.2 + x * x)) (0, 0)

/-- mirrors byteps/byteps/common/compressor/impl/drive.cc:125-133 -/
def packWord (n : Nat) (temp : Nat → K) (i : Nat) : Except Fault (BitVec 32) := do
  let first ← read n temp (i * 32)
  (List.range 31).foldlM (fun x j => do
    let next ← read n temp (i * 32 + (j + 1))
    return shiftIn x (next < 0)) (BitVec.setWidth 32 (BitVec.ofBool (first < 0)))

/-- The size of a compressed vector, in bytes.
mirrors byteps/byteps/common/compressor/impl/drive.cc:81-84, 148 -/
def compressedSize (len : Nat) : Nat := chunkLen len * 4 + 4

/-- `std::sqrt` of a `size_t` is a parameter; `temp` is not initialised.
mirrors byteps/byteps/common/compressor/impl/drive.cc:68-154 -/
def compress (ndebug : Bool) (sqrt : Nat → K) (seed : Nat) (rng : Rng) (src : Nat → K) (len : Nat) :
    Except Fault (Rng × Tensor K) := do
  let s := diagonal seed (sqrt len) (fun _ => src) len (fun _ => 0, rng)
  let temp ← hadamardRotate ndebug len s.1 len
  let (norm1, norm2) ← norms len temp len
  let words ← (List.range (chunkLen len)).mapM (packWord len temp)
  if norm1 = 0 then .error .zeros
  else return (s.2, ⟨fun i => match words[i]? with
    | some x => .int x
    | none => .float (norm2 / norm1), compressedSize len⟩)

/-- The length that `DecompressImpl` rotates.
mirrors byteps/byteps/common/compressor/impl/drive.cc:165-166, 192 -/
def rotatedLen (size : Nat) : Nat := (size - 4) / 4 * 32

/-- mirrors byteps/byteps/common/compressor/impl/drive.cc:177-189 -/
def unpackSigns (words : Nat → BitVec 32) (n : Nat) (dst : Nat → K) : Nat → K :=
  unpack (fun _ b => ((1 - (b <<< 1)).toInt : K)) words (OnebitWidths.rounds n) dst

/-- What is in `dst` behind the call; the words are those of `src`, or of their copy in `_buf`.
mirrors byteps/byteps/common/compressor/impl/drive.cc:156-243 -/
def decompress (ndebug : Bool) (sqrt : Nat → K) (seed : Nat) (rng : Rng) (t : Tensor K) (dst : Nat → K) :
    Except Fault (Rng × (Nat → K)) := do
  let n := (t.size - 4) / 4
  let scale := t.floatAt n
  let dst := unpackSigns t.intAt n dst
  let dst ← hadamardRotate ndebug (rotatedLen t.size) dst (rotatedLen t.size)
  let s := diagonal seed (sqrt (rotatedLen t.size)) id (rotatedLen t.size) (dst, rng)
  return (s.2, fun i => if i < rotatedLen t.size then s.1 i * scale else s.1 i)

/-! ## Indices of a level -/

/-- The pair of a butterfly stays in its row, and at its place in the two halves of the row. -/
theorem twin_div (b p : Nat) : twin b p / 2 ^ (b + 1) = p / 2 ^ (b + 1) := by
  rw [twin, Nat.xor_div_two_pow, Nat.div_eq_of_lt (Nat.pow_lt_pow_right (Nat.lt_succ_self 1) (Nat.lt_succ_self b)),
    Nat.xor_zero]

theorem twin_mod (b p : Nat) : twin b p % 2 ^ b = p % 2 ^ b := by
  rw [twin, Nat.xor_mod_two_pow, Nat.mod_self, Nat.xor_zero]

/-- The front element of butterfly `j` of row `i`. -/
theorem front_spec {b i j : Nat} (hj : j < 2 ^ b) :
    (i * 2 ^ (b + 1) + j).testBit b = false ∧ twin b (i * 2 ^ (b + 1) + j) = i * 2 ^ (b + 1) + 2 ^ b + j ∧
      (i * 2 ^ (b + 1) + j) / 2 ^ (b + 1) = i ∧ (i * 2 ^ (b + 1) + j) % 2 ^ b = j := by
  have hlt : j < 2 ^ (b + 1) := by
    rw [Nat.pow_succ]
    omega
  have hbit : ∀ x < 2 ^ (b + 1), ∀ c, (i * 2 ^ (b + 1) + x).testBit c =
      if c < b + 1 then x.testBit c else i.testBit (c - (b + 1)) := by
    intro x hx c
    rw [Nat.mul_comm, Nat.testBit_two_pow_mul_add i hx]
  refine ⟨?_, ?_, ?_, ?_⟩
  · rw [hbit j hlt, if_pos (Nat.lt_succ_self b)]
    exact Nat.testBit_lt_two_pow hj
  · apply Nat.eq_of_testBit_eq
    intro c
    have hback : 2 ^ b + j < 2 ^ (b + 1) := by
      rw [Nat.pow_succ]
      omega
    rw [twin, Nat.testBit_xor, hbit j hlt, Nat.add_assoc, hbit _ hback]
    by_cases hc : c < b + 1
    · rw [if_pos hc, if_pos hc]
      rcases Nat.lt_or_eq_of_le (Nat.le_of_lt_succ hc) with hlt | rfl
      · rw [Nat.testBit_two_pow_of_ne (by omega), Nat.testBit_two_pow_add_gt hlt, Bool.xor_false]
      · rw [Nat.testBit_two_pow_self, Nat.testBit_two_pow_add_eq, Bool.xor_true]
    · rw [if_neg hc, if_neg hc, Nat.testBit_two_pow_of_ne (by omega), Bool.xor_false]
  · rw [Nat.mul_comm, Nat.mul_add_div (Nat.two_pow_pos _), Nat.div_eq_of_lt hlt, Nat.add_zero]
  · rw [Nat.pow_succ, ← Nat.mul_assoc, Nat.mul_right_comm, Nat.mul_comm, Nat.mul_add_mod, Nat.mod_eq_of_lt hj]

/-- The indices of a butterfly are its front element and the other one of the pair. -/
theorem eq_front_or {b i j p : Nat} (hrow : p / 2 ^ (b + 1) = i) (hj : p % 2 ^ b = j) :
    p = i * 2 ^ (b + 1) + j ∨ p = i * 2 ^ (b + 1) + 2 ^ b + j := by
  have hdiv := Nat.div_add_mod' p (2 ^ (b + 1))
  have hmod : p % 2 ^ (b + 1) = p % 2 ^ b + 2 ^ b * (p / 2 ^ b % 2) := Nat.mod_pow_succ
  rw [hrow, hmod, hj] at hdiv
  rcases Nat.mod_two_eq_zero_or_one (p / 2 ^ b) with h | h
  · rw [h, Nat.mul_zero] at hdiv
    omega
  · rw [h, Nat.mul_one] at hdiv
    omega

/-! ## The rotation -/

section Rotation
variable {K : Type} [CommRing K]

theorem mix_congr {b p : Nat} {v w : Nat → K} (h : w p = v p) (h' : w (twin b p) = v (twin b p)) :
    mix b w p = mix b v p := by
  unfold mix
  rw [h, h']

/-- Both elements of a butterfly are what the level makes of them. -/
theorem butterfly_eq {n b i j : Nat} (hn : (i + 1) * 2 ^ (b + 1) ≤ n) (hj : j < 2 ^ b) (v : Nat → K) :
    butterfly n (2 ^ (b + 1)) (2 ^ b) i v j =
      .ok fun p => if p / 2 ^ (b + 1) = i ∧ p % 2 ^ b = j then mix b v p else v p := by
  obtain ⟨hbit, htwin, hrow, hmod⟩ := front_spec (i := i) hj
  have hback : i * 2 ^ (b + 1) + 2 ^ b + j < n := by
    rw [Nat.succ_mul, Nat.pow_succ] at hn
    rw [Nat.pow_succ]
    omega
  have hne : i * 2 ^ (b + 1) + 2 ^ b + j ≠ i * 2 ^ (b + 1) + j := by
    have := Nat.two_pow_pos b
    omega
  simp only [butterfly, read, write, if_pos hback, if_pos (show i * 2 ^ (b + 1) + j < n by omega), bind, Except.bind,
    Function.update_self, Function.update_of_ne hne]
  refine congrArg Except.ok (funext fun p => ?_)
  by_cases hp : p / 2 ^ (b + 1) = i ∧ p % 2 ^ b = j
  · rw [if_pos hp]
    rcases eq_front_or hp.1 hp.2 with rfl | rfl
    · rw [Function.update_of_ne hne.symm, Function.update_self, mix, hbit, htwin]
      show _ = 1 * _ + _
      ring
    · rw [Function.update_self, mix, ← htwin, testBit_twin, hbit, twin_twin]
      show _ = -1 * _ + _
      rw [Nat.cast_ofNat]
      ring
  · rw [if_neg hp, Function.update_of_ne, Function.update_of_ne]
    · rintro rfl
      exact hp ⟨hrow, hmod⟩
    · rintro rfl
      rw [← htwin, twin_div, twin_mod] at hp
      exact hp ⟨hrow, hmod⟩

/-- One row. -/
theorem row_eq {n b i : Nat} (hn : (i + 1) * 2 ^ (b + 1) ≤ n) (v : Nat → K) :
    (List.range (2 ^ b)).foldlM (butterfly n (2 ^ (b + 1)) (2 ^ b) i) v =
      .ok fun p => if p / 2 ^ (b + 1) = i then mix b v p else v p := by
  have hloop := foldlM_range (f := butterfly n (2 ^ (b + 1)) (2 ^ b) i) (n := 2 ^ b)
    (g := fun m p => if p / 2 ^ (b + 1) = i ∧ p % 2 ^ b < m then mix b v p else v p) ?_
  · simp only [Nat.not_lt_zero, and_false, if_false, Nat.mod_lt _ (Nat.two_pow_pos b), and_true] at hloop
    exact hloop
  · intro j hj
    rw [butterfly_eq hn hj]
    refine congrArg Except.ok (funext fun p => ?_)
    by_cases hp : p / 2 ^ (b + 1) = i ∧ p % 2 ^ b = j
    · -- neither element was touched before
      rw [if_pos hp, if_pos ⟨hp.1, by omega⟩]
      apply mix_congr
      · exact if_neg (by omega)
      · rw [twin_div, twin_mod]
        exact if_neg (by omega)
    · rw [if_neg hp]
      by_cases hp' : p / 2 ^ (b + 1) = i ∧ p % 2 ^ b < j
      · rw [if_pos hp', if_pos ⟨hp'.1, by omega⟩]
      · rw [if_neg hp', if_neg (by omega)]

/-- **One round of the outer loop.** -/
theorem level_eq {n len b : Nat} (hn : len ≤ n) (v : Nat → K) :
    level n len (2 ^ (b + 1)) v =
      .ok fun p => if p / 2 ^ (b + 1) < len / 2 ^ (b + 1) then mix b v p else v p := by
  have hhalf : 2 ^ (b + 1) / 2 = 2 ^ b := by
    rw [Nat.pow_succ]
    omega
  unfold level
  rw [hhalf]
  have hloop := foldlM_range (n := len / 2 ^ (b + 1))
    (f := fun v i => (List.range (2 ^ b)).foldlM (butterfly n (2 ^ (b + 1)) (2 ^ b) i) v)
    (g := fun r p => if p / 2 ^ (b + 1) < r then mix b v p else v p) ?_
  · simp only [Nat.not_lt_zero, if_false] at hloop
    exact hloop
  · intro i hi
    have hrow : (i + 1) * 2 ^ (b + 1) ≤ n :=
      Nat.le_trans (Nat.mul_le_mul_right _ hi) (Nat.le_trans (Nat.div_mul_le_self len _) hn)
    rw [row_eq hrow]
    refine congrArg Except.ok (funext fun p => ?_)
    by_cases hp : p / 2 ^ (b + 1) = i
    · rw [if_pos hp, if_pos (by omega)]
      apply mix_congr
      · exact if_neg (by omega)
      · rw [twin_div]
        exact if_neg (by omega)
    · rw [if_neg hp]
      by_cases hp' : p / 2 ^ (b + 1) < i
      · rw [if_pos hp', if_pos (by omega)]
      · rw [if_neg hp', if_neg (by omega)]

/-- **The outer loop**, with bit `b` and the ones above it to go. -/
theorem rotateLoop_ok {n len : Nat} (hn : len ≤ n) (hlen : len < 2 ^ 63) (v : Nat → K) {fuel b : Nat} (hfuel : fuel + b = 64)
    (hb : 2 ^ b ≤ len ∨ b = 0) (w : Nat → K) :
    ∃ u, rotateLoop n len fuel (2 ^ (b + 1)) w = .ok u ∧
      ∀ k, len = 2 ^ k → (∀ p < len, w p = transform b v p) → ∀ p < len, u p = transform k v p := by
  induction fuel generalizing b w with
  | zero =>
    exfalso
    obtain rfl : b = 64 := by omega
    omega
  | succ fuel ih =>
    rw [rotateLoop]
    by_cases hle : 2 ^ (b + 1) ≤ len
    · have hb63 : b + 1 < 63 := (Nat.pow_lt_pow_iff_right (Nat.lt_succ_self 1)).mp (Nat.lt_of_le_of_lt hle hlen)
      have hnext : 2 ^ (b + 1) * 2 % 2 ^ 64 = 2 ^ (b + 1 + 1) := by
        rw [← Nat.pow_succ, Nat.mod_eq_of_lt]
        exact Nat.pow_lt_pow_right (Nat.lt_succ_self 1) (by omega)
      rw [if_pos hle, if_neg (Nat.two_pow_pos _).ne', level_eq hn, hnext]
      obtain ⟨u, hu, hval⟩ := ih (by omega) (.inl hle)
        fun p => if p / 2 ^ (b + 1) < len / 2 ^ (b + 1) then mix b w p else w p
      refine ⟨u, hu, fun k hk hw => hval k hk fun p hp => ?_⟩
      -- all of a power of two is in whole rows
      have hbk : b + 1 ≤ k := by
        rw [hk] at hle
        exact (Nat.pow_le_pow_iff_right (Nat.lt_succ_self 1)).mp hle
      have hdvd : 2 ^ (b + 1) ∣ len := by
        rw [hk]
        exact Nat.pow_dvd_pow 2 hbk
      rw [if_pos (Nat.div_lt_div_of_lt_of_dvd hdvd hp)]
      apply mix_congr
      · exact hw p hp
      · apply hw
        rw [hk] at hp ⊢
        exact twin_lt (by omega) hp
    · rw [if_neg hle]
      refine ⟨w, rfl, fun k hk hw p hp => ?_⟩
      have hbk : k = b := by
        rw [hk, Nat.pow_le_pow_iff_right (Nat.lt_succ_self 1)] at hle
        rcases hb with hb | rfl
        · rw [hk, Nat.pow_le_pow_iff_right (Nat.lt_succ_self 1)] at hb
          omega
        · omega
      rw [hbk]
      exact hw p hp

/-- Without the assertion. -/
theorem hadamardRotate_ok {n len : Nat} (hn : len ≤ n) (hlen : len < 2 ^ 63) (v : Nat → K) :
    ∃ u, hadamardRotate true n v len = .ok u ∧ ∀ k, len = 2 ^ k → ∀ p < len, u p = transform k v p := by
  obtain ⟨u, hu, hval⟩ := rotateLoop_ok hn hlen v (show 64 + 0 = 64 from rfl) (.inr rfl) v
  exact ⟨u, hu, fun k hk => hval k hk fun p _ => rfl⟩

/-- **The loops as a matrix of signs.** Two rotations multiply every entry by the length. -/
theorem hadamardRotate_eq_sum {k : Nat} (hk : k ≤ 62) (x : Nat → K) :
    ∃ y z, hadamardRotate true (2 ^ k) x (2 ^ k) = .ok y ∧ hadamardRotate true (2 ^ k) y (2 ^ k) = .ok z ∧
      (∀ i < 2 ^ k, y i = ∑ j ∈ Finset.range (2 ^ k), (-1) ^ popcount (i &&& j) * x j) ∧
      ∀ i < 2 ^ k, z i = ((2 ^ k : Nat) : K) * x i := by
  have hlen : 2 ^ k < 2 ^ 63 := Nat.pow_lt_pow_right (Nat.lt_succ_self 1) (by omega)
  obtain ⟨y, hy, hyval⟩ := hadamardRotate_ok (Nat.le_refl (2 ^ k)) hlen x
  obtain ⟨z, hz, hzval⟩ := hadamardRotate_ok (Nat.le_refl (2 ^ k)) hlen y
  refine ⟨y, z, hy, hz, fun i hi => ?_, fun i hi => ?_⟩
  · rw [hyval k rfl i hi, transform_eq_sum hi]
  · rw [hzval k rfl i hi, transform_congr hi (hyval k rfl), transform_transform, Nat.cast_pow, Nat.cast_ofNat]

/-- Four integers. -/
theorem hadamardRotate_eq_sum_four :
    ∃ y z, hadamardRotate true (2 ^ 2) (fun i => (i : Int)) (2 ^ 2) = .ok y ∧ hadamardRotate true (2 ^ 2) y (2 ^ 2) = .ok z ∧
      (∀ i < 2 ^ 2, y i = ∑ j ∈ Finset.range (2 ^ 2), (-1) ^ popcount (i &&& j) * (j : Int)) ∧
      ∀ i < 2 ^ 2, z i = ((2 ^ 2 : Nat) : Int) * (i : Int) :=
  hadamardRotate_eq_sum (by decide) fun i => (i : Int)

/-- The step of a vector of `2 ^ 63` elements does not pass the length: it is doubled to 0. -/
theorem rotateLoop_wraps {fuel b : Nat} (hfuel : fuel + b = 64) (hb : b ≤ 63) (w : Nat → K) :
    rotateLoop (2 ^ 63) (2 ^ 63) fuel (2 ^ (b + 1) % 2 ^ 64) w = .error .division := by
  induction fuel generalizing b w with
  | zero => omega
  | succ fuel ih =>
    rw [rotateLoop]
    rcases Nat.lt_or_eq_of_le hb with hlt | rfl
    · have hmod : 2 ^ (b + 1) % 2 ^ 64 = 2 ^ (b + 1) :=
        Nat.mod_eq_of_lt (Nat.pow_lt_pow_right (Nat.lt_succ_self 1) (by omega))
      have hle : 2 ^ (b + 1) ≤ 2 ^ 63 := Nat.pow_le_pow_right Nat.two_pos (by omega)
      rw [hmod, if_pos hle, if_neg (Nat.two_pow_pos _).ne', level_eq (Nat.le_refl _), ← Nat.pow_succ]
      exact ih (by omega) (by omega) _
    · rw [Nat.mod_self, if_pos (Nat.zero_le _), if_pos rfl]

theorem hadamardRotate_wraps :
    hadamardRotate true (2 ^ 63) (fun _ => (1 : Int)) (2 ^ 63) = .error .division := by
  have h := rotateLoop_wraps (Nat.add_zero 64) (Nat.zero_le 63) fun _ => (1 : Int)
  have htwo : 2 ^ (0 + 1) % 2 ^ 64 = 2 := by decide
  rw [htwo] at h
  rw [hadamardRotate, Bool.true_or, if_pos rfl]
  exact h

end Rotation

/-! ## The diagonal -/

section
variable [IsStrictOrderedRing K]

/-- `p * MAX * 4` is greater than any output of the generator. -/
theorem bernoulli_half (rng : Rng) : (rng.bernoulli (0.5 : K)).1 = true := by
  have hlt : (rng.xorshift128p.1.toNat : K) < 2 ^ 64 := by exact_mod_cast rng.xorshift128p.1.isLt
  refine decide_eq_true (lt_of_lt_of_le hlt ?_)
  norm_num

theorem signed_fst (seed : Nat) (sqrtD : K) (rng : Rng) (x : K) : (signed seed sqrtD rng x).1 = x / sqrtD := by
  unfold signed
  split
  · simp only [bernoulli_half, if_true]
  · rfl

/-- The diagonal does nothing but divide. -/
theorem diagonal_apply {src : (Nat → K) → Nat → K} (hsrc : ∀ v w i, v i = w i → src v i = src w i) (seed : Nat)
    (sqrtD : K) (len : Nat) (s : (Nat → K) × Rng) (i : Nat) :
    (diagonal seed sqrtD src len s).1 i = if i < len then src s.1 i / sqrtD else s.1 i := by
  induction len with
  | zero => rfl
  | succ len ih =>
    have hlast : (diagonal seed sqrtD src (len + 1) s).1 =
        Function.update (diagonal seed sqrtD src len s).1 len (src (diagonal seed sqrtD src len s).1 len / sqrtD) := by
      unfold diagonal
      rw [List.range_succ, List.foldl_append, List.foldl_cons, List.foldl_nil]
      simp only [signed_fst]
    rw [hlast]
    by_cases hi : i = len
    · subst hi
      rw [Function.update_self, if_pos (Nat.lt_succ_self i)]
      rw [if_neg (Nat.lt_irrefl i)] at ih
      rw [hsrc _ _ i ih]
    · rw [Function.update_of_ne hi, ih]
      by_cases hlt : i < len
      · rw [if_pos hlt, if_pos (by omega)]
      · rw [if_neg hlt, if_neg (by omega)]

end

/-! ## Compression -/

omit [Field K] [LinearOrder K] in
theorem read_of_lt {n i : Nat} (h : i < n) (v : Nat → K) : read n v i = .ok (v i) := if_pos h

omit [Field K] [LinearOrder K] in
theorem read_of_le {n i : Nat} (h : n ≤ i) (v : Nat → K) : read n v i = .error .bounds := if_neg (by omega)

open Finset in
def norm1 (temp : Nat → K) (len : Nat) : K := ∑ i ∈ range len, |temp i|

open Finset in
def norm2 (temp : Nat → K) (len : Nat) : K := ∑ i ∈ range len, temp i * temp i

theorem norm1_succ (temp : Nat → K) (len : Nat) : norm1 temp (len + 1) = norm1 temp len + |temp len| :=
  Finset.sum_range_succ _ len

omit [LinearOrder K] in
theorem norm2_succ (temp : Nat → K) (len : Nat) : norm2 temp (len + 1) = norm2 temp len + temp len * temp len :=
  Finset.sum_range_succ _ len

theorem norms_eq (temp : Nat → K) (len : Nat) : norms len temp len = .ok (norm1 temp len, norm2 temp len) := by
  refine foldlM_range (g := fun m => (norm1 temp m, norm2 temp m)) fun i hi => ?_
  rw [read_of_lt hi, norm1_succ, norm2_succ]
  rfl

/-- The word, as far as the elements up to `j`. -/
def partWord (temp : Nat → K) (i j : Nat) : BitVec 32 :=
  (List.range j).foldl (fun x j => shiftIn x (temp (i * 32 + (j + 1)) < 0))
    (BitVec.setWidth 32 (BitVec.ofBool (temp (i * 32) < 0)))

theorem partWord_succ (temp : Nat → K) (i j : Nat) :
    partWord temp i (j + 1) = shiftIn (partWord temp i j) (temp (i * 32 + (j + 1)) < 0) := by
  rw [partWord, List.range_succ, List.foldl_append]
  rfl

/-- One more element of a word. -/
theorem packStep {n i j : Nat} (temp : Nat → K) (h : i * 32 + (j + 1) < n) :
    (do let next ← read n temp (i * 32 + (j + 1)); return shiftIn (partWord temp i j) (next < 0) : Except Fault (BitVec 32)) =
      .ok (partWord temp i (j + 1)) := by
  rw [read_of_lt h, partWord_succ]
  rfl

theorem packWord_eq {n i : Nat} (temp : Nat → K) (h : i * 32 + 32 ≤ n) : packWord n temp i = .ok (pack temp i) := by
  rw [packWord, read_of_lt (by omega)]
  exact foldlM_range (g := partWord temp i) fun j hj => packStep temp (by omega)

/-- The vector ends in the word, or before it. -/
theorem packWord_bounds {n i : Nat} (temp : Nat → K) (h : n < i * 32 + 32) : packWord n temp i = .error .bounds := by
  rw [packWord]
  by_cases hfirst : n ≤ i * 32
  · rw [read_of_le hfirst]
    rfl
  · rw [read_of_lt (by omega)]
    refine foldlM_range_error (g := partWord temp i) (m := n - i * 32 - 1) (by omega) (fun j hj => packStep temp (by omega)) ?_
    rw [read_of_le (by omega)]
    rfl

theorem chunkLen_mul_iff (len : Nat) : chunkLen len * 32 = len ↔ 32 ∣ len := by
  unfold chunkLen chunksFor
  omega

/-- What is sent for the rotated vector. -/
def tensorOf (temp : Nat → K) (len : Nat) : Tensor K where
  data i := if i < chunkLen len then .int (pack temp i) else .float (norm2 temp len / norm1 temp len)
  size := compressedSize len

variable (sqrt : Nat → K) (seed : Nat) (rng : Rng) (src : Nat → K)

/-- **Compression** of a vector that fills all words. -/
theorem compress_eq {len : Nat} (hlen : len < 2 ^ 63) (hdvd : 32 ∣ len) : ∃ temp rng',
    (∀ k, len = 2 ^ k → ∀ p < len, temp p =
      transform k (diagonal seed (sqrt len) (fun _ => src) len (fun _ => 0, rng)).1 p) ∧
    compress true sqrt seed rng src len =
      if norm1 temp len = 0 then .error .zeros else .ok (rng', tensorOf temp len) := by
  obtain ⟨temp, hrun, hval⟩ := hadamardRotate_ok (Nat.le_refl len) hlen
    (diagonal seed (sqrt len) (fun _ => src) len (fun _ => 0, rng)).1
  have hchunk := (chunkLen_mul_iff len).mpr hdvd
  have hwords : (List.range (chunkLen len)).mapM (packWord len temp) = .ok ((List.range (chunkLen len)).map (pack temp)) :=
    mapM_ok fun i hi => packWord_eq temp (by have := List.mem_range.mp hi; omega)
  refine ⟨temp, (diagonal seed (sqrt len) (fun _ => src) len (fun _ => 0, rng)).2, hval, ?_⟩
  simp only [compress, hrun, norms_eq, hwords, bind, Except.bind]
  split
  · rfl
  · refine congrArg (fun t => Except.ok (_, t)) ?_
    rw [tensorOf]
    congr 1
    funext i
    rw [List.getElem?_map]
    by_cases hi : i < chunkLen len
    · rw [List.getElem?_range hi, if_pos hi]
      rfl
    · rw [List.getElem?_eq_none (by rw [List.length_range]; omega), if_neg hi]
      rfl

/-- **Bounds.** The padding of the last word is read behind the vector. -/
theorem compress_bounds_iff {len : Nat} (hlen : len < 2 ^ 63) :
    compress true sqrt seed rng src len = .error .bounds ↔ ¬32 ∣ len := by
  by_cases hdvd : 32 ∣ len
  · obtain ⟨temp, rng', -, hrun⟩ := compress_eq sqrt seed rng src hlen hdvd
    refine iff_of_false ?_ (not_not.mpr hdvd)
    rw [hrun]
    split
    · exact fun h => by cases h
    · exact fun h => by cases h
  · refine iff_of_true ?_ hdvd
    obtain ⟨temp, hrun, -⟩ := hadamardRotate_ok (Nat.le_refl len) hlen
      (diagonal seed (sqrt len) (fun _ => src) len (fun _ => 0, rng)).1
    have hchunk : len < chunkLen len * 32 := by
      have := le_chunkLen len
      have := (chunkLen_mul_iff len).not.mpr hdvd
      omega
    have hwords : (List.range (chunkLen len)).mapM (packWord len temp) = .error .bounds := by
      refine mapM_error (a := chunkLen len - 1) ?_ (List.mem_range.mpr (by omega)) (packWord_bounds temp (by omega))
      intro i _ hne
      refine ⟨_, packWord_eq temp ?_⟩
      by_contra hlt
      exact hne (packWord_bounds temp (by omega))
    simp only [compress, hrun, norms_eq, hwords, bind, Except.bind]

/-! ## Decompression -/

theorem rotatedLen_compressedSize (len : Nat) : rotatedLen (compressedSize len) = chunkLen len * 32 := by
  unfold rotatedLen compressedSize
  omega

/-- Both calls rotate in the same dimension exactly if the words are full. -/
theorem rotatedLen_eq_iff (len : Nat) : rotatedLen (compressedSize len) = len ↔ 32 ∣ len := by
  rw [rotatedLen_compressedSize, chunkLen_mul_iff]

/-- `2 ^ k` elements fill `2 ^ (k - 5)` words. -/
theorem two_pow_chunks {k : Nat} (hk : 5 ≤ k) : 2 ^ (k - 5) * 32 = 2 ^ k := by
  rw [show 32 = 2 ^ 5 from rfl, ← Nat.pow_add, Nat.sub_add_cancel hk]

theorem chunkLen_two_pow {k : Nat} (hk : 5 ≤ k) : chunkLen (2 ^ k) = 2 ^ (k - 5) := by
  have := two_pow_chunks hk
  unfold chunkLen chunksFor
  omega

variable (temp : Nat → K) (dst : Nat → K)

/-- The signs that come out of the words. -/
theorem unpackSigns_apply {len p : Nat} (hwords : chunkLen len ≤ 2 ^ 31) (hp : p < chunkLen len * 32) :
    unpackSigns (tensorOf temp len).intAt (chunkLen len) dst p = if temp p < 0 then -1 else 1 := by
  have hdiv : p / 32 < chunkLen len := by omega
  have hbit : bitOf (tensorOf temp len).intAt p = decide (temp p < 0) := by
    simp only [bitOf, Tensor.intAt, tensorOf, if_pos hdiv]
    rw [pack_getLsbD temp _ (by omega), Nat.mul_comm, Nat.div_add_mod]
  rw [unpackSigns, OnebitWidths.rounds_of_le hwords, unpack_apply, if_pos hp, hbit]
  by_cases h : temp p < 0
  · simp [h]
  · simp [h]

/-- **Decompression** of a vector of `2 ^ k` elements. -/
theorem decompress_eq [IsStrictOrderedRing K] {k : Nat} (hk : 5 ≤ k) (hk' : k < 63) : ∃ y rng',
    decompress true sqrt seed rng (tensorOf temp (2 ^ k)) dst = .ok (rng', y) ∧ ∀ p < 2 ^ k, y p =
      transform k (unpackSigns (tensorOf temp (2 ^ k)).intAt (chunkLen (2 ^ k)) dst) p / sqrt (2 ^ k) *
        (norm2 temp (2 ^ k) / norm1 temp (2 ^ k)) := by
  have hsize : (tensorOf temp (2 ^ k)).size = compressedSize (2 ^ k) := rfl
  have hrot : rotatedLen (compressedSize (2 ^ k)) = 2 ^ k := (rotatedLen_eq_iff _).mpr (Nat.pow_dvd_pow 2 hk)
  have hn : (compressedSize (2 ^ k) - 4) / 4 = chunkLen (2 ^ k) := by
    unfold compressedSize
    omega
  have hscale : (tensorOf temp (2 ^ k)).floatAt (chunkLen (2 ^ k)) = norm2 temp (2 ^ k) / norm1 temp (2 ^ k) := by
    simp only [Tensor.floatAt, tensorOf, lt_irrefl, if_false]
  obtain ⟨u, hrun, hval⟩ := hadamardRotate_ok (Nat.le_refl (2 ^ k)) (Nat.pow_lt_pow_right (Nat.lt_succ_self 1) hk')
    (unpackSigns (tensorOf temp (2 ^ k)).intAt (chunkLen (2 ^ k)) dst)
  have hdiagonal : ∀ p < 2 ^ k, (diagonal seed (sqrt (2 ^ k)) id (2 ^ k) (u, rng)).1 p = u p / sqrt (2 ^ k) := by
    intro p hp
    rw [diagonal_apply (show ∀ v w : Nat → K, ∀ i, v i = w i → id v i = id w i from fun v w i h => h), if_pos hp]
    rfl
  refine ⟨fun i => if i < 2 ^ k then (diagonal seed (sqrt (2 ^ k)) id (2 ^ k) (u, rng)).1 i *
      (norm2 temp (2 ^ k) / norm1 temp (2 ^ k)) else (diagonal seed (sqrt (2 ^ k)) id (2 ^ k) (u, rng)).1 i,
    (diagonal seed (sqrt (2 ^ k)) id (2 ^ k) (u, rng)).2, ?_, fun p hp => ?_⟩
  · simp only [decompress, hsize, hrot, hn, hscale, hrun, bind, Except.bind]
    rfl
  · show (if p < 2 ^ k then _ else _) = _
    rw [if_pos hp, hdiagonal p hp, hval k rfl p hp]

/-! ## The inner product -/

section
variable [IsStrictOrderedRing K]

/-- A vector whose transform is zero is zero. -/
theorem norm1_ne_zero {k : Nat} {x temp : Nat → K} (htemp : ∀ p < 2 ^ k, temp p = transform k x p)
    (hx : ∃ i < 2 ^ k, x i ≠ 0) : norm1 temp (2 ^ k) ≠ 0 := by
  intro hzero
  have htemp0 : ∀ p < 2 ^ k, transform k x p = 0 := by
    intro p hp
    have h := (Finset.sum_eq_zero_iff_of_nonneg fun i _ => abs_nonneg (temp i)).mp hzero p (Finset.mem_range.mpr hp)
    rw [← htemp p hp]
    exact abs_eq_zero.mp h
  have hdot : dot (2 ^ k) (transform k x) (transform k x) = 0 :=
    Finset.sum_eq_zero fun p hp => by rw [htemp0 p (Finset.mem_range.mp hp), zero_mul]
  rw [dot_transform_self, mul_eq_zero] at hdot
  have hnorm : dot (2 ^ k) x x = 0 := hdot.resolve_left (pow_ne_zero k two_ne_zero)
  obtain ⟨i, hi, hne⟩ := hx
  have h := (Finset.sum_eq_zero_iff_of_nonneg fun i _ => mul_self_nonneg (x i)).mp hnorm i (Finset.mem_range.mpr hi)
  exact hne (mul_self_eq_zero.mp h)

/-- The scale makes up for what the signs lose. -/
theorem dot_signs {k : Nat} {x temp s : Nat → K} (htemp : ∀ p < 2 ^ k, temp p = transform k x p)
    (hs : ∀ p < 2 ^ k, s p = if temp p < 0 then -1 else 1) (hne : norm1 temp (2 ^ k) ≠ 0) :
    dot (2 ^ k) x (transform k s) * (norm2 temp (2 ^ k) / norm1 temp (2 ^ k)) = 2 ^ k * dot (2 ^ k) x x := by
  have habs : dot (2 ^ k) (transform k x) s = norm1 temp (2 ^ k) := by
    refine Finset.sum_congr rfl fun p hp => ?_
    rw [← htemp p (Finset.mem_range.mp hp), hs p (Finset.mem_range.mp hp)]
    by_cases h : temp p < 0
    · rw [if_pos h, abs_of_neg h, mul_neg_one]
    · rw [if_neg h, abs_of_nonneg (not_lt.mp h), mul_one]
  have hnorm : norm2 temp (2 ^ k) = dot (2 ^ k) (transform k x) (transform k x) :=
    Finset.sum_congr rfl fun p hp => by rw [htemp p (Finset.mem_range.mp hp)]
  rw [← dot_transform (Nat.le_refl k), habs, mul_div_cancel₀ _ hne, hnorm, dot_transform_self]

end

theorem sqrt_two_pow (k : Nat) : Real.sqrt (2 ^ k : Nat) ≠ 0 ∧ Real.sqrt (2 ^ k : Nat) * Real.sqrt (2 ^ k : Nat) = 2 ^ k := by
  have hpos : (0 : ℝ) < (2 ^ k : Nat) := by exact_mod_cast Nat.two_pow_pos k
  refine ⟨(Real.sqrt_pos.mpr hpos).ne', ?_⟩
  rw [Real.mul_self_sqrt hpos.le, Nat.cast_pow, Nat.cast_ofNat]

/-- Both calls return, whatever is in the destination. -/
theorem drive_run {k : Nat} (hk : 5 ≤ k) (hk' : k < 63) (seed seed' : Nat) (rng rng' : Rng) (x dst : Nat → ℝ)
    (hx : ∃ i < 2 ^ k, x i ≠ 0) : ∃ temp v t rng₁ y rng₂,
      compress true (fun n => Real.sqrt n) seed rng x (2 ^ k) = .ok (rng₁, t) ∧
      decompress true (fun n => Real.sqrt n) seed' rng' t dst = .ok (rng₂, y) ∧ t = tensorOf temp (2 ^ k) ∧
      (∀ p < 2 ^ k, temp p = transform k v p) ∧ (∀ p < 2 ^ k, x p = v p * Real.sqrt (2 ^ k : Nat)) ∧
      norm1 temp (2 ^ k) ≠ 0 ∧ ∀ p < 2 ^ k, y p =
        transform k (unpackSigns t.intAt (chunkLen (2 ^ k)) dst) p / Real.sqrt (2 ^ k : Nat) *
          (norm2 temp (2 ^ k) / norm1 temp (2 ^ k)) := by
  have hlen : 2 ^ k < 2 ^ 63 := Nat.pow_lt_pow_right (Nat.lt_succ_self 1) hk'
  obtain ⟨temp, rng₁, htemp, hcompress⟩ :=
    compress_eq (fun n => Real.sqrt n) seed rng x hlen (Nat.pow_dvd_pow 2 hk)
  obtain ⟨y, rng₂, hdecompress, hy⟩ := decompress_eq (fun n => Real.sqrt n) seed' rng' temp dst hk hk'
  have hv : ∀ p < 2 ^ k, x p = (diagonal seed (Real.sqrt (2 ^ k : Nat)) (fun _ => x) (2 ^ k) (fun _ => 0, rng)).1 p *
      Real.sqrt (2 ^ k : Nat) := by
    intro p hp
    rw [diagonal_apply (fun _ _ _ _ => rfl), if_pos hp, div_mul_cancel₀ _ (sqrt_two_pow k).1]
  have hne : norm1 temp (2 ^ k) ≠ 0 := by
    refine norm1_ne_zero (htemp k rfl) ?_
    obtain ⟨i, hi, hxi⟩ := hx
    refine ⟨i, hi, fun hzero => hxi ?_⟩
    rw [hv i hi, hzero, zero_mul]
  refine ⟨temp, _, _, rng₁, y, rng₂, ?_, hdecompress, rfl, htemp k rfl, hv, hne, hy⟩
  rw [hcompress, if_neg hne]

open Finset in
/-- **The inner product** of a vector with what comes out is that with itself. -/
theorem drive_dot {k : Nat} (hk : 5 ≤ k) (hk' : k ≤ 36) (seed seed' : Nat) (rng rng' : Rng) (x dst : Nat → ℝ)
    (hx : ∃ i < 2 ^ k, x i ≠ 0) :
    ∃ t rng₁ y rng₂, compress true (fun n => Real.sqrt n) seed rng x (2 ^ k) = .ok (rng₁, t) ∧
      decompress true (fun n => Real.sqrt n) seed' rng' t dst = .ok (rng₂, y) ∧
        ∑ i ∈ range (2 ^ k), x i * y i = ∑ i ∈ range (2 ^ k), x i * x i := by
  obtain ⟨temp, v, t, rng₁, y, rng₂, hcompress, hdecompress, rfl, htemp, hv, hne, hy⟩ :=
    drive_run hk (by omega) seed seed' rng rng' x dst hx
  obtain ⟨hsqrt, hsq⟩ := sqrt_two_pow k
  have hwords : chunkLen (2 ^ k) ≤ 2 ^ 31 := by
    rw [chunkLen_two_pow hk]
    exact Nat.pow_le_pow_right Nat.two_pos (by omega)
  have hsigns := dot_signs htemp (fun p hp => unpackSigns_apply temp dst hwords (Nat.lt_of_lt_of_le hp (le_chunkLen _))) hne
  refine ⟨_, rng₁, y, rng₂, hcompress, hdecompress, ?_⟩
  calc ∑ i ∈ range (2 ^ k), x i * y i
      = dot (2 ^ k) v (transform k (unpackSigns (tensorOf temp (2 ^ k)).intAt (chunkLen (2 ^ k)) dst)) *
          (norm2 temp (2 ^ k) / norm1 temp (2 ^ k)) := by
        rw [dot, sum_mul]
        refine sum_congr rfl fun p hp => ?_
        rw [hy p (mem_range.mp hp), hv p (mem_range.mp hp)]
        field_simp
    _ = 2 ^ k * dot (2 ^ k) v v := hsigns
    _ = ∑ i ∈ range (2 ^ k), x i * x i := by
        rw [dot, mul_sum]
        refine sum_congr rfl fun p hp => ?_
        rw [hv p (mem_range.mp hp), ← hsq]
        ring

theorem drive_dot_five : ∃ t rng₁ y rng₂,
    compress true (fun n => Real.sqrt n) 1 ⟨1, 2⟩ (fun i => if i = 0 then 1 else 0) (2 ^ 5) = .ok (rng₁, t) ∧
      decompress true (fun n => Real.sqrt n) 3 ⟨3, 4⟩ t (fun _ => 0) = .ok (rng₂, y) ∧
        ∑ i ∈ Finset.range (2 ^ 5), (if i = 0 then 1 else 0) * y i =
          ∑ i ∈ Finset.range (2 ^ 5), (if i = 0 then 1 else 0) * (if i = 0 then 1 else 0) :=
  drive_dot (Nat.le_refl 5) (by omega) 1 3 ⟨1, 2⟩ ⟨3, 4⟩ (fun i => if i = 0 then 1 else 0) (fun _ => 0)
    ⟨0, Nat.two_pow_pos 5, one_ne_zero⟩

/-- With `2 ^ 32` words the loop over them does not start, and a destination of zeros stays as it is. -/
theorem drive_dot_counterexample : ∃ t rng₁ y rng₂,
    compress true (fun n => Real.sqrt n) 1 ⟨1, 2⟩ (fun i => if i = 0 then 1 else 0) (2 ^ 37) = .ok (rng₁, t) ∧
      decompress true (fun n => Real.sqrt n) 3 ⟨3, 4⟩ t (fun _ => 0) = .ok (rng₂, y) ∧
        ∑ i ∈ Finset.range (2 ^ 37), (if i = 0 then 1 else 0) * y i ≠
          ∑ i ∈ Finset.range (2 ^ 37), (if i = 0 then 1 else 0) * (if i = 0 then 1 else 0) := by
  obtain ⟨temp, v, t, rng₁, y, rng₂, hcompress, hdecompress, -, -, -, -, hy⟩ :=
    drive_run (show 5 ≤ 37 by omega) (by omega) 1 3 ⟨1, 2⟩ ⟨3, 4⟩ (fun i => if i = 0 then 1 else 0) (fun _ => 0)
      ⟨0, Nat.two_pow_pos 37, one_ne_zero⟩
  refine ⟨t, rng₁, y, rng₂, hcompress, hdecompress, ?_⟩
  have hrounds : OnebitWidths.rounds (chunkLen (2 ^ 37)) = 0 := by
    rw [chunkLen_two_pow (by omega), OnebitWidths.rounds_eq (Nat.le_refl (2 ^ 32)), if_neg (by omega)]
  have hzero : y 0 = 0 := by
    rw [hy 0 (Nat.two_pow_pos 37), unpackSigns, hrounds, unpack, transform_zero, zero_div, zero_mul]
  have hsum : ∀ f : Nat → ℝ, ∑ i ∈ Finset.range (2 ^ 37), (if i = 0 then 1 else 0) * f i = f 0 := by
    intro f
    rw [Finset.sum_eq_single 0]
    · rw [if_pos rfl, one_mul]
    · intro i _ hi
      rw [if_neg hi, zero_mul]
    · exact fun h => absurd (Finset.mem_range.mpr (Nat.two_pow_pos 37)) h
  rw [hsum, hsum, hzero, if_pos rfl]
  exact zero_ne_one

/-! ## The assertion -/

theorem assertion_of_ne {len : Nat} (h : (len + 2 ^ 64 - 1) % 2 ^ 64 ≠ 0) : assertion len = false := by
  rw [assertion, decide_eq_false h, Bool.toNat_false, Nat.and_zero]
  rfl

/-- With `==` binding stronger, the assertion asks for one element. -/
theorem assertion_iff {len : Nat} (h : len < 2 ^ 64) : assertion len = true ↔ len = 1 := by
  constructor
  · intro htrue
    by_contra hne
    rw [assertion_of_ne (by omega)] at htrue
    cases htrue
  · rintro rfl
    rfl

/-- Whole words are never one element. -/
theorem assertion_rotatedLen (size : Nat) : assertion (rotatedLen size) = false := by
  apply assertion_of_ne
  unfold rotatedLen
  omega

/-- With the assertion compiled in, `Compress` gets on for one element only, and leaves the vector then. -/
theorem compress_assertion_iff {len : Nat} (h : len < 2 ^ 64) :
    compress false sqrt seed rng src len = .error .assertion ↔ len ≠ 1 := by
  constructor
  · rintro hrun rfl
    have hbounds := (compress_bounds_iff sqrt seed rng src (show 1 < 2 ^ 63 by omega)).mpr (by omega)
    have hsame : compress false sqrt seed rng src 1 = compress true sqrt seed rng src 1 := rfl
    rw [hsame, hbounds] at hrun
    cases hrun
  · intro hne
    have hfalse : assertion len = false := by rwa [← Bool.not_eq_true, assertion_iff h]
    simp only [compress, hadamardRotate, hfalse, Bool.or_false, if_neg Bool.false_ne_true, bind, Except.bind]

/-- With the assertion compiled in, no call of `Decompress` returns. -/
theorem decompress_assertion (t : Tensor K) : decompress false sqrt seed rng t dst = .error .assertion := by
  simp only [decompress, hadamardRotate, assertion_rotatedLen, Bool.or_false, if_neg Bool.false_ne_true, bind, Except.bind]

/-- What `HadamardRotate` and `CompressImpl` take for granted, in a call of `Compress` and one of
`Decompress` for its result. -/
structure Sound (len : Nat) : Prop where
  compressAssertion : assertion len = true
  decompressAssertion : assertion (rotatedLen (compressedSize len)) = true
  dimension : rotatedLen (compressedSize len) = len
  bounds : compress true sqrt seed rng src len ≠ .error .bounds

theorem not_sound (len : Nat) : ¬Sound sqrt seed rng src len := by
  intro h
  have := h.decompressAssertion
  rw [assertion_rotatedLen] at this
  cases this

end Inca.L2.Drive
