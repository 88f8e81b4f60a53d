import Mathlib.Algebra.Field.Basic
import Mathlib.Algebra.Order.Group.Unbundled.Abs
import Mathlib.Logic.Function.Basic
import Inca.Core.BitList
import Inca.Core.Heap

/-!
# Gradient compressors: onebit, topk and randomk (`common/compressor`)

A compressor turns the floats of a gradient into a tensor of 4-byte words and
back. Under error feedback it also has to say what was left out:
`FastUpdateError` computes `corrected - Decompress(compressed)` without
decompressing. This module has the interface, and the three compressors whose
words are not a bit stream.

Floats are elements of an ordered field `K`: arithmetic is exact, and a word
is an integer or a float (nobody reads one as the other). A tensor has `len`
floats; compressors are made for its length in bytes, aligned to 128, and
copy and clear whole aligned buffers. A compressed tensor reaches `Decompress`
through the network, that is, in another buffer than `_buf`.

* `Lawful`: what error feedback needs of a compressor.
* `onebit_lawful`, `topk_lawful`, `randomk_lawful`.
* `onebit_decompress`, `sparse_decompress`: what comes out again.
-/
namespace Inca.L2.Compress
open Inca.BitList Inca.Heap

/-! ## Tensors -/

inductive Word (K : Type)
  | int (x : BitVec 32)
  | float (x : K)

/-- `size` is in bytes.
mirrors byteps/byteps/common/compressor/common.h:32-41 -/
structure Tensor (K : Type) where
  data : Nat → Word K
  size : Nat

variable {K : Type}

def Tensor.intAt (t : Tensor K) (i : Nat) : BitVec 32 :=
  match t.data i with
  | .int x => x
  | .float _ => 0

def Tensor.floatAt [Zero K] (t : Tensor K) (i : Nat) : K :=
  match t.data i with
  | .int _ => 0
  | .float x => x

/-- The length of a partition; in bytes it is an `int` (operations.cc:441). -/
structure Shape where
  len : Nat
  bytes_lt : 4 * len < 2 ^ 31

/-- `Align` for elements of `w` bits.
mirrors byteps/byteps/common/common.h:331-335 -/
def alignFor (w size : Nat) : Nat :=
  let minSize := w / 8 * (w / 8) * 8
  size + (minSize - size % minSize) % minSize

/-- For `BYTEPS_FLOAT32`. -/
def align (size : Nat) : Nat := alignFor 32 size

theorem align_def (size : Nat) : align size = size + (128 - size % 128) % 128 := rfl

namespace Shape

/-- The compressor's `_size`, in bytes. -/
def size (sh : Shape) : Nat := align (4 * sh.len)

theorem len_le (sh : Shape) : sh.len ≤ sh.size / 4 := by
  rw [size, align_def]
  omega

theorem toNat_ofNat (sh : Shape) {i : Nat} (hi : i < sh.len) : (BitVec.ofNat 32 i).toNat = i := by
  have := sh.bytes_lt
  rw [BitVec.toNat_ofNat]
  omega

/-- `memset(dst, 0, _size)` -/
def memset [Zero K] (sh : Shape) (dst : Nat → K) (i : Nat) : K := if i < sh.size / 4 then 0 else dst i

/-- `memcpy(dst, src, _size)` -/
def memcpy (sh : Shape) (dst src : Nat → K) (i : Nat) : K := if i < sh.size / 4 then src i else dst i

theorem memset_of_lt [Zero K] (sh : Shape) (dst : Nat → K) {i : Nat} (hi : i < sh.len) :
    sh.memset dst i = 0 := if_pos (hi.trans_le sh.len_le)

theorem memcpy_of_lt (sh : Shape) (dst src : Nat → K) {i : Nat} (hi : i < sh.len) :
    sh.memcpy dst src i = src i := if_pos (hi.trans_le sh.len_le)

end Shape

/-! ## The random number generator -/

/-- mirrors byteps/byteps/common/compressor/utils.h:74-115 -/
structure Rng where
  a : BitVec 64
  b : BitVec 64
  deriving DecidableEq

namespace Rng

/-- mirrors byteps/byteps/common/compressor/utils.h:101-110 -/
def xorshift128p (rng : Rng) : BitVec 64 × Rng :=
  let t := rng.a
  let s := rng.b
  let t := t ^^^ (t <<< 23)
  let t := t ^^^ (t >>> 17)
  let t := t ^^^ (s ^^^ (s >>> 26))
  (t + s, ⟨s, t⟩)

/-- mirrors byteps/byteps/common/compressor/utils.h:82-84 -/
def randint (rng : Rng) (low high : BitVec 64) : BitVec 64 × Rng :=
  let r := rng.xorshift128p
  (r.1 % (high - low) + low, r.2)

theorem randint_lt (rng : Rng) {n : Nat} (hn : 0 < n) (h64 : n < 2 ^ 64) :
    (rng.randint 0 (BitVec.ofNat 64 n)).1.toNat < n := by
  simp only [randint, BitVec.ofNat_eq_ofNat, BitVec.sub_zero, BitVec.add_zero, BitVec.toNat_umod,
    BitVec.toNat_ofNat, Nat.mod_eq_of_lt h64]
  exact Nat.mod_lt _ hn

/-- mirrors byteps/byteps/common/compressor/utils.h:91 -/
def bernoulli [Field K] [LinearOrder K] (rng : Rng) (p : K) : Bool × Rng :=
  let r := rng.xorshift128p
  (decide ((r.1.toNat : K) < p * (2 ^ 64 - 1) * 4), r.2)

end Rng

/-- `Bernoulli` as a function of the generator's output.
mirrors byteps/byteps/common/compressor/utils.h:91 -/
def bernoulliOf [Field K] [LinearOrder K] (p : K) (r : BitVec 64) : Bool :=
  decide ((r.toNat : K) < p * (2 ^ 64 - 1) * 4)

theorem bernoulli_eq [Field K] [LinearOrder K] (rng : Rng) (p : K) :
    rng.bernoulli p = (bernoulliOf p rng.xorshift128p.1, rng.xorshift128p.2) := rfl

/-! ## The interface -/

/-- Why a call does not return: a `BPS_CHECK`; a tensor of zeros, whose normalised elements are
`0 / 0`; a stream of `2 ^ 24` bits or more, whose length in words is computed in `float`; a loop of
the decoder that does not end. -/
inductive Fault
  | check
  | zeros
  | stream
  | endless
  deriving DecidableEq

/-- `decompress` and `fastUpdateError` get what their destination held before.
mirrors byteps/byteps/common/compressor/compressor.h:55-130 -/
structure Compressor (K : Type) where
  compress : Rng → (Nat → K) → Except Fault (Rng × Tensor K)
  decompress : Tensor K → (Nat → K) → Except Fault (Nat → K)
  fastUpdateError : (Nat → K) → (Nat → K) → Tensor K → Except Fault (Nat → K)

/-- The compressor fails with one of `faults`, or returns, and what it puts into the error is what
decompression loses. -/
structure Lawful [Sub K] (sh : Shape) (faults : List Fault) (c : Compressor K) : Prop where
  fault : ∀ rng src f, c.compress rng src = .error f → f ∈ faults
  error : ∀ rng src rng' t, c.compress rng src = .ok (rng', t) → ∀ dst error, ∃ out error',
    c.decompress t dst = .ok out ∧ c.fastUpdateError error src t = .ok error' ∧
      ∀ i < sh.len, error' i = src i - out i

/-! ## Onebit -/

section Onebit

/-- `for (j = n - 1; j >= 0; --j) { dst[i * 32 + j] = ..(x & 1)..; x >>= 1; }` -/
def unpackChunk (val : Nat → BitVec 32 → K) (i : Nat) : Nat → BitVec 32 → (Nat → K) → Nat → K
  | 0, _, dst => dst
  | j + 1, x, dst => unpackChunk val i j (x >>> 1)
      (Function.update dst (i * 32 + j) (val (i * 32 + j) (x &&& 1)))

/-- The loop of `DecompressImpl` and of `FastUpdateErrorImpl`, over the words `n - 1` to 0; `val`
is what goes to an index for its bit. -/
def unpack (val : Nat → BitVec 32 → K) (words : Nat → BitVec 32) : Nat → (Nat → K) → Nat → K
  | 0, dst => dst
  | i + 1, dst => unpack val words i (unpackChunk val i 32 (words i) dst)

theorem unpackChunk_apply (val : Nat → BitVec 32 → K) (i n : Nat) (x : BitVec 32) (dst : Nat → K)
    (p : Nat) : unpackChunk val i n x dst p =
      if i * 32 ≤ p ∧ p < i * 32 + n then val p (x >>> (n - 1 - (p - i * 32)) &&& 1) else dst p := by
  induction n generalizing x dst with
  | zero => rw [unpackChunk, if_neg (by omega)]
  | succ n ih =>
    rw [unpackChunk, ih]
    rcases Nat.lt_trichotomy p (i * 32 + n) with hlt | rfl | hgt
    · by_cases hle : i * 32 ≤ p
      · rw [if_pos ⟨hle, hlt⟩, if_pos ⟨hle, by omega⟩, ← BitVec.shiftRight_add]
        congr 3
        omega
      · rw [if_neg (by omega), if_neg (by omega), Function.update_of_ne (by omega)]
    · rw [if_neg (by omega), if_pos (by omega), Function.update_self]
      simp
    · rw [if_neg (by omega), if_neg (by omega), Function.update_of_ne (by omega)]

/-- The bit of index `p` as a number. -/
def bitOf (words : Nat → BitVec 32) (p : Nat) : Bool := (words (p / 32)).getLsbD (31 - p % 32)

theorem unpack_apply (val : Nat → BitVec 32 → K) (words : Nat → BitVec 32) (n : Nat) (dst : Nat → K)
    (p : Nat) : unpack val words n dst p =
      if p < n * 32 then val p (BitVec.setWidth 32 (BitVec.ofBool (bitOf words p))) else dst p := by
  induction n generalizing dst with
  | zero => rw [unpack, if_neg (by omega)]
  | succ n ih =>
    rw [unpack, ih, unpackChunk_apply]
    by_cases hlt : p < n * 32
    · rw [if_pos hlt, if_pos (by omega)]
    · by_cases hin : p < (n + 1) * 32
      · have hdiv : n = p / 32 := by omega
        have hmod : 32 - 1 - (p - n * 32) = 31 - p % 32 := by omega
        rw [if_neg hlt, if_pos (by omega), if_pos hin, hmod, hdiv, bitOf]
        congr 1
        simp [BitVec.and_one_eq_setWidth_ofBool_getLsbD]
      · rw [if_neg hlt, if_neg (by omega), if_neg hin]

/-- Words of `w` bits.
mirrors byteps/byteps/common/compressor/impl/onebit.cc:46-48 -/
def chunksFor (w len : Nat) : Nat := (len + (w - len % w) % w) / w

def chunkLen (len : Nat) : Nat := chunksFor 32 len

/-- mirrors byteps/byteps/common/compressor/impl/onebit.cc:61-66 -/
def packFor {α : Type} (w : Nat) (isNeg : α → Bool) (src : Nat → α) (i : Nat) : BitVec w :=
  (List.range (w - 1)).foldl (fun x j => shiftIn x (isNeg (src (i * w + (j + 1)))))
    (BitVec.setWidth w (BitVec.ofBool (isNeg (src (i * w)))))

/-- The highest bit of a packed word is the sign of its first element. -/
theorem getLsbD_packFor {α : Type} {w : Nat} (isNeg : α → Bool) (src : Nat → α) (i : Nat) {j : Nat} (hj : j < w) :
    (packFor w isNeg src i).getLsbD (w - 1 - j) = isNeg (src (i * w + j)) :=
  getLsbD_foldl_shiftIn (fun j => isNeg (src (i * w + j))) (show w - 1 < w by omega) (show j ≤ w - 1 by omega)

variable [Field K] [LinearOrder K]

/-- mirrors byteps/byteps/common/compressor/impl/onebit.cc:50-57 -/
def onebitScale (useScale : Bool) (len : Nat) (src : Nat → K) : K :=
  if useScale then (List.range len).foldl (fun sum i => sum + |src i|) 0 / len else 1

def pack (src : Nat → K) (i : Nat) : BitVec 32 := packFor 32 (fun x => decide (x < 0)) src i

/-- mirrors byteps/byteps/common/compressor/impl/onebit.cc:59-80 -/
def onebitTensor (useScale : Bool) (sh : Shape) (src : Nat → K) : Tensor K :=
  let n := chunkLen sh.len
  { data := fun i => if i < n then .int (pack src i) else .float (onebitScale useScale sh.len src)
    size := n * 4 + 4 }

/-- mirrors byteps/byteps/common/compressor/impl/onebit.cc:38-161 -/
def onebit (useScale : Bool) (sh : Shape) : Compressor K where
  compress rng src := .ok (rng, onebitTensor useScale sh src)
  decompress t dst :=
    let n := (t.size - 4) / 4
    let scale := t.floatAt n
    .ok (unpack (fun _ b => ((1 - (b <<< 1)).toInt : K) * scale) t.intAt n dst)
  fastUpdateError error corrected t :=
    let n := (t.size - 4) / 4
    let scale := t.floatAt n
    .ok (unpack (fun p b => corrected p + (((b <<< 1) - 1).toInt : K) * scale) t.intAt n error)

/-- Both readers find as many words as were written, and every element has its bit. -/
theorem onebitTensor_size (useScale : Bool) (sh : Shape) (src : Nat → K) :
    ((onebitTensor useScale sh src).size - 4) / 4 = chunkLen sh.len := by
  show (chunkLen sh.len * 4 + 4 - 4) / 4 = chunkLen sh.len
  omega

theorem le_chunkLen (len : Nat) : len ≤ chunkLen len * 32 := by
  unfold chunkLen chunksFor
  omega

theorem onebit_lawful (useScale : Bool) (sh : Shape) : Lawful sh [] (onebit (K := K) useScale sh) where
  fault := fun _ _ _ h => by cases h
  error := by
    rintro rng src rng' t h dst error
    refine ⟨_, _, rfl, rfl, fun p hp => ?_⟩
    obtain ⟨-, rfl⟩ := Prod.mk.inj (Except.ok.inj h)
    rw [onebitTensor_size, unpack_apply, unpack_apply, if_pos (hp.trans_le (le_chunkLen sh.len)),
      if_pos (hp.trans_le (le_chunkLen sh.len))]
    cases bitOf _ p with
    | false => simp [sub_eq_add_neg]
    | true => simp

theorem pack_getLsbD (src : Nat → K) (i : Nat) {j : Nat} (hj : j < 32) :
    (pack src i).getLsbD (31 - j) = decide (src (i * 32 + j) < 0) :=
  getLsbD_packFor (fun x => decide (x < 0)) src i hj

/-- Every element comes out with its sign and the common scale. -/
theorem onebit_decompress (useScale : Bool) (sh : Shape) (rng rng' : Rng) (src dst : Nat → K)
    (t : Tensor K) (h : (onebit useScale sh).compress rng src = .ok (rng', t)) :
    ∃ out, (onebit useScale sh).decompress t dst = .ok out ∧ ∀ i < sh.len,
      out i = if src i < 0 then -onebitScale useScale sh.len src else onebitScale useScale sh.len src := by
  refine ⟨_, rfl, fun p hp => ?_⟩
  obtain ⟨-, rfl⟩ := Prod.mk.inj (Except.ok.inj h)
  have hn := hp.trans_le (le_chunkLen sh.len)
  have hdiv : p / 32 < chunkLen sh.len := by omega
  have hbit : bitOf (onebitTensor useScale sh src).intAt p = decide (src p < 0) := by
    simp only [bitOf, Tensor.intAt, onebitTensor, if_pos hdiv]
    rw [pack_getLsbD src _ (by omega), Nat.mul_comm, Nat.div_add_mod]
  have hscale : (onebitTensor useScale sh src).floatAt (chunkLen sh.len) =
      onebitScale useScale sh.len src := by
    simp only [Tensor.floatAt, onebitTensor, lt_irrefl, if_false]
  rw [onebitTensor_size, unpack_apply, if_pos hn, hbit, hscale]
  by_cases h0 : src p < 0
  · simp [h0]
  · simp [h0]

end Onebit

/-! ## Topk and randomk

Both send `k` pairs of an index and the element there, and have the same `DecompressImpl` and
`FastUpdateErrorImpl`. -/

section Sparse

/-- Entry `i` of a list of writes to a buffer goes to `key i`; all of them agree with `v`. -/
theorem foldl_update {ι : Type} (key : ι → Nat) (val : ι → K) (v : Nat → K) (l : List ι)
    (h : ∀ x ∈ l, val x = v (key x)) (f : Nat → K) (p : Nat) :
    l.foldl (fun f x => Function.update f (key x) (val x)) f p = if p ∈ l.map key then v p else f p := by
  induction l generalizing f with
  | nil => rfl
  | cons x l ih =>
    rw [List.foldl_cons, ih fun y hy => h y (List.mem_cons_of_mem _ hy), List.map_cons]
    by_cases hp : p = key x
    · subst hp
      simp [h x List.mem_cons_self]
    · simp [hp]

/-- An entry that is not written to. -/
theorem foldl_update_of_ne {ι : Type} (key : ι → Nat) (val : ι → K) {l : List ι} {p : Nat} (h : ∀ x ∈ l, key x ≠ p)
    (f : Nat → K) : l.foldl (fun f x => Function.update f (key x) (val x)) f p = f p := by
  induction l generalizing f with
  | nil => rfl
  | cons x l ih =>
    obtain ⟨hx, hl⟩ := List.forall_mem_cons.mp h
    rw [List.foldl_cons, ih hl, Function.update_of_ne hx.symm]

/-- Words `2 * i` and `2 * i + 1`: a `pair_t`. -/
def ofPairs (pairs : List (BitVec 32 × K)) (k : Nat) : Tensor K where
  data i :=
    match pairs[i / 2]? with
    | some q => if i % 2 = 0 then .int q.1 else .float q.2
    | none => .int 0
  size := k * 8

/-- `k` pairs of an index and the element of `src` there. -/
def PairsOf (src : Nat → K) (k : Nat) (pairs : List (BitVec 32 × K)) : Prop :=
  pairs.length = k ∧ ∀ q ∈ pairs, q.2 = src q.1.toNat

/-- The loop of randomk.
mirrors byteps/byteps/common/compressor/impl/randomk.cc:64-67 -/
def draw (len : Nat) (src : Nat → K) : Nat → Rng → List (BitVec 32 × K) × Rng
  | 0, rng => ([], rng)
  | k + 1, rng =>
    let index := rng.randint 0 (BitVec.ofNat 64 len)
    let rest := draw len src k index.2
    ((BitVec.setWidth 32 index.1, src index.1.toNat) :: rest.1, rest.2)

theorem draw_pairs (sh : Shape) (src : Nat → K) {k : Nat} (hk : k ≤ sh.len) (rng : Rng) :
    PairsOf src k (draw sh.len src k rng).1 := by
  induction k generalizing rng with
  | zero => exact ⟨rfl, by simp [draw]⟩
  | succ k ih =>
    obtain ⟨hl, hq⟩ := ih (by omega) (rng.randint 0 (BitVec.ofNat 64 sh.len)).2
    have hb := sh.bytes_lt
    have hlt := rng.randint_lt (by omega : 0 < sh.len) (by omega)
    refine ⟨congrArg (· + 1) hl, fun q hmem => ?_⟩
    rcases List.mem_cons.mp hmem with rfl | hmem
    · show src _ = src (BitVec.setWidth 32 _).toNat
      rw [BitVec.toNat_setWidth, Nat.mod_eq_of_lt (by omega)]
    · exact hq q hmem

variable [Field K]

theorem ofPairs_at {pairs : List (BitVec 32 × K)} (k : Nat) {i : Nat} {q : BitVec 32 × K}
    (hq : pairs[i]? = some q) :
    (ofPairs pairs k).intAt (2 * i) = q.1 ∧ (ofPairs pairs k).floatAt (2 * i + 1) = q.2 := by
  have h1 : 2 * i / 2 = i := by omega
  have h2 : (2 * i + 1) / 2 = i := by omega
  have h3 : (2 * i + 1) % 2 = 1 := by omega
  simp [ofPairs, Tensor.intAt, Tensor.floatAt, h1, h2, h3, hq]

/-- mirrors byteps/byteps/common/compressor/impl/topk.cc:113-147, randomk.cc:83-114 -/
def sparseDecompress (sh : Shape) (t : Tensor K) (dst : Nat → K) : Nat → K :=
  (List.range (t.size / 8)).foldl
    (fun dst i => Function.update dst (t.intAt (2 * i)).toNat (t.floatAt (2 * i + 1))) (sh.memset dst)

/-- mirrors byteps/byteps/common/compressor/impl/topk.cc:163-178, randomk.cc:130-146 -/
def sparseFastUpdateError (sh : Shape) (k : Nat) (error corrected : Nat → K) (t : Tensor K) : Nat → K :=
  (List.range k).foldl (fun error i => Function.update error (t.intAt (2 * i)).toNat 0)
    (sh.memcpy error corrected)

section
variable {src : Nat → K} {k : Nat} {pairs : List (BitVec 32 × K)} (h : PairsOf src k pairs) (sh : Shape)
include h

theorem PairsOf.at {i : Nat} (hi : i < k) : ∃ q ∈ pairs, (ofPairs pairs k).intAt (2 * i) = q.1 ∧
    (ofPairs pairs k).floatAt (2 * i + 1) = q.2 := by
  have hq := List.getElem?_eq_getElem (h.1.symm ▸ hi : i < pairs.length)
  exact ⟨_, List.mem_of_getElem? hq, ofPairs_at k hq⟩

theorem PairsOf.map_intAt :
    ((List.range k).map fun i => ((ofPairs pairs k).intAt (2 * i)).toNat) = pairs.map (·.1.toNat) := by
  refine List.ext_getElem (by simp [h.1]) fun i hi hi' => ?_
  have hq := List.getElem?_eq_getElem (by simpa using hi' : i < pairs.length)
  simp [(ofPairs_at k hq).1]

/-- What was sent comes out, and zeros elsewhere. -/
theorem PairsOf.decompress (dst : Nat → K) {p : Nat} (hp : p < sh.len) :
    sparseDecompress sh (ofPairs pairs k) dst p = if p ∈ pairs.map (·.1.toNat) then src p else 0 := by
  have hk : (ofPairs pairs k).size / 8 = k := Nat.mul_div_cancel k (by decide)
  rw [sparseDecompress, hk, foldl_update _ _ src, h.map_intAt, sh.memset_of_lt dst hp]
  intro i hi
  obtain ⟨q, hq, h1, h2⟩ := h.at (List.mem_range.mp hi)
  rw [h1, h2, h.2 q hq]

theorem PairsOf.fastUpdateError (error corrected : Nat → K) {p : Nat} (hp : p < sh.len) :
    sparseFastUpdateError sh k error corrected (ofPairs pairs k) p =
      if p ∈ pairs.map (·.1.toNat) then 0 else corrected p := by
  rw [sparseFastUpdateError, foldl_update _ _ (fun _ => 0) _ fun _ _ => rfl, h.map_intAt,
    sh.memcpy_of_lt error corrected hp]

/-- Where an element was sent, whether once or more often, there is no error. -/
theorem PairsOf.error (dst error : Nat → K) {p : Nat} (hp : p < sh.len) :
    sparseFastUpdateError sh k error src (ofPairs pairs k) p =
      src p - sparseDecompress sh (ofPairs pairs k) dst p := by
  rw [h.fastUpdateError sh error src hp, h.decompress sh dst hp]
  split
  · rw [sub_self]
  · rw [sub_zero]

end

/-- A compressor that sends pairs of `src` is lawful. -/
theorem sparse_lawful {sh : Shape} {k : Nat} {c : Compressor K}
    (hd : ∀ t dst, c.decompress t dst = .ok (sparseDecompress sh t dst))
    (hf : ∀ error corrected t, c.fastUpdateError error corrected t =
      .ok (sparseFastUpdateError sh k error corrected t))
    (hc : ∀ rng src, c.compress rng src = .error .check ∨
      ∃ rng' pairs, c.compress rng src = .ok (rng', ofPairs pairs k) ∧ PairsOf src k pairs) :
    Lawful sh [.check] c where
  fault := by
    intro rng src f h
    rcases hc rng src with h' | ⟨_, _, h', -⟩
    · rw [h'] at h; cases h; exact List.mem_singleton_self _
    · rw [h'] at h; cases h
  error := by
    intro rng src rng' t h dst error
    rcases hc rng src with h' | ⟨_, pairs, h', hp⟩
    · rw [h'] at h; cases h
    · rw [h'] at h
      obtain ⟨-, rfl⟩ := Prod.mk.inj (Except.ok.inj h)
      exact ⟨_, _, hd _ _, hf _ _ _, fun i hi => hp.error sh dst error hi⟩

/-- mirrors byteps/byteps/common/compressor/impl/randomk.cc:52-146 -/
def randomk (k : Nat) (sh : Shape) : Compressor K where
  compress rng src :=
    if k ≤ sh.len / 2 then
      let r := draw sh.len src k rng
      .ok (r.2, ofPairs r.1 k)
    else .error .check
  decompress t dst := .ok (sparseDecompress sh t dst)
  fastUpdateError error corrected t := .ok (sparseFastUpdateError sh k error corrected t)

theorem randomk_lawful (k : Nat) (sh : Shape) : Lawful sh [.check] (randomk (K := K) k sh) := by
  refine sparse_lawful (k := k) (fun _ _ => rfl) (fun _ _ _ => rfl) fun rng src => ?_
  by_cases hk : k ≤ sh.len / 2
  · exact .inr ⟨_, _, if_pos hk, draw_pairs sh src (by omega) rng⟩
  · exact .inl (if_neg hk)

variable [LinearOrder K]

/-- mirrors byteps/byteps/common/compressor/impl/topk.cc:58-60 (`comp`) -/
def comp (lhs rhs : BitVec 32 × K) : Bool := |lhs.2| > |rhs.2|

/-- Element `i`; `heap` are the pairs from `beg` on.
mirrors byteps/byteps/common/compressor/impl/topk.cc:64-78 -/
def topkStep (k : Nat) (src : Nat → K) (heap : List (BitVec 32 × K)) (i : Nat) : List (BitVec 32 × K) :=
  if i < k then pushHeap comp (heap ++ [(BitVec.ofNat 32 i, src i)])
  else
    match popHeap comp heap with
    | some (top, rest) =>
      if |src i| > |top.2| then pushHeap comp (rest ++ [(BitVec.ofNat 32 i, src i)]) else heap
    | none => heap

/-- mirrors byteps/byteps/common/compressor/impl/topk.cc:48-178 -/
def topk (k : Nat) (sh : Shape) : Compressor K where
  compress rng src :=
    if k ≤ sh.len / 2 then .ok (rng, ofPairs ((List.range sh.len).foldl (topkStep k src) []) k)
    else .error .check
  decompress t dst := .ok (sparseDecompress sh t dst)
  fastUpdateError error corrected t := .ok (sparseFastUpdateError sh k error corrected t)

theorem topkStep_pairs (sh : Shape) {k : Nat} (src : Nat → K) {heap : List (BitVec 32 × K)} {i : Nat}
    (hi : i < sh.len) (h : PairsOf src (min i k) heap) : PairsOf src (min (i + 1) k) (topkStep k src heap i) := by
  have hnew : src i = src (BitVec.ofNat 32 i).toNat := by rw [sh.toNat_ofNat hi]
  unfold topkStep
  split
  · next hlt =>
    refine ⟨?_, fun q hq => ?_⟩
    · rw [(pushHeap_perm comp _).length_eq, List.length_append, h.1, List.length_singleton]; omega
    · rw [(pushHeap_perm comp _).mem_iff, List.mem_append, List.mem_singleton] at hq
      rcases hq with hq | rfl
      · exact h.2 q hq
      · exact hnew
  · next hge =>
    rw [show min (i + 1) k = min i k by omega]
    split
    · next top rest hpop =>
      obtain ⟨-, hperm⟩ := popHeap_perm comp hpop
      split
      · refine ⟨?_, fun q hq => ?_⟩
        · rw [(pushHeap_perm comp _).length_eq, List.length_append, List.length_singleton, ← h.1,
            hperm.length_eq, List.length_cons]
        · rw [(pushHeap_perm comp _).mem_iff, List.mem_append, List.mem_singleton] at hq
          rcases hq with hq | rfl
          · exact h.2 q (hperm.mem_iff.mpr (List.mem_cons_of_mem _ hq))
          · exact hnew
      · exact h
    · exact h

theorem topk_pairs (sh : Shape) (k : Nat) (src : Nat → K) {n : Nat} (hn : n ≤ sh.len) :
    PairsOf src (min n k) ((List.range n).foldl (topkStep k src) []) := by
  induction n with
  | zero => exact ⟨by simp, by simp⟩
  | succ n ih =>
    rw [List.range_succ, List.foldl_append, List.foldl_cons, List.foldl_nil]
    exact topkStep_pairs sh src (by omega) (ih (by omega))

theorem topk_lawful (k : Nat) (sh : Shape) : Lawful sh [.check] (topk (K := K) k sh) := by
  refine sparse_lawful (k := k) (fun _ _ => rfl) (fun _ _ _ => rfl) fun rng src => ?_
  by_cases hk : k ≤ sh.len / 2
  · refine .inr ⟨rng, _, if_pos hk, ?_⟩
    have := topk_pairs sh k src (Nat.le_refl sh.len)
    rwa [show min sh.len k = k by omega] at this
  · exact .inl (if_neg hk)

end Sparse
end Inca.L2.Compress
