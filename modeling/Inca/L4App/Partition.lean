import Inca.Core.While
import Inca.L4App.KeyDraw

/-!
# Partitions of a tensor (`common/operations.cc`, `torch/ops.cc`)

Three loops walk over the bytes of a tensor in steps of the partition bound:
`PartitionTensor` makes the partitions, `InitTensor` one parameter-server key
for each, `StartTask` draws one DPDK key for each. Sizes are `size_t`, 64
bits; `offset` and `len` of a partition are stored as `unsigned int`.
`KeyDraw.partitionTensor` has the partitions with offsets of any size; here
they are as stored (`partitionTensor_stored`).

* `partition_iff`: the three loops make the same number of rounds, and the
  partitions cover the tensor exactly if no offset exceeds 32 bits.
* `partition_counterexample`: the third partition of `2 ^ 32 + 1` bytes
  starts at byte 0 again.
-/
namespace Inca.L4.Partition
open Inca.L4.KeyDraw

/-! ## The loops -/

/-- Length of the partition that starts at `accumulated`. -/
def chunk (bound size accumulated : Nat) : Nat :=
  if size - accumulated > bound then bound else size - accumulated

/-- mirrors byteps/byteps/common/operations.cc:163-206; `offset` and `len` are stored in 32 bits. -/
def partitionTensor (bound size : Nat) : Option (List Part) :=
  (collect (fun accumulated => accumulated < size)
    (fun accumulated => ⟨accumulated % 2 ^ 32, chunk bound size accumulated % 2 ^ 32⟩)
    (fun accumulated => (accumulated + chunk bound size accumulated % 2 ^ 32) % 2 ^ 64) size 0).map
    Prod.fst

/-- mirrors byteps/byteps/common/operations.cc:379-384 -/
def keysOf (declaredKey bound size : Nat) : Option (List Nat) :=
  (collect (fun s : Nat × Nat => s.1 < size) (fun s => s.2)
    (fun s => ((s.1 + chunk bound size s.1) % 2 ^ 64, (s.2 + 1) % 2 ^ 64)) size
    (0, declaredKey * 2 ^ 16 % 2 ^ 64)).map Prod.fst

/-- The DPDK keys a call draws; `getDPDKKey i` is what its `i`-th draw returns.
mirrors byteps/byteps/torch/ops.cc:144-150 -/
def dpdkKeysOf (getDPDKKey : Nat → Nat) (bound size : Nat) : Option (List Nat) :=
  (collect (fun s : Nat × Nat => s.1 < size) (fun s => getDPDKKey s.2)
    (fun s => ((s.1 + bound) % 2 ^ 64, s.2 + 1)) size (0, 0)).map Prod.fst

/-! ### What they do -/

section Loops
variable {bound size : Nat} (hb : 0 < bound)

/-- Where the loops stand after `i` rounds. -/
def stop (bound size i : Nat) : Nat := min (i * bound) size

theorem chunk_le (bound size accumulated : Nat) : chunk bound size accumulated ≤ bound := by
  unfold chunk; split <;> omega

theorem stop_le (bound size i : Nat) : stop bound size i ≤ size := Nat.min_le_right _ _

include hb

theorem stop_lt_iff {i : Nat} : stop bound size i < size ↔ i < numParts bound size := by
  rw [lt_numParts_iff hb]; unfold stop; omega

theorem stop_last : ¬ stop bound size (numParts bound size) < size := by
  rw [stop_lt_iff hb]; exact Nat.lt_irrefl _

theorem stop_end : stop bound size (numParts bound size) = size := by
  have : ¬ stop bound size (numParts bound size) < size := stop_last hb
  have := stop_le bound size (numParts bound size)
  omega

theorem stop_of_lt {i : Nat} (hi : i < numParts bound size) : stop bound size i = i * bound := by
  rw [lt_numParts_iff hb] at hi; unfold stop; omega

theorem chunk_stop {i : Nat} (hi : i < numParts bound size) :
    chunk bound size (stop bound size i) = min bound (size - i * bound) := by
  rw [stop_of_lt hb hi]; unfold chunk; split <;> omega

theorem stop_succ {i : Nat} (hi : i < numParts bound size) :
    stop bound size i + chunk bound size (stop bound size i) = stop bound size (i + 1) := by
  rw [chunk_stop hb hi]
  rw [lt_numParts_iff hb] at hi
  unfold stop
  rw [Nat.succ_mul]
  omega

theorem numParts_le (size : Nat) : numParts bound size ≤ size := by
  rcases Nat.eq_zero_or_pos (numParts bound size) with h | h
  · omega
  · have := (lt_numParts_iff hb).mp (show numParts bound size - 1 < numParts bound size by omega)
    have := Nat.le_mul_of_pos_right (numParts bound size - 1) hb
    omega

variable (hs : size < 2 ^ 64)
include hs

theorem partitionTensor_eq (hb' : bound < 2 ^ 32) :
    partitionTensor bound size = some ((List.range (numParts bound size)).map fun i =>
      ⟨i * bound % 2 ^ 32, min bound (size - i * bound)⟩) := by
  have hmod : ∀ acc, chunk bound size acc % 2 ^ 32 = chunk bound size acc := fun acc =>
    Nat.mod_eq_of_lt (Nat.lt_of_le_of_lt (chunk_le bound size acc) hb')
  have hloop := collect_eq (fun acc => acc < size)
    (fun acc => (⟨acc % 2 ^ 32, chunk bound size acc % 2 ^ 32⟩ : Part))
    (fun acc => (acc + chunk bound size acc % 2 ^ 32) % 2 ^ 64) (f := stop bound size)
    (fun i hi => (stop_lt_iff hb).mpr hi) (stop_last hb) (fun i hi => by
      simp only [hmod]
      rw [stop_succ hb hi, Nat.mod_eq_of_lt (Nat.lt_of_le_of_lt (stop_le _ _ _) hs)])
    (numParts_le hb size)
  have h0 : stop bound size 0 = 0 := by simp [stop]
  rw [h0] at hloop
  rw [partitionTensor, hloop, Option.map_some, Option.some.injEq]
  refine List.map_congr_left fun i hi => ?_
  have hi := List.mem_range.mp hi
  rw [hmod, chunk_stop hb hi, stop_of_lt hb hi]

/-- The partitions of `KeyDraw`, with truncated offsets. -/
theorem partitionTensor_stored (hb' : bound < 2 ^ 32) :
    partitionTensor bound size = some ((KeyDraw.partitionTensor bound size).map fun p =>
      { p with offset := p.offset % 2 ^ 32 }) := by
  rw [partitionTensor_eq hb hs hb', KeyDraw.partitionTensor_eq hb, List.map_map]
  rfl

theorem keysOf_eq (declaredKey : Nat) :
    keysOf declaredKey bound size = some ((List.range (numParts bound size)).map fun i =>
      (declaredKey * 2 ^ 16 + i) % 2 ^ 64) := by
  have hloop := collect_eq (fun s : Nat × Nat => s.1 < size) (fun s => s.2)
    (fun s => ((s.1 + chunk bound size s.1) % 2 ^ 64, (s.2 + 1) % 2 ^ 64))
    (f := fun i => (stop bound size i, (declaredKey * 2 ^ 16 + i) % 2 ^ 64))
    (fun i hi => (stop_lt_iff hb).mpr hi) (stop_last hb) (fun i hi => by
      rw [stop_succ hb hi, Nat.mod_eq_of_lt (Nat.lt_of_le_of_lt (stop_le _ _ _) hs), Nat.mod_add_mod,
        Nat.add_assoc])
    (numParts_le hb size)
  have h0 : stop bound size 0 = 0 := by simp [stop]
  rw [h0, Nat.add_zero] at hloop
  rw [keysOf, hloop, Option.map_some]

omit hs in
theorem dpdkKeysOf_eq (hs' : size + bound ≤ 2 ^ 64) (getDPDKKey : Nat → Nat) :
    dpdkKeysOf getDPDKKey bound size = some ((List.range (numParts bound size)).map getDPDKKey) := by
  have hloop := collect_eq (fun s : Nat × Nat => s.1 < size) (fun s => getDPDKKey s.2)
    (fun s => ((s.1 + bound) % 2 ^ 64, s.2 + 1)) (f := fun i => (i * bound, i))
    (n := numParts bound size)
    (fun i hi => (lt_numParts_iff hb).mp hi)
    (fun h => Nat.lt_irrefl _ ((lt_numParts_iff hb).mpr h)) (fun i hi => by
      rw [lt_numParts_iff hb] at hi
      rw [Nat.mod_eq_of_lt (by omega), Nat.succ_mul])
    (numParts_le hb size)
  rw [Nat.zero_mul] at hloop
  rw [dpdkKeysOf, hloop, Option.map_some]

end Loops

/-! ## Covering a tensor -/

/-- The partitions cover the bytes from `lo` to `hi`, each byte once and in order. -/
def Tiles : Nat → List Part → Nat → Prop
  | lo, [], hi => lo = hi
  | lo, p :: ps, hi => p.offset = lo ∧ Tiles (lo + p.len) ps hi

instance Tiles.decidable : ∀ lo ps hi, Decidable (Tiles lo ps hi)
  | lo, [], hi => inferInstanceAs (Decidable (lo = hi))
  | _, _ :: ps, hi => @instDecidableAnd _ _ _ (Tiles.decidable _ ps hi)

/-- Partitions of the right lengths cover a range exactly if their offsets are right. -/
theorem tiles_iff {g : Nat → Nat} {p : Nat → Part} (n i : Nat)
    (hlen : ∀ j < n, g (i + j) + (p (i + j)).len = g (i + j + 1)) :
    Tiles (g i) ((List.range' i n).map p) (g (i + n)) ↔ ∀ j < n, (p (i + j)).offset = g (i + j) := by
  induction n generalizing i with
  | zero => simp [Tiles]
  | succ n ih =>
    have h0 := hlen 0 (by omega)
    simp only [Nat.add_zero] at h0
    have hrec := ih (i + 1) fun j hj => by
      have := hlen (j + 1) (by omega)
      rwa [← Nat.add_assoc, Nat.add_right_comm] at this
    rw [List.range'_succ, List.map_cons, Tiles, h0, show i + (n + 1) = i + 1 + n by omega, hrec]
    constructor
    · rintro ⟨hi, h⟩ j hj
      cases j with
      | zero => exact hi
      | succ j => rw [← Nat.add_assoc, Nat.add_right_comm]; exact h j (by omega)
    · intro h
      refine ⟨h 0 (by omega), fun j hj => ?_⟩
      have := h (j + 1) (by omega)
      rwa [← Nat.add_assoc, Nat.add_right_comm] at this

/-- The offsets are right as long as the last one fits in 32 bits. -/
theorem offsets_iff {bound n : Nat} (hn : 0 < n) :
    (∀ j < n, j * bound % 2 ^ 32 = j * bound) ↔ (n - 1) * bound < 2 ^ 32 := by
  constructor
  · intro h
    rw [← h (n - 1) (by omega)]
    exact Nat.mod_lt _ (by decide)
  · intro h j hj
    refine Nat.mod_eq_of_lt (Nat.lt_of_le_of_lt (Nat.mul_le_mul_right bound ?_) h)
    omega

/-- **Partitions.** For every tensor size and every bound: the loops of `PartitionTensor`,
`InitTensor` and `StartTask` make the same number of rounds, no partition is longer than the
bound, and the partitions as stored cover the tensor exactly if the last of the
`numParts bound size = ⌈size / bound⌉` pieces starts below `2 ^ 32`. -/
theorem partition_iff {bound size : Nat} (hs : 1 ≤ size) (hs' : size ≤ 2 ^ 63 - 1) (hb : 1 ≤ bound)
    (hb' : bound ≤ 2 ^ 31) (declaredKey : Nat) (getDPDKKey : Nat → Nat) :
    ∃ parts keys dpdkKeys, partitionTensor bound size = some parts ∧
      keysOf declaredKey bound size = some keys ∧ dpdkKeysOf getDPDKKey bound size = some dpdkKeys ∧
      parts.length = keys.length ∧ parts.length = dpdkKeys.length ∧ (∀ p ∈ parts, p.len ≤ bound) ∧
      (Tiles 0 parts size ↔ (numParts bound size - 1) * bound < 2 ^ 32) := by
  refine ⟨_, _, _, partitionTensor_eq hb (by omega) (by omega), keysOf_eq hb (by omega) _,
    dpdkKeysOf_eq hb (by omega) _, by simp, by simp, ?_, ?_⟩
  · intro p hp
    obtain ⟨i, -, rfl⟩ := List.mem_map.mp hp
    exact Nat.min_le_left _ _
  · have hn : 0 < numParts bound size := by rw [lt_numParts_iff hb]; omega
    have ht := tiles_iff (g := stop bound size)
      (p := fun i => ⟨i * bound % 2 ^ 32, min bound (size - i * bound)⟩) (numParts bound size) 0
      (fun j hj => by
        rw [Nat.zero_add, ← chunk_stop hb hj]
        exact stop_succ hb hj)
    have h0 : stop bound size 0 = 0 := by simp [stop]
    simp only [Nat.zero_add, stop_end hb, h0, ← List.range_eq_range'] at ht
    rw [ht, ← offsets_iff hn]
    refine forall₂_congr fun j hj => ?_
    rw [stop_of_lt hb hj]

/-- A tensor of 10 bytes and a bound of 4. -/
theorem partition_ten : ∃ parts, partitionTensor 4 10 = some parts ∧ Tiles 0 parts 10 := by
  obtain ⟨parts, -, -, hp, -, -, -, -, -, ht⟩ :=
    partition_iff (show 0 < 10 by decide) (by decide) (show 0 < 4 by decide) (by decide) 0 id
  have h3 : partitionTensor 4 10 = some [⟨0, 4⟩, ⟨4, 4⟩, ⟨8, 2⟩] := by decide
  obtain rfl := Option.some.inj (hp.symm.trans h3)
  exact ⟨_, h3, ht.mpr (by decide)⟩

/-- **Counterexample.** With the largest bound, the third partition of a tensor of `2 ^ 32 + 1`
bytes has offset 0. -/
theorem partition_counterexample :
    partitionTensor (2 ^ 31) (2 ^ 32 + 1) = some [⟨0, 2 ^ 31⟩, ⟨2 ^ 31, 2 ^ 31⟩, ⟨0, 1⟩] ∧
    ¬ Tiles 0 [⟨0, 2 ^ 31⟩, ⟨2 ^ 31, 2 ^ 31⟩, ⟨0, 1⟩] (2 ^ 32 + 1) := by
  refine ⟨?_, by decide⟩
  rw [partitionTensor_eq (by decide) (by decide) (by decide)]
  decide +kernel

end Inca.L4.Partition
