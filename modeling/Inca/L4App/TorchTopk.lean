import Mathlib.Data.List.GetD
import Mathlib.Data.Rat.Floor
import Inca.Core.LTS
import Inca.Core.RoundBits
import Inca.L2Machine.Compress

/-!
# Top-k with error feedback (`torch/compression.py`)

`TopKCompressor.compress` adds the error stored under the tensor's name, sends
the elements of largest absolute value and keeps the others as the new error.
Indices and values go in one `float32` tensor, so that an index is rounded to 24
significant bits; `decompress` converts it back and clamps it to the last one.

`sort` may order equal elements in any way, and `index_copy_` may copy in any
order. Calls under other names come in between, for tensors of any size.

* `sent_add_kept`: a call loses nothing if its indices survive the conversion.
* `conserved_iff`: over whole runs, what was given is what was sent plus the
  stored error exactly if the tensor has at most `2 ^ 24 + 1` elements, or none
  are sent.
-/
namespace Inca.L4.TorchTopk
open Inca.L2.Compress

/-! ## The compressor -/

/-- mirrors byteps/byteps/torch/compression.py:58-66, with error feedback -/
structure TopK where
  kp : ℚ
  pos : 0 < kp
  le_half : kp ≤ 1 / 2

/-- mirrors byteps/byteps/torch/compression.py:84, 123 -/
def TopK.compressedNum (c : TopK) (d : Nat) : Nat := ⌊c.kp * d⌋₊

/-- `self.errors`. -/
abbrev Errors (K : Type) := String → Option (Nat → K)

section Code
variable {K : Type} [Field K]

/-- `self.errors.get(name, 0)` -/
def stored (errors : Errors K) (name : String) : Nat → K := (errors name).getD fun _ => 0

/-- mirrors byteps/byteps/torch/compression.py:91 -/
def corrected (errors : Errors K) (name : String) (tensor : Nat → K) (i : Nat) : K :=
  tensor i + stored errors name i

/-- `idx` is what `sort` returned.
mirrors byteps/byteps/torch/compression.py:73-110 -/
def compress (c : TopK) (errors : Errors K) (name : String) (d : Nat) (tensor : Nat → K) (idx : List Nat) :
    (Nat → K) × Errors K :=
  let num := c.compressedNum d
  let e := corrected errors name tensor
  let top := idx.take num
  (fun j => if j < num then (roundBits 24 (top.getD j 0) : Nat)
    else if j < 2 * num then e (top.getD (j - num) 0) else 0,
    Function.update errors name (some (top.foldl (fun e i => Function.update e i 0) e)))

variable [LinearOrder K] [FloorSemiring K]

/-- The entries are copied in the order `ord`.
mirrors byteps/byteps/torch/compression.py:112-136 -/
def decompress (c : TopK) (d : Nat) (tensor : Nat → K) (ord : List Nat) : Nat → K :=
  let num := c.compressedNum d
  ord.foldl (fun res j => Function.update res (min ⌊tensor j⌋₊ (d - 1)) (tensor (num + j))) fun _ => 0

/-- What `abs().sort(descending=True)` may return as the indices of a tensor of `d` elements. -/
structure SortedBy (x : Nat → K) (d : Nat) (idx : List Nat) : Prop where
  perm : idx.Perm (List.range d)
  descending : idx.Pairwise fun i j => |x j| ≤ |x i|

/-! ## Runs -/

structure Call (K : Type) where
  name : String
  d : Nat
  tensor : Nat → K
  idx : List Nat
  ord : List Nat

/-- `given` and `sent` are the sums, per name, of the tensors and of what `decompress` made of them. -/
structure State (K : Type) where
  errors : Errors K
  given : String → Nat → K
  sent : String → Nat → K

def State.init : State K := ⟨fun _ => none, fun _ _ => 0, fun _ _ => 0⟩

def step (c : TopK) (s : State K) (a : Call K) : State K :=
  let r := compress c s.errors a.name a.d a.tensor a.idx
  { errors := r.2
    given := Function.update s.given a.name fun i => s.given a.name i + a.tensor i
    sent := Function.update s.sent a.name fun i => s.sent a.name i + decompress c a.d r.1 a.ord i }

/-- The library's part in a call. -/
structure Valid (c : TopK) (s : State K) (a : Call K) : Prop where
  sorted : SortedBy (corrected s.errors a.name a.tensor) a.d a.idx
  order : a.ord.Perm (List.range (c.compressedNum a.d))

def system (K : Type) [Field K] [LinearOrder K] [FloorSemiring K] (c : TopK) : LTS (State K) (Call K) where
  init s := s = .init
  step s a s' := Valid c s a ∧ s' = step c s a

/-- The calls under `name` are for tensors of `d` elements. -/
def OfSize (name : String) (d : Nat) (_ : State K) (a : Call K) (_ : State K) : Prop := a.name = name → a.d = d

/-- Element by element. -/
def Conserved (name : String) (d : Nat) (s : State K) : Prop :=
  ∀ i < d, s.given name i = s.sent name i + stored s.errors name i

end Code

/-! ## One call -/

theorem compressedNum_le (c : TopK) (d : Nat) : c.compressedNum d ≤ d := by
  refine Nat.floor_le_of_le ?_
  have hd : (0 : ℚ) ≤ d := Nat.cast_nonneg d
  have hkp := c.le_half
  exact mul_le_of_le_one_left hd (hkp.trans (by norm_num))

section Call
variable {K : Type} [Field K] {c : TopK} {errors : Errors K} {name : String} {d : Nat} {tensor : Nat → K}
  {idx ord : List Nat}

theorem length_take (hidx : idx.Perm (List.range d)) : (idx.take (c.compressedNum d)).length = c.compressedNum d := by
  rw [List.length_take, hidx.length_eq, List.length_range]
  exact Nat.min_eq_left (compressedNum_le c d)

theorem lt_of_mem_take (hidx : idx.Perm (List.range d)) {n i : Nat} (hi : i ∈ idx.take n) : i < d :=
  List.mem_range.mp (hidx.mem_iff.mp (List.mem_of_mem_take hi))

/-- The new error. -/
theorem stored_compress (i : Nat) : stored (compress c errors name d tensor idx).2 name i =
    if i ∈ idx.take (c.compressedNum d) then 0 else corrected errors name tensor i := by
  have hfold := foldl_update (fun i => i) (fun _ => (0 : K)) (fun _ => 0) (idx.take (c.compressedNum d))
    (fun _ _ => rfl) (corrected errors name tensor) i
  rw [List.map_id'] at hfold
  unfold stored compress
  simp only [Function.update_self, Option.getD_some]
  exact hfold

theorem stored_compress_of_ne {name' : String} (h : name ≠ name') :
    stored (compress c errors name d tensor idx).2 name' = stored errors name' := by
  unfold stored compress
  simp only [Function.update_of_ne (Ne.symm h)]

variable [LinearOrder K] [IsStrictOrderedRing K] [FloorSemiring K]

/-- Entry `j`, at the receiver. -/
theorem entry_compress {j : Nat} (hj : j < c.compressedNum d) :
    ⌊(compress c errors name d tensor idx).1 j⌋₊ = roundBits 24 ((idx.take (c.compressedNum d)).getD j 0) ∧
      (compress c errors name d tensor idx).1 (c.compressedNum d + j) =
        corrected errors name tensor ((idx.take (c.compressedNum d)).getD j 0) := by
  unfold compress
  simp only
  rw [if_pos hj, Nat.floor_natCast, if_neg (by omega), if_pos (by omega), Nat.add_sub_cancel_left]
  exact ⟨rfl, rfl⟩

/-- What comes out, if the indices survive. -/
theorem decompress_compress (hidx : idx.Perm (List.range d)) (hord : ord.Perm (List.range (c.compressedNum d)))
    (hexact : ∀ i ∈ idx.take (c.compressedNum d), roundBits 24 i = i) (i : Nat) :
    decompress c d (compress c errors name d tensor idx).1 ord i =
      if i ∈ idx.take (c.compressedNum d) then corrected errors name tensor i else 0 := by
  have hlen := length_take (c := c) hidx
  -- entry `j` goes to the index it came from
  have hkey : ∀ j ∈ ord, min ⌊(compress c errors name d tensor idx).1 j⌋₊ (d - 1) =
      (idx.take (c.compressedNum d)).getD j 0 ∧ (idx.take (c.compressedNum d)).getD j 0 ∈ idx.take (c.compressedNum d) := by
    intro j hj
    have hjn : j < c.compressedNum d := List.mem_range.mp (hord.mem_iff.mp hj)
    have hmem : (idx.take (c.compressedNum d)).getD j 0 ∈ idx.take (c.compressedNum d) := by
      rw [List.getD_eq_getElem _ _ (by omega)]
      exact List.getElem_mem _
    have hlt := lt_of_mem_take hidx hmem
    rw [(entry_compress hjn).1, hexact _ hmem]
    exact ⟨Nat.min_eq_left (by omega), hmem⟩
  unfold decompress
  rw [foldl_update (fun j => min ⌊(compress c errors name d tensor idx).1 j⌋₊ (d - 1))
    (fun j => (compress c errors name d tensor idx).1 (c.compressedNum d + j)) (corrected errors name tensor)]
  · congr 1
    rw [List.mem_map, eq_iff_iff]
    constructor
    · intro h
      obtain ⟨j, hj, rfl⟩ := h
      rw [(hkey j hj).1]
      exact (hkey j hj).2
    · intro h
      obtain ⟨j, hj, rfl⟩ := List.mem_iff_getElem.mp h
      have hjo : j ∈ ord := hord.mem_iff.mpr (List.mem_range.mpr (by omega))
      exact ⟨j, hjo, (hkey j hjo).1.trans (List.getD_eq_getElem _ _ hj)⟩
  · intro j hj
    rw [(entry_compress (List.mem_range.mp (hord.mem_iff.mp hj))).2, (hkey j hj).1]

variable (errors name tensor) in
/-- **One call.** Nothing is lost if the indices survive. -/
theorem sent_add_kept (hidx : idx.Perm (List.range d)) (hord : ord.Perm (List.range (c.compressedNum d)))
    (hexact : ∀ i ∈ idx.take (c.compressedNum d), roundBits 24 i = i) (i : Nat) :
    decompress c d (compress c errors name d tensor idx).1 ord i +
      stored (compress c errors name d tensor idx).2 name i = corrected errors name tensor i := by
  rw [decompress_compress hidx hord hexact, stored_compress]
  split
  · rw [add_zero]
  · rw [zero_add]

end Call

/-! ## Runs of calls -/

section Runs
variable {K : Type} [Field K] [LinearOrder K] [IsStrictOrderedRing K] [FloorSemiring K] {c : TopK} {name : String}
  {d : Nat}

/-- The last index that every smaller one survives with is `2 ^ 24`. -/
theorem roundBits_index {i : Nat} (hi : i ≤ 2 ^ 24) : roundBits 24 i = i := by
  rcases Nat.lt_or_eq_of_le hi with hlt | heq
  · exact roundBits_of_lt (by decide) hlt
  · rw [heq, ← Nat.one_mul (2 ^ 24)]
    exact roundBits_mul_two_pow (by decide) (by decide) 24

theorem conserved_step (hd : d ≤ 2 ^ 24 + 1 ∨ c.compressedNum d = 0) {s : State K} {a : Call K}
    (hs : Conserved name d s) (ha : Valid c s a) (hsize : a.name = name → a.d = d) : Conserved name d (step c s a) := by
  intro i hi
  by_cases hname : a.name = name
  · have had := hsize hname
    have hexact : ∀ i ∈ a.idx.take (c.compressedNum a.d), roundBits 24 i = i := by
      intro i hmem
      rcases hd with hd | hd
      · have := lt_of_mem_take ha.sorted.perm hmem
        exact roundBits_index (by omega)
      · rw [had, hd, List.take_zero] at hmem
        cases hmem
    have hcall := sent_add_kept s.errors a.name a.tensor ha.sorted.perm ha.order hexact i
    have hold := hs i hi
    subst hname
    unfold step
    simp only [Function.update_self]
    unfold corrected at hcall
    rw [hold, add_assoc, add_comm (stored _ _ i), ← hcall, add_assoc]
  · have hold := hs i hi
    unfold step
    simp only [Function.update_of_ne (Ne.symm hname), stored_compress_of_ne hname]
    exact hold

/-- No index comes out as `2 ^ 24 + 1`. -/
theorem index_ne {i : Nat} (hi : i < d) : min (roundBits 24 i) (d - 1) ≠ 2 ^ 24 + 1 := by
  have hround : roundBits 24 i ≠ 2 ^ 24 + 1 := by
    by_cases hlt : i < 2 ^ 24
    · rw [roundBits_of_lt (by decide) hlt]
      omega
    · -- the distance of neighbours is even here
      have hlog : 24 ≤ i.log2 := (Nat.le_log2 (by omega)).mpr (by omega)
      have htwo : 2 ∣ roundBits 24 i :=
        Nat.dvd_trans (Nat.pow_dvd_pow 2 (show 1 ≤ i.log2 + 1 - 24 by omega)) (ulp_dvd_roundBits 24 i)
      omega
  intro h
  have hmono := roundBits_mono (p := 24) (by decide) (show i ≤ d - 1 by omega)
  rcases Nat.le_total (roundBits 24 i) (d - 1) with hle | hle
  · rw [Nat.min_eq_left hle] at h
    exact hround h
  · rw [Nat.min_eq_right hle] at h
    have hlast : roundBits 24 (2 ^ 24 + 1) = 2 ^ 24 := by decide +kernel
    rw [h, hlast] at hmono
    omega

/-- A tensor with one element that is not 0. -/
def single (j i : Nat) : K := if i = j then 1 else 0

theorem sortedBy_single {j : Nat} (hj : j < d) : SortedBy (single j : Nat → K) d (j :: (List.range d).erase j) where
  perm := (List.perm_cons_erase (List.mem_range.mpr hj)).symm
  descending := by
    have hle : ∀ i, |(single j i : K)| ≤ |(single j j : K)| := by
      intro i
      unfold single
      rw [if_pos rfl, abs_one]
      split
      · rw [abs_one]
      · rw [abs_zero]
        exact zero_le_one
    refine List.pairwise_cons.mpr ⟨fun i _ => hle i, List.pairwise_of_forall_mem_list fun a _ b hb => ?_⟩
    have hne : b ≠ j := ((List.nodup_range).mem_erase_iff.mp hb).1
    unfold single
    rw [if_neg hne, abs_zero]
    exact abs_nonneg _

/-- The element at `2 ^ 24 + 1` is sent and does not arrive. -/
theorem not_conserved (K : Type) [Field K] [LinearOrder K] [IsStrictOrderedRing K] [FloorSemiring K] (name : String)
    (hd : 2 ^ 24 + 1 < d) (hnum : 0 < c.compressedNum d) :
    ∃ s : State K, ((system K c).restrict (OfSize name d)).Reachable s ∧ ¬ Conserved name d s := by
  have hsorted := sortedBy_single (K := K) hd
  generalize hidx : (2 ^ 24 + 1) :: (List.range d).erase (2 ^ 24 + 1) = idx at hsorted
  have hcorrected : corrected (State.init (K := K)).errors name (single (2 ^ 24 + 1)) = single (2 ^ 24 + 1) :=
    funext fun i => add_zero _
  let a : Call K := ⟨name, d, single (2 ^ 24 + 1), idx, List.range (c.compressedNum d)⟩
  have hvalid : Valid c State.init a := ⟨hcorrected.symm ▸ hsorted, .refl _⟩
  refine ⟨step c .init a, .step (.init rfl) ⟨⟨hvalid, rfl⟩, fun _ => rfl⟩, fun h => ?_⟩
  have hlost := h (2 ^ 24 + 1) hd
  have hkept : stored (step c State.init a).errors name (2 ^ 24 + 1) = 0 := by
    refine (stored_compress _).trans (if_pos ?_)
    obtain ⟨n, hn⟩ : ∃ n, c.compressedNum d = n + 1 := ⟨c.compressedNum d - 1, by omega⟩
    show 2 ^ 24 + 1 ∈ idx.take (c.compressedNum d)
    rw [hn, ← hidx, List.take_succ_cons]
    exact List.mem_cons_self
  have hsent : (step c State.init a).sent name (2 ^ 24 + 1) = 0 := by
    unfold step
    simp only [a, Function.update_self, State.init, zero_add]
    unfold decompress
    refine foldl_update_of_ne _ _ (fun j hj => ?_) _
    have hjn := List.mem_range.mp hj
    rw [(entry_compress hjn).1]
    refine index_ne (lt_of_mem_take (n := c.compressedNum d) hsorted.perm ?_)
    rw [List.getD_eq_getElem _ _ (by rwa [length_take hsorted.perm])]
    exact List.getElem_mem _
  have hgiven : (step c State.init a).given name (2 ^ 24 + 1) = 1 := by
    unfold step
    simp only [a, Function.update_self, State.init, zero_add]
    exact if_pos rfl
  rw [hgiven, hsent, hkept, add_zero] at hlost
  exact one_ne_zero hlost

/-- **Conservation.** Over every run, the sum of the tensors under a name is the sum of what was sent
for them and the stored error, exactly if all indices have 24 significant bits or none is sent. -/
theorem conserved_iff (K : Type) [Field K] [LinearOrder K] [IsStrictOrderedRing K] [FloorSemiring K] (c : TopK)
    (name : String) (d : Nat) :
    (∀ s : State K, ((system K c).restrict (OfSize name d)).Reachable s → Conserved name d s) ↔
      d ≤ 2 ^ 24 + 1 ∨ c.compressedNum d = 0 := by
  constructor
  · intro h
    by_contra hnot
    obtain ⟨s, hs, hlost⟩ := not_conserved K name (c := c) (d := d) (by omega) (by omega)
    exact hlost (h s hs)
  · intro hd s hs
    have hinv : ((system K c).restrict (OfSize name d)).Inductive (Conserved name d) := by
      refine ⟨fun s h0 => ?_, fun s a s' hI hst => ?_⟩
      · intro i _
        rw [show s = .init from h0]
        exact (add_zero _).symm
      · obtain ⟨⟨hvalid, rfl⟩, hsize⟩ := hst
        exact conserved_step hd hI hvalid hsize
    exact hinv.reachable s hs

end Runs

def half : TopK := ⟨1 / 2, by norm_num, by norm_num⟩

/-- Two of four elements are sent. -/
theorem conserved_four : Conserved "batch_grads" 4
    (step half .init ⟨"batch_grads", 4, fun i => (i : ℚ), [3, 2, 1, 0], [1, 0]⟩) := by
  have hnum : half.compressedNum 4 = 2 := by
    unfold TopK.compressedNum half
    norm_num
  refine (conserved_iff ℚ half "batch_grads" 4).mpr (.inl (by decide)) _
    (.step (.init rfl) ⟨⟨⟨⟨by decide, ?_⟩, ?_⟩, rfl⟩, fun _ => rfl⟩)
  · simp [corrected, stored, State.init]
  · rw [hnum]
    decide

/-- **Counterexample.** The element at `2 ^ 24 + 1` of a tensor of `2 ^ 24 + 2` elements. -/
theorem conserved_counterexample : ∃ s : State ℚ,
    ((system ℚ half).restrict (OfSize "batch_grads" (2 ^ 24 + 2))).Reachable s ∧
      ¬ Conserved "batch_grads" (2 ^ 24 + 2) s := by
  refine not_conserved ℚ "batch_grads" (by decide) ?_
  unfold TopK.compressedNum half
  exact Nat.floor_pos.mpr (by norm_num)
end Inca.L4.TorchTopk
