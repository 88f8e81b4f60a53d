import Mathlib.Logic.Function.Basic
import Mathlib.Tactic.Ring
import Inca.Core.LTS
import Inca.L1Encoding.DpdkPkt

/-!
# DPDK keys of tensor partitions (`torch/ops.cc`, `common/operations.cc`)

`StartTask` draws one key per partition from a global counter, one locked
`GetDPDKKey` call each, and keeps only the last one. `EnqueueTensor` then
gives partition `i` of `n` the key `dpdk_key - (n - i - 1)`: it counts back
from the last key as if the draws had been consecutive. Calls run
concurrently (the first push-pull of a tensor in a detached thread), and
draws and assignments of different calls interleave.

* `partitionTensor_eq`: the partitions of a tensor; as many as keys are
  drawn for it.
* `keys_distinct`: if no call draws while another one is between its first
  and its last draw, all assigned keys are distinct and every partition is
  found under its key in `DPDKTask`.
* `keys_counterexample`: two tensors of two partitions share a key.
-/
namespace Inca.L4.KeyDraw
open Inca.L1.DpdkPkt

/-! ## PartitionTensor -/

/-- What a partition has of its own: where it starts, and its length. -/
structure Part where
  offset : Nat
  len : Nat
  deriving DecidableEq

/-- The loop of `PartitionTensor`; every round takes at least one byte, so `size` rounds are
enough.
mirrors byteps/byteps/common/operations.cc:171-204 -/
def partitionLoop (bound size : Nat) : Nat → Nat → List Part
  | 0, _ => []
  | fuel + 1, accumulated =>
    if accumulated < size then
      let len := if size - accumulated > bound then bound else size - accumulated
      ⟨accumulated, len⟩ :: partitionLoop bound size fuel (accumulated + len)
    else []

/-- mirrors byteps/byteps/common/operations.cc:163-206 -/
def partitionTensor (bound size : Nat) : List Part := partitionLoop bound size size 0

/-- Number of partitions of a tensor (operations.cc:392 checks it). -/
def numParts (bound size : Nat) : Nat := (size + bound - 1) / bound

theorem lt_numParts_iff {bound : Nat} (hb : 0 < bound) {size i : Nat} :
    i < numParts bound size ↔ i * bound < size := by
  rw [numParts, Nat.lt_div_iff_mul_lt hb]
  omega

theorem partitionLoop_done {size accumulated : Nat} (h : size ≤ accumulated) (bound fuel : Nat) :
    partitionLoop bound size fuel accumulated = [] := by
  cases fuel with
  | zero => rfl
  | succ fuel => rw [partitionLoop, if_neg (by omega)]

theorem partitionLoop_eq {bound : Nat} (hb : 0 < bound) (size fuel i : Nat) (hf : size ≤ fuel + i * bound) :
    partitionLoop bound size fuel (i * bound) =
      (List.range' i (numParts bound size - i)).map fun j => ⟨j * bound, min bound (size - j * bound)⟩ := by
  have hlt : i < numParts bound size ↔ i * bound < size := lt_numParts_iff hb
  by_cases h : i * bound < size
  · induction fuel generalizing i with
    | zero => omega
    | succ fuel ih =>
      obtain ⟨n, hn⟩ : ∃ n, numParts bound size - i = n + 1 := ⟨numParts bound size - i - 1, by omega⟩
      have hmin : (if size - i * bound > bound then bound else size - i * bound) =
          min bound (size - i * bound) := by
        split <;> omega
      have hnext : i + 1 < numParts bound size ↔ (i + 1) * bound < size := lt_numParts_iff hb
      rw [Nat.succ_mul] at hnext
      rw [partitionLoop, if_pos h, hn, List.range'_succ, List.map_cons, hmin]
      dsimp only
      congr 1
      by_cases hlast : i * bound + bound < size
      · have hacc : i * bound + min bound (size - i * bound) = (i + 1) * bound := by
          rw [Nat.succ_mul]; omega
        rw [hacc, ih (i + 1) (by rw [Nat.succ_mul]; omega) (lt_numParts_iff hb)
          (by rw [Nat.succ_mul]; exact hlast)]
        congr 2
        omega
      · -- this round reaches the end of the tensor
        rw [partitionLoop_done (by omega), show n = 0 by omega]
        rfl
  · rw [partitionLoop_done (by omega), show numParts bound size - i = 0 by omega]
    rfl

/-- The partitions: all of length `bound` but the last. -/
theorem partitionTensor_eq {bound : Nat} (hb : 0 < bound) (size : Nat) :
    partitionTensor bound size =
      (List.range (numParts bound size)).map fun j => ⟨j * bound, min bound (size - j * bound)⟩ := by
  have h := partitionLoop_eq hb size size 0 (by omega)
  rw [Nat.zero_mul, Nat.sub_zero] at h
  rw [partitionTensor, h, List.range_eq_range']

theorem partitionTensor_length {bound : Nat} (hb : 0 < bound) (size : Nat) :
    (partitionTensor bound size).length = numParts bound size := by
  rw [partitionTensor_eq hb, List.length_map, List.length_range]

/-! ## Concurrent calls -/

/-- One `StartTask` call: the loop counter and the last key of its draws, and the number of
partitions `EnqueueTensor` has given a key. -/
structure Call where
  accumulated : Nat
  dpdkKey : Nat
  next : Nat

/-- `dpdkKey` is `_DPDKkey`, `dpdkTask` holds the call and the index of the partition under each
key, and `assigned` is the history of the assignments. -/
structure State where
  dpdkKey : Nat
  calls : Nat → Call
  dpdkTask : Nat → Option (Nat × Nat)
  assigned : List ((Nat × Nat) × Nat)

def State.init : State := ⟨0, fun _ => ⟨0, 0, 0⟩, fun _ => none, []⟩

inductive Label
  | draw (c : Nat)
  | assign (c : Nat)
  deriving DecidableEq

/-- The key of partition `i` of `n`; a call that has drawn `n` keys has `dpdkKey ≥ n - 1`, so
the subtraction does not wrap.
mirrors byteps/byteps/common/operations.cc:314 -/
def partKey (n dpdkKey i : Nat) : Nat := (dpdkKey - (n - i - 1)) % DPDK_KEY_TOTAL

section System
variable (bound : Nat) (size : Nat → Nat)

/-- One draw of the loop in `StartTask`, or one round of the loop in `EnqueueTensor`.
mirrors byteps/byteps/torch/ops.cc:144-153, byteps/byteps/common/global.h:141-144 and
byteps/byteps/common/operations.cc:297-338 -/
def step (s : State) : Label → Option State
  | .draw c =>
    let call := s.calls c
    if call.accumulated < size c then
      some { s with
        dpdkKey := s.dpdkKey + 1
        calls := Function.update s.calls c
          { call with accumulated := call.accumulated + bound, dpdkKey := s.dpdkKey } }
    else none
  | .assign c =>
    let call := s.calls c
    let n := (partitionTensor bound (size c)).length
    if size c ≤ call.accumulated ∧ call.next < n then
      let key := partKey n call.dpdkKey call.next
      some { s with
        calls := Function.update s.calls c { call with next := call.next + 1 }
        dpdkTask := Function.update s.dpdkTask key (some (c, call.next))
        assigned := s.assigned ++ [((c, call.next), key)] }
    else none

/-- Call `c` works on a tensor of `size c` bytes. -/
def keys : LTS State Label := LTS.ofFn (· = State.init) (step bound size)

/-- The key counter has not come round. -/
def Few (s' : State) : Prop := s'.dpdkKey < DPDK_KEY_TOTAL

/-- No call draws while another one is between its first and its last draw. -/
def Consecutive (s : State) (l : Label) : Prop :=
  ∀ c, l = .draw c → ∀ c', c' ≠ c → (s.calls c').accumulated = 0 ∨ size c' ≤ (s.calls c').accumulated

/-- All keys given so far are different, and every partition that got one is found under it. -/
structure Distinct (s : State) : Prop where
  nodup : (s.assigned.map Prod.snd).Nodup
  found : ∀ c i, i < (s.calls c).next → ∃ key, ((c, i), key) ∈ s.assigned ∧ s.dpdkTask key = some (c, i)

/-! ### The invariant -/

/-- Number of draws of a call. -/
def drawn (call : Call) : Nat := call.accumulated / bound

/-- The draws: `drawn` consecutive keys that end with `dpdkKey`, and different for different
calls. -/
structure Draws (s : State) : Prop where
  mult : ∀ c, drawn bound (s.calls c) * bound = (s.calls c).accumulated
  upper : ∀ c, drawn bound (s.calls c) ≤ numParts bound (size c)
  below : ∀ c, 0 < drawn bound (s.calls c) →
    drawn bound (s.calls c) ≤ (s.calls c).dpdkKey + 1 ∧ (s.calls c).dpdkKey < s.dpdkKey
  mid : ∀ c, 0 < drawn bound (s.calls c) → (s.calls c).accumulated < size c →
    (s.calls c).dpdkKey + 1 = s.dpdkKey
  apart : ∀ c c', c ≠ c' → 0 < drawn bound (s.calls c) → 0 < drawn bound (s.calls c') →
    (s.calls c).dpdkKey + drawn bound (s.calls c') ≤ (s.calls c').dpdkKey ∨
    (s.calls c').dpdkKey + drawn bound (s.calls c) ≤ (s.calls c).dpdkKey

/-- The assignments: one per partition below `next`, each with a key of its own call. -/
structure Assigned (s : State) : Prop where
  next : ∀ c, 0 < (s.calls c).next → size c ≤ (s.calls c).accumulated
  key : ∀ x ∈ s.assigned, x.1.2 < (s.calls x.1.1).next ∧ x.1.2 < numParts bound (size x.1.1) ∧
    x.2 = (s.calls x.1.1).dpdkKey - (numParts bound (size x.1.1) - x.1.2 - 1)
  task : ∀ x ∈ s.assigned, s.dpdkTask x.2 = some x.1
  nodup : (s.assigned.map Prod.snd).Nodup
  found : ∀ c i, i < (s.calls c).next → ∃ key, ((c, i), key) ∈ s.assigned

structure Inv (s : State) : Prop where
  draws : Draws bound size s
  assigned : Assigned bound size s

end System

section Step
variable {bound : Nat} (hb : 0 < bound) {size : Nat → Nat} {s s' : State}
include hb

theorem drawn_add (call : Call) (key : Nat) :
    drawn bound { call with accumulated := call.accumulated + bound, dpdkKey := key } =
      drawn bound call + 1 :=
  Nat.add_div_right _ hb

/-- A call whose loop has ended has drawn a key for each partition. -/
theorem Draws.done (h : Draws bound size s) {c : Nat} (hc : size c ≤ (s.calls c).accumulated) :
    drawn bound (s.calls c) = numParts bound (size c) := by
  have hm := h.mult c
  have hu := h.upper c
  have hno : ¬ drawn bound (s.calls c) < numParts bound (size c) := by
    rw [lt_numParts_iff hb, hm]; omega
  omega

omit hb in
/-- A call that still draws has drawn last, and from keys below the counter. -/
theorem Draws.drawn_le (h : Draws bound size s) {c : Nat} (hc : (s.calls c).accumulated < size c) :
    drawn bound (s.calls c) ≤ s.dpdkKey := by
  rcases Nat.eq_zero_or_pos (drawn bound (s.calls c)) with h0 | h0
  · omega
  · have := h.below c h0
    have := h.mid c h0 hc
    omega

omit hb in
/-- The keys of a call that still draws, with the next one, stay apart from those of any other. -/
theorem Draws.apart_next (h : Draws bound size s) {c : Nat} (hc : (s.calls c).accumulated < size c)
    {d : Nat} (hd : d ≠ c) (h0 : 0 < drawn bound (s.calls d)) :
    (s.calls d).dpdkKey + (drawn bound (s.calls c) + 1) ≤ s.dpdkKey := by
  have hbelow := (h.below d h0).2
  rcases Nat.eq_zero_or_pos (drawn bound (s.calls c)) with hc0 | hc0
  · omega
  · have hm := h.mid c hc0 hc
    rcases h.apart d c hd h0 hc0 with ha | ha <;> omega

theorem draws_draw (h : Draws bound size s) {c : Nat} (hc : (s.calls c).accumulated < size c)
    (hg : Consecutive size s (.draw c))
    (hs : s' = { s with
      dpdkKey := s.dpdkKey + 1
      calls := Function.update s.calls c
        { s.calls c with accumulated := (s.calls c).accumulated + bound, dpdkKey := s.dpdkKey } }) :
    Draws bound size s' := by
  have hself : s'.calls c =
      { s.calls c with accumulated := (s.calls c).accumulated + bound, dpdkKey := s.dpdkKey } := by
    rw [hs]; simp
  have hother : ∀ d, d ≠ c → s'.calls d = s.calls d := by
    intro d hd; rw [hs]; simp [hd]
  have hkey : s'.dpdkKey = s.dpdkKey + 1 := by rw [hs]
  have hdrawn : drawn bound (s'.calls c) = drawn bound (s.calls c) + 1 := by
    rw [hself, drawn_add hb]
  have hle := h.drawn_le hc
  constructor
  · intro d
    by_cases hd : d = c
    · subst hd; rw [hdrawn, hself, Nat.succ_mul, h.mult]
    · rw [hother d hd]; exact h.mult d
  · intro d
    by_cases hd : d = c
    · subst hd
      have hlt : drawn bound (s.calls d) < numParts bound (size d) := by
        rw [lt_numParts_iff hb, h.mult]; exact hc
      omega
    · rw [hother d hd]; exact h.upper d
  · intro d h0
    by_cases hd : d = c
    · subst hd; rw [hdrawn, hself, hkey]; exact ⟨by simp only; omega, by simp⟩
    · rw [hother d hd] at h0 ⊢
      have := h.below d h0
      omega
  · intro d h0 hlt
    by_cases hd : d = c
    · subst hd; rw [hself, hkey]
    · rw [hother d hd] at h0 hlt
      have hacc := h.mult d
      have hpos : 0 < (s.calls d).accumulated := by rw [← hacc]; exact Nat.mul_pos h0 hb
      rcases hg c rfl d hd with h1 | h1 <;> omega
  · intro d e hde h0 h1
    by_cases hd : d = c
    · subst hd
      have he : e ≠ d := Ne.symm hde
      rw [hother e he] at h1 ⊢
      rw [hdrawn, hself]
      exact .inr (h.apart_next hc he h1)
    · by_cases he : e = c
      · subst he
        rw [hother d hd] at h0 ⊢
        rw [hdrawn, hself]
        exact .inl (h.apart_next hc hd h0)
      · rw [hother d hd] at h0 ⊢
        rw [hother e he] at h1 ⊢
        exact h.apart d e hde h0 h1

omit hb in
/-- A call that still draws has no partition with a key. -/
theorem assigned_draw (h : Assigned bound size s) {c : Nat} (hc : (s.calls c).accumulated < size c)
    (acc key k : Nat) :
    Assigned bound size { s with
      dpdkKey := k
      calls := Function.update s.calls c { s.calls c with accumulated := acc, dpdkKey := key } } := by
  have hnext : (s.calls c).next = 0 := by
    by_contra h0
    have := h.next c (Nat.pos_of_ne_zero h0)
    omega
  have hcalls : ∀ d i, i < (Function.update s.calls c
      { s.calls c with accumulated := acc, dpdkKey := key } d).next → d ≠ c ∧ i < (s.calls d).next := by
    intro d i hi
    by_cases hd : d = c
    · subst hd
      rw [Function.update_self] at hi
      simp only at hi
      omega
    · exact ⟨hd, by rwa [Function.update_of_ne hd] at hi⟩
  constructor
  · intro d h0
    obtain ⟨hd, h1⟩ := hcalls d 0 h0
    simpa [hd] using h.next d h1
  · intro x hx
    have hk := h.key x hx
    have hd : x.1.1 ≠ c := by
      intro he
      rw [he, hnext] at hk
      exact absurd hk.1 (Nat.not_lt_zero _)
    simpa [hd] using hk
  · exact h.task
  · exact h.nodup
  · intro d i hi
    exact h.found d i (hcalls d i hi).2

omit hb in
theorem Draws.setNext (h : Draws bound size s) (c : Nat) (n : Nat) (task : Nat → Option (Nat × Nat))
    (log : List ((Nat × Nat) × Nat)) :
    Draws bound size { s with
      calls := Function.update s.calls c { s.calls c with next := n }, dpdkTask := task, assigned := log } := by
  have hcalls : ∀ d, (Function.update s.calls c { s.calls c with next := n } d).accumulated =
      (s.calls d).accumulated ∧
      (Function.update s.calls c { s.calls c with next := n } d).dpdkKey = (s.calls d).dpdkKey := by
    intro d
    by_cases hd : d = c
    · subst hd; simp
    · simp [hd]
  have hdrawn : ∀ d, drawn bound (Function.update s.calls c { s.calls c with next := n } d) =
      drawn bound (s.calls d) := by
    intro d; simp only [drawn, (hcalls d).1]
  constructor
  · intro d; simp only [hdrawn, (hcalls d).1]; exact h.mult d
  · intro d; simp only [hdrawn]; exact h.upper d
  · intro d; simp only [hdrawn, (hcalls d).2]; exact h.below d
  · intro d; simp only [hdrawn, (hcalls d).1, (hcalls d).2]; exact h.mid d
  · intro d e; simp only [hdrawn, (hcalls d).2, (hcalls e).2]; exact h.apart d e

/-- The key counted back from the last one is one of the call's own. -/
theorem partKey_eq (h : Draws bound size s) (hfew : Few s) {c i : Nat}
    (hc : size c ≤ (s.calls c).accumulated) (hi : i < numParts bound (size c)) :
    partKey (numParts bound (size c)) (s.calls c).dpdkKey i =
      (s.calls c).dpdkKey - (numParts bound (size c) - i - 1) := by
  have hd := h.done hb hc
  have hbelow := h.below c (by omega)
  unfold Few at hfew
  exact Nat.mod_eq_of_lt (by omega)

/-- Keys of different partitions are different. -/
theorem key_ne (h : Draws bound size s) {c i d j : Nat} (hc : size c ≤ (s.calls c).accumulated)
    (hi : i < numParts bound (size c)) (hd : size d ≤ (s.calls d).accumulated)
    (hj : j < numParts bound (size d)) (hne : (c, i) ≠ (d, j)) :
    (s.calls c).dpdkKey - (numParts bound (size c) - i - 1) ≠
      (s.calls d).dpdkKey - (numParts bound (size d) - j - 1) := by
  have hdc := h.done hb hc
  have hdd := h.done hb hd
  have hbc := h.below c (by omega)
  have hbd := h.below d (by omega)
  by_cases he : c = d
  · subst he
    have hij : i ≠ j := fun hij => hne (by rw [hij])
    omega
  · rcases h.apart c d he (by omega) (by omega) with ha | ha <;> omega

/-- The key of the next partition of `c` is not one of those given before. -/
theorem next_key_ne (h : Inv bound size s) {c : Nat} (hc : size c ≤ (s.calls c).accumulated)
    (hn : (s.calls c).next < numParts bound (size c)) {x : (Nat × Nat) × Nat} (hx : x ∈ s.assigned) :
    x.2 ≠ (s.calls c).dpdkKey - (numParts bound (size c) - (s.calls c).next - 1) := by
  obtain ⟨h1, h2, h3⟩ := h.assigned.key x hx
  rw [h3]
  refine key_ne hb h.draws (h.assigned.next x.1.1 (by omega)) h2 hc hn fun he => ?_
  obtain ⟨h4, h5⟩ := Prod.mk.inj he
  rw [h4] at h1
  omega

theorem assigned_assign (h : Inv bound size s) (hfew : Few s) {c : Nat}
    (hc : size c ≤ (s.calls c).accumulated) (hn : (s.calls c).next < numParts bound (size c)) {key : Nat}
    (hkey : key = partKey (numParts bound (size c)) (s.calls c).dpdkKey (s.calls c).next) :
    Assigned bound size { s with
      calls := Function.update s.calls c { s.calls c with next := (s.calls c).next + 1 }
      dpdkTask := Function.update s.dpdkTask key (some (c, (s.calls c).next))
      assigned := s.assigned ++ [((c, (s.calls c).next), key)] } := by
  rw [partKey_eq hb h.draws hfew hc hn] at hkey
  have has := h.assigned
  have hnew : ∀ x ∈ s.assigned, x.2 ≠ key := fun x hx => hkey ▸ next_key_ne hb h hc hn hx
  have hcalls : ∀ d, (Function.update s.calls c { s.calls c with next := (s.calls c).next + 1 } d).dpdkKey =
      (s.calls d).dpdkKey ∧
      (Function.update s.calls c { s.calls c with next := (s.calls c).next + 1 } d).accumulated =
        (s.calls d).accumulated ∧
      (s.calls d).next ≤ (Function.update s.calls c { s.calls c with next := (s.calls c).next + 1 } d).next := by
    intro d
    by_cases hd : d = c
    · subst hd; simp
    · simp [hd]
  constructor
  · intro d h0
    rw [(hcalls d).2.1]
    by_cases hd : d = c
    · rw [hd]; exact hc
    · exact has.next d (by simpa [hd] using h0)
  · intro x hx
    rcases List.mem_append.mp hx with hx | hx
    · obtain ⟨h1, h2, h3⟩ := has.key x hx
      exact ⟨Nat.lt_of_lt_of_le h1 (hcalls _).2.2, h2, by rw [(hcalls _).1]; exact h3⟩
    · obtain rfl := List.mem_singleton.mp hx
      exact ⟨by simp, hn, by rw [(hcalls _).1]; exact hkey⟩
  · intro x hx
    rcases List.mem_append.mp hx with hx | hx
    · simpa [Function.update_of_ne (hnew x hx)] using has.task x hx
    · obtain rfl := List.mem_singleton.mp hx
      simp
  · rw [List.map_append, List.nodup_append]
    refine ⟨has.nodup, by simp, ?_⟩
    intro a ha b hb'
    obtain ⟨x, hx, rfl⟩ := List.mem_map.mp ha
    simp only [List.map_cons, List.map_nil, List.mem_singleton] at hb'
    rw [hb']
    exact hnew x hx
  · intro d i hi
    by_cases hd : d = c ∧ i = (s.calls c).next
    · obtain ⟨rfl, rfl⟩ := hd
      exact ⟨key, by simp⟩
    · have hi' : i < (s.calls d).next := by
        by_cases hdc : d = c
        · subst hdc
          simp only [Function.update_self] at hi
          have : i ≠ (s.calls d).next := fun he => hd ⟨rfl, he⟩
          omega
        · simpa [hdc] using hi
      obtain ⟨k, hk⟩ := has.found d i hi'
      exact ⟨k, List.mem_append_left _ hk⟩

end Step

/-- Fewer than `DPDK_KEY_TOTAL` draws in total, and those of a call in one piece. -/
def Fair (size : Nat → Nat) (s : State) (l : Label) (s' : State) : Prop := Few s' ∧ Consecutive size s l

theorem inv_step {bound : Nat} (hb : 0 < bound) {size : Nat → Nat} {s s' : State} {l : Label}
    (h : Inv bound size s) (hst : step bound size s l = some s') (hg : Fair size s l s') :
    Inv bound size s' := by
  cases l with
  | draw c =>
    simp only [step] at hst
    split at hst
    · next hc =>
      cases hst
      exact ⟨draws_draw hb h.draws hc hg.2 rfl, assigned_draw h.assigned hc _ _ _⟩
    · cases hst
  | assign c =>
    simp only [step, partitionTensor_length hb] at hst
    split at hst
    · next hc =>
      cases hst
      exact ⟨h.draws.setNext c _ _ _, assigned_assign hb h hg.1 hc.1 hc.2 rfl⟩
    · cases hst

theorem inv_inductive {bound : Nat} (hb : 0 < bound) (size : Nat → Nat) :
    ((keys bound size).restrict (Fair size)).Inductive (Inv bound size) where
  init := by
    rintro s rfl
    have h0 : ∀ c, drawn bound (State.init.calls c) = 0 := fun c => Nat.zero_div bound
    refine ⟨⟨fun c => by rw [h0, Nat.zero_mul]; rfl, fun c => by rw [h0]; omega, ?_, ?_, ?_⟩,
      ⟨?_, by simp [State.init], by simp [State.init], by simp [State.init], ?_⟩⟩
    · intro c hc; rw [h0] at hc; omega
    · intro c hc; rw [h0] at hc; omega
    · intro c _ _ hc; rw [h0] at hc; omega
    · intro c hc; exact absurd hc (Nat.lt_irrefl 0)
    · intro c i hi; exact absurd hi (Nat.not_lt_zero i)
  step := fun _ _ _ h hst => inv_step hb h hst.1 hst.2

/-- **Keys.** In every run in which the draws of each call are consecutive, the keys of all
partitions of all tensors are pairwise distinct and every partition is found under its key. -/
theorem keys_distinct {bound : Nat} (hb : 0 < bound) (size : Nat → Nat) (s : State)
    (h : ((keys bound size).restrict (Fair size)).Reachable s) : Distinct s := by
  have hi := ((inv_inductive hb size).reachable s h).assigned
  refine ⟨hi.nodup, fun c i hc => ?_⟩
  obtain ⟨key, hkey⟩ := hi.found c i hc
  exact ⟨key, hkey, hi.task _ hkey⟩

/-! ### Two tensors of two partitions -/

def twoTensors (c : Nat) : Nat := if c < 2 then 20 else 0

instance (s' : State) : Decidable (Few s') := inferInstanceAs (Decidable (_ < _))

/-- `Consecutive` for the two calls that have something to do. -/
def consecutiveTwo (s : State) : Label → Bool
  | .draw c => [0, 1].all fun d => d = c ∨ (s.calls d).accumulated = 0 ∨
      twoTensors d ≤ (s.calls d).accumulated
  | .assign _ => true

theorem consecutive_of_two {s : State} {l : Label} (h : consecutiveTwo s l = true) :
    Consecutive twoTensors s l := by
  rintro c rfl d hd
  by_cases hd2 : d < 2
  · have hmem : d ∈ [0, 1] := by simp; omega
    simpa [hd] using List.all_eq_true.mp h d hmem
  · exact .inr (by simp [twoTensors, hd2])

theorem keys_distinct_two :
    ∃ s, ((keys 10 twoTensors).restrict (Fair twoTensors)).Reachable s ∧
      s.assigned.map Prod.snd = [2, 3, 0, 1] ∧ Distinct s := by
  have hr : ((keys 10 twoTensors).restrict fun s l s' => Few s' ∧ consecutiveTwo s l = true).Reachable
      State.init := .init rfl
  obtain ⟨s, hs, h⟩ : ∃ s, LTS.execute
      (LTS.guarded (step 10 twoTensors) fun s l s' => Few s' ∧ consecutiveTwo s l = true) State.init
      [.draw 0, .draw 0, .draw 1, .draw 1, .assign 1, .assign 1, .assign 0, .assign 0] = some s ∧
      s.assigned.map Prod.snd = [2, 3, 0, 1] := ⟨_, rfl, rfl⟩
  have hreach : ((keys 10 twoTensors).restrict (Fair twoTensors)).Reachable s :=
    (LTS.Reachable.of_execute hr hs).mono fun _ _ _ hg => ⟨hg.1, consecutive_of_two hg.2⟩
  exact ⟨s, hreach, h, keys_distinct (by decide) twoTensors s hreach⟩

/-- **Counterexample.** The second tensor draws both its keys between the two draws of the
first: partition 0 of the first tensor and partition 1 of the second both get key 2, and only
the latter is found under it. -/
theorem keys_counterexample :
    ∃ s, ((keys 10 twoTensors).restrict fun _ _ s' => Few s').Reachable s ∧
      s.assigned = [((0, 0), 2), ((0, 1), 3), ((1, 0), 1), ((1, 1), 2)] ∧ s.dpdkTask 2 = some (1, 1) := by
  have hr : ((keys 10 twoTensors).restrict fun _ _ s' => Few s').Reachable State.init := .init rfl
  obtain ⟨s, hs, h⟩ : ∃ s, LTS.execute (LTS.guarded (step 10 twoTensors) fun _ _ s' => Few s') State.init
      [.draw 0, .draw 1, .draw 1, .draw 0, .assign 0, .assign 0, .assign 1, .assign 1] = some s ∧
      s.assigned = [((0, 0), 2), ((0, 1), 3), ((1, 0), 1), ((1, 1), 2)] ∧ s.dpdkTask 2 = some (1, 1) :=
    ⟨_, rfl, rfl, rfl⟩
  exact ⟨s, LTS.Reachable.of_execute hr hs, h⟩

end Inca.L4.KeyDraw
