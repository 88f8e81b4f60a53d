import Inca.Core.Scatter
import Inca.Core.While
import Mathlib.Algebra.Order.Ring.Rat
import Mathlib.Tactic.NormNum
import Mathlib.Tactic.Ring

/-!
# TernGrad on the device (`gpu_compressor/terngrad.cu`)

Both kernels are loops with the stride of the grid, over a grid whose size follows from the
length. Block and thread numbers are `unsigned int`, the index of a thread and the stride
are `int`, the loop counter is a `size_t`. The rounds of all threads take place in any order
(`Scheduler`), and every thread draws from a generator of its own. Floating-point arithmetic
is a parameter.

The loop of `terngrad_decompress_kernel` ends before the last element.

* `threadEvents_eq`: the elements of one thread.
* `mem_gridEvents`: an element belongs to one thread and one round of its loop.
* `terngradCompress_spec`, `terngradDecompress_spec`: the two calls.
* `terngrad_iff`: every element comes out as the scale times its code if and only if the
  grid covers the vector and the scale leaves the last code as it is.
-/
namespace Inca.L2.Terngrad
open Inca.Scatter

/-! ## The code -/

/-- Arithmetic of `float`. -/
structure Arith (F : Type) where
  zero : F
  one : F
  negOne : F
  abs : F → F
  mul : F → F → F
  div : F → F → F
  lt : F → F → Bool
  isZero : F → Bool

/-- One round of the loop of a thread. -/
structure Event where
  id : Nat
  round : Nat
  i : Nat
  deriving DecidableEq

/-- The state of a thread's generator is out of bounds; the loop of a thread does not end. -/
inductive Fault
  | bounds
  | endless
  deriving DecidableEq

/-- An `unsigned int` that becomes an `int`, and a `size_t` after that. -/
def extend (x : Nat) : Nat := ((BitVec.ofNat 32 x).signExtend 64).toNat

/-- mirrors byteps/byteps/common/gpu_compressor/terngrad.cu:216-218, 281-283 -/
def blockCount (len : Nat) : Nat := (len + 512 - 1) % 2 ^ 64 / 512 % 2 ^ 32

/-- `for (size_t i = index; i < bound; i += stride)`; a loop that ends does so within `bound` rounds. -/
def threadEvents (bound blocks id : Nat) : Except Fault (List Event) :=
  match collect (fun s : Nat × Nat => s.2 < bound) (fun s => Event.mk id s.1 s.2)
      (fun s => (s.1 + 1, (s.2 + extend (512 * blocks)) % 2 ^ 64)) bound (0, extend id) with
  | some r => .ok r.1
  | none => .error .endless

/-- `state[id]`, of as many states as `cudaMalloc` was asked for. -/
def checkState (blocks id : Nat) : Except Fault Unit :=
  if extend id < 512 * blocks % 2 ^ 32 then .ok () else .error .bounds

/-- `<<<blocks, 512>>>`: a grid without blocks, or with too many of them, is refused, which the code
does not notice. -/
def launch (blocks : Nat) (thread : Nat → Except Fault (List Event)) : Except Fault (List Event) :=
  if 0 < blocks ∧ blocks < 2 ^ 31 then do
    let evs ← (List.range (512 * blocks)).mapM thread
    return evs.flatten
  else return []

variable {F : Type}

/-- mirrors byteps/byteps/common/gpu_compressor/terngrad.cu:82-87 -/
def ternary (A : Arith F) (gradMax v x : F) : F :=
  if A.lt x (A.div (A.abs v) gradMax) then
    if A.lt A.zero v then A.one else A.negOne
  else A.zero

/-- The vector behind the call, and the log of what was written; `draws` are the numbers that the
generator of a thread gives.
mirrors byteps/byteps/common/gpu_compressor/terngrad.cu:5-11, 64-93, 145-269 -/
def terngradCompress (A : Arith F) (S : Scheduler Event) (draws : Nat → Nat → F) (ptr : Nat → F) (len : Nat) (scale : F) :
    Except Fault ((Nat → F) × List (Nat × F)) :=
  if len ≤ 2 then return (ptr, [])
  else do
    let _ ← launch (blockCount len) fun id => do
      checkState (blockCount len) id
      return []
    if A.isZero scale then return (ptr, [])
    else do
      let evs ← launch (blockCount len) fun id => do
        checkState (blockCount len) id
        threadEvents len (blockCount len) id
      return scatter Event.i (fun e v => ternary A scale v (draws e.id e.round)) (S.order evs) ptr

/-- mirrors byteps/byteps/common/gpu_compressor/terngrad.cu:95-108, 272-286 -/
def terngradDecompress (A : Arith F) (S : Scheduler Event) (ptr : Nat → F) (scale : F) (len : Nat) :
    Except Fault (Nat → F) :=
  if len ≤ 2 then return ptr
  else if A.isZero scale then return ptr
  else do
    let evs ← launch (blockCount len) (threadEvents (len - 1) (blockCount len))
    return (scatter Event.i (fun _ v => A.mul v scale) (S.order evs) ptr).1

/-! ## Threads -/

theorem extend_of_lt {x : Nat} (h : x < 2 ^ 31) : extend x = x := by
  have hmsb : (BitVec.ofNat 32 x).msb = false := by
    rw [BitVec.msb_eq_false_iff_two_mul_lt, BitVec.toNat_ofNat]
    omega
  rw [extend, BitVec.toNat_signExtend, hmsb]
  simp only [BitVec.toNat_setWidth, BitVec.toNat_ofNat]
  norm_num
  omega

theorem extend_half : extend (2 ^ 31) = 2 ^ 64 - 2 ^ 31 := by decide

/-- An index that is negative as an `int`. -/
theorem le_extend_half : 2 ^ 32 ≤ extend (2 ^ 31) := by decide

/-- The elements below this one are reached: a stride of `2 ^ 31` is negative. -/
def reach (blocks bound : Nat) : Nat := if blocks = 2 ^ 22 then min bound (2 ^ 31) else bound

/-- The rounds of thread `id` until `bound`, with stride `t`. -/
def rounds (t bound id : Nat) : Nat := (bound + t - 1 - id) / t

theorem lt_rounds_iff {t id n : Nat} (bound : Nat) (hid : id < t) : n < rounds t bound id ↔ id + n * t < bound := by
  rw [rounds, ← Nat.succ_le_iff, Nat.le_div_iff_mul_le (by omega), Nat.succ_mul]
  omega

/-- The counter of the loop in its round `n`. -/
theorem counter_eq {blocks bound id : Nat} (hpos : 0 < blocks) (hblocks : blocks ≤ 2 ^ 22) (hbound : bound < 2 ^ 62)
    (hid : id < 512 * blocks) {n : Nat} (hn : n < rounds (512 * blocks) (reach blocks bound) id) :
    (id + n * extend (512 * blocks)) % 2 ^ 64 = id + n * (512 * blocks) ∧ id + n * (512 * blocks) < bound := by
  rw [lt_rounds_iff _ hid, reach] at hn
  split at hn
  · next heq =>
    -- one round
    subst heq
    obtain rfl : n = 0 := by omega
    omega
  · next hne =>
    rw [extend_of_lt (by omega)]
    omega

/-- The counter is out of range behind the last round. -/
theorem counter_stop {blocks bound id : Nat} (hpos : 0 < blocks) (hblocks : blocks ≤ 2 ^ 22) (hbound : bound < 2 ^ 62)
    (hid : id < 512 * blocks) :
    bound ≤ (id + rounds (512 * blocks) (reach blocks bound) id * extend (512 * blocks)) % 2 ^ 64 := by
  have hstop := (lt_rounds_iff (reach blocks bound) hid).not.mp (Nat.lt_irrefl _)
  have hlast : rounds (512 * blocks) (reach blocks bound) id ≠ 0 →
      id + rounds (512 * blocks) (reach blocks bound) id * (512 * blocks) < reach blocks bound + 512 * blocks := by
    intro hne
    obtain ⟨n, hn⟩ := Nat.exists_eq_succ_of_ne_zero hne
    have hlt := (lt_rounds_iff (reach blocks bound) hid).mp (by rw [hn]; exact Nat.lt_succ_self n)
    rw [hn, Nat.succ_mul]
    omega
  generalize rounds (512 * blocks) (reach blocks bound) id = r at hstop hlast
  unfold reach at hstop hlast
  split at hstop
  · next heq =>
    rw [if_pos heq] at hlast
    subst heq
    have hr : r = 0 ∨ r = 1 := by omega
    rcases hr with rfl | rfl
    · omega
    · rw [show 512 * 2 ^ 22 = 2 ^ 31 from rfl, extend_half] at *
      omega
  · next hne =>
    rw [if_neg hne] at hlast
    rw [extend_of_lt (by omega), Nat.mod_eq_of_lt]
    · omega
    · by_cases hr : r = 0
      · subst hr
        omega
      · have := hlast hr
        omega

/-- **One thread.** -/
theorem threadEvents_eq {blocks bound id : Nat} (hpos : 0 < blocks) (hblocks : blocks ≤ 2 ^ 22)
    (hbound : bound < 2 ^ 62) (hid : id < 512 * blocks) :
    threadEvents bound blocks id =
      .ok ((List.range (rounds (512 * blocks) (reach blocks bound) id)).map fun n => ⟨id, n, id + n * (512 * blocks)⟩) := by
  have hstart : (0, extend id) = (0, (id + 0 * extend (512 * blocks)) % 2 ^ 64) := by
    rw [extend_of_lt (by omega), Nat.zero_mul, Nat.add_zero, Nat.mod_eq_of_lt (by omega)]
  have hfuel : rounds (512 * blocks) (reach blocks bound) id ≤ bound := by
    by_contra hlt
    have h := (counter_eq hpos hblocks hbound hid (Nat.lt_of_not_le hlt)).2
    have := Nat.le_mul_of_pos_right bound (show 0 < 512 * blocks by omega)
    omega
  have hcollect := collect_eq (fun s : Nat × Nat => s.2 < bound) (fun s => Event.mk id s.1 s.2)
    (fun s => (s.1 + 1, (s.2 + extend (512 * blocks)) % 2 ^ 64))
    (f := fun n => (n, (id + n * extend (512 * blocks)) % 2 ^ 64))
    (fun n hn => by
      obtain ⟨heq, hlt⟩ := counter_eq hpos hblocks hbound hid hn
      exact heq ▸ hlt)
    (Nat.not_lt.mpr (counter_stop hpos hblocks hbound hid))
    (fun n _ => by
      show (n + 1, ((id + n * extend (512 * blocks)) % 2 ^ 64 + extend (512 * blocks)) % 2 ^ 64) = _
      rw [Nat.mod_add_mod, Nat.add_assoc, ← Nat.succ_mul])
    hfuel
  rw [threadEvents, hstart, hcollect]
  refine congrArg Except.ok (List.map_congr_left fun n hn => ?_)
  rw [(counter_eq hpos hblocks hbound hid (List.mem_range.mp hn)).1]

/-! ## The grid -/

/-- The rounds of all threads. -/
def gridEvents (t bound : Nat) : List Event :=
  (List.range t).flatMap fun id => (List.range (rounds t bound id)).map fun n => ⟨id, n, id + n * t⟩

/-- The thread and the round of element `i`. -/
def eventAt (t i : Nat) : Event := ⟨i % t, i / t, i⟩

/-- An element belongs to one thread, and to one round of its loop. -/
theorem mem_gridEvents {t bound : Nat} {e : Event} :
    e ∈ gridEvents t bound ↔ 0 < t ∧ e.i < bound ∧ e = eventAt t e.i := by
  unfold gridEvents
  rw [List.mem_flatMap]
  constructor
  · rintro ⟨id, hid, he⟩
    rw [List.mem_range] at hid
    obtain ⟨n, hn, rfl⟩ := List.mem_map.mp he
    rw [List.mem_range, lt_rounds_iff _ hid] at hn
    refine ⟨by omega, hn, ?_⟩
    show Event.mk id n (id + n * t) = Event.mk ((id + n * t) % t) ((id + n * t) / t) (id + n * t)
    rw [Nat.add_mul_mod_self_right, Nat.mod_eq_of_lt hid, Nat.add_mul_div_right _ _ (by omega),
      Nat.div_eq_of_lt hid, Nat.zero_add]
  · rintro ⟨ht, hi, heq⟩
    have hid := Nat.mod_lt e.i ht
    have hi' : e.i % t + e.i / t * t = e.i := by rw [Nat.mul_comm]; exact Nat.mod_add_div e.i t
    refine ⟨e.i % t, List.mem_range.mpr hid, List.mem_map.mpr ⟨e.i / t, ?_, ?_⟩⟩
    · rw [List.mem_range, lt_rounds_iff _ hid, hi']
      exact hi
    · rw [hi']
      exact heq.symm

theorem nodup_gridEvents (t bound : Nat) : (gridEvents t bound).Nodup := by
  refine List.nodup_flatMap.mpr ⟨fun id _ => ?_, ?_⟩
  · apply List.nodup_range.map
    intro n n' h
    exact congrArg Event.round h
  · refine (List.nodup_range (n := t)).imp ?_
    intro id id' hne e he he'
    obtain ⟨n, -, rfl⟩ := List.mem_map.mp he
    obtain ⟨n', -, heq⟩ := List.mem_map.mp he'
    exact hne (congrArg Event.id heq).symm

/-- No two threads touch the same element. -/
theorem nodup_targets (S : Scheduler Event) (t bound : Nat) : ((S.order (gridEvents t bound)).map Event.i).Nodup := by
  rw [((S.perm _).map Event.i).nodup_iff]
  refine List.Nodup.map_on ?_ (nodup_gridEvents t bound)
  intro e he e' he' hi
  obtain ⟨-, -, heq⟩ := mem_gridEvents.mp he
  obtain ⟨-, -, heq'⟩ := mem_gridEvents.mp he'
  exact heq.trans ((congrArg (eventAt t) hi).trans heq'.symm)

/-- A launch whose threads all end. -/
theorem launch_ok {blocks : Nat} (hpos : 0 < blocks) (hblocks : blocks ≤ 2 ^ 22)
    {thread : Nat → Except Fault (List Event)} {l : Nat → List Event} (h : ∀ id < 512 * blocks, thread id = .ok (l id)) :
    launch blocks thread = .ok ((List.range (512 * blocks)).flatMap l) := by
  rw [launch, if_pos ⟨hpos, by omega⟩, mapM_ok fun id hid => h id (List.mem_range.mp hid)]
  rfl

theorem checkState_ok {blocks id : Nat} (hblocks : blocks ≤ 2 ^ 22) (hid : id < 512 * blocks) :
    checkState blocks id = .ok () := by
  rw [checkState, extend_of_lt (by omega), Nat.mod_eq_of_lt (by omega), if_pos hid]

/-- The state of thread `2 ^ 31` is out of bounds. -/
theorem launch_bounds {blocks : Nat} (hlo : 2 ^ 22 < blocks) (hhi : blocks < 2 ^ 31)
    {thread : Nat → Except Fault (List Event)} {evs : List Event} :
    launch blocks (fun id => do checkState blocks id; thread id) ≠ .ok evs := by
  intro h
  rw [launch, if_pos ⟨by omega, hhi⟩] at h
  cases hmap : (List.range (512 * blocks)).mapM fun id => do checkState blocks id; thread id with
  | error e =>
    rw [hmap] at h
    cases h
  | ok r =>
    obtain ⟨b, hb⟩ := ok_of_mapM hmap (2 ^ 31) (List.mem_range.mpr (by omega))
    have hfault : checkState blocks (2 ^ 31) = .error .bounds := by
      rw [checkState, if_neg]
      have := le_extend_half
      have := Nat.mod_lt (512 * blocks) (Nat.two_pow_pos 32)
      omega
    rw [hfault] at hb
    cases hb

/-! ## The two calls -/

variable {A : Arith F} {S S' : Scheduler Event} {draws : Nat → Nat → F} {ptr : Nat → F} {len : Nat} {scale : F}

/-- The code of element `i`. -/
def codeAt (A : Arith F) (draws : Nat → Nat → F) (ptr : Nat → F) (len : Nat) (scale : F) (i : Nat) : F :=
  ternary A scale (ptr i) (draws (i % (512 * blockCount len)) (i / (512 * blockCount len)))

theorem mem_order {t bound i : Nat} (ht : 0 < t) {e : Event} (he : e.i = i) :
    e ∈ S.order (gridEvents t bound) ↔ i < bound ∧ e = eventAt t i := by
  subst he
  rw [(S.perm _).mem_iff, mem_gridEvents]
  exact and_iff_right ht

theorem eventAt_mem {t bound i : Nat} (ht : 0 < t) (hi : i < bound) : eventAt t i ∈ S.order (gridEvents t bound) :=
  (mem_order ht rfl).mpr ⟨hi, rfl⟩

section
variable (hlen : 2 < len) (hsize : 4 * len < 2 ^ 64) (hscale : A.isZero scale = false)
  (hpos : 0 < blockCount len) (hblocks : blockCount len ≤ 2 ^ 22)
include hlen hsize hscale hpos hblocks

theorem terngradCompress_eq :
    terngradCompress A S draws ptr len scale =
      .ok (scatter Event.i (fun e v => ternary A scale v (draws e.id e.round))
        (S.order (gridEvents (512 * blockCount len) (reach (blockCount len) len))) ptr) := by
  have hsetup : launch (blockCount len) (fun id => do checkState (blockCount len) id; return []) = .ok _ :=
    launch_ok hpos hblocks (l := fun _ => []) fun id hid => by rw [checkState_ok hblocks hid]; rfl
  have hlaunch : launch (blockCount len)
      (fun id => do checkState (blockCount len) id; threadEvents len (blockCount len) id) =
        .ok (gridEvents (512 * blockCount len) (reach (blockCount len) len)) :=
    launch_ok hpos hblocks fun id hid => by
      rw [checkState_ok hblocks hid]
      exact threadEvents_eq hpos hblocks (by omega) hid
  rw [terngradCompress, if_neg (by omega), hsetup, hlaunch]
  simp only [hscale]
  rfl

/-- **Compression.** The elements that are reached have their codes, and nothing else is written. -/
theorem terngradCompress_spec {q : Nat → F} {log : List (Nat × F)}
    (h : terngradCompress A S draws ptr len scale = .ok (q, log)) :
    (∀ i < reach (blockCount len) len, q i = codeAt A draws ptr len scale i) ∧
      ∀ i c, (i, c) ∈ log ↔ i < reach (blockCount len) len ∧ c = codeAt A draws ptr len scale i := by
  have ht : 0 < 512 * blockCount len := by omega
  have hnodup := nodup_targets S (512 * blockCount len) (reach (blockCount len) len)
  rw [terngradCompress_eq hlen hsize hscale hpos hblocks] at h
  obtain ⟨rfl, rfl⟩ := Prod.mk.inj (Except.ok.inj h)
  constructor
  · intro i hi
    exact scatter_of_mem hnodup (eventAt_mem ht hi) ptr
  · intro i c
    rw [mem_scatter_log hnodup]
    constructor
    · rintro ⟨e, he, hi, rfl⟩
      obtain ⟨hlt, heq⟩ := (mem_order ht hi).mp he
      refine ⟨hlt, ?_⟩
      rw [heq]
      rfl
    · rintro ⟨hi, rfl⟩
      exact ⟨_, eventAt_mem ht hi, rfl, rfl⟩

/-- **Decompression.** -/
theorem terngradDecompress_spec :
    ∃ r, terngradDecompress A S ptr scale len = .ok r ∧
      ∀ i, r i = if i < reach (blockCount len) (len - 1) then A.mul (ptr i) scale else ptr i := by
  have ht : 0 < 512 * blockCount len := by omega
  have hnodup := nodup_targets S (512 * blockCount len) (reach (blockCount len) (len - 1))
  have hlaunch : launch (blockCount len) (threadEvents (len - 1) (blockCount len)) =
      .ok (gridEvents (512 * blockCount len) (reach (blockCount len) (len - 1))) :=
    launch_ok hpos hblocks fun id hid => threadEvents_eq hpos hblocks (by omega) hid
  refine ⟨(scatter Event.i (fun _ v => A.mul v scale)
    (S.order (gridEvents (512 * blockCount len) (reach (blockCount len) (len - 1)))) ptr).1, ?_, fun i => ?_⟩
  · rw [terngradDecompress, if_neg (by omega), hscale, hlaunch]
    rfl
  split
  · next hi => exact scatter_of_mem hnodup (eventAt_mem ht hi) ptr
  · next hi =>
    apply scatter_of_notMem
    intro hin
    obtain ⟨e, he, hei⟩ := List.mem_map.mp hin
    exact hi ((mem_order ht hei).mp he).1

end

/-! ## Scaled codes -/

/-- The grid has a thread for every element: up to `2 ^ 31` elements, see `covered_iff`. -/
def Covered (len : Nat) : Prop :=
  0 < blockCount len ∧ blockCount len ≤ 2 ^ 22 ∧ (blockCount len = 2 ^ 22 → len ≤ 2 ^ 31)

instance (len : Nat) : Decidable (Covered len) := instDecidableAnd

theorem covered_iff (hlen : 0 < len) (hle : len ≤ 2 ^ 41) : Covered len ↔ len ≤ 2 ^ 31 := by
  unfold Covered blockCount
  omega

theorem Covered.reach_eq (h : Covered len) {bound : Nat} (hle : bound ≤ len) : reach (blockCount len) bound = bound := by
  unfold reach
  split
  · next heq => exact Nat.min_eq_left (hle.trans (h.2.2 heq))
  · rfl

/-- Nothing is written, or not everything. -/
theorem covered_of_log (hlen : 2 < len) (hsize : 4 * len < 2 ^ 64) (hscale : A.isZero scale = false)
    {q : Nat → F} {log : List (Nat × F)} (h : terngradCompress A S draws ptr len scale = .ok (q, log))
    (hlog : ∀ i < len, ∃ c, (i, c) ∈ log) : Covered len := by
  by_cases hrange : 0 < blockCount len ∧ blockCount len < 2 ^ 31
  · by_cases hblocks : blockCount len ≤ 2 ^ 22
    · refine ⟨hrange.1, hblocks, fun heq => ?_⟩
      obtain ⟨-, hmem⟩ := terngradCompress_spec hlen hsize hscale hrange.1 hblocks h
      by_contra hlt
      obtain ⟨c, hc⟩ := hlog (2 ^ 31) (by omega)
      have hlast := ((hmem _ _).mp hc).1
      rw [reach, if_pos heq] at hlast
      omega
    · -- the generators of the threads are set up out of bounds
      exfalso
      rw [terngradCompress, if_neg (by omega)] at h
      cases hsetup : launch (blockCount len) fun id => do checkState (blockCount len) id; return [] with
      | error e =>
        simp only [hsetup] at h
        cases h
      | ok evs => exact launch_bounds (by omega) hrange.2 hsetup
  · -- the grid is refused
    exfalso
    have hrefused : ∀ thread, launch (blockCount len) thread = .ok [] := fun thread => if_neg hrange
    have hnil : S.order [] = [] := List.perm_nil.mp (S.perm [])
    have hrun : terngradCompress A S draws ptr len scale = .ok (ptr, []) := by
      rw [terngradCompress, if_neg (by omega), hrefused, hrefused, hscale]
      show Except.ok (scatter _ _ (S.order []) ptr) = _
      rw [hnil]
      rfl
    rw [h] at hrun
    cases hrun
    obtain ⟨c, hc⟩ := hlog 0 (by omega)
    cases hc

/-- What the two calls are for: the code that was written at each element, times the scale. -/
def Scaled (A : Arith F) (S S' : Scheduler Event) (draws : Nat → Nat → F) (ptr : Nat → F) (len : Nat) (scale : F) : Prop :=
  ∃ q log r, terngradCompress A S draws ptr len scale = .ok (q, log) ∧ terngradDecompress A S' q scale len = .ok r ∧
    ∀ i < len, ∃ c, (i, c) ∈ log ∧ (c = A.one ∨ c = A.negOne ∨ c = A.zero) ∧ r i = A.mul c scale

theorem ternary_cases (A : Arith F) (gradMax v x : F) :
    ternary A gradMax v x = A.one ∨ ternary A gradMax v x = A.negOne ∨ ternary A gradMax v x = A.zero := by
  unfold ternary
  split
  · split
    · exact .inl rfl
    · exact .inr (.inl rfl)
  · exact .inr (.inr rfl)

/-- Both calls, on a grid that covers the vector: the last element keeps its code. -/
theorem Covered.calls (S S' : Scheduler Event) (draws : Nat → Nat → F) (ptr : Nat → F) (h : Covered len) (hlen : 2 < len)
    (hsize : 4 * len < 2 ^ 64) (hscale : A.isZero scale = false) :
    ∃ q log r, terngradCompress A S draws ptr len scale = .ok (q, log) ∧ terngradDecompress A S' q scale len = .ok r ∧
      (∀ i c, (i, c) ∈ log ↔ i < len ∧ c = codeAt A draws ptr len scale i) ∧
      ∀ i < len, r i = if i < len - 1 then A.mul (codeAt A draws ptr len scale i) scale
        else codeAt A draws ptr len scale i := by
  obtain ⟨q, log, hq⟩ : ∃ q log, terngradCompress A S draws ptr len scale = .ok (q, log) :=
    ⟨_, _, terngradCompress_eq hlen hsize hscale h.1 h.2.1⟩
  obtain ⟨hcode, hlog⟩ := terngradCompress_spec hlen hsize hscale h.1 h.2.1 hq
  obtain ⟨r, hr, hval⟩ := terngradDecompress_spec hlen hsize hscale h.1 h.2.1
  rw [h.reach_eq (Nat.le_refl len)] at hcode hlog
  rw [h.reach_eq (Nat.sub_le len 1)] at hval
  refine ⟨q, log, r, hq, hr, hlog, fun i hi => ?_⟩
  rw [hval, hcode i hi]

/-- **Scaled codes.** `4 * len` is the size of the vector in bytes. -/
theorem terngrad_iff (A : Arith F) (S S' : Scheduler Event) (draws : Nat → Nat → F) (ptr : Nat → F) {len : Nat}
    (hlen : 2 < len) (hsize : 4 * len < 2 ^ 64) {scale : F} (hscale : A.isZero scale = false) :
    Scaled A S S' draws ptr len scale ↔
      Covered len ∧ A.mul (codeAt A draws ptr len scale (len - 1)) scale = codeAt A draws ptr len scale (len - 1) := by
  constructor
  · rintro ⟨q, log, r, hq, hr, hall⟩
    have hcovered : Covered len := covered_of_log hlen hsize hscale hq fun i hi => by
      obtain ⟨c, hc, -⟩ := hall i hi
      exact ⟨c, hc⟩
    obtain ⟨q', log', r', hq', hr', hlog, hval⟩ := hcovered.calls S S' draws ptr hlen hsize hscale
    rw [hq] at hq'
    cases hq'
    rw [hr] at hr'
    cases hr'
    refine ⟨hcovered, ?_⟩
    obtain ⟨c, hc, -, hlast⟩ := hall (len - 1) (by omega)
    rw [hval (len - 1) (by omega), if_neg (Nat.lt_irrefl _), ((hlog _ _).mp hc).2] at hlast
    exact hlast.symm
  · rintro ⟨hcovered, hlast⟩
    obtain ⟨q, log, r, hq, hr, hlog, hval⟩ := hcovered.calls S S' draws ptr hlen hsize hscale
    refine ⟨q, log, r, hq, hr, fun i hi => ⟨_, (hlog _ _).mpr ⟨hi, rfl⟩, ternary_cases A _ _ _, ?_⟩⟩
    rw [hval i hi]
    split
    · rfl
    · next hge =>
      obtain rfl : i = len - 1 := by omega
      exact hlast.symm

/-! ## Exact arithmetic -/

def Arith.exact (K : Type) [Field K] [LinearOrder K] : Arith K where
  zero := 0
  one := 1
  negOne := -1
  abs v := if v < 0 then -v else v
  mul := (· * ·)
  div := (· / ·)
  lt x y := decide (x < y)
  isZero v := decide (v = 0)

/-- The scale is 1, or the last element has the code 0. -/
theorem exact_mul_eq_self {K : Type} [Field K] [LinearOrder K] (c scale : K) :
    (Arith.exact K).mul c scale = c ↔ scale = 1 ∨ c = 0 := mul_right_eq_self₀

/-- Three elements, the last of which has the code 0. -/
theorem terngrad_iff_three :
    Scaled (.exact ℚ) (.inOrder _) (.inOrder _) (fun _ _ => 1 / 2) (fun i => [2, -2, 1].getD i 0) 3 2 :=
  (terngrad_iff (.exact ℚ) (.inOrder _) (.inOrder _) _ _ (by decide) (by decide) (by decide)).mpr
    ⟨by decide, by norm_num [codeAt, ternary, Arith.exact]⟩

/-- **Counterexample.** Three elements of the code 1, with the scale 2: the last one is still 1. -/
theorem terngrad_counterexample : ∃ q log r,
    terngradCompress (.exact ℚ) (.inOrder _) (fun _ _ => 1 / 2) (fun _ => 2) 3 2 = .ok (q, log) ∧
      terngradDecompress (.exact ℚ) (.inOrder _) q 2 3 = .ok r ∧ (2, 1) ∈ log ∧ r 0 = 1 * 2 ∧ r 2 = 1 := by
  have hcovered : Covered 3 := by decide
  have hscale : (Arith.exact ℚ).isZero 2 = false := by decide
  obtain ⟨q, log, r, hq, hr, hlog, hval⟩ := hcovered.calls (.inOrder _) (.inOrder _) (fun _ _ => 1 / 2) (fun _ => 2)
    (by decide) (by decide) hscale
  have hcode : ∀ i, codeAt (.exact ℚ) (fun _ _ => 1 / 2) (fun _ => 2) 3 2 i = 1 := fun i => by
    norm_num [codeAt, ternary, Arith.exact]
  refine ⟨q, log, r, hq, hr, (hlog _ _).mpr ⟨by decide, (hcode 2).symm⟩, ?_, ?_⟩
  · rw [hval 0 (by decide), if_pos (by decide), hcode]
    rfl
  · rw [hval 2 (by decide), if_neg (by decide), hcode]

end Inca.L2.Terngrad
