import Mathlib.Data.Fin.Basic
import Mathlib.Tactic.Ring
import Inca.Core.Bytes

/-!
# Slices of a partition on the local GPUs (`common/core_loops.cc`, `common/nccl_manager.cc`)

The local GPUs of one PCIe switch form an NCCL ring of `P` ranks. A partition
of `len` bytes passes through four pieces of code with slice arithmetic of
their own: `PostNcclCalls` reduces it (every rank gets the sum of its slice,
the root the leftover too), `CopyDevice2Host` copies the slices into the
shared host buffer, `CopyHost2Device` copies the result back, and
`PostNcclCalls` gathers the slices on all ranks. With `BYTEPS_REDUCE_ROOTS`
(`IsUsingReduce`) one rank does it all.

NCCL is not part of the program: its four collectives are a parameter
(`Collectives`), and what the results need of them is `Documented`, which says
which elements they read and where they write them. The reduction of one
element is any function of that element on all ranks. A partition is a whole
number of elements, and a root that is not a rank of the ring is refused by
NCCL (`NCCLCHECK` ends the process), so roots are ranks.

* `Task.existsUnique_slice`: every byte of the partition is in exactly one
  rank's slice.
* `Task.postReduce_eq`: after the reduction a rank's slice holds the sum, and
  the rest of its buffer is as it was.
* `Task.postBroadcast_eq`: what was copied back reaches all ranks.
* `slices`: all of it, on every PCIe switch.
-/
namespace Inca.L4.NcclSlices

/-! ## The ring -/

inductive QueueType
  | reduce
  | broadcast

/-- What `NcclManager` keeps of the topology. -/
structure NcclManager where
  pcieSize : Nat
  pos : 0 < pcieSize

/-- `env` is the number in `BYTEPS_PCIE_SWITCH_SIZE`, if it is set.
mirrors byteps/byteps/common/nccl_manager.cc:136-150 -/
def initGlobalEnv (env : Option Nat) (localSize : Nat) (h : 0 < localSize) : NcclManager where
  pcieSize :=
    if localSize / env.getD 8 = 0 then localSize
    else if localSize % env.getD 8 ≠ 0 then localSize
    else env.getD 8
  pos := by
    split
    · exact h
    · split
      · exact h
      · rename_i h0 _
        exact Nat.pos_of_ne_zero fun he => h0 (by rw [he, Nat.div_zero])

/-- mirrors byteps/byteps/common/nccl_manager.cc:62-64 -/
def NcclManager.getRoot (nccl : NcclManager) (_op : QueueType) : Nat := nccl.pcieSize - 1

/-- mirrors byteps/byteps/common/nccl_manager.cc:66-68 -/
def NcclManager.getRank (nccl : NcclManager) (localRank : Nat) (_op : QueueType) : Nat :=
  localRank % nccl.pcieSize

/-- mirrors byteps/byteps/common/nccl_manager.h:75 -/
def NcclManager.getSize (nccl : NcclManager) : Nat := nccl.pcieSize

/-- Every switch has the same number of ranks. -/
theorem pcieSize_dvd (env : Option Nat) {localSize : Nat} (h : 0 < localSize) :
    (initGlobalEnv env localSize h).pcieSize ∣ localSize := by
  unfold initGlobalEnv
  dsimp only
  split
  · exact Nat.dvd_refl _
  · split
    · exact Nat.dvd_refl _
    · rename_i hm
      exact Nat.dvd_of_mod_eq_zero (not_not.mp hm)

/-- One partition: a whole number of elements. `reduceRoot` is `GetReduceRootByKey` of its key
when `IsUsingReduce`. -/
structure Task (nccl : NcclManager) where
  unitLen : Nat
  unitLen_pos : 0 < unitLen
  len : Nat
  dvd : unitLen ∣ len
  reduceRoot : Option (Fin nccl.pcieSize)

variable {nccl : NcclManager}

namespace Task

/-- mirrors byteps/byteps/common/core_loops.cc:379, 825 and 1240 -/
def numElemPerGpu (task : Task nccl) : Nat := task.len / nccl.getSize / task.unitLen

/-- mirrors byteps/byteps/common/core_loops.cc:380, 826 and 1241 -/
def leftElem (task : Task nccl) : Nat :=
  task.len / task.unitLen - task.numElemPerGpu * nccl.getSize

/-- The slice that a copy loop takes on a rank: offset and length. -/
def copySlice (task : Task nccl) (localRank : Nat) (op : QueueType) : Nat × Nat :=
  let ncclRank := nccl.getRank localRank op
  match task.reduceRoot with
  | some root => (0, if root.val = ncclRank then task.len else 0)
  | none =>
    (ncclRank * task.numElemPerGpu * task.unitLen,
      task.numElemPerGpu * task.unitLen +
        if task.leftElem ≠ 0 ∧ nccl.getRoot op = ncclRank then task.leftElem * task.unitLen else 0)

/-- mirrors byteps/byteps/common/core_loops.cc:825-838 -/
def copyDevice2Host (task : Task nccl) (localRank : Nat) : Nat × Nat := task.copySlice localRank .reduce

/-- mirrors byteps/byteps/common/core_loops.cc:1240-1253 -/
def copyHost2Device (task : Task nccl) (localRank : Nat) : Nat × Nat :=
  task.copySlice localRank .broadcast

end Task

/-- Byte `b` is in the slice. -/
def Within (slice : Nat × Nat) (b : Nat) : Prop := slice.1 ≤ b ∧ b < slice.1 + slice.2

instance (slice : Nat × Nat) (b : Nat) : Decidable (Within slice b) := inferInstanceAs (Decidable (_ ∧ _))

/-! ## NCCL -/

abbrev Mem := Nat → Byte

/-- `memcpy` of one slice between buffers that are both addressed from the partition on. -/
def copy (slice : Nat × Nat) (dst src : Mem) : Mem := fun b => if Within slice b then src b else dst b

section Collectives
variable {P : Nat} {u : Nat} (hu : 0 < u)

/-- Element `i` of a buffer. -/
def elem (u : Nat) (m : Mem) (i : Nat) : Fin u → Byte := fun k => m (i * u + k)

/-- Byte `b` of the element-wise reduction of the buffers of all ranks. -/
def reduced (sum : (Fin P → Fin u → Byte) → Fin u → Byte) (send : Fin P → Mem) (b : Nat) : Byte :=
  sum (fun q => elem u (send q) (b / u)) ⟨b % u, Nat.mod_lt b hu⟩

/-- What the calls of all ranks together do to the buffers: `out r` and `mem r` are the memory of
rank `r`, the other arguments are those of the C functions. -/
structure Collectives (P : Nat) where
  ncclReduceScatter (send : Fin P → Mem) (recv : Fin P → Nat) (recvcount : Nat) (out : Fin P → Mem) : Fin P → Mem
  ncclReduce (send : Fin P → Mem) (recv count : Nat) (root : Fin P) (out : Fin P → Mem) : Fin P → Mem
  ncclAllGather (send : Fin P → Nat) (recv sendcount : Nat) (mem : Fin P → Mem) : Fin P → Mem
  ncclBroadcast (addr count : Nat) (root : Fin P) (mem : Fin P → Mem) : Fin P → Mem

/-- What NCCL promises for elements of `u` bytes that it reduces with `sum`. -/
structure Collectives.Documented (C : Collectives P) (sum : (Fin P → Fin u → Byte) → Fin u → Byte) : Prop where
  /-- `recvcount` elements of the reduction for each rank, the first ones for rank 0 -/
  reduceScatter : ∀ send recv recvcount out r b, C.ncclReduceScatter send recv recvcount out r b =
    if Within (recv r, recvcount * u) b then reduced hu sum send (r * recvcount * u + (b - recv r)) else out r b
  /-- the reduction of `count` elements, for the root -/
  reduce : ∀ send recv count root out r b, C.ncclReduce send recv count root out r b =
    if r = root ∧ Within (recv, count * u) b then reduced hu sum send (b - recv) else out r b
  /-- in place: what each rank has at its own place in the receive buffer, for all ranks -/
  allGather : ∀ send recv sendcount mem r q b, (∀ q : Fin P, send q = recv + q * (sendcount * u)) →
    Within (send q, sendcount * u) b → C.ncclAllGather send recv sendcount mem r b = mem q b
  allGather_else : ∀ send recv sendcount mem r b, ¬ Within (recv, P * (sendcount * u)) b →
    C.ncclAllGather send recv sendcount mem r b = mem r b
  /-- in place: `count` elements of the root, for all ranks -/
  broadcast : ∀ addr count root mem r b, C.ncclBroadcast addr count root mem r b =
    if Within (addr, count * u) b then mem root b else mem r b

end Collectives

/-! ## PostNcclCalls -/

structure Split (P : Nat) where
  ncclRoot : Fin P
  numElemPerGpu : Nat
  leftElem : Nat

namespace Task

/-- mirrors byteps/byteps/common/core_loops.cc:373-392 -/
def split (task : Task nccl) (op : QueueType) : Split nccl.pcieSize :=
  match task.reduceRoot with
  | some root => ⟨root, 0, task.len / task.unitLen⟩
  | none => ⟨⟨nccl.getRoot op, Nat.sub_lt nccl.pos Nat.one_pos⟩, task.numElemPerGpu, task.leftElem⟩

/-- The reduction. `inPlace` is a CPU tensor whose input and output are the same memory, where the
second call finds what the first one has written.
mirrors byteps/byteps/common/core_loops.cc:410-460 -/
def postReduce (task : Task nccl) (C : Collectives nccl.pcieSize) (inPlace : Bool)
    (p outP : Fin nccl.pcieSize → Mem) : Fin nccl.pcieSize → Mem :=
  let t := task.split .reduce
  let scattered :=
    if t.numElemPerGpu ≠ 0 then
      C.ncclReduceScatter p (fun r => r * t.numElemPerGpu * task.unitLen) t.numElemPerGpu outP
    else outP
  let p := if inPlace then scattered else p
  if t.leftElem ≠ 0 then
    C.ncclReduce (fun q b => p q (task.len - t.leftElem * task.unitLen + b))
      (task.len - t.leftElem * task.unitLen) t.leftElem t.ncclRoot scattered
  else scattered

/-- mirrors byteps/byteps/common/core_loops.cc:461-478 -/
def postBroadcast (task : Task nccl) (C : Collectives nccl.pcieSize) (p : Fin nccl.pcieSize → Mem) : Fin nccl.pcieSize → Mem :=
  let t := task.split .broadcast
  let gathered :=
    if t.numElemPerGpu ≠ 0 then
      C.ncclAllGather (fun r => r * t.numElemPerGpu * task.unitLen) 0 t.numElemPerGpu p
    else p
  if t.leftElem ≠ 0 then
    C.ncclBroadcast (task.len - t.leftElem * task.unitLen) t.leftElem t.ncclRoot gathered
  else gathered

/-! ## The slices -/

variable (task : Task nccl)

/-- Length in bytes of a rank's share, without the leftover. -/
def share (op : QueueType) : Nat := (task.split op).numElemPerGpu * task.unitLen

/-- Length in bytes of the leftover. -/
def leftover (op : QueueType) : Nat := (task.split op).leftElem * task.unitLen

theorem numElemPerGpu_mul (op : QueueType) : (task.split op).numElemPerGpu * task.unitLen = task.share op :=
  rfl

theorem leftElem_mul (op : QueueType) : (task.split op).leftElem * task.unitLen = task.leftover op := rfl

theorem len_eq : task.len = task.len / task.unitLen * task.unitLen :=
  (Nat.div_mul_cancel task.dvd).symm

/-- The shares and the leftover make up the partition. -/
theorem share_add_leftover (op : QueueType) :
    nccl.pcieSize * task.share op + task.leftover op = task.len := by
  have hlen := task.len_eq
  unfold share leftover split
  cases task.reduceRoot with
  | some root => simp only [Nat.zero_mul, Nat.mul_zero, Nat.zero_add]; exact hlen.symm
  | none =>
    have hnum : task.numElemPerGpu = task.len / task.unitLen / nccl.pcieSize := by
      rw [numElemPerGpu, NcclManager.getSize, Nat.div_div_eq_div_mul, Nat.div_div_eq_div_mul, Nat.mul_comm]
    have hle : task.numElemPerGpu * nccl.pcieSize ≤ task.len / task.unitLen := by
      rw [hnum]; exact Nat.div_mul_le_self _ _
    simp only [leftElem, NcclManager.getSize]
    rw [← Nat.mul_assoc, Nat.mul_comm nccl.pcieSize, ← Nat.add_mul, Nat.add_sub_cancel' hle]
    exact hlen.symm

/-- Where the leftover starts. -/
theorem len_sub_leftover (op : QueueType) :
    task.len - task.leftover op = nccl.pcieSize * task.share op := by
  have := task.share_add_leftover op
  omega

/-- The leftover starts at an element. -/
theorem leftover_aligned {op : QueueType} {b : Nat} (hb : nccl.pcieSize * task.share op ≤ b) :
    nccl.pcieSize * task.share op ≤ b / task.unitLen * task.unitLen := by
  rw [share, ← Nat.mul_assoc] at hb ⊢
  exact Nat.mul_le_mul_right _ ((Nat.le_div_iff_mul_le task.unitLen_pos).mpr hb)

theorem getRank_add (s : Nat) (r : Fin nccl.pcieSize) (op : QueueType) :
    nccl.getRank (s * nccl.pcieSize + r) op = r := by
  rw [NcclManager.getRank, Nat.mul_add_mod', Nat.mod_eq_of_lt r.isLt]

/-- **Slice.** A rank copies its share, and the root the leftover too. The leftover goes on where
the share of the root ends, because the root is the last rank. -/
theorem within_copySlice (s : Nat) (r : Fin nccl.pcieSize) (op : QueueType) (b : Nat) :
    Within (task.copySlice (s * nccl.pcieSize + r) op) b ↔
      (r * task.share op ≤ b ∧ b < (r + 1) * task.share op) ∨
      (r = (task.split op).ncclRoot ∧ nccl.pcieSize * task.share op ≤ b ∧ b < task.len) := by
  have hlen := task.share_add_leftover op
  unfold copySlice Within
  rw [getRank_add]
  revert hlen
  unfold share leftover split
  cases task.reduceRoot with
  | some root =>
    intro _
    simp only [Nat.zero_mul, Nat.mul_zero, Nat.not_lt_zero, and_false, false_or, Nat.zero_le, true_and,
      Nat.zero_add, Fin.ext_iff]
    split
    · rename_i h; simp [h]
    · rename_i h; simp [Ne.symm h]
  | none =>
    intro hlen
    simp only [Fin.ext_iff, NcclManager.getRoot] at hlen ⊢
    have hr := r.isLt
    rw [Nat.mul_assoc, Nat.succ_mul]
    by_cases hroot : r.val = nccl.pcieSize - 1
    · have hP : nccl.pcieSize * (task.numElemPerGpu * task.unitLen) =
          r * (task.numElemPerGpu * task.unitLen) + task.numElemPerGpu * task.unitLen := by
        rw [← Nat.succ_mul, Nat.succ_eq_add_one, show r.val + 1 = nccl.pcieSize by omega]
      simp only [← hroot, and_true, true_and]
      by_cases h0 : task.leftElem = 0
      · simp only [h0, ne_eq, not_true_eq_false, if_false, Nat.zero_mul] at hlen ⊢; omega
      · simp only [h0, ne_eq, not_false_eq_true, if_true] at hlen ⊢; omega
    · simp only [hroot, Ne.symm hroot, and_false, if_false, false_and, or_false, Nat.add_zero]

/-- A slice lies in the partition. -/
theorem within_lt {s b : Nat} {r : Fin nccl.pcieSize} {op : QueueType}
    (h : Within (task.copySlice (s * nccl.pcieSize + r) op) b) : b < task.len := by
  have hlen := task.share_add_leftover op
  rcases (task.within_copySlice s r op b).mp h with ⟨-, hb⟩ | ⟨-, -, hb⟩
  · have := Nat.mul_le_mul_right (task.share op) (show r.val + 1 ≤ nccl.pcieSize from r.isLt)
    omega
  · exact hb

/-- **Tiling.** Every byte of the partition is in exactly one slice. -/
theorem existsUnique_slice (s : Nat) (op : QueueType) {b : Nat} (hb : b < task.len) :
    ∃! r : Fin nccl.pcieSize, Within (task.copySlice (s * nccl.pcieSize + r) op) b := by
  simp only [task.within_copySlice]
  by_cases hlt : b < nccl.pcieSize * task.share op
  · -- a byte of the shares: the rank is the quotient
    have hpos : 0 < task.share op := Nat.pos_of_ne_zero fun h => by rw [h] at hlt; omega
    have hq : b / task.share op < nccl.pcieSize := by
      rw [Nat.mul_comm] at hlt; exact Nat.div_lt_of_lt_mul hlt
    have hrank : ∀ k, (k * task.share op ≤ b ∧ b < (k + 1) * task.share op) ↔ k = b / task.share op := by
      intro k
      rw [← Nat.le_div_iff_mul_le hpos, ← Nat.div_lt_iff_lt_mul hpos]
      omega
    refine ⟨⟨_, hq⟩, .inl ((hrank _).mpr rfl), fun r hr => ?_⟩
    rcases hr with hr | ⟨-, hr, -⟩
    · exact Fin.ext ((hrank _).mp hr)
    · omega
  · -- a byte of the leftover: the rank is the root
    refine ⟨(task.split op).ncclRoot, .inr ⟨rfl, by omega, hb⟩, fun r hr => ?_⟩
    rcases hr with ⟨-, hr⟩ | ⟨hr, -⟩
    · have := Nat.mul_le_mul_right (task.share op) (show r.val + 1 ≤ nccl.pcieSize from r.isLt)
      omega
    · exact hr

/-- Both copy loops compute the same slice. -/
theorem copyHost2Device_eq (localRank : Nat) :
    task.copyHost2Device localRank = task.copyDevice2Host localRank := rfl

end Task

/-! ## The reduction -/

section Reduced
variable {P u : Nat} (hu : 0 < u) (sum : (Fin P → Fin u → Byte) → Fin u → Byte)

/-- A reduction depends on the bytes of the element alone. -/
theorem reduced_congr {send send' : Fin P → Mem} {b : Nat}
    (h : ∀ q k, k < u → send q (b / u * u + k) = send' q (b / u * u + k)) :
    reduced hu sum send b = reduced hu sum send' b := by
  have he : (fun q => elem u (send q) (b / u)) = fun q => elem u (send' q) (b / u) :=
    funext fun q => funext fun k => h q k k.isLt
  rw [reduced, he, reduced]

/-- Buffers that begin at an element reduce to what the whole buffers reduce to. -/
theorem reduced_shift (send : Fin P → Mem) (i b : Nat) :
    reduced hu sum (fun q b => send q (i * u + b)) b = reduced hu sum send (i * u + b) := by
  have hdiv : (i * u + b) / u = i + b / u := by
    rw [Nat.add_comm, Nat.add_mul_div_right _ _ hu, Nat.add_comm]
  have hmod : (i * u + b) % u = b % u := Nat.mul_add_mod' i u b
  have helem : ∀ q, elem u (fun b => send q (i * u + b)) (b / u) = elem u (send q) ((i * u + b) / u) := by
    intro q
    funext k
    show send q (i * u + (b / u * u + k)) = send q ((i * u + b) / u * u + k)
    rw [hdiv, Nat.add_mul, Nat.add_assoc]
  simp only [reduced, helem, hmod]

end Reduced

namespace Task
variable (task : Task nccl) {C : Collectives nccl.pcieSize}
  {sum : (Fin nccl.pcieSize → Fin task.unitLen → Byte) → Fin task.unitLen → Byte}
  (hC : C.Documented task.unitLen_pos sum)
include hC

/-- What `ncclReduceScatter` does, if it is called: each rank gets its share of the sum. -/
theorem scattered_eq (p outP : Fin nccl.pcieSize → Mem) (r : Fin nccl.pcieSize) (b : Nat) :
    (if (task.split .reduce).numElemPerGpu ≠ 0 then
      C.ncclReduceScatter p (fun r => r * (task.split .reduce).numElemPerGpu * task.unitLen)
        (task.split .reduce).numElemPerGpu outP
    else outP) r b =
      if r * task.share .reduce ≤ b ∧ b < (r + 1) * task.share .reduce then
        reduced task.unitLen_pos sum p b else outP r b := by
  have hw : ∀ r : Fin nccl.pcieSize, r * (task.split .reduce).numElemPerGpu * task.unitLen =
      r * task.share .reduce := fun r => Nat.mul_assoc _ _ _
  by_cases h0 : (task.split .reduce).numElemPerGpu = 0
  · have hs : task.share .reduce = 0 := by rw [share, h0, Nat.zero_mul]
    rw [if_neg (not_not.mpr h0), if_neg (by rw [hs]; omega)]
  · rw [if_pos h0]
    rw [hC.reduceScatter]
    simp only [Within, hw]
    rw [task.numElemPerGpu_mul, Nat.succ_mul]
    split
    · rename_i hb
      rw [Nat.add_sub_cancel' hb.1]
    · rfl

/-- What `ncclReduce` does, if it is called: the root gets the leftover of the sum. -/
theorem reducedLeft_eq (p outP : Fin nccl.pcieSize → Mem) (r : Fin nccl.pcieSize) (b : Nat) :
    (if (task.split .reduce).leftElem ≠ 0 then
      C.ncclReduce (fun q b => p q (task.len - (task.split .reduce).leftElem * task.unitLen + b))
        (task.len - (task.split .reduce).leftElem * task.unitLen) (task.split .reduce).leftElem
        (task.split .reduce).ncclRoot outP
    else outP) r b =
      if r = (task.split .reduce).ncclRoot ∧ nccl.pcieSize * task.share .reduce ≤ b ∧ b < task.len then
        reduced task.unitLen_pos sum p b else outP r b := by
  have hlen := task.share_add_leftover .reduce
  have hbase : nccl.pcieSize * task.share .reduce =
      nccl.pcieSize * (task.split .reduce).numElemPerGpu * task.unitLen := (Nat.mul_assoc _ _ _).symm
  rw [task.leftElem_mul, task.len_sub_leftover]
  by_cases h0 : (task.split .reduce).leftElem = 0
  · have hl : task.leftover .reduce = 0 := by rw [leftover, h0, Nat.zero_mul]
    rw [if_neg (not_not.mpr h0), if_neg (by omega)]
  · have hiff : (r = (task.split .reduce).ncclRoot ∧
        Within (nccl.pcieSize * task.share .reduce, (task.split .reduce).leftElem * task.unitLen) b) ↔
        (r = (task.split .reduce).ncclRoot ∧ nccl.pcieSize * task.share .reduce ≤ b ∧ b < task.len) := by
      rw [Within, task.leftElem_mul, hlen]
    rw [if_pos h0, hC.reduce]
    by_cases hr : r = (task.split .reduce).ncclRoot ∧ nccl.pcieSize * task.share .reduce ≤ b ∧ b < task.len
    · rw [if_pos (hiff.mpr hr), if_pos hr, hbase, reduced_shift, ← hbase, Nat.add_sub_cancel' hr.2.1]
    · rw [if_neg (hiff.not.mpr hr), if_neg hr]

/-- **Reduction.** On every rank the two calls leave the sum in the slice that `CopyDevice2Host`
copies, and all else as it was. -/
theorem postReduce_eq (inPlace : Bool) (p outP : Fin nccl.pcieSize → Mem) (hin : inPlace = true → outP = p)
    (s : Nat) (r : Fin nccl.pcieSize) (b : Nat) :
    task.postReduce C inPlace p outP r b =
      if Within (task.copyDevice2Host (s * nccl.pcieSize + r)) b then reduced task.unitLen_pos sum p b
      else outP r b := by
  have hsc := task.scattered_eq hC p outP
  rw [copyDevice2Host, if_congr (task.within_copySlice s r .reduce b) rfl rfl]
  unfold postReduce
  generalize (if (task.split .reduce).numElemPerGpu ≠ 0 then _ else outP) = scattered at hsc ⊢
  have hread : ∀ q x, nccl.pcieSize * task.share .reduce ≤ x →
      (if inPlace then scattered else p) q x = p q x := by
    -- in place too the leftover is read as it was before the first call
    intro q x hx
    cases inPlace with
    | false => rfl
    | true =>
      have hq := Nat.mul_le_mul_right (task.share .reduce) (show q.val + 1 ≤ nccl.pcieSize from q.isLt)
      rw [if_pos rfl, hsc, if_neg (by omega), hin rfl]
  refine (task.reducedLeft_eq hC (if inPlace then scattered else p) scattered r b).trans ?_
  generalize (if inPlace then scattered else p) = read at hread ⊢
  by_cases hroot : r = (task.split .reduce).ncclRoot ∧ nccl.pcieSize * task.share .reduce ≤ b ∧ b < task.len
  · rw [if_pos hroot, if_pos (.inr hroot)]
    exact reduced_congr _ _ fun q k _ =>
      hread q _ (Nat.le_trans (task.leftover_aligned hroot.2.1) (Nat.le_add_right _ _))
  · rw [if_neg hroot, hsc, if_congr (or_iff_left hroot) rfl rfl]

/-! ## Copying and gathering -/

/-- `CopyDevice2Host` on the ranks `rs` of switch `s`, one after the other; the switch has one host
buffer. -/
def copyAll (task : Task nccl) (s : Nat) (dev : Fin nccl.pcieSize → Mem) (host : Mem)
    (rs : List (Fin nccl.pcieSize)) : Mem :=
  rs.foldl (fun host r => copy (task.copyDevice2Host (s * nccl.pcieSize + r.val)) host (dev r)) host

omit hC in
/-- A byte of the host buffer is the byte of the only rank that copies it. -/
theorem copyAll_eq {s b : Nat} (dev : Fin nccl.pcieSize → Mem) (host : Mem) (rs : List (Fin nccl.pcieSize))
    {r : Fin nccl.pcieSize} (hr : Within (task.copyDevice2Host (s * nccl.pcieSize + r)) b) (hmem : r ∈ rs) :
    task.copyAll s dev host rs b = dev r b := by
  obtain ⟨r', -, huniq⟩ := task.existsUnique_slice s .reduce (task.within_lt hr)
  induction rs using List.reverseRecOn with
  | nil => cases hmem
  | append_singleton rs q ih =>
    simp only [copyAll, List.foldl_append, List.foldl_cons, List.foldl_nil, copy] at ih ⊢
    by_cases hq : Within (task.copyDevice2Host (s * nccl.pcieSize + q)) b
    · rw [if_pos hq, huniq q hq, huniq r hr]
    · rw [if_neg hq]
      refine ih ?_
      rcases List.mem_append.mp hmem with h | h
      · exact h
      · rw [List.mem_singleton.mp h] at hr; exact absurd hr hq

/-- What `ncclAllGather` does, if it is called: byte `b` of the shares comes from its rank. -/
theorem gathered_eq (p : Fin nccl.pcieSize → Mem) {host : Mem} {b : Nat}
    (hp : ∀ q : Fin nccl.pcieSize, q * task.share .broadcast ≤ b ∧ b < (q + 1) * task.share .broadcast →
      p q b = host b) (r : Fin nccl.pcieSize) :
    (if (task.split .broadcast).numElemPerGpu ≠ 0 then
      C.ncclAllGather (fun r => r * (task.split .broadcast).numElemPerGpu * task.unitLen) 0
        (task.split .broadcast).numElemPerGpu p
    else p) r b =
      if b < nccl.pcieSize * task.share .broadcast then host b else p r b := by
  by_cases h0 : (task.split .broadcast).numElemPerGpu = 0
  · have hs : task.share .broadcast = 0 := by rw [share, h0, Nat.zero_mul]
    rw [if_neg (not_not.mpr h0), if_neg (by rw [hs]; omega)]
  · have hpos : 0 < task.share .broadcast := Nat.mul_pos (Nat.pos_of_ne_zero h0) task.unitLen_pos
    rw [if_pos h0]
    by_cases hb : b < nccl.pcieSize * task.share .broadcast
    · -- the rank whose share it is
      have hrank : b / task.share .broadcast < nccl.pcieSize := by
        rw [Nat.mul_comm] at hb
        exact Nat.div_lt_of_lt_mul hb
      have hlow : b / task.share .broadcast * task.share .broadcast ≤ b := Nat.div_mul_le_self _ _
      have hhigh : b < (b / task.share .broadcast + 1) * task.share .broadcast :=
        Nat.lt_mul_of_div_lt (Nat.lt_succ_self _) hpos
      rw [if_pos hb, hC.allGather _ _ _ _ r ⟨_, hrank⟩ b (fun q => by rw [Nat.zero_add, Nat.mul_assoc]) ?_]
      · exact hp _ ⟨hlow, hhigh⟩
      · rw [Within, Nat.mul_assoc, task.numElemPerGpu_mul]
        rw [Nat.succ_mul] at hhigh
        exact ⟨hlow, hhigh⟩
    · rw [if_neg hb, hC.allGather_else]
      rintro ⟨-, h⟩
      rw [task.numElemPerGpu_mul, Nat.zero_add] at h
      exact hb h

/-- **Gathering.** If every rank has its slice of `host`, the two calls give every rank all of
it. -/
theorem postBroadcast_eq {s : Nat} {p : Fin nccl.pcieSize → Mem} {host : Mem}
    (hp : ∀ (r : Fin nccl.pcieSize) b, Within (task.copyHost2Device (s * nccl.pcieSize + r)) b →
      p r b = host b)
    (r : Fin nccl.pcieSize) {b : Nat} (hb : b < task.len) : task.postBroadcast C p r b = host b := by
  have hlen := task.share_add_leftover .broadcast
  have hslice : ∀ r : Fin nccl.pcieSize, _ → p r b = host b := fun r h =>
    hp r b ((task.within_copySlice s r .broadcast b).mpr h)
  have hg := task.gathered_eq hC p fun q hq => hslice q (.inl hq)
  unfold postBroadcast
  rw [task.leftElem_mul, task.len_sub_leftover]
  generalize (if (task.split .broadcast).numElemPerGpu ≠ 0 then _ else p) = gathered at hg ⊢
  by_cases hlt : b < nccl.pcieSize * task.share .broadcast
  · -- a share: the second call does not touch it
    have hout : ¬ Within (nccl.pcieSize * task.share .broadcast,
        (task.split .broadcast).leftElem * task.unitLen) b := fun h => by have := h.1; omega
    split
    · rw [hC.broadcast, if_neg hout, hg, if_pos hlt]
    · rw [hg, if_pos hlt]
  · -- the leftover: it comes from the root
    have h0 : (task.split .broadcast).leftElem ≠ 0 := by
      intro h
      have : task.leftover .broadcast = 0 := by rw [leftover, h, Nat.zero_mul]
      omega
    have hin : Within (nccl.pcieSize * task.share .broadcast,
        (task.split .broadcast).leftElem * task.unitLen) b :=
      ⟨by omega, by rw [task.leftElem_mul, hlen]; exact hb⟩
    rw [if_pos h0, hC.broadcast, if_pos hin, hg, if_neg hlt]
    exact hslice _ (.inr ⟨rfl, by omega, hb⟩)

/-- **Host buffer.** After the reduction and the copies of all ranks, in any order, the host
buffer of a switch holds the sum. -/
theorem copyAll_postReduce (inPlace : Bool) (p outP : Fin nccl.pcieSize → Mem) (hin : inPlace = true → outP = p) (s : Nat)
    (host : Mem) {rs : List (Fin nccl.pcieSize)} (hrs : ∀ r, r ∈ rs) {b : Nat} (hb : b < task.len) :
    task.copyAll s (task.postReduce C inPlace p outP) host rs b = reduced task.unitLen_pos sum p b := by
  obtain ⟨r, hr, -⟩ := task.existsUnique_slice s .reduce hb
  rw [task.copyAll_eq _ host rs hr (hrs r), task.postReduce_eq hC inPlace p outP hin s]
  exact if_pos hr

end Task

/-- **Slices.** `localSize` local ranks in switches of equal size, any partition, and NCCL as it is
documented. On every switch `s`, with ranks `s * P .. s * P + P - 1`: the slices that
`CopyDevice2Host` copies tile the partition; on each rank the NCCL calls of the reduction have put
the sum into exactly this slice, whatever the output buffer held; `CopyHost2Device` writes the same
slice back; and the NCCL calls of the broadcast then bring every byte of the host buffer to every
rank. -/
theorem slices (env : Option Nat) {localSize : Nat} (h : 0 < localSize)
    (task : Task (initGlobalEnv env localSize h)) (C : Collectives (initGlobalEnv env localSize h).pcieSize)
    (sum : (Fin (initGlobalEnv env localSize h).pcieSize → Fin task.unitLen → Byte) → Fin task.unitLen → Byte)
    (hC : C.Documented task.unitLen_pos sum) :
    let P := (initGlobalEnv env localSize h).pcieSize
    P ∣ localSize ∧ ∀ s < localSize / P,
      (∀ b < task.len, ∃! r : Fin P, Within (task.copyDevice2Host (s * P + r)) b) ∧
      (∀ (r : Fin P) b, Within (task.copyDevice2Host (s * P + r)) b → b < task.len) ∧
      (∀ inPlace p outP, (inPlace = true → outP = p) → ∀ (r : Fin P) b,
        task.postReduce C inPlace p outP r b =
          if Within (task.copyDevice2Host (s * P + r)) b then reduced task.unitLen_pos sum p b
          else outP r b) ∧
      (∀ r : Fin P, task.copyHost2Device (s * P + r) = task.copyDevice2Host (s * P + r)) ∧
      (∀ (dev : Fin P → Mem) (host : Mem) (r : Fin P), ∀ b < task.len,
        task.postBroadcast C (fun r => copy (task.copyHost2Device (s * P + r)) (dev r) host) r b = host b) := by
  intro P
  refine ⟨pcieSize_dvd env h, fun s _ => ⟨fun b hb => task.existsUnique_slice s .reduce hb,
    fun r b hb => task.within_lt hb,
    fun inPlace p outP hin r b => task.postReduce_eq hC inPlace p outP hin s r b,
    fun r => task.copyHost2Device_eq _, fun dev host r b hb => ?_⟩⟩
  have hcopied : ∀ (r : Fin P) b, Within (task.copyHost2Device (s * P + r)) b →
      copy (task.copyHost2Device (s * P + r)) (dev r) host b = host b := fun r b hw => if_pos hw
  exact task.postBroadcast_eq hC hcopied r hb

/-- Collectives that do what is documented, and nothing else. -/
def Collectives.plain {P u : Nat} (hu : 0 < u) (sum : (Fin P → Fin u → Byte) → Fin u → Byte) : Collectives P where
  ncclReduceScatter send recv recvcount out r b :=
    if Within (recv r, recvcount * u) b then reduced hu sum send (r * recvcount * u + (b - recv r)) else out r b
  ncclReduce send recv count root out r b :=
    if r = root ∧ Within (recv, count * u) b then reduced hu sum send (b - recv) else out r b
  ncclAllGather send recv sendcount mem r b :=
    if Within (recv, P * (sendcount * u)) b then
      match (List.finRange P).find? fun q => decide (Within (send q, sendcount * u) b) with
      | some q => mem q b
      | none => mem r b
    else mem r b
  ncclBroadcast addr count root mem r b := if Within (addr, count * u) b then mem root b else mem r b

theorem Collectives.plain_documented {P u : Nat} (hu : 0 < u) (sum : (Fin P → Fin u → Byte) → Fin u → Byte) :
    (Collectives.plain hu sum).Documented hu sum where
  reduceScatter _ _ _ _ _ _ := rfl
  reduce _ _ _ _ _ _ _ := rfl
  allGather send recv n mem r q b hs hq := by
    -- the places of two ranks do not overlap
    have huniq : ∀ q' : Fin P, Within (send q', n * u) b → q' = q := by
      intro q' hq'
      rw [Within, hs] at hq hq'
      by_contra hne
      rcases Nat.lt_or_gt_of_ne (Fin.val_ne_of_ne hne) with hlt | hlt
      · have := Nat.mul_le_mul_right (n * u) (Nat.succ_le_of_lt hlt)
        rw [Nat.succ_mul] at this
        omega
      · have := Nat.mul_le_mul_right (n * u) (Nat.succ_le_of_lt hlt)
        rw [Nat.succ_mul] at this
        omega
    have hin : Within (recv, P * (n * u)) b := by
      have := Nat.mul_le_mul_right (n * u) (Nat.succ_le_of_lt q.isLt)
      rw [Nat.succ_mul] at this
      rw [Within, hs] at hq
      exact ⟨by omega, by omega⟩
    obtain ⟨q', hfind⟩ : ∃ q', (List.finRange P).find? (fun q => decide (Within (send q, n * u) b)) = some q' := by
      rw [← Option.isSome_iff_exists, List.find?_isSome]
      exact ⟨q, List.mem_finRange q, decide_eq_true hq⟩
    have hq' := List.find?_some hfind
    simp only [Collectives.plain, if_pos hin, hfind]
    rw [huniq q' (of_decide_eq_true hq')]
  allGather_else _ _ _ _ _ _ h := if_neg h
  broadcast _ _ _ _ _ _ := rfl

def threeRanks : NcclManager := initGlobalEnv none 3 (Nat.succ_pos 2)

/-- Five elements of four bytes. -/
def fiveElements : Task threeRanks := ⟨4, Nat.succ_pos 3, 20, ⟨5, rfl⟩, none⟩

/-- The bytes of all ranks, added up. -/
def addBytes (xs : Fin 3 → Fin 4 → Byte) (k : Fin 4) : Byte := xs 0 k + xs 1 k + xs 2 k

/-- The last of three ranks takes two elements more. Its byte 13, which only it copies, is the sum of
the ranks' 1, 2 and 3, and the byte 7 that is there in the host buffer reaches rank 0. -/
theorem slices_three :
    let C : Collectives 3 := Collectives.plain fiveElements.unitLen_pos addBytes
    let p : Fin 3 → Mem := fun r _ => BitVec.ofNat 8 (r + 1)
    (List.range 3).map fiveElements.copyDevice2Host = [(0, 4), (4, 4), (8, 12)] ∧
    (∃! r : Fin 3, Within (fiveElements.copyDevice2Host (0 * 3 + r)) 13) ∧
    fiveElements.postReduce C false p p (2 : Fin 3) 13 = 6#8 ∧
    fiveElements.postBroadcast C (fun r => copy (fiveElements.copyHost2Device (0 * 3 + r)) (p r) fun _ => 7#8)
      (0 : Fin 3) 13 = 7#8 := by
  intro C p
  have h := (slices none (Nat.succ_pos 2) fiveElements C addBytes (Collectives.plain_documented _ addBytes)).2 0 (by decide)
  refine ⟨by decide, h.1 13 (by decide), ?_, h.2.2.2.2 p (fun _ => 7#8) (0 : Fin 3) 13 (by decide)⟩
  refine (h.2.2.1 false p p (fun _ => rfl) (2 : Fin 3) 13).trans ?_
  exact (if_pos (by decide)).trans (by decide)

end Inca.L4.NcclSlices
