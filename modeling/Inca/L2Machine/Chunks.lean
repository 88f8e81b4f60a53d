import Mathlib.Order.Interval.Finset.Nat
import Inca.L2Machine.DpdkManager

/-!
# Which bytes of its buffer a `DPDKPushPull` call puts into packets

`DPDKPushPull` steps through the buffer by `bound`: `DPDK_ELEMENT_NUM = 1024`
with compression, `MAX_ENTRIES_PER_PACKET = 256` without. Both the step of the
data pointer and the job's length count *bytes*. `assemble_dpdk_p4ml_hdrs`
copies that many bytes, `assemble_normal_hdrs` that many *floats*, four bytes
each.

* `frameOf_vector`: the bytes of the host buffer that a job's packet holds
  are the range `copied`.
* `chunks_iff`: a call makes `tensor_key_part_total` jobs, and their ranges
  are disjoint and cover exactly the buffer if and only if compression is on.
* `chunks_counterexample`: 512 bytes without compression.
-/
namespace Inca.L2.Chunks
open Inca.L1.DpdkPkt Inca.L2.DpdkManager

/-- Number of bytes `TxThread` copies for a job of length `len`. -/
def copyLen (cfg : Cfg) (len : Nat) : Nat :=
  if cfg.useCompression then min len DPDK_ELEMENT_NUM else 4 * min len MAX_ENTRIES_PER_PACKET

/-- The offsets into the host buffer that a job's packet is filled from. -/
def copied (cfg : Cfg) (job : Job) : Finset Nat :=
  Finset.Ico job.data.off (job.data.off + copyLen cfg job.len)

theorem mem_copied {cfg : Cfg} {job : Job} {o : Nat} :
    o ∈ copied cfg job ↔ job.data.off ≤ o ∧ o < job.data.off + copyLen cfg job.len :=
  Finset.mem_Ico

/-- The packet of a job holds exactly the bytes of its range; behind them is what the message
held before. -/
theorem frameOf_vector (cfg : Cfg) (payload : P4mlhdr) (m : Mgr) (job : Job) (j : Nat) :
    (frameOf cfg payload m job).msg.p4mlHdrs.vector j =
      if job.data.off + j ∈ copied cfg job then m.mem job.data.buf (job.data.off + j)
      else payload.vector j := by
  have hj : job.data.off + j ∈ copied cfg job ↔ j < copyLen cfg job.len := by
    rw [mem_copied]; omega
  rw [if_congr hj rfl rfl]
  cases h : cfg.useCompression with
  | true => simp [frameOf, assembleDpdkP4mlHdrs, memcpy, gradHdr, copyLen, h]
  | false => simp [frameOf, assembleNormalHdrs, memcpy, gradHdr, copyLen, h]

/-! ## The jobs of one call -/

/-- The jobs a call puts into the queue. -/
def newJobs (cfg : Cfg) (m : Mgr) (c : Call) : List Job :=
  (dpdkPushPull cfg m c).pushpulljobQueue.drop m.pushpulljobQueue.length

theorem newJobs_eq (cfg : Cfg) (m : Mgr) (c : Call) :
    newJobs cfg m c = (List.range (parts cfg c)).map fun j =>
      jobAt cfg c ((m.dpdkKey + j) % DPDK_KEY_TOTAL) (j * bound cfg) := by
  rw [newJobs, (dpdkPushPull_spec cfg m c).2.1, List.drop_left]

/-- The ranges of `jobs` are pairwise disjoint parts of the call's buffer that make up all of it. -/
structure Exact (cfg : Cfg) (c : Call) (jobs : List Job) : Prop where
  buf : ∀ job ∈ jobs, job.data.buf = c.data.buf
  disjoint : jobs.Pairwise fun x y => Disjoint (copied cfg x) (copied cfg y)
  union : ∀ o, (∃ job ∈ jobs, o ∈ copied cfg job) ↔ c.data.off ≤ o ∧ o < c.data.off + c.len

/-- The range of round `j` of the loop. -/
theorem mem_copied_jobAt {cfg : Cfg} {c : Call} {key j o : Nat} :
    o ∈ copied cfg (jobAt cfg c key (j * bound cfg)) ↔ c.data.off + j * bound cfg ≤ o ∧
      o < c.data.off + j * bound cfg + copyLen cfg (min (bound cfg) (c.len - j * bound cfg)) :=
  mem_copied

theorem bound_pos (cfg : Cfg) : 0 < bound cfg := by
  unfold bound; split <;> decide

/-- Round `j` is made exactly if it starts inside the buffer. -/
theorem lt_parts_iff {cfg : Cfg} {c : Call} {j : Nat} : j < parts cfg c ↔ j * bound cfg < c.len := by
  have hb := bound_pos cfg
  rw [parts, Nat.lt_div_iff_mul_lt hb]
  omega

theorem exact_of_compression {cfg : Cfg} (hc : cfg.useCompression = true) (m : Mgr) (c : Call) :
    Exact cfg c (newJobs cfg m c) := by
  have hb : bound cfg = 1024 := if_pos hc
  have hcopy : ∀ n, copyLen cfg (min (bound cfg) n) = min 1024 n := by
    intro n
    have h : copyLen cfg (min (bound cfg) n) = min (min 1024 n) 1024 := by rw [hb]; exact if_pos hc
    omega
  rw [newJobs_eq]
  constructor
  · intro job hj
    obtain ⟨j, -, rfl⟩ := List.mem_map.mp hj
    rfl
  · -- an earlier round ends where the next one starts, or before
    rw [List.pairwise_map]
    refine List.pairwise_lt_range.imp fun {i j} hij => ?_
    rw [Finset.disjoint_left]
    intro o hi hj
    rw [mem_copied_jobAt, hcopy, hb] at hi hj
    omega
  · intro o
    simp only [List.mem_map, List.mem_range, exists_exists_and_eq_and, mem_copied_jobAt, hcopy]
    simp only [lt_parts_iff, hb]
    constructor
    · rintro ⟨j, hj, h1, h2⟩
      omega
    · rintro ⟨h1, h2⟩
      exact ⟨(o - c.data.off) / 1024, by omega, by omega, by omega⟩

/-- Without compression the last packet reaches three times its length beyond the buffer. -/
theorem compression_of_exact {cfg : Cfg} {m : Mgr} {c : Call} (hlen : 0 < c.len)
    (h : Exact cfg c (newJobs cfg m c)) : cfg.useCompression = true := by
  by_contra hc
  have hb : bound cfg = 256 := if_neg hc
  have hcopy : ∀ n, copyLen cfg n = 4 * min n 256 := fun n => if_neg hc
  have hlast : (c.len - 1) / 256 < parts cfg c := by rw [lt_parts_iff, hb]; omega
  have hout := (h.union (c.data.off + c.len)).mp ⟨jobAt cfg c ((m.dpdkKey + (c.len - 1) / 256) %
    DPDK_KEY_TOTAL) ((c.len - 1) / 256 * bound cfg), by
      rw [newJobs_eq]; exact List.mem_map.mpr ⟨_, List.mem_range.mpr hlast, rfl⟩, by
      rw [mem_copied_jobAt, hcopy, hb]; omega⟩
  omega

/-- **Chunks.** A call of positive length makes `tensor_key_part_total` jobs; the ranges they
copy are disjoint and make up the buffer exactly when compression is on. -/
theorem chunks_iff (cfg : Cfg) (m : Mgr) (c : Call) (hlen : 0 < c.len) :
    (newJobs cfg m c).length = (dpdkPushPull cfg m c).tensorKeyPartTotal m.currMutexIdx ∧
    (Exact cfg c (newJobs cfg m c) ↔ cfg.useCompression = true) := by
  refine ⟨?_, compression_of_exact hlen, fun hc => exact_of_compression hc m c⟩
  rw [newJobs_eq, (dpdkPushPull_tables cfg m c).2.2.2.1]
  simp

/-- A call for the `len` bytes at the start of buffer 0. -/
def call (len : Nat) : Call := ⟨1, ⟨0, 0⟩, len, TENSOR_COMM, "Byteps.Gradient".toList⟩

theorem chunks_iff_3000 :
    (newJobs ⟨inca true, 0, 2⟩ (Mgr.init fun _ _ => 0) (call 3000)).length =
      (dpdkPushPull ⟨inca true, 0, 2⟩ (Mgr.init fun _ _ => 0) (call 3000)).tensorKeyPartTotal 0 ∧
    (Exact ⟨inca true, 0, 2⟩ (call 3000) (newJobs ⟨inca true, 0, 2⟩ (Mgr.init fun _ _ => 0) (call 3000)) ↔
      true = true) :=
  chunks_iff ⟨inca true, 0, 2⟩ (Mgr.init fun _ _ => 0) (call 3000) (by decide)

/-- **Counterexample.** 512 bytes without compression: the two packets share bytes 256 to 1023,
and the second one reads on to byte 1279. -/
theorem chunks_counterexample :
    ∃ x y, newJobs ⟨⟨false, true⟩, 0, 2⟩ (Mgr.init fun _ _ => 0) (call 512) = [x, y] ∧
      copied ⟨⟨false, true⟩, 0, 2⟩ x = Finset.Ico 0 1024 ∧ copied ⟨⟨false, true⟩, 0, 2⟩ y = Finset.Ico 256 1280 ∧
      ¬ Disjoint (copied ⟨⟨false, true⟩, 0, 2⟩ x) (copied ⟨⟨false, true⟩, 0, 2⟩ y) := by
  refine ⟨jobAt ⟨⟨false, true⟩, 0, 2⟩ (call 512) 0 0, jobAt ⟨⟨false, true⟩, 0, 2⟩ (call 512) 1 256, ?_, rfl, rfl, ?_⟩
  · rw [newJobs_eq]; rfl
  · rw [Finset.not_disjoint_iff]
    exact ⟨256, Finset.mem_Ico.mpr (by decide), Finset.mem_Ico.mpr (by decide)⟩

end Inca.L2.Chunks
