import Mathlib.Algebra.BigOperators.Fin
import Mathlib.Algebra.Group.TransferInstance
import Mathlib.Data.BitVec
import Inca.L4App.NcclSlices
import Inca.L4App.StoreSum

/-!
# The gradients of all GPUs of all machines (`common/core_loops.cc`, `server/server.cc`)

One key of a distributed job whose machines have one PCIe switch each, pushed
without a compressor, in the default build (neither `USE_INCA` nor
`GPU_COMPRESS`). In every iteration the GPUs of a machine reduce the partition
(`NcclSlices`), every rank copies its slice into the shared host buffer, the
root pushes the buffer, the servers sum the pushes of the machines
(`StoreSum`), the root's pull writes the answer over the buffer, every rank
copies its slice back to its GPU, and the slices are gathered on all of them.

Addition of the data type is exact. That the ranks of a machine go through
these stages together, and that the copies of two iterations do not overlap,
is `LocalRanks`; in what order the ranks copy is open (`Round.order`). NCCL's
collectives are a parameter, and the answer to a pull is read from the store
at any time before the next `COPY_FIRST` of the key (`readLate`).

Tensors in host memory (`CPU_DEVICE_ID`) go through the device pointer of the
input: what NCCL reduces into another output is not what is copied.

* `load_hostBuffer`: the root pushes the sum over the GPUs of its machine.
* `hostBuffer_cpu`: of a tensor in host memory with an output of its own the
  slices are pushed as they were, unreduced.
* `load_finish`: what it pulls reaches each of them.
* `gpus_sum`: every GPU of every machine ends with the sum over all GPUs of
  all machines.
-/
namespace Inca.L4.GlobalReduce
open Inca.L4.Server Inca.L4.KeyMachine Inca.L4.StoreSum Inca.L4.NcclSlices

/-! ## Elements in memory -/

@[ext] structure Elem (u : Nat) where
  bytes : Fin u → Byte

def load (u : Nat) (m : Mem) (i : Nat) : Elem u := ⟨elem u m i⟩

section Elements
variable {u : Nat} (hu : 0 < u)

/-- The bytes of an array. -/
def store (xs : Nat → Elem u) : Mem := fun b => (xs (b / u)).bytes ⟨b % u, Nat.mod_lt b hu⟩

theorem store_add (xs : Nat → Elem u) (i : Nat) (k : Fin u) : store hu xs (i * u + k) = (xs i).bytes k := by
  have hdiv : (i * u + k) / u = i := by
    rw [Nat.mul_comm, Nat.mul_add_div hu, Nat.div_eq_of_lt k.isLt, Nat.add_zero]
  have hmod : (i * u + k) % u = k := by rw [Nat.mul_add_mod', Nat.mod_eq_of_lt k.isLt]
  simp only [store, hdiv, hmod]

theorem add_lt_mul {i len : Nat} (hi : i < len) (k : Fin u) : i * u + k < len * u := by
  have := Nat.mul_le_mul_right u (Nat.succ_le_of_lt hi)
  rw [Nat.succ_mul] at this
  omega

end Elements

/-- The sum that NCCL is asked for. -/
def ncclSum {P u : Nat} [AddCommMonoid (Elem u)] (xs : Fin P → Fin u → Byte) : Fin u → Byte :=
  (∑ q, (⟨xs q⟩ : Elem u)).bytes

/-! ## One machine -/

/-- A partition on the GPUs of a machine in one iteration: `task->tensor` and `task->output` of every
rank, whether these are the same memory, whether `task->device` is `CPU_DEVICE_ID`, the host buffer as
the last iteration has left it, and the order of the ranks' copies. -/
structure Round (nccl : NcclManager) where
  tensor : Fin nccl.pcieSize → Mem
  output : Fin nccl.pcieSize → Mem
  inPlace : Bool
  same : inPlace = true → output = tensor
  cpu : Bool
  host : Mem
  order : List (Fin nccl.pcieSize)
  complete : ∀ r, r ∈ order

section Machine
variable {nccl : NcclManager} (task : Task nccl)

theorem add_lt_len {i : Nat} (hi : i < task.len / task.unitLen) (k : Fin task.unitLen) :
    i * task.unitLen + k < task.len := by
  have := add_lt_mul hi k
  rwa [Nat.div_mul_cancel task.dvd] at this

/-- With one GPU there are no NCCL calls. -/
theorem eq_of_single (hone : ¬ 1 < nccl.getSize) (q r : Fin nccl.pcieSize) : q = r := by
  rw [NcclManager.getSize] at hone
  exact Fin.ext (by omega)

/-- What `CopyDevice2Host` copies from. `gpu_ptr` is the input's memory, so that of a CPU tensor NCCL
reads the input, and writes the output or, in place, the input.
mirrors byteps/byteps/common/core_loops.cc:362-365, 404-409, 509-519 and 794-813, operations.cc:255-267 -/
def Round.device (Q : Collectives nccl.pcieSize) (A : Round nccl) : Fin nccl.pcieSize → Mem :=
  if 1 < nccl.getSize then
    let out := task.postReduce Q A.inPlace A.tensor A.output
    if A.cpu then (if A.inPlace then out else A.tensor) else out
  else A.tensor

/-- The host buffer when all ranks have copied.
mirrors byteps/byteps/common/core_loops.cc:787-870 -/
def Round.hostBuffer (Q : Collectives nccl.pcieSize) (A : Round nccl) : Mem :=
  task.copyAll 0 (A.device task Q) A.host A.order

/-- Tensors on a GPU, and tensors in host memory that are reduced in place. -/
def Round.Reduces (A : Round nccl) : Prop := A.cpu = true → A.inPlace = true

section Reduce
variable [AddCommMonoid (Elem task.unitLen)] {Q : Collectives nccl.pcieSize}

/-- **What the root pushes.** In whatever order the ranks copy, the host buffer holds the sum over
the GPUs of the machine. -/
theorem load_hostBuffer (hQ : Q.Documented task.unitLen_pos ncclSum) (A : Round nccl) (hA : A.Reduces) {i : Nat}
    (hi : i < task.len / task.unitLen) :
    load task.unitLen (A.hostBuffer task Q) i = ∑ q, load task.unitLen (A.tensor q) i := by
  refine Elem.ext (funext fun k => ?_)
  have hb := add_lt_len task hi k
  show A.hostBuffer task Q (i * task.unitLen + k) = _
  unfold Round.hostBuffer Round.device
  split
  · have hout : (if A.cpu then (if A.inPlace then task.postReduce Q A.inPlace A.tensor A.output else A.tensor)
        else task.postReduce Q A.inPlace A.tensor A.output) = task.postReduce Q A.inPlace A.tensor A.output := by
      split
      · next hcpu => exact if_pos (hA hcpu)
      · rfl
    rw [hout]
    refine (task.copyAll_postReduce hQ A.inPlace A.tensor A.output A.same 0 A.host A.complete hb).trans ?_
    exact store_add task.unitLen_pos (fun i => ∑ q, load task.unitLen (A.tensor q) i) i k
  · next hone =>
    -- the only rank copies everything
    obtain ⟨r, hr, -⟩ := task.existsUnique_slice 0 .reduce hb
    have hsum : ∑ q, load task.unitLen (A.tensor q) i = load task.unitLen (A.tensor r) i :=
      Fintype.sum_eq_single r fun q hq => absurd (eq_of_single hone q r) hq
    rw [hsum]
    exact task.copyAll_eq A.tensor A.host A.order hr (A.complete r)

end Reduce

/-- **CPU tensors.** With an output of its own, what NCCL has reduced is left there, and the host
buffer holds every rank's slice of its own input. -/
theorem hostBuffer_cpu (Q : Collectives nccl.pcieSize) (A : Round nccl) (hcpu : A.cpu = true) (hout : A.inPlace = false)
    {r : Fin nccl.pcieSize} {b : Nat} (hb : Within (task.copyDevice2Host (0 * nccl.pcieSize + r)) b) :
    A.hostBuffer task Q b = A.tensor r b := by
  have hdev : A.device task Q = A.tensor := by simp [Round.device, hcpu, hout]
  rw [Round.hostBuffer, hdev]
  exact task.copyAll_eq A.tensor A.host A.order hb (A.complete r)

/-- `PULL`: the answer is written over the host buffer.
mirrors byteps/byteps/common/core_loops.cc:1099-1183 -/
def pulled (host : Mem) (len : Nat) (vals : Nat → Elem task.unitLen) : Mem := fun b =>
  if b < len * task.unitLen then store task.unitLen_pos vals b else host b

/-- Every rank copies its slice to its GPU (`COPYH2D`), and the slices are gathered (`BROADCAST`). `dev` is
`task->output`, or the memory of `gpu_ptr` for a CPU tensor.
mirrors byteps/byteps/common/core_loops.cc:1219-1276 and 461-519 -/
def finish (Q : Collectives nccl.pcieSize) (dev : Fin nccl.pcieSize → Mem) (host : Mem) : Fin nccl.pcieSize → Mem :=
  let copied := fun r : Fin nccl.pcieSize => copy (task.copyHost2Device (0 * nccl.pcieSize + r)) (dev r) host
  if 1 < nccl.getSize then task.postBroadcast Q copied else copied

section Gather
variable {sum : (Fin nccl.pcieSize → Fin task.unitLen → Byte) → Fin task.unitLen → Byte} {Q : Collectives nccl.pcieSize}
  (hQ : Q.Documented task.unitLen_pos sum)
include hQ

theorem finish_eq (dev : Fin nccl.pcieSize → Mem) (host : Mem) (r : Fin nccl.pcieSize) {b : Nat} (hb : b < task.len) :
    finish task Q dev host r b = host b := by
  have hcopied (q : Fin nccl.pcieSize) (b : Nat) (hw : Within (task.copyHost2Device (0 * nccl.pcieSize + q)) b) :
      copy (task.copyHost2Device (0 * nccl.pcieSize + q)) (dev q) host b = host b := if_pos hw
  unfold finish
  split
  · exact task.postBroadcast_eq hQ hcopied r hb
  · next hone =>
    obtain ⟨q, hq, -⟩ := task.existsUnique_slice 0 .broadcast hb
    rw [eq_of_single hone r q]
    exact hcopied q b hq

/-- **What the GPUs get.** Every GPU ends with the answer to the pull. -/
theorem load_finish (dev : Fin nccl.pcieSize → Mem) (host : Mem) {len : Nat} (hlen : len = task.len / task.unitLen)
    (vals : Nat → Elem task.unitLen) (r : Fin nccl.pcieSize) {i : Nat} (hi : i < len) :
    load task.unitLen (finish task Q dev (pulled task host len vals) r) i = vals i := by
  refine Elem.ext (funext fun k => ?_)
  refine (finish_eq task hQ dev _ r (add_lt_len task (hlen ▸ hi) k)).trans ?_
  exact (if_pos (add_lt_mul hi k)).trans (store_add task.unitLen_pos vals i k)

end Gather

end Machine

/-! ## All machines -/

section Machines
variable {nccl : NcclManager} (task : Task nccl) [AddCommMonoid (Elem task.unitLen)] (Q : Collectives nccl.pcieSize)
  {N : Nat}

/-- In iteration `j` machine `w` pushes the host buffer that its ranks have filled. -/
def Pushes (inp : Inputs (Elem task.unitLen) N) (k : Nat) (A : Fin N → Nat → Round nccl) : Prop :=
  inp.len k = task.len / task.unitLen ∧ ∀ w j i, inp.vals w k j i = load task.unitLen ((A w j).hostBuffer task Q) i

/-- With the answer to its pull, read as `data`, every GPU of a machine gets the sum over all GPUs of all
machines. -/
def Delivered (A : Fin N → Nat → Round nccl) (data : Option (Nat → Elem task.unitLen)) :
    Response (Elem task.unitLen) (Fin N) → Prop
  | .push _ _ => True
  | .pull _ req len _ => ∃ vals, data = some vals ∧ ∀ dev host r, ∀ i < task.len / task.unitLen,
      load task.unitLen (finish task Q dev (pulled task host len vals) r) i =
        ∑ w, ∑ q, load task.unitLen ((A w req.timestamp).tensor q) i

/-- **All GPUs.** In every run of the servers in which no `COPY_FIRST` of a key is taken while
`is_push_finished` holds for it, and in whatever order the ranks of a machine copy: the answer to a
machine's pull of its iteration `j`, read at any time before the next `COPY_FIRST` of the key is taken,
gives each of its GPUs the sum of the gradients of all GPUs of all machines in iteration `j`. -/
theorem gpus_sum {σ : Type} (hN : 0 < N) (engineThreadNum : Nat) (C : Compressor (Elem task.unitLen) σ)
    (hQ : Q.Documented task.unitLen_pos ncclSum) (inp : Inputs (Elem task.unitLen) N) {k : Nat}
    (hreg : inp.registers k = false) {A : Fin N → Nat → Round nccl} (hA : ∀ w j, (A w j).Reduces)
    (hp : Pushes task Q inp k A) {S S' T : Sys (Elem task.unitLen) N σ} {a : Act N}
    (h : ((sys (syncConfig N engineThreadNum false) C inp).restrict NoOverwrite).Reachable S)
    (hs : step (syncConfig N engineThreadNum false) C inp S a = some S')
    (hT : (later (syncConfig N engineThreadNum false) C inp k S').Reachable T) :
    ∀ resp ∈ (S'.run k).log.drop (S.run k).log.length, Delivered task Q A (readLate S' T k) resp := by
  intro resp hresp
  cases resp with
  | push key req => trivial
  | pull key req len vals =>
    obtain ⟨hlen, s, hread, hsum⟩ := readLate_sum hN hreg h hs hT hresp
    have hlen := hlen.trans hp.1
    refine ⟨s, hread, fun dev host r i hi => ?_⟩
    rw [load_finish task hQ dev host hlen s r (hlen ▸ hi), hsum i (hlen ▸ hi)]
    refine Finset.sum_congr rfl fun w _ => ?_
    rw [hp.2, load_hostBuffer task hQ _ (hA w _) hi]

end Machines

/-- Two GPUs and three bytes: the last GPU has a slice of two. -/
def pair : NcclManager := ⟨2, Nat.two_pos⟩

def threeBytes : Task pair := ⟨1, Nat.one_pos, 3, Nat.one_dvd 3, none⟩

/-- The addition of `uint8_t`. -/
instance uint8 : AddCommMonoid (Elem threeBytes.unitLen) :=
  (⟨Elem.bytes, Elem.mk, fun _ => rfl, fun _ => rfl⟩ : Elem threeBytes.unitLen ≃ (Fin 1 → Byte)).addCommMonoid

/-- In iteration `j` GPU `r` of machine `w` has the byte `4 * w + r + j` everywhere; the last GPU
copies first. -/
def gradients (w : Fin 2) (j : Nat) : Round pair where
  tensor r _ := BitVec.ofNat 8 (4 * w + r + j)
  output _ _ := 0
  inPlace := false
  same := nofun
  cpu := false
  host _ := 0
  order := (List.finRange 2).reverse
  complete r := List.mem_reverse.mpr (List.mem_finRange r)

def rings : Collectives pair.pcieSize := .plain threeBytes.unitLen_pos ncclSum

/-- What the two machines push. -/
def pushes : Inputs (Elem threeBytes.unitLen) 2 where
  dtype _ := 0
  len _ := 3
  initVals _ _ _ := 0
  registers _ := false
  content _ := []
  pushLen _ _ _ := 3
  vals w _ j i := load 1 ((gradients w j).hostBuffer threeBytes rings) i

def noCompressor : Compressor (Elem threeBytes.unitLen) Unit where
  create _ _ _ := none
  compress _ vals len := ((), vals, len)
  decompress _ vals _ := ((), vals)

/-- Both machines push, and machine 0 pulls. Its answer is read after machine 0's next push has been queued. -/
theorem gpus_sum_two_machines :
    ∃ S S' T resp, ((sys (syncConfig 2 1 false) noCompressor pushes).restrict NoOverwrite).Reachable S ∧
      (S'.run 0).log.drop (S.run 0).log.length = [resp] ∧
      (later (syncConfig 2 1 false) noCompressor pushes 0 S').Reachable T ∧
      Delivered threeBytes rings gradients (readLate S' T 0) resp := by
  obtain ⟨S, S', T, resp, hS, hs, hlog, hT⟩ : ∃ S S' T resp,
      LTS.execute (LTS.guarded (step (syncConfig 2 1 false) noCompressor pushes) NoOverwrite)
        (.init (syncConfig 2 1 false)) [.req 0 0, .req 1 0, .req 0 0, .req 1 0, .engine 0, .engine 0, .engine 0] =
          some S ∧
      step (syncConfig 2 1 false) noCompressor pushes S (.req 0 0) = some S' ∧
      (S'.run 0).log.drop (S.run 0).log.length = [resp] ∧
      step (syncConfig 2 1 false) noCompressor pushes S' (.req 0 0) = some T := ⟨_, _, _, _, rfl, rfl, rfl, rfl⟩
  have hr := LTS.Reachable.of_execute
    (.init (M := (sys (syncConfig 2 1 false) noCompressor pushes).restrict NoOverwrite) rfl) hS
  have hlate : (later (syncConfig 2 1 false) noCompressor pushes 0 S').Reachable T := .step (.init rfl) ⟨hT, trivial⟩
  have hp : Pushes threeBytes rings pushes 0 gradients := ⟨rfl, fun _ _ _ => rfl⟩
  have h := gpus_sum threeBytes rings (by decide) 1 noCompressor (Collectives.plain_documented _ _) pushes rfl
    (fun _ _ h => absurd h Bool.false_ne_true) hp hr hs hlate
  exact ⟨S, S', T, resp, hr, hlog, hlate, h resp (hlog ▸ List.mem_singleton_self resp)⟩

end Inca.L4.GlobalReduce
