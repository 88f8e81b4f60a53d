import Mathlib.Logic.Function.Basic
import Inca.L1Encoding.DpdkPkt

/-!
# The worker's DPDK manager (`dpdk/client/dpdk_manager.cc`)

The tables that `DPDKPushPull`, `TxThread`, `RxThread` and `Reset` share,
and one atomic step of each, for the build of `common.h` (`SW_PS`,
`USE_UINT8`, one receive ring), with and without its `NO_CPUBUFF_COPY`. Counters that no run can exhaust
(`dpdkKey`) are natural numbers; `slot_roundnum` is the 32-bit value that
travels in the packet.

Host memory is `mem buffer offset`; a `char*` is a `Ptr` into it.
`finishKeys` is the log of all keys pushed to the queue.

`handleReply_eq` and `resetSlot_busy` say that the two ways to close a
packet, by reply and by reset, end in the same bookkeeping (`freeSlot`).
-/
namespace Inca.L2.DpdkManager
open Inca.L1.DpdkPkt

structure Ptr where
  buf : Nat
  off : Nat
  deriving DecidableEq

/-- mirrors byteps/byteps/common/dpdk/common/common.h:18-25 (`struct Job`) -/
structure Job where
  key : Nat
  data : Ptr
  len : Nat
  cmd : Int
  tensorName : List Char
  agtrIndex : Nat

/-- mirrors byteps/byteps/common/dpdk/client/dpdk_manager.h:57-108 -/
structure Mgr where
  dpdkKey : Nat
  currMutexIdx : Nat
  pushpulljobQueue : List Job
  finishKeys : List Nat
  dpdkKeyToTensorKey : Nat → Nat
  dpdkKeyToMutexIdx : Nat → Nat
  tensorKeyPartTotal : Nat → Nat
  tensorKeyPartFinish : Nat → Nat
  cpubuffTable : Nat → Option Ptr
  slotRoundnum : Nat → BitVec 32
  slotReady : Nat → Bool
  slotDpdkKey : Nat → Nat
  normReady : Nat → Bool
  normValue : Nat → BitVec 32
  mem : Nat → Nat → Byte

/-- mirrors byteps/byteps/common/dpdk/client/dpdk_manager.cc:639-645 and the zeroed statics -/
def Mgr.init (mem : Nat → Nat → Byte) : Mgr where
  dpdkKey := 0
  currMutexIdx := 0
  pushpulljobQueue := []
  finishKeys := []
  dpdkKeyToTensorKey _ := 0
  dpdkKeyToMutexIdx _ := 0
  tensorKeyPartTotal _ := 0
  tensorKeyPartFinish _ := 0
  cpubuffTable _ := none
  slotRoundnum _ := 0
  slotReady _ := true
  slotDpdkKey _ := 0
  normReady _ := false
  normValue _ := 0
  mem := mem

/-- What the code of the manager depends on at build and start time: `use_compression`, and
`NO_CPUBUFF_COPY`, which byteps/byteps/common/common.h:60 defines. -/
structure Build where
  useCompression : Bool
  noCpubuffCopy : Bool

/-- Compressed gradients, with or without `NO_CPUBUFF_COPY`. -/
abbrev inca (noCopy : Bool) : Build := ⟨true, noCopy⟩

/-- Build and environment of one worker. -/
structure Cfg extends Build where
  host : Nat
  numWorker : Nat

/-- The arguments of one `DPDKPushPull` call. -/
structure Call where
  tensorKey : Nat
  data : Ptr
  len : Nat
  cmd : Int
  tensorName : List Char

/-! ## DPDKPushPull -/

/-- mirrors byteps/byteps/common/dpdk/client/dpdk_manager.cc:832-834 -/
def bound (cfg : Cfg) : Nat := if cfg.useCompression then DPDK_ELEMENT_NUM else MAX_ENTRIES_PER_PACKET

/-- mirrors byteps/byteps/common/dpdk/client/dpdk_manager.cc:827-830; past the end of the name
there is no `'G'`. -/
def cmdOf (c : Call) : Int := if c.tensorName.getD 7 '\x00' ≠ 'G' then TENSOR_INIT else c.cmd

/-- Number of packets of a call (line 840). -/
def parts (cfg : Cfg) (c : Call) : Nat := (c.len + bound cfg - 1) / bound cfg

/-- The job that the loop of `DPDKPushPull` makes for offset `acc` with the fresh `key`. -/
def jobAt (cfg : Cfg) (c : Call) (key acc : Nat) : Job where
  key := key
  data := ⟨c.data.buf, c.data.off + acc⟩
  len := min (bound cfg) (c.len - acc)
  cmd := cmdOf c
  tensorName := c.tensorName
  agtrIndex := key % MAX_AGTR_COUNT

/-- mirrors byteps/byteps/common/dpdk/client/dpdk_manager.cc:845-872, one round of the loop;
`k` rounds were made before, so `accumulated` is `k * bound`. -/
def pushPart (cfg : Cfg) (c : Call) (mutexIdx : Nat) (m : Mgr) (k : Nat) : Mgr :=
  let key := m.dpdkKey % DPDK_KEY_TOTAL
  let job := jobAt cfg c key (k * bound cfg)
  { m with
    dpdkKey := m.dpdkKey + 1
    dpdkKeyToTensorKey := Function.update m.dpdkKeyToTensorKey key c.tensorKey
    dpdkKeyToMutexIdx := Function.update m.dpdkKeyToMutexIdx key mutexIdx
    cpubuffTable := if cmdOf c = TENSOR_COMM then Function.update m.cpubuffTable key (some job.data)
      else m.cpubuffTable
    pushpulljobQueue := m.pushpulljobQueue ++ [job] }

/-- mirrors byteps/byteps/common/dpdk/client/dpdk_manager.cc:815-875. The loop runs while
`accumulated < len`, that is for `accumulated = k * bound`, `k < parts`. -/
def dpdkPushPull (cfg : Cfg) (m : Mgr) (c : Call) : Mgr :=
  let mutexIdx := m.currMutexIdx
  let m := { m with
    currMutexIdx := (m.currMutexIdx + 1) % DPDK_KEY_TOTAL
    tensorKeyPartTotal := Function.update m.tensorKeyPartTotal mutexIdx (parts cfg c)
    tensorKeyPartFinish := Function.update m.tensorKeyPartFinish mutexIdx 0 }
  (List.range (parts cfg c)).foldl (pushPart cfg c mutexIdx) m

/-! ## TxThread -/

/-- mirrors byteps/byteps/common/dpdk/client/dpdk_manager.cc:415-454: the packet of a job. -/
def frameOf (cfg : Cfg) (payload : P4mlhdr) (m : Mgr) (job : Job) : Frame where
  etherType := 0x0c00#16
  msg :=
    { p4mlHdrs :=
        (if cfg.useCompression then assembleDpdkP4mlHdrs else assembleNormalHdrs) true payload cfg.host
          (BitVec.ofNat 8 cfg.numWorker) (m.slotRoundnum job.agtrIndex)
          (some fun j => m.mem job.data.buf (job.data.off + j)) job.key job.len
      key := job.key
      cmd := job.cmd
      len := job.len
      shutdown := false }

/-- mirrors byteps/byteps/common/dpdk/client/dpdk_manager.cc:397-517, one dequeued job; `none`
when the queue is empty or the slot of its head is in use. -/
def txThread (cfg : Cfg) (payload : P4mlhdr) (m : Mgr) : Option (Mgr × Job × Frame) :=
  match m.pushpulljobQueue with
  | [] => none
  | job :: rest =>
    if m.slotReady job.agtrIndex then
      some ({ m with
        slotReady := Function.update m.slotReady job.agtrIndex false
        slotDpdkKey := Function.update m.slotDpdkKey job.agtrIndex job.key
        pushpulljobQueue := rest }, job, frameOf cfg payload m job)
    else none

/-! ## RxThread and Reset -/

/-- mirrors byteps/byteps/common/dpdk/client/dpdk_manager.cc:354-363 and 1035-1045: one more
part of the tensor that `key` belongs to is done. -/
def finishPart (m : Mgr) (key : Nat) : Mgr :=
  let idx := m.dpdkKeyToMutexIdx key
  let fin := m.tensorKeyPartFinish idx + 1
  { m with
    tensorKeyPartFinish := Function.update m.tensorKeyPartFinish idx fin
    finishKeys := if fin = m.tensorKeyPartTotal idx then m.finishKeys ++ [m.dpdkKeyToTensorKey key]
      else m.finishKeys }

/-- mirrors byteps/byteps/common/dpdk/client/dpdk_manager.cc:333-345 (`memcpy` into `cpubuff`) -/
def copyBack (cfg : Cfg) (m : Mgr) (msg : TestMessage) : Mgr :=
  match m.cpubuffTable msg.key with
  | none => m
  | some p =>
    let n := if cfg.useCompression then msg.len else 4 * msg.len
    { m with mem := Function.update m.mem p.buf fun o =>
        if p.off ≤ o ∧ o < p.off + n then msg.p4mlHdrs.vector (o - p.off) else m.mem p.buf o }

/-- The packets `RxThread` does not drop (lines 258-301). -/
def RxAccepts (m : Mgr) (f : Frame) : Prop :=
  f.etherType = 0x0d00#16 ∧ f.msg.cmd ≤ TENSOR_INIT ∧ f.msg.key < DPDK_KEY_TOTAL ∧
  f.msg.p4mlHdrs.roundNum = m.slotRoundnum f.msg.p4mlHdrs.agtr.toNat

instance (m : Mgr) (f : Frame) : Decidable (RxAccepts m f) := inferInstanceAs (Decidable (_ ∧ _))

/-- mirrors byteps/byteps/common/dpdk/client/dpdk_manager.cc:303-376: a packet of the
expected round. -/
def handleReply (cfg : Cfg) (m : Mgr) (msg : TestMessage) : Mgr :=
  let agtrIndex := msg.p4mlHdrs.agtr.toNat
  let m := { m with
    slotRoundnum := Function.update m.slotRoundnum agtrIndex (m.slotRoundnum agtrIndex + 1#32) }
  if msg.cmd = TENSOR_NORM then
    { m with
      normValue := Function.update m.normValue msg.key msg.p4mlHdrs.normInfo
      normReady := Function.update m.normReady msg.key true }
  else
    -- `#ifndef NO_CPUBUFF_COPY` (line 329)
    let m := if cfg.noCpubuffCopy = false ∧ msg.cmd = TENSOR_COMM then copyBack cfg m msg else m
    let m := finishPart m msg.key
    { m with
      slotReady := Function.update m.slotReady agtrIndex true
      slotDpdkKey := Function.update m.slotDpdkKey agtrIndex 0 }

/-- mirrors byteps/byteps/common/dpdk/client/dpdk_manager.cc:256-376, one received packet -/
def rxThread (cfg : Cfg) (m : Mgr) (f : Frame) : Mgr :=
  if f.etherType ≠ 0x0d00#16 ∨ TENSOR_INIT < f.msg.cmd ∨ DPDK_KEY_TOTAL ≤ f.msg.key then m
  else if f.msg.p4mlHdrs.roundNum ≠ m.slotRoundnum f.msg.p4mlHdrs.agtr.toNat then m
  else handleReply cfg m f.msg

/-- mirrors byteps/byteps/common/dpdk/client/dpdk_manager.cc:1029-1056, one slot -/
def resetSlot (m : Mgr) (i : Nat) : Mgr :=
  if m.slotReady i = false then
    let m := { m with
      slotRoundnum := Function.update m.slotRoundnum i (m.slotRoundnum i + 1#32)
      slotReady := Function.update m.slotReady i true }
    let m := finishPart m (m.slotDpdkKey i)
    { m with slotDpdkKey := Function.update m.slotDpdkKey i 0 }
  else m

/-- mirrors byteps/byteps/common/dpdk/client/dpdk_manager.cc:1018-1060 -/
def reset (m : Mgr) : Mgr := (List.range (MAX_AGTR_COUNT + NORM_SLOT)).foldl resetSlot m

/-! ## What the steps do to the tables -/

/-- The bookkeeping that closes the packet `key` in slot `s`. -/
def freeSlot (m : Mgr) (s key : Nat) : Mgr :=
  { finishPart m key with
    slotRoundnum := Function.update m.slotRoundnum s (m.slotRoundnum s + 1#32)
    slotReady := Function.update m.slotReady s true
    slotDpdkKey := Function.update m.slotDpdkKey s 0 }

theorem resetSlot_busy {m : Mgr} {s : Nat} (h : m.slotReady s = false) :
    resetSlot m s = freeSlot m s (m.slotDpdkKey s) := by
  unfold resetSlot; rw [if_pos h]; rfl

theorem resetSlot_ready {m : Mgr} {s : Nat} (h : m.slotReady s = true) : resetSlot m s = m := by
  unfold resetSlot; rw [if_neg (by simp [h])]

theorem rxThread_eq (cfg : Cfg) (m : Mgr) (f : Frame) :
    rxThread cfg m f = if RxAccepts m f then handleReply cfg m f.msg else m := by
  unfold rxThread RxAccepts
  by_cases h1 : f.etherType = 0x0d00#16 <;> by_cases h2 : f.msg.cmd ≤ TENSOR_INIT <;>
    by_cases h3 : f.msg.key < DPDK_KEY_TOTAL <;>
    by_cases h4 : f.msg.p4mlHdrs.roundNum = m.slotRoundnum f.msg.p4mlHdrs.agtr.toNat <;>
    simp [h1, h2, h3, h4]

/-- A reply that is not about a norm closes its slot; apart from that it only writes host
memory. -/
theorem handleReply_eq (cfg : Cfg) (m : Mgr) {msg : TestMessage} (hc : msg.cmd ≠ TENSOR_NORM) :
    ∃ mem, handleReply cfg m msg =
      freeSlot { m with mem := mem } msg.p4mlHdrs.agtr.toNat msg.key := by
  unfold handleReply copyBack
  simp only [hc, if_false]
  split
  · cases m.cpubuffTable msg.key with
    | none => exact ⟨m.mem, rfl⟩
    | some p =>
      exact ⟨Function.update m.mem p.buf fun o =>
        if p.off ≤ o ∧ o < p.off + (if cfg.useCompression then msg.len else 4 * msg.len) then
          msg.p4mlHdrs.vector (o - p.off) else m.mem p.buf o, rfl⟩
  · exact ⟨m.mem, rfl⟩

/-- What `DPDKPushPull` leaves alone. -/
structure Untouched (m m' : Mgr) : Prop where
  slotReady : m'.slotReady = m.slotReady
  slotDpdkKey : m'.slotDpdkKey = m.slotDpdkKey
  slotRoundnum : m'.slotRoundnum = m.slotRoundnum
  finishKeys : m'.finishKeys = m.finishKeys

/-- The loop of `DPDKPushPull` after `k` rounds. -/
theorem foldl_pushPart (cfg : Cfg) (c : Call) (mu : Nat) (m : Mgr) (k : Nat) :
    let m' := (List.range k).foldl (pushPart cfg c mu) m
    m'.dpdkKey = m.dpdkKey + k ∧
    m'.pushpulljobQueue = m.pushpulljobQueue ++ (List.range k).map (fun j =>
      jobAt cfg c ((m.dpdkKey + j) % DPDK_KEY_TOTAL) (j * bound cfg)) ∧
    Untouched m m' := by
  induction k with
  | zero => exact ⟨rfl, by simp, ⟨rfl, rfl, rfl, rfl⟩⟩
  | succ k ih =>
    obtain ⟨h1, h2, h3⟩ := ih
    simp only [List.range_succ, List.foldl_append, List.foldl_cons, List.foldl_nil] at h1 h2 h3 ⊢
    generalize (List.range k).foldl (pushPart cfg c mu) m = t at h1 h2 h3 ⊢
    exact ⟨by simp [pushPart, h1, Nat.add_assoc], by simp [pushPart, h1, h2],
      ⟨h3.slotReady, h3.slotDpdkKey, h3.slotRoundnum, h3.finishKeys⟩⟩

theorem dpdkPushPull_spec (cfg : Cfg) (m : Mgr) (c : Call) :
    (dpdkPushPull cfg m c).dpdkKey = m.dpdkKey + parts cfg c ∧
    (dpdkPushPull cfg m c).pushpulljobQueue = m.pushpulljobQueue ++
      (List.range (parts cfg c)).map (fun j =>
        jobAt cfg c ((m.dpdkKey + j) % DPDK_KEY_TOTAL) (j * bound cfg)) ∧
    Untouched m (dpdkPushPull cfg m c) := by
  obtain ⟨h1, h2, h3⟩ := foldl_pushPart cfg c m.currMutexIdx { m with
    currMutexIdx := (m.currMutexIdx + 1) % DPDK_KEY_TOTAL
    tensorKeyPartTotal := Function.update m.tensorKeyPartTotal m.currMutexIdx (parts cfg c)
    tensorKeyPartFinish := Function.update m.tensorKeyPartFinish m.currMutexIdx 0 } (parts cfg c)
  exact ⟨h1, h2, ⟨h3.slotReady, h3.slotDpdkKey, h3.slotRoundnum, h3.finishKeys⟩⟩

/-- The two per-key tables after the loop: the drawn keys point to this call. -/
theorem foldl_pushPart_tables (cfg : Cfg) (c : Call) (mu : Nat) (m : Mgr) (k key : Nat) :
    let m' := (List.range k).foldl (pushPart cfg c mu) m
    (m'.dpdkKeyToTensorKey key = if ∃ j < k, key = (m.dpdkKey + j) % DPDK_KEY_TOTAL then c.tensorKey
      else m.dpdkKeyToTensorKey key) ∧
    (m'.dpdkKeyToMutexIdx key = if ∃ j < k, key = (m.dpdkKey + j) % DPDK_KEY_TOTAL then mu
      else m.dpdkKeyToMutexIdx key) ∧
    m'.currMutexIdx = m.currMutexIdx ∧ m'.tensorKeyPartTotal = m.tensorKeyPartTotal ∧
    m'.tensorKeyPartFinish = m.tensorKeyPartFinish := by
  induction k with
  | zero => simp
  | succ k ih =>
    have hk := (foldl_pushPart cfg c mu m k).1
    obtain ⟨h1, h2, h3, h4, h5⟩ := ih
    simp only [List.range_succ, List.foldl_append, List.foldl_cons, List.foldl_nil] at hk h1 h2 ⊢
    generalize (List.range k).foldl (pushPart cfg c mu) m = t at hk h1 h2 h3 h4 h5 ⊢
    have hex : (∃ j < k + 1, key = (m.dpdkKey + j) % DPDK_KEY_TOTAL) ↔
        key = t.dpdkKey % DPDK_KEY_TOTAL ∨ ∃ j < k, key = (m.dpdkKey + j) % DPDK_KEY_TOTAL := by
      rw [hk]
      constructor
      · rintro ⟨j, hj, he⟩
        rcases Nat.lt_succ_iff_lt_or_eq.mp hj with hj | rfl
        · exact .inr ⟨j, hj, he⟩
        · exact .inl he
      · rintro (he | ⟨j, hj, he⟩)
        · exact ⟨k, by omega, he⟩
        · exact ⟨j, by omega, he⟩
    refine ⟨?_, ?_, h3, h4, h5⟩ <;> simp only [pushPart, hex]
    · by_cases he : key = t.dpdkKey % DPDK_KEY_TOTAL
      · simp [he]
      · simp only [he, false_or, Function.update_of_ne he, h1]
    · by_cases he : key = t.dpdkKey % DPDK_KEY_TOTAL
      · simp [he]
      · simp only [he, false_or, Function.update_of_ne he, h2]

/-- The tables after a call. -/
theorem dpdkPushPull_tables (cfg : Cfg) (m : Mgr) (c : Call) :
    let m' := dpdkPushPull cfg m c
    let drawn key := ∃ j < parts cfg c, key = (m.dpdkKey + j) % DPDK_KEY_TOTAL
    (∀ key, drawn key → m'.dpdkKeyToTensorKey key = c.tensorKey ∧
      m'.dpdkKeyToMutexIdx key = m.currMutexIdx) ∧
    (∀ key, ¬ drawn key → m'.dpdkKeyToTensorKey key = m.dpdkKeyToTensorKey key ∧
      m'.dpdkKeyToMutexIdx key = m.dpdkKeyToMutexIdx key) ∧
    m'.currMutexIdx = (m.currMutexIdx + 1) % DPDK_KEY_TOTAL ∧
    m'.tensorKeyPartTotal = Function.update m.tensorKeyPartTotal m.currMutexIdx (parts cfg c) ∧
    m'.tensorKeyPartFinish = Function.update m.tensorKeyPartFinish m.currMutexIdx 0 := by
  intro m' drawn
  have h := foldl_pushPart_tables cfg c m.currMutexIdx { m with
    currMutexIdx := (m.currMutexIdx + 1) % DPDK_KEY_TOTAL
    tensorKeyPartTotal := Function.update m.tensorKeyPartTotal m.currMutexIdx (parts cfg c)
    tensorKeyPartFinish := Function.update m.tensorKeyPartFinish m.currMutexIdx 0 } (parts cfg c)
  refine ⟨fun key hk => ⟨?_, ?_⟩, fun key hk => ⟨?_, ?_⟩, (h 0).2.2⟩
  · exact (h key).1.trans (if_pos hk)
  · exact (h key).2.1.trans (if_pos hk)
  · exact (h key).1.trans (if_neg hk)
  · exact (h key).2.1.trans (if_neg hk)

end Inca.L2.DpdkManager
