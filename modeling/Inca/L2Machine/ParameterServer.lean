import Mathlib.Logic.Function.Basic
import Inca.L1Encoding.DpdkPkt
import Inca.L2Machine.AggSlot

/-!
# The software parameter server (`dpdk/server/ParameterServer.cc`)

The receive thread with one core (`PS_RX_RING = 1`) and `PS_WORKERS = 1`:
one reply frame leaves, which the switch multicasts to the workers. The
arrays of `ParameterServer.h:66-72` are functions of the 16-bit slot index.
`n` is `NUM_WORKER` of the server's build.

`handle_slot` / `handle_reply`: the server is a bank of independent
aggregation slots (`AggSlot`) with wrapping addition, and replies exactly
when the slot of the packet completes.
-/
namespace Inca.L2.ParameterServer
open Inca.L1.DpdkPkt Inca.L2.AggSlot

/-- mirrors byteps/byteps/common/dpdk/server/ParameterServer.h:66-72 -/
structure Ps where
  roundNumbers : BitVec 16 → BitVec 32
  bitmap : BitVec 16 → BitVec 32
  normInfo : BitVec 16 → BitVec 32
  receiveCount : BitVec 16 → BitVec 8
  dataSlots : Nat → BitVec 16 → BitVec 32
  shouldShutdown : Bool

/-- Globals start zeroed. -/
def Ps.init : Ps := ⟨fun _ => 0, fun _ => 0, fun _ => 0, fun _ => 0, fun _ _ => 0, false⟩

/-- mirrors byteps/byteps/common/dpdk/server/ParameterServer.h:87-110 -/
def assembleReplyP4mlHdrs (workerId : Nat) (numWorker : BitVec 8) (roundNum : BitVec 32)
    (data : Nat → Word) (maxNorm : BitVec 32) (agtrIndex : BitVec 16) : P4mlhdr where
  bitmap := 1#32 <<< workerId
  numWorker := numWorker
  agtr := agtrIndex
  roundNum := roundNum
  typeAndIndex := 0
  maxInfo := 0
  normInfo := maxNorm
  recircTimes := 7
  vector := leByte data

/-- mirrors byteps/byteps/common/dpdk/server/ParameterServer.cc:197-280 -/
def broadcastPacket (n : Nat) (st : Ps) (msg : TestMessage) : Frame where
  etherType := 0x0d00#16
  msg :=
    { cmd := msg.cmd
      key := msg.key
      len := msg.len
      -- left unwritten in a reply, and read by no one
      shutdown := false
      p4mlHdrs := assembleReplyP4mlHdrs 0 (BitVec.ofNat 8 n) msg.p4mlHdrs.roundNum
        (fun i => st.dataSlots i msg.p4mlHdrs.agtr) (st.normInfo msg.p4mlHdrs.agtr)
        msg.p4mlHdrs.agtr }

/-- mirrors byteps/byteps/common/dpdk/server/ParameterServer.cc:420-431; the host is
little-endian, so `vector[i]` is `leWord`. -/
def processData (st : Ps) (msg : TestMessage) : Ps :=
  let agtrIdx := msg.p4mlHdrs.agtr
  let entry := leWord msg.p4mlHdrs.vector
  if st.receiveCount agtrIdx = 1#8 then
    { st with dataSlots := fun i => if i < MAX_ENTRIES_PER_PACKET then
        Function.update (st.dataSlots i) agtrIdx (entry i) else st.dataSlots i }
  else
    { st with dataSlots := fun i => if i < MAX_ENTRIES_PER_PACKET then
        Function.update (st.dataSlots i) agtrIdx (st.dataSlots i agtrIdx + entry i)
        else st.dataSlots i }

/-- mirrors byteps/byteps/common/dpdk/server/ParameterServer.cc:567-583 -/
def checkRoundNum (st : Ps) (h : P4mlhdr) : Ps :=
  if st.roundNumbers h.agtr < h.roundNum then
    { st with
      roundNumbers := Function.update st.roundNumbers h.agtr h.roundNum
      receiveCount := Function.update st.receiveCount h.agtr 1
      normInfo := Function.update st.normInfo h.agtr h.normInfo }
  else
    { st with
      receiveCount := Function.update st.receiveCount h.agtr
        (if st.receiveCount h.agtr = h.numWorker then 1 else st.receiveCount h.agtr + 1)
      normInfo := if st.normInfo h.agtr < h.normInfo then
        Function.update st.normInfo h.agtr h.normInfo else st.normInfo }

/-- mirrors byteps/byteps/common/dpdk/server/ParameterServer.cc:567-596 -/
def aggregate (st : Ps) (msg : TestMessage) : Ps :=
  let st := checkRoundNum st msg.p4mlHdrs
  if msg.cmd = TENSOR_COMM then processData st msg else st

/-- mirrors byteps/byteps/common/dpdk/server/ParameterServer.cc:559-616 -/
def handle (n : Nat) (st : Ps) (msg : TestMessage) : Ps × Option Frame :=
  let h := msg.p4mlHdrs
  if h.roundNum < st.roundNumbers h.agtr then (st, none)
  else
    let st := aggregate st msg
    if st.receiveCount h.agtr = h.numWorker then
      let st := { st with bitmap := Function.update st.bitmap h.agtr 0 }
      (st, some (broadcastPacket n st msg))
    else
      ({ st with bitmap := Function.update st.bitmap h.agtr (st.bitmap h.agtr ||| h.bitmap) }, none)

/-- The commands and the Ethernet type the receive thread does not drop. -/
def accepts (f : Frame) : Prop :=
  f.msg.shutdown = false ∧
  (f.msg.cmd = TENSOR_COMM ∨ f.msg.cmd = TENSOR_NORM ∨ f.msg.cmd = TENSOR_INIT) ∧
  f.etherType = 0x0c00#16

instance (f : Frame) : Decidable (accepts f) := inferInstanceAs (Decidable (_ ∧ _))

/-- mirrors byteps/byteps/common/dpdk/server/ParameterServer.cc:526-617, one received packet -/
def rxThread (n : Nat) (st : Ps) (f : Frame) : Ps × Option Frame :=
  if f.msg.shutdown then ({ st with shouldShutdown := true }, none)
  else if (f.msg.cmd ≠ TENSOR_COMM ∧ f.msg.cmd ≠ TENSOR_NORM ∧ f.msg.cmd ≠ TENSOR_INIT) ∨
      f.etherType ≠ 0x0c00#16 then (st, none)
  else handle n st f.msg

theorem rxThread_eq (n : Nat) (st : Ps) {f : Frame} (h : accepts f) :
    rxThread n st f = handle n st f.msg := by
  obtain ⟨h1, h2, h3⟩ := h
  unfold rxThread
  rw [h1, if_neg (by simp), if_neg]
  simp only [not_or, not_and_or, not_not]
  exact ⟨h2, h3⟩

/-! ## Refinement of the aggregation slot -/

def Ps.slot (st : Ps) (a : BitVec 16) : Slot where
  roundNum := st.roundNumbers a
  receiveCount := st.receiveCount a
  bitmap := st.bitmap a
  normInfo := st.normInfo a
  data i := st.dataSlots i a

/-- What a slot reads of a message. -/
def pkt (msg : TestMessage) : Pkt where
  roundNum := msg.p4mlHdrs.roundNum
  numWorker := msg.p4mlHdrs.numWorker
  bitmap := msg.p4mlHdrs.bitmap
  normInfo := msg.p4mlHdrs.normInfo
  grad := msg.cmd = TENSOR_COMM
  last := true
  words := leWord msg.p4mlHdrs.vector

/-- An accepted header updates round, count and norm of its slot, and no other slot. -/
theorem checkRoundNum_slot (st : Ps) (msg : TestMessage) (a : BitVec 16)
    (hr : st.roundNumbers msg.p4mlHdrs.agtr ≤ msg.p4mlHdrs.roundNum) :
    (checkRoundNum st msg.p4mlHdrs).slot a =
      if a = msg.p4mlHdrs.agtr then
        { (st.slot a).accept MAX_ENTRIES_PER_PACKET (· + ·) (pkt msg) with
          bitmap := st.bitmap a, data := (st.slot a).data }
      else st.slot a := by
  unfold checkRoundNum Slot.accept Slot.nextCount
  simp only [Ps.slot, pkt]
  by_cases ha : a = msg.p4mlHdrs.agtr
  · subst ha
    split
    · simp_all
    · have he := BitVec.le_antisymm hr (BitVec.not_lt.mp ‹_›)
      simp only [he, Function.update_self, BitVec.lt_irrefl, false_or, if_true, Slot.mk.injEq,
        true_and, and_true]
      refine ⟨by split <;> rfl, by split <;> simp⟩
  · split
    · simp [ha]
    · split <;> simp [ha]

theorem processData_slot (st : Ps) (msg : TestMessage) (a : BitVec 16) :
    (processData st msg).slot a =
      { st.slot a with data := fun i =>
          if a = msg.p4mlHdrs.agtr ∧ i < MAX_ENTRIES_PER_PACKET then
            if st.receiveCount a = 1#8 then (pkt msg).words i
            else st.dataSlots i a + (pkt msg).words i
          else st.dataSlots i a } := by
  unfold processData
  by_cases ha : a = msg.p4mlHdrs.agtr
  · subst ha
    by_cases hc : st.receiveCount msg.p4mlHdrs.agtr = 1#8 <;>
      simp only [hc, if_true, if_false, true_and, Ps.slot, pkt, Slot.mk.injEq] <;>
      (funext i; split <;> simp)
  · by_cases hc : st.receiveCount msg.p4mlHdrs.agtr = 1#8 <;>
      simp only [hc, ha, if_true, if_false, false_and, true_and, Ps.slot, Slot.mk.injEq] <;>
      (funext i; split <;> simp [ha])

theorem aggregate_slot (st : Ps) (msg : TestMessage) (a : BitVec 16)
    (hr : st.roundNumbers msg.p4mlHdrs.agtr ≤ msg.p4mlHdrs.roundNum) :
    (aggregate st msg).slot a =
      if a = msg.p4mlHdrs.agtr then
        { (st.slot a).accept MAX_ENTRIES_PER_PACKET (· + ·) (pkt msg) with bitmap := st.bitmap a }
      else st.slot a := by
  have hck := checkRoundNum_slot st msg a hr
  unfold aggregate
  generalize checkRoundNum st msg.p4mlHdrs = t at hck ⊢
  have hcount : t.receiveCount a = (t.slot a).receiveCount := rfl
  have hdata : ∀ i, t.dataSlots i a = (t.slot a).data i := fun _ => rfl
  by_cases hcmd : msg.cmd = TENSOR_COMM
  · have hg : (pkt msg).grad = true := by simp [pkt, hcmd]
    simp only [hcmd, if_true, processData_slot, hcount, hdata, hck]
    split
    · simp [*, Slot.accept, Slot.combine_grad]
    · simp [*]
  · have hg : (pkt msg).grad = false := by simp [pkt, hcmd]
    simp only [hcmd, if_false, hck]
    split
    · simp [Slot.accept, Slot.combine_not_grad, hg]
    · rfl

theorem slot_setBitmap (st : Ps) (b a : BitVec 16) (v : BitVec 32) :
    ({ st with bitmap := Function.update st.bitmap b v } : Ps).slot a =
      if a = b then { st.slot a with bitmap := v } else st.slot a := by
  split
  · subst a; simp [Ps.slot]
  · simp [Ps.slot, *]

theorem aggregate_receiveCount (st : Ps) (msg : TestMessage)
    (hr : st.roundNumbers msg.p4mlHdrs.agtr ≤ msg.p4mlHdrs.roundNum) :
    (aggregate st msg).receiveCount msg.p4mlHdrs.agtr =
      (st.slot msg.p4mlHdrs.agtr).nextCount (pkt msg) := by
  have h := congrArg Slot.receiveCount (aggregate_slot st msg msg.p4mlHdrs.agtr hr)
  rwa [if_pos rfl] at h

/-- **Refinement.** A message makes one `AggSlot` step in its slot and leaves every other
slot alone. -/
theorem handle_slot (n : Nat) (st : Ps) (msg : TestMessage) (a : BitVec 16) :
    (handle n st msg).1.slot a =
      if a = msg.p4mlHdrs.agtr then (st.slot a).step MAX_ENTRIES_PER_PACKET (· + ·) (pkt msg)
      else st.slot a := by
  by_cases hr : msg.p4mlHdrs.roundNum < st.roundNumbers msg.p4mlHdrs.agtr
  · simp only [handle, hr, if_true]
    split
    · subst a; exact (if_pos hr).symm
    · rfl
  · have hag := aggregate_slot st msg a (BitVec.not_lt.mp hr)
    have hbm := congrArg Slot.bitmap hag
    have hc := aggregate_receiveCount st msg (BitVec.not_lt.mp hr)
    simp only [handle, hr, if_false, hc]
    by_cases ha : a = msg.p4mlHdrs.agtr
    · subst ha
      simp only [if_true, Ps.slot] at hbm
      rw [if_pos rfl, Slot.step_of_le _ _ (BitVec.not_lt.mp hr)]
      split <;> simp only [slot_setBitmap, if_true, hag, hbm] <;> simp_all [Slot.accept, pkt, Ps.slot]
    · rw [if_neg ha] at hag ⊢
      split <;> simp only [slot_setBitmap, ha, if_false, hag]

/-- How the server treats a message: stale, data overwritten or data added
(`receive_count == 1` in `process_data`). -/
def classOf (st : Ps) (msg : TestMessage) : PktClass :=
  if msg.p4mlHdrs.roundNum < st.roundNumbers msg.p4mlHdrs.agtr then .stale
  else if (checkRoundNum st msg.p4mlHdrs).receiveCount msg.p4mlHdrs.agtr = 1#8 then .first
  else .later

theorem classOf_eq (st : Ps) (msg : TestMessage) :
    classOf st msg = (st.slot msg.p4mlHdrs.agtr).classify (pkt msg) := by
  unfold classOf
  by_cases hr : msg.p4mlHdrs.roundNum < st.roundNumbers msg.p4mlHdrs.agtr
  · rw [if_pos hr, (Slot.classify_stale_iff _ _).mpr hr]
  · have hc := congrArg Slot.receiveCount
      (checkRoundNum_slot st msg msg.p4mlHdrs.agtr (BitVec.not_lt.mp hr))
    rw [if_pos rfl] at hc
    rw [if_neg hr, Slot.classify_of_le (BitVec.not_lt.mp hr)]
    exact if_congr (Eq.congr_left hc) rfl rfl

/-- The server answers exactly the messages that complete their slot. -/
theorem handle_reply (n : Nat) (st : Ps) (msg : TestMessage) :
    (handle n st msg).2 =
      if (st.slot msg.p4mlHdrs.agtr).Completes (pkt msg) then
        some (broadcastPacket n (handle n st msg).1 msg)
      else none := by
  have hst := Slot.classify_stale_iff (st.slot msg.p4mlHdrs.agtr) (pkt msg)
  by_cases hr : msg.p4mlHdrs.roundNum < st.roundNumbers msg.p4mlHdrs.agtr
  · rw [if_neg (fun h => h.1 (hst.mpr hr))]
    simp [handle, hr]
  · have hc := aggregate_receiveCount st msg (BitVec.not_lt.mp hr)
    simp only [handle, hr, if_false, hc]
    by_cases hn : (st.slot msg.p4mlHdrs.agtr).nextCount (pkt msg) = msg.p4mlHdrs.numWorker
    · rw [if_pos hn, if_pos ⟨fun h => hr (hst.mp h), rfl, hn⟩]
    · rw [if_neg hn, if_neg (fun h => hn h.2.2)]

/-! ## A stream of packets -/

def serve (n : Nat) (st : Ps) (fs : List Frame) : Ps :=
  fs.foldl (fun st f => (rxThread n st f).1) st

@[simp] theorem serve_append (n : Nat) (st : Ps) (fs : List Frame) (f : Frame) :
    serve n st (fs ++ [f]) = (rxThread n (serve n st fs) f).1 := by simp [serve]

/-- Packets of one slot run the `AggSlot` of that slot. -/
theorem serve_slot (n : Nat) (st : Ps) {a : BitVec 16} (fs : List Frame)
    (h : ∀ f ∈ fs, accepts f ∧ f.msg.p4mlHdrs.agtr = a) :
    (serve n st fs).slot a =
      (st.slot a).run MAX_ENTRIES_PER_PACKET (· + ·) (fs.map fun f => pkt f.msg) := by
  induction fs generalizing st with
  | nil => rfl
  | cons f fs ih =>
    obtain ⟨hf, rfl⟩ := h f (by simp)
    have hs := handle_slot n st f.msg f.msg.p4mlHdrs.agtr
    rw [if_pos rfl, ← rxThread_eq n st hf] at hs
    have := ih (rxThread n st f).1 fun x hx => h x (by simp [hx])
    rwa [hs] at this

end Inca.L2.ParameterServer
