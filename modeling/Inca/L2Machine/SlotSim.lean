import Inca.L2Machine.ParameterServer
import Inca.L2Machine.Switch

/-!
# The switch and the software parameter server run the same slot protocol

The two aggregators are fed the same stream: each packet reaches the server
as a frame and the switch as a `p4ml` packet on its last pass
(`recirc_time = 3`, so one pass each), with the same slot, round,
`num_worker`, bitmap and norm, all of them arbitrary. Their data words and
their command / packet type need not correspond.

`aggregators_agree`: from zeroed state the two stay in step over every
stream, and treat the next packet alike.
-/
namespace Inca.L2.SlotSim
open Inca.L1.DpdkPkt Inca.L1.P4 Inca.L2.AggSlot Inca.L2.ParameterServer Inca.L2.Switch

/-- One packet of the stream, as each aggregator gets it. -/
structure SameFields (f : Frame) (q : SwPkt) : Prop where
  accepted : accepts f
  lastPass : q.p4ml.recircTime = 3#8
  parsed : q.entries.length = ENTRY_NUM
  agtr : q.agtr = f.msg.p4mlHdrs.agtr
  roundNum : q.p4ml.roundNum = f.msg.p4mlHdrs.roundNum
  numWorker : q.p4ml.numWorker = f.msg.p4mlHdrs.numWorker
  bitmap : q.p4ml.bitmap = f.msg.p4mlHdrs.bitmap
  normInfo : q.p4ml.normInfo = f.msg.p4mlHdrs.normInfo

/-- The registers equal the arrays of the same names. -/
structure Agree (regs : Regs) (st : Ps) : Prop where
  roundNumbers : regs.roundNumbers = st.roundNumbers
  receiveCount : regs.receiveCount = st.receiveCount
  bitmap : regs.bitmap = st.bitmap
  normInfo : regs.normInfo = st.normInfo

def psRun (n : Nat) (fs : List Frame) : Ps := serve n Ps.init fs

def swRun (tbl : Tables) (qs : List SwPkt) : Regs := feed tbl Regs.init qs

theorem agree_iff_slots (regs : Regs) (st : Ps) :
    Agree regs st ↔ ∀ a, Slot.SameCtl (regs.slot a) (st.slot a) := by
  constructor
  · rintro ⟨h1, h2, h3, h4⟩ a
    exact ⟨congrFun h1 a, congrFun h2 a, congrFun h3 a, congrFun h4 a⟩
  · intro h
    exact ⟨funext fun a => (h a).roundNum, funext fun a => (h a).receiveCount,
      funext fun a => (h a).bitmap, funext fun a => (h a).normInfo⟩

theorem SameFields.samePkt {f : Frame} {q : SwPkt} (h : SameFields f q) :
    Slot.SamePkt (Switch.pkt q.p4ml q.entries) (ParameterServer.pkt f.msg) :=
  ⟨h.roundNum, h.numWorker, h.bitmap, h.normInfo, by simp [Switch.pkt, ParameterServer.pkt, h.lastPass]⟩

/-- **Step.** One packet keeps the two aggregators in step. -/
theorem Agree.step (tbl : Tables) (n : Nat) {regs : Regs} {st : Ps} {f : Frame} {q : SwPkt}
    (h : Agree regs st) (hf : SameFields f q) :
    Agree (q.pass tbl regs).regs (rxThread n st f).1 := by
  rw [agree_iff_slots] at h ⊢
  intro a
  rw [rxThread_eq n st hf.accepted, handle_slot, SwPkt.pass, appIdSeq_slot tbl q.dst hf.parsed,
    hf.agtr]
  split
  · subst a; exact (h _).step hf.samePkt
  · exact h a

/-- **Run.** Over every stream, from zeroed state. -/
theorem agree_run (tbl : Tables) (n : Nat) (xs : List (Frame × SwPkt))
    (h : ∀ x ∈ xs, SameFields x.1 x.2) :
    Agree (swRun tbl (xs.map Prod.snd)) (psRun n (xs.map Prod.fst)) := by
  induction xs using List.reverseRecOn with
  | nil => exact ⟨rfl, rfl, rfl, rfl⟩
  | append_singleton xs x ih =>
    have hx := h x (by simp)
    simpa [swRun, psRun] using (ih fun y hy => h y (by simp [hy])).step tbl n hx

theorem rxThread_data (n : Nat) (st : Ps) {f : Frame} (hf : accepts f) (hc : f.msg.cmd = TENSOR_COMM)
    {i : Nat} (hi : i < MAX_ENTRIES_PER_PACKET) :
    (rxThread n st f).1.dataSlots i f.msg.p4mlHdrs.agtr =
      (ParameterServer.classOf st f.msg).apply (· + ·) (st.dataSlots i f.msg.p4mlHdrs.agtr)
        (leWord f.msg.p4mlHdrs.vector i) := by
  have hg : (ParameterServer.pkt f.msg).grad = true := by simp [ParameterServer.pkt, hc]
  have hs := congrArg (Slot.data · i) (handle_slot n st f.msg f.msg.p4mlHdrs.agtr)
  rw [rxThread_eq n st hf, ParameterServer.classOf_eq]
  simp only [if_true, Slot.step_data _ _ hg hi] at hs
  exact hs

theorem pass_data (tbl : Tables) (regs : Regs) (q : SwPkt) (hl : q.entries.length = ENTRY_NUM)
    (hg : q.p4ml.packetType = 0#1) {i : Nat} (hi : i < ENTRY_NUM) :
    (q.pass tbl regs).regs.register i q.agtr =
      (Switch.classOf (q.pass tbl regs).mdata).apply noequ0WriteReadDataEntry
        (regs.register i q.agtr) (q.entries.getD i 0) := by
  have hg' : (Switch.pkt q.p4ml q.entries).grad = true := by simp [Switch.pkt, hg]
  have hs : (q.pass tbl regs).regs.slot q.agtr = _ := appIdSeq_slot tbl q.dst hl q.agtr
  replace hs := congrArg (Slot.data · i) hs
  rw [show Switch.classOf (q.pass tbl regs).mdata = _ from Switch.classOf_eq ..]
  simp only [if_true, Slot.step_data _ _ hg' hi] at hs
  exact hs

/-- **Same protocol.** After every stream the registers equal the arrays; the next packet is
classified alike, completes the round on both sides or on neither, changes nothing if it is
stale, and does to the data words of a gradient what its class says. -/
theorem aggregators_agree (tbl : Tables) (n : Nat) (xs : List (Frame × SwPkt))
    (h : ∀ x ∈ xs, SameFields x.1 x.2) (f : Frame) (q : SwPkt) (hf : SameFields f q) :
    let regs := swRun tbl (xs.map Prod.snd)
    let st := psRun n (xs.map Prod.fst)
    let p := q.pass tbl regs
    let r := rxThread n st f
    let c := ParameterServer.classOf st f.msg
    Agree regs st ∧
    Switch.classOf p.mdata = c ∧
    (p.md.mcastGrpA = 1 ↔ r.2.isSome) ∧
    (c = .stale → p.regs = regs ∧ r.1 = st) ∧
    (f.msg.cmd = TENSOR_COMM → ∀ i < MAX_ENTRIES_PER_PACKET,
      r.1.dataSlots i f.msg.p4mlHdrs.agtr =
        c.apply (· + ·) (st.dataSlots i f.msg.p4mlHdrs.agtr) (leWord f.msg.p4mlHdrs.vector i)) ∧
    (q.p4ml.packetType = 0#1 → ∀ i < ENTRY_NUM,
      p.regs.register i q.agtr =
        c.apply noequ0WriteReadDataEntry (regs.register i q.agtr) (q.entries.getD i 0)) := by
  intro regs st p r c
  have ha : Agree regs st := agree_run tbl n xs h
  have hs : Slot.SameCtl (regs.slot q.agtr) (st.slot f.msg.p4mlHdrs.agtr) :=
    hf.agtr ▸ (agree_iff_slots regs st).mp ha q.agtr
  have hc : Switch.classOf p.mdata = c := by
    rw [show c = _ from ParameterServer.classOf_eq st f.msg]
    exact (Switch.classOf_eq ..).trans (hs.classify hf.samePkt)
  have hr : r = handle n st f.msg := rxThread_eq n st hf.accepted
  refine ⟨ha, hc, ?_, fun hstale => ⟨?_, ?_⟩, fun hcmd i hi => ?_, fun hg i hi => ?_⟩
  · rw [hr, handle_reply]
    refine (appIdSeq_broadcast ..).trans ((hs.completes hf.samePkt).trans ?_)
    split <;> simp [*]
  · rw [← hc] at hstale
    have : (regs.slot q.agtr).classify (Switch.pkt q.p4ml q.entries) = .stale :=
      (Switch.classOf_eq ..).symm.trans hstale
    exact (appIdSeq_stale tbl q.dst regs q.p4ml q.entries q.agtr
      ((Slot.classify_stale_iff _ _).mp this)).1
  · have : (st.slot f.msg.p4mlHdrs.agtr).classify (ParameterServer.pkt f.msg) = .stale :=
      (ParameterServer.classOf_eq st f.msg).symm.trans hstale
    have hlt : f.msg.p4mlHdrs.roundNum < st.roundNumbers f.msg.p4mlHdrs.agtr :=
      (Slot.classify_stale_iff _ _).mp this
    rw [hr]; simp [handle, hlt]
  · exact rxThread_data n st hf.accepted hcmd hi
  · rw [← hc]; exact pass_data tbl regs q hf.parsed hg hi

/-- The packet with given control fields and no data, as each aggregator gets it. -/
def ctlPacket (agtr : BitVec 16) (roundNum : BitVec 32) (numWorker : BitVec 8)
    (bitmap normInfo : BitVec 32) : Frame × SwPkt :=
  (⟨0x0c00, ⟨⟨bitmap, numWorker, roundNum, 0, normInfo, 0, 0, agtr, fun _ => 0⟩, 0, TENSOR_COMM, 0,
    false⟩⟩,
   ⟨0, ⟨bitmap, numWorker, roundNum, 0, normInfo, 0, 0, 0, 3, 0, 0, 0, 0⟩,
    List.replicate ENTRY_NUM 0, agtr⟩)

theorem ctlPacket_same (agtr : BitVec 16) (roundNum : BitVec 32) (numWorker : BitVec 8)
    (bitmap normInfo : BitVec 32) :
    SameFields (ctlPacket agtr roundNum numWorker bitmap normInfo).1
      (ctlPacket agtr roundNum numWorker bitmap normInfo).2 :=
  ⟨⟨rfl, .inl rfl, rfl⟩, rfl, rfl, rfl, rfl, rfl, rfl, rfl⟩

/-- The second of two workers completes round 1 of slot 7 on both sides. -/
theorem aggregators_agree_two_workers :
    let tbl : Tables := ⟨fun _ => none, fun _ => none, fun _ => none⟩
    let x := ctlPacket 7 1 2 1 40
    let y := ctlPacket 7 1 2 2 30
    Agree (swRun tbl [x.2]) (psRun 2 [x.1]) ∧
    (y.2.pass tbl (swRun tbl [x.2])).md.mcastGrpA = 1 ∧
    (rxThread 2 (psRun 2 [x.1]) y.1).2.isSome := by
  intro tbl x y
  obtain ⟨h1, -, h3, -⟩ := aggregators_agree tbl 2 [x]
    (by simpa [x] using ctlPacket_same 7 1 2 1 40) y.1 y.2 (ctlPacket_same 7 1 2 2 30)
  have hb : (rxThread 2 (psRun 2 [x.1]) y.1).2.isSome := by decide
  exact ⟨h1, h3.mpr hb, hb⟩

end Inca.L2.SlotSim
