import Inca.L2Machine.ParameterServer
import Inca.L2Machine.Switch

/-!
# Norm packets at an aggregator

What the workers' norm exchange needs of an aggregator, and that both have
it. A norm packet (`assemble_norm_pkt`) has `packet_type = 1` and starts on
its last pass (`recirc_times = 3`), so the switch passes it once and leaves
its vector alone; the software parameter server handles it like any other
packet but adds no data.

A frame keeps the fields of `struct p4mlhdr` that both builds have;
`swHeader` and `swFrame` are its two ends at the switch.

* `Aggregates`: a norm packet that is not stale makes one `AggSlot` step, and
  is answered to everybody, with the slot's norm, exactly when it completes
  the round.
* `server_aggregates`, `switch_aggregates`.
-/
namespace Inca.L2.NormAgg
open Inca.L1.DpdkPkt Inca.L1.P4 Inca.L2.AggSlot Inca.L2.ParameterServer Inca.L2.Switch

/-- What becomes of a packet: nothing, a copy for every worker, or one copy to some port. -/
inductive Out
  | drop
  | all (f : Frame)
  | port (f : Frame)

structure Aggregator (A : Type) where
  init : A
  recv : A → Frame → A × Out

/-! ## The two aggregators -/

def server (n : Nat) : Aggregator Ps where
  init := .init
  recv st f :=
    let r := rxThread n st f
    (r.1, match r.2 with
      | some g => .all g
      | none => .drop)

/-- The headers of a frame, as the switch parses them. -/
def swHeader (dst src : BitVec 48) (f : Frame) : SwitchHeader :=
  let h := f.msg.p4mlHdrs
  if f.etherType = 0x0a00#16 then
    { ethernet := ⟨dst, src, f.etherType⟩
      p4ml := some
        { bitmap := h.bitmap
          numWorker := h.numWorker
          roundNum := h.roundNum
          maxInfo := h.maxInfo
          normInfo := h.normInfo
          packetType := h.typeAndIndex.extractLsb' 7 1
          dataIndex := h.typeAndIndex.extractLsb' 6 1
          pad := h.typeAndIndex.extractLsb' 0 6
          recircTime := h.recircTimes
          pad1 := 0
          ingressGlobal := 0
          pad2 := 0
          egressGlobal := 0 }
      agtrIndex := some h.agtr
      entries := some ((List.range ENTRY_NUM).map (beWord h.vector)) }
  else { ethernet := ⟨dst, src, f.etherType⟩ }

/-- The frame that leaves the switch with the headers `hdr`. -/
def swFrame (f : Frame) (hdr : SwitchHeader) : Frame :=
  match hdr.p4ml with
  | none => f
  | some p =>
    { f with msg := { f.msg with p4mlHdrs :=
        { bitmap := p.bitmap
          numWorker := p.numWorker
          roundNum := p.roundNum
          maxInfo := p.maxInfo
          normInfo := p.normInfo
          typeAndIndex := p.packetType ++ p.dataIndex ++ p.pad
          recircTimes := p.recircTime
          agtr := hdr.agtrIndex.getD 0
          vector := fun j => if j < 4 * ENTRY_NUM then beByte ((hdr.entries.getD []).getD · 0) j
            else f.msg.p4mlHdrs.vector j } } }

def switch (tbl : Tables) (dst src : BitVec 48) : Aggregator Regs where
  init := .init
  recv regs f :=
    let r := switchIngress tbl 0 regs (swHeader dst src f)
    (r.1, if r.2.2.mcastGrpA = 1 then .all (swFrame f r.2.1)
      else if r.2.2.dropCtl = 1 then .drop else .port (swFrame f r.2.1))

/-! ## What they have in common -/

/-- A norm packet of a worker of the build `sw`. -/
structure IsNormFrame (sw : Bool) (f : Frame) : Prop where
  etherType : f.etherType = if sw then 0x0c00#16 else 0x0a00#16
  cmd : f.msg.cmd = TENSOR_NORM
  shutdown : f.msg.shutdown = false
  typeAndIndex : f.msg.p4mlHdrs.typeAndIndex = 0x80#8
  recircTimes : f.msg.p4mlHdrs.recircTimes = 3#8

/-- `g` answers `f` with the norm `norm`. -/
structure IsReply (sw : Bool) (f : Frame) (norm : BitVec 32) (g : Frame) : Prop where
  etherType : g.etherType = if sw then 0x0d00#16 else 0x0a00#16
  key : g.msg.key = f.msg.key
  cmd : g.msg.cmd = f.msg.cmd
  agtr : g.msg.p4mlHdrs.agtr = f.msg.p4mlHdrs.agtr
  roundNum : g.msg.p4mlHdrs.roundNum = f.msg.p4mlHdrs.roundNum
  normInfo : g.msg.p4mlHdrs.normInfo = norm

/-- What `agg` does with a norm packet of `n` workers that is not stale. -/
structure Aggregates {A : Type} (sw : Bool) (agg : Aggregator A) (slot : A → BitVec 16 → Slot) : Prop where
  init : ∀ a, (slot agg.init a).roundNum = 0 ∧ (slot agg.init a).receiveCount = 0 ∧
    (slot agg.init a).normInfo = 0
  other : ∀ st f, IsNormFrame sw f → ∀ a, a ≠ f.msg.p4mlHdrs.agtr → slot (agg.recv st f).1 a = slot st a
  own : ∀ st f, IsNormFrame sw f → ∀ n, f.msg.p4mlHdrs.numWorker = BitVec.ofNat 8 n →
    (slot st f.msg.p4mlHdrs.agtr).roundNum ≤ f.msg.p4mlHdrs.roundNum →
    ∃ m add p, Slot.IsNorm p f.msg.p4mlHdrs.roundNum n f.msg.p4mlHdrs.normInfo ∧
      slot (agg.recv st f).1 f.msg.p4mlHdrs.agtr = (slot st f.msg.p4mlHdrs.agtr).step m add p ∧
      if (slot st f.msg.p4mlHdrs.agtr).Completes p then
        ∃ g, (agg.recv st f).2 = .all g ∧
          IsReply sw f (slot (agg.recv st f).1 f.msg.p4mlHdrs.agtr).normInfo g
      else (agg.recv st f).2 = .drop

theorem IsNormFrame.accepted {f : Frame} (h : IsNormFrame true f) : accepts f :=
  ⟨h.shutdown, .inr (.inl h.cmd), h.etherType⟩

theorem server_aggregates (n : Nat) : Aggregates true (server n) Ps.slot where
  init _ := ⟨rfl, rfl, rfl⟩
  other st f hf a ha := by
    show (rxThread n st f).1.slot a = _
    rw [rxThread_eq n st hf.accepted, handle_slot, if_neg ha]
  own st f hf k hk _ := by
    have hs := handle_slot n st f.msg f.msg.p4mlHdrs.agtr
    have hr := handle_reply n st f.msg
    rw [if_pos rfl] at hs
    simp only [server, rxThread_eq n st hf.accepted]
    refine ⟨MAX_ENTRIES_PER_PACKET, (· + ·), ParameterServer.pkt f.msg, ⟨rfl, hk, rfl, rfl⟩, hs, ?_⟩
    split
    · next hc =>
      rw [if_pos hc] at hr
      rw [hr]
      exact ⟨_, rfl, rfl, rfl, rfl, rfl, rfl, rfl⟩
    · next hc =>
      rw [if_neg hc] at hr
      rw [hr]

/-- The header a norm frame has at the switch. -/
def normP4ml (h : P4mlhdr) : P4ml :=
  ⟨h.bitmap, h.numWorker, h.roundNum, h.maxInfo, h.normInfo, 1, 0, 0, 3, 0, 0, 0, 0⟩

section Switch
variable (tbl : Tables) (dst src : BitVec 48) (regs : Regs) {f : Frame} (hf : IsNormFrame false f)
include hf

theorem swHeader_norm : swHeader dst src f =
    dpdkHeader ⟨dst, src, 0x0a00#16⟩ (normP4ml f.msg.p4mlHdrs) f.msg.p4mlHdrs.agtr
      ((List.range ENTRY_NUM).map (beWord f.msg.p4mlHdrs.vector)) := by
  have ht : f.etherType = 0x0a00#16 := hf.etherType
  simp only [swHeader, ht, if_true, hf.typeAndIndex, hf.recircTimes, normP4ml]
  rfl

/-- One pass of a norm frame is one call of the control. -/
theorem switch_recv : (switch tbl dst src).recv regs f =
    let q := appIdSeq tbl dst regs (normP4ml f.msg.p4mlHdrs)
      ((List.range ENTRY_NUM).map (beWord f.msg.p4mlHdrs.vector)) f.msg.p4mlHdrs.agtr
    let g := swFrame f (dpdkHeader ⟨dst, src, 0x0a00#16⟩ q.p4ml q.agtr q.entries)
    (q.regs, if q.md.mcastGrpA = 1 then .all g else if q.md.dropCtl = 1 then .drop else .port g) := by
  have h3 : (normP4ml f.msg.p4mlHdrs).recircTime ≠ 0#8 := by simp [normP4ml]
  simp only [switch, swHeader_norm dst src hf, dpdkHeader, switchIngress, h3, if_false, Option.getD_some]

end Switch

theorem switch_aggregates (tbl : Tables) (dst src : BitVec 48) :
    Aggregates false (switch tbl dst src) Regs.slot where
  init _ := ⟨rfl, rfl, rfl⟩
  other regs f hf a ha := by
    rw [switch_recv tbl dst src regs hf]
    exact (appIdSeq_slot tbl dst (by simp) a).trans (if_neg ha)
  own regs f hf n hn hle := by
    have hl : ((List.range ENTRY_NUM).map (beWord f.msg.p4mlHdrs.vector)).length = ENTRY_NUM := by simp
    rw [switch_recv tbl dst src regs hf]
    generalize (List.range ENTRY_NUM).map (beWord f.msg.p4mlHdrs.vector) = es at hl ⊢
    have hle' : regs.roundNumbers f.msg.p4mlHdrs.agtr ≤ (normP4ml f.msg.p4mlHdrs).roundNum := hle
    have hs : (appIdSeq tbl dst regs (normP4ml f.msg.p4mlHdrs) es f.msg.p4mlHdrs.agtr).regs.slot
        f.msg.p4mlHdrs.agtr = _ := (appIdSeq_slot tbl dst hl _).trans (if_pos rfl)
    obtain ⟨hagtr, ⟨b, hp4ml⟩, hdrop⟩ := appIdSeq_lastPass tbl dst es hle' rfl
    refine ⟨_, _, _, ⟨rfl, hn, rfl, rfl⟩, hs, ?_⟩
    by_cases hc : (regs.slot f.msg.p4mlHdrs.agtr).Completes (Switch.pkt (normP4ml f.msg.p4mlHdrs) es)
    · rw [if_pos hc]
      have hm := (appIdSeq_broadcast tbl dst regs (normP4ml f.msg.p4mlHdrs) es f.msg.p4mlHdrs.agtr).mpr hc
      refine ⟨_, if_pos hm, hf.etherType, rfl, rfl, ?_, ?_, ?_⟩
      · simp only [swFrame, dpdkHeader, hagtr, Option.getD_some]
      · simp only [swFrame, dpdkHeader, hp4ml]; rfl
      · rw [hs, Slot.step_of_le _ _ (p := Switch.pkt (normP4ml f.msg.p4mlHdrs) es) hle]
        simp only [swFrame, dpdkHeader, hp4ml]; rfl
    · rw [if_neg hc]
      have hm := (appIdSeq_broadcast tbl dst regs (normP4ml f.msg.p4mlHdrs) es f.msg.p4mlHdrs.agtr).not.mpr hc
      simp only [hm, if_false, hdrop hm, if_true]

end Inca.L2.NormAgg
