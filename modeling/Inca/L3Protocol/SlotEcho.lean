import Inca.L1Encoding.DpdkLayout
import Inca.L3Protocol.Forward

/-!
# The slot a returned packet is taken for (switch build)

Without `SW_PS` a worker addresses the switch by register index: four
indices for a gradient slot, one for a norm slot. The packet comes back
with the index of the pass on which it left the switch, and `RxThread`
computes its slot from command, key and index again.

The switch sends a packet back on its last pass (broadcast), or on any pass
that finds the round stale. The formula `(agtr - 3) / 4` is made for the
index of the last pass.

* `sentBack_frame`: whatever the registers hold at each pass, a packet
  leaves with its command and key, and with an index as far behind the one
  it came with as its `recirc_time` is.
* `slot_echo_iff`: for norms `RxThread` finds the slot. For gradients it does
  if the packet left on its last pass or the slot is 0; otherwise it takes
  the packet for one of the slot before. For `TENSOR_INIT` it does not set
  `agtr_index` at all.
* `echo_counterexample`: a gradient packet that is stale on its first pass.
-/
namespace Inca.L3.SlotEcho
open Inca.L1.DpdkPkt Inca.L1.DpdkLayout Inca.L1.P4 Inca.L2.Switch Inca.L3.Recirc Inca.L3.Forward

/-! ## Requests -/

inductive Command
  | comm
  | init
  | norm
  deriving DecidableEq, Repr

def Command.toInt : Command → Int
  | .comm => TENSOR_COMM
  | .init => TENSOR_INIT
  | .norm => TENSOR_NORM

/-- What a worker's message is assembled from. -/
structure Request where
  command : Command
  useCompression : Bool
  payload : P4mlhdr
  workerId : Nat
  numWorker : BitVec 8
  roundNum : BitVec 32
  key : Nat
  data : Nat → Byte
  len : Nat
  norm : BitVec 32

/-- mirrors byteps/byteps/common/dpdk/client/dpdk_manager.cc:432-444 (`TxThread`) and 935-950
(`CommunicateNorm`) -/
def Request.msg (q : Request) : TestMessage where
  p4mlHdrs :=
    match q.command with
    | .norm => assembleNormPkt false q.payload q.workerId q.numWorker q.roundNum q.key q.norm
    | _ => (if q.useCompression then assembleDpdkP4mlHdrs else assembleNormalHdrs) false q.payload
        q.workerId q.numWorker q.roundNum (some q.data) q.key q.len
  key := q.key
  cmd := q.command.toInt
  len := q.len
  shutdown := false

/-- The slot whose round number the request carries.
mirrors byteps/byteps/common/dpdk/client/dpdk_manager.cc:862 and 937 -/
def Request.slot (q : Request) : Nat :=
  match q.command with
  | .norm => MAX_AGTR_COUNT + q.key % NORM_SLOT
  | _ => q.key % MAX_AGTR_COUNT

/-! ## RxThread -/

/-- The members of a received frame that `RxThread` looks at before it knows the slot. -/
structure RecvMsg where
  etherType : BitVec 16
  agtr : BitVec 16
  key : Nat
  cmd : Int

/-- The frame as a `TestMessage` behind an Ethernet header. -/
def recvMsg (b : List Byte) : Option RecvMsg := do
  let (eth, b) ← extractEthernet b
  let (_, b) ← extractP4ml b
  let (agtr, b) ← getBE 16 b
  let (_, b) ← extractRaw DPDK_ELEMENT_NUM b
  let (key, b) ← extractRaw 8 b
  let (cmd, _) ← extractRaw 4 b
  return ⟨eth.etherType, agtr, leNat key, (BitVec.ofNat 32 (leNat cmd)).toInt⟩

/-- `agtr_index` of a received frame, or `none` if it is dropped. The variable is declared without
a value; `uninit` is what it holds then.
mirrors byteps/byteps/common/dpdk/client/dpdk_manager.cc:258-290 (`SW_PS` undefined) -/
def rxAgtrIndex (uninit : BitVec 16) (b : List Byte) : Option (BitVec 16) := do
  let msg ← recvMsg b
  if msg.etherType ≠ 0x0a00#16 ∨ msg.cmd > TENSOR_INIT ∨ msg.key ≥ DPDK_KEY_TOTAL then none
  else
    let agtrIndex := uninit
    let agtrIndex := if msg.cmd = TENSOR_NORM then
      BitVec.ofNat 16 (MAX_AGTR_COUNT + msg.key % NORM_SLOT) else agtrIndex
    let agtrIndex := if msg.cmd = TENSOR_COMM then
      BitVec.ofInt 16 (((msg.agtr.toNat : Int) - (CIRC_TIME - 1)).tdiv CIRC_TIME) else agtrIndex
    return agtrIndex

/-! ## The switch -/

/-- A packet with the bytes `b` is sent back as `out`. Each of its passes may find any registers:
other packets go through the switch between them. -/
inductive SentBack (tbl : Tables) : List Byte → List Byte → Prop
  | again {b b' out : List Byte} {regs regs' : Regs} {tstamp : BitVec 48} {md : IntrMd} :
      Recirc.pass tbl tstamp regs b = some (regs', b', md) → Recirculates md →
      SentBack tbl b' out → SentBack tbl b out
  | leave {b b' out : List Byte} {regs regs' : Regs} {tstamp tstamp' : BitVec 48} {md : IntrMd} :
      Recirc.pass tbl tstamp regs b = some (regs', b', md) → ¬ Recirculates md → md.dropCtl = 0 →
      (if md.bypassEgress = 1 then some b' else egressPass tstamp' b') = some out →
      SentBack tbl b out

/-- The packet before pass `j`: at the `j`-th index from `base` on. -/
structure AtPass (base : BitVec 16) (j : Nat) (p : P4ml) (agtr : BitVec 16) (es : List Word) : Prop where
  recircTime : p.recircTime = BitVec.ofNat 8 j
  agtr : agtr = idx base j
  length : es.length = ENTRY_NUM

/-- A stale packet is sent back from where it is, with round 0. -/
theorem appIdSeq_stale_eq (tbl : Tables) (dst : BitVec 48) {regs : Regs} {p : P4ml} {agtr : BitVec 16}
    (hr : p.roundNum < regs.roundNumbers agtr) (es : List Word) :
    appIdSeq tbl dst regs p es agtr =
      ⟨(checkRoundNum regs p agtr).1, { p with roundNum := 0 }, (route tbl dst es).1, agtr,
        { matchRoundnum := (checkRoundNum regs p agtr).2 }, (route tbl dst es).2⟩ :=
  if_pos ((checkRoundNum_zero regs p agtr).mpr hr)

section Passes
variable {tbl : Tables} (ht : tbl.recircPort = recircEntries) {base : BitVec 16} {j : Nat} {p : P4ml}
  {agtr : BitVec 16} {es : List Word}
include ht

omit ht in
/-- A stale packet stays where it is. -/
theorem atPass_stale (h : AtPass base j p agtr es) (dst : BitVec 48) {regs : Regs}
    (hr : p.roundNum < regs.roundNumbers agtr) :
    let q := appIdSeq tbl dst regs p es agtr
    AtPass base j q.p4ml q.agtr q.entries ∧ q.md.bypassEgress = 0 := by
  intro q
  rw [show q = _ from appIdSeq_stale_eq tbl dst hr es]
  refine ⟨⟨h.recircTime, h.agtr, ?_⟩, ?_⟩ <;> unfold route <;> split
  · simp
  · exact h.length
  · rfl
  · rfl

omit ht in
theorem entries_length (h : AtPass base j p agtr es) (dst : BitVec 48) {regs : Regs}
    (hr : regs.roundNumbers agtr ≤ p.roundNum) :
    (appIdSeq tbl dst regs p es agtr).entries.length = ENTRY_NUM := by
  have he := (aggregate_entries hr h.length).1
  simp only [appIdSeq_accept tbl dst hr, finishPass]
  split
  · split <;> exact he
  · exact he

/-- Before its last pass an accepted packet goes on to the next index. -/
theorem atPass_next (h : AtPass base j p agtr es) (hj : j < 3) (dst : BitVec 48) {regs : Regs}
    (hr : regs.roundNumbers agtr ≤ p.roundNum) :
    let q := appIdSeq tbl dst regs p es agtr
    AtPass base (j + 1) q.p4ml q.agtr q.entries ∧ Recirculates q.md := by
  have h3 : p.recircTime ≠ 3#8 := by
    rw [h.recircTime]; intro he; have := congrArg BitVec.toNat he; simp at this; omega
  obtain ⟨h1, h2, h4⟩ := appIdSeq_recirc tbl dst es hr h3
  have hnext : p.recircTime + 1#8 = BitVec.ofNat 8 (j + 1) := by
    rw [h.recircTime]; apply BitVec.eq_of_toNat_eq; simp
  have hport : tbl.recircPort (p.recircTime + 1#8) = some RECIRC_PORT := by
    rw [ht, hnext, recircEntries, if_pos]; simp; omega
  refine ⟨⟨(congrArg P4ml.recircTime h2).trans hnext, ?_, entries_length h dst hr⟩, ?_⟩
  · exact h1.trans (by rw [h.agtr, idx_succ])
  · rw [h4]
    simp [recircPort, hport, Recirculates]

omit ht in
/-- On its last pass an accepted packet is broadcast or ends here. -/
theorem atPass_last (h : AtPass base 3 p agtr es) (dst : BitVec 48) {regs : Regs}
    (hr : regs.roundNumbers agtr ≤ p.roundNum) :
    let q := appIdSeq tbl dst regs p es agtr
    AtPass base 3 q.p4ml q.agtr q.entries ∧ q.md.bypassEgress = 0 := by
  have h3 : p.recircTime = 3#8 := h.recircTime
  obtain ⟨h1, ⟨b, h2⟩, -⟩ := appIdSeq_lastPass tbl dst es hr h3
  refine ⟨⟨(congrArg P4ml.recircTime h2).trans h3, h1.trans h.agtr, entries_length h dst hr⟩, ?_⟩
  simp only [appIdSeq_accept tbl dst hr, finishPass, h3, if_true]
  split <;> rfl

/-- **Step.** An accepted packet goes on to the next index, up to its last pass; a stale packet, and a
packet on its last pass, stays where it is. Only a packet that goes on bypasses egress. -/
theorem appIdSeq_atPass (h : AtPass base j p agtr es) (hj : j ≤ 3) (dst : BitVec 48) (regs : Regs) :
    let q := appIdSeq tbl dst regs p es agtr
    (∃ j' ≤ 3, AtPass base j' q.p4ml q.agtr q.entries) ∧
      (¬ Recirculates q.md → q.md.bypassEgress = 0) := by
  intro q
  by_cases hr : p.roundNum < regs.roundNumbers agtr
  · obtain ⟨hq, hb⟩ := atPass_stale h dst hr
    exact ⟨⟨j, hj, hq⟩, fun _ => hb⟩
  · have hr := BitVec.not_lt.mp hr
    rcases Nat.lt_or_eq_of_le hj with hj | rfl
    · obtain ⟨hq, hrec⟩ := atPass_next ht h hj dst hr
      exact ⟨⟨j + 1, hj, hq⟩, fun hn => absurd hrec hn⟩
    · obtain ⟨hq, hb⟩ := atPass_last h dst hr
      exact ⟨⟨3, Nat.le_refl 3, hq⟩, fun _ => hb⟩

omit ht in
/-- Egress writes its time stamp into the header and changes nothing else. -/
theorem egressPass_dpdk (ts : BitVec 48) {eth : Ethernet} (he : eth.etherType = 0x0a00#16) (p : P4ml)
    (a : BitVec 16) (es : List Word) (rest : List Byte) :
    egressPass ts (ingressDeparser (dpdkHeader eth p a es) rest) =
      some (ingressDeparser (dpdkHeader eth { p with egressGlobal := ts } a es) rest) := by
  have hparse : egressParser (ingressDeparser (dpdkHeader eth p a es) rest) =
      some ({ ethernet := eth, p4ml := some p }, putBE 16 a ++ putWords es ++ rest) := by
    simp [egressParser, parseEthernet, ingressDeparser, dpdkHeader, List.append_assoc,
      extractEthernet_emit, he, egressParseP4ml, extractP4ml_emit]
  rw [egressPass, hparse]
  simp [switchEgress, egressDeparser, ingressDeparser, dpdkHeader, List.append_assoc]

omit ht in
theorem AtPass.stamp (h : AtPass base j p agtr es) (ts : BitVec 48) :
    AtPass base j (if p.recircTime = 0#8 then { p with ingressGlobal := ts } else p) agtr es := by
  split
  · exact ⟨h.recircTime, h.agtr, h.length⟩
  · exact h

/-- **Run.** A packet that is sent back is still at an index of its own, with the pass in
`recirc_time`; what the parser does not see comes back as it was. -/
theorem sentBack_frame {eth : Ethernet} (he : eth.etherType = 0x0a00#16) {rest b out : List Byte}
    (hs : SentBack tbl b out) (hb : b = ingressDeparser (dpdkHeader eth p agtr es) rest)
    (h : AtPass base j p agtr es) (hj : j ≤ 3) :
    ∃ j' ≤ 3, ∃ p' agtr' es', AtPass base j' p' agtr' es' ∧
      out = ingressDeparser (dpdkHeader eth p' agtr' es') rest := by
  induction hs generalizing j p agtr es with
  | @again b b' out regs regs' ts md hp hrec hs ih =>
    subst hb
    rw [pass_dpdk tbl ts regs p agtr rest he h.length] at hp
    obtain ⟨-, rfl, -⟩ := Option.some.inj hp
    obtain ⟨⟨j', hj', h'⟩, -⟩ := appIdSeq_atPass ht (h.stamp ts) hj eth.dstAddr regs
    exact ih rfl h' hj'
  | @leave b b' out regs regs' ts ts' md hp hrec hdrop hout =>
    subst hb
    rw [pass_dpdk tbl ts regs p agtr rest he h.length] at hp
    obtain ⟨-, rfl, rfl⟩ := Option.some.inj hp
    obtain ⟨⟨j', hj', h'⟩, hby⟩ := appIdSeq_atPass ht (h.stamp ts) hj eth.dstAddr regs
    rw [if_neg (by rw [hby hrec]; decide), egressPass_dpdk ts' he] at hout
    refine ⟨j', hj', _, _, _, ?_, (Option.some.inj hout).symm⟩
    exact ⟨h'.recircTime, h'.agtr, h'.length⟩

end Passes

/-! ## What the worker makes of it -/

/-- Command and key come back in the bytes behind the vector, the index in the header. -/
theorem recvMsg_dpdk {eth : Ethernet} {p : P4ml} {agtr : BitVec 16} {es : List Word}
    (hl : es.length = ENTRY_NUM) (msg : TestMessage) (hk : msg.key < 2 ^ 64)
    (hc : (BitVec.ofInt 32 msg.cmd).toInt = msg.cmd) :
    recvMsg (ingressDeparser (dpdkHeader eth p agtr es) (unparsed msg)) =
      some ⟨eth.etherType, agtr, msg.key, msg.cmd⟩ := by
  let vec := putWords es ++
    (List.range' (4 * ENTRY_NUM) (DPDK_ELEMENT_NUM - 4 * ENTRY_NUM)).map msg.p4mlHdrs.vector
  have hbytes : ingressDeparser (dpdkHeader eth p agtr es) (unparsed msg) =
      emitEthernet eth ++ (emitP4ml p ++ (putBE 16 agtr ++ (vec ++
        (store 64 (BitVec.ofNat 64 msg.key) ++ (store 32 (BitVec.ofInt 32 msg.cmd) ++
          store 32 (BitVec.ofNat 32 msg.len)))))) := by
    simp only [vec, ingressDeparser, dpdkHeader, unparsed, tailBytes, emitOpt_some, emitOpt_none,
      List.append_nil, List.append_assoc]
  have hvec : vec.length = DPDK_ELEMENT_NUM := by
    simp only [vec, List.length_append, putWords_length, hl, List.length_map, List.length_range']
    rfl
  have hkey : leNat (store 64 (BitVec.ofNat 64 msg.key)) = msg.key := by
    rw [leNat_store (by decide), BitVec.toNat_ofNat, Nat.mod_eq_of_lt hk]
  have hcmd : (BitVec.ofNat 32 (leNat (store 32 (BitVec.ofInt 32 msg.cmd)))).toInt = msg.cmd := by
    rw [leNat_store (by decide), BitVec.ofNat_toNat, BitVec.setWidth_eq, hc]
  have h4 := extractRaw_append vec (store 64 (BitVec.ofNat 64 msg.key) ++
    (store 32 (BitVec.ofInt 32 msg.cmd) ++ store 32 (BitVec.ofNat 32 msg.len)))
  have h5 := extractRaw_append (store 64 (BitVec.ofNat 64 msg.key))
    (store 32 (BitVec.ofInt 32 msg.cmd) ++ store 32 (BitVec.ofNat 32 msg.len))
  have h6 := extractRaw_append (store 32 (BitVec.ofInt 32 msg.cmd)) (store 32 (BitVec.ofNat 32 msg.len))
  rw [hvec] at h4
  rw [store_length] at h5 h6
  rw [hbytes]
  simp only [recvMsg, Option.bind_eq_bind, extractEthernet_emit, extractP4ml_emit,
    getBE_putBE (show 8 ∣ 16 by decide), h4, h5, h6, Option.bind_some, hkey, hcmd, Option.pure_def]

/-- The packet left the switch on its last pass. -/
def OnLastPass (out : List Byte) : Prop :=
  ((ingressParser out).bind (·.1.p4ml)).map P4ml.recircTime = some 3#8

/-- When `RxThread` finds the slot of a request. -/
def Finds (q : Request) (uninit : BitVec 16) (out : List Byte) : Prop :=
  match q.command with
  | .norm => True
  | .comm => OnLastPass out ∨ q.slot = 0
  | .init => uninit = BitVec.ofNat 16 q.slot

/-- The formula for gradients, at pass `j` of slot `s`. It rounds towards zero. -/
theorem gradSlot_iff {s j : Nat} (hs : s < MAX_AGTR_COUNT) (hj : j ≤ 3) :
    BitVec.ofInt 16 ((((s * CIRC_TIME + j : Nat) : Int) - (CIRC_TIME - 1)).tdiv CIRC_TIME) =
      BitVec.ofNat 16 s ↔ j = 3 ∨ s = 0 := by
  have hs : s < 2500 := hs
  rcases Nat.eq_zero_or_pos s with rfl | hpos
  · obtain rfl | rfl | rfl | rfl : j = 0 ∨ j = 1 ∨ j = 2 ∨ j = 3 := by omega
    all_goals decide
  · have hsub : ((s * 4 + j : Nat) : Int) - (((4 : Nat) : Int) - 1) =
        ((s * 4 + j - 3 : Nat) : Int) := by omega
    rw [show CIRC_TIME = 4 from rfl, hsub, ← Int.ofNat_tdiv, BitVec.ofInt_natCast]
    rw [← BitVec.toNat_inj, BitVec.toNat_ofNat, BitVec.toNat_ofNat]
    omega

theorem idx_toNat {a j : Nat} (h : a + j < 2 ^ 16) : (idx (BitVec.ofNat 16 a) j).toNat = a + j := by
  rw [idx, BitVec.toNat_add, BitVec.toNat_ofNat, BitVec.toNat_ofNat]
  omega

/-- A gradient packet starts its passes at the first of its slot's indices. -/
theorem atPass_grad {q : Request} (hq : q.command ≠ .norm) :
    AtPass (BitVec.ofNat 16 (q.key % MAX_AGTR_COUNT * CIRC_TIME)) 0 (switchP4ml q.msg.p4mlHdrs)
      q.msg.p4mlHdrs.agtr ((List.range ENTRY_NUM).map (beWord q.msg.p4mlHdrs.vector)) := by
  obtain ⟨command, comp, payload, workerId, numWorker, roundNum, key, data, len, norm⟩ := q
  have hi : ∀ a, idx a 0 = a := fun a => BitVec.add_zero a
  refine ⟨?_, ?_, by simp⟩
  · cases command <;> cases comp <;> first | rfl | exact absurd rfl hq
  · rw [hi]
    cases command <;> cases comp <;> first | rfl | exact absurd rfl hq

/-- A norm packet makes its last pass only. -/
theorem atPass_norm {q : Request} (hq : q.command = .norm) :
    AtPass (q.msg.p4mlHdrs.agtr - 3#16) 3 (switchP4ml q.msg.p4mlHdrs) q.msg.p4mlHdrs.agtr
      ((List.range ENTRY_NUM).map (beWord q.msg.p4mlHdrs.vector)) := by
  refine ⟨?_, (BitVec.sub_add_cancel _ _).symm, by simp⟩
  simp only [Request.msg, hq, switchP4ml, assembleNormPkt]
  rfl

/-- `agtr_index` by command. -/
def indexOf (uninit : BitVec 16) (agtr : BitVec 16) (key : Nat) : Command → BitVec 16
  | .norm => BitVec.ofNat 16 (MAX_AGTR_COUNT + key % NORM_SLOT)
  | .comm => BitVec.ofInt 16 (((agtr.toNat : Int) - (CIRC_TIME - 1)).tdiv CIRC_TIME)
  | .init => uninit

theorem rxAgtrIndex_eq {out : List Byte} {a : BitVec 16} {key : Nat} {c : Command}
    (h : recvMsg out = some ⟨0x0a00#16, a, key, c.toInt⟩) (hk : key < DPDK_KEY_TOTAL)
    (uninit : BitVec 16) : rxAgtrIndex uninit out = some (indexOf uninit a key c) := by
  have hc : ¬ c.toInt > TENSOR_INIT := by cases c <;> decide
  rw [rxAgtrIndex, h, Option.bind_eq_bind, Option.bind_some, if_neg (by
    rintro (h | h | h); exacts [h rfl, hc h, Nat.not_le.mpr hk h])]
  cases c <;> rfl

/-- What the worker reads of a packet that was sent back. -/
theorem recvMsg_back {tbl : Tables} (ht : tbl.recircPort = recircEntries) {eth : Ethernet}
    (he : eth.etherType = 0x0a00#16) {q : Request} (hk : q.key < DPDK_KEY_TOTAL) {out : List Byte}
    (hs : SentBack tbl (frameBytes eth q.msg) out) {base : BitVec 16} {j : Nat}
    (h : AtPass base j (switchP4ml q.msg.p4mlHdrs) q.msg.p4mlHdrs.agtr
      ((List.range ENTRY_NUM).map (beWord q.msg.p4mlHdrs.vector))) (hj : j ≤ 3) :
    ∃ j' ≤ 3, recvMsg out = some ⟨0x0a00#16, idx base j', q.key, q.command.toInt⟩ ∧
      (OnLastPass out ↔ j' = 3) := by
  have hcmd : (BitVec.ofInt 32 q.msg.cmd).toInt = q.msg.cmd := by
    show (BitVec.ofInt 32 q.command.toInt).toInt = q.command.toInt
    cases q.command <;> decide
  obtain ⟨j', hj', p', agtr', es', h', rfl⟩ := sentBack_frame ht he hs (frameBytes_eq eth q.msg) h hj
  refine ⟨j', hj', ?_, ?_⟩
  · rw [recvMsg_dpdk h'.length q.msg (Nat.lt_trans hk (by decide)) hcmd, he, h'.agtr]
    rfl
  · rw [OnLastPass, ingressParser_deparse_p4ml eth p' agtr' es' _ he h'.length]
    simp only [Option.bind_some, dpdkHeader, Option.map_some, h'.recircTime, Option.some.injEq]
    rw [← BitVec.toNat_inj, BitVec.toNat_ofNat, BitVec.toNat_ofNat]
    omega

/-- **Slot echo.** However the switch sends a worker's packet back, `RxThread` takes it for one of
the slot the request was sent from if and only if `Finds`. -/
theorem slot_echo_iff {tbl : Tables} (ht : tbl.recircPort = recircEntries) {eth : Ethernet}
    (he : eth.etherType = 0x0a00#16) (q : Request) (hk : q.key < DPDK_KEY_TOTAL) {out : List Byte}
    (hs : SentBack tbl (frameBytes eth q.msg) out) (uninit : BitVec 16) :
    ∃ i, rxAgtrIndex uninit out = some i ∧ (i = BitVec.ofNat 16 q.slot ↔ Finds q uninit out) := by
  cases hq : q.command with
  | norm =>
    obtain ⟨j', -, hrecv, -⟩ := recvMsg_back ht he hk hs (atPass_norm hq) (by decide)
    refine ⟨_, rxAgtrIndex_eq hrecv hk uninit, ?_⟩
    simp only [Request.slot, Finds, hq, indexOf]
  | comm =>
    obtain ⟨j', hj', hrecv, hlast⟩ :=
      recvMsg_back ht he hk hs (atPass_grad (by rw [hq]; decide)) (by decide)
    have hslot : q.key % MAX_AGTR_COUNT < 2500 := Nat.mod_lt _ (by decide)
    refine ⟨_, rxAgtrIndex_eq hrecv hk uninit, ?_⟩
    simp only [Request.slot, Finds, hq, hlast, indexOf]
    have hfit : q.key % MAX_AGTR_COUNT * CIRC_TIME + j' < 2 ^ 16 := by
      rw [show CIRC_TIME = 4 from rfl]; omega
    rw [idx_toNat hfit]
    exact gradSlot_iff hslot hj'
  | init =>
    obtain ⟨j', -, hrecv, -⟩ :=
      recvMsg_back ht he hk hs (atPass_grad (by rw [hq]; decide)) (by decide)
    refine ⟨_, rxAgtrIndex_eq hrecv hk uninit, ?_⟩
    simp only [Request.slot, Finds, hq, indexOf]

/-- The tables as `setup_ports.py` leaves them. -/
def setupTables : Tables := ⟨fun _ => none, recircEntries, fun _ => none⟩

theorem pass_stale (tbl : Tables) (ts : BitVec 48) {regs : Regs} {eth : Ethernet}
    (he : eth.etherType = 0x0a00#16) {p : P4ml} {agtr : BitVec 16}
    (hr : p.roundNum < regs.roundNumbers agtr) {es : List Word} (hl : es.length = ENTRY_NUM)
    (rest : List Byte) :
    ∃ regs' p', Recirc.pass tbl ts regs (ingressDeparser (dpdkHeader eth p agtr es) rest) =
      some (regs', ingressDeparser (dpdkHeader eth p' agtr (route tbl eth.dstAddr es).1) rest,
        (route tbl eth.dstAddr es).2) := by
  have hround : (if p.recircTime = 0#8 then { p with ingressGlobal := ts } else p).roundNum <
      regs.roundNumbers agtr := by split <;> exact hr
  rw [pass_dpdk tbl ts regs p agtr rest he hl, appIdSeq_stale_eq tbl eth.dstAddr hround es]
  exact ⟨_, _, rfl⟩

/-- A packet that finds a newer round on its first pass comes back with its own index. -/
theorem sentBack_stale {eth : Ethernet} (he : eth.etherType = 0x0a00#16) (msg : TestMessage)
    (hr : msg.p4mlHdrs.roundNum < 0xffffffff#32) :
    ∃ p es, es.length = ENTRY_NUM ∧ SentBack setupTables (frameBytes eth msg)
      (ingressDeparser (dpdkHeader eth p msg.p4mlHdrs.agtr es) (unparsed msg)) := by
  have hl : ((List.range ENTRY_NUM).map (beWord msg.p4mlHdrs.vector)).length = ENTRY_NUM := by simp
  let regs : Regs := { Regs.init with roundNumbers := fun _ => 0xffffffff#32 }
  have hstale : (switchP4ml msg.p4mlHdrs).roundNum < regs.roundNumbers msg.p4mlHdrs.agtr := hr
  obtain ⟨regs', p, hpass⟩ := pass_stale setupTables 0 he hstale hl (unparsed msg)
  rw [← frameBytes_eq] at hpass
  refine ⟨{ p with egressGlobal := 0 }, _, hl, .leave hpass ?_ rfl (egressPass_dpdk 0 he _ _ _ _)⟩
  simp [route, setupTables, Recirculates]

/-- A norm with key 7 that comes back at once. -/
theorem slot_echo_norm :
    let q : Request := ⟨.norm, true, .zero, 0, 2#8, 1#32, 7, fun _ => 0, 0, 5⟩
    ∃ out, SentBack setupTables (frameBytes ⟨0, 0, 0x0a00#16⟩ q.msg) out ∧
      rxAgtrIndex 0 out = some 2507#16 := by
  intro q
  have heth : (⟨0, 0, 0x0a00#16⟩ : Ethernet).etherType = 0x0a00#16 := rfl
  obtain ⟨p, es, -, hs⟩ := sentBack_stale heth q.msg (by decide)
  obtain ⟨i, hi, hiff⟩ := slot_echo_iff rfl rfl q (by decide) hs 0
  refine ⟨_, hs, ?_⟩
  rw [hi, hiff.mpr trivial]
  rfl

/-- **Counterexample.** A gradient packet with key 1, sent from slot 1, is stale on its first pass.
It comes back with index 4, and `RxThread` takes it for one of slot 0. -/
theorem echo_counterexample :
    let q : Request := ⟨.comm, true, .zero, 0, 2#8, 1#32, 1, fun _ => 0, 1024, 0⟩
    q.slot = 1 ∧ ∃ out, SentBack setupTables (frameBytes ⟨0, 0, 0x0a00#16⟩ q.msg) out ∧
      ∀ uninit, rxAgtrIndex uninit out = some 0#16 := by
  intro q
  have heth : (⟨0, 0, 0x0a00#16⟩ : Ethernet).etherType = 0x0a00#16 := rfl
  obtain ⟨p, es, hl, hs⟩ := sentBack_stale heth q.msg (by decide)
  refine ⟨rfl, _, hs, fun uninit => ?_⟩
  rw [rxAgtrIndex_eq (c := .comm) (recvMsg_dpdk hl q.msg (by decide) (by decide)) (by decide) uninit]
  exact congrArg some (by decide : BitVec.ofInt 16 _ = 0#16)

end Inca.L3.SlotEcho
