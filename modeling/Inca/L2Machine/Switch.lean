import Mathlib.Logic.Function.Basic
import Inca.Core.SatAdd
import Inca.L1Encoding.P4Headers
import Inca.L2Machine.AggSlot

/-!
# The switch's ingress control (`P4/atp.p4`, `P4/data.p4`, `P4/route.p4`, `P4/main.p4`)

Registers are functions of the 16-bit index; `register n` is the `first`
half of `register##n` (`second` is never read). One call of `appIdSeq` is one pass of a `p4ml`
packet through the control, one call of `switchIngress` one pass of any
packet.

The tables are filled by the control plane and are parameters: `route` and
`dmac` map a destination address to a port, `recircPort` maps the
recirculation count to a port.

* `appIdSeq_slot`: one pass makes one `AggSlot` step at the packet's index,
  with the guarded saturating addition `noequ0WriteReadDataEntry`, and
  touches no other index.
* `appIdSeq_entries`: a gradient packet leaves the pass with the register
  values of its slot.
-/
namespace Inca.L2.Switch
open Inca.L1.P4 Inca.L2.AggSlot

abbrev PortId := BitVec 9

structure Regs where
  roundNumbers : BitVec 16 → BitVec 32
  bitmap : BitVec 16 → BitVec 32
  normInfo : BitVec 16 → BitVec 32
  receiveCount : BitVec 16 → BitVec 8
  register : Nat → BitVec 16 → Word

def Regs.init : Regs := ⟨fun _ => 0, fun _ => 0, fun _ => 0, fun _ => 0, fun _ _ => 0⟩

structure Tables where
  route : BitVec 48 → Option PortId
  recircPort : BitVec 8 → Option PortId
  dmac : BitVec 48 → Option PortId

/-- The fields of `p4ml_meta_h` that the control sets. -/
structure Mdata where
  matchRoundnum : BitVec 2 := 0
  seenIsAggregate : BitVec 8 := 0

/-- The intrinsic metadata that the controls set for deparser and traffic manager. -/
structure IntrMd where
  dropCtl : BitVec 3 := 0
  mcastGrpA : BitVec 16 := 0
  ucastEgressPort : Option PortId := none
  bypassEgress : BitVec 1 := 0

/-- What a pass hands on: the registers and every `inout` parameter. -/
structure Pass where
  regs : Regs
  p4ml : P4ml
  entries : List Word
  agtr : BitVec 16
  mdata : Mdata
  md : IntrMd

/-! ## Register actions

A register action maps the stored value to the new value and the result. -/

def execute {T R : Type} (reg : BitVec 16 → T) (act : T → T × R) (idx : BitVec 16) :
    (BitVec 16 → T) × R :=
  (Function.update reg idx (act (reg idx)).1, (act (reg idx)).2)

/-- mirrors P4/atp.p4:32-46 -/
def normalCheckRoundNum (p4ml : P4ml) (value : BitVec 32) : BitVec 32 × BitVec 2 :=
  if p4ml.roundNum < value then (value, 0)
  else if value = p4ml.roundNum then (value, 1)
  else (p4ml.roundNum, 2)

/-- mirrors P4/atp.p4:48-53 -/
def normalReadWriteBitmap (p4ml : P4ml) (value : BitVec 32) : BitVec 32 × BitVec 32 :=
  (value ||| p4ml.bitmap, value ||| p4ml.bitmap)

/-- mirrors P4/atp.p4:55-67 -/
def normalIncrCheckCount (p4ml : P4ml) (value : BitVec 8) : BitVec 8 × BitVec 8 :=
  if value = p4ml.numWorker then (1, 1) else (value + 1, value + 1)

/-- mirrors P4/atp.p4:69-74 -/
def resetCheckCount (_value : BitVec 8) : BitVec 8 × BitVec 8 := (1, 1)

/-- mirrors P4/atp.p4:76-81 -/
def cleanBitmap (value : BitVec 32) : BitVec 32 × BitVec 32 := (0, value)

/-- mirrors P4/atp.p4:92-99 -/
def updateNorm (p4ml : P4ml) (value : BitVec 32) : BitVec 32 × BitVec 32 :=
  if value < p4ml.normInfo then (p4ml.normInfo, p4ml.normInfo) else (value, value)

/-- mirrors P4/atp.p4:108-113 -/
def setNorm (p4ml : P4ml) (_value : BitVec 32) : BitVec 32 × BitVec 32 :=
  (p4ml.normInfo, p4ml.normInfo)

/-- mirrors P4/data.p4:24-31 (`noequ0_write_read_data_entry##n`); stored value and result
are the same. -/
def noequ0WriteReadDataEntry (value entry : Word) : Word :=
  if value.extractLsb' 0 31 ≠ 0x7fffffff#31 then satAdd value entry else value

/-- The guard of the register ALU stops at the largest value, and at `-1`. -/
theorem guard_iff (x : Word) :
    x.extractLsb' 0 31 = 0x7fffffff#31 ↔ x.toNat = 2 ^ 31 - 1 ∨ x.toNat = 2 ^ 32 - 1 := by
  have hx := x.isLt
  rw [← BitVec.toNat_inj, BitVec.extractLsb'_toNat]
  simp only [Nat.shiftRight_zero, BitVec.toNat_ofNat]
  omega

/-- What the ALU does to integers: at the largest value and at `-1` it keeps what is there, else it
adds and stays in the range. -/
def addEntry (x w : Int) : Int :=
  if x = 2 ^ 31 - 1 ∨ x = -1 then x else max (-2 ^ 31) (min (2 ^ 31 - 1) (x + w))

theorem toInt_noequ0WriteReadDataEntry (x w : Word) :
    (noequ0WriteReadDataEntry x w).toInt = addEntry x.toInt w.toInt := by
  have hx := x.isLt
  have hguard : x.toInt = 2 ^ 31 - 1 ∨ x.toInt = -1 ↔ x.extractLsb' 0 31 = 0x7fffffff#31 := by
    rw [guard_iff, BitVec.toInt_eq_toNat_cond]; split <;> omega
  rw [noequ0WriteReadDataEntry, addEntry, apply_ite BitVec.toInt, toInt_satAdd (by decide), ite_not]
  simp only [hguard]

/-- Inside the signed range and off the guard the ALU adds exactly. -/
theorem addEntry_of_range {x w : Int} (h1 : x ≠ 2 ^ 31 - 1) (h2 : x ≠ -1) (hs : InRange 32 (x + w)) :
    addEntry x w = x + w := by
  obtain ⟨h3, h4⟩ := hs
  rw [addEntry, if_neg (not_or.mpr ⟨h1, h2⟩)]
  omega

/-! ## Controls -/

def Regs.setRegister (regs : Regs) (n : Nat) (agtr : BitVec 16) (v : Word) : Regs :=
  { regs with register := Function.update regs.register n (Function.update (regs.register n) agtr v) }

/-- mirrors P4/data.p4:99-107 (`ProcessData##n`) -/
def processData (seen : BitVec 8) (agtr : BitVec 16) (st : Regs × List Word) (n : Nat) :
    Regs × List Word :=
  let entry := st.2.getD n 0
  if seen = 1#8 then (st.1.setRegister n agtr entry, st.2)
  else
    let v := noequ0WriteReadDataEntry (st.1.register n agtr) entry
    (st.1.setRegister n agtr v, st.2.set n v)

/-- mirrors P4/data.p4:112-176 (`PROCESS_ENTRY`) -/
def processEntry (seen : BitVec 8) (agtr : BitVec 16) (regs : Regs) (entries : List Word) :
    Regs × List Word :=
  (List.range ENTRY_NUM).foldl (processData seen agtr) (regs, entries)

/-- mirrors P4/route.p4:8-105 (`Route`): a hit zeroes all 64 entries, a miss keeps them. -/
def route (tbl : Tables) (dst : BitVec 48) (entries : List Word) : List Word × IntrMd :=
  match tbl.route dst with
  | some port => (List.replicate ENTRY_NUM 0, { ucastEgressPort := some port })
  | none => (entries, { ucastEgressPort := some 176 })

/-- mirrors P4/atp.p4:133-147 (`recirc_port`) -/
def recircPort (tbl : Tables) (p4ml : P4ml) : IntrMd :=
  match tbl.recircPort p4ml.recircTime with
  | some port => { ucastEgressPort := some port }
  | none => { dropCtl := 1 }

/-- mirrors P4/atp.p4:220: `match_roundnum` -/
def checkRoundNum (regs : Regs) (p4ml : P4ml) (agtr : BitVec 16) : Regs × BitVec 2 :=
  let r := execute regs.roundNumbers (normalCheckRoundNum p4ml) agtr
  ({ regs with roundNumbers := r.1 }, r.2)

/-- mirrors P4/atp.p4:227-238: count and norm of an accepted packet. -/
def countNorm (matchRoundnum : BitVec 2) (regs : Regs) (p4ml : P4ml) (agtr : BitVec 16) :
    Regs × BitVec 8 × BitVec 32 :=
  if matchRoundnum = 2#2 then
    let c := execute regs.receiveCount resetCheckCount agtr
    let m := execute regs.normInfo (setNorm p4ml) agtr
    ({ regs with receiveCount := c.1, normInfo := m.1 }, c.2, m.2)
  else
    let c := execute regs.receiveCount (normalIncrCheckCount p4ml) agtr
    let m := execute regs.normInfo (updateNorm p4ml) agtr
    ({ regs with receiveCount := c.1, normInfo := m.1 }, c.2, m.2)

/-- mirrors P4/atp.p4:227-243: count, norm and data of an accepted packet. -/
def aggregate (matchRoundnum : BitVec 2) (regs : Regs) (p4ml : P4ml) (entries : List Word)
    (agtr : BitVec 16) : (Regs × List Word) × BitVec 8 × BitVec 32 :=
  let c := countNorm matchRoundnum regs p4ml agtr
  (if p4ml.packetType = 0#1 then processEntry c.2.1 agtr c.1 entries else (c.1, entries), c.2)

/-- mirrors P4/atp.p4:246-266: the end of an accepted packet's pass. -/
def finishPass (tbl : Tables) (regs : Regs) (p4ml : P4ml) (entries : List Word) (agtr : BitVec 16)
    (mdata : Mdata) : Pass :=
  if p4ml.recircTime = 3#8 then
    if mdata.seenIsAggregate = p4ml.numWorker then
      let b := execute regs.bitmap cleanBitmap agtr
      ⟨{ regs with bitmap := b.1 }, { p4ml with bitmap := b.2 }, entries, agtr, mdata,
        { mcastGrpA := 1 }⟩
    else
      let b := execute regs.bitmap (normalReadWriteBitmap p4ml) agtr
      ⟨{ regs with bitmap := b.1 }, { p4ml with bitmap := b.2 }, entries, agtr, mdata,
        { dropCtl := 1 }⟩
  else
    let p4ml := { p4ml with recircTime := p4ml.recircTime + 1#8 }
    ⟨regs, p4ml, entries, agtr + 1#16, mdata, { recircPort tbl p4ml with bypassEgress := 1 }⟩

/-- mirrors P4/atp.p4:217-269 -/
def appIdSeq (tbl : Tables) (dst : BitVec 48) (regs : Regs) (p4ml : P4ml) (entries : List Word)
    (agtr : BitVec 16) : Pass :=
  let r := checkRoundNum regs p4ml agtr
  if r.2 = 0#2 then
    let e := route tbl dst entries
    ⟨r.1, { p4ml with roundNum := 0 }, e.1, agtr, { matchRoundnum := r.2 }, e.2⟩
  else
    let d := aggregate r.2 r.1 p4ml entries agtr
    finishPass tbl d.1.1 { p4ml with normInfo := d.2.2 } d.1.2 agtr ⟨r.2, d.2.1⟩

/-- mirrors P4/main.p4:56-77 (`SwitchIngress`) -/
def switchIngress (tbl : Tables) (globalTstamp : BitVec 48) (regs : Regs) (hdr : SwitchHeader) :
    Regs × SwitchHeader × IntrMd :=
  match hdr.p4ml with
  | some p4ml =>
    let p4ml := if p4ml.recircTime = 0#8 then { p4ml with ingressGlobal := globalTstamp } else p4ml
    let p := appIdSeq tbl hdr.ethernet.dstAddr regs p4ml (hdr.entries.getD []) (hdr.agtrIndex.getD 0)
    (p.regs, { hdr with p4ml := some p.p4ml, entries := some p.entries, agtrIndex := some p.agtr },
      p.md)
  | none =>
    if hdr.ethernet.etherType = 0x0d00#16 then (regs, hdr, { mcastGrpA := 1 })
    else match tbl.dmac hdr.ethernet.dstAddr with
      | some port => (regs, hdr, { ucastEgressPort := some port, bypassEgress := 1 })
      | none => (regs, hdr, { dropCtl := 1 })

/-! ## Refinement of the aggregation slot -/

def Regs.slot (regs : Regs) (a : BitVec 16) : Slot where
  roundNum := regs.roundNumbers a
  receiveCount := regs.receiveCount a
  bitmap := regs.bitmap a
  normInfo := regs.normInfo a
  data i := regs.register i a

/-- What a slot reads of a packet on one pass. -/
def pkt (p4ml : P4ml) (entries : List Word) : Pkt where
  roundNum := p4ml.roundNum
  numWorker := p4ml.numWorker
  bitmap := p4ml.bitmap
  normInfo := p4ml.normInfo
  grad := p4ml.packetType = 0#1
  last := p4ml.recircTime = 3#8
  words i := entries.getD i 0

/-- The value `ProcessData##i` stores. -/
def stored (seen : BitVec 8) (value entry : Word) : Word :=
  if seen = 1#8 then entry else noequ0WriteReadDataEntry value entry

theorem processData_eq (seen : BitVec 8) (agtr : BitVec 16) (st : Regs × List Word) {n : Nat}
    (hn : n < st.2.length) :
    processData seen agtr st n =
      (st.1.setRegister n agtr (stored seen (st.1.register n agtr) (st.2.getD n 0)),
        st.2.set n (stored seen (st.1.register n agtr) (st.2.getD n 0))) := by
  unfold processData stored
  split
  · simp [List.getElem?_eq_getElem hn]
  · rfl

/-- The loop of `PROCESS_ENTRY` after `m` of its steps: the first `m` registers and entries
are done, all others are as they were. -/
theorem foldl_processData (seen : BitVec 8) (agtr : BitVec 16) (regs : Regs) (entries : List Word)
    (m : Nat) (hm : m ≤ entries.length) :
    let v i := stored seen (regs.register i agtr) (entries.getD i 0)
    let r := (List.range m).foldl (processData seen agtr) (regs, entries)
    r.1 = { regs with register := fun i a =>
      if i < m ∧ a = agtr then v i else regs.register i a } ∧
    r.2.length = entries.length ∧
    ∀ i, r.2.getD i 0 = if i < m then v i else entries.getD i 0 := by
  intro v
  induction m with
  | zero => simp
  | succ m ih =>
    obtain ⟨h1, h2, h3⟩ := ih (by omega)
    simp only [List.range_succ, List.foldl_append, List.foldl_cons, List.foldl_nil]
    generalize (List.range m).foldl (processData seen agtr) (regs, entries) = r at h1 h2 h3 ⊢
    have hreg : r.1.register m agtr = regs.register m agtr := by simp [h1]
    have hent : r.2.getD m 0 = entries.getD m 0 := by rw [h3, if_neg (Nat.lt_irrefl m)]
    rw [processData_eq seen agtr r (by omega), hreg, hent]
    refine ⟨?_, by simpa using h2, fun i => ?_⟩
    · simp only [Regs.setRegister, h1, Regs.mk.injEq, true_and]
      funext i a
      by_cases him : i = m
      · subst him; by_cases ha : a = agtr <;> simp [ha, v]
      · simp only [Function.update_of_ne him]
        simp only [show i < m + 1 ↔ i < m by omega]
    · rw [List.getD_eq_getElem?_getD, List.getElem?_set]
      by_cases him : m = i
      · subst him; simp [v, show m < r.2.length by omega]
      · rw [if_neg him, ← List.getD_eq_getElem?_getD, h3]
        simp only [show i < m + 1 ↔ i < m by omega]

theorem processEntry_eq (seen : BitVec 8) (agtr : BitVec 16) (regs : Regs) (entries : List Word)
    (hl : entries.length = ENTRY_NUM) :
    let v i := stored seen (regs.register i agtr) (entries.getD i 0)
    let r := processEntry seen agtr regs entries
    r.1 = { regs with register := fun i a =>
      if i < ENTRY_NUM ∧ a = agtr then v i else regs.register i a } ∧
    r.2.length = ENTRY_NUM ∧ ∀ i < ENTRY_NUM, r.2.getD i 0 = v i := by
  intro v r
  obtain ⟨h1, h2, h3⟩ := foldl_processData seen agtr regs entries ENTRY_NUM (by omega)
  exact ⟨h1, h2.trans hl, fun i hi => (h3 i).trans (if_pos hi)⟩

/-- The slot that an accepted packet leaves behind. -/
def after (regs : Regs) (p4ml : P4ml) (entries : List Word) (agtr : BitVec 16) : Slot :=
  (regs.slot agtr).accept ENTRY_NUM noequ0WriteReadDataEntry (pkt p4ml entries)

theorem after_data (regs : Regs) (p4ml : P4ml) (entries : List Word) (agtr : BitVec 16) (i : Nat) :
    (after regs p4ml entries agtr).data i =
      if p4ml.packetType = 0#1 ∧ i < ENTRY_NUM then
        stored (after regs p4ml entries agtr).receiveCount (regs.register i agtr) (entries.getD i 0)
      else regs.register i agtr := by
  simp only [after, Slot.accept, Slot.combine, pkt, Regs.slot, decide_eq_true_eq, stored]

/-- Round, count and norm of an accepted packet are those of the slot `after` it. -/
theorem countNorm_eq (regs : Regs) (p4ml : P4ml) (entries : List Word) (agtr : BitVec 16)
    (hr : regs.roundNumbers agtr ≤ p4ml.roundNum) :
    countNorm (checkRoundNum regs p4ml agtr).2 (checkRoundNum regs p4ml agtr).1 p4ml agtr =
      ({ regs with
          roundNumbers := Function.update regs.roundNumbers agtr (after regs p4ml entries agtr).roundNum
          receiveCount :=
            Function.update regs.receiveCount agtr (after regs p4ml entries agtr).receiveCount
          normInfo := Function.update regs.normInfo agtr (after regs p4ml entries agtr).normInfo },
        (after regs p4ml entries agtr).receiveCount, (after regs p4ml entries agtr).normInfo) := by
  have hge := BitVec.not_lt.mpr hr
  by_cases hnew : regs.roundNumbers agtr < p4ml.roundNum
  · have hr2 : normalCheckRoundNum p4ml (regs.roundNumbers agtr) = (p4ml.roundNum, 2) := by
      simp [normalCheckRoundNum, hge, BitVec.ne_of_lt hnew]
    simp [checkRoundNum, execute, hr2, countNorm, resetCheckCount, setNorm, after, Slot.accept,
      Slot.nextCount, Regs.slot, pkt, hnew]
  · have heq := BitVec.le_antisymm hr (BitVec.not_lt.mp hnew)
    have hr2 : normalCheckRoundNum p4ml p4ml.roundNum = (p4ml.roundNum, 1) := by
      simp [normalCheckRoundNum]
    simp only [checkRoundNum, execute, hr2, countNorm, normalIncrCheckCount, updateNorm, after,
      Slot.accept, Slot.nextCount, Regs.slot, pkt, heq, BitVec.lt_irrefl, false_or]
    by_cases h1 : regs.receiveCount agtr = p4ml.numWorker <;>
      by_cases h2 : regs.normInfo agtr < p4ml.normInfo <;> simp [h1, h2]

section Accepted
variable {regs : Regs} {p4ml : P4ml} {entries : List Word} {agtr : BitVec 16}
  (hr : regs.roundNumbers agtr ≤ p4ml.roundNum) (hl : entries.length = ENTRY_NUM)
include hr hl

/-- Counting and data processing produce the slot `after` the packet, but for the bitmap. -/
theorem aggregate_slot (a : BitVec 16) :
    (aggregate (checkRoundNum regs p4ml agtr).2 (checkRoundNum regs p4ml agtr).1 p4ml entries
      agtr).1.1.slot a =
      if a = agtr then { after regs p4ml entries agtr with bitmap := regs.bitmap a }
      else regs.slot a := by
  have hc := countNorm_eq regs p4ml entries agtr hr
  have hd := after_data regs p4ml entries agtr
  generalize after regs p4ml entries agtr = t at hc hd ⊢
  unfold aggregate
  rw [hc]
  by_cases hg : p4ml.packetType = 0#1
  · simp only [hg, if_true, true_and, (processEntry_eq _ agtr _ entries hl).1] at hd ⊢
    split
    · simp [Regs.slot, *, funext hd]
    · simp [Regs.slot, *]
  · simp only [hg, if_false, false_and] at hd ⊢
    split
    · simp [Regs.slot, *, funext hd]
    · simp [Regs.slot, *]

/-- A gradient packet carries on what its slot now holds, any other packet its own entries. -/
theorem aggregate_entries :
    let d := aggregate (checkRoundNum regs p4ml agtr).2 (checkRoundNum regs p4ml agtr).1 p4ml entries
      agtr
    d.1.2.length = ENTRY_NUM ∧
    ∀ i < ENTRY_NUM, d.1.2.getD i 0 =
      if p4ml.packetType = 0#1 then (after regs p4ml entries agtr).data i else entries.getD i 0 := by
  intro d
  have hd := after_data regs p4ml entries agtr
  simp only [d, aggregate, countNorm_eq regs p4ml entries agtr hr]
  by_cases hg : p4ml.packetType = 0#1
  · simp only [hg, if_true]
    have he := (processEntry_eq (after regs p4ml entries agtr).receiveCount agtr · entries hl)
    refine ⟨(he _).2.1, fun i hi => ?_⟩
    rw [(he _).2.2 i hi, hd, if_pos ⟨hg, hi⟩]
  · simp only [hg, if_false]
    exact ⟨hl, fun _ _ => trivial⟩

end Accepted

theorem slot_setBitmap (regs : Regs) (b a : BitVec 16) (v : BitVec 32) :
    ({ regs with bitmap := Function.update regs.bitmap b v } : Regs).slot a =
      if a = b then { regs.slot a with bitmap := v } else regs.slot a := by
  split
  · subst a; simp [Regs.slot]
  · simp [Regs.slot, *]

theorem finishPass_slot (tbl : Tables) (regs : Regs) (p4ml : P4ml) (entries : List Word)
    (agtr : BitVec 16) (mdata : Mdata) (a : BitVec 16) :
    (finishPass tbl regs p4ml entries agtr mdata).regs.slot a =
      if a = agtr ∧ p4ml.recircTime = 3#8 then
        { regs.slot a with bitmap :=
            if mdata.seenIsAggregate = p4ml.numWorker then 0 else regs.bitmap a ||| p4ml.bitmap }
      else regs.slot a := by
  unfold finishPass
  by_cases h3 : p4ml.recircTime = 3#8
  · by_cases hn : mdata.seenIsAggregate = p4ml.numWorker <;>
      simp only [h3, hn, if_true, if_false, and_true, execute, cleanBitmap, normalReadWriteBitmap,
        slot_setBitmap]
    split
    · subst a; rfl
    · rfl
  · simp only [h3, if_false, and_false]

/-! ## One pass -/

section Pass
variable (tbl : Tables) (dst : BitVec 48) (regs : Regs) (p4ml : P4ml) (entries : List Word)
  (agtr : BitVec 16)

theorem checkRoundNum_zero :
    (checkRoundNum regs p4ml agtr).2 = 0#2 ↔ p4ml.roundNum < regs.roundNumbers agtr := by
  unfold checkRoundNum execute normalCheckRoundNum
  split
  · simp [*]
  · split <;> simp_all

/-- A stale packet leaves every register alone and is sent back. -/
theorem appIdSeq_stale (h : p4ml.roundNum < regs.roundNumbers agtr) :
    (appIdSeq tbl dst regs p4ml entries agtr).regs = regs ∧
    (appIdSeq tbl dst regs p4ml entries agtr).md.mcastGrpA = 0 := by
  have h0 := (checkRoundNum_zero regs p4ml agtr).mpr h
  simp only [appIdSeq, h0, if_true]
  refine ⟨by simp [checkRoundNum, execute, normalCheckRoundNum, h], ?_⟩
  unfold route; split <;> rfl

variable {regs p4ml entries agtr}

theorem appIdSeq_accept (h : regs.roundNumbers agtr ≤ p4ml.roundNum) :
    appIdSeq tbl dst regs p4ml entries agtr =
      let r := checkRoundNum regs p4ml agtr
      let d := aggregate r.2 r.1 p4ml entries agtr
      finishPass tbl d.1.1 { p4ml with normInfo := (after regs p4ml entries agtr).normInfo } d.1.2
        agtr ⟨r.2, (after regs p4ml entries agtr).receiveCount⟩ := by
  have h0 := (checkRoundNum_zero regs p4ml agtr).not.mpr (BitVec.not_lt.mpr h)
  have hc := countNorm_eq regs p4ml entries agtr h
  simp only [appIdSeq, h0, if_false, aggregate, hc]

/-- **Refinement.** A pass makes one `AggSlot` step at the packet's index and leaves every
other index alone. -/
theorem appIdSeq_slot (hl : entries.length = ENTRY_NUM) (a : BitVec 16) :
    (appIdSeq tbl dst regs p4ml entries agtr).regs.slot a =
      if a = agtr then
        (regs.slot agtr).step ENTRY_NUM noequ0WriteReadDataEntry (pkt p4ml entries)
      else regs.slot a := by
  by_cases hr : p4ml.roundNum < regs.roundNumbers agtr
  · rw [(appIdSeq_stale tbl dst regs p4ml entries agtr hr).1]
    split
    · subst a; exact (if_pos hr).symm
    · rfl
  · have hr := BitVec.not_lt.mp hr
    have hag := aggregate_slot hr hl a
    rw [Slot.step_of_le _ _ (show (regs.slot agtr).roundNum ≤ (pkt p4ml entries).roundNum from hr),
      ← after, appIdSeq_accept tbl dst hr]
    simp only [finishPass_slot]
    generalize (aggregate _ _ p4ml entries agtr).1 = d at hag ⊢
    by_cases ha : a = agtr
    · subst ha
      have hb : d.1.bitmap a = regs.bitmap a := by
        simpa [Regs.slot] using congrArg Slot.bitmap hag
      rw [hag, hb]
      by_cases h3 : p4ml.recircTime = 3#8 <;> simp only [h3, and_self, if_true] <;>
        simp [after, Slot.accept, pkt, h3, Regs.slot]
    · simpa [ha] using hag

/-- A gradient packet carries on what its slot holds after the pass. -/
theorem appIdSeq_entries (hr : regs.roundNumbers agtr ≤ p4ml.roundNum)
    (hl : entries.length = ENTRY_NUM) (hg : p4ml.packetType = 0#1) :
    (appIdSeq tbl dst regs p4ml entries agtr).entries.length = ENTRY_NUM ∧
    ∀ i < ENTRY_NUM, (appIdSeq tbl dst regs p4ml entries agtr).entries.getD i 0 =
      (after regs p4ml entries agtr).data i := by
  have he := aggregate_entries hr hl
  simp only [hg, if_true] at he
  have hf : ∀ r p e a m, (finishPass tbl r p e a m).entries = e := by
    intro r p e a m; unfold finishPass; split
    · split <;> rfl
    · rfl
  rw [appIdSeq_accept tbl dst hr]
  simpa only [hf] using he

variable (entries) in
/-- A packet that is not on its last pass goes on to the next index. -/
theorem appIdSeq_recirc (hr : regs.roundNumbers agtr ≤ p4ml.roundNum) (h3 : p4ml.recircTime ≠ 3#8) :
    let p := appIdSeq tbl dst regs p4ml entries agtr
    p.agtr = agtr + 1#16 ∧
    p.p4ml = { p4ml with
      normInfo := (after regs p4ml entries agtr).normInfo, recircTime := p4ml.recircTime + 1#8 } ∧
    p.md = { recircPort tbl { p4ml with recircTime := p4ml.recircTime + 1#8 } with bypassEgress := 1 } := by
  simp only [appIdSeq_accept tbl dst hr, finishPass, h3, if_false]
  exact ⟨trivial, trivial, rfl⟩

variable (entries) in
/-- A packet on its last pass stays at its index, takes the slot's norm along, and is broadcast
or dropped. -/
theorem appIdSeq_lastPass (hr : regs.roundNumbers agtr ≤ p4ml.roundNum) (h3 : p4ml.recircTime = 3#8) :
    let p := appIdSeq tbl dst regs p4ml entries agtr
    p.agtr = agtr ∧
    (∃ b, p.p4ml = { p4ml with normInfo := (after regs p4ml entries agtr).normInfo, bitmap := b }) ∧
    (p.md.mcastGrpA ≠ 1 → p.md.dropCtl = 1) := by
  simp only [appIdSeq_accept tbl dst hr, finishPass, h3, if_true]
  split
  · exact ⟨rfl, ⟨_, rfl⟩, fun h => absurd rfl h⟩
  · exact ⟨rfl, ⟨_, rfl⟩, fun _ => rfl⟩

variable (regs p4ml entries agtr)

/-- How the switch treats a packet: stale, data overwritten or data added
(`seen_isAggregate == 1` in `ProcessData##n`). -/
def classOf (mdata : Mdata) : PktClass :=
  if mdata.matchRoundnum = 0#2 then .stale
  else if mdata.seenIsAggregate = 1#8 then .first
  else .later

theorem classOf_eq :
    classOf (appIdSeq tbl dst regs p4ml entries agtr).mdata =
      (regs.slot agtr).classify (pkt p4ml entries) := by
  have h0 := checkRoundNum_zero regs p4ml agtr
  have hf : ∀ r p e a m, (finishPass tbl r p e a m).mdata = m := by
    intro r p e a m; unfold finishPass; split
    · split <;> rfl
    · rfl
  by_cases hr : p4ml.roundNum < regs.roundNumbers agtr
  · rw [(Slot.classify_stale_iff _ _).mpr hr]
    simp only [appIdSeq, h0.mpr hr, if_true, classOf]
  · rw [appIdSeq_accept tbl dst (BitVec.not_lt.mp hr)]
    simp only [hf, classOf, h0.not.mpr hr, if_false]
    rw [Slot.classify_of_le (BitVec.not_lt.mp hr)]
    rfl

/-- The switch broadcasts exactly the packets that complete their slot. -/
theorem appIdSeq_broadcast :
    (appIdSeq tbl dst regs p4ml entries agtr).md.mcastGrpA = 1 ↔
      (regs.slot agtr).Completes (pkt p4ml entries) := by
  by_cases hr : p4ml.roundNum < regs.roundNumbers agtr
  · rw [(appIdSeq_stale tbl dst regs p4ml entries agtr hr).2]
    have hs : (regs.slot agtr).classify (pkt p4ml entries) = .stale :=
      (Slot.classify_stale_iff _ _).mpr hr
    simp [Slot.Completes, hs]
  · have hs : (regs.slot agtr).classify (pkt p4ml entries) ≠ .stale :=
      fun h => hr ((Slot.classify_stale_iff _ _).mp h)
    rw [appIdSeq_accept tbl dst (BitVec.not_lt.mp hr)]
    simp only [Slot.Completes, hs, ne_eq, not_false_eq_true, true_and, finishPass]
    by_cases h3 : p4ml.recircTime = 3#8
    · have hlast : (pkt p4ml entries).last = true := by simp [pkt, h3]
      have hc : (after regs p4ml entries agtr).receiveCount = p4ml.numWorker ↔
        (regs.slot agtr).nextCount (pkt p4ml entries) = (pkt p4ml entries).numWorker := Iff.rfl
      simp only [h3, if_true, hlast, true_and, ← hc]
      by_cases hn : (after regs p4ml entries agtr).receiveCount = p4ml.numWorker <;> simp [hn]
    · have hlast : (pkt p4ml entries).last = false := by simp [pkt, h3]
      simp only [h3, if_false, hlast]
      unfold recircPort; split <;> simp

end Pass

/-! ## A stream of packets, one pass each -/

/-- A `p4ml` packet at the entry of the switch's ingress control. -/
structure SwPkt where
  dst : BitVec 48
  p4ml : P4ml
  entries : List Word
  agtr : BitVec 16

def SwPkt.pass (tbl : Tables) (regs : Regs) (q : SwPkt) : Pass :=
  appIdSeq tbl q.dst regs q.p4ml q.entries q.agtr

/-- A gradient packet that is not stale leaves its pass with what the registers now hold. -/
theorem pass_entries (tbl : Tables) (regs : Regs) (q : SwPkt)
    (hr : regs.roundNumbers q.agtr ≤ q.p4ml.roundNum) (hl : q.entries.length = ENTRY_NUM)
    (hg : q.p4ml.packetType = 0#1) {i : Nat} (hi : i < ENTRY_NUM) :
    (q.pass tbl regs).entries.getD i 0 = (q.pass tbl regs).regs.register i q.agtr := by
  have hs : (q.pass tbl regs).regs.slot q.agtr = _ := appIdSeq_slot tbl q.dst hl q.agtr
  rw [if_pos rfl, Slot.step_of_le _ _ hr] at hs
  exact ((appIdSeq_entries tbl q.dst hr hl hg).2 i hi).trans (congrArg (Slot.data · i) hs).symm

def feed (tbl : Tables) (regs : Regs) (qs : List SwPkt) : Regs :=
  qs.foldl (fun regs q => (q.pass tbl regs).regs) regs

@[simp] theorem feed_append (tbl : Tables) (regs : Regs) (qs : List SwPkt) (q : SwPkt) :
    feed tbl regs (qs ++ [q]) = (q.pass tbl (feed tbl regs qs)).regs := by simp [feed]

/-- Packets of one index run the `AggSlot` of that index. -/
theorem feed_slot (tbl : Tables) (regs : Regs) {a : BitVec 16} (qs : List SwPkt)
    (h : ∀ q ∈ qs, q.agtr = a ∧ q.entries.length = ENTRY_NUM) :
    (feed tbl regs qs).slot a =
      (regs.slot a).run ENTRY_NUM noequ0WriteReadDataEntry (qs.map fun q => pkt q.p4ml q.entries) := by
  induction qs generalizing regs with
  | nil => rfl
  | cons q qs ih =>
    obtain ⟨rfl, hl⟩ := h q (by simp)
    have hs : (q.pass tbl regs).regs.slot q.agtr = _ := appIdSeq_slot tbl q.dst hl q.agtr
    rw [if_pos rfl] at hs
    have := ih (q.pass tbl regs).regs fun x hx => h x (by simp [hx])
    rwa [hs] at this

end Inca.L2.Switch
