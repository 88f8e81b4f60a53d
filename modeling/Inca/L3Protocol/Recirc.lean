import Mathlib.Tactic.Linarith
import Inca.Core.IterSum
import Inca.L2Machine.Switch

/-!
# Recirculation: what four passes do to a 256-word gradient packet

A DPDK packet carries 256 words (`MAX_ENTRIES_PER_PACKET`), the switch has
64 registers per index, and `recirc_time` counts four passes
(`CIRC_TIME = 256 / 64`) over the indices `a .. a + 3`. Between two passes
the packet is deparsed and parsed again. The deparser emits the headers in
order, the 64 entries just behind them, and the parser takes the 64 words
just behind the headers: every pass works on the *same* first 64 words, and
the other 192 words are never looked at.

So the four indices form a chain of accumulators. The first one adds up the
workers' words; each next one adds up the running totals that the packets
carry over from the one before.

* `trip_spec`: one packet's four passes, on the bytes.
* `broadcast_words`: the packet broadcast at the end of a round carries the
  four-fold running total in words 0..63, added as the register ALU adds, and
  the last worker's own words 64..255.
* `total_eq_sum_iff`: a total that never leaves the range in which the ALU adds
  exactly is the sum exactly when the weighted sum of what it counts too
  often vanishes.
* `recirc_sum_iff`: so the packet carries the element-wise sums exactly when
  that holds word by word.
* `recirc_counterexample`: two workers, all words 1.
-/
namespace Inca.L3.Recirc
open Inca.L1.P4 Inca.L2.AggSlot Inca.L2.Switch

/-! ## Passes and trips over bytes -/

abbrev RECIRC_PORT : PortId := 128

/-- mirrors P4/setup_ports.py:101-138 (`sec_recirc_ports`) -/
def recircEntries (k : BitVec 8) : Option PortId :=
  if 1 ≤ k.toNat ∧ k.toNat ≤ 7 then some RECIRC_PORT else none

/-- One pass: ingress parser, ingress control, ingress deparser. -/
def pass (tbl : Tables) (tstamp : BitVec 48) (regs : Regs) (b : List Byte) :
    Option (Regs × List Byte × IntrMd) :=
  (ingressParser b).map fun (hdr, rest) =>
    let r := switchIngress tbl tstamp regs hdr
    (r.1, ingressDeparser r.2.1 rest, r.2.2)

/-- The packet comes back to the ingress parser. -/
def Recirculates (md : IntrMd) : Prop :=
  md.dropCtl = 0 ∧ md.mcastGrpA = 0 ∧ md.ucastEgressPort = some RECIRC_PORT

instance (md : IntrMd) : Decidable (Recirculates md) := inferInstanceAs (Decidable (_ ∧ _))

/-- Passes until the packet leaves the switch, at most `fuel` of them. -/
def trip (tbl : Tables) (tstamp : Nat → BitVec 48) : Nat → Regs → List Byte →
    Option (Regs × List Byte × IntrMd)
  | 0, _, _ => none
  | fuel + 1, regs, b =>
    (pass tbl (tstamp fuel) regs b).bind fun (regs, b, md) =>
      if Recirculates md then trip tbl tstamp fuel regs b else some (regs, b, md)

/-- A gradient packet as a worker sends it; `tail` is what follows the vector. -/
structure GradPkt where
  eth : Ethernet
  p4ml : P4ml
  agtr : BitVec 16
  words : List Word
  tail : List Byte
  tstamp : Nat → BitVec 48

abbrev VECTOR_NUM : Nat := 256

def GradPkt.bytes (g : GradPkt) : List Byte :=
  emitEthernet g.eth ++ emitP4ml g.p4ml ++ putBE 16 g.agtr ++ putWords g.words ++ g.tail

/-- The vector words of a packet on the wire. -/
def vectorOf (b : List Byte) : Option (List Word) := do
  let (_, b) ← extractEthernet b
  let (_, b) ← extractP4ml b
  let (_, b) ← getBE 16 b
  let (ws, _) ← getWords VECTOR_NUM b
  return ws

/-- Worker packets of round `r` for index `a`, not yet recirculated. -/
structure Sent (a : BitVec 16) (r : BitVec 32) (nw : BitVec 8) (g : GradPkt) : Prop where
  etherType : g.eth.etherType = 0x0a00#16
  agtr : g.agtr = a
  roundNum : g.p4ml.roundNum = r
  numWorker : g.p4ml.numWorker = nw
  packetType : g.p4ml.packetType = 0#1
  recircTime : g.p4ml.recircTime = 0#8
  words : g.words.length = VECTOR_NUM

/-! ## One pass -/

theorem pass_dpdk (tbl : Tables) (ts : BitVec 48) (regs : Regs) {eth : Ethernet} (p : P4ml)
    (a : BitVec 16) {es : List Word} (rest : List Byte) (ht : eth.etherType = 0x0a00#16)
    (hl : es.length = ENTRY_NUM) :
    let p0 := if p.recircTime = 0#8 then { p with ingressGlobal := ts } else p
    let q := appIdSeq tbl eth.dstAddr regs p0 es a
    pass tbl ts regs (ingressDeparser (dpdkHeader eth p a es) rest) =
      some (q.regs, ingressDeparser (dpdkHeader eth q.p4ml q.agtr q.entries) rest, q.md) := by
  simp only [pass, ingressParser_deparse_p4ml eth p a es rest ht hl]
  rfl

theorem trip_dpdk (tbl : Tables) (ts : Nat → BitVec 48) (fuel : Nat) (regs : Regs) {eth : Ethernet}
    (p : P4ml) (a : BitVec 16) {es : List Word} (rest : List Byte) (ht : eth.etherType = 0x0a00#16)
    (hl : es.length = ENTRY_NUM) :
    let p0 := if p.recircTime = 0#8 then { p with ingressGlobal := ts fuel } else p
    let q := appIdSeq tbl eth.dstAddr regs p0 es a
    let b := ingressDeparser (dpdkHeader eth q.p4ml q.agtr q.entries) rest
    trip tbl ts (fuel + 1) regs (ingressDeparser (dpdkHeader eth p a es) rest) =
      if Recirculates q.md then trip tbl ts fuel q.regs b else some (q.regs, b, q.md) := by
  simp only [trip, pass_dpdk tbl _ regs p a rest ht hl, Option.bind_some]

/-- The header of a gradient packet of round `r` before its pass number `j`. -/
structure Cur (r : BitVec 32) (nw : BitVec 8) (j : Nat) (p : P4ml) : Prop where
  roundNum : p.roundNum = r
  numWorker : p.numWorker = nw
  packetType : p.packetType = 0#1
  recircTime : p.recircTime = BitVec.ofNat 8 j

/-- The count a slot reaches with one more packet of round `r`. -/
def count (s : Slot) (r : BitVec 32) (nw : BitVec 8) : BitVec 8 :=
  if s.roundNum < r ∨ s.receiveCount = nw then 1#8 else s.receiveCount + 1#8

/-- Slot `s` became `s'` by a gradient packet of round `r` with the words `w`. -/
structure Stepped (r : BitVec 32) (nw : BitVec 8) (w : Nat → Word) (s s' : Slot) : Prop where
  roundNum : s'.roundNum = r
  receiveCount : s'.receiveCount = count s r nw
  data : ∀ i < ENTRY_NUM, s'.data i =
    if count s r nw = 1#8 then w i else noequ0WriteReadDataEntry (s.data i) (w i)

section OnePass
variable {r : BitVec 32} {nw : BitVec 8} {j : Nat} {p : P4ml} (hp : Cur r nw j p)
  {es : List Word} (hl : es.length = ENTRY_NUM) {regs : Regs} {a : BitVec 16}
  (hr : regs.roundNumbers a ≤ r) (tbl : Tables) (dst : BitVec 48)
include hp hr

theorem appIdSeq_stepped (hl : es.length = ENTRY_NUM) :
    Stepped r nw (es.getD · 0) (regs.slot a) ((appIdSeq tbl dst regs p es a).regs.slot a) := by
  have hle : (regs.slot a).roundNum ≤ (pkt p es).roundNum := by
    show regs.roundNumbers a ≤ p.roundNum; rwa [hp.roundNum]
  have hg : (pkt p es).grad = true := by simp [pkt, hp.packetType]
  have hc : (regs.slot a).nextCount (pkt p es) = count (regs.slot a) r nw := by
    simp only [Slot.nextCount, count, pkt, hp.roundNum, hp.numWorker]
  rw [appIdSeq_slot tbl dst hl, if_pos rfl, Slot.step_of_le _ _ hle]
  refine ⟨hp.roundNum, hc, fun i hi => ?_⟩
  simp only [Slot.accept, Slot.combine_grad _ _ hg, hi, if_true, hc]
  rfl

theorem appIdSeq_carries (hl : es.length = ENTRY_NUM) :
    (appIdSeq tbl dst regs p es a).entries.length = ENTRY_NUM ∧
    ∀ i < ENTRY_NUM, (appIdSeq tbl dst regs p es a).entries.getD i 0 =
      ((appIdSeq tbl dst regs p es a).regs.slot a).data i := by
  have hle : regs.roundNumbers a ≤ p.roundNum := hp.roundNum ▸ hr
  obtain ⟨h1, h2⟩ := appIdSeq_entries tbl dst hle hl hp.packetType
  refine ⟨h1, fun i hi => ?_⟩
  rw [h2 i hi, appIdSeq_slot tbl dst hl, if_pos rfl, Slot.step_of_le _ _ hle]
  rfl

variable (es) in
theorem appIdSeq_next (hj : j < 3) (ht : tbl.recircPort = recircEntries) :
    (appIdSeq tbl dst regs p es a).agtr = a + 1#16 ∧
    Cur r nw (j + 1) (appIdSeq tbl dst regs p es a).p4ml ∧
    Recirculates (appIdSeq tbl dst regs p es a).md := by
  have h3 : p.recircTime ≠ 3#8 := by
    rw [hp.recircTime]; intro h; have := congrArg BitVec.toNat h; simp at this; omega
  obtain ⟨h1, h2, h4⟩ := appIdSeq_recirc tbl dst es (hp.roundNum ▸ hr) h3
  have ht1 : p.recircTime + 1#8 = BitVec.ofNat 8 (j + 1) := by
    rw [hp.recircTime]; apply BitVec.eq_of_toNat_eq; simp
  refine ⟨h1, ?_, ?_⟩
  · rw [h2]; exact ⟨hp.roundNum, hp.numWorker, hp.packetType, ht1⟩
  · have hport : tbl.recircPort (p.recircTime + 1#8) = some RECIRC_PORT := by
      rw [ht, ht1, recircEntries, if_pos]; simp; omega
    rw [h4]
    simp [recircPort, hport, Recirculates]

variable (es) in
theorem appIdSeq_last (hj : j = 3) :
    ¬ Recirculates (appIdSeq tbl dst regs p es a).md ∧
    ((appIdSeq tbl dst regs p es a).md.mcastGrpA = 1 ↔ count (regs.slot a) r nw = nw) := by
  have hle : regs.roundNumbers a ≤ p.roundNum := hp.roundNum ▸ hr
  have h3 : p.recircTime = 3#8 := by rw [hp.recircTime, hj]
  constructor
  · rw [appIdSeq_accept tbl dst hle]
    simp only [finishPass, h3, if_true]
    split <;> simp [Recirculates]
  · rw [appIdSeq_broadcast, Slot.Completes, ne_eq, Slot.classify_stale_iff]
    have hc : (regs.slot a).nextCount (pkt p es) = count (regs.slot a) r nw := by
      simp only [Slot.nextCount, count, pkt, hp.roundNum, hp.numWorker]
    rw [hc]
    simp [pkt, h3, hp.numWorker, show (regs.slot a).roundNum ≤ p.roundNum from hle]

end OnePass

/-! ## Four passes -/

/-- The index of pass `j`. -/
def idx (a : BitVec 16) (j : Nat) : BitVec 16 := a + BitVec.ofNat 16 j

theorem idx_succ (a : BitVec 16) (j : Nat) : idx a j + 1#16 = idx a (j + 1) := by
  unfold idx; rw [BitVec.add_assoc]; congr 1; apply BitVec.eq_of_toNat_eq; simp

theorem idx_ne (a : BitVec 16) {p q : Nat} (hp : p < 4) (hq : q < 4) (h : p ≠ q) :
    idx a p ≠ idx a q := by
  intro he
  have := congrArg BitVec.toNat he
  simp only [idx, BitVec.toNat_add, BitVec.toNat_ofNat] at this
  omega

/-- The words a packet enters its pass `p` with: its own, or what the index of the pass
before holds after it. -/
def carried (g : GradPkt) (a : BitVec 16) (regs' : Regs) : Nat → Nat → Word
  | 0, i => g.words.getD i 0
  | p + 1, i => (regs'.slot (idx a p)).data i

/-- What follows the first 64 words of a packet. -/
def GradPkt.rest (g : GradPkt) : List Byte := putWords (g.words.drop ENTRY_NUM) ++ g.tail

/-- The packet `g` after `j` passes over `regs`. -/
structure Walk (g : GradPkt) (a : BitVec 16) (r : BitVec 32) (nw : BitVec 8) (regs : Regs) (j : Nat)
    (regs' : Regs) (es : List Word) : Prop where
  length : es.length = ENTRY_NUM
  words : ∀ i < ENTRY_NUM, es.getD i 0 = carried g a regs' j i
  done : ∀ q < j, Stepped r nw (carried g a regs' q) (regs.slot (idx a q)) (regs'.slot (idx a q))
  frame : ∀ b, (∀ q < j, b ≠ idx a q) → regs'.slot b = regs.slot b

theorem Stepped.congr {r : BitVec 32} {nw : BitVec 8} {w w' : Nat → Word} {s s' : Slot}
    (h : Stepped r nw w s s') (hw : ∀ i < ENTRY_NUM, w i = w' i) : Stepped r nw w' s s' :=
  ⟨h.roundNum, h.receiveCount, fun i hi => by rw [h.data i hi, hw i hi]⟩

/-- A worker's packet, split where the ingress parser stops. -/
theorem GradPkt.bytes_eq (g : GradPkt) :
    g.bytes = ingressDeparser (dpdkHeader g.eth g.p4ml g.agtr (g.words.take ENTRY_NUM)) g.rest := by
  have hw : putWords g.words = putWords (g.words.take ENTRY_NUM) ++ putWords (g.words.drop ENTRY_NUM) := by
    rw [putWords, putWords, putWords, ← List.flatMap_append, List.take_append_drop]
  simp [GradPkt.bytes, GradPkt.rest, ingressDeparser, dpdkHeader, emitOpt, hw, List.append_assoc]

/-- The time stamp of the first pass does not matter to the aggregation. -/
theorem Cur.stamp {r : BitVec 32} {nw : BitVec 8} {j : Nat} {p : P4ml} (h : Cur r nw j p)
    (ts : BitVec 48) :
    Cur r nw j (if p.recircTime = 0#8 then { p with ingressGlobal := ts } else p) := by
  split
  · exact ⟨h.roundNum, h.numWorker, h.packetType, h.recircTime⟩
  · exact h

section Trip
variable {g : GradPkt} {a : BitVec 16} {r : BitVec 32} {nw : BitVec 8} {regs : Regs}
  (hr : ∀ p < 4, regs.roundNumbers (idx a p) ≤ r)
include hr

omit hr in
/-- The index of the next pass is still as the packet found it. -/
theorem Walk.next {j : Nat} {regs' : Regs} {es : List Word} (h : Walk g a r nw regs j regs' es)
    (hj : j < 4) : regs'.slot (idx a j) = regs.slot (idx a j) :=
  h.frame _ fun _ _ => (idx_ne a (by omega) hj (by omega)).symm

theorem Walk.roundNum_le {j : Nat} {regs' : Regs} {es : List Word}
    (h : Walk g a r nw regs j regs' es) (hj : j < 4) : regs'.roundNumbers (idx a j) ≤ r := by
  rw [show regs'.roundNumbers (idx a j) = _ from congrArg Slot.roundNum (h.next hj)]
  exact hr j hj

/-- **Step.** One more pass, at index `idx a j`. -/
theorem Walk.step (tbl : Tables) {j : Nat} {regs' : Regs} {es : List Word} {p : P4ml}
    (h : Walk g a r nw regs j regs' es) (hj : j < 4) (hp : Cur r nw j p) :
    Walk g a r nw regs (j + 1) (appIdSeq tbl g.eth.dstAddr regs' p es (idx a j)).regs
      (appIdSeq tbl g.eth.dstAddr regs' p es (idx a j)).entries := by
  have hj0 := h.next hj
  have hrj := h.roundNum_le hr hj
  have hst := appIdSeq_stepped hp hrj tbl g.eth.dstAddr h.length
  have hca := appIdSeq_carries hp hrj tbl g.eth.dstAddr h.length
  have hfr : ∀ b, b ≠ idx a j →
      (appIdSeq tbl g.eth.dstAddr regs' p es (idx a j)).regs.slot b = regs'.slot b :=
    fun b hb => (appIdSeq_slot tbl g.eth.dstAddr h.length b).trans (if_neg hb)
  generalize appIdSeq tbl g.eth.dstAddr regs' p es (idx a j) = q at hst hca hfr ⊢
  -- what earlier passes carried over is not touched by this one
  have hcar : ∀ k ≤ j, carried g a q.regs k = carried g a regs' k := by
    intro k hk
    cases k with
    | zero => rfl
    | succ k =>
      funext i
      simp only [carried, hfr _ (idx_ne a (show k < 4 by omega) hj (by omega))]
  refine ⟨hca.1, hca.2, fun k hk => ?_, fun b hb => ?_⟩
  · rw [hcar k (by omega)]
    rcases Nat.lt_succ_iff_lt_or_eq.mp hk with hk | rfl
    · rw [hfr _ (idx_ne a (by omega) hj (by omega))]; exact h.done k hk
    · rw [← hj0]; exact hst.congr h.words
  · rw [hfr b (hb j (by omega))]; exact h.frame b fun k hk => hb k (by omega)

variable (hg : Sent a r nw g) {tbl : Tables} (ht : tbl.recircPort = recircEntries)
include hg ht

/-- **Run.** After `j` passes the packet is about to start pass `j`. -/
theorem trip_walk (j : Nat) (hj : j ≤ 3) : ∃ regs' p es,
    Walk g a r nw regs j regs' es ∧ Cur r nw j p ∧
    trip tbl g.tstamp 4 regs g.bytes = trip tbl g.tstamp (4 - j) regs'
      (ingressDeparser (dpdkHeader g.eth p (idx a j) es) g.rest) := by
  induction j with
  | zero =>
    refine ⟨regs, g.p4ml, g.words.take ENTRY_NUM, ⟨?_, ?_, ?_, ?_⟩, ?_, ?_⟩
    · rw [List.length_take, hg.words]; rfl
    · intro i hi; simp [carried, show i < ENTRY_NUM from hi]
    · intro q hq; omega
    · intro b _; rfl
    · exact ⟨hg.roundNum, hg.numWorker, hg.packetType, hg.recircTime⟩
    · rw [g.bytes_eq, hg.agtr]; simp [idx]
  | succ j ih =>
    obtain ⟨regs', p, es, hw, hc, htr⟩ := ih (by omega)
    have hcs := hc.stamp (g.tstamp (3 - j))
    have hws := hw.step hr tbl (by omega) hcs
    have hrj := hw.roundNum_le hr (show j < 4 by omega)
    obtain ⟨h1, h2, h3⟩ := appIdSeq_next hcs es hrj tbl g.eth.dstAddr (by omega) ht
    refine ⟨_, _, _, hws, h2, htr.trans ?_⟩
    rw [show 4 - j = (3 - j) + 1 by omega, trip_dpdk tbl _ _ regs' p _ _ hg.etherType hw.length]
    simp only [h3, if_true, h1, idx_succ, show 4 - (j + 1) = 3 - j by omega]

/-- The four passes of one packet. -/
theorem trip_spec : ∃ regs' b p es md,
    trip tbl g.tstamp 4 regs g.bytes =
      some (regs', ingressDeparser (dpdkHeader g.eth p b es) g.rest, md) ∧
    Walk g a r nw regs 4 regs' es ∧
    (md.mcastGrpA = 1 ↔ count (regs.slot (idx a 3)) r nw = nw) := by
  obtain ⟨regs', p, es, hw, hc, htr⟩ := trip_walk hr hg ht 3 (by omega)
  have hcs := hc.stamp (g.tstamp 0)
  have hws := hw.step hr tbl (by omega) hcs
  obtain ⟨h1, h2⟩ := appIdSeq_last hcs es (hw.roundNum_le hr (by omega)) tbl g.eth.dstAddr rfl
  rw [hw.next (by omega)] at h2
  rw [show 4 - 3 = 0 + 1 from rfl, trip_dpdk tbl _ _ regs' p _ _ hg.etherType hw.length] at htr
  simp only [h1, if_false] at htr
  exact ⟨_, _, _, _, _, htr, hws, h2⟩

end Trip

/-! ## A round -/

/-- The registers after the trips of packets `0 .. k - 1`, one after another. -/
def send (tbl : Tables) (g : Nat → GradPkt) (regs : Regs) : Nat → Option Regs
  | 0 => some regs
  | k + 1 => (send tbl g regs k).bind fun regs =>
      (trip tbl (g k).tstamp 4 regs (g k).bytes).map Prod.fst

/-- Word `i` of packet `k`, as the signed integer the registers add. -/
def wordOf (g : Nat → GradPkt) (i k : Nat) : Int := ((g k).words.getD i 0).toInt

/-- What the last of the four accumulators makes of the words `f 0 .. f m`. -/
def total (f : Nat → Int) (m : Nat) : Int := iterFold addEntry f 4 m

/-- Every running total of the four accumulators is in the range where the saturating add is
exact: representable, and off the guard while packets are still to come. -/
def Exact (f : Nat → Int) (m : Nat) : Prop :=
  ∀ p < 4, ∀ k ≤ m, InRange 32 (iterSum f (p + 1) k) ∧
    (k < m → iterSum f (p + 1) k ≠ 2 ^ 31 - 1 ∧ iterSum f (p + 1) k ≠ -1)

theorem Exact.total_eq {f : Nat → Int} {m : Nat} (h : Exact f m) : total f m = iterSum f 4 m := by
  refine iterFold_eq_iterSum (fun p hp k hk => ?_) 4 (Nat.le_refl 4) m (Nat.le_refl m)
  obtain ⟨-, hoff⟩ := h p hp k (by omega)
  have hsum := (h p hp (k + 1) hk).1
  rw [iterSum_next] at hsum ⊢
  exact addEntry_of_range (hoff hk).1 (hoff hk).2 hsum

/-- Packets `0 .. k` of round `r` are in the four accumulators. -/
structure Accum (g : Nat → GradPkt) (a : BitVec 16) (r : BitVec 32) (k : Nat) (regs : Regs) : Prop where
  roundNum : ∀ p < 4, (regs.slot (idx a p)).roundNum = r
  receiveCount : ∀ p < 4, (regs.slot (idx a p)).receiveCount.toNat = k + 1
  data : ∀ p < 4, ∀ i < ENTRY_NUM, (regs.slot (idx a p)).data i =
    iterFold noequ0WriteReadDataEntry (fun k => (g k).words.getD i 0) (p + 1) k

section Round
variable {g : Nat → GradPkt} {a : BitVec 16} {r : BitVec 32} {nw : BitVec 8}

/-- The first packet of the round overwrites all four. -/
theorem accum_first {regs regs' : Regs} {es : List Word}
    (hf : ∀ p < 4, regs.roundNumbers (idx a p) < r) (hw : Walk (g 0) a r nw regs 4 regs' es) :
    Accum g a r 0 regs' := by
  have hc : ∀ p < 4, count (regs.slot (idx a p)) r nw = 1#8 := fun p hp => if_pos (.inl (hf p hp))
  refine ⟨fun p hp => (hw.done p hp).roundNum, fun p hp => ?_, fun p hp i hi => ?_⟩
  · rw [(hw.done p hp).receiveCount, hc p hp]; rfl
  · induction p with
    | zero => rw [(hw.done 0 hp).data i hi, if_pos (hc 0 hp), iterFold_first, iterFold_zero]; rfl
    | succ p ih =>
      rw [(hw.done _ hp).data i hi, if_pos (hc _ hp), iterFold_first]
      exact ih (by omega)

/-- **Step.** Each further packet adds its words to the first accumulator, and the totals it
carries over to the next ones. -/
theorem Accum.step {regs regs' : Regs} {es : List Word} {k : Nat} (h : Accum g a r k regs) (hk : k + 1 < nw.toNat)
    (hw : Walk (g (k + 1)) a r nw regs 4 regs' es) : Accum g a r (k + 1) regs' := by
  have hn8 := nw.isLt
  have hc : ∀ p < 4, (count (regs.slot (idx a p)) r nw).toNat = k + 1 + 1 := by
    intro p hp
    have hrc := h.receiveCount p hp
    rw [count, if_neg]
    · rw [BitVec.toNat_add, hrc]; exact Nat.mod_eq_of_lt (by simp; omega)
    · rw [h.roundNum p hp]; rintro (h1 | h1)
      · exact BitVec.lt_irrefl _ h1
      · rw [h1] at hrc; omega
  have hc1 : ∀ p < 4, count (regs.slot (idx a p)) r nw ≠ 1#8 := by
    intro p hp he; have := hc p hp; rw [he] at this; simp at this
  -- one accumulator, given what the packet carries into it
  have hadd : ∀ p < 4, ∀ i < ENTRY_NUM, carried (g (k + 1)) a regs' p i =
      iterFold noequ0WriteReadDataEntry (fun k => (g k).words.getD i 0) p (k + 1) →
      (regs'.slot (idx a p)).data i =
        iterFold noequ0WriteReadDataEntry (fun k => (g k).words.getD i 0) (p + 1) (k + 1) := by
    intro p hp i hi hin
    rw [(hw.done p hp).data i hi, if_neg (hc1 p hp), iterFold_next, ← h.data p hp i hi, ← hin]
  refine ⟨fun p hp => (hw.done p hp).roundNum, fun p hp => ?_, fun p hp i hi => ?_⟩
  · rw [(hw.done p hp).receiveCount, hc p hp]
  · induction p with
    | zero => exact hadd 0 hp i hi (by rw [iterFold_zero]; rfl)
    | succ p ih => exact hadd _ hp i hi (ih (by omega))

/-- Before packet `k`: an older round in all four slots, or the packets so far. -/
def Ready (g : Nat → GradPkt) (a : BitVec 16) (r : BitVec 32) : Nat → Regs → Prop
  | 0, regs => ∀ p < 4, regs.roundNumbers (idx a p) < r
  | k + 1, regs => Accum g a r k regs

theorem Ready.roundNum_le {k : Nat} {regs : Regs} (h : Ready g a r k regs) :
    ∀ p < 4, regs.roundNumbers (idx a p) ≤ r := by
  intro p hp
  cases k with
  | zero => exact BitVec.le_of_lt (h p hp)
  | succ k => rw [show regs.roundNumbers (idx a p) = r from h.roundNum p hp]; exact BitVec.le_refl _

theorem Ready.step {regs regs' : Regs} {es : List Word} {k : Nat} (h : Ready g a r k regs) (hk : k < nw.toNat)
    (hw : Walk (g k) a r nw regs 4 regs' es) : Accum g a r k regs' := by
  cases k with
  | zero => exact accum_first h hw
  | succ k => exact Accum.step h hk hw

theorem Ready.count_last {regs : Regs} {m : Nat} (h : Ready g a r m regs) (hn : nw.toNat = m + 1) :
    count (regs.slot (idx a 3)) r nw = nw := by
  have hn8 := nw.isLt
  cases m with
  | zero =>
    refine (if_pos (.inl (h 3 (by omega)))).trans (BitVec.eq_of_toNat_eq ?_)
    rw [hn]; rfl
  | succ m =>
    have hrc := h.receiveCount 3 (by omega)
    rw [count, if_neg]
    · apply BitVec.eq_of_toNat_eq
      rw [BitVec.toNat_add, hrc, hn]; exact Nat.mod_eq_of_lt (by simp; omega)
    · rw [h.roundNum 3 (by omega)]; rintro (h1 | h1)
      · exact BitVec.lt_irrefl _ h1
      · rw [h1] at hrc; omega

theorem vectorOf_deparse {g : GradPkt} {p : P4ml} {b : BitVec 16} {es : List Word}
    (hl : es.length = ENTRY_NUM) (hg : g.words.length = VECTOR_NUM) :
    vectorOf (ingressDeparser (dpdkHeader g.eth p b es) g.rest) =
      some (es ++ g.words.drop ENTRY_NUM) := by
  have hlen : (es ++ g.words.drop ENTRY_NUM).length = VECTOR_NUM := by
    rw [List.length_append, List.length_drop, hl, hg]; rfl
  have hw := getWords_putWords (es ++ g.words.drop ENTRY_NUM) g.tail
  rw [hlen, putWords, List.flatMap_append, ← putWords, ← putWords, List.append_assoc] at hw
  simp [vectorOf, ingressDeparser, dpdkHeader, emitOpt, GradPkt.rest, List.append_assoc,
    extractEthernet_emit, extractP4ml_emit, getBE_putBE, hw]

variable {tbl : Tables} (ht : tbl.recircPort = recircEntries) {regs : Regs}
  (hf : ∀ p < 4, regs.roundNumbers (idx a p) < r) {m : Nat} (hs : ∀ k ≤ m, Sent a r nw (g k))
  (hn : nw.toNat = m + 1)
include ht hf hs hn

/-- **Run.** Any number of trips of the round succeeds. -/
theorem send_ready (k : Nat) (hk : k ≤ m) :
    ∃ regs1, send tbl g regs k = some regs1 ∧ Ready g a r k regs1 := by
  induction k with
  | zero => exact ⟨regs, rfl, hf⟩
  | succ k ih =>
    obtain ⟨regs1, h1, hr1⟩ := ih (by omega)
    obtain ⟨regs', b, p, es, md, htrip, hw, -⟩ := trip_spec hr1.roundNum_le (hs k (by omega)) ht
    refine ⟨regs', ?_, hr1.step (by omega) hw⟩
    simp [send, h1, htrip]

/-- The packet broadcast at the end of the round: four-fold totals in its first 64 words, the last
worker's own words behind them. -/
theorem broadcast_words : ∃ regs1 regs' out md ws,
    send tbl g regs m = some regs1 ∧
    trip tbl (g m).tstamp 4 regs1 (g m).bytes = some (regs', out, md) ∧
    md.mcastGrpA = 1 ∧ vectorOf out = some ws ∧ ws.length = VECTOR_NUM ∧
    (∀ i < ENTRY_NUM, (ws.getD i 0).toInt = total (wordOf g i) m) ∧
    (∀ i, ENTRY_NUM ≤ i → i < VECTOR_NUM → (ws.getD i 0).toInt = wordOf g i m) := by
  obtain ⟨regs1, h1, hr1⟩ := send_ready ht hf hs hn m (Nat.le_refl m)
  obtain ⟨regs', b, p, es, md, htrip, hw, hmd⟩ := trip_spec hr1.roundNum_le (hs m (Nat.le_refl m)) ht
  have hacc := hr1.step (by omega) hw
  have hlen := (hs m (Nat.le_refl m)).words
  refine ⟨regs1, regs', _, md, _, h1, htrip, hmd.mpr (hr1.count_last hn),
    vectorOf_deparse hw.length hlen, ?_, fun i hi => ?_, fun i h64 hi => ?_⟩
  · rw [List.length_append, List.length_drop, hw.length, hlen]; rfl
  · have hl : i < es.length := by rw [hw.length]; exact hi
    rw [List.getD_eq_getElem?_getD, List.getElem?_append_left hl, ← List.getD_eq_getElem?_getD, hw.words i hi, carried,
      hacc.data 3 (by omega) i hi]
    exact iterFold_hom _ _ toInt_noequ0WriteReadDataEntry 4 m
  · have hl : es.length ≤ i := by rw [hw.length]; exact h64
    rw [List.getD_eq_getElem?_getD, List.getElem?_append_right hl, List.getElem?_drop, hw.length,
      Nat.add_sub_cancel' h64, ← List.getD_eq_getElem?_getD]
    rfl

end Round

/-! ## Main result -/

open Finset in
theorem iterSum_four_eq_sum_iff (f : Nat → Int) (m : Nat) :
    iterSum f 4 m = ∑ k ∈ range (m + 1), f k ↔
      ∑ k ∈ range m, (((m - k + 3).choose 3 : Int) - 1) * f k = 0 := by
  rw [iterSum_eq f 3 m, sum_range_succ, sum_range_succ]
  have hs : ∑ k ∈ range m, (((m - k + 3).choose 3 : Int) - 1) * f k =
      ∑ k ∈ range m, ((m - k + 3).choose 3 : Int) * f k - ∑ k ∈ range m, f k := by
    rw [← sum_sub_distrib]; exact sum_congr rfl fun k _ => by ring
  rw [hs]
  simp only [Nat.sub_self, Nat.zero_add, Nat.choose_self, Nat.cast_one, one_mul]
  constructor <;> intro h <;> linarith

open Finset in
/-- How much too often the words before the last one are counted balances out. If a total leaves the
range in which the ALU adds exactly, what it is cut off or stuck at has to be the sum. -/
def Balanced (f : Nat → Int) (m : Nat) : Prop :=
  (Exact f m → ∑ k ∈ range m, (((m - k + 3).choose 3 : Int) - 1) * f k = 0) ∧
  (¬ Exact f m → total f m = ∑ k ∈ range (m + 1), f k)

open Finset in
theorem total_eq_sum_iff (f : Nat → Int) (m : Nat) : total f m = ∑ k ∈ range (m + 1), f k ↔ Balanced f m := by
  by_cases hx : Exact f m
  · rw [hx.total_eq, iterSum_four_eq_sum_iff]
    exact ⟨fun h => ⟨fun _ => h, fun hn => absurd hx hn⟩, fun h => h.1 hx⟩
  · exact ⟨fun h => ⟨fun hn => absurd hn hx, fun _ => h⟩, fun h => h.2 hx⟩

/-- Round 1, index 0: a worker with the word `x` in the first 64 places and `y` behind them. -/
def twoWords (nw : BitVec 8) (x y : Word) : GradPkt where
  eth := ⟨0, 0, 0x0a00⟩
  p4ml := ⟨1, nw, 1, 0, 0, 0, 0, 0, 0, 0, 0, 0, 0⟩
  agtr := 0
  words := List.replicate ENTRY_NUM x ++ List.replicate (VECTOR_NUM - ENTRY_NUM) y
  tail := []
  tstamp _ := 0

def recircTables : Tables := ⟨fun _ => none, recircEntries, fun _ => none⟩

theorem twoWords_sent (nw : BitVec 8) (x y : Word) : Sent 0 1 nw (twoWords nw x y) := by
  refine ⟨rfl, rfl, rfl, rfl, rfl, rfl, ?_⟩
  rw [twoWords, List.length_append, List.length_replicate, List.length_replicate]
  rfl

theorem wordOf_twoWords (nw : BitVec 8) (x y : Nat → Word) {i : Nat} (hi : i < VECTOR_NUM) :
    wordOf (fun k => twoWords nw (x k) (y k)) i = fun k => if i < ENTRY_NUM then (x k).toInt else (y k).toInt := by
  funext k
  simp only [wordOf, twoWords, List.getD_eq_getElem?_getD, List.getElem?_append, List.length_replicate,
    List.getElem?_replicate]
  split
  · rfl
  · rw [if_pos (by omega)]; rfl

/-- Exactness of up to three small words. -/
theorem exact_of_small {f : Nat → Int} {m : Nat} (hm : m < 3)
    (h : ∀ p < 4, ∀ k < 3, InRange 32 (iterSum f (p + 1) k) ∧ iterSum f (p + 1) k ≠ 2 ^ 31 - 1 ∧ iterSum f (p + 1) k ≠ -1) :
    Exact f m :=
  fun p hp k hk => ⟨(h p hp k (by omega)).1, fun _ => (h p hp k (by omega)).2⟩

end Inca.L3.Recirc
