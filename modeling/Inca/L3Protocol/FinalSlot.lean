import Mathlib.Algebra.Order.BigOperators.Group.Finset
import Mathlib.Data.Fin.VecNotation
import Mathlib.Data.Fintype.Basic
import Inca.Core.LTS
import Inca.L2Machine.ParameterServer
import Inca.L3Protocol.Recirc

/-!
# What is left in a slot when all packets have gone

`k` gradient packets of one slot, of any rounds, reach an aggregator in any
order. At the software parameter server a packet is one step. At the switch
it is up to four passes on the indices `a .. a + 3`, and the passes of
different packets interleave; a packet that finds a newer round leaves at
once, and a packet takes the norm it leaves behind along to its next index.

In the end the slot (each of the four slots) tells nothing about the order:
it holds the newest round, the number of that round's packets counted from 1
to `num_worker` over and over, and that round's largest norm (`Final`).

* `Tally`: what a slot knows of the newest round's packets so far; a packet
  of an older round cannot spoil it (`Tally.older`), one of the newest round
  adds itself (`Tally.newest`).
* `exists_quiet`: at the switch every run can be continued until no packet is
  in flight.
* `slots_final`: both aggregators, every order.
-/
namespace Inca.L3.FinalSlot
open Inca.L1.P4 Inca.L2.AggSlot Inca.L2.Switch Inca.L3.Recirc

/-! ## The final slot -/

section Final
variable {k : Nat}

def topRound (round : Fin k → BitVec 32) : Nat := Finset.univ.sup fun i => (round i).toNat

/-- The packets of the newest round. -/
def ofTop (round : Fin k → BitVec 32) : Finset (Fin k) :=
  Finset.univ.filter fun i => (round i).toNat = topRound round

structure Final (n : Nat) (round norm : Fin k → BitVec 32) (s : Slot) : Prop where
  roundNum : s.roundNum.toNat = topRound round
  receiveCount : s.receiveCount.toNat = 1 + ((ofTop round).card - 1) % n
  normInfo : s.normInfo.toNat = (ofTop round).sup fun i => (norm i).toNat

/-! ## One slot -/

/-- Slot `s` has counted the packets `M` of the newest round `r`, whose norms are at most `top`. -/
structure Tally (r : BitVec 32) (n : Nat) (norm : Fin k → BitVec 32) (top : BitVec 32)
    (M : Finset (Fin k)) (s : Slot) : Prop where
  fresh : M = ∅ → s.roundNum < r ∨ s.roundNum = r ∧ s.receiveCount = 0 ∧ s.normInfo = 0
  counted : M.Nonempty → s.roundNum = r ∧ s.receiveCount.toNat = 1 + (M.card - 1) % n ∧
    (∀ i ∈ M, norm i ≤ s.normInfo) ∧ s.normInfo ≤ top

variable {r : BitVec 32} {n : Nat} {norm : Fin k → BitVec 32} {top : BitVec 32}
  {M : Finset (Fin k)} {s : Slot} {p : Pkt}

theorem Tally.roundNum_le (h : Tally r n norm top M s) : s.roundNum ≤ r := by
  rcases M.eq_empty_or_nonempty with hM | hM
  · rcases h.fresh hM with h | h
    · exact BitVec.le_of_lt h
    · rw [h.1]; exact BitVec.le_refl _
  · rw [(h.counted hM).1]; exact BitVec.le_refl _

theorem Tally.older (m : Nat) (add : Word → Word → Word) (h : Tally r n norm top M s)
    (hp : p.roundNum < r) : Tally r n norm top M (s.step m add p) := by
  unfold Slot.step
  split
  · exact h
  · next hacc =>
    -- a slot that is at the newest round already finds the packet stale
    have hlt : s.roundNum ≠ r := fun he => hacc (he ▸ hp)
    refine ⟨fun _ => .inl hp, fun hM => absurd (h.counted hM).1 hlt⟩

theorem succ_mod (x : Nat) {n : Nat} (hn : 0 < n) :
    (x + 1) % n = if 1 + x % n = n then 0 else 1 + x % n := by
  have hx := Nat.mod_lt x hn
  rw [← Nat.mod_add_mod]
  split
  · next h => rw [Nat.add_comm, h, Nat.mod_self]
  · next h => rw [Nat.mod_eq_of_lt (by omega), Nat.add_comm]

/-- The round's first packet: the count starts, the norm is the packet's own. -/
theorem Tally.first (m : Nat) (add : Word → Word → Word) (h : Tally r n norm top ∅ s) (hr : p.roundNum = r) :
    (s.accept m add p).receiveCount = 1#8 ∧ (s.accept m add p).normInfo = p.normInfo := by
  constructor
  · show s.nextCount p = 1#8
    unfold Slot.nextCount
    rcases h.fresh rfl with hlt | ⟨-, h0, -⟩
    · exact if_pos (.inl (hr ▸ hlt))
    · rw [h0]; split <;> rfl
  · unfold Slot.accept
    rcases h.fresh rfl with hlt | ⟨-, -, h0⟩
    · exact if_pos (.inl (hr ▸ hlt))
    · rw [h0]
      by_cases hz : 0#32 < p.normInfo
      · exact if_pos (.inr hz)
      · rw [show p.normInfo = 0#32 from BitVec.le_zero_iff.mp (BitVec.not_lt.mp hz)]
        simp

/-- A further packet of the round: the count goes on, or around. -/
theorem Tally.next_count (h : Tally r n norm top M s) (hM : M.Nonempty) (hn : 0 < n) (hr : p.roundNum = r)
    (hw : p.numWorker.toNat = n) : (s.nextCount p).toNat = 1 + M.card % n := by
  obtain ⟨h1, h2, -⟩ := h.counted hM
  have hirr : ¬ s.roundNum < p.roundNum := by rw [h1, hr]; exact BitVec.lt_irrefl _
  have hnext := succ_mod (M.card - 1) hn
  rw [Nat.sub_add_cancel hM.card_pos, ← h2] at hnext
  have hlt := p.numWorker.isLt
  have hc : s.receiveCount.toNat ≤ n := by
    have := Nat.mod_lt (M.card - 1) hn
    omega
  simp only [Slot.nextCount, hirr, false_or, hnext]
  by_cases he : s.receiveCount = p.numWorker
  · rw [if_pos he, if_pos (by rw [he, hw])]; rfl
  · have hne : s.receiveCount.toNat ≠ n := fun h0 => he (BitVec.eq_of_toNat_eq (h0.trans hw.symm))
    rw [if_neg he, if_neg hne, BitVec.toNat_add]
    simp only [BitVec.toNat_ofNat]
    omega

theorem Tally.newest (m : Nat) (add : Word → Word → Word) (h : Tally r n norm top M s) (hn : 0 < n)
    (hr : p.roundNum = r) (hw : p.numWorker.toNat = n) {i : Fin k} (hi : i ∉ M)
    (hle : norm i ≤ p.normInfo) (htop : p.normInfo ≤ top) :
    Tally r n norm top (insert i M) (s.step m add p) := by
  rw [Slot.step_of_le m add (hr ▸ h.roundNum_le)]
  refine ⟨fun he => absurd he (Finset.insert_ne_empty _ _), fun _ => ⟨hr, ?_⟩⟩
  rw [Finset.card_insert_of_notMem hi, Nat.add_sub_cancel]
  rcases M.eq_empty_or_nonempty with hM | hM
  · subst hM
    obtain ⟨hcount, hnorm⟩ := h.first m add hr
    rw [hnorm, hcount]
    refine ⟨by simp, fun j hj => ?_, htop⟩
    obtain rfl : j = i := by simpa using hj
    exact hle
  · obtain ⟨h1, -, h3, h4⟩ := h.counted hM
    have hirr : ¬ s.roundNum < p.roundNum := by rw [h1, hr]; exact BitVec.lt_irrefl _
    refine ⟨h.next_count hM hn hr hw, ?_⟩
    -- the norm is raised
    simp only [Slot.accept, hirr, false_or]
    split
    · next hup =>
      refine ⟨fun j hj => ?_, htop⟩
      rcases Finset.mem_insert.mp hj with rfl | hj
      · exact hle
      · exact BitVec.le_trans (h3 j hj) (BitVec.le_of_lt hup)
    · next hup =>
      refine ⟨fun j hj => ?_, h4⟩
      rcases Finset.mem_insert.mp hj with rfl | hj
      · exact BitVec.le_trans hle (BitVec.not_lt.mp hup)
      · exact h3 j hj

/-- The newest round, and its largest norm, as the headers carry them. -/
theorem exists_top (hk : 0 < k) (round norm : Fin k → BitVec 32) : ∃ r top : BitVec 32,
    r.toNat = topRound round ∧ (∀ i, round i ≤ r) ∧ (ofTop round).Nonempty ∧
    (∀ i ∈ ofTop round, norm i ≤ top) ∧ top.toNat = (ofTop round).sup fun i => (norm i).toNat := by
  have huniv : (Finset.univ : Finset (Fin k)).Nonempty := ⟨⟨0, hk⟩, Finset.mem_univ _⟩
  obtain ⟨i, -, hi⟩ := Finset.exists_mem_eq_sup _ huniv fun i => (round i).toNat
  have hmem : i ∈ ofTop round := Finset.mem_filter.mpr ⟨Finset.mem_univ i, hi.symm⟩
  obtain ⟨j, hj, hsup⟩ := Finset.exists_mem_eq_sup (ofTop round) ⟨i, hmem⟩ fun i => (norm i).toNat
  refine ⟨round i, norm j, hi.symm, fun l => ?_, ⟨i, hmem⟩, fun l hl => ?_, hsup.symm⟩
  · have hl := Finset.le_sup (f := fun i => (round i).toNat) (Finset.mem_univ l)
    exact BitVec.le_def.mpr (hi ▸ hl)
  · have hle := Finset.le_sup (f := fun i => (norm i).toNat) hl
    exact BitVec.le_def.mpr (hsup ▸ hle)

/-- When all packets of the newest round are counted, the slot is final. -/
theorem Tally.final {round : Fin k → BitVec 32} (h : Tally r n norm top (ofTop round) s)
    (hr : r.toNat = topRound round) (hne : (ofTop round).Nonempty)
    (htop : top.toNat = (ofTop round).sup fun i => (norm i).toNat) : Final n round norm s := by
  obtain ⟨h1, h2, h3, h4⟩ := h.counted hne
  refine ⟨by rw [h1, hr], h2, Nat.le_antisymm (htop ▸ h4) (Finset.sup_le fun i hi => h3 i hi)⟩

theorem tally_zero (hs : s.roundNum = 0 ∧ s.receiveCount = 0 ∧ s.normInfo = 0) : Tally r n norm top ∅ s := by
  refine ⟨fun _ => ?_, fun h => absurd h Finset.not_nonempty_empty⟩
  by_cases hr : r = 0#32
  · exact .inr ⟨hs.1.trans hr.symm, hs.2⟩
  · refine .inl ?_
    rw [hs.1]
    exact BitVec.not_le.mp fun h => hr (BitVec.le_zero_iff.mp h)

/-- What the packets of a list have in common, with the round and norm of each. -/
structure Family (n : Nat) (round norm : Fin k → BitVec 32) (p : Fin k → Pkt) : Prop where
  roundNum : ∀ i, (p i).roundNum = round i
  normInfo : ∀ i, (p i).normInfo = norm i
  numWorker : ∀ i, (p i).numWorker.toNat = n

theorem run_tally {round : Fin k → BitVec 32} {ps : Fin k → Pkt} (hf : Family n round norm ps)
    (hn : 0 < n) (hr : r.toNat = topRound round) (hround : ∀ i, round i ≤ r)
    (htop : ∀ i ∈ ofTop round, norm i ≤ top) (m : Nat) (add : Word → Word → Word)
    (hs : s.roundNum = 0 ∧ s.receiveCount = 0 ∧ s.normInfo = 0) (order : List (Fin k))
    (hnd : order.Nodup) :
    Tally r n norm top ((ofTop round).filter (· ∈ order)) (s.run m add (order.map ps)) := by
  induction order using List.reverseRecOn with
  | nil => simpa [Slot.run] using tally_zero hs
  | append_singleton order i ih =>
    obtain ⟨hnd', hi⟩ : order.Nodup ∧ i ∉ order := by
      rw [List.nodup_append] at hnd
      exact ⟨hnd.1, fun h => hnd.2.2 i h i (by simp) rfl⟩
    rw [List.map_append, List.map_singleton, Slot.run_append]
    by_cases hmem : i ∈ ofTop round
    · have hset : (ofTop round).filter (· ∈ order ++ [i]) = insert i ((ofTop round).filter (· ∈ order)) := by
        ext j
        simp only [Finset.mem_filter, List.mem_append, List.mem_singleton, Finset.mem_insert]
        grind
      have hri : round i = r := BitVec.eq_of_toNat_eq ((Finset.mem_filter.mp hmem).2.trans hr.symm)
      rw [hset]
      exact (ih hnd').newest m add hn ((hf.roundNum i).trans hri) (hf.numWorker i) (by simp [hi])
        (by rw [hf.normInfo]; exact BitVec.le_refl _) (by rw [hf.normInfo]; exact htop i hmem)
    · have hset : (ofTop round).filter (· ∈ order ++ [i]) = (ofTop round).filter (· ∈ order) := by
        ext j
        simp only [Finset.mem_filter, List.mem_append, List.mem_singleton]
        grind
      have hne : round i ≠ r := fun h => hmem (Finset.mem_filter.mpr ⟨Finset.mem_univ i, by rw [h, hr]⟩)
      rw [hset]
      refine (ih hnd').older m add ?_
      rw [hf.roundNum]
      exact BitVec.not_le.mp fun h => hne (BitVec.le_antisymm (hround i) h)

end Final

/-! ## The switch

All packets are there from the start: a packet that arrives late is one that makes its first
pass late. -/

section Switch
variable {k : Nat}

/-- `flight i`: the bytes with which packet `i` reaches the ingress parser next, if it is still
in the switch; `passes i`: how often it has been there. -/
structure State (k : Nat) where
  regs : Regs
  flight : Fin k → Option (List Byte)
  passes : Fin k → Nat

def State.init (g : Fin k → GradPkt) : State k := ⟨.init, fun i => some (g i).bytes, fun _ => 0⟩

/-- One packet's next pass, at some time. -/
structure Label (k : Nat) where
  i : Fin k
  tstamp : BitVec 48

def step (tbl : Tables) (s : State k) (l : Label k) : Option (State k) :=
  (s.flight l.i).bind fun b =>
    (pass tbl l.tstamp s.regs b).map fun (regs, b, md) =>
      { regs := regs
        flight := Function.update s.flight l.i (if Recirculates md then some b else none)
        passes := Function.update s.passes l.i (s.passes l.i + 1) }

def switch (tbl : Tables) (g : Fin k → GradPkt) : LTS (State k) (Label k) :=
  LTS.ofFn (· = State.init g) (step tbl)

/-- The recirculation table is as the setup script fills it, and a stale packet is not sent to
the recirculation port. -/
structure Wired (tbl : Tables) : Prop where
  recirc : tbl.recircPort = recircEntries
  route : ∀ dst, tbl.route dst ≠ some RECIRC_PORT

/-- Gradient packets of one slot as their workers send them. -/
def SameSlot (a : BitVec 16) (nw : BitVec 8) (g : Fin k → GradPkt) : Prop :=
  ∀ i, Sent a (g i).p4ml.roundNum nw (g i)

/-- Packet `i` before its pass number `j`: one of the newest round carries a norm of that round,
not less than its own. -/
structure InFlight (g : Fin k → GradPkt) (a : BitVec 16) (nw : BitVec 8) (r top : BitVec 32) (i : Fin k)
    (j : Nat) (b : List Byte) : Prop where
  lt : j < 4
  bytes : ∃ p es, b = ingressDeparser (dpdkHeader (g i).eth p (idx a j) es) (g i).rest ∧
    es.length = ENTRY_NUM ∧ Cur (g i).p4ml.roundNum nw j p ∧
    ((g i).p4ml.roundNum = r → (g i).p4ml.normInfo ≤ p.normInfo ∧ p.normInfo ≤ top)

/-- The newest round's packets that have made pass `q`. -/
def passed (g : Fin k → GradPkt) (r : BitVec 32) (s : State k) (q : Nat) : Finset (Fin k) :=
  Finset.univ.filter fun i => (g i).p4ml.roundNum = r ∧ q < s.passes i

@[simp] theorem mem_passed {g : Fin k → GradPkt} {r : BitVec 32} {s : State k} {q : Nat} {i : Fin k} :
    i ∈ passed g r s q ↔ (g i).p4ml.roundNum = r ∧ q < s.passes i := by
  simp [passed]

structure Inv (g : Fin k → GradPkt) (a : BitVec 16) (nw : BitVec 8) (r top : BitVec 32) (s : State k) :
    Prop where
  slots : ∀ q < 4, Tally r nw.toNat (fun i => (g i).p4ml.normInfo) top (passed g r s q)
    (s.regs.slot (idx a q))
  flight : ∀ i b, s.flight i = some b → InFlight g a nw r top i (s.passes i) b
  gone : ∀ i, s.flight i = none → (g i).p4ml.roundNum = r → s.passes i = 4
  passes : ∀ i, s.passes i ≤ 4

section Step
variable {tbl : Tables} {g : Fin k → GradPkt} {a : BitVec 16} {nw : BitVec 8} {r top : BitVec 32}
  {s s' : State k}

theorem inv_init (hg : SameSlot a nw g)
    (htop : ∀ i, (g i).p4ml.roundNum = r → (g i).p4ml.normInfo ≤ top) :
    Inv g a nw r top (State.init g) := by
  refine ⟨fun q _ => ?_, fun i b hb => ?_, fun i h => by simp [State.init] at h,
    fun i => by simp [State.init]⟩
  · have hnone : passed g r (State.init g) q = ∅ := by simp [passed, State.init]
    rw [hnone]
    exact tally_zero ⟨rfl, rfl, rfl⟩
  · obtain rfl : (g i).bytes = b := by simpa [State.init] using hb
    refine ⟨by simp [State.init], (g i).p4ml, (g i).words.take ENTRY_NUM, ?_, ?_, ?_, ?_⟩
    · rw [GradPkt.bytes_eq, (hg i).agtr]; simp [idx, State.init]
    · rw [List.length_take, (hg i).words]; rfl
    · exact ⟨rfl, (hg i).numWorker, (hg i).packetType, (hg i).recircTime⟩
    · exact fun h => ⟨BitVec.le_refl _, htop i h⟩

/-- A packet that finds a newer round is gone. -/
theorem stale_leaves (hw : Wired tbl) {regs : Regs} {p : P4ml} {c : BitVec 16} (dst : BitVec 48)
    (es : List Word) (h : p.roundNum < regs.roundNumbers c) :
    ¬ Recirculates (appIdSeq tbl dst regs p es c).md := by
  have h0 := (checkRoundNum_zero regs p c).mpr h
  simp only [appIdSeq, h0, if_true, route]
  rintro ⟨-, -, hport⟩
  split at hport
  · next port hroute => exact hw.route dst (hroute.trans hport)
  · exact absurd hport (by simp [RECIRC_PORT])

/-- The state after a pass of packet `i` that ends as `q`. -/
def State.next (s : State k) (i : Fin k) (q : Pass) (eth : Ethernet) (rest : List Byte) : State k where
  regs := q.regs
  flight := Function.update s.flight i (if Recirculates q.md then
    some (ingressDeparser (dpdkHeader eth q.p4ml q.agtr q.entries) rest) else none)
  passes := Function.update s.passes i (s.passes i + 1)

@[simp] theorem next_passes (i : Fin k) (q : Pass) (eth : Ethernet) (rest : List Byte) :
    (s.next i q eth rest).passes = Function.update s.passes i (s.passes i + 1) := rfl

theorem passed_next_self {i : Fin k} (q : Pass) (eth : Ethernet) (rest : List Byte)
    (hr : (g i).p4ml.roundNum = r) :
    passed g r (s.next i q eth rest) (s.passes i) = insert i (passed g r s (s.passes i)) := by
  ext j
  by_cases hj : j = i
  · subst hj; simp [hr]
  · simp [hj]

theorem passed_next_other {i : Fin k} (q : Pass) (eth : Ethernet) (rest : List Byte) {m : Nat}
    (h : (g i).p4ml.roundNum = r → m ≠ s.passes i) :
    passed g r (s.next i q eth rest) m = passed g r s m := by
  ext j
  by_cases hj : j = i
  · subst hj
    simp only [mem_passed, next_passes, Function.update_self]
    refine and_congr_right fun hr => ?_
    have := h hr
    omega
  · simp [hj]

variable (tbl) in
/-- Every packet in flight can make its next pass. -/
theorem pass_enabled (hg : SameSlot a nw g) {i : Fin k} {b : List Byte} (hb : s.flight i = some b)
    (hf : InFlight g a nw r top i (s.passes i) b) (ts : BitVec 48) : ∃ p es, es.length = ENTRY_NUM ∧
    Cur (g i).p4ml.roundNum nw (s.passes i) p ∧
    ((g i).p4ml.roundNum = r → (g i).p4ml.normInfo ≤ p.normInfo ∧ p.normInfo ≤ top) ∧
    step tbl s ⟨i, ts⟩ = some (s.next i
      (appIdSeq tbl (g i).eth.dstAddr s.regs p es (idx a (s.passes i))) (g i).eth (g i).rest) := by
  obtain ⟨p, es, rfl, hl, hc, hn⟩ := hf.bytes
  refine ⟨if p.recircTime = 0#8 then { p with ingressGlobal := ts } else p, es, hl, hc.stamp ts, ?_, ?_⟩
  · split <;> exact hn
  · simp only [step, hb, Option.bind_some, pass_dpdk tbl ts s.regs p _ _ (hg i).etherType hl,
      Option.map_some]
    rfl

section Pass
variable (hw : Wired tbl) (hn : 0 < nw.toNat) (hround : ∀ i, (g i).p4ml.roundNum ≤ r)
  (hi : Inv g a nw r top s) {i : Fin k} (hlt : s.passes i < 4) {p : P4ml} {es : List Word}
  (hl : es.length = ENTRY_NUM) (hc : Cur (g i).p4ml.roundNum nw (s.passes i) p)
  (hnorm : (g i).p4ml.roundNum = r → (g i).p4ml.normInfo ≤ p.normInfo ∧ p.normInfo ≤ top)
include hn hround hi hlt hl hc hnorm

variable (tbl) in
/-- A pass touches the index it is at, and counts there. -/
theorem slots_next (q : Nat) (hq : q < 4) :
    Tally r nw.toNat (fun i => (g i).p4ml.normInfo) top
      (passed g r (s.next i (appIdSeq tbl (g i).eth.dstAddr s.regs p es (idx a (s.passes i)))
        (g i).eth (g i).rest) q)
      ((appIdSeq tbl (g i).eth.dstAddr s.regs p es (idx a (s.passes i))).regs.slot (idx a q)) := by
  have hpkt : (pkt p es).roundNum = (g i).p4ml.roundNum := hc.roundNum
  have htally := hi.slots _ hlt
  rw [appIdSeq_slot tbl _ hl]
  by_cases hqi : q = s.passes i
  · subst hqi
    rw [if_pos rfl]
    by_cases hr : (g i).p4ml.roundNum = r
    · rw [passed_next_self _ _ _ hr]
      exact htally.newest _ _ hn (hpkt.trans hr) (congrArg BitVec.toNat hc.numWorker)
        (by simp) (hnorm hr).1 (hnorm hr).2
    · rw [passed_next_other _ _ _ fun h => absurd h hr]
      refine htally.older _ _ ?_
      rw [hpkt]
      exact BitVec.not_le.mp fun h => hr (BitVec.le_antisymm (hround i) h)
  · rw [if_neg (idx_ne a hq hlt hqi), passed_next_other _ _ _ fun _ => hqi]
    exact hi.slots q hq

include hw

/-- A packet that comes back is one pass further, with the norm of the index it leaves. -/
theorem flight_next
    (hre : Recirculates (appIdSeq tbl (g i).eth.dstAddr s.regs p es (idx a (s.passes i))).md) :
    InFlight g a nw r top i (s.passes i + 1) (ingressDeparser (dpdkHeader (g i).eth
      (appIdSeq tbl (g i).eth.dstAddr s.regs p es (idx a (s.passes i))).p4ml
      (appIdSeq tbl (g i).eth.dstAddr s.regs p es (idx a (s.passes i))).agtr
      (appIdSeq tbl (g i).eth.dstAddr s.regs p es (idx a (s.passes i))).entries) (g i).rest) := by
  have hacc : s.regs.roundNumbers (idx a (s.passes i)) ≤ (g i).p4ml.roundNum := by
    rw [← hc.roundNum]
    exact BitVec.not_lt.mp fun h => stale_leaves hw _ es h hre
  have hlt3 : s.passes i < 3 := by
    by_contra h3
    exact (appIdSeq_last hc es hacc tbl _ (by omega)).1 hre
  obtain ⟨h1, h2, -⟩ := appIdSeq_next hc es hacc tbl (g i).eth.dstAddr hlt3 hw.recirc
  have hlen := (appIdSeq_carries hc hacc tbl (g i).eth.dstAddr hl).1
  refine ⟨by omega, _, _, by rw [h1, idx_succ], hlen, h2, fun hr => ?_⟩
  -- the norm it takes along is that of the slot it has just been counted in
  have hcarry : (appIdSeq tbl (g i).eth.dstAddr s.regs p es (idx a (s.passes i))).p4ml.normInfo =
      ((appIdSeq tbl (g i).eth.dstAddr s.regs p es (idx a (s.passes i))).regs.slot
        (idx a (s.passes i))).normInfo := by
    have h3 : p.recircTime ≠ 3#8 := by
      rw [hc.recircTime]; intro h; have := congrArg BitVec.toNat h; simp at this; omega
    have hle : s.regs.roundNumbers (idx a (s.passes i)) ≤ p.roundNum := hc.roundNum ▸ hacc
    rw [(appIdSeq_recirc tbl (g i).eth.dstAddr es hle h3).2.1, appIdSeq_slot tbl _ hl, if_pos rfl,
      Slot.step_of_le _ _ hle]
    rfl
  have htally := slots_next tbl hn hround hi hlt hl hc hnorm (s.passes i) hlt
  rw [passed_next_self _ _ _ hr] at htally
  obtain ⟨-, -, h4, h5⟩ := htally.counted (Finset.insert_nonempty _ _)
  rw [hcarry]
  exact ⟨h4 i (Finset.mem_insert_self _ _), h5⟩

/-- **Step.** -/
theorem inv_next : Inv g a nw r top (s.next i
    (appIdSeq tbl (g i).eth.dstAddr s.regs p es (idx a (s.passes i))) (g i).eth (g i).rest) := by
  refine ⟨slots_next tbl hn hround hi hlt hl hc hnorm, fun j b hb => ?_, fun j hj hjr => ?_, fun j => ?_⟩
  · by_cases hji : j = i
    · subst hji
      simp only [State.next, Function.update_self, Option.ite_none_right_eq_some, Option.some.injEq] at hb ⊢
      obtain ⟨hre, rfl⟩ := hb
      exact flight_next hw hn hround hi hlt hl hc hnorm hre
    · simp only [State.next, Function.update_of_ne hji] at hb ⊢
      exact hi.flight j b hb
  · by_cases hji : j = i
    · subst hji
      simp only [State.next, Function.update_self, ite_eq_right_iff, reduceCtorEq, imp_false] at hj ⊢
      have hacc : s.regs.roundNumbers (idx a (s.passes j)) ≤ (g j).p4ml.roundNum :=
        hjr ▸ (hi.slots _ hlt).roundNum_le
      have h3 : ¬ s.passes j < 3 := fun h3 =>
        hj (appIdSeq_next hc es hacc tbl (g j).eth.dstAddr h3 hw.recirc).2.2
      omega
    · simp only [State.next, Function.update_of_ne hji] at hj ⊢
      exact hi.gone j hj hjr
  · by_cases hji : j = i
    · subst hji; simp; omega
    · simpa [hji] using hi.passes j

end Pass

theorem inv_inductive (hw : Wired tbl) (hg : SameSlot a nw g) (hn : 0 < nw.toNat)
    (hround : ∀ i, (g i).p4ml.roundNum ≤ r)
    (htop : ∀ i, (g i).p4ml.roundNum = r → (g i).p4ml.normInfo ≤ top) :
    (switch tbl g).Inductive (Inv g a nw r top) where
  init := by rintro s rfl; exact inv_init hg htop
  step := by
    intro s l s' hi hs
    obtain ⟨i, ts⟩ := l
    have hs : step tbl s ⟨i, ts⟩ = some s' := hs
    cases hb : s.flight i with
    | none => simp [step, hb] at hs
    | some b =>
      have hf := hi.flight i b hb
      obtain ⟨p, es, hl, hc, hnorm, he⟩ := pass_enabled tbl hg hb hf ts
      obtain rfl := Option.some.inj (he.symm.trans hs)
      exact inv_next hw hn hround hi hf.lt hl hc hnorm

end Step

/-- The passes that may be left. -/
def State.left (s : State k) : Nat := ∑ i, (4 - s.passes i)

theorem left_next (s : State k) {i : Fin k} (h : s.passes i < 4) (q : Pass) (eth : Ethernet)
    (rest : List Byte) : (s.next i q eth rest).left < s.left := by
  refine Finset.sum_lt_sum (fun j _ => ?_) ⟨i, Finset.mem_univ i, ?_⟩
  · by_cases hj : j = i
    · subst hj; simp; omega
    · simp [hj]
  · simp; omega

section Run
variable {tbl : Tables} {g : Fin k → GradPkt} {a : BitVec 16} {nw : BitVec 8} (hk : 0 < k)
  (hw : Wired tbl) (hg : SameSlot a nw g) (hn : 0 < nw.toNat)
include hk hw hg hn

theorem exists_inv : ∃ r top, (switch tbl g).Inductive (Inv g a nw r top) ∧
    ∀ s, Inv g a nw r top s → (∀ i, s.flight i = none) → ∀ q < 4,
      Final nw.toNat (fun i => (g i).p4ml.roundNum) (fun i => (g i).p4ml.normInfo)
        (s.regs.slot (idx a q)) := by
  obtain ⟨r, top, hr, hround, hne, htop, hsup⟩ :=
    exists_top hk (fun i => (g i).p4ml.roundNum) (fun i => (g i).p4ml.normInfo)
  have hmem : ∀ i, i ∈ ofTop (fun i => (g i).p4ml.roundNum) ↔ (g i).p4ml.roundNum = r := by
    intro i
    rw [ofTop, Finset.mem_filter, ← hr]
    exact ⟨fun h => BitVec.eq_of_toNat_eq h.2, fun h => ⟨Finset.mem_univ i, congrArg _ h⟩⟩
  refine ⟨r, top, inv_inductive hw hg hn hround fun i hi => htop i ((hmem i).mpr hi), ?_⟩
  intro s hi hquiet q hq
  have hall : passed g r s q = ofTop (fun i => (g i).p4ml.roundNum) := by
    ext i
    rw [mem_passed, hmem]
    exact and_iff_left_of_imp fun h => by rw [hi.gone i (hquiet i) h]; exact hq
  exact (hall ▸ hi.slots q hq).final hr hne hsup

/-- Every run can be continued until no packet is in flight. -/
theorem exists_quiet (s : State k) (hs : (switch tbl g).Reachable s) :
    ∃ s', (switch tbl g).Reachable s' ∧ ∀ i, s'.flight i = none := by
  obtain ⟨r, top, hind, -⟩ := exists_inv hk hw hg hn
  induction hm : s.left using Nat.strong_induction_on generalizing s with
  | _ m ih =>
    by_cases hquiet : ∀ i, s.flight i = none
    · exact ⟨s, hs, hquiet⟩
    · obtain ⟨i, hi⟩ := not_forall.mp hquiet
      obtain ⟨b, hb⟩ := Option.ne_none_iff_exists'.mp hi
      have hf := (hind.reachable s hs).flight i b hb
      obtain ⟨p, es, -, -, -, he⟩ := pass_enabled tbl hg hb hf 0
      exact ih _ (hm ▸ left_next s hf.lt _ _ _) _ (.step hs he) rfl

end Run
end Switch

/-! ## Both aggregators -/

section Both
open Inca.L1.DpdkPkt Inca.L2.ParameterServer

/-- **Final slots.** `k > 0` gradient packets of one slot with one `num_worker > 0`. At the
software parameter server, whatever the order of arrival; at the switch, whatever the order of
the passes, each packet can make its next pass while it is in flight, makes four at most, and
once none is in flight: the slot, and each of the four, is final. -/
theorem slots_final {k : Nat} (hk : 0 < k) (a : BitVec 16) (nw : BitVec 8) (hn : 0 < nw.toNat) :
    (∀ (n : Nat) (f : Fin k → Frame), (∀ i, accepts (f i) ∧ (f i).msg.cmd = TENSOR_COMM ∧
        (f i).msg.p4mlHdrs.agtr = a ∧ (f i).msg.p4mlHdrs.numWorker = nw) →
      ∀ order : List (Fin k), order.Nodup → (∀ i, i ∈ order) →
      Final nw.toNat (fun i => (f i).msg.p4mlHdrs.roundNum) (fun i => (f i).msg.p4mlHdrs.normInfo)
        ((serve n Ps.init (order.map f)).slot a)) ∧
    ∀ (tbl : Tables) (g : Fin k → GradPkt), Wired tbl → SameSlot a nw g →
      ∀ s, (switch tbl g).Reachable s →
      (∀ i, s.passes i ≤ 4 ∧ (s.flight i ≠ none → ∀ ts, (step tbl s ⟨i, ts⟩).isSome)) ∧
      ((∀ i, s.flight i = none) → ∀ q < 4,
        Final nw.toNat (fun i => (g i).p4ml.roundNum) (fun i => (g i).p4ml.normInfo)
          (s.regs.slot (idx a q))) := by
  constructor
  · intro n f hf order hnd hall
    obtain ⟨r, top, hr, hround, hne, htop, hsup⟩ :=
      exists_top hk (fun i => (f i).msg.p4mlHdrs.roundNum) (fun i => (f i).msg.p4mlHdrs.normInfo)
    have hfam : Family nw.toNat (fun i => (f i).msg.p4mlHdrs.roundNum)
        (fun i => (f i).msg.p4mlHdrs.normInfo) fun i => Inca.L2.ParameterServer.pkt (f i).msg :=
      ⟨fun _ => rfl, fun _ => rfl, fun i => congrArg BitVec.toNat (hf i).2.2.2⟩
    have htally := run_tally hfam hn hr hround htop MAX_ENTRIES_PER_PACKET (· + ·)
      (s := Ps.init.slot a) ⟨rfl, rfl, rfl⟩ order hnd
    rw [Finset.filter_true_of_mem fun i _ => hall i] at htally
    rw [serve_slot n Ps.init (order.map f) fun x hx => ?_, List.map_map]
    · exact htally.final hr hne hsup
    · obtain ⟨i, -, rfl⟩ := List.mem_map.mp hx
      exact ⟨(hf i).1, (hf i).2.2.1⟩
  · intro tbl g hw hg s hs
    obtain ⟨r, top, hind, hfin⟩ := exists_inv hk hw hg hn
    have hi := hind.reachable s hs
    refine ⟨fun i => ⟨hi.passes i, fun hfl ts => ?_⟩, hfin s hi⟩
    obtain ⟨b, hb⟩ := Option.ne_none_iff_exists'.mp hfl
    obtain ⟨p, es, -, -, -, he⟩ := pass_enabled tbl hg hb (hi.flight i b hb) ts
    rw [he]; rfl

/-- Packet of round `round i` with norm `norm i`, no data, for slot 8 of two workers. -/
def ctlPkt (round norm : BitVec 32) : GradPkt :=
  ⟨⟨0, 0, 0x0a00⟩, ⟨0, 2, round, 0, norm, 0, 0, 0, 0, 0, 0, 0, 0⟩, 8, List.replicate VECTOR_NUM 0, [],
    fun _ => 0⟩

/-- Two packets of round 2 and a late one of round 1 with the largest norm. -/
theorem slots_final_late_packet :
    let round : Fin 3 → BitVec 32 := ![2, 1, 2]
    let norm : Fin 3 → BitVec 32 := ![5, 9, 7]
    let f : Fin 3 → Frame := fun i =>
      ⟨0x0c00, ⟨⟨0, 2, round i, 0, norm i, 0, 0, 8, fun _ => 0⟩, 0, TENSOR_COMM, 0, false⟩⟩
    let final (s : Slot) := s.roundNum.toNat = 2 ∧ s.receiveCount.toNat = 2 ∧ s.normInfo.toNat = 7
    final ((serve 2 Ps.init ([0, 1, 2].map f)).slot 8) ∧
    ∃ s, (switch recircTables fun i => ctlPkt (round i) (norm i)).Reachable s ∧
      (∀ i, s.flight i = none) ∧ ∀ q < 4, final (s.regs.slot (idx 8 q)) := by
  intro round norm f final
  have hfin : ∀ s, Final 2 round norm s → final s := by
    intro s h
    exact ⟨h.roundNum.trans (by decide), h.receiveCount.trans (by decide), h.normInfo.trans (by decide)⟩
  have hg : SameSlot 8 2 fun i => ctlPkt (round i) (norm i) := fun i =>
    ⟨rfl, rfl, rfl, rfl, rfl, rfl, List.length_replicate⟩
  have hw : Wired recircTables := ⟨rfl, fun _ => by simp [recircTables]⟩
  obtain ⟨hps, hsw⟩ := slots_final (show 0 < 3 by decide) 8 2 (by decide)
  obtain ⟨s, hs, hq⟩ := exists_quiet (by decide) hw hg (by decide) _ (.init rfl)
  refine ⟨hfin _ (hps 2 f (fun i => ⟨⟨rfl, .inl rfl, rfl⟩, rfl, rfl, rfl⟩) [0, 1, 2] (by decide)
    (by decide)), s, hs, hq, fun q h4 => hfin _ ((hsw _ _ hw hg s hs).2 hq q h4)⟩

end Both
end Inca.L3.FinalSlot
