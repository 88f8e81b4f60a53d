import Inca.L2Machine.ParameterServer
import Inca.L2Machine.Switch

/-!
# The bitmap of an aggregation slot

`bitmap` is to say whose packets are in a slot, `receive_count` how many.
Both aggregators set the count back to 1 when a newer round begins, but
clear the bitmap only when a round completes: the bits of a round that was
given up stay and are taken for senders of the next one.

`tally` is what the count counts, from the packets alone.

* `run_tally`: the count is the number of the packets in the tally.
* `bitmap_iff`: the bitmap is the OR over exactly these packets, at every
  accepted packet, if and only if every packet covers (`Covers`) what is
  left over when it is accepted. For both aggregators.
* `bitmap_counterexample`: round 1 of two workers is given up for round 2.
-/
namespace Inca.L2.SlotBitmap
open Inca.L1.DpdkPkt Inca.L1.P4 Inca.L2.AggSlot

/-! ## What the count counts -/

structure Tally where
  roundNum : BitVec 32
  counted : List Pkt
  /-- the last accepted packet completed its round -/
  completed : Bool

namespace Tally

def init : Tally := ⟨0, [], false⟩

def count (t : Tally) : BitVec 8 := BitVec.ofNat 8 t.counted.length

/-- The count begins again with `p`. -/
def Restarts (t : Tally) (p : Pkt) : Prop := t.roundNum < p.roundNum ∨ t.count = p.numWorker

instance (t : Tally) (p : Pkt) : Decidable (t.Restarts p) := inferInstanceAs (Decidable (_ ∨ _))

def accept (t : Tally) (p : Pkt) : Tally :=
  let counted := if t.Restarts p then [p] else t.counted ++ [p]
  ⟨p.roundNum, counted, BitVec.ofNat 8 counted.length = p.numWorker⟩

def step (t : Tally) (p : Pkt) : Tally := if p.roundNum < t.roundNum then t else t.accept p

/-- The OR of the bitmap fields of `ps`. -/
def orAll (ps : List Pkt) : BitVec 32 := ps.foldl (fun b p => b ||| p.bitmap) 0#32

/-- The bitmap that belongs to the tally. -/
def bitmap (t : Tally) : BitVec 32 := if t.completed then 0#32 else orAll t.counted

/-- `p` has all the bits that the slot has before it and should not, or should have and has not:
those of a round that was given up, if the count begins again; those of the packets counted
already, if it goes on after a round has completed (which takes packets with different
`num_worker`). -/
def Covers (t : Tally) (p : Pkt) : Prop :=
  if t.Restarts p then t.bitmap ||| p.bitmap = p.bitmap
  else t.completed = true → orAll t.counted ||| p.bitmap = p.bitmap

theorem accept_counted (t : Tally) (p : Pkt) :
    (t.accept p).counted = if t.Restarts p then [p] else t.counted ++ [p] := rfl

theorem accept_count (t : Tally) (p : Pkt) :
    (t.accept p).count = if t.Restarts p then 1#8 else t.count + 1#8 := by
  unfold count accept
  split
  · rfl
  · rw [List.length_append, List.length_singleton, BitVec.ofNat_add]

@[simp] theorem orAll_nil : orAll [] = 0#32 := rfl

@[simp] theorem orAll_append (ps : List Pkt) (p : Pkt) : orAll (ps ++ [p]) = orAll ps ||| p.bitmap := by
  simp [orAll]

@[simp] theorem orAll_singleton (p : Pkt) : orAll [p] = p.bitmap := by
  simpa using orAll_append [] p

end Tally

/-- What the count counts after the packets `ps`, from a zeroed slot. -/
def tally (ps : List Pkt) : Tally := ps.foldl Tally.step Tally.init

theorem tally_append (ps : List Pkt) (p : Pkt) : tally (ps ++ [p]) = (tally ps).step p := by
  simp [tally]

theorem tally_accept {ps : List Pkt} {p : Pkt} (h : (tally ps).roundNum ≤ p.roundNum) :
    tally (ps ++ [p]) = (tally ps).accept p := by
  rw [tally_append, Tally.step, if_neg (BitVec.not_lt.mpr h)]

theorem tally_stale {ps : List Pkt} {p : Pkt} (h : p.roundNum < (tally ps).roundNum) :
    tally (ps ++ [p]) = tally ps := by
  rw [tally_append, Tally.step, if_pos h]

/-! ## The slot against the tally -/

section Run
variable (m : Nat) (add : Word → Word → Word) {s : Slot}

/-- A slot nobody has used. -/
structure Fresh (s : Slot) : Prop where
  roundNum : s.roundNum = 0
  receiveCount : s.receiveCount = 0
  bitmap : s.bitmap = 0

/-- **Count.** Round and count of a slot are those of the tally. -/
theorem run_tally (hs : Fresh s) (ps : List Pkt) :
    (s.run m add ps).roundNum = (tally ps).roundNum ∧
    (s.run m add ps).receiveCount = (tally ps).count := by
  induction ps using List.reverseRecOn with
  | nil => exact ⟨hs.roundNum, hs.receiveCount⟩
  | append_singleton ps p ih =>
    obtain ⟨hr, hc⟩ := ih
    rw [Slot.run_append]
    generalize s.run m add ps = t at hr hc
    by_cases hst : p.roundNum < (tally ps).roundNum
    · rw [tally_stale hst, Slot.step, if_pos (hr ▸ hst)]
      exact ⟨hr, hc⟩
    · have hle := BitVec.not_lt.mp hst
      rw [tally_accept hle, Slot.step_of_le m add (hr ▸ hle)]
      refine ⟨rfl, ?_⟩
      rw [Tally.accept_count]
      simp only [Slot.accept, Slot.nextCount, hr, hc]
      rfl

/-- The slot has the bitmap that belongs to the tally. -/
def Agrees (s : Slot) (ps : List Pkt) : Prop := (s.run m add ps).bitmap = (tally ps).bitmap

variable {m add}

theorem agrees_stale (hs : Fresh s) {ps : List Pkt} {p : Pkt} (h : p.roundNum < (tally ps).roundNum) :
    Agrees m add s (ps ++ [p]) ↔ Agrees m add s ps := by
  have hr := (run_tally m add hs ps).1
  rw [Agrees, Agrees, Slot.run_append, tally_stale h, Slot.step, if_pos (hr ▸ h)]

/-- **Step.** Where slot and tally agree, they agree after an accepted packet if it completes
the round or covers what is left over. -/
theorem agrees_accept (hs : Fresh s) {ps : List Pkt} {p : Pkt} (hlast : p.last = true)
    (ha : Agrees m add s ps) (hle : (tally ps).roundNum ≤ p.roundNum) :
    Agrees m add s (ps ++ [p]) ↔
      (((tally ps).accept p).completed = false → (tally ps).Covers p) := by
  obtain ⟨hr, -⟩ := run_tally m add hs ps
  obtain ⟨-, hc⟩ := run_tally m add hs (ps ++ [p])
  rw [Agrees, tally_accept hle, Slot.run_append, Slot.step_of_le m add (hr ▸ hle)] at *
  generalize s.run m add ps = t at *
  replace hc : t.nextCount p = ((tally ps).accept p).count := hc
  have hcomp : ((tally ps).accept p).completed = decide (((tally ps).accept p).count = p.numWorker) := rfl
  simp only [Slot.accept, hlast, if_true, hc, hcomp, Tally.bitmap, decide_eq_true_eq, decide_eq_false_iff_not]
  by_cases hn : ((tally ps).accept p).count = p.numWorker
  · simp only [hn, if_true, not_true_eq_false, false_imp_iff]
  · simp only [hn, if_false, not_false_eq_true, true_imp_iff, ha, Tally.accept_counted, Tally.Covers]
    by_cases hre : (tally ps).Restarts p
    · simp only [hre, if_true, Tally.orAll_singleton]
    · simp only [hre, if_false, Tally.orAll_append, Tally.bitmap]
      by_cases hd : (tally ps).completed = true
      · simp only [hd, if_true, true_imp_iff, BitVec.zero_or]
        exact eq_comm
      · simp [hd]

/-- Every accepted packet that does not complete its round covers what is left over. -/
def AllCover (ps : List Pkt) : Prop :=
  ∀ xs p ys, ps = xs ++ p :: ys → (tally xs).roundNum ≤ p.roundNum →
    ((tally xs).accept p).completed = false → (tally xs).Covers p

/-- **Run.** Slot and tally agree at every accepted packet if and only if all packets cover. -/
theorem agrees_iff (hs : Fresh s) {ps : List Pkt} (hlast : ∀ p ∈ ps, p.last = true) :
    (∀ xs p ys, ps = xs ++ p :: ys → (tally xs).roundNum ≤ p.roundNum → Agrees m add s (xs ++ [p])) ↔
      AllCover ps := by
  -- agreement at every accepted packet is agreement at every prefix
  have hpre : (∀ xs p ys, ps = xs ++ p :: ys → (tally xs).roundNum ≤ p.roundNum →
      Agrees m add s (xs ++ [p])) → ∀ xs ys, ps = xs ++ ys → Agrees m add s xs := by
    intro h xs
    induction xs using List.reverseRecOn with
    | nil => intro _ _; exact hs.bitmap
    | append_singleton xs p ih =>
      intro ys he
      by_cases hst : p.roundNum < (tally xs).roundNum
      · exact (agrees_stale hs hst).mpr (ih (p :: ys) (by simpa using he))
      · exact h xs p ys (by simpa using he) (BitVec.not_lt.mp hst)
  constructor
  · intro h xs p ys he hle
    have hp : p.last = true := hlast p (by simp [he])
    exact (agrees_accept hs hp (hpre h xs (p :: ys) he) hle).mp (h xs p ys he hle)
  · intro h xs
    -- the other way round the agreement is carried along from the empty prefix
    suffices ∀ ys, ps = xs ++ ys → Agrees m add s xs by
      intro p ys he hle
      have hp : p.last = true := hlast p (by simp [he])
      exact (agrees_accept hs hp (this (p :: ys) he) hle).mpr (h xs p ys he hle)
    induction xs using List.reverseRecOn with
    | nil => intro _ _; exact hs.bitmap
    | append_singleton xs p ih =>
      intro ys he
      have he' : ps = xs ++ p :: ys := by simpa using he
      by_cases hst : p.roundNum < (tally xs).roundNum
      · exact (agrees_stale hs hst).mpr (ih (p :: ys) he')
      · have hle := BitVec.not_lt.mp hst
        exact (agrees_accept hs (hlast p (by simp [he'])) (ih (p :: ys) he') hle).mpr (h xs p ys he' hle)

end Run

/-! ## One number of workers -/

section OneNumWorker
variable {nw : BitVec 8} {ps : List Pkt} (hnw : ∀ p ∈ ps, p.numWorker = nw)
include hnw

theorem completed_iff : (tally ps).completed = true ↔ (tally ps).counted ≠ [] ∧ (tally ps).count = nw := by
  induction ps using List.reverseRecOn with
  | nil => simp [tally, Tally.init]
  | append_singleton ps p ih =>
    by_cases hst : p.roundNum < (tally ps).roundNum
    · rw [tally_stale hst]; exact ih fun q hq => hnw q (by simp [hq])
    · have hp := hnw p (by simp)
      have hne : ((tally ps).accept p).counted ≠ [] := by
        rw [Tally.accept_counted]; split <;> simp
      rw [tally_accept (BitVec.not_lt.mp hst)]
      simp only [ne_eq, hne, not_false_eq_true, true_and, ← hp]
      exact decide_eq_true_iff

/-- The count begins again in the same round only after the round has completed, or before
any packet. -/
theorem bitmap_of_count (h : (tally ps).count = nw) : (tally ps).bitmap = 0#32 := by
  have hc := completed_iff hnw
  unfold Tally.bitmap
  split
  · rfl
  · rename_i hn
    have : (tally ps).counted = [] := by
      by_contra hne; exact hn (hc.mpr ⟨hne, h⟩)
    rw [this]; rfl

/-- With one number of workers only a newer round can find anything left over. -/
theorem covers_iff {p : Pkt} (hp : p.numWorker = nw) :
    (tally ps).Covers p ↔
      ((tally ps).roundNum < p.roundNum → (tally ps).bitmap ||| p.bitmap = p.bitmap) := by
  have hc := completed_iff hnw
  unfold Tally.Covers
  by_cases hnew : (tally ps).roundNum < p.roundNum
  · rw [if_pos (.inl hnew)]
    exact ⟨fun h _ => h, fun h => h hnew⟩
  · by_cases hn : (tally ps).count = nw
    · rw [if_pos (.inr (hn.trans hp.symm)), bitmap_of_count hnw hn]
      simp [hnew]
    · rw [if_neg (by rintro (h | h); exacts [hnew h, hn (h.trans hp)])]
      exact ⟨fun _ h => absurd h hnew, fun _ hd => absurd (hc.mp hd).2 hn⟩

/-- **One number of workers.** Then it is the rounds given up that count: a newer round has to
come from at least the senders of the one before, if that did not complete. -/
theorem allCover_iff : AllCover ps ↔ ∀ xs p ys, ps = xs ++ p :: ys →
    (tally xs).roundNum < p.roundNum → ((tally xs).accept p).completed = false →
      (tally xs).bitmap ||| p.bitmap = p.bitmap := by
  have hc : ∀ xs p ys, ps = xs ++ p :: ys → ((tally xs).Covers p ↔
      ((tally xs).roundNum < p.roundNum → (tally xs).bitmap ||| p.bitmap = p.bitmap)) :=
    fun xs p ys he => covers_iff (fun q hq => hnw q (by simp [he, hq])) (hnw p (by simp [he]))
  constructor
  · intro h xs p ys he hlt hn
    exact (hc xs p ys he).mp (h xs p ys he (BitVec.le_of_lt hlt) hn) hlt
  · intro h xs p ys he _ hn
    exact (hc xs p ys he).mpr fun hlt => h xs p ys he hlt hn

omit hnw in
theorem tally_roundNum {r : BitVec 32} (hr : ∀ p ∈ ps, p.roundNum = r) (hne : ps ≠ []) :
    (tally ps).roundNum = r := by
  induction ps using List.reverseRecOn with
  | nil => exact absurd rfl hne
  | append_singleton ps p ih =>
    have hp := hr p (by simp)
    have hle : (tally ps).roundNum ≤ p.roundNum := by
      by_cases h0 : ps = []
      · subst h0; exact BitVec.not_lt.mp BitVec.not_lt_zero
      · rw [ih (fun q hq => hr q (by simp [hq])) h0, hp]; exact BitVec.le_refl _
    rw [tally_accept hle]
    exact hp

/-- Packets of one round only, of one number of workers, leave nothing over. -/
theorem allCover_of_round {r : BitVec 32} (hr : ∀ p ∈ ps, p.roundNum = r) : AllCover ps := by
  refine (allCover_iff hnw).mpr fun xs p ys he hlt _ => ?_
  by_cases h0 : xs = []
  · subst h0; exact BitVec.zero_or
  · rw [tally_roundNum (fun q hq => hr q (by simp [he, hq])) h0, hr p (by simp [he])] at hlt
    exact absurd hlt (BitVec.lt_irrefl _)

end OneNumWorker

/-! ## The two aggregators -/

section Aggregators
variable {α : Type} (slot : List α → Slot) (pkt : α → Pkt)

/-- The slot counts the packets of the tally. -/
def Counts (qs : List α) : Prop := (slot qs).receiveCount = (tally (qs.map pkt)).count

/-- After every accepted packet the bitmap is the OR over the packets that the count counts,
or zero if the packet completed its round. -/
def Exact (qs : List α) : Prop :=
  ∀ xs q ys, qs = xs ++ q :: ys → (slot xs).roundNum ≤ (pkt q).roundNum →
    (slot (xs ++ [q])).bitmap = (tally ((xs ++ [q]).map pkt)).bitmap

variable {slot pkt}

theorem exact_iff {s : Slot} (hs : Fresh s) {m : Nat} {add : Word → Word → Word} {qs : List α}
    (hrun : ∀ xs ys, qs = xs ++ ys → slot xs = s.run m add (xs.map pkt))
    (hlast : ∀ q ∈ qs, (pkt q).last = true) :
    Counts slot pkt qs ∧ (Exact slot pkt qs ↔ AllCover (qs.map pkt)) := by
  refine ⟨?_, ?_⟩
  · rw [Counts, hrun qs [] (by simp)]
    exact (run_tally m add hs _).2
  have hl : ∀ p ∈ qs.map pkt, p.last = true := by
    intro p hp
    obtain ⟨q, hq, rfl⟩ := List.mem_map.mp hp
    exact hlast q hq
  have hagree : (∀ xs p ys, qs.map pkt = xs ++ p :: ys → (tally xs).roundNum ≤ p.roundNum →
      Agrees m add s (xs ++ [p])) ↔ AllCover (qs.map pkt) := agrees_iff hs hl
  rw [← hagree]
  constructor
  · intro h xs p ys he hle
    -- a split of the packets' list comes from a split of the list itself
    obtain ⟨xs, zs, rfl, rfl, hz⟩ := List.map_eq_append_iff.mp he
    obtain ⟨q, ys, rfl, rfl, rfl⟩ := List.map_eq_cons_iff.mp hz
    have hacc : (slot xs).roundNum ≤ (pkt q).roundNum := by
      rw [hrun xs (q :: ys) rfl, (run_tally m add hs _).1]; exact hle
    have hq := h xs q ys rfl hacc
    rw [hrun (xs ++ [q]) ys (by simp)] at hq
    simpa [Agrees] using hq
  · intro h xs q ys he hle
    subst he
    rw [hrun xs (q :: ys) rfl, (run_tally m add hs _).1] at hle
    rw [hrun (xs ++ [q]) ys (by simp)]
    simpa [Agrees] using h (xs.map pkt) (pkt q) (ys.map pkt) (by simp) hle

end Aggregators

/-- **Bitmap.** Any packets for one slot of the software parameter server, and any packets for
one index of the switch that come in on their last pass. The count counts the packets of the
tally, and the bitmap names exactly their senders, at every accepted packet, if and only if
each packet covers what is left over when it comes. -/
theorem bitmap_iff (a : BitVec 16) :
    (∀ n (fs : List Frame), (∀ f ∈ fs, ParameterServer.accepts f ∧ f.msg.p4mlHdrs.agtr = a) →
      let slot := fun fs => (ParameterServer.serve n .init fs).slot a
      let pkt := fun f : Frame => ParameterServer.pkt f.msg
      Counts slot pkt fs ∧ (Exact slot pkt fs ↔ AllCover (fs.map pkt))) ∧
    (∀ tbl (qs : List Switch.SwPkt),
      (∀ q ∈ qs, q.agtr = a ∧ q.entries.length = ENTRY_NUM ∧ q.p4ml.recircTime = 3#8) →
      let slot := fun qs => (Switch.feed tbl .init qs).slot a
      let pkt := fun q : Switch.SwPkt => Switch.pkt q.p4ml q.entries
      Counts slot pkt qs ∧ (Exact slot pkt qs ↔ AllCover (qs.map pkt))) := by
  refine ⟨fun n fs hf => ?_, fun tbl qs hq => ?_⟩
  · exact exact_iff (s := (ParameterServer.Ps.init).slot a) ⟨rfl, rfl, rfl⟩
      (fun xs ys he => ParameterServer.serve_slot n _ xs fun f h => hf f (by simp [he, h])) fun _ _ => rfl
  · refine exact_iff (s := (Switch.Regs.init).slot a) ⟨rfl, rfl, rfl⟩
      (fun xs ys he => Switch.feed_slot tbl _ xs fun q h => ?_) fun q h => ?_
    · obtain ⟨ha, hl, -⟩ := hq q (by simp [he, h])
      exact ⟨ha, hl⟩
    · simp [Switch.pkt, (hq q h).2.2]

/-- A packet of worker `workerId` of two for slot 0 of the parameter server. -/
def serverPacket (workerId : Nat) (roundNum : BitVec 32) : Frame where
  etherType := 0x0c00#16
  msg :=
    { p4mlHdrs := assembleDpdkP4mlHdrs true .zero workerId 2#8 roundNum none 0 0
      key := 0
      cmd := TENSOR_COMM
      len := 0
      shutdown := false }

/-- A packet of worker `workerId` of two for index 3 of the switch, on its last pass. -/
def switchPacket (workerId : Nat) (roundNum : BitVec 32) : Switch.SwPkt where
  dst := 0
  p4ml := ⟨1#32 <<< workerId, 2#8, roundNum, 0, 0, 0, 0, 0, 3#8, 0, 0, 0, 0⟩
  entries := List.replicate ENTRY_NUM 0
  agtr := 3

/-- One round of both workers. -/
theorem bitmap_round :
    Exact (fun fs => (ParameterServer.serve 2 .init fs).slot 0) (fun f => ParameterServer.pkt f.msg)
      [serverPacket 0 1, serverPacket 1 1] := by
  have hf : ∀ f ∈ [serverPacket 0 1, serverPacket 1 1],
      ParameterServer.accepts f ∧ f.msg.p4mlHdrs.agtr = 0 := by decide
  exact ((bitmap_iff 0).1 2 _ hf).2.mpr (@allCover_of_round 2#8 _ (by decide) 1#32 (by decide))

/-- **Counterexample.** Worker 0 sends for round 1, then worker 1 for round 2: one packet is
counted, of worker 1, and the bitmap names both workers. -/
theorem bitmap_counterexample :
    let st := ParameterServer.serve 2 .init [serverPacket 0 1, serverPacket 1 2]
    let regs := Switch.feed ⟨fun _ => none, fun _ => none, fun _ => none⟩ .init
      [switchPacket 0 1, switchPacket 1 2]
    (tally ([serverPacket 0 1, serverPacket 1 2].map fun f => ParameterServer.pkt f.msg)).bitmap = 2#32 ∧
    st.receiveCount 0 = 1#8 ∧ st.bitmap 0 = 3#32 ∧
    regs.receiveCount 3 = 1#8 ∧ regs.bitmap 3 = 3#32 := by
  decide +kernel

end Inca.L2.SlotBitmap
