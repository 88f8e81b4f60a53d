import Mathlib.Algebra.Order.BigOperators.Group.Finset
import Inca.L3Protocol.Aggregate
import Inca.L3Protocol.Completion

/-!
# The in-network all-reduce finishes

The system of `Aggregate` in runs in which no packet is lost and no worker
calls `Reset`. Packets still arrive in any order, and every worker may be
ahead of every other by as much as the slots allow.

Nothing is forgotten (`Lossless`): a slot of the server has counted exactly
the packets of its current job that are off the network; a job that every
worker's packet has been counted for, that a worker has closed or that the
slot has moved on from is `Replied`: at each worker it is closed, or its
reply is on the way.

* `calls_complete`: from any such state, network and transmit threads can take
  at most `rank` steps; and when they can take no more, all workers having
  made the same calls, every key of every call has been reported finished,
  once.
-/
namespace Inca.L3.Progress
open Inca.L1.DpdkPkt Inca.L2.AggSlot Inca.L2.DpdkManager Inca.L2.ParameterServer Inca.L3.WorkerJobs
open Inca.L3.Aggregate Inca.L3.Completion
open scoped BigOperators

/-! ## Runs without loss -/

/-- The steps of transmit threads, server and receive threads. -/
def IsNetwork {n : Nat} : Act n → Prop
  | .tx _ _ | .rxServer _ | .rxWorker _ _ => True
  | .push _ _ _ | .loseUp _ | .loseDown _ _ | .reset _ | .host _ _ => False

/-- Nothing is lost and no one resets; as in `Completion`, fewer than `2 ^ 32` rounds, fewer than
`KEY_ROOM` unfinished packets, and calls of positive length. -/
def Smooth (prog : Program) {n : Nat} (S : Sys n) (a : Act n) (S' : Sys n) : Prop :=
  (∀ w, RoundsOk (S'.wk w) ∧ Unfinished KEY_ROOM (S'.wk w)) ∧ match a with
    | .push w _ _ => 0 < (prog (S.wk w).calls.length).1
    | .loseUp _ | .loseDown _ _ | .reset _ => False
    | .tx _ _ | .rxServer _ | .rxWorker _ _ | .host _ _ => True

/-! ## The invariant -/

/-- The slot of job `i`. -/
def slotOf (i : Nat) : BitVec 16 := BitVec.ofNat 16 (i % MAX_AGTR_COUNT)

/-- The job that the slot of job `i` is at. -/
def current {n : Nat} (S : Sys n) (i : Nat) : Nat := jobAtSlot S.ps (slotOf i)

/-- The packet of worker `v` for job `i` has left the network. -/
def Arrived {n : Nat} (S : Sys n) (i : Nat) (v : Fin n) : Prop := i < (S.wk v).sent.length ∧ (v, i) ∉ S.up

instance {n : Nat} (S : Sys n) (i : Nat) (v : Fin n) : Decidable (Arrived S i v) :=
  inferInstanceAs (Decidable (_ ∧ _))

def arrived {n : Nat} (S : Sys n) (i : Nat) : Finset (Fin n) := Finset.univ.filter (Arrived S i)

/-- At every worker, job `i` is closed or its reply is on the way. -/
def Replied {n : Nat} (S : Sys n) (i : Nat) : Prop :=
  ∀ u, i ∈ (S.wk u).closed ∨ ∃ f, (i, f) ∈ S.down u

structure Lossless {n : Nat} (S : Sys n) : Prop where
  count : ∀ i, current S i = i → S.ps.receiveCount (slotOf i) = BitVec.ofNat 8 (arrived S i).card
  full : ∀ i, current S i = i → arrived S i = Finset.univ → Replied S i
  /-- a slot that is not in its first round has been brought there by a packet -/
  reached : ∀ i, current S i < MAX_AGTR_COUNT ∨ ∃ v, current S i < (S.wk v).sent.length
  past : ∀ v i, Arrived S i v → i ≤ current S i ∧ (i < current S i → Replied S i)
  closed : ∀ w, ∀ i ∈ (S.wk w).closed, Replied S i
  down : ∀ w i f, (i, f) ∈ S.down w → Replied S i ∧ f.etherType = 0x0d00#16

section Slots

theorem slotOf_toNat (i : Nat) : (slotOf i).toNat = i % MAX_AGTR_COUNT := agtr_toNat i

theorem slotOf_eq_iff {i j : Nat} : slotOf i = slotOf j ↔ i % MAX_AGTR_COUNT = j % MAX_AGTR_COUNT := by
  rw [← BitVec.toNat_inj, slotOf_toNat, slotOf_toNat]

theorem current_eq {n : Nat} (S : Sys n) (i : Nat) :
    current S i = i % MAX_AGTR_COUNT + MAX_AGTR_COUNT * (S.ps.roundNumbers (slotOf i)).toNat := by
  rw [current, jobAtSlot, slotOf_toNat]

theorem current_mod {n : Nat} (S : Sys n) (i : Nat) : current S i % MAX_AGTR_COUNT = i % MAX_AGTR_COUNT := by
  rw [current_eq, Nat.add_mul_mod_self_left, Nat.mod_mod]

theorem current_congr {n : Nat} {S : Sys n} {i j : Nat} (h : i % MAX_AGTR_COUNT = j % MAX_AGTR_COUNT) :
    current S i = current S j := by
  rw [current, current, slotOf_eq_iff.mpr h]

theorem mem_arrived {n : Nat} {S : Sys n} {i : Nat} {v : Fin n} : v ∈ arrived S i ↔ Arrived S i v := by
  simp [arrived]

end Slots

theorem lossless_init (n : Nat) (mem : Fin n → Nat → Nat → Byte) : Lossless (Sys.init n mem) := by
  have hno : ∀ i v, ¬ Arrived (Sys.init n mem) i v := fun i v h => by simp [Arrived, Sys.init, Wk.init] at h
  have harr : ∀ i, arrived (Sys.init n mem) i = ∅ := fun i => Finset.filter_eq_empty_iff.mpr fun v _ => hno i v
  refine ⟨fun i _ => ?_, fun i _ h u => ?_, fun i => .inl ?_, fun v i h => absurd h (hno i v),
    fun w i h => by simp [Sys.init, Wk.init] at h, fun w i f h => by simp [Sys.init] at h⟩
  · rw [harr]; rfl
  · exact absurd (mem_arrived.mp (h ▸ Finset.mem_univ u)) (hno i u)
  · rw [current_eq]
    simpa [Sys.init, Ps.init] using Nat.mod_lt i (by decide : 0 < MAX_AGTR_COUNT)

section Steps
variable {build : Build} {prog : Program} {n : Nat} {S S' : Sys n}

/-- A step that does not reach the server. -/
theorem Lossless.frame (h : Lossless S) (hps : S'.ps = S.ps) (harr : ∀ i v, Arrived S' i v ↔ Arrived S i v)
    (hsent : ∀ v, (S.wk v).sent.length ≤ (S'.wk v).sent.length) (hrep : ∀ i, Replied S i → Replied S' i)
    (hclosed : ∀ w, ∀ i ∈ (S'.wk w).closed, Replied S i) (hdown : ∀ w, ∀ x ∈ S'.down w, x ∈ S.down w) :
    Lossless S' := by
  have hcur : ∀ i, current S' i = current S i := fun i => by rw [current, current, hps]
  have harr' : ∀ i, arrived S' i = arrived S i := fun i => Finset.filter_congr fun v _ => harr i v
  refine ⟨fun i hi => ?_, fun i hi hf => ?_, fun i => ?_, fun v i hv => ?_, fun w i hi => hrep i (hclosed w i hi),
    fun w i f hm => ?_⟩
  · rw [hps, harr', h.count i (hcur i ▸ hi)]
  · exact hrep i (h.full i (hcur i ▸ hi) (harr' i ▸ hf))
  · rw [hcur]
    exact (h.reached i).imp_right fun ⟨v, hv⟩ => ⟨v, Nat.lt_of_lt_of_le hv (hsent v)⟩
  · rw [hcur]
    obtain ⟨h1, h2⟩ := h.past v i ((harr i v).mp hv)
    exact ⟨h1, fun hlt => hrep i (h2 hlt)⟩
  · obtain ⟨h1, h2⟩ := h.down w i f (hdown w _ hm)
    exact ⟨hrep i h1, h2⟩

/-- A worker that is two rounds ahead has closed the older job. -/
theorem Lossless.replied_of_later (h : Lossless S) (hi : Aggregate.Inv build prog S) {i j : Nat} {v : Fin n}
    (hij : i < j) (hm : i % MAX_AGTR_COUNT = j % MAX_AGTR_COUNT) (hj : j < (S.wk v).sent.length) :
    Replied S i := by
  refine h.closed v i ?_
  by_contra hc
  have := ((hi.workers v).slots.isOpen i (by omega) hc).2.2.2
  simp only [MAX_AGTR_COUNT] at *
  omega

/-! ### The server -/

section Server
variable {w : Fin n} {i k : Nat} {j : Job} {f : Frame}

/-- What a packet does to its slot, by its job and the job the slot is at. -/
theorem server_cases (hi : Aggregate.Inv build prog S) (h256 : n ≤ 256)
    (hx : (S.sent w)[i]? = some (j, f)) {c : Nat}
    (hc : current S i = i → S.ps.receiveCount (slotOf i) = BitVec.ofNat 8 c ∧ c < n) :
    let r := L2.ParameterServer.rxThread n S.ps f
    (i < current S i ∧ r.1.slot (slotOf i) = S.ps.slot (slotOf i)) ∨
    ((r.1.roundNumbers (slotOf i)).toNat = i / MAX_AGTR_COUNT ∧
      (current S i < i ∧ r.1.receiveCount (slotOf i) = BitVec.ofNat 8 1 ∧
          (1 = n → ∃ g, r.2 = some g) ∨
        current S i = i ∧ r.1.receiveCount (slotOf i) = BitVec.ofNat 8 (c + 1) ∧
          (c + 1 = n → ∃ g, r.2 = some g))) := by
  intro r
  have hP := hi.packets
  have hagtr : f.msg.p4mlHdrs.agtr = slotOf i := (hP.packet w i _ hx).agtr
  have hjob := hP.job_eq hx
  have hcur := current_eq S i
  rw [hagtr, slotOf_toNat] at hjob
  have hround : f.msg.p4mlHdrs.roundNum.toNat = i / MAX_AGTR_COUNT := by
    simp only [MAX_AGTR_COUNT] at *; omega
  have hw := hP.wire w i _ hx
  have hacc : accepts f := by
    refine ⟨hw.shutdown, ?_, hw.etherType⟩
    rw [(hP.packet w i _ hx).cmd, hP.cmd_eq w i _ hx]
    exact (hP.cmd_cases i).imp_right .inr
  have hr : r = handle n S.ps f.msg := L2.ParameterServer.rxThread_eq n S.ps hacc
  have hslot : r.1.slot (slotOf i) =
      (S.ps.slot (slotOf i)).step MAX_ENTRIES_PER_PACKET (· + ·) (pkt f.msg) := by
    rw [hr, handle_slot, if_pos hagtr.symm]
  have hreply : (S.ps.slot (slotOf i)).Completes (pkt f.msg) → ∃ g, r.2 = some g :=
    fun hcomp => by rw [hr, handle_reply, hagtr, if_pos hcomp]; exact ⟨_, rfl⟩
  rcases Nat.lt_trichotomy i (current S i) with hlt | heq | hgt
  · -- older than the slot
    refine .inl ⟨hlt, ?_⟩
    have hst : f.msg.p4mlHdrs.roundNum < S.ps.roundNumbers (slotOf i) := by
      rw [BitVec.lt_def]; simp only [MAX_AGTR_COUNT] at *; omega
    rw [hslot, Slot.step_stale _ _ ((Slot.classify_stale_iff _ _).mpr hst)]
  · have hsame : f.msg.p4mlHdrs.roundNum = S.ps.roundNumbers (slotOf i) := by
      apply BitVec.eq_of_toNat_eq; simp only [MAX_AGTR_COUNT] at *; omega
    obtain ⟨hcount, hcn⟩ := hc heq.symm
    obtain ⟨h1, h2⟩ := Slot.count_same (s := S.ps.slot (slotOf i)) (p := pkt f.msg) MAX_ENTRIES_PER_PACKET (· + ·)
      hw.numWorker rfl h256 hsame hcount hcn
    rw [← hslot] at h1
    refine .inr ⟨?_, .inr ⟨heq.symm, h1, fun hn => hreply (h2.mpr hn)⟩⟩
    have hrd : r.1.roundNumbers (slotOf i) = f.msg.p4mlHdrs.roundNum := by
      refine (congrArg Slot.roundNum hslot).trans ?_
      rw [Slot.step_of_le _ _ (by rw [BitVec.le_def]; exact (congrArg BitVec.toNat hsame).ge)]
      rfl
    rw [hrd, hround]
  · have hnew : S.ps.roundNumbers (slotOf i) < f.msg.p4mlHdrs.roundNum := by
      rw [BitVec.lt_def]; simp only [MAX_AGTR_COUNT] at *; omega
    obtain ⟨h1, h2⟩ := Slot.count_newer (s := S.ps.slot (slotOf i)) (p := pkt f.msg) MAX_ENTRIES_PER_PACKET (· + ·)
      hw.numWorker rfl h256 hnew (Fin.pos w)
    rw [← hslot] at h1
    refine .inr ⟨?_, .inl ⟨hgt, h1, fun hn => hreply (h2.mpr hn)⟩⟩
    have hrd : r.1.roundNumbers (slotOf i) = f.msg.p4mlHdrs.roundNum := by
      refine (congrArg Slot.roundNum hslot).trans ?_
      rw [Slot.step_of_le _ _ (BitVec.le_of_lt hnew)]
      rfl
    rw [hrd, hround]

theorem slot_other {l : Nat} (hi : Aggregate.Inv build prog S) (hx : (S.sent w)[i]? = some (j, f))
    (hl : l % MAX_AGTR_COUNT ≠ i % MAX_AGTR_COUNT) :
    (L2.ParameterServer.rxThread n S.ps f).1.slot (slotOf l) = S.ps.slot (slotOf l) := by
  have hagtr : f.msg.p4mlHdrs.agtr = slotOf i := (hi.packets.packet w i _ hx).agtr
  unfold L2.ParameterServer.rxThread
  split
  · rfl
  · split
    · rfl
    · rw [handle_slot, if_neg]
      rw [hagtr, slotOf_eq_iff]
      exact hl

theorem reply_etherType {ps : Ps} {g : Frame} (h : (L2.ParameterServer.rxThread n ps f).2 = some g) :
    g.etherType = 0x0d00#16 := by
  simp only [L2.ParameterServer.rxThread, handle] at h
  repeat' split at h
  all_goals cases h
  rfl

/-- The server takes the packet of worker `w` for job `i`. -/
def serverStep (S : Sys n) (k i : Nat) (f : Frame) : Sys n :=
  let r := L2.ParameterServer.rxThread n S.ps f
  { S with ps := r.1, up := S.up.eraseIdx k, down := fun v => S.down v ++ (r.2.map fun g => (i, g)).toList }

theorem arrived_serverStep (hi : Aggregate.Inv build prog S) (hk : S.up[k]? = some (w, i))
    (hx : (S.sent w)[i]? = some (j, f)) (l : Nat) (v : Fin n) :
    Arrived (serverStep S k i f) l v ↔ Arrived S l v ∨ v = w ∧ l = i := by
  have hsent : i < (S.wk w).sent.length := (List.getElem?_eq_some_iff.mp hx).1
  have hmem : (v, l) ∈ S.up.eraseIdx k ↔ (v, l) ∈ S.up ∧ ¬ (v = w ∧ l = i) := by
    rw [List.mem_eraseIdx_iff_getElem?]
    constructor
    · rintro ⟨q, hq, hl⟩
      refine ⟨List.mem_of_getElem? hl, ?_⟩
      rintro ⟨rfl, rfl⟩
      exact hq ((List.getElem?_inj (List.getElem?_eq_some_iff.mp hl).1 hi.net.nodup).mp (hl.trans hk.symm))
    · rintro ⟨hm, hne⟩
      obtain ⟨q, hq⟩ := List.mem_iff_getElem?.mp hm
      refine ⟨q, ?_, hq⟩
      rintro rfl
      rw [hk] at hq
      cases hq
      exact hne ⟨rfl, rfl⟩
  have hup : ∀ (h : v = w ∧ l = i), l < (S.wk v).sent.length := by rintro ⟨rfl, rfl⟩; exact hsent
  simp only [Arrived, serverStep, hmem]
  tauto

theorem Replied.serverStep {l : Nat} (h : Replied S l) : Replied (serverStep S k i f) l := fun u =>
  (h u).imp_right fun ⟨g, hg⟩ => ⟨g, List.mem_append_left _ hg⟩

theorem replied_of_reply {g : Frame} (hg : (L2.ParameterServer.rxThread n S.ps f).2 = some g) :
    Replied (serverStep S k i f) i := fun u => .inr ⟨g, by simp [serverStep, hg]⟩

theorem Lossless.rxServer (h : Lossless S) (hi : Aggregate.Inv build prog S) (h256 : n ≤ 256)
    (hk : S.up[k]? = some (w, i)) (hx : (S.sent w)[i]? = some (j, f)) : Lossless (serverStep S k i f) := by
  have hnew : ¬ Arrived S i w := fun hc => hc.2 (List.mem_of_getElem? hk)
  have hsent : i < (S.wk w).sent.length := (List.getElem?_eq_some_iff.mp hx).1
  have harr := arrived_serverStep hi hk hx
  have harr_ne : ∀ l, l ≠ i → arrived (serverStep S k i f) l = arrived S l := fun l hl =>
    Finset.filter_congr fun v _ => (harr l v).trans (or_iff_left fun hc => hl hc.2)
  have harr_i : arrived (serverStep S k i f) i = insert w (arrived S i) := by
    ext v
    rw [mem_arrived, harr, Finset.mem_insert, mem_arrived, or_comm]
    simp
  have hcard : (arrived S i).card < n := by
    have := Finset.card_lt_univ_of_notMem (mem_arrived.not.mpr hnew)
    rwa [Fintype.card_fin] at this
  have hother : ∀ l, l % MAX_AGTR_COUNT ≠ i % MAX_AGTR_COUNT →
      current (serverStep S k i f) l = current S l ∧
      (serverStep S k i f).ps.receiveCount (slotOf l) = S.ps.receiveCount (slotOf l) := fun l hl => by
    have hs := slot_other hi hx hl
    rw [current_eq, current_eq]
    exact ⟨congrArg (fun s => l % MAX_AGTR_COUNT + MAX_AGTR_COUNT * s.roundNum.toNat) hs,
      congrArg Slot.receiveCount hs⟩
  have hdown : ∀ u l g, (l, g) ∈ (serverStep S k i f).down u →
      Replied (serverStep S k i f) l ∧ g.etherType = 0x0d00#16 := fun u l g hm => by
    rcases List.mem_append.mp hm with hm | hm
    · exact ⟨(h.down u l g hm).1.serverStep, (h.down u l g hm).2⟩
    · rw [Option.mem_toList, Option.map_eq_some_iff] at hm
      obtain ⟨g', hg', he⟩ := hm
      cases he
      exact ⟨replied_of_reply hg', reply_etherType hg'⟩
  have hclosed : ∀ u, ∀ l ∈ ((serverStep S k i f).wk u).closed, Replied (serverStep S k i f) l :=
    fun u l hl => (h.closed u l hl).serverStep
  rcases server_cases hi h256 hx fun hcur => ⟨h.count i hcur, hcard⟩ with ⟨hlt, hslot⟩ | ⟨hround, hcase⟩
  · -- the packet is older than its slot: no slot changes
    have hcur : ∀ l, current (serverStep S k i f) l = current S l ∧
        (serverStep S k i f).ps.receiveCount (slotOf l) = S.ps.receiveCount (slotOf l) := fun l => by
      by_cases hl : l % MAX_AGTR_COUNT = i % MAX_AGTR_COUNT
      · rw [current_congr hl, current_congr hl, slotOf_eq_iff.mpr hl, current_eq, current_eq]
        exact ⟨congrArg (fun s => i % MAX_AGTR_COUNT + MAX_AGTR_COUNT * s.roundNum.toNat) hslot,
          congrArg Slot.receiveCount hslot⟩
      · exact hother l hl
    have hne : ∀ l, current S l = l → l ≠ i := by rintro l hl rfl; omega
    refine ⟨fun l hl => ?_, fun l hl hf => ?_, fun l => ?_, fun v l hv => ?_, hclosed, hdown⟩
    · rw [(hcur l).1] at hl
      rw [(hcur l).2, harr_ne l (hne l hl), h.count l hl]
    · rw [(hcur l).1] at hl
      rw [harr_ne l (hne l hl)] at hf
      exact (h.full l hl hf).serverStep
    · rw [(hcur l).1]; exact h.reached l
    · rw [(hcur l).1]
      rcases (harr l v).mp hv with hv | ⟨-, rfl⟩
      · exact ⟨(h.past v l hv).1, fun hl => ((h.past v l hv).2 hl).serverStep⟩
      · refine ⟨hlt.le, fun _ => ?_⟩
        have hmod := current_mod S l
        rcases h.reached l with hfirst | ⟨u, hu⟩
        · rw [Nat.mod_eq_of_lt hfirst] at hmod
          have := Nat.mod_le l MAX_AGTR_COUNT
          omega
        · exact (h.replied_of_later hi hlt hmod.symm hu).serverStep
  · -- the slot is at job `i` now
    have hcur_i : ∀ l, l % MAX_AGTR_COUNT = i % MAX_AGTR_COUNT → current (serverStep S k i f) l = i :=
      fun l hl => by
        have hr : ((serverStep S k i f).ps.roundNumbers (slotOf i)).toNat = i / MAX_AGTR_COUNT := hround
        rw [current_congr hl, current_eq, hr]
        exact Nat.mod_add_div i MAX_AGTR_COUNT
    have hle : current S i ≤ i := by
      rcases hcase with ⟨h1, -⟩ | ⟨h1, -⟩ <;> omega
    have hcount : (serverStep S k i f).ps.receiveCount (slotOf i) =
          BitVec.ofNat 8 (arrived (serverStep S k i f) i).card ∧
        (arrived (serverStep S k i f) i = Finset.univ →
          ∃ g, (L2.ParameterServer.rxThread n S.ps f).2 = some g) := by
      have hcard_i : (arrived (serverStep S k i f) i).card = (arrived S i).card + 1 := by
        rw [harr_i, Finset.card_insert_of_notMem (mem_arrived.not.mpr hnew)]
      have huniv : arrived (serverStep S k i f) i = Finset.univ → (arrived S i).card + 1 = n := fun hf => by
        rw [← hcard_i, hf, Finset.card_univ, Fintype.card_fin]
      rcases hcase with ⟨hgt, hc, hreply⟩ | ⟨-, hc, hreply⟩
      · -- the first packet of a new round: no other packet of the job had arrived
        have hempty : arrived S i = ∅ := Finset.filter_eq_empty_iff.mpr fun v _ hv => by
          have := (h.past v i hv).1
          omega
        rw [hempty, Finset.card_empty, Nat.zero_add] at hcard_i huniv
        exact ⟨by rw [hcard_i]; exact hc, fun hf => hreply (huniv hf)⟩
      · exact ⟨by rw [hcard_i]; exact hc, fun hf => hreply (huniv hf)⟩
    refine ⟨fun l hl => ?_, fun l hl hf => ?_, fun l => ?_, fun v l hv => ?_, hclosed, hdown⟩
    · by_cases hli : l % MAX_AGTR_COUNT = i % MAX_AGTR_COUNT
      · obtain rfl : i = l := (hcur_i l hli).symm.trans hl
        exact hcount.1
      · rw [(hother l hli).1] at hl
        rw [(hother l hli).2, harr_ne l (fun he => hli (by rw [he])), h.count l hl]
    · by_cases hli : l % MAX_AGTR_COUNT = i % MAX_AGTR_COUNT
      · obtain rfl : i = l := (hcur_i l hli).symm.trans hl
        obtain ⟨g, hg⟩ := hcount.2 hf
        exact replied_of_reply hg
      · rw [(hother l hli).1] at hl
        rw [harr_ne l (fun he => hli (by rw [he]))] at hf
        exact (h.full l hl hf).serverStep
    · by_cases hli : l % MAX_AGTR_COUNT = i % MAX_AGTR_COUNT
      · rw [hcur_i l hli]; exact .inr ⟨w, hsent⟩
      · rw [(hother l hli).1]; exact h.reached l
    · rcases (harr l v).mp hv with hv | ⟨-, rfl⟩
      · by_cases hli : l % MAX_AGTR_COUNT = i % MAX_AGTR_COUNT
        · rw [hcur_i l hli]
          have := (h.past v l hv).1
          rw [current_congr hli] at this
          exact ⟨by omega, fun hlt => (h.replied_of_later hi hlt hli hsent).serverStep⟩
        · rw [(hother l hli).1]
          exact ⟨(h.past v l hv).1, fun hl => ((h.past v l hv).2 hl).serverStep⟩
      · rw [hcur_i l rfl]
        exact ⟨Nat.le_refl _, fun hlt => absurd hlt (Nat.lt_irrefl _)⟩

end Server

/-! ### The workers -/

section Workers
variable {w : Fin n}

/-- One worker moves without sending, closing or receiving anything. -/
theorem Lossless.setWk (h : Lossless S) {x : Wk} (hs : x.sent = (S.wk w).sent) (hc : x.closed = (S.wk w).closed) :
    Lossless (S.setWk w x) := by
  have hsent : ∀ v, ((S.setWk w x).wk v).sent = (S.wk v).sent := fun v => by
    by_cases hv : v = w
    · subst hv; simpa [Sys.setWk] using hs
    · simp [Sys.setWk, Function.update_of_ne hv]
  have hclosed : ∀ v, ((S.setWk w x).wk v).closed = (S.wk v).closed := fun v => by
    by_cases hv : v = w
    · subst hv; simpa [Sys.setWk] using hc
    · simp [Sys.setWk, Function.update_of_ne hv]
  have hup : (S.setWk w x).up = S.up := rfl
  refine h.frame rfl (fun i v => ?_) (fun v => (hsent v ▸ Nat.le_refl _)) (fun i hi u => ?_) (fun v i hi => ?_)
    fun v y hy => hy
  · rw [Arrived, Arrived, hsent, hup]
  · rw [hclosed]; exact hi u
  · rw [hclosed] at hi; exact h.closed v i hi

theorem Lossless.tx (h : Lossless S) {x : Wk} {y : Job × Frame} (hs : x.sent = (S.wk w).sent ++ [y])
    (hc : x.closed = (S.wk w).closed) :
    Lossless { S.setWk w x with up := S.up ++ [(w, (S.wk w).sent.length)] } := by
  have hclosed : ∀ v, ((S.setWk w x).wk v).closed = (S.wk v).closed := fun v => by
    by_cases hv : v = w
    · subst hv; simpa [Sys.setWk] using hc
    · simp [Sys.setWk, Function.update_of_ne hv]
  refine h.frame rfl (fun i v => ?_) (fun v => ?_) (fun i hi u => ?_) (fun v i hi => ?_) fun v y hy => hy
  · by_cases hv : v = w
    · subst hv
      simp only [Arrived, Sys.setWk, Function.update_self, hs, List.length_append, List.length_singleton,
        List.mem_append, List.mem_singleton, Prod.mk.injEq, true_and]
      constructor
      · rintro ⟨h1, h2⟩; exact ⟨by omega, fun hm => h2 (.inl hm)⟩
      · rintro ⟨h1, h2⟩; exact ⟨by omega, by rintro (hm | rfl); exacts [h2 hm, Nat.lt_irrefl _ h1]⟩
    · simp only [Arrived, Sys.setWk, Function.update_of_ne hv, List.mem_append, List.mem_singleton,
        Prod.mk.injEq, hv, false_and, or_false]
  · by_cases hv : v = w
    · subst hv; simp [Sys.setWk, hs]
    · simp [Sys.setWk, Function.update_of_ne hv]
  · rw [show ((S.setWk w x).wk u).closed = _ from hclosed u]; exact hi u
  · exact h.closed v i (hclosed v ▸ hi)

/-- The reply to an open job is accepted. -/
theorem Lossless.accepts (h : Lossless S) (hi : Aggregate.Inv build prog S) {i : Nat} {f : Frame}
    (hm : (i, f) ∈ S.down w) (ho : i ∉ (S.wk w).closed) : RxAccepts (S.wk w).mgr f := by
  have ha := hi.net.replies w i f hm
  have hopen := (hi.workers w).slots.isOpen i (ha.sent_all w) ho
  refine ⟨(h.down w i f hm).2, ?_, ?_, ?_⟩
  · rw [ha.cmd_eq]
    rcases hi.packets.cmd_cases i with hc | hc
    · rw [hc]; decide
    · rw [hc]
  · rw [ha.key]; exact Nat.mod_lt _ (by decide)
  · rw [ha.agtr, agtr_toNat, ha.roundNum, hopen.2.2.1]

theorem Lossless.rxWorker (h : Lossless S) (hi : Aggregate.Inv build prog S) {i k : Nat} {f : Frame}
    (hk : (S.down w)[k]? = some (i, f)) :
    Lossless { S.setWk w ((S.wk w).receive (cfgOf build w) i f) with
      down := Function.update S.down w ((S.down w).eraseIdx k) } := by
  have hm := List.mem_of_getElem? hk
  set x := (S.wk w).receive (cfgOf build w) i f with hx
  have hsent : ∀ v, ((S.setWk w x).wk v).sent = (S.wk v).sent := fun v => by
    by_cases hv : v = w
    · subst hv; simp [Sys.setWk, hx, Wk.receive]
    · simp [Sys.setWk, Function.update_of_ne hv]
  -- the job is closed afterwards, whether or not it was open
  have hin : i ∈ x.closed := by
    by_cases ho : i ∈ (S.wk w).closed
    · rw [hx, Wk.receive]
      dsimp only
      split
      · exact List.mem_append_left _ ho
      · exact ho
    · rw [hx, Wk.receive]
      dsimp only
      rw [if_pos (h.accepts hi hm ho)]
      simp
  have hsub : ∀ l, l ∈ x.closed → l ∈ (S.wk w).closed ∨ l = i := fun l hl => by
    rw [hx, Wk.receive] at hl
    dsimp only at hl
    split at hl
    · simpa using hl
    · exact .inl hl
  have hmono : ∀ l ∈ (S.wk w).closed, l ∈ x.closed := fun l hl => by
    rw [hx, Wk.receive]
    dsimp only
    split
    · exact List.mem_append_left _ hl
    · exact hl
  refine h.frame rfl (fun l v => ?_) (fun v => ?_) (fun l hl u => ?_) (fun v l hl => ?_) fun v y hy => ?_
  · have hup : ({ S.setWk w x with down := Function.update S.down w ((S.down w).eraseIdx k) } : Sys n).up = S.up :=
      rfl
    rw [Arrived, Arrived, hup]
    exact and_congr_left' (by rw [← hsent v])
  · exact (congrArg List.length (hsent v)).ge
  · by_cases hu : u = w
    · subst hu
      simp only [Sys.setWk, Function.update_self]
      rcases hl u with hl | ⟨g, hg⟩
      · exact .inl (hmono l hl)
      · by_cases hli : l = i
        · exact .inl (hli ▸ hin)
        · refine .inr ⟨g, List.mem_eraseIdx_iff_getElem?.mpr ?_⟩
          obtain ⟨q, hq⟩ := List.mem_iff_getElem?.mp hg
          refine ⟨q, ?_, hq⟩
          rintro rfl
          rw [hk] at hq
          cases hq
          exact hli rfl
    · simp only [Sys.setWk, Function.update_of_ne hu]
      exact hl u
  · by_cases hv : v = w
    · subst hv
      simp only [Sys.setWk, Function.update_self] at hl
      rcases hsub l hl with hl | rfl
      · exact h.closed v l hl
      · exact (h.down v l f hm).1
    · simp only [Sys.setWk, Function.update_of_ne hv] at hl
      exact h.closed v l hl
  · by_cases hv : v = w
    · subst hv
      simp only [Function.update_self] at hy
      exact List.mem_of_mem_eraseIdx hy
    · simpa only [Function.update_of_ne hv] using hy

end Workers
end Steps

/-! ## Every run -/

structure Inv (build : Build) (prog : Program) {n : Nat} (S : Sys n) : Prop where
  base : Aggregate.Inv build prog S
  tables : ∀ w, Completion.Inv (cfgOf build w) (S.wk w)
  lossless : Lossless S

section Inv
variable {build : Build} {prog : Program} {n : Nat} {S S' : Sys n}

theorem tables_setWk (h : ∀ w, Completion.Inv (cfgOf build w) (S.wk w)) {w : Fin n} {x : Wk} {a : WorkerJobs.Act}
    (hs : WorkerJobs.step (cfgOf build w) (S.wk w) a = some x)
    (hR : ∀ v, RoundsOk ((S.setWk w x).wk v) ∧ Unfinished KEY_ROOM ((S.setWk w x).wk v))
    (hpos : ∀ c, a = .push c → 0 < c.len) (v : Fin n) :
    Completion.Inv (cfgOf build v) ((S.setWk w x).wk v) := by
  by_cases hv : v = w
  · subst hv
    have hRv := hR v
    simp only [Sys.setWk, Function.update_self] at hRv ⊢
    refine ⟨slots_step (h v).slots (h v).rounds hs, hRv.1, hRv.2, tables_step (h v) hs ⟨hRv.1, hRv.2, ?_⟩⟩
    cases a with
    | push c => exact hpos c rfl
    | tx | reply | reset | host => trivial
  · simpa [Sys.setWk, Function.update_of_ne hv] using h v

theorem inv_step (h256 : n ≤ 256) (h : Inv build prog S) {a : Act n} (hs : step build prog S a = some S')
    (hf : Smooth prog S a S') : Inv build prog S' := by
  obtain ⟨hR, hf⟩ := hf
  have hbase := Aggregate.inv_step h256 h.base hs fun w => (hR w).1
  cases a with
  | push w tensorKey data =>
    simp only [Aggregate.step, Option.map_eq_some_iff] at hs
    obtain ⟨x, hx, rfl⟩ := hs
    refine ⟨hbase, tables_setWk h.tables hx hR (by rintro c ⟨⟩; exact hf), ?_⟩
    cases hx
    exact h.lossless.setWk rfl rfl
  | tx w payload =>
    simp only [Aggregate.step, Option.map_eq_some_iff] at hs
    obtain ⟨x, hx, rfl⟩ := hs
    refine ⟨hbase, tables_setWk h.tables hx hR (by rintro c ⟨⟩), ?_⟩
    obtain ⟨job, rest, -, -, rfl⟩ := step_tx hx
    exact h.lossless.tx rfl rfl
  | rxServer k =>
    simp only [Aggregate.step, Option.bind_eq_some_iff, Option.map_eq_some_iff] at hs
    obtain ⟨⟨w, i⟩, hk, ⟨j, f⟩, hx, rfl⟩ := hs
    exact ⟨hbase, h.tables, h.lossless.rxServer h.base h256 hk hx⟩
  | rxWorker w k =>
    simp only [Aggregate.step, Option.map_eq_some_iff] at hs
    obtain ⟨⟨i, f⟩, hk, rfl⟩ := hs
    have hst := h.base.receive (List.mem_of_getElem? hk)
    exact ⟨hbase, tables_setWk h.tables hst hR (by rintro c ⟨⟩), h.lossless.rxWorker h.base hk⟩
  | loseUp k => exact hf.elim
  | loseDown w k => exact hf.elim
  | reset w => exact hf.elim
  | host w mem =>
    simp only [Aggregate.step, Option.map_eq_some_iff] at hs
    obtain ⟨x, hx, rfl⟩ := hs
    refine ⟨hbase, tables_setWk h.tables hx hR (by rintro c ⟨⟩), ?_⟩
    cases hx
    exact h.lossless.setWk rfl rfl

theorem inv_inductive (build : Build) (prog : Program) (h256 : n ≤ 256) (mem : Fin n → Nat → Nat → Byte) :
    ((system build prog n mem).restrict (Smooth prog)).Inductive (Inv build prog) where
  init := by
    rintro S rfl
    exact ⟨Aggregate.inv_init build prog mem, fun w => Completion.inv_init (cfgOf build w) (mem w),
      lossless_init n mem⟩
  step := fun _ _ _ h hs => inv_step h256 h hs.1 hs.2

/-! ### Nothing left to do -/

/-- No transmit thread, server or receive thread can take a step. -/
def Quiet (build : Build) (prog : Program) (S : Sys n) : Prop := ∀ a, IsNetwork a → step build prog S a = none

theorem Quiet.up (h : Quiet build prog S) (hi : Aggregate.Inv build prog S) : S.up = [] := by
  by_contra hne
  obtain ⟨⟨w, i⟩, rest, hup⟩ := List.exists_cons_of_ne_nil hne
  have hs := h (.rxServer 0) trivial
  have hlt := hi.net.flying w i (by rw [hup]; simp)
  have hx : (S.wk w).sent[i]? = some _ := List.getElem?_eq_getElem hlt
  simp [Aggregate.step, hup, hx] at hs

theorem Quiet.down (h : Quiet build prog S) (w : Fin n) : S.down w = [] := by
  by_contra hne
  obtain ⟨⟨i, f⟩, rest, hd⟩ := List.exists_cons_of_ne_nil hne
  have hs := h (.rxWorker w 0) trivial
  simp [Aggregate.step, hd] at hs

theorem Quiet.busy (h : Quiet build prog S) {w : Fin n} {job : Job} {rest : List Job}
    (hq : (S.wk w).mgr.pushpulljobQueue = job :: rest) : (S.wk w).mgr.slotReady job.agtrIndex = false := by
  have hs := h (.tx w .zero) trivial
  by_contra hr
  simp [Aggregate.step, WorkerJobs.step, txThread, hq, eq_true_of_ne_false hr] at hs

/-- All jobs before `i` are closed at `w`: then job `i` is sent, if it was made. -/
theorem Quiet.sent (h : Quiet build prog S) (hi : Inv build prog S) {w : Fin n} {i : Nat}
    (hmade : i < (S.wk w).mgr.dpdkKey) (hmin : ∀ l < i, l ∈ (S.wk w).closed) : i < (S.wk w).sent.length := by
  have hslots := (hi.tables w).slots
  by_contra hns
  have hlen : (S.wk w).sent.length = i := by
    refine Nat.le_antisymm (by omega) ?_
    by_contra hlt
    have := hslots.closed_lt _ (hmin (S.wk w).sent.length (by omega))
    omega
  have hd := hslots.drawn
  obtain ⟨job, rest, hq⟩ := List.exists_cons_of_length_pos
    (show 0 < (S.wk w).mgr.pushpulljobQueue.length by omega)
  -- its slot is taken by an older job, which is open
  obtain ⟨l, hl, -, hlc⟩ := hslots.busy _ (h.busy hq)
  exact hlc (hmin l (by omega))

theorem Quiet.all_closed (h : Quiet build prog S) (hi : Inv build prog S)
    (hsame : ∀ v w, (S.wk v).mgr.dpdkKey = (S.wk w).mgr.dpdkKey) (i : Nat) :
    ∀ w, i < (S.wk w).mgr.dpdkKey → i ∈ (S.wk w).closed := by
  induction i using Nat.strongRecOn with
  | ind i ih =>
    intro w hw
    have hsent : ∀ v, i < (S.wk v).sent.length := fun v =>
      h.sent hi (hsame w v ▸ hw) fun l hl => ih l hl v (by have := hsame w v; omega)
    have harr : ∀ v, Arrived S i v := fun v => ⟨hsent v, by rw [h.up hi.base]; simp⟩
    have hrep : Replied S i := by
      obtain ⟨hle, hpast⟩ := hi.lossless.past w i (harr w)
      rcases Nat.lt_or_eq_of_le hle with hlt | heq
      · exact hpast hlt
      · exact hi.lossless.full i heq.symm
          (Finset.eq_univ_of_forall fun v => mem_arrived.mpr (harr v))
    rcases hrep w with hc | ⟨f, hf⟩
    · exact hc
    · rw [h.down] at hf; cases hf

/-- Workers that have made the same calls have made the same jobs. -/
theorem Inv.drawn (h : Inv build prog S) (w : Fin n) :
    (S.wk w).mgr.dpdkKey = (cmds build prog (S.wk w).calls.length).length := by
  have hw := h.base.workers w
  have hc : (jobsFrom (cfgOf build w) 0 (S.wk w).calls).map Job.cmd = cmds build prog (S.wk w).calls.length := by
    calc (jobsFrom (cfgOf build w) 0 (S.wk w).calls).map Job.cmd
      _ = (S.wk w).calls.flatMap fun c => shapeCmds build (shape c) := jobsFrom_cmd _ _ _
      _ = ((S.wk w).calls.map shape).flatMap (shapeCmds build) := by rw [List.flatMap_map]
      _ = cmds build prog (S.wk w).calls.length := by rw [hw.calls, List.flatMap_map]; rfl
  rw [← hc, List.length_map, ← hw.jobs, List.length_append, List.length_map, hw.slots.drawn]

/-- When all jobs are closed, every call has been reported. -/
theorem finished {cfg : Cfg} {x : Wk} (h : Completion.Inv cfg x) (hall : ∀ i < x.mgr.dpdkKey, i ∈ x.closed) :
    x.mgr.finishKeys.Perm (x.calls.map Call.tensorKey) := by
  have hmem : ∀ k, k ∈ completed (owners cfg x.calls) x.closed ↔ k ∈ List.range x.calls.length := by
    intro k
    rw [List.mem_range]
    constructor
    · intro hk
      obtain ⟨i, hi⟩ := List.mem_iff_getElem?.mp (completed_subset hk)
      exact owners_lt hi
    · intro hk
      have hc := List.getElem?_eq_getElem hk
      have hown : k ∈ owners cfg x.calls := by
        rw [← List.count_pos_iff, owners_count hc]
        exact h.tables.positive _ (List.mem_of_getElem? hc)
      refine (mem_completed_iff hown).mpr fun i hi _ => hall i ?_
      rwa [← h.tables.drawn]
  have hperm : (completed (owners cfg x.calls) x.closed).Perm (List.range x.calls.length) :=
    (List.perm_ext_iff_of_nodup (completed_nodup h.slots.nodup) List.nodup_range).mpr hmem
  rw [h.tables.finishKeys]
  refine (hperm.map _).trans (List.Perm.of_eq ?_)
  refine List.ext_getElem (by simp) fun k h1 h2 => ?_
  simp at h2
  simp [tensorKeyOf, h2]

end Inv

/-! ## How long it can take -/

instance {n : Nat} : (a : Act n) → Decidable (IsNetwork a)
  | .tx _ _ | .rxServer _ | .rxWorker _ _ => .isTrue trivial
  | .push _ _ _ | .loseUp _ | .loseDown _ _ | .reset _ | .host _ _ => .isFalse id

/-- The steps of transmit threads, server and receive threads. -/
def netStep (build : Build) (prog : Program) {n : Nat} (S : Sys n) (a : Act n) : Option (Sys n) :=
  if IsNetwork a then Aggregate.step build prog S a else none

/-- Every queued job is still to be sent, received and answered to each worker. -/
def rank {n : Nat} (S : Sys n) : Nat :=
  (∑ w, (S.wk w).mgr.pushpulljobQueue.length) * (n + 2) + S.up.length * (n + 1) + ∑ w, (S.down w).length

theorem sum_update {n : Nat} {α : Type} (f : Fin n → α) (w : Fin n) (x : α) (len : α → Nat) :
    ∑ v, len (Function.update f w x v) + len (f w) = ∑ v, len (f v) + len x := by
  rw [← Finset.add_sum_erase _ _ (Finset.mem_univ w), ← Finset.add_sum_erase _ (fun v => len (f v)) (Finset.mem_univ w),
    Function.update_self]
  have : ∑ v ∈ Finset.univ.erase w, len (Function.update f w x v) = ∑ v ∈ Finset.univ.erase w, len (f v) :=
    Finset.sum_congr rfl fun v hv => by rw [Function.update_of_ne (Finset.ne_of_mem_erase hv)]
  omega

theorem rxThread_queue (cfg : Cfg) (m : Mgr) (f : Frame) :
    (L2.DpdkManager.rxThread cfg m f).pushpulljobQueue = m.pushpulljobQueue := by
  rw [L2.DpdkManager.rxThread_eq]
  split
  · simp only [handleReply, finishPart, copyBack]
    split
    · rfl
    · split
      · cases m.cpubuffTable f.msg.key <;> rfl
      · rfl
  · rfl

theorem rank_lt {build : Build} {prog : Program} {n : Nat} {S S' : Sys n} {a : Act n}
    (hs : netStep build prog S a = some S') : rank S' < rank S := by
  obtain ⟨hnet, hs⟩ := Option.ite_none_right_eq_some.mp hs
  cases a with
  | tx w payload =>
    -- one job less in a queue, one packet more on the way
    simp only [Aggregate.step, Option.map_eq_some_iff] at hs
    obtain ⟨x, hx, rfl⟩ := hs
    obtain ⟨job, rest, hq, -, hnew⟩ := step_tx hx
    have hrest : x.mgr.pushpulljobQueue = rest := by rw [hnew]
    have hsum := sum_update S.wk w x fun y => y.mgr.pushpulljobQueue.length
    rw [hq, hrest, List.length_cons] at hsum
    simp only [rank, Sys.setWk, List.length_append, List.length_singleton]
    have hone : ∑ v, (S.wk v).mgr.pushpulljobQueue.length =
        ∑ v, (Function.update S.wk w x v).mgr.pushpulljobQueue.length + 1 := by omega
    rw [hone, Nat.succ_mul, Nat.succ_mul]
    omega
  | rxServer k =>
    -- one packet less on the way, at most one reply more to each worker
    simp only [Aggregate.step, Option.bind_eq_some_iff, Option.map_eq_some_iff] at hs
    obtain ⟨⟨w, i⟩, hk, ⟨j, f⟩, -, rfl⟩ := hs
    have hlt : k < S.up.length := (List.getElem?_eq_some_iff.mp hk).1
    have hone : S.up.length = (S.up.eraseIdx k).length + 1 := by rw [List.length_eraseIdx_of_lt hlt]; omega
    have hdown : ∀ o : Option (Nat × Frame), ∑ v, (S.down v ++ o.toList).length ≤ ∑ v, (S.down v).length + n := by
      intro o
      have hl : o.toList.length ≤ 1 := by cases o <;> simp
      calc ∑ v, (S.down v ++ o.toList).length
        _ ≤ ∑ v, ((S.down v).length + 1) := Finset.sum_le_sum fun v _ => by rw [List.length_append]; omega
        _ = ∑ v, (S.down v).length + n := by simp [Finset.sum_add_distrib]
    simp only [rank]
    rw [hone, Nat.succ_mul]
    have := hdown ((L2.ParameterServer.rxThread n S.ps f).2.map fun g => (i, g))
    omega
  | rxWorker w k =>
    simp only [Aggregate.step, Option.map_eq_some_iff] at hs
    obtain ⟨⟨i, f⟩, hk, rfl⟩ := hs
    have hlt : k < (S.down w).length := (List.getElem?_eq_some_iff.mp hk).1
    have hdown := sum_update S.down w ((S.down w).eraseIdx k) List.length
    rw [List.length_eraseIdx_of_lt hlt] at hdown
    have hqueue := sum_update S.wk w ((S.wk w).receive (cfgOf build w) i f)
      fun y => y.mgr.pushpulljobQueue.length
    rw [Wk.receive, rxThread_queue] at hqueue
    simp only [rank, Sys.setWk, Wk.receive]
    rw [Nat.add_right_cancel hqueue]
    omega
  | push | loseUp | loseDown | reset | host => exact hnet.elim

theorem descends (build : Build) (prog : Program) (n : Nat) :
    LTS.Descends (netStep build prog) (fun _ : Sys n => True) rank :=
  ⟨fun _ _ _ _ _ => trivial, fun _ _ _ _ hs => rank_lt hs⟩

/-! ## Main result -/

instance (prog : Program) {n : Nat} (S : Sys n) (a : Act n) (S' : Sys n) : Decidable (Smooth prog S a S') :=
  match a with
  | .push _ _ _ => inferInstanceAs (Decidable ((∀ _, _ ∧ _ < _) ∧ _ < _))
  | .loseUp _ | .loseDown _ _ | .reset _ => inferInstanceAs (Decidable ((∀ _, _ ∧ _ < _) ∧ False))
  | .tx _ _ | .rxServer _ | .rxWorker _ _ | .host _ _ => inferInstanceAs (Decidable ((∀ _, _ ∧ _ < _) ∧ True))

end Inca.L3.Progress
