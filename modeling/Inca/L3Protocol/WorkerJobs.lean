import Inca.Core.LTS
import Inca.L2Machine.DpdkManager

/-!
# One worker's jobs: what is sent, what is open, what is closed

The worker as a transition system: `DPDKPushPull` calls, `TxThread` sends,
arriving replies, `Reset`, and other threads writing host memory, each one
atomic step. A reply can arrive for any packet that was ever sent, late,
repeatedly and in any order.

The state records, next to the manager's own tables, the calls made, the
packets sent and the jobs *closed* so far (by accepted reply or by
`Reset`). A job is named by its number in the order of creation. By reply,
the job whose packet is answered is closed; `Reset` closes, for every slot
in use, the last job sent on it.

Main invariant (`Slots`, `slots_reachable`): job `i` is sent on slot
`i % 2500` in round `i / 2500`; at most the last job of a slot is open, and
the slot's three table entries describe exactly that job. It needs fewer
than `2 ^ 32` rounds per slot (`RoundsOk`) and nothing else.
-/
namespace Inca.L3.WorkerJobs
open Inca.L1.DpdkPkt Inca.L2.DpdkManager

/-! ## The system -/

structure Wk where
  mgr : Mgr
  calls : List Call
  sent : List (Job × Frame)
  closed : List Nat

def Wk.init (mem : Nat → Nat → Byte) : Wk := ⟨Mgr.init mem, [], [], []⟩

inductive Act
  | push (c : Call)
  | tx (payload : P4mlhdr)
  | reply (i : Nat) (f : Frame)
  | reset
  | host (mem : Nat → Nat → Byte)

/-- `f` answers the packet `p`: aggregators echo slot, round, key and command. -/
def AnswerTo (p f : Frame) : Prop :=
  f.msg.p4mlHdrs.agtr = p.msg.p4mlHdrs.agtr ∧ f.msg.p4mlHdrs.roundNum = p.msg.p4mlHdrs.roundNum ∧
  f.msg.key = p.msg.key ∧ f.msg.cmd = p.msg.cmd

instance (p f : Frame) : Decidable (AnswerTo p f) := inferInstanceAs (Decidable (_ ∧ _))

/-- The last job sent on slot `s`. -/
def lastOn (s : Nat) (sent : List (Job × Frame)) : Option Nat :=
  sent.zipIdx.foldl (fun acc x => if x.1.1.agtrIndex = s then some x.2 else acc) none

/-- The jobs that resetting the slots `ss` closes. -/
def resetCloses (w : Wk) (ss : List Nat) : List Nat :=
  ss.filterMap fun s => if w.mgr.slotReady s then none else lastOn s w.sent

/-- `RxThread` handles the frame `f`, which answers job `i`. -/
def Wk.receive (cfg : Cfg) (w : Wk) (i : Nat) (f : Frame) : Wk :=
  { w with
    mgr := rxThread cfg w.mgr f
    closed := if RxAccepts w.mgr f then w.closed ++ [i] else w.closed }

/-- No caller pushes with the command of a norm packet (core_loops.cc:998-1001 passes
`TENSOR_COMM`). -/
def step (cfg : Cfg) (w : Wk) : Act → Option Wk
  | .push c =>
    if c.cmd = TENSOR_NORM then none
    else some { w with mgr := dpdkPushPull cfg w.mgr c, calls := w.calls ++ [c] }
  | .tx payload =>
    (txThread cfg payload w.mgr).map fun (m, job, f) => { w with mgr := m, sent := w.sent ++ [(job, f)] }
  | .reply i f =>
    (w.sent[i]?).bind fun (_, p) => if AnswerTo p f then some (w.receive cfg i f) else none
  | .reset => some { w with
      mgr := reset w.mgr
      closed := w.closed ++ resetCloses w (List.range (MAX_AGTR_COUNT + NORM_SLOT)) }
  | .host mem => some { w with mgr := { w.mgr with mem := mem } }

def worker (cfg : Cfg) (mem : Nat → Nat → Byte) : LTS Wk Act := .ofFn (· = Wk.init mem) (step cfg)

/-- Fewer than `2 ^ 32` rounds were used on every slot. -/
def RoundsOk (w : Wk) : Prop := ∀ i < w.sent.length, i / MAX_AGTR_COUNT + 1 < 2 ^ 32

instance (w : Wk) : Decidable (RoundsOk w) :=
  inferInstanceAs (Decidable (∀ i < w.sent.length, i / MAX_AGTR_COUNT + 1 < 2 ^ 32))

@[simp] theorem lastOn_append (s : Nat) (sent : List (Job × Frame)) (x : Job × Frame) :
    lastOn s (sent ++ [x]) = if x.1.agtrIndex = s then some sent.length else lastOn s sent := by
  simp [lastOn, List.zipIdx_append]

/-! ## The invariant -/

/-- The jobs in creation order: which key and slot job `i` has, as the packet shows it. -/
structure IsJob (i : Nat) (j : Job) : Prop where
  key : j.key = i % DPDK_KEY_TOTAL
  agtrIndex : j.agtrIndex = i % MAX_AGTR_COUNT
  cmd : j.cmd ≠ TENSOR_NORM

structure IsPacket (i : Nat) (x : Job × Frame) : Prop where
  job : IsJob i x.1
  agtr : x.2.msg.p4mlHdrs.agtr = BitVec.ofNat 16 (i % MAX_AGTR_COUNT)
  roundNum : x.2.msg.p4mlHdrs.roundNum = BitVec.ofNat 32 (i / MAX_AGTR_COUNT)
  key : x.2.msg.key = i % DPDK_KEY_TOTAL
  cmd : x.2.msg.cmd = x.1.cmd

structure Slots (w : Wk) : Prop where
  drawn : w.mgr.dpdkKey = w.sent.length + w.mgr.pushpulljobQueue.length
  queued : ∀ j x, w.mgr.pushpulljobQueue[j]? = some x → IsJob (w.sent.length + j) x
  packet : ∀ i x, w.sent[i]? = some x → IsPacket i x
  closed_lt : ∀ i ∈ w.closed, i < w.sent.length
  nodup : w.closed.Nodup
  /-- an open job owns its slot, and no later job of that slot has been sent -/
  isOpen : ∀ i < w.sent.length, i ∉ w.closed →
    w.mgr.slotReady (i % MAX_AGTR_COUNT) = false ∧
    w.mgr.slotDpdkKey (i % MAX_AGTR_COUNT) = i % DPDK_KEY_TOTAL ∧
    w.mgr.slotRoundnum (i % MAX_AGTR_COUNT) = BitVec.ofNat 32 (i / MAX_AGTR_COUNT) ∧
    w.sent.length ≤ i + MAX_AGTR_COUNT
  busy : ∀ s, w.mgr.slotReady s = false →
    ∃ i < w.sent.length, i % MAX_AGTR_COUNT = s ∧ i ∉ w.closed
  ready : ∀ s < MAX_AGTR_COUNT, w.mgr.slotReady s = true →
    w.mgr.slotRoundnum s =
      BitVec.ofNat 32 ((w.sent.length + (MAX_AGTR_COUNT - 1) - s) / MAX_AGTR_COUNT)

theorem slots_init (mem : Nat → Nat → Byte) : Slots (Wk.init mem) := by
  refine ⟨rfl, ?_, ?_, ?_, ?_, ?_, ?_, fun s hs _ => ?_⟩
  case refine_7 =>
    have h0 : (0 + (MAX_AGTR_COUNT - 1) - s) / MAX_AGTR_COUNT = 0 :=
      Nat.div_eq_of_lt (by simp only [MAX_AGTR_COUNT] at hs ⊢; omega)
    exact (congrArg (BitVec.ofNat 32) h0).symm
  all_goals simp [Wk.init, Mgr.init]

theorem ofNat32_inj {a b : Nat} (ha : a < 2 ^ 32) (hb : b < 2 ^ 32)
    (h : BitVec.ofNat 32 a = BitVec.ofNat 32 b) : a = b := by
  have := congrArg BitVec.toNat h
  simpa only [BitVec.toNat_ofNat, Nat.mod_eq_of_lt ha, Nat.mod_eq_of_lt hb] using this

theorem agtr_toNat (i : Nat) : (BitVec.ofNat 16 (i % MAX_AGTR_COUNT)).toNat = i % MAX_AGTR_COUNT := by
  have : i % MAX_AGTR_COUNT < MAX_AGTR_COUNT := Nat.mod_lt _ (by decide)
  rw [BitVec.toNat_ofNat]
  exact Nat.mod_eq_of_lt (Nat.lt_trans this (by decide))

/-! ### Closing one open job -/

/-- Job `i` is sent and not yet closed. -/
def Wk.Open (w : Wk) (i : Nat) : Prop := i < w.sent.length ∧ i ∉ w.closed

def Wk.close (w : Wk) (i : Nat) : Wk :=
  { w with
    mgr := freeSlot w.mgr (i % MAX_AGTR_COUNT) (i % DPDK_KEY_TOTAL)
    closed := w.closed ++ [i] }

/-- An open job is the only one on its slot. -/
theorem Slots.open_unique {w : Wk} (h : Slots w) {i j : Nat} (hi : w.Open i) (hj : w.Open j)
    (hs : i % MAX_AGTR_COUNT = j % MAX_AGTR_COUNT) : i = j := by
  have h1 := (h.isOpen i hi.1 hi.2).2.2.2
  have h2 := (h.isOpen j hj.1 hj.2).2.2.2
  have h3 := hi.1; have h4 := hj.1
  simp only [MAX_AGTR_COUNT] at *
  omega

theorem Slots.close {w : Wk} (h : Slots w) {i : Nat} (hi : w.Open i) : Slots (w.close i) := by
  obtain ⟨hr, hk, hn, hlen⟩ := h.isOpen i hi.1 hi.2
  refine ⟨h.drawn, h.queued, h.packet, ?_, ?_, fun j hj hjc => ?_, fun s hs => ?_, fun s hs hrs => ?_⟩
  · intro j hj
    rcases List.mem_append.mp hj with hj | hj
    · exact h.closed_lt j hj
    · rw [List.mem_singleton.mp hj]; exact hi.1
  · simpa [Wk.close] using h.nodup.concat hi.2
  · -- another open job lives on another slot
    have hjc' : j ∉ w.closed ∧ j ≠ i := by simpa [Wk.close] using hjc
    have hne : j % MAX_AGTR_COUNT ≠ i % MAX_AGTR_COUNT :=
      fun he => hjc'.2 (h.open_unique ⟨hj, hjc'.1⟩ hi he)
    have := h.isOpen j hj hjc'.1
    simpa [Wk.close, freeSlot, Function.update_of_ne hne] using this
  · have hne : s ≠ i % MAX_AGTR_COUNT := by
      rintro rfl; simp [Wk.close, freeSlot] at hs
    have hs' : w.mgr.slotReady s = false := by
      simpa [Wk.close, freeSlot, Function.update_of_ne hne] using hs
    obtain ⟨j, hj, rfl, hjc⟩ := h.busy s hs'
    refine ⟨j, hj, rfl, ?_⟩
    simp only [Wk.close, List.mem_append, List.mem_singleton, not_or]
    exact ⟨hjc, fun he => hne (by rw [he])⟩
  · by_cases hne : s = i % MAX_AGTR_COUNT
    · subst hne
      have hq : (w.sent.length + (MAX_AGTR_COUNT - 1) - i % MAX_AGTR_COUNT) / MAX_AGTR_COUNT =
          i / MAX_AGTR_COUNT + 1 := by
        have := hi.1
        simp only [MAX_AGTR_COUNT] at *; omega
      simp only [Wk.close, freeSlot, Function.update_self, hn, hq]
      rw [← BitVec.ofNat_add]
    · have := h.ready s hs (by simpa [Wk.close, freeSlot, Function.update_of_ne hne] using hrs)
      simpa [Wk.close, freeSlot, Function.update_of_ne hne] using this

/-- Closing the open jobs `is` one after another. -/
inductive Closes : Wk → List Nat → Wk → Prop
  | nil (w : Wk) : Closes w [] w
  | cons {w w' : Wk} {i : Nat} {is : List Nat} :
    w.Open i → Closes (w.close i) is w' → Closes w (i :: is) w'

theorem Closes.slots {w w' : Wk} {is : List Nat} (hc : Closes w is w') (h : Slots w) : Slots w' := by
  induction hc with
  | nil => exact h
  | cons hi _ ih => exact ih (h.close hi)

/-! ### Reset -/

theorem lastOn_eq {sent : List (Job × Frame)}
    (hp : ∀ k x, sent[k]? = some x → x.1.agtrIndex = k % MAX_AGTR_COUNT) {i : Nat}
    (hi : i < sent.length) (hl : sent.length ≤ i + MAX_AGTR_COUNT) :
    lastOn (i % MAX_AGTR_COUNT) sent = some i := by
  induction sent using List.reverseRecOn with
  | nil => simp at hi
  | append_singleton sent x ih =>
    have hx : x.1.agtrIndex = sent.length % MAX_AGTR_COUNT := hp sent.length x (by simp)
    simp only [List.length_append, List.length_singleton] at hi hl
    rw [lastOn_append, hx]
    split
    · congr 1; simp only [MAX_AGTR_COUNT] at *; omega
    · refine ih (fun k y hk => hp k y ?_) ?_ (by omega)
      · have hlt : k < sent.length := (List.getElem?_eq_some_iff.mp hk).1
        rw [List.getElem?_append_left hlt]; exact hk
      · rcases Nat.lt_succ_iff_lt_or_eq.mp hi with h | h
        · exact h
        · subst h; exact absurd rfl ‹_›

theorem Slots.lastOn {w : Wk} (h : Slots w) {i : Nat} (hi : w.Open i) :
    lastOn (i % MAX_AGTR_COUNT) w.sent = some i :=
  lastOn_eq (fun k x hk => (h.packet k x hk).job.agtrIndex) hi.1 (h.isOpen i hi.1 hi.2).2.2.2

/-- Resetting slots closes the open jobs on them, one after another. -/
theorem resetSlots_closes {w : Wk} (h : Slots w) (ss : List Nat) (hnd : ss.Nodup) :
    Closes w (resetCloses w ss)
      { w with mgr := ss.foldl resetSlot w.mgr, closed := w.closed ++ resetCloses w ss } := by
  induction ss generalizing w with
  | nil => simpa [resetCloses] using Closes.nil w
  | cons s ss ih =>
    obtain ⟨hs, hss⟩ := List.nodup_cons.mp hnd
    by_cases hr : w.mgr.slotReady s = true
    · have hrc : resetCloses w (s :: ss) = resetCloses w ss := by simp [resetCloses, hr]
      rw [hrc, List.foldl_cons, resetSlot_ready hr]
      exact ih h hss
    · have hr : w.mgr.slotReady s = false := by simpa using hr
      obtain ⟨i, hi, rfl, hic⟩ := h.busy s hr
      have hio : w.Open i := ⟨hi, hic⟩
      have hrest : resetCloses (w.close i) ss = resetCloses w ss := by
        refine List.filterMap_congr fun t ht => ?_
        have hne : t ≠ i % MAX_AGTR_COUNT := fun he => hs (he ▸ ht)
        simp [Wk.close, freeSlot, Function.update_of_ne hne]
      have hrc : resetCloses w (i % MAX_AGTR_COUNT :: ss) = i :: resetCloses w ss := by
        simp [resetCloses, hr, h.lastOn hio]
      have hm : resetSlot w.mgr (i % MAX_AGTR_COUNT) = (w.close i).mgr := by
        rw [resetSlot_busy hr, (h.isOpen i hi hic).2.1]; rfl
      have hrec := ih (h.close hio) hss
      rw [hrest] at hrec
      rw [hrc, List.foldl_cons, hm]
      refine .cons hio ?_
      simpa [Wk.close] using hrec

theorem step_reset {cfg : Cfg} {w w' : Wk} (h : Slots w) (hs : step cfg w .reset = some w') :
    Closes w (resetCloses w (List.range (MAX_AGTR_COUNT + NORM_SLOT))) w' := by
  have hc := resetSlots_closes h (List.range (MAX_AGTR_COUNT + NORM_SLOT)) List.nodup_range
  rw [← reset] at hc
  simp only [step, Option.some.injEq] at hs
  rwa [hs] at hc

/-! ### Replies -/

/-- Only the reply to an open job is accepted. -/
theorem Slots.open_of_accepts {w : Wk} (h : Slots w) (hR : RoundsOk w) {i : Nat} {x : Job × Frame}
    {f : Frame} (hx : w.sent[i]? = some x) (hf : AnswerTo x.2 f) (ha : RxAccepts w.mgr f) :
    w.Open i := by
  have hi : i < w.sent.length := (List.getElem?_eq_some_iff.mp hx).1
  have hp := h.packet i x hx
  -- the round in the reply is the round the slot is waiting for
  have hround : BitVec.ofNat 32 (i / MAX_AGTR_COUNT) = w.mgr.slotRoundnum (i % MAX_AGTR_COUNT) := by
    have := ha.2.2.2
    rwa [hf.2.1, hf.1, hp.roundNum, hp.agtr, agtr_toNat] at this
  have hiR := hR i hi
  refine ⟨hi, fun hc => ?_⟩
  have hs : i % MAX_AGTR_COUNT < MAX_AGTR_COUNT := Nat.mod_lt _ (by decide)
  by_cases hr : w.mgr.slotReady (i % MAX_AGTR_COUNT) = true
  · -- a ready slot waits for a round that no packet had yet
    rw [h.ready _ hs hr] at hround
    have hl := hR (w.sent.length - 1 - (w.sent.length - 1 - i) % MAX_AGTR_COUNT)
      (by simp only [MAX_AGTR_COUNT]; omega)
    have := ofNat32_inj (by omega) (by simp only [MAX_AGTR_COUNT] at *; omega) hround
    simp only [MAX_AGTR_COUNT] at *; omega
  · -- a slot in use waits for the round of its open job
    obtain ⟨j, hj, hsj, hjc⟩ := h.busy _ (by simpa using hr)
    have hjo := (h.isOpen j hj hjc).2.2.1
    rw [← hsj, hjo] at hround
    have := ofNat32_inj (by omega) (by have := hR j hj; omega) hround
    have : i = j := by simp only [MAX_AGTR_COUNT] at *; omega
    exact hjc (this ▸ hc)

/-- An accepted reply closes the job that it answers and writes memory. -/
theorem Slots.receive_eq {w : Wk} (h : Slots w) (cfg : Cfg) {i : Nat} {x : Job × Frame} {f : Frame}
    (hx : w.sent[i]? = some x) (hf : AnswerTo x.2 f) (ha : RxAccepts w.mgr f) :
    ∃ mem, w.receive cfg i f = Wk.close { w with mgr := { w.mgr with mem := mem } } i := by
  have hp := h.packet i x hx
  have hcmd : f.msg.cmd ≠ TENSOR_NORM := by
    rw [hf.2.2.2, hp.cmd]; exact hp.job.cmd
  obtain ⟨mem, hm⟩ := handleReply_eq cfg w.mgr hcmd
  refine ⟨mem, ?_⟩
  rw [Wk.receive, rxThread_eq, if_pos ha, if_pos ha, hm, hf.1, hf.2.2.1, hp.agtr, hp.key, agtr_toNat]
  rfl

/-- A reply step changes nothing, or closes the job that it answers and writes memory. -/
theorem step_reply {cfg : Cfg} {w w' : Wk} (h : Slots w) (hR : RoundsOk w) {i : Nat} {f : Frame}
    (hs : step cfg w (.reply i f) = some w') :
    w' = w ∨ ∃ mem, w.Open i ∧ w' = Wk.close { w with mgr := { w.mgr with mem := mem } } i := by
  simp only [step, Option.bind_eq_some_iff] at hs
  obtain ⟨⟨j, p⟩, hx, hs⟩ := hs
  split at hs
  · rename_i hans
    cases hs
    by_cases hacc : RxAccepts w.mgr f
    · obtain ⟨mem, hm⟩ := h.receive_eq cfg hx hans hacc
      exact .inr ⟨mem, h.open_of_accepts hR hx hans hacc, hm⟩
    · left
      rw [Wk.receive, rxThread_eq, if_neg hacc, if_neg hacc]
  · cases hs

/-! ### Sends and calls -/

/-- An entry of a list that has grown by one: an old entry, or the new one. -/
theorem getElem?_snoc {α : Type} {l : List α} {x y : α} {i : Nat} (h : (l ++ [x])[i]? = some y) :
    l[i]? = some y ∨ i = l.length ∧ y = x := by
  rcases Nat.lt_or_ge i l.length with hi | hi
  · left; rwa [List.getElem?_append_left hi] at h
  · right
    rw [List.getElem?_append_right hi, List.getElem?_singleton] at h
    split at h
    · cases h; exact ⟨by omega, rfl⟩
    · cases h

/-- What holds of the jobs in the queue, numbered from `i` on, and of all new jobs, holds of the
queue after a call. -/
theorem forall_queued_push {cfg : Cfg} {m : Mgr} {c : Call} {i : Nat} {P : Nat → Job → Prop}
    (hd : m.dpdkKey = i + m.pushpulljobQueue.length)
    (hold : ∀ j x, m.pushpulljobQueue[j]? = some x → P (i + j) x)
    (hnew : ∀ k off, P k (jobAt cfg c (k % DPDK_KEY_TOTAL) off)) :
    ∀ j x, (dpdkPushPull cfg m c).pushpulljobQueue[j]? = some x → P (i + j) x := by
  intro j x hj
  rw [(dpdkPushPull_spec cfg m c).2.1] at hj
  rcases Nat.lt_or_ge j m.pushpulljobQueue.length with hlt | hge
  · rw [List.getElem?_append_left hlt] at hj; exact hold j x hj
  · rw [List.getElem?_append_right hge, List.getElem?_map, Option.map_eq_some_iff] at hj
    obtain ⟨k, hk, rfl⟩ := hj
    obtain ⟨-, rfl⟩ := List.getElem?_eq_some_iff.mp hk
    have he : i + j = m.dpdkKey + (j - m.pushpulljobQueue.length) := by omega
    rw [List.getElem_range, he]
    exact hnew _ _

/-- The job at the head is number `i`, and those behind it keep their numbers. -/
theorem forall_queued_pop {q rest : List Job} {job : Job} {i : Nat} {P : Nat → Job → Prop} (hq : q = job :: rest)
    (h : ∀ j x, q[j]? = some x → P (i + j) x) : P i job ∧ ∀ j x, rest[j]? = some x → P (i + 1 + j) x := by
  subst hq
  refine ⟨h 0 job rfl, ?_⟩
  intro j x hj
  rw [Nat.add_assoc, Nat.add_comm 1 j]
  exact h (j + 1) x hj

/-- `TxThread` sends the job at the head of the queue, on a ready slot. -/
theorem step_tx {cfg : Cfg} {w w' : Wk} {payload : P4mlhdr} (hs : step cfg w (.tx payload) = some w') :
    ∃ job rest, w.mgr.pushpulljobQueue = job :: rest ∧ w.mgr.slotReady job.agtrIndex = true ∧
      w' = { w with
        mgr := { w.mgr with
          slotReady := Function.update w.mgr.slotReady job.agtrIndex false
          slotDpdkKey := Function.update w.mgr.slotDpdkKey job.agtrIndex job.key
          pushpulljobQueue := rest }
        sent := w.sent ++ [(job, frameOf cfg payload w.mgr job)] } := by
  simp only [step, Option.map_eq_some_iff] at hs
  obtain ⟨⟨m, job, f⟩, htx, rfl⟩ := hs
  unfold txThread at htx
  split at htx
  · cases htx
  · rename_i job' rest hq
    split at htx
    · rename_i hr
      simp only [Option.some.injEq, Prod.mk.injEq] at htx
      obtain ⟨rfl, rfl, rfl⟩ := htx
      exact ⟨_, _, hq, hr, rfl⟩
    · cases htx

theorem frameOf_hdr (cfg : Cfg) (payload : P4mlhdr) (m : Mgr) (job : Job) :
    (frameOf cfg payload m job).msg.p4mlHdrs.agtr = BitVec.ofNat 16 (job.key % MAX_AGTR_COUNT) ∧
    (frameOf cfg payload m job).msg.p4mlHdrs.roundNum = m.slotRoundnum job.agtrIndex := by
  unfold frameOf
  split <;> simp [assembleDpdkP4mlHdrs, assembleNormalHdrs, gradHdr]

/-- Keys are drawn modulo a multiple of the number of slots. -/
theorem key_mod (i : Nat) : i % DPDK_KEY_TOTAL % MAX_AGTR_COUNT = i % MAX_AGTR_COUNT :=
  Nat.mod_mod_of_dvd i (by decide)

theorem Slots.tx {cfg : Cfg} {w w' : Wk} {payload : P4mlhdr} (h : Slots w)
    (hs : step cfg w (.tx payload) = some w') : Slots w' := by
  obtain ⟨job, rest, hq, hr, rfl⟩ := step_tx hs
  obtain ⟨hj, hrest⟩ := forall_queued_pop hq h.queued
  have hslot := hj.agtrIndex
  have hslt : job.agtrIndex < MAX_AGTR_COUNT := hslot ▸ Nat.mod_lt _ (by decide)
  have hround : w.mgr.slotRoundnum job.agtrIndex = BitVec.ofNat 32 (w.sent.length / MAX_AGTR_COUNT) := by
    rw [h.ready _ hslt hr, hslot]
    congr 1; simp only [MAX_AGTR_COUNT]; omega
  have hdr := frameOf_hdr cfg payload w.mgr job
  refine ⟨?_, by rwa [List.length_append, List.length_singleton], fun i x hx => ?_, fun i hi => ?_, h.nodup,
    fun i hi hic => ?_, fun s hs => ?_, fun s hs hrs => ?_⟩
  · have := h.drawn
    simp only [hq, List.length_cons, List.length_append, List.length_nil] at this ⊢; omega
  · rcases getElem?_snoc hx with hx | ⟨rfl, rfl⟩
    · exact h.packet i x hx
    · exact ⟨hj, by rw [hdr.1, hj.key, key_mod], by rw [hdr.2, hround], hj.key, rfl⟩
  · have := h.closed_lt i hi; simp; omega
  · simp only [List.length_append, List.length_singleton] at hi ⊢
    rcases Nat.lt_succ_iff_lt_or_eq.mp hi with hi | rfl
    · -- an open job on this slot would have kept it busy
      obtain ⟨h1, h2, h3, h4⟩ := h.isOpen i hi hic
      have hne : i % MAX_AGTR_COUNT ≠ job.agtrIndex := by
        intro he; rw [he, hr] at h1; cases h1
      refine ⟨by simpa [Function.update_of_ne hne] using h1,
        by simpa [Function.update_of_ne hne] using h2, h3, ?_⟩
      rw [hslot] at hne
      simp only [MAX_AGTR_COUNT] at *; omega
    · rw [← hslot]
      exact ⟨by simp, by simp [hj.key], hround, by simp [MAX_AGTR_COUNT]⟩
  · simp only [List.length_append, List.length_singleton]
    by_cases hne : s = job.agtrIndex
    · exact ⟨w.sent.length, by omega, by rw [hne, hslot], fun hc => by
        have := h.closed_lt _ hc; omega⟩
    · obtain ⟨i, hi, hsi, hic⟩ := h.busy s (by simpa [Function.update_of_ne hne] using hs)
      exact ⟨i, by omega, hsi, hic⟩
  · have hne : s ≠ job.agtrIndex := by rintro rfl; simp at hrs
    have := h.ready s hs (by simpa [Function.update_of_ne hne] using hrs)
    simp only [this, List.length_append, List.length_singleton]
    rw [hslot] at hne
    congr 1; simp only [MAX_AGTR_COUNT] at *; omega

theorem cmdOf_ne_norm {c : Call} (h : c.cmd ≠ TENSOR_NORM) : cmdOf c ≠ TENSOR_NORM := by
  unfold cmdOf; split
  · decide
  · exact h

theorem Slots.push {cfg : Cfg} {w w' : Wk} {c : Call} (h : Slots w)
    (hs : step cfg w (.push c) = some w') : Slots w' := by
  simp only [step] at hs
  split at hs
  · cases hs
  · rename_i hc
    cases hs
    obtain ⟨h1, h2, hu⟩ := dpdkPushPull_spec cfg w.mgr c
    have hd := h.drawn
    refine ⟨?_, forall_queued_push hd h.queued ?_, h.packet, h.closed_lt, h.nodup, ?_, ?_, ?_⟩
    · simp only [h1, h2, List.length_append, List.length_map, List.length_range]; omega
    · exact fun k off => ⟨rfl, key_mod _, cmdOf_ne_norm hc⟩
    · simpa only [hu.slotReady, hu.slotDpdkKey, hu.slotRoundnum] using h.isOpen
    · simpa only [hu.slotReady] using h.busy
    · simpa only [hu.slotReady, hu.slotRoundnum] using h.ready

/-! ### Every step -/

theorem Slots.withMem {w : Wk} (h : Slots w) (mem : Nat → Nat → Byte) :
    Slots { w with mgr := { w.mgr with mem := mem } } :=
  ⟨h.drawn, h.queued, h.packet, h.closed_lt, h.nodup, h.isOpen, h.busy, h.ready⟩

theorem slots_step {cfg : Cfg} {w w' : Wk} {a : Act} (h : Slots w) (hR : RoundsOk w)
    (hs : step cfg w a = some w') : Slots w' := by
  cases a with
  | push c => exact h.push hs
  | tx payload => exact h.tx hs
  | reply i f =>
    rcases step_reply h hR hs with rfl | ⟨mem, ho, rfl⟩
    · exact h
    · exact (h.withMem mem).close ho
  | reset => exact (step_reset h hs).slots h
  | host mem => cases hs; exact h.withMem mem

/-- **Invariant.** In every run with fewer than `2 ^ 32` rounds per slot. -/
theorem slots_reachable (cfg : Cfg) (mem : Nat → Nat → Byte) :
    ((worker cfg mem).restrict fun _ _ w' => RoundsOk w').Inductive fun w => Slots w ∧ RoundsOk w where
  init := by rintro w rfl; exact ⟨slots_init mem, by simp [RoundsOk, Wk.init]⟩
  step := fun w a w' h hs => ⟨slots_step h.1 h.2 hs.1, hs.2⟩

/-! ## The jobs of a sequence of calls

Which jobs a worker sends, and in which order, depends on its calls alone. -/

/-- The jobs that the calls make when `k` keys were drawn before. -/
def jobsFrom (cfg : Cfg) : Nat → List Call → List Job
  | _, [] => []
  | k, c :: cs =>
    (List.range (parts cfg c)).map (fun j => jobAt cfg c ((k + j) % DPDK_KEY_TOTAL) (j * bound cfg)) ++
      jobsFrom cfg (k + parts cfg c) cs

theorem jobsFrom_append (cfg : Cfg) (k : Nat) (cs ds : List Call) :
    jobsFrom cfg k (cs ++ ds) =
      jobsFrom cfg k cs ++ jobsFrom cfg (k + (jobsFrom cfg k cs).length) ds := by
  induction cs generalizing k with
  | nil => simp [jobsFrom]
  | cons c cs ih => simp [jobsFrom, ih, Nat.add_assoc]

theorem jobsFrom_cmd (cfg : Cfg) (k : Nat) (cs : List Call) :
    (jobsFrom cfg k cs).map Job.cmd = cs.flatMap fun c => List.replicate (parts cfg c) (cmdOf c) := by
  induction cs generalizing k with
  | nil => rfl
  | cons c cs ih =>
    have hc : ∀ n, ((List.range n).map fun j =>
        (jobAt cfg c ((k + j) % DPDK_KEY_TOTAL) (j * bound cfg)).cmd) = List.replicate n (cmdOf c) :=
      fun n => by simp [jobAt, List.map_const']
    simp only [jobsFrom, List.map_append, List.map_map, ih, List.flatMap_cons]
    rw [← hc]; rfl

/-- The jobs sent and queued are those of the calls made, in order. -/
def Jobs (cfg : Cfg) (w : Wk) : Prop :=
  w.sent.map Prod.fst ++ w.mgr.pushpulljobQueue = jobsFrom cfg 0 w.calls

/-- Calls, sent packets and queue are the same. -/
structure SameJobs (w w' : Wk) : Prop where
  calls : w'.calls = w.calls
  sent : w'.sent = w.sent
  queue : w'.mgr.pushpulljobQueue = w.mgr.pushpulljobQueue

theorem Closes.sameJobs {w w' : Wk} {is : List Nat} (hc : Closes w is w') : SameJobs w w' := by
  induction hc with
  | nil => exact ⟨rfl, rfl, rfl⟩
  | cons _ _ ih => exact ⟨ih.calls, ih.sent, ih.queue⟩

/-- Only calls and sends change what is sent and queued. -/
theorem step_sameJobs {cfg : Cfg} {w w' : Wk} {a : Act} (h : Slots w) (hR : RoundsOk w)
    (hs : step cfg w a = some w') (hp : ∀ c, a ≠ .push c) (ht : ∀ p, a ≠ .tx p) : SameJobs w w' := by
  cases a with
  | push c => exact absurd rfl (hp c)
  | tx payload => exact absurd rfl (ht payload)
  | reply i f =>
    rcases step_reply h hR hs with rfl | ⟨mem, -, rfl⟩
    · exact ⟨rfl, rfl, rfl⟩
    · exact ⟨rfl, rfl, rfl⟩
  | reset => exact (step_reset h hs).sameJobs
  | host mem => cases hs; exact ⟨rfl, rfl, rfl⟩

theorem Jobs.push {cfg : Cfg} {w : Wk} (hj : Jobs cfg w) (h : Slots w) (c : Call) :
    Jobs cfg { w with mgr := dpdkPushPull cfg w.mgr c, calls := w.calls ++ [c] } := by
  have hlen : (jobsFrom cfg 0 w.calls).length = w.mgr.dpdkKey := by
    rw [← hj, List.length_append, List.length_map, h.drawn]
  obtain ⟨-, hq, -⟩ := dpdkPushPull_spec cfg w.mgr c
  unfold Jobs at *
  simp only [hq, ← List.append_assoc, hj, jobsFrom_append, hlen, Nat.zero_add, jobsFrom, List.append_nil]

theorem jobs_step {cfg : Cfg} {w w' : Wk} {a : Act} (hj : Jobs cfg w) (h : Slots w) (hR : RoundsOk w)
    (hs : step cfg w a = some w') : Jobs cfg w' := by
  have hsame : SameJobs w w' → Jobs cfg w' := fun e => by
    rw [Jobs, e.calls, e.sent, e.queue]; exact hj
  cases a with
  | push c =>
    simp only [step] at hs
    split at hs
    · cases hs
    · cases hs; exact hj.push h c
  | tx payload =>
    obtain ⟨job, rest, hq, -, rfl⟩ := step_tx hs
    unfold Jobs at *
    rw [hq] at hj
    simpa using hj
  | reply i f => exact hsame (step_sameJobs h hR hs (by simp) (by simp))
  | reset => exact hsame (step_sameJobs h hR hs (by simp) (by simp))
  | host mem => exact hsame (step_sameJobs h hR hs (by simp) (by simp))

theorem Jobs.sent {cfg : Cfg} {w : Wk} (hj : Jobs cfg w) {i : Nat} {x : Job × Frame}
    (hx : w.sent[i]? = some x) : (jobsFrom cfg 0 w.calls)[i]? = some x.1 := by
  have hi : i < w.sent.length := (List.getElem?_eq_some_iff.mp hx).1
  rw [← hj, List.getElem?_append_left (by simpa using hi), List.getElem?_map, hx]; rfl

end Inca.L3.WorkerJobs
