import Inca.L3Protocol.WorkerJobs

/-!
# Send buffers: which `send_pkt_ptrs` entry an open request was written into

`TxThread` writes the packet of key `k` into entry `k % 100000`,
`CommunicateNorm` into entry `100000 + k % 300`; both keep the index in a
`uint16_t`. A packet must not be overwritten while it is open.

The worker of `WorkerJobs` with its norm calls: at most one call waits at a
time. Along the runs in which every slot has at most one open job
(`OneOpen`; all runs with fewer than `2 ^ 32` rounds per slot, by
`Slots.open_unique`):

* `fifo_inductive`: jobs are sent in the order of their keys, so the open
  ones are among the last 2500.
* `gradient_entries`: no two of them share an entry. 65536 is no difference
  of two of their residues modulo 100000.
* `entries_iff`: so an entry is shared exactly if a norm call waits whose
  truncated entry `34464 + k % 300` is that of an open job.
* `entries_counterexample`: job 34464 and a norm call with key 0.
-/
namespace Inca.L3.SendBuffers
open Inca.L1.DpdkPkt Inca.L2.DpdkManager Inca.L3.WorkerJobs

/-- mirrors byteps/byteps/common/dpdk/common/dpdk_pkt.h:41 -/
abbrev WORKER_SEND_NUM_MBUFS : Nat := 100000

/-- `send_buf_index` of a job.
mirrors byteps/byteps/common/dpdk/client/dpdk_manager.cc:421-433 -/
def jobEntry (key : Nat) : BitVec 16 := BitVec.ofNat 16 (key % WORKER_SEND_NUM_MBUFS)

/-- `send_buf_index` of a norm call.
mirrors byteps/byteps/common/dpdk/client/dpdk_manager.cc:941 -/
def normEntry (key : Nat) : BitVec 16 := BitVec.ofNat 16 (WORKER_SEND_NUM_MBUFS + key % NORM_SLOT)

/-! ## The worker with its norm calls -/

structure St where
  wk : Wk
  /-- key of the `CommunicateNorm` call that waits -/
  waiting : Option Nat

inductive BufAct
  | job (a : Act)
  | normCall (key : Nat)
  | normReply (f : Frame)
  | normReturn

/-- mirrors byteps/byteps/common/dpdk/client/dpdk_manager.cc:925-1000 (`CommunicateNorm`): the
call clears `norm_ready` and sends, and returns when `RxThread` has set it. -/
def step (cfg : Cfg) (st : St) : BufAct → Option St
  | .job a => (WorkerJobs.step cfg st.wk a).map ({ st with wk := · })
  | .normCall key =>
    if st.waiting.isSome then none
    else
      let m := st.wk.mgr
      let m := { m with normReady := Function.update m.normReady key false }
      some ⟨{ st.wk with mgr := m }, some key⟩
  | .normReply f =>
    if f.msg.cmd = TENSOR_NORM then
      some { st with wk := { st.wk with mgr := rxThread cfg st.wk.mgr f } }
    else none
  | .normReturn =>
    st.waiting.bind fun key =>
      if st.wk.mgr.normReady key then some { st with waiting := none } else none

/-- Every slot has at most one open job. -/
def OneOpen (w : Wk) : Prop :=
  ∀ i j, w.Open i → w.Open j → i % MAX_AGTR_COUNT = j % MAX_AGTR_COUNT → i = j

/-- The runs in which every slot has at most one open job. -/
def buffers (cfg : Cfg) (mem : Nat → Nat → Byte) : LTS St BufAct :=
  (LTS.ofFn (· = ⟨Wk.init mem, none⟩) (step cfg)).restrict fun _ _ st => OneOpen st.wk

/-! ## Jobs are sent in the order of their keys -/

/-- What is needed of the queue: jobs `sent.length`, `sent.length + 1`, and so on wait in it. -/
structure Fifo (w : Wk) : Prop where
  drawn : w.mgr.dpdkKey = w.sent.length + w.mgr.pushpulljobQueue.length
  queued : ∀ j x, w.mgr.pushpulljobQueue[j]? = some x → x.key = (w.sent.length + j) % DPDK_KEY_TOTAL
  sent : ∀ i x, w.sent[i]? = some x → x.1.key = i % DPDK_KEY_TOTAL
  closed_lt : ∀ i ∈ w.closed, i < w.sent.length
  /-- the open jobs are among the last ones, one per slot -/
  window : ∀ i, w.Open i → w.sent.length ≤ i + MAX_AGTR_COUNT

/-- A step that neither makes nor sends jobs. -/
structure Keeps (w w' : Wk) : Prop where
  sent : w'.sent = w.sent
  dpdkKey : w'.mgr.dpdkKey = w.mgr.dpdkKey
  queue : w'.mgr.pushpulljobQueue = w.mgr.pushpulljobQueue
  closed : w.closed ⊆ w'.closed
  closed_lt : ∀ i ∈ w'.closed, i ∈ w.closed ∨ i < w.sent.length

theorem Fifo.keep {w w' : Wk} (h : Fifo w) (k : Keeps w w') : Fifo w' := by
  refine ⟨?_, ?_, ?_, fun i hi => ?_, fun i hi => ?_⟩
  · rw [k.dpdkKey, k.sent, k.queue]; exact h.drawn
  · rw [k.queue, k.sent]; exact h.queued
  · rw [k.sent]; exact h.sent
  · rw [k.sent]
    exact (k.closed_lt i hi).elim (h.closed_lt i) id
  · rw [k.sent]
    refine h.window i ⟨k.sent ▸ hi.1, fun hc => hi.2 (k.closed hc)⟩

theorem rxThread_keeps (cfg : Cfg) (m : Mgr) (f : Frame) :
    (rxThread cfg m f).dpdkKey = m.dpdkKey ∧
    (rxThread cfg m f).pushpulljobQueue = m.pushpulljobQueue := by
  rw [rxThread_eq]
  split
  · by_cases hc : f.msg.cmd = TENSOR_NORM
    · rw [handleReply, if_pos hc]; exact ⟨rfl, rfl⟩
    · obtain ⟨mem, hm⟩ := handleReply_eq cfg m hc
      rw [hm]; exact ⟨rfl, rfl⟩
  · exact ⟨rfl, rfl⟩

theorem resetSlots_keeps (m : Mgr) (ss : List Nat) :
    (ss.foldl resetSlot m).dpdkKey = m.dpdkKey ∧
    (ss.foldl resetSlot m).pushpulljobQueue = m.pushpulljobQueue := by
  induction ss generalizing m with
  | nil => exact ⟨rfl, rfl⟩
  | cons s ss ih =>
    have h1 : (resetSlot m s).dpdkKey = m.dpdkKey ∧
        (resetSlot m s).pushpulljobQueue = m.pushpulljobQueue := by
      unfold resetSlot; split <;> exact ⟨rfl, rfl⟩
    rw [List.foldl_cons, (ih _).1, (ih _).2]
    exact h1

theorem lastOn_lt {s i : Nat} {sent : List (Job × Frame)} (h : lastOn s sent = some i) :
    i < sent.length := by
  induction sent using List.reverseRecOn with
  | nil => cases h
  | append_singleton sent x ih =>
    rw [lastOn_append] at h
    rw [List.length_append, List.length_singleton]
    split at h
    · cases h; exact Nat.lt_succ_self _
    · exact Nat.lt_succ_of_lt (ih h)

theorem receive_keeps (cfg : Cfg) {w : Wk} {i : Nat} (hi : i < w.sent.length) (f : Frame) :
    Keeps w (w.receive cfg i f) := by
  obtain ⟨hk, hq⟩ := rxThread_keeps cfg w.mgr f
  refine ⟨rfl, hk, hq, ?_, ?_⟩ <;> unfold Wk.receive <;> dsimp only <;> split
  · exact List.subset_append_left _ _
  · exact List.Subset.refl _
  · intro k hk
    exact (List.mem_append.mp hk).imp_right fun hk => by rw [List.mem_singleton.mp hk]; exact hi
  · exact fun k hk => .inl hk

theorem reset_keeps {cfg : Cfg} {w w' : Wk} (hs : WorkerJobs.step cfg w .reset = some w') :
    Keeps w w' := by
  simp only [WorkerJobs.step, Option.some.injEq] at hs
  subst hs
  obtain ⟨hk, hq⟩ := resetSlots_keeps w.mgr (List.range (MAX_AGTR_COUNT + NORM_SLOT))
  refine ⟨rfl, hk, hq, List.subset_append_left _ _, fun i hi => ?_⟩
  refine (List.mem_append.mp hi).imp_right fun hi => ?_
  obtain ⟨s, -, hl⟩ := List.mem_filterMap.mp hi
  split at hl
  · cases hl
  · exact lastOn_lt hl

theorem Fifo.push {cfg : Cfg} {w : Wk} (h : Fifo w) (c : Call) :
    Fifo { w with mgr := dpdkPushPull cfg w.mgr c, calls := w.calls ++ [c] } := by
  obtain ⟨h1, h2, -⟩ := dpdkPushPull_spec cfg w.mgr c
  have hd := h.drawn
  have hq := @forall_queued_push cfg w.mgr c w.sent.length (fun i x => x.key = i % DPDK_KEY_TOTAL) hd
    h.queued fun _ _ => rfl
  refine ⟨?_, hq, h.sent, h.closed_lt, h.window⟩
  simp only [h1, h2, List.length_append, List.length_map, List.length_range]; omega

/-- Job `sent.length` is sent; a job that is 2500 jobs older would share its slot. -/
theorem Fifo.tx {cfg : Cfg} {w w' : Wk} {payload : P4mlhdr} (h : Fifo w)
    (hs : WorkerJobs.step cfg w (.tx payload) = some w') (hone : OneOpen w') : Fifo w' := by
  obtain ⟨job, rest, hq, -, rfl⟩ := step_tx hs
  have hpop := @forall_queued_pop _ _ _ w.sent.length (fun i x => x.key = i % DPDK_KEY_TOTAL) hq h.queued
  obtain ⟨hj, hrest⟩ := hpop
  refine ⟨?_, by rwa [List.length_append, List.length_singleton], fun i x hx => ?_, fun i hi => ?_, fun i hi => ?_⟩
  · have := h.drawn
    simp only [hq, List.length_cons, List.length_append, List.length_nil] at this ⊢; omega
  · rcases getElem?_snoc hx with hx | ⟨rfl, rfl⟩
    · exact h.sent i x hx
    · exact hj
  · have := h.closed_lt i hi; simp; omega
  · have hlt : i < w.sent.length + 1 := by simpa using hi.1
    rw [List.length_append, List.length_singleton]
    rcases Nat.lt_succ_iff_lt_or_eq.mp hlt with hlt | rfl
    · have hwin := h.window i ⟨hlt, hi.2⟩
      rcases Nat.lt_or_eq_of_le hwin with hwin | heq
      · exact hwin
      · have := hone i w.sent.length hi ⟨by simp, fun hc => Nat.lt_irrefl _ (h.closed_lt _ hc)⟩
          (by rw [heq, Nat.add_mod_right])
        omega
    · exact Nat.add_le_add_left (by decide) _

/-- **Step.** Every step of the worker. -/
theorem fifo_step {cfg : Cfg} {w w' : Wk} {a : Act} (h : Fifo w)
    (hs : WorkerJobs.step cfg w a = some w') (hone : OneOpen w') : Fifo w' := by
  cases a with
  | push c =>
    simp only [WorkerJobs.step] at hs
    split at hs
    · cases hs
    · cases hs; exact h.push c
  | tx payload => exact h.tx hs hone
  | reply i f =>
    simp only [WorkerJobs.step, Option.bind_eq_some_iff] at hs
    obtain ⟨⟨j, p⟩, hx, hs⟩ := hs
    split at hs
    · cases hs
      exact h.keep (receive_keeps cfg (List.getElem?_eq_some_iff.mp hx).1 f)
    · cases hs
  | reset => exact h.keep (reset_keeps hs)
  | host mem => cases hs; exact h.keep ⟨rfl, rfl, rfl, List.Subset.refl _, fun _ hi => .inl hi⟩

/-- **Run.** -/
theorem fifo_inductive (cfg : Cfg) (mem : Nat → Nat → Byte) :
    (buffers cfg mem).Inductive fun st => Fifo st.wk where
  init := by
    rintro st rfl
    refine ⟨rfl, by simp [Wk.init, Mgr.init], ?_, ?_, ?_⟩ <;> simp [Wk.Open, Wk.init]
  step := by
    rintro st a st' h ⟨hs, hone⟩
    cases a with
    | job a =>
      obtain ⟨w', hw, rfl⟩ := Option.map_eq_some_iff.mp hs
      exact fifo_step h hw hone
    | normCall key =>
      simp only [LTS.ofFn, step] at hs
      split at hs
      · cases hs
      · cases hs; exact h.keep ⟨rfl, rfl, rfl, List.Subset.refl _, fun _ hi => .inl hi⟩
    | normReply f =>
      simp only [LTS.ofFn, step] at hs
      split at hs
      · cases hs
        obtain ⟨hk, hq⟩ := rxThread_keeps cfg st.wk.mgr f
        exact h.keep ⟨rfl, hk, hq, List.Subset.refl _, fun _ hi => .inl hi⟩
      · cases hs
    | normReturn =>
      obtain ⟨key, -, hs⟩ := Option.bind_eq_some_iff.mp hs
      split at hs
      · cases hs; exact h
      · cases hs

/-! ## Entries -/

inductive Request
  | job (i : Nat)
  | norm (key : Nat)
  deriving DecidableEq

/-- The request is open and was written into entry `e`. -/
def St.OpenIn (st : St) : Request → BitVec 16 → Prop
  | .job i, e => i ∉ st.wk.closed ∧ ∃ x, st.wk.sent[i]? = some x ∧ e = jobEntry x.1.key
  | .norm key, e => st.waiting = some key ∧ e = normEntry key

/-- No two open requests were written into the same entry. -/
def NoClash (st : St) : Prop := ∀ r r' e, st.OpenIn r e → st.OpenIn r' e → r = r'

/-- No norm call waits whose entry, truncated to 16 bits, is that of an open job. -/
def NormApart (st : St) : Prop :=
  ∀ i x key, i ∉ st.wk.closed → st.wk.sent[i]? = some x → st.waiting = some key →
    x.1.key % WORKER_SEND_NUM_MBUFS ≠ 34464 + key % NORM_SLOT

theorem gradient_entries {i j : Nat} (hi : i ≤ j) (hj : j < i + MAX_AGTR_COUNT)
    (he : jobEntry (i % DPDK_KEY_TOTAL) = jobEntry (j % DPDK_KEY_TOTAL)) : i = j := by
  have hmod : ∀ k, k % DPDK_KEY_TOTAL % WORKER_SEND_NUM_MBUFS = k % 100000 := fun k =>
    Nat.mod_mod_of_dvd k (by decide)
  have hj : j < i + 2500 := hj
  rw [jobEntry, jobEntry, hmod, hmod, ← BitVec.toNat_inj] at he
  rw [BitVec.toNat_ofNat, BitVec.toNat_ofNat] at he
  -- the residues differ by less than 2500 or by more than 97500, never by 65536
  have hwrap : j / 100000 = i / 100000 ∨ j / 100000 = i / 100000 + 1 := by omega
  have hi1 : i % 100000 / 2 ^ 16 ≤ 1 := by omega
  have hj1 : j % 100000 / 2 ^ 16 ≤ 1 := by omega
  omega

theorem jobEntry_eq_normEntry (key key' : Nat) :
    jobEntry key = normEntry key' ↔ key % WORKER_SEND_NUM_MBUFS = 34464 + key' % NORM_SLOT := by
  rw [jobEntry, normEntry, ← BitVec.toNat_inj, BitVec.toNat_ofNat, BitVec.toNat_ofNat]
  simp only [WORKER_SEND_NUM_MBUFS, NORM_SLOT]
  omega

/-- **Send buffers.** In every reachable state no two open requests share an entry if and only if no
waiting norm call has the entry of an open job. -/
theorem entries_iff {cfg : Cfg} {mem : Nat → Nat → Byte} {st : St}
    (h : (buffers cfg mem).Reachable st) : NoClash st ↔ NormApart st := by
  have hf := (fifo_inductive cfg mem).reachable st h
  constructor
  · intro hn i x key hi hx hw he
    have := hn (.job i) (.norm key) (normEntry key)
      ⟨hi, x, hx, ((jobEntry_eq_normEntry _ _).mpr he).symm⟩ ⟨hw, rfl⟩
    cases this
  · rintro hn (i | key) (j | key') e hr hr'
    · obtain ⟨hi, x, hx, rfl⟩ := hr
      obtain ⟨hj, y, hy, he⟩ := hr'
      have hil := (List.getElem?_eq_some_iff.mp hx).1
      have hjl := (List.getElem?_eq_some_iff.mp hy).1
      have hwi := hf.window i ⟨hil, hi⟩
      have hwj := hf.window j ⟨hjl, hj⟩
      rw [hf.sent i x hx, hf.sent j y hy] at he
      rcases Nat.le_total i j with hij | hij
      · rw [gradient_entries hij (Nat.lt_of_lt_of_le hjl hwi) he]
      · rw [gradient_entries hij (Nat.lt_of_lt_of_le hil hwj) he.symm]
    · obtain ⟨hi, x, hx, rfl⟩ := hr
      obtain ⟨hw, he⟩ := hr'
      exact absurd ((jobEntry_eq_normEntry _ _).mp he) (hn i x key' hi hx hw)
    · obtain ⟨hi, x, hx, rfl⟩ := hr'
      obtain ⟨hw, he⟩ := hr
      exact absurd ((jobEntry_eq_normEntry _ _).mp he) (hn j x key hi hx hw)
    · have := hr.1.symm.trans hr'.1
      rw [Option.some.inj this]

/-! ## Runs that get there -/

/-- A gradient with one packet. -/
def onePart : Call := ⟨0, ⟨0, 0⟩, 1, TENSOR_COMM, ['b', 'y', 't', 'e', 'p', 's', '.', 'G']⟩

theorem parts_onePart (cfg : Cfg) : parts cfg onePart = 1 := by
  unfold parts bound; split <;> rfl

/-- `n` jobs were sent, and all are closed. -/
structure Quiet (n : Nat) (w : Wk) : Prop where
  slots : Slots w
  sent : w.sent.length = n
  queue : w.mgr.pushpulljobQueue = []
  ready : ∀ s, w.mgr.slotReady s = true

/-- One more job waits to be sent. -/
structure Queued (n : Nat) (w : Wk) : Prop where
  slots : Slots w
  sent : w.sent.length = n
  queue : ∃ job, w.mgr.pushpulljobQueue = [job] ∧ job.cmd ≤ TENSOR_INIT
  ready : ∀ s, w.mgr.slotReady s = true

/-- It is sent, and it is the only one that is open. -/
structure Single (n : Nat) (w : Wk) : Prop where
  slots : Slots w
  sent : w.sent.length = n + 1
  queue : w.mgr.pushpulljobQueue = []
  isOpen : ∀ i, w.Open i ↔ i = n
  cmd : ∀ x, w.sent[n]? = some x → x.1.cmd ≤ TENSOR_INIT

theorem oneOpen_of_slots {w : Wk} (h : Slots w) : OneOpen w := fun _ _ => h.open_unique

theorem Quiet.queued (cfg : Cfg) {n : Nat} {w : Wk} (h : Quiet n w) :
    ∃ w', WorkerJobs.step cfg w (.push onePart) = some w' ∧ Queued n w' := by
  obtain ⟨-, hq, hu⟩ := dpdkPushPull_spec cfg w.mgr onePart
  rw [h.queue, parts_onePart] at hq
  have hpush : WorkerJobs.step cfg w (.push onePart) = some
      { w with mgr := dpdkPushPull cfg w.mgr onePart, calls := w.calls ++ [onePart] } := by
    rw [WorkerJobs.step, if_neg (by decide)]
  have hcmd : cmdOf onePart ≤ TENSOR_INIT := by decide
  refine ⟨_, hpush, h.slots.push hpush, h.sent, ⟨_, hq, hcmd⟩, fun s => ?_⟩
  rw [hu.slotReady]; exact h.ready s

theorem Queued.single (cfg : Cfg) {n : Nat} {w : Wk} (h : Queued n w) :
    ∃ w', WorkerJobs.step cfg w (.tx .zero) = some w' ∧ Single n w' := by
  obtain ⟨job, hq, hcmd⟩ := h.queue
  have htx : ∃ w', WorkerJobs.step cfg w (.tx .zero) = some w' := by
    simp [WorkerJobs.step, txThread, hq, h.ready]
  obtain ⟨w', htx⟩ := htx
  have hs := h.slots.tx htx
  obtain ⟨job', rest, hq', -, rfl⟩ := step_tx htx
  obtain ⟨rfl, rfl⟩ := List.cons.inj (hq.symm.trans hq')
  have hslot : job.agtrIndex = n % MAX_AGTR_COUNT := by
    have := (h.slots.queued 0 job (by rw [hq]; rfl)).agtrIndex
    rwa [Nat.add_zero, h.sent] at this
  have hopen : n ∉ w.closed := fun hc => Nat.lt_irrefl n (h.sent ▸ h.slots.closed_lt n hc)
  refine ⟨_, htx, hs, by simpa using h.sent, rfl, fun i => ⟨fun hi => ?_, ?_⟩, fun x hx => ?_⟩
  · -- its slot is in use, and only the slot of job `n` is
    have hbusy : Function.update w.mgr.slotReady job.agtrIndex false (i % MAX_AGTR_COUNT) = false :=
      (hs.isOpen i hi.1 hi.2).1
    have hsame : i % MAX_AGTR_COUNT = job.agtrIndex := by
      by_contra hne
      rw [Function.update_of_ne hne, h.ready] at hbusy
      cases hbusy
    exact hs.open_unique hi ⟨by simp [h.sent], hopen⟩ (hsame.trans hslot)
  · intro hi
    rw [hi]
    exact ⟨by simp [h.sent], hopen⟩
  · rcases getElem?_snoc hx with hx | ⟨-, rfl⟩
    · exact absurd (List.getElem?_eq_some_iff.mp hx).1 (by rw [h.sent]; exact Nat.lt_irrefl n)
    · exact hcmd

/-- The open job is answered. -/
theorem Single.quiet (cfg : Cfg) {n : Nat} {w : Wk} (h : Single n w) :
    ∃ f w', WorkerJobs.step cfg w (.reply n f) = some w' ∧ Quiet (n + 1) w' := by
  have ho : w.Open n := (h.isOpen n).mpr rfl
  obtain ⟨x, hx⟩ : ∃ x, w.sent[n]? = some x := ⟨_, List.getElem?_eq_getElem ho.1⟩
  have hp := h.slots.packet n x hx
  let f : Frame := { x.2 with etherType := 0x0d00#16 }
  have hans : AnswerTo x.2 f := ⟨rfl, rfl, rfl, rfl⟩
  have hacc : RxAccepts w.mgr f := by
    refine ⟨rfl, hp.cmd ▸ h.cmd x hx, hp.key ▸ Nat.mod_lt _ (by decide), ?_⟩
    rw [hp.roundNum, hp.agtr, agtr_toNat, (h.slots.isOpen n ho.1 ho.2).2.2.1]
  obtain ⟨mem, hm⟩ := h.slots.receive_eq cfg hx hans hacc
  refine ⟨f, w.receive cfg n f, ?_, ?_⟩
  · simp only [WorkerJobs.step, hx, Option.bind_some, if_pos hans]
  · rw [hm]
    refine ⟨(h.slots.withMem mem).close ho, h.sent, h.queue, fun s => ?_⟩
    by_cases hs : s = n % MAX_AGTR_COUNT
    · simp [Wk.close, freeSlot, hs]
    · -- no other slot is in use
      simp only [Wk.close, freeSlot, Function.update_of_ne hs]
      by_contra hb
      obtain ⟨i, hi, rfl, hic⟩ := h.slots.busy s (by simpa using hb)
      exact hs (by rw [(h.isOpen i).mp ⟨hi, hic⟩])

theorem step_job {cfg : Cfg} {w w' : Wk} {a : Act} {key : Option Nat}
    (h : WorkerJobs.step cfg w a = some w') : step cfg ⟨w, key⟩ (.job a) = some ⟨w', key⟩ := by
  rw [step, h]; rfl

/-- Any number of jobs can be sent and closed one by one. -/
theorem quiet_reachable (cfg : Cfg) (mem : Nat → Nat → Byte) (n : Nat) :
    ∃ w, (buffers cfg mem).Reachable ⟨w, none⟩ ∧ Quiet n w := by
  induction n with
  | zero => exact ⟨Wk.init mem, .init rfl, slots_init mem, rfl, rfl, fun _ => rfl⟩
  | succ n ih =>
    obtain ⟨w, hr, hw⟩ := ih
    obtain ⟨w1, h1, hs1⟩ := hw.queued cfg
    obtain ⟨w2, h2, hs2⟩ := hs1.single cfg
    obtain ⟨f, w3, h3, hs3⟩ := hs2.quiet cfg
    have hr1 := hr.step ⟨step_job h1, oneOpen_of_slots hs1.slots⟩
    have hr2 := hr1.step ⟨step_job h2, oneOpen_of_slots hs2.slots⟩
    exact ⟨w3, hr2.step ⟨step_job h3, oneOpen_of_slots hs3.slots⟩, hs3⟩

/-- Job `n` is the only open one, and a norm call with any key waits. -/
theorem single_reachable (cfg : Cfg) (mem : Nat → Nat → Byte) (n key : Nat) :
    ∃ st, (buffers cfg mem).Reachable st ∧ st.waiting = some key ∧ (∀ i, st.wk.Open i ↔ i = n) ∧
      ∀ i x, st.wk.sent[i]? = some x → x.1.key = i % DPDK_KEY_TOTAL := by
  obtain ⟨w, hr, hw⟩ := quiet_reachable cfg mem n
  obtain ⟨w1, h1, hs1⟩ := hw.queued cfg
  obtain ⟨w2, h2, hs2⟩ := hs1.single cfg
  have hr1 := hr.step ⟨step_job h1, oneOpen_of_slots hs1.slots⟩
  have hr2 := hr1.step ⟨step_job h2, oneOpen_of_slots hs2.slots⟩
  have hone : OneOpen w2 := oneOpen_of_slots hs2.slots
  refine ⟨_, hr2.step (l := .normCall key) ⟨rfl, fun i j hi hj => hone i j hi hj⟩, rfl, hs2.isOpen,
    fun i x hx => ?_⟩
  exact (hs2.slots.packet i x hx).job.key

/-- Job 0 is open and a norm call with key 5 waits: entries 0 and 34469. -/
theorem entries_small :
    ∃ st, (buffers ⟨inca true, 0, 1⟩ fun _ _ => 0).Reachable st ∧ st.wk.Open 0 ∧ st.waiting = some 5 ∧
      NoClash st := by
  obtain ⟨st, hr, hw, hopen, hkey⟩ := single_reachable ⟨inca true, 0, 1⟩ (fun _ _ => 0) 0 5
  refine ⟨st, hr, (hopen 0).mpr rfl, hw, (entries_iff hr).mpr fun i x key hi hx hk => ?_⟩
  obtain rfl := (hopen i).mp ⟨(List.getElem?_eq_some_iff.mp hx).1, hi⟩
  rw [hkey 0 x hx, Nat.zero_mod, Nat.zero_mod]
  omega

/-- **Counterexample.** Job 34464 is open and a norm call with key 0 waits: `100000` is 34464 in
16 bits, and both packets are in entry 34464. -/
theorem entries_counterexample :
    ∃ st, (buffers ⟨inca true, 0, 1⟩ fun _ _ => 0).Reachable st ∧
      st.OpenIn (.job 34464) 34464#16 ∧ st.OpenIn (.norm 0) 34464#16 := by
  obtain ⟨st, hr, hw, hopen, hkey⟩ := single_reachable ⟨inca true, 0, 1⟩ (fun _ _ => 0) 34464 0
  obtain ⟨hlt, hc⟩ := (hopen 34464).mpr rfl
  have hx := List.getElem?_eq_getElem hlt
  refine ⟨st, hr, ⟨hc, _, hx, ?_⟩, hw, rfl⟩
  rw [hkey 34464 _ hx]
  rfl

end Inca.L3.SendBuffers
