import Inca.L3Protocol.Aggregate

/-!
# The order of PUSH tasks on two workers

The PUSH stage in front of the DPDK manager: finished stages add partitions
to the queue, `RunPushLoopOnce` takes the first *ready* one and hands it to
`DPDKPushPull`. Which partitions are ready (`ready_event`, the PUSH ready
table) is decided by the worker's own devices, so two workers release the
same partitions in different orders.

The bytes of partition `key` are buffer `key` of the worker's memory, so a
packet's `data` pointer names the partition and the offset within it.

* `same_order_same_chunk`: as long as the workers release their partitions
  in the same order, packets of the same slot and round carry the same bytes
  of the same partition.
* `push_order_counterexample`: two partitions that become ready in different
  orders meet in slot 0 of round 0.
-/
namespace Inca.L3.PushOrder
open Inca.L1.DpdkPkt Inca.L2.DpdkManager Inca.L3.WorkerJobs Inca.L3.Aggregate

/-! ## The PUSH stage -/

/-- mirrors byteps/byteps/common/common.h:243-305 (`TensorTableEntry`), one partition -/
structure Task where
  key : Nat
  len : Nat
  tensorName : List Char
  dpdkKey : Nat

/-- What two workers agree on when they mean the same partition. -/
def Task.part (t : Task) : Nat × Nat × List Char := (t.key, t.len, t.tensorName)

/-- The stage of one worker; `released` is the log of the gradient partitions handed over. -/
structure Stage where
  sq : List Task
  released : List Task
  wk : Wk

def Stage.init (mem : Nat → Nat → Byte) : Stage := ⟨[], [], Wk.init mem⟩

/-- mirrors byteps/byteps/common/scheduled_queue.cc:133-193 for a queue without scheduling: the
first task that is ready. -/
def getTask (ready : Task → Bool) : List Task → Option (Task × List Task)
  | [] => none
  | t :: sq =>
    if ready t then some (t, sq) else (getTask ready sq).map fun (u, rest) => (u, t :: rest)

/-- The arguments of `DPDKPushPull` (core_loops.cc:984-1001). -/
def callOf (t : Task) : Call := ⟨t.dpdkKey, ⟨t.key, 0⟩, t.len, TENSOR_COMM, t.tensorName⟩

/-- mirrors byteps/byteps/common/core_loops.cc:969-1016; other tensors go through ps-lite -/
def runPushLoopOnce (cfg : Cfg) (ready : Task → Bool) (s : Stage) : Option Stage :=
  match getTask ready s.sq with
  | none => some s
  | some (t, rest) =>
    if t.tensorName.getD 7 '\x00' = 'G' then
      (WorkerJobs.step cfg s.wk (.push (callOf t))).map fun w =>
        { sq := rest, released := s.released ++ [t], wk := w }
    else some { s with sq := rest }

inductive Act
  | addTask (t : Task)
  | pushLoop (ready : Task → Bool)
  | tx (payload : P4mlhdr)
  | reply (i : Nat) (f : Frame)
  | host (mem : Nat → Nat → Byte)

def stageStep (cfg : Cfg) (s : Stage) : Act → Option Stage
  | .addTask t => some { s with sq := s.sq ++ [t] }
  | .pushLoop ready => runPushLoopOnce cfg ready s
  | .tx payload => (WorkerJobs.step cfg s.wk (.tx payload)).map fun w => { s with wk := w }
  | .reply i f => (WorkerJobs.step cfg s.wk (.reply i f)).map fun w => { s with wk := w }
  | .host mem => (WorkerJobs.step cfg s.wk (.host mem)).map fun w => { s with wk := w }

/-- Two workers, each at its own pace. -/
def step (build : Build) (S : Fin 2 → Stage) (l : Fin 2 × Act) : Option (Fin 2 → Stage) :=
  (stageStep (cfgOf build l.1) (S l.1) l.2).map (Function.update S l.1)

def pair (build : Build) (mem : Fin 2 → Nat → Nat → Byte) : LTS (Fin 2 → Stage) (Fin 2 × Act) :=
  .ofFn (· = fun w => Stage.init (mem w)) (step build)

/-! ## What one worker keeps -/

structure Inv (cfg : Cfg) (s : Stage) : Prop where
  slots : Slots s.wk
  jobs : Jobs cfg s.wk
  calls : s.wk.calls = s.released.map callOf

theorem inv_init (cfg : Cfg) (mem : Nat → Nat → Byte) : Inv cfg (Stage.init mem) :=
  ⟨slots_init mem, rfl, rfl⟩

theorem Inv.dpdk {cfg : Cfg} {s : Stage} (h : Inv cfg s) (hR : RoundsOk s.wk) {a : WorkerJobs.Act} {w : Wk}
    (hs : WorkerJobs.step cfg s.wk a = some w) (hc : w.calls = s.wk.calls) :
    Inv cfg { s with wk := w } :=
  ⟨slots_step h.slots hR hs, jobs_step h.jobs h.slots hR hs, hc.trans h.calls⟩

theorem inv_step {cfg : Cfg} {s s' : Stage} {a : Act} (h : Inv cfg s) (hR : RoundsOk s.wk)
    (hs : stageStep cfg s a = some s') : Inv cfg s' := by
  cases a with
  | addTask t => cases hs; exact ⟨h.slots, h.jobs, h.calls⟩
  | pushLoop ready =>
    simp only [stageStep, runPushLoopOnce] at hs
    split at hs
    · cases hs; exact h
    · split at hs
      · simp only [Option.map_eq_some_iff] at hs
        obtain ⟨w, hw, rfl⟩ := hs
        refine ⟨slots_step h.slots hR hw, jobs_step h.jobs h.slots hR hw, ?_⟩
        simp only [WorkerJobs.step, callOf] at hw
        cases hw
        simp [h.calls, callOf]
      · cases hs; exact ⟨h.slots, h.jobs, h.calls⟩
  | tx payload =>
    simp only [stageStep, Option.map_eq_some_iff] at hs
    obtain ⟨w, hw, rfl⟩ := hs
    refine h.dpdk hR hw ?_
    obtain ⟨job, rest, -, -, rfl⟩ := step_tx hw
    rfl
  | reply i f =>
    simp only [stageStep, Option.map_eq_some_iff] at hs
    obtain ⟨w, hw, rfl⟩ := hs
    exact h.dpdk hR hw (step_sameJobs h.slots hR hw (by simp) (by simp)).calls
  | host mem =>
    simp only [stageStep, Option.map_eq_some_iff] at hs
    obtain ⟨w, hw, rfl⟩ := hs
    exact h.dpdk hR hw (step_sameJobs h.slots hR hw (by simp) (by simp)).calls

/-! ## Jobs of the same partitions -/

def partCall (x : Nat × Nat × List Char) : Call := ⟨0, ⟨x.1, 0⟩, x.2.1, TENSOR_COMM, x.2.2⟩

/-- The jobs depend on the partitions alone, not on the worker or on its own tensor keys. -/
theorem jobsFrom_part (build : Build) (w : Fin 2) (k : Nat) (ts : List Task) :
    jobsFrom (cfgOf build w) k (ts.map callOf) = jobsFrom ⟨build, 0, 0⟩ k ((ts.map Task.part).map partCall) := by
  induction ts generalizing k with
  | nil => rfl
  | cons t ts ih =>
    simp only [List.map_cons, jobsFrom, ih]
    rfl

/-- The jobs of a prefix of the calls are a prefix of the jobs. -/
theorem jobsFrom_agree {cfg : Cfg} {cs ds : List Call} (h : cs <+: ds) {i : Nat} {a b : Job}
    (ha : (jobsFrom cfg 0 cs)[i]? = some a) (hb : (jobsFrom cfg 0 ds)[i]? = some b) : a = b := by
  obtain ⟨es, rfl⟩ := h
  rw [jobsFrom_append, List.getElem?_append_left (List.getElem?_eq_some_iff.mp ha).1, ha] at hb
  exact Option.some.inj hb

/-! ## Main result -/

/-- As far as both workers have got, they released the same partitions in the same order. -/
def SameOrder (S : Fin 2 → Stage) : Prop :=
  (S 0).released.map Task.part <+: (S 1).released.map Task.part ∨
  (S 1).released.map Task.part <+: (S 0).released.map Task.part

/-- Steps with fewer than `2 ^ 32` rounds per slot. -/
def Fair (_ : Fin 2 → Stage) (_ : Fin 2 × Act) (S' : Fin 2 → Stage) : Prop := ∀ w, RoundsOk (S' w).wk

/-- Such steps that keep the order. -/
def Ordered (S : Fin 2 → Stage) (l : Fin 2 × Act) (S' : Fin 2 → Stage) : Prop := SameOrder S' ∧ Fair S l S'

/-- Packets of both workers for the same slot and round carry the same bytes of the same
partition. -/
def SameChunks (S : Fin 2 → Stage) : Prop :=
  ∀ x ∈ (S 0).wk.sent, ∀ y ∈ (S 1).wk.sent,
    x.2.msg.p4mlHdrs.agtr = y.2.msg.p4mlHdrs.agtr → x.2.msg.p4mlHdrs.roundNum = y.2.msg.p4mlHdrs.roundNum →
    x.1.data.buf = y.1.data.buf ∧ x.1.data.off = y.1.data.off

structure PairInv (build : Build) (S : Fin 2 → Stage) : Prop where
  stages : ∀ w, Inv (cfgOf build w) (S w)
  rounds : ∀ w, RoundsOk (S w).wk
  order : SameOrder S

theorem pairInv_inductive (build : Build) (mem : Fin 2 → Nat → Nat → Byte) :
    ((pair build mem).restrict Ordered).Inductive (PairInv build) where
  init := by
    intro S hS
    rw [hS]
    exact ⟨fun w => inv_init _ _, fun w i hi => by simp [Stage.init, Wk.init] at hi, .inl List.prefix_rfl⟩
  step := by
    intro S l S' h hs
    refine ⟨fun w => ?_, hs.2.2, hs.2.1⟩
    obtain ⟨s, hst, hS'⟩ := Option.map_eq_some_iff.mp hs.1
    subst hS'
    by_cases hw : w = l.1
    · subst hw
      rw [Function.update_self]
      exact inv_step (h.stages l.1) (h.rounds l.1) hst
    · rw [Function.update_of_ne hw]
      exact h.stages w

/-- Slot and round name the job. -/
theorem job_of_slot_round {x y : Wk} (hx : Slots x) (hy : Slots y) (hRx : RoundsOk x) (hRy : RoundsOk y)
    {i j : Nat} {p q : Job × Frame} (hp : x.sent[i]? = some p) (hq : y.sent[j]? = some q)
    (ha : p.2.msg.p4mlHdrs.agtr = q.2.msg.p4mlHdrs.agtr)
    (hr : p.2.msg.p4mlHdrs.roundNum = q.2.msg.p4mlHdrs.roundNum) : i = j := by
  have hi := hRx i (List.getElem?_eq_some_iff.mp hp).1
  have hj := hRy j (List.getElem?_eq_some_iff.mp hq).1
  rw [(hx.packet i p hp).agtr, (hy.packet j q hq).agtr] at ha
  rw [(hx.packet i p hp).roundNum, (hy.packet j q hq).roundNum] at hr
  have hs : i % MAX_AGTR_COUNT = j % MAX_AGTR_COUNT := by
    rw [← agtr_toNat i, ← agtr_toNat j, ha]
  have hd := ofNat32_inj (by omega) (by omega) hr
  rw [← Nat.mod_add_div i MAX_AGTR_COUNT, ← Nat.mod_add_div j MAX_AGTR_COUNT, hs, hd]

/-- **Order.** In every run in which the two workers release their gradient partitions in the same
order, with fewer than `2 ^ 32` rounds per slot. -/
theorem same_order_same_chunk (build : Build) (mem : Fin 2 → Nat → Nat → Byte) (S : Fin 2 → Stage)
    (hS : ((pair build mem).restrict Ordered).Reachable S) : SameChunks S := by
  have h := (pairInv_inductive build mem).reachable S hS
  intro x hx y hy ha hr
  obtain ⟨i, hi⟩ := List.mem_iff_getElem?.mp hx
  obtain ⟨j, hj⟩ := List.mem_iff_getElem?.mp hy
  obtain rfl := job_of_slot_round (h.stages 0).slots (h.stages 1).slots (h.rounds 0) (h.rounds 1) hi hj ha hr
  have hjx := (h.stages 0).jobs.sent hi
  have hjy := (h.stages 1).jobs.sent hj
  rw [(h.stages 0).calls, jobsFrom_part] at hjx
  rw [(h.stages 1).calls, jobsFrom_part] at hjy
  have he : x.1 = y.1 := by
    rcases h.order with ho | ho
    · exact jobsFrom_agree (ho.map partCall) hjx hjy
    · exact (jobsFrom_agree (ho.map partCall) hjy hjx).symm
  rw [he]
  exact ⟨rfl, rfl⟩

/-! ### Two runs -/

instance (S : Fin 2 → Stage) (l : Fin 2 × Act) (S' : Fin 2 → Stage) : Decidable (Fair S l S') :=
  inferInstanceAs (Decidable (∀ w, RoundsOk (S' w).wk))

instance (S : Fin 2 → Stage) (l : Fin 2 × Act) (S' : Fin 2 → Stage) : Decidable (Ordered S l S') :=
  inferInstanceAs (Decidable ((_ <+: _ ∨ _ <+: _) ∧ Fair S l S'))

/-- A gradient partition of one packet. -/
def onePacket (key : Nat) : Task := ⟨key, 4, ['b', 'y', 't', 'e', 'p', 's', '.', 'G'], key⟩

def noMem : Fin 2 → Nat → Nat → Byte := fun _ _ _ => 0

/-- Both workers add partitions 1 and 2; worker 1 finds the partitions of `ready` ready first. -/
def twoPartitions (ready : Task → Bool) : List (Fin 2 × Act) :=
  [(0, .addTask (onePacket 1)), (0, .addTask (onePacket 2)), (1, .addTask (onePacket 1)),
    (1, .addTask (onePacket 2)), (0, .pushLoop fun _ => true), (0, .pushLoop fun _ => true),
    (1, .pushLoop ready), (1, .pushLoop fun _ => true), (0, .tx .zero), (1, .tx .zero)]

theorem same_order_two_partitions : ∃ S, ((pair (inca true) noMem).restrict Ordered).Reachable S ∧
    (S 0).wk.sent.length = 1 ∧ (S 1).wk.sent.length = 1 ∧ SameChunks S := by
  have hex : ∃ S, LTS.execute (LTS.guarded (step (inca true)) Ordered) (fun w => Stage.init (noMem w))
      (twoPartitions fun _ => true) = some S ∧ (S 0).wk.sent.length = 1 ∧ (S 1).wk.sent.length = 1 :=
    ⟨_, rfl, rfl, rfl⟩
  obtain ⟨S, hS, h0, h1⟩ := hex
  have hr := LTS.Reachable.of_execute (.init (M := (pair (inca true) noMem).restrict Ordered) rfl) hS
  exact ⟨S, hr, h0, h1, same_order_same_chunk (inca true) noMem S hr⟩

/-- Worker 1 finds partition 2 ready first: slot 0 of round 0 gets partition 1 from worker 0 and
partition 2 from worker 1. -/
theorem push_order_counterexample : ∃ S, ((pair (inca true) noMem).restrict Fair).Reachable S ∧
    ((S 0).released.map Task.part).Perm ((S 1).released.map Task.part) ∧
    ∃ x ∈ (S 0).wk.sent, ∃ y ∈ (S 1).wk.sent,
      x.2.msg.p4mlHdrs.agtr = y.2.msg.p4mlHdrs.agtr ∧
      x.2.msg.p4mlHdrs.roundNum = y.2.msg.p4mlHdrs.roundNum ∧ x.1.data.buf = 1 ∧ y.1.data.buf = 2 := by
  have hex : ∃ S x y, LTS.execute (LTS.guarded (step (inca true)) Fair) (fun w => Stage.init (noMem w))
      (twoPartitions fun t => t.key = 2) = some S ∧ (S 0).released.map Task.part =
        [(onePacket 1).part, (onePacket 2).part] ∧ (S 1).released.map Task.part =
        [(onePacket 2).part, (onePacket 1).part] ∧ (S 0).wk.sent = [x] ∧ (S 1).wk.sent = [y] ∧
      x.2.msg.p4mlHdrs.agtr = y.2.msg.p4mlHdrs.agtr ∧
      x.2.msg.p4mlHdrs.roundNum = y.2.msg.p4mlHdrs.roundNum ∧ x.1.data.buf = 1 ∧ y.1.data.buf = 2 :=
    ⟨_, _, _, rfl, rfl, rfl, rfl, rfl, rfl, rfl, rfl, rfl⟩
  obtain ⟨S, x, y, hS, h0, h1, hx, hy, hxy⟩ := hex
  refine ⟨S, LTS.Reachable.of_execute (.init rfl) hS, ?_, x, ?_, y, ?_, hxy⟩
  · rw [h0, h1]; exact List.Perm.swap _ _ _
  · rw [hx]; exact List.mem_singleton_self _
  · rw [hy]; exact List.mem_singleton_self _

end Inca.L3.PushOrder
