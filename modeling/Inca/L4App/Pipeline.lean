import Mathlib.Data.Finset.Card
import Mathlib.Data.List.Perm.Basic
import Inca.L4App.KeyDraw

/-!
# Partitions on their way through the queues (`core_loops.cc`, `scheduled_queue.cc`)

`EnqueueTensor` puts the partitions of a tensor, one after the other, into
the first queue of its `queue_list`. The loop of a stage takes a task from
its queue (`getTask`) and calls `FinishOrProceed` when it is done with it:
the task goes to the next queue of its own copy of the list, or, after the
last one, counts itself as finished; who counts the last partition runs the
tensor's callback.

Any number of tensors share the queues. Which task of a queue is ready
(events, ready tables) is up to the environment, and so is the order
`std::sort` gives to tasks that compare equal: labels carry both. A call that
ends at a failed check is no step. The counter is an `atomic_int` and the
number of partitions that it is compared with an `unsigned int`.

* `stages_step`, `counts_step`: what one step keeps.
* `pipeline_once`: in every run each partition has been placed in the queues
  of a beginning of its list, in order and once each, and in all of them
  when it is finished; with up to `2 ^ 32` partitions the callback has run
  once if all are finished and not at all otherwise, and it runs in the step
  that finishes the last one.
* `pipeline_counterexample`: with one partition more it runs at the first one.
-/
namespace Inca.L4.Pipeline
open Inca.L4.KeyDraw

/-- mirrors byteps/byteps/common/common.h:102-118 -/
inductive QueueType
  | coordinateReduce
  | reduce
  | contextPush
  | contextPull
  | copyD2H
  | pcieReduce
  | coordinatePush
  | compress
  | push
  | pull
  | decompress
  | copyH2D
  | coordinateBroadcast
  | broadcast
  deriving DecidableEq

/-- The fields of a partition's `TensorTableEntry` that the queues read; `id` stands for the
pointer: the `EnqueueTensor` call and the number of the partition.
mirrors byteps/byteps/common/common.h:243-305 -/
structure Task where
  id : Nat × Nat
  tensorName : String
  key : Nat
  priority : Int
  len : BitVec 32
  deriving DecidableEq

/-- mirrors byteps/byteps/common/scheduled_queue.h:42-48 -/
structure Queue where
  sq : List Task
  credits : BitVec 64

/-- The arguments of one `EnqueueTensor` call. -/
structure Tensor where
  name : String
  size : Nat
  declaredKey : Nat
  priority : Int
  queueList : List QueueType

/-- `bound` is the partition bound, `credits` the initial credits of the REDUCE queue, if it is
scheduled.
mirrors byteps/byteps/common/scheduled_queue.cc:26-45 -/
structure Config where
  bound : Nat
  credits : Option (BitVec 64)
  tensors : Nat → Tensor

/-- What an `EnqueueTensor` call and its partitions share: how many are enqueued, whether the
call was skipped, `*counter_ptr`, and how often the callback ran. -/
structure Shared where
  next : Nat
  skipped : Bool
  counter : BitVec 32
  callbacks : Nat

/-- `queueList` is the `queue_list` of each partition, `held` are the tasks that a loop has taken
and not yet finished; `placed` is the history of the queues each partition was put in. -/
structure State where
  queues : QueueType → Queue
  shared : Nat → Shared
  queueList : Nat × Nat → List QueueType
  held : List Task
  placed : Nat × Nat → List QueueType

def isScheduled (cfg : Config) (q : QueueType) : Bool := q = .reduce && cfg.credits.isSome

/-- The number of partitions. -/
def partnum (cfg : Config) (t : Nat) : Nat := (partitionTensor cfg.bound (cfg.tensors t).size).length

/-- mirrors byteps/byteps/common/operations.cc:271 -/
def totalPartnum (cfg : Config) (t : Nat) : BitVec 32 := BitVec.ofNat 32 (partnum cfg t)

/-- Partition `i` of call `t`; its key is `key_list[i]`.
mirrors byteps/byteps/common/operations.cc:163-206,297-301,376-382 -/
def taskOf (cfg : Config) (t i : Nat) : Task where
  id := (t, i)
  tensorName := (cfg.tensors t).name ++ "_" ++ toString i
  key := (cfg.tensors t).declaredKey * 2 ^ 16 + i
  priority := (cfg.tensors t).priority
  len := BitVec.ofNat 32 ((partitionTensor cfg.bound (cfg.tensors t).size).getD i ⟨0, 0⟩).len

def State.init (cfg : Config) : State where
  queues := fun _ => ⟨[], cfg.credits.getD 34359738368⟩
  shared := fun _ => ⟨0, false, 0, 0⟩
  queueList := fun id => (cfg.tensors id.1).queueList
  held := []
  placed := fun _ => []

/-! ## Queue operations -/

/-- mirrors byteps/byteps/common/scheduled_queue.cc:99-105 (the comparison of `std::sort`) -/
def before (a b : Task) : Bool := if a.priority = b.priority then a.key < b.key else b.priority < a.priority

/-- `sq'` is what `addTask` may make of `sq`.
mirrors byteps/byteps/common/scheduled_queue.cc:92-113 -/
def AddTask (scheduled : Bool) (sq : List Task) (entry : Task) (sq' : List Task) : Prop :=
  (if scheduled then sq'.Perm (sq ++ [entry]) ∧ sq'.Pairwise (fun a b => before b a = false)
    else sq' = sq ++ [entry]) ∧ entry.tensorName ≠ ""

instance (scheduled : Bool) (sq : List Task) (entry : Task) (sq' : List Task) :
    Decidable (AddTask scheduled sq entry sq') :=
  inferInstanceAs (Decidable (ite _ _ _ ∧ _))

/-- mirrors byteps/byteps/common/scheduled_queue.cc:145-149 -/
def withinCredits (scheduled : Bool) (q : Queue) (task : Task) : Bool :=
  !scheduled || !decide (q.credits < task.len.setWidth 64)

/-- mirrors byteps/byteps/common/scheduled_queue.cc:181-183 -/
def Queue.charge (scheduled : Bool) (q : Queue) (task : Task) : BitVec 64 :=
  if scheduled then q.credits - task.len.setWidth 64 else q.credits

/-- mirrors byteps/byteps/common/scheduled_queue.cc:135-193: the first task that is ready and,
in a scheduled queue, within the credits -/
def getTask (scheduled : Bool) (ready : Task → Bool) (q : Queue) : Option (Task × Queue) :=
  let p := fun task => ready task && withinCredits scheduled q task
  ((q.sq.find? p).filter (·.tensorName ≠ "")).map fun task => (task, ⟨q.sq.eraseP p, q.charge scheduled task⟩)

/-- mirrors byteps/byteps/common/scheduled_queue.cc:195-218: the first task with the key. An event that
has not fired of a task up to it fails a check. -/
def getTaskKey (scheduled : Bool) (ready : Task → Bool) (key : Nat) (q : Queue) : Option (Task × Queue) :=
  let p := fun task => !ready task || decide (task.key = key)
  if scheduled then none
  else ((q.sq.find? p).filter fun task => ready task && decide (task.tensorName ≠ "")).map fun task =>
    (task, { q with sq := q.sq.eraseP p })

/-- `_credits += size`; `size` is an `int`.
mirrors byteps/byteps/common/scheduled_queue.cc:227-233 -/
def Queue.reportFinish (scheduled : Bool) (q : Queue) (size : BitVec 32) : Queue :=
  if scheduled then { q with credits := q.credits + size.signExtend 64 } else q

/-! ## Steps -/

def State.setQueue (s : State) (q : QueueType) (queue : Queue) : State :=
  { s with queues := Function.update s.queues q queue }

def State.setShared (s : State) (t : Nat) (sh : Shared) : State :=
  { s with shared := Function.update s.shared t sh }

/-- Put a task into a queue; `sq'` is the order of the queue after it. -/
def addTask (cfg : Config) (s : State) (q : QueueType) (task : Task) (sq' : List Task) : Option State :=
  if AddTask (isScheduled cfg q) (s.queues q).sq task sq' then
    some { s.setQueue q { s.queues q with sq := sq' } with
      placed := Function.update s.placed task.id (s.placed task.id ++ [q]) }
  else none

/-- One round of the loop of `EnqueueTensor`, or its way out without queues.
mirrors byteps/byteps/common/operations.cc:276-282,297-332 -/
def enqueueTensor (cfg : Config) (s : State) (t : Nat) (sq' : List Task) : Option State :=
  let sh := s.shared t
  match (cfg.tensors t).queueList with
  | [] =>
    if sh.skipped ∨ (cfg.tensors t).name = "" then none
    else some (s.setShared t { sh with skipped := true, callbacks := sh.callbacks + 1 })
  | q :: _ =>
    if sh.next < partnum cfg t then
      addTask cfg (s.setShared t { sh with next := sh.next + 1 }) q (taskOf cfg t sh.next) sq'
    else none

/-- mirrors byteps/byteps/common/core_loops.cc:49-212; `none` for a failed `BPS_CHECK_GE` -/
def finishOrProceed (cfg : Config) (s : State) (task : Task) (sq' : List Task) : Option State :=
  match s.queueList task.id with
  | [] => none
  | thisOp :: rest =>
    let s := s.setQueue thisOp ((s.queues thisOp).reportFinish (isScheduled cfg thisOp) task.len)
    let s := { s with queueList := Function.update s.queueList task.id rest }
    match rest with
    | q :: _ => addTask cfg s q task sq'
    | [] =>
      let sh := s.shared task.id.1
      -- `v = counter_ptr->fetch_add(1)`; the callback runs if `v == total_partnum - 1`
      some (s.setShared task.id.1 { sh with
        counter := sh.counter + 1#32
        callbacks := if sh.counter = totalPartnum cfg task.id.1 - 1#32 then sh.callbacks + 1 else sh.callbacks })

inductive Label
  | enqueue (t : Nat) (sq' : List Task)
  | get (q : QueueType) (ready : Task → Bool)
  | getKey (q : QueueType) (ready : Task → Bool) (key : Nat)
  | finish (task : Task) (sq' : List Task)

/-- A loop takes a task out of its queue. -/
def take (s : State) (q : QueueType) (r : Option (Task × Queue)) : Option State :=
  r.map fun (task, queue) => { s.setQueue q queue with held := task :: s.held }

def step (cfg : Config) (s : State) : Label → Option State
  | .enqueue t sq' => enqueueTensor cfg s t sq'
  | .get q ready => take s q (getTask (isScheduled cfg q) ready (s.queues q))
  | .getKey q ready key => take s q (getTaskKey (isScheduled cfg q) ready key (s.queues q))
  | .finish task sq' =>
    if task ∈ s.held then finishOrProceed cfg { s with held := s.held.erase task } task sq' else none

def pipeline (cfg : Config) : LTS State Label := LTS.ofFn (· = State.init cfg) (step cfg)

/-! ## What a step does -/

/-- Queue `q` holds `sq'`, the other queues what they held. -/
def QueueSet (s s' : State) (q : QueueType) (P : List Task → Prop) : Prop :=
  P (s'.queues q).sq ∧ ∀ q', q' ≠ q → (s'.queues q').sq = (s.queues q').sq

section QueueSet
variable {s s' : State} {q : QueueType} {task : Task}
  (hsq : QueueSet s s' q fun sq => sq.Perm ((s.queues q).sq ++ [task]))
include hsq

/-- What a queue holds after a task was added to one of them. -/
theorem QueueSet.mem_add {p : QueueType} {x : Task} (hx : x ∈ (s'.queues p).sq) :
    x ∈ (s.queues p).sq ∨ x = task ∧ p = q := by
  by_cases hp : p = q
  · subst hp
    rcases List.mem_append.mp (hsq.1.mem_iff.mp hx) with hx | hx
    · exact .inl hx
    · exact .inr ⟨List.mem_singleton.mp hx, rfl⟩
  · exact .inl (by rwa [hsq.2 p hp] at hx)

theorem QueueSet.nodup_add (hnd : ∀ p, (s.queues p).sq.Nodup) (hnew : task ∉ (s.queues q).sq)
    (p : QueueType) : (s'.queues p).sq.Nodup := by
  by_cases hp : p = q
  · subst hp
    rw [hsq.1.nodup_iff, List.nodup_append]
    refine ⟨hnd p, by simp, ?_⟩
    intro x hx y hy
    obtain rfl := List.mem_singleton.mp hy
    rintro rfl
    exact hnew hx
  · rw [hsq.2 p hp]; exact hnd p

end QueueSet

/-- The moves of the pipeline: a call without queues, a partition enqueued, a task taken by a
loop, a task passed on, a task finished. -/
inductive Move (cfg : Config) (s s' : State) : Prop
  | skip (t : Nat) (hlist : (cfg.tensors t).queueList = [])
      (hsq : ∀ q, (s'.queues q).sq = (s.queues q).sq)
      (hsh : s'.shared = Function.update s.shared t
        { s.shared t with skipped := true, callbacks := (s.shared t).callbacks + 1 })
      (hql : s'.queueList = s.queueList) (hheld : s'.held = s.held) (hpl : s'.placed = s.placed)
  | enqueue (t : Nat) (q : QueueType) (hlist : (cfg.tensors t).queueList.head? = some q)
      (hnext : (s.shared t).next < partnum cfg t)
      (hsq : QueueSet s s' q fun sq => sq.Perm ((s.queues q).sq ++ [taskOf cfg t (s.shared t).next]))
      (hsh : s'.shared = Function.update s.shared t { s.shared t with next := (s.shared t).next + 1 })
      (hql : s'.queueList = s.queueList) (hheld : s'.held = s.held)
      (hpl : s'.placed = Function.update s.placed (t, (s.shared t).next)
        (s.placed (t, (s.shared t).next) ++ [q]))
  | take (q : QueueType) (task : Task)
      (hsq : QueueSet s s' q fun sq => (s.queues q).sq.Perm (task :: sq))
      (hsh : s'.shared = s.shared) (hql : s'.queueList = s.queueList)
      (hheld : s'.held = task :: s.held) (hpl : s'.placed = s.placed)
  | proceed (task : Task) (thisOp q : QueueType) (rest : List QueueType) (hmem : task ∈ s.held)
      (hlist : s.queueList task.id = thisOp :: q :: rest)
      (hsq : QueueSet s s' q fun sq => sq.Perm ((s.queues q).sq ++ [task]))
      (hsh : s'.shared = s.shared) (hql : s'.queueList = Function.update s.queueList task.id (q :: rest))
      (hheld : s'.held = s.held.erase task)
      (hpl : s'.placed = Function.update s.placed task.id (s.placed task.id ++ [q]))
  | finish (task : Task) (thisOp : QueueType) (hmem : task ∈ s.held)
      (hlist : s.queueList task.id = [thisOp])
      (hsq : ∀ q, (s'.queues q).sq = (s.queues q).sq)
      (hsh : s'.shared = Function.update s.shared task.id.1 { s.shared task.id.1 with
        counter := (s.shared task.id.1).counter + 1#32
        callbacks := if (s.shared task.id.1).counter = totalPartnum cfg task.id.1 - 1#32 then
          (s.shared task.id.1).callbacks + 1 else (s.shared task.id.1).callbacks })
      (hql : s'.queueList = Function.update s.queueList task.id [])
      (hheld : s'.held = s.held.erase task) (hpl : s'.placed = s.placed)

theorem addTask_spec {cfg : Config} {s s' : State} {q : QueueType} {task : Task} {sq' : List Task}
    (h : addTask cfg s q task sq' = some s') :
    QueueSet s s' q (fun sq => sq.Perm ((s.queues q).sq ++ [task])) ∧ s'.shared = s.shared ∧
      s'.queueList = s.queueList ∧ s'.held = s.held ∧
      s'.placed = Function.update s.placed task.id (s.placed task.id ++ [q]) := by
  unfold addTask at h
  split at h
  · next hadd =>
    cases h
    refine ⟨⟨?_, fun q' hq' => by simp [State.setQueue, hq']⟩, rfl, rfl, rfl, rfl⟩
    unfold AddTask at hadd
    simp only [State.setQueue, Function.update_self]
    replace hadd := hadd.1
    split at hadd
    · exact hadd.1
    · exact .of_eq hadd
  · cases h

theorem reportFinish_sq (cfg : Config) (s : State) (q : QueueType) (len : BitVec 32) (q' : QueueType) :
    ((s.setQueue q ((s.queues q).reportFinish (isScheduled cfg q) len)).queues q').sq = (s.queues q').sq := by
  by_cases hq : q' = q
  · subst hq
    simp only [State.setQueue, Function.update_self, Queue.reportFinish]
    split <;> rfl
  · simp [State.setQueue, hq]

/-- Taking the first match out of a list. -/
theorem find_erase_perm {p : Task → Bool} {sq : List Task} {task : Task} (h : sq.find? p = some task) :
    sq.Perm (task :: sq.eraseP p) := by
  induction sq with
  | nil => cases h
  | cons x sq ih =>
    by_cases hx : p x = true
    · rw [List.find?_cons_of_pos hx] at h
      cases h
      rw [List.eraseP_cons_of_pos hx]
    · rw [List.find?_cons_of_neg hx] at h
      rw [List.eraseP_cons_of_neg hx]
      exact ((ih h).cons x).trans (.swap _ _ _)

theorem take_move {cfg : Config} {s s' : State} {q : QueueType} {r : Option (Task × Queue)}
    (hr : ∀ task queue, r = some (task, queue) → (s.queues q).sq.Perm (task :: queue.sq))
    (h : take s q r = some s') : Move cfg s s' := by
  obtain ⟨⟨task, queue⟩, hq, rfl⟩ := Option.map_eq_some_iff.mp h
  refine .take q task ⟨?_, fun q' hq' => by simp [State.setQueue, hq']⟩ rfl rfl rfl rfl
  simpa [State.setQueue] using hr task queue hq

theorem step_move {cfg : Config} {s s' : State} {l : Label} (h : step cfg s l = some s') :
    Move cfg s s' := by
  cases l with
  | enqueue t sq' =>
    simp only [step, enqueueTensor] at h
    split at h
    · next hlist =>
      split at h
      · cases h
      · cases h; exact .skip t hlist (fun _ => rfl) rfl rfl rfl rfl
    · next q rest hlist =>
      split at h
      · next hn =>
        obtain ⟨hsq, hsh, hql, hheld, hpl⟩ := addTask_spec h
        exact .enqueue t q (by rw [hlist]; rfl) hn hsq hsh hql hheld hpl
      · cases h
  | get q ready =>
    refine take_move (fun task queue hq => ?_) h
    obtain ⟨x, hx, he⟩ := Option.map_eq_some_iff.mp hq
    cases he
    exact find_erase_perm (Option.filter_eq_some_iff.mp hx).1
  | getKey q ready key =>
    refine take_move (fun task queue hq => ?_) h
    unfold getTaskKey at hq
    dsimp only at hq
    split at hq
    · cases hq
    · obtain ⟨x, hx, he⟩ := Option.map_eq_some_iff.mp hq
      cases he
      exact find_erase_perm (Option.filter_eq_some_iff.mp hx).1
  | finish task sq' =>
    simp only [step] at h
    split at h
    · next hmem =>
      unfold finishOrProceed at h
      split at h
      · cases h
      · next thisOp rest hlist =>
        have rsq := reportFinish_sq cfg { s with held := s.held.erase task } thisOp task.len
        cases rest with
        | cons q rest =>
          obtain ⟨hsq, hsh, hql, hheld, hpl⟩ := addTask_spec h
          refine .proceed task thisOp q rest hmem hlist ⟨?_, fun q' hq' => (hsq.2 q' hq').trans (rsq q')⟩ hsh hql hheld hpl
          exact hsq.1.trans (.of_eq (congrArg (· ++ [task]) (rsq q)))
        | nil =>
          cases h
          exact .finish task thisOp hmem hlist rsq rfl rfl rfl rfl
    · cases h

/-! ## Where the partitions are -/

/-- An enqueued partition. -/
def Known (cfg : Config) (s : State) (x : Task) : Prop :=
  ∃ t i, x = taskOf cfg t i ∧ i < (s.shared t).next

theorem Known.eq_of_id {cfg : Config} {s : State} {x y : Task} (hx : Known cfg s x) (hy : Known cfg s y)
    (h : x.id = y.id) : x = y := by
  obtain ⟨t, i, rfl, -⟩ := hx
  obtain ⟨u, j, rfl, -⟩ := hy
  obtain ⟨rfl, rfl⟩ := Prod.mk.inj h
  rfl

theorem Known.mono {cfg : Config} {s s' : State} {x : Task} (h : Known cfg s x)
    (hn : ∀ t, (s.shared t).next ≤ (s'.shared t).next) : Known cfg s' x := by
  obtain ⟨t, i, rfl, hi⟩ := h
  exact ⟨t, i, rfl, Nat.lt_of_lt_of_le hi (hn t)⟩

/-- A partition has gone through `done` and is in, or was taken from, the first of the queues
left; a task is in one queue, or in the hands of one loop, or nowhere. -/
structure Stages (cfg : Config) (s : State) : Prop where
  nextLe : ∀ t, (s.shared t).next ≤ partnum cfg t
  fresh : ∀ t i, (s.shared t).next ≤ i →
    s.queueList (t, i) = (cfg.tensors t).queueList ∧ s.placed (t, i) = []
  stage : ∀ t i, i < (s.shared t).next → ∃ done, (cfg.tensors t).queueList = done ++ s.queueList (t, i) ∧
    s.placed (t, i) = done ++ (s.queueList (t, i)).take 1
  queued : ∀ q, ∀ x ∈ (s.queues q).sq,
    Known cfg s x ∧ (s.queueList x.id).head? = some q ∧ x ∉ s.held
  nodup : ∀ q, (s.queues q).sq.Nodup
  held : ∀ x ∈ s.held, Known cfg s x ∧ s.queueList x.id ≠ []
  heldNodup : s.held.Nodup

section Step
variable {cfg : Config} {s s' : State} {t : Nat}

theorem stages_enqueue (h : Stages cfg s) {t : Nat} {q : QueueType}
    (hlist : (cfg.tensors t).queueList.head? = some q) (hnext : (s.shared t).next < partnum cfg t)
    (hsq : QueueSet s s' q fun sq => sq.Perm ((s.queues q).sq ++ [taskOf cfg t (s.shared t).next]))
    (hsh : s'.shared = Function.update s.shared t { s.shared t with next := (s.shared t).next + 1 })
    (hql : s'.queueList = s.queueList) (hheld : s'.held = s.held)
    (hpl : s'.placed = Function.update s.placed (t, (s.shared t).next)
      (s.placed (t, (s.shared t).next) ++ [q])) : Stages cfg s' := by
  have hfresh := h.fresh t (s.shared t).next (Nat.le_refl _)
  -- the new task is nowhere yet
  have hnew : ¬ Known cfg s (taskOf cfg t (s.shared t).next) := by
    rintro ⟨u, j, he, hj⟩
    obtain ⟨rfl, rfl⟩ := Prod.mk.inj (congrArg Task.id he)
    exact Nat.lt_irrefl _ hj
  have hself : (s'.shared t).next = (s.shared t).next + 1 := by rw [hsh, Function.update_self]
  have hother : ∀ u, u ≠ t → s'.shared u = s.shared u := fun u hu => by
    rw [hsh, Function.update_of_ne hu]
  have hmono : ∀ u, (s.shared u).next ≤ (s'.shared u).next := by
    intro u
    by_cases hu : u = t
    · subst hu; omega
    · rw [hother u hu]
  have hplaced : ∀ u j, (u, j) ≠ (t, (s.shared t).next) → s'.placed (u, j) = s.placed (u, j) :=
    fun u j hne => by rw [hpl, Function.update_of_ne hne]
  constructor
  · intro u
    by_cases hu : u = t
    · subst hu; omega
    · rw [hother u hu]; exact h.nextLe u
  · intro u i hi
    have hle := Nat.le_trans (hmono u) hi
    rw [hql, hplaced u i (fun he => by
      obtain ⟨rfl, rfl⟩ := Prod.mk.inj he
      omega)]
    exact h.fresh u i hle
  · intro u i hi
    rw [hql]
    by_cases hui : (u, i) = (t, (s.shared t).next)
    · obtain ⟨rfl, rfl⟩ := Prod.mk.inj hui
      rw [hpl, Function.update_self, hfresh.1, hfresh.2]
      refine ⟨[], rfl, ?_⟩
      cases hc : (cfg.tensors u).queueList with
      | nil => rw [hc] at hlist; cases hlist
      | cons p ps =>
        rw [hc] at hlist
        cases hlist
        rfl
    · rw [hplaced u i hui]
      refine h.stage u i ?_
      by_cases hu : u = t
      · subst hu
        have : i ≠ (s.shared u).next := fun he => hui (by rw [he])
        omega
      · rwa [hother u hu] at hi
  · intro p x hx
    rw [hql, hheld]
    rcases hsq.mem_add hx with hx | ⟨rfl, rfl⟩
    · exact ⟨(h.queued p x hx).1.mono hmono, (h.queued p x hx).2⟩
    · refine ⟨⟨t, _, rfl, by omega⟩, ?_, fun hm => hnew (h.held _ hm).1⟩
      rw [show (taskOf cfg t (s.shared t).next).id = (t, (s.shared t).next) from rfl, hfresh.1]
      exact hlist
  · exact hsq.nodup_add h.nodup fun hm => hnew (h.queued q _ hm).1
  · intro x hx
    rw [hheld] at hx
    rw [hql]
    exact ⟨(h.held x hx).1.mono hmono, (h.held x hx).2⟩
  · rw [hheld]; exact h.heldNodup

theorem stages_take (h : Stages cfg s) {q : QueueType} {task : Task}
    (hsq : QueueSet s s' q fun sq => (s.queues q).sq.Perm (task :: sq)) (hsh : s'.shared = s.shared)
    (hql : s'.queueList = s.queueList) (hheld : s'.held = task :: s.held) (hpl : s'.placed = s.placed) :
    Stages cfg s' := by
  have hmem : task ∈ (s.queues q).sq := hsq.1.mem_iff.mpr List.mem_cons_self
  have hnd : (task :: (s'.queues q).sq).Nodup := (hsq.1.nodup_iff).mp (h.nodup q)
  obtain ⟨hk, hhead, hnot⟩ := h.queued q task hmem
  have hknown : ∀ x, Known cfg s x → Known cfg s' x := fun x hx => hx.mono (by rw [hsh]; simp)
  have hsub : ∀ p, ∀ x ∈ (s'.queues p).sq, x ∈ (s.queues p).sq ∧ x ≠ task := by
    intro p x hx
    by_cases hp : p = q
    · subst hp
      refine ⟨hsq.1.mem_iff.mpr (List.mem_cons_of_mem _ hx), ?_⟩
      rintro rfl
      exact (List.nodup_cons.mp hnd).1 hx
    · rw [hsq.2 p hp] at hx
      refine ⟨hx, ?_⟩
      rintro rfl
      have := (h.queued p x hx).2.1
      rw [hhead] at this
      exact hp (Option.some.inj this).symm
  constructor
  · intro t; rw [hsh]; exact h.nextLe t
  · intro t i hi; rw [hsh] at hi; rw [hql, hpl]; exact h.fresh t i hi
  · intro t i hi; rw [hsh] at hi; rw [hql, hpl]; exact h.stage t i hi
  · intro p x hx
    obtain ⟨hx, hne⟩ := hsub p x hx
    obtain ⟨h1, h2, h3⟩ := h.queued p x hx
    rw [hql, hheld]
    exact ⟨hknown x h1, h2, by simp [hne, h3]⟩
  · intro p
    by_cases hp : p = q
    · subst hp; exact (List.nodup_cons.mp hnd).2
    · rw [hsq.2 p hp]; exact h.nodup p
  · intro x hx
    rw [hheld] at hx
    rw [hql]
    rcases List.mem_cons.mp hx with rfl | hx
    · exact ⟨hknown _ hk, fun h0 => by rw [h0] at hhead; cases hhead⟩
    · exact ⟨hknown x (h.held x hx).1, (h.held x hx).2⟩
  · rw [hheld]; exact List.nodup_cons.mpr ⟨hnot, h.heldNodup⟩

/-- A loop gives up a task, whose list loses its head; the new head, if any, is its next queue. -/
structure Released (cfg : Config) (s s' : State) (task : Task) (thisOp : QueueType)
    (rest : List QueueType) : Prop where
  mem : task ∈ s.held
  list : s.queueList task.id = thisOp :: rest
  next : ∀ t, (s'.shared t).next = (s.shared t).next
  queueList : s'.queueList = Function.update s.queueList task.id rest
  held : s'.held = s.held.erase task
  placed : s'.placed = Function.update s.placed task.id (s.placed task.id ++ rest.take 1)

/-- What a released task leaves alone, and its own new stage. -/
theorem Released.stages (h : Stages cfg s) {task : Task} {thisOp : QueueType} {rest : List QueueType}
    (hr : Released cfg s s' task thisOp rest)
    (hq : ∀ q, ∀ x ∈ (s'.queues q).sq, x ∈ (s.queues q).sq ∨ x = task ∧ rest.head? = some q)
    (hnd : ∀ q, (s'.queues q).sq.Nodup) : Stages cfg s' := by
  obtain ⟨hmem, hlist, hnext, hql, hheld, hpl⟩ := hr
  have hk := (h.held task hmem).1
  have hknown : ∀ x, Known cfg s x → Known cfg s' x := fun x hx => hx.mono fun t => by rw [hnext]
  have hid : ∀ x, Known cfg s x → x ≠ task → x.id ≠ task.id := fun x hx hne he => hne (hx.eq_of_id hk he)
  have hgone : task ∉ s'.held := by rw [hheld]; exact h.heldNodup.not_mem_erase
  obtain ⟨t, i, rfl, hi⟩ := id hk
  constructor
  · intro u; rw [hnext]; exact h.nextLe u
  · intro u j hj
    rw [hnext] at hj
    have hne : (u, j) ≠ (taskOf cfg t i).id := by
      intro he
      obtain ⟨rfl, rfl⟩ := Prod.mk.inj he
      omega
    rw [hql, hpl, Function.update_of_ne hne, Function.update_of_ne hne]
    exact h.fresh u j hj
  · intro u j hj
    rw [hnext] at hj
    by_cases hne : (u, j) = (taskOf cfg t i).id
    · obtain ⟨done, h1, h2⟩ := h.stage u j hj
      rw [hne] at h1 h2 ⊢
      rw [hql, hpl, Function.update_self, Function.update_self, h2, hlist]
      rw [hlist] at h1
      exact ⟨done ++ [thisOp], by rw [h1]; simp, by simp⟩
    · rw [hql, hpl, Function.update_of_ne hne, Function.update_of_ne hne]
      exact h.stage u j hj
  · intro q x hx
    rcases hq q x hx with hx | ⟨rfl, hhead⟩
    · obtain ⟨h1, h2, h3⟩ := h.queued q x hx
      have hne : x ≠ taskOf cfg t i := fun he => h3 (he ▸ hmem)
      refine ⟨hknown x h1, ?_, ?_⟩
      · rw [hql, Function.update_of_ne (hid x h1 hne)]; exact h2
      · rw [hheld]; exact fun hm => h3 (List.mem_of_mem_erase hm)
    · exact ⟨hknown _ hk, by rw [hql, Function.update_self]; exact hhead, hgone⟩
  · exact hnd
  · intro x hx
    rw [hheld] at hx
    have hxs := List.mem_of_mem_erase hx
    have hne : x ≠ taskOf cfg t i := by
      rintro rfl
      exact hgone (by rw [hheld]; exact hx)
    refine ⟨hknown x (h.held x hxs).1, ?_⟩
    rw [hql, Function.update_of_ne (hid x (h.held x hxs).1 hne)]
    exact (h.held x hxs).2
  · rw [hheld]; exact h.heldNodup.erase _

/-- **Stages, one step.** -/
theorem stages_step (h : Stages cfg s) (hm : Move cfg s s') : Stages cfg s' := by
  cases hm with
  | skip t hlist hsq hsh hql hheld hpl =>
    have hnext : ∀ u, (s'.shared u).next = (s.shared u).next := by
      intro u
      rw [hsh]
      by_cases hu : u = t
      · subst hu; simp
      · rw [Function.update_of_ne hu]
    have hknown : ∀ x, Known cfg s x → Known cfg s' x := fun x hx => hx.mono fun t => by rw [hnext]
    exact ⟨fun u => by rw [hnext]; exact h.nextLe u,
      fun u i hi => by rw [hnext] at hi; rw [hql, hpl]; exact h.fresh u i hi,
      fun u i hi => by rw [hnext] at hi; rw [hql, hpl]; exact h.stage u i hi,
      fun q x hx => by
        rw [hsq] at hx
        rw [hql, hheld]
        exact ⟨hknown x (h.queued q x hx).1, (h.queued q x hx).2⟩,
      fun q => by rw [hsq]; exact h.nodup q,
      fun x hx => by
        rw [hheld] at hx
        rw [hql]
        exact ⟨hknown x (h.held x hx).1, (h.held x hx).2⟩,
      by rw [hheld]; exact h.heldNodup⟩
  | enqueue t q hlist hnext hsq hsh hql hheld hpl => exact stages_enqueue h hlist hnext hsq hsh hql hheld hpl
  | take q task hsq hsh hql hheld hpl => exact stages_take h hsq hsh hql hheld hpl
  | proceed task thisOp q rest hmem hlist hsq hsh hql hheld hpl =>
    refine Released.stages h ⟨hmem, hlist, fun t => by rw [hsh], hql, hheld, hpl⟩ ?_
      (hsq.nodup_add h.nodup fun hm => (h.queued q task hm).2.2 hmem)
    intro p x hx
    exact (hsq.mem_add hx).imp_right fun ⟨he, hp⟩ => ⟨he, by rw [hp]; rfl⟩
  | finish task thisOp hmem hlist hsq hsh hql hheld hpl =>
    refine Released.stages h ⟨hmem, hlist, fun t => ?_, hql, hheld, ?_⟩
      (fun q x hx => .inl (by rwa [hsq] at hx)) (fun q => by rw [hsq]; exact h.nodup q)
    · rw [hsh]
      by_cases ht : t = task.id.1
      · subst ht; simp
      · rw [Function.update_of_ne ht]
    · rw [hpl]; simp

/-! ## The counter and the callback -/

/-- The finished partitions of a tensor. -/
def finished (cfg : Config) (s : State) (t : Nat) : Finset Nat :=
  (Finset.range (partnum cfg t)).filter fun i => s.queueList (t, i) = []

def AllFinished (cfg : Config) (s : State) (t : Nat) : Prop :=
  ∀ i < partnum cfg t, s.queueList (t, i) = []

instance (cfg : Config) (s : State) (t : Nat) : Decidable (AllFinished cfg s t) :=
  inferInstanceAs (Decidable (∀ i < partnum cfg t, s.queueList (t, i) = []))

theorem finished_card_eq_iff : (finished cfg s t).card = partnum cfg t ↔ AllFinished cfg s t := by
  have hc : (Finset.range (partnum cfg t)).card = partnum cfg t := Finset.card_range _
  conv_lhs => rw [← hc]
  rw [finished, Finset.card_filter_eq_iff]
  simp [AllFinished]

theorem finished_congr (h : ∀ i, s'.queueList (t, i) = [] ↔ s.queueList (t, i) = []) :
    finished cfg s' t = finished cfg s t := by
  simp only [finished, h]

/-- The counter of a tensor with queues counts its finished partitions, and the callback has run
exactly if that is all of them. -/
def Counts (cfg : Config) (s : State) : Prop :=
  ∀ t, (cfg.tensors t).queueList ≠ [] → partnum cfg t ≤ 2 ^ 32 →
    (s.shared t).counter = BitVec.ofNat 32 (finished cfg s t).card ∧
    (s.shared t).callbacks = if 0 < partnum cfg t ∧ AllFinished cfg s t then 1 else 0

theorem counts_congr (hc : Counts cfg s) (t : Nat) (hlist : (cfg.tensors t).queueList ≠ []) (hle : partnum cfg t ≤ 2 ^ 32)
    (hsh : (s'.shared t).counter = (s.shared t).counter ∧ (s'.shared t).callbacks = (s.shared t).callbacks)
    (hql : ∀ i, s'.queueList (t, i) = [] ↔ s.queueList (t, i) = []) :
    (s'.shared t).counter = BitVec.ofNat 32 (finished cfg s' t).card ∧
    (s'.shared t).callbacks = if 0 < partnum cfg t ∧ AllFinished cfg s' t then 1 else 0 := by
  have ha : AllFinished cfg s' t ↔ AllFinished cfg s t := by simp only [AllFinished, hql]
  rw [hsh.1, hsh.2, finished_congr hql, if_congr (and_congr_right' ha) rfl rfl]
  exact hc t hlist hle

theorem finished_card_le : (finished cfg s t).card ≤ partnum cfg t := by
  have := Finset.card_filter_le (Finset.range (partnum cfg t)) fun i => s.queueList (t, i) = []
  rwa [Finset.card_range] at this

/-- Up to `2 ^ 32` partitions, the counter that meets `total_partnum - 1` is the one of the last. -/
theorem counter_eq_iff {k m : Nat} (hk : k < m) (hm : m ≤ 2 ^ 32) :
    BitVec.ofNat 32 k = BitVec.ofNat 32 m - 1#32 ↔ k + 1 = m := by
  rw [← BitVec.toNat_inj, BitVec.toNat_sub, BitVec.toNat_ofNat, BitVec.toNat_ofNat, BitVec.toNat_ofNat]
  omega

/-- The last stage of partition `i` makes it one of the finished ones. -/
theorem finished_insert {i : Nat} (hi : i < partnum cfg t)
    (hql : s'.queueList = Function.update s.queueList (t, i) []) :
    finished cfg s' t = insert i (finished cfg s t) := by
  ext j
  simp only [finished, Finset.mem_filter, Finset.mem_range, Finset.mem_insert, hql]
  by_cases hj : j = i
  · subst hj; simp [hi]
  · simp [hj]

theorem counts_finish (hc : Counts cfg s) (hlist : (cfg.tensors t).queueList ≠ []) (hle : partnum cfg t ≤ 2 ^ 32) {i : Nat}
    (hi : i < partnum cfg t) {thisOp : QueueType} (hl : s.queueList (t, i) = [thisOp])
    (hql : s'.queueList = Function.update s.queueList (t, i) [])
    (hsh : s'.shared t = { s.shared t with
      counter := (s.shared t).counter + 1#32
      callbacks := if (s.shared t).counter = totalPartnum cfg t - 1#32 then (s.shared t).callbacks + 1
        else (s.shared t).callbacks }) :
    (s'.shared t).counter = BitVec.ofNat 32 (finished cfg s' t).card ∧
    (s'.shared t).callbacks = if 0 < partnum cfg t ∧ AllFinished cfg s' t then 1 else 0 := by
  obtain ⟨hcount, hcall⟩ := hc t hlist hle
  have hnot : i ∉ finished cfg s t := by simp [finished, hl]
  have hcard : (finished cfg s' t).card = (finished cfg s t).card + 1 := by
    rw [finished_insert hi hql, Finset.card_insert_of_notMem hnot]
  -- before this step partition `i` was not finished, so the callback has not run
  have hbefore : ¬ AllFinished cfg s t := fun ha => by
    have := ha i hi
    rw [hl] at this
    cases this
  rw [if_neg (fun hb => hbefore hb.2)] at hcall
  have hlast := counter_eq_iff (k := (finished cfg s t).card) 
    (Nat.lt_of_lt_of_le (by omega) (hcard ▸ finished_card_le (s := s'))) hle
  rw [hsh]
  refine ⟨by simp only [hcount, hcard, BitVec.ofNat_add], ?_⟩
  simp only [hcall, hcount, totalPartnum, hlast, ← hcard]
  exact if_congr (finished_card_eq_iff.trans (by simp; omega)) rfl rfl

/-- **Counts, one step.** -/
theorem counts_step (h : Stages cfg s) (hc : Counts cfg s) (hm : Move cfg s s') : Counts cfg s' := by
  intro t hlist hle
  cases hm with
  | skip u hu hsq hsh hql hheld hpl =>
    have hne : t ≠ u := fun he => hlist (he ▸ hu)
    exact counts_congr hc t hlist hle (by rw [hsh, Function.update_of_ne hne]; exact ⟨rfl, rfl⟩) (by simp [hql])
  | enqueue u q hu hnext hsq hsh hql hheld hpl =>
    refine counts_congr hc t hlist hle ?_ (by simp [hql])
    rw [hsh]
    by_cases ht : t = u
    · subst ht; simp
    · rw [Function.update_of_ne ht]; exact ⟨rfl, rfl⟩
  | take q task hsq hsh hql hheld hpl =>
    exact counts_congr hc t hlist hle (by rw [hsh]; exact ⟨rfl, rfl⟩) (by simp [hql])
  | proceed task thisOp q rest hmem hl hsq hsh hql hheld hpl =>
    refine counts_congr hc t hlist hle (by rw [hsh]; exact ⟨rfl, rfl⟩) fun i => ?_
    rw [hql]
    by_cases hi : (t, i) = task.id
    · rw [hi, Function.update_self, hl]; simp
    · rw [Function.update_of_ne hi]
  | finish task thisOp hmem hl hsq hsh hql hheld hpl =>
    obtain ⟨u, i, rfl, hi⟩ := (h.held task hmem).1
    change s.queueList (u, i) = [thisOp] at hl
    by_cases hu : t = u
    · subst hu
      refine counts_finish hc hlist hle (Nat.lt_of_lt_of_le hi (h.nextLe t)) hl hql ?_
      rw [hsh]; exact Function.update_self ..
    · refine counts_congr hc t hlist hle ?_ fun j => ?_
      · rw [hsh, Function.update_of_ne (by exact hu)]; exact ⟨rfl, rfl⟩
      · have hne : (t, j) ≠ (taskOf cfg u i).id := fun he => hu (Prod.mk.inj he).1
        rw [hql, Function.update_of_ne hne]

/-- The only move that changes whether a partition is finished finishes it. -/
theorem finish_of_move (h : Stages cfg s) (hm : Move cfg s s') {t i : Nat} (h0 : s.queueList (t, i) ≠ [])
    (h1 : s'.queueList (t, i) = []) : (∃ thisOp, s.queueList (t, i) = [thisOp]) ∧ taskOf cfg t i ∈ s.held ∧
      s'.queueList = Function.update s.queueList (t, i) [] := by
  cases hm with
  | skip u hu hsq hsh hql hheld hpl => exact absurd (by rwa [hql] at h1) h0
  | enqueue u q hu hnext hsq hsh hql hheld hpl => exact absurd (by rwa [hql] at h1) h0
  | take q task hsq hsh hql hheld hpl => exact absurd (by rwa [hql] at h1) h0
  | proceed task thisOp q rest hmem hl hsq hsh hql hheld hpl =>
    by_cases hi : (t, i) = task.id
    · rw [hql, hi, Function.update_self] at h1; cases h1
    · rw [hql, Function.update_of_ne hi] at h1; exact absurd h1 h0
  | finish task thisOp hmem hl hsq hsh hql hheld hpl =>
    by_cases hi : (t, i) = task.id
    · obtain ⟨u, j, rfl, -⟩ := (h.held task hmem).1
      obtain ⟨rfl, rfl⟩ := Prod.mk.inj hi
      exact ⟨⟨thisOp, hl⟩, hmem, hql⟩
    · rw [hql, Function.update_of_ne hi] at h1; exact absurd h1 h0

theorem finished_stays (hm : Move cfg s s') {id : Nat × Nat} (h0 : s.queueList id = []) :
    s'.queueList id = [] := by
  cases hm with
  | skip u hu hsq hsh hql hheld hpl => rwa [hql]
  | enqueue u q hu hnext hsq hsh hql hheld hpl => rwa [hql]
  | take q task hsq hsh hql hheld hpl => rwa [hql]
  | proceed task thisOp q rest hmem hl hsq hsh hql hheld hpl =>
    have hne : id ≠ task.id := fun he => by rw [← he, h0] at hl; cases hl
    rwa [hql, Function.update_of_ne hne]
  | finish task thisOp hmem hl hsq hsh hql hheld hpl =>
    have hne : id ≠ task.id := fun he => by rw [← he, h0] at hl; cases hl
    rwa [hql, Function.update_of_ne hne]

end Step

/-! ## Runs -/

theorem inv_inductive (cfg : Config) :
    (pipeline cfg).Inductive fun s => Stages cfg s ∧ Counts cfg s where
  init := by
    rintro s rfl
    refine ⟨⟨fun t => Nat.zero_le _, fun t i _ => ⟨rfl, rfl⟩, fun t i hi => absurd hi (Nat.not_lt_zero i),
      by simp [State.init], by simp [State.init], by simp [State.init], by simp [State.init]⟩, ?_⟩
    intro t hlist _
    have hfin : finished cfg (State.init cfg) t = ∅ :=
      Finset.filter_false_of_mem fun i _ => hlist
    refine ⟨by rw [hfin]; rfl, ?_⟩
    rw [if_neg]
    · rfl
    · rintro ⟨h0, ha⟩
      exact hlist (ha 0 h0)
  step := fun _ _ _ h hs => ⟨stages_step h.1 (step_move hs), counts_step h.1 h.2 (step_move hs)⟩

/-- Tensor `t` in state `s`: its partitions have been placed in order and once each, a finished
one everywhere; its callback has run once if all are finished, and not at all otherwise. -/
structure Once (cfg : Config) (s : State) (t : Nat) : Prop where
  inOrder : ∀ i < partnum cfg t, s.placed (t, i) <+: (cfg.tensors t).queueList
  complete : ∀ i < partnum cfg t, s.queueList (t, i) = [] → s.placed (t, i) = (cfg.tensors t).queueList
  callback : (s.shared t).callbacks = if AllFinished cfg s t then 1 else 0

/-- A step that does not run the callback of `t`, or the one in which the last partition of `t`
leaves its last stage. -/
def LastOrQuiet (cfg : Config) (s s' : State) (t : Nat) : Prop :=
  (s'.shared t).callbacks = (s.shared t).callbacks ∨
  (s'.shared t).callbacks = (s.shared t).callbacks + 1 ∧ ∃ i < partnum cfg t,
    taskOf cfg t i ∈ s.held ∧ (∃ thisOp, s.queueList (t, i) = [thisOp]) ∧
    s'.queueList = Function.update s.queueList (t, i) [] ∧
    ∀ j < partnum cfg t, j ≠ i → s.queueList (t, j) = []

theorem once_of_inv {cfg : Config} {s : State} {t : Nat} (hq : (cfg.tensors t).queueList ≠ [])
    (hm : 0 < partnum cfg t) (hm' : partnum cfg t ≤ 2 ^ 32) (h : Stages cfg s) (hc : Counts cfg s) : Once cfg s t := by
  have hstage : ∀ i, ∃ done, (cfg.tensors t).queueList = done ++ s.queueList (t, i) ∧
      (s.placed (t, i) = done ++ (s.queueList (t, i)).take 1 ∨ s.placed (t, i) = [] ∧ done = []) := by
    intro i
    rcases Nat.lt_or_ge i (s.shared t).next with hi | hi
    · obtain ⟨done, h1, h2⟩ := h.stage t i hi
      exact ⟨done, h1, .inl h2⟩
    · obtain ⟨h1, h2⟩ := h.fresh t i hi
      exact ⟨[], by rw [h1]; rfl, .inr ⟨h2, rfl⟩⟩
  refine ⟨fun i _ => ?_, fun i _ h0 => ?_, ?_⟩
  · obtain ⟨done, h1, h2 | h2⟩ := hstage i
    · rw [h2, h1]
      exact ⟨(s.queueList (t, i)).drop 1, by rw [List.append_assoc, List.take_append_drop]⟩
    · exact ⟨(cfg.tensors t).queueList, by rw [h2.1, List.nil_append]⟩
  · obtain ⟨done, h1, h2 | h2⟩ := hstage i
    · rw [h2, h1, h0]; rfl
    · rw [h0, h2.2] at h1; exact absurd h1 hq
  · rw [(hc t hq hm').2]
    exact if_congr (and_iff_right hm) rfl rfl

/-- **Pipeline.** For every tensor with a non-empty list of queues and at least one and at most
`2 ^ 32` partitions, in every run: placement and callback are as `Once` says, and every step is
quiet or is the last. -/
theorem pipeline_once (cfg : Config) (t : Nat) (hq : (cfg.tensors t).queueList ≠ [])
    (hm : 0 < partnum cfg t) (hm' : partnum cfg t ≤ 2 ^ 32) (s : State) (h : (pipeline cfg).Reachable s) :
    Once cfg s t ∧ ∀ l s', step cfg s l = some s' → LastOrQuiet cfg s s' t := by
  obtain ⟨hst, hc⟩ := (inv_inductive cfg).reachable s h
  have honce := once_of_inv hq hm hm' hst hc
  refine ⟨honce, fun l s' hs => ?_⟩
  have hmove := step_move hs
  have honce' := once_of_inv hq hm hm' (stages_step hst hmove) (counts_step hst hc hmove)
  rw [LastOrQuiet, honce.callback, honce'.callback]
  by_cases ha : AllFinished cfg s' t
  · by_cases hb : AllFinished cfg s t
    · exact .inl (by rw [if_pos ha, if_pos hb])
    · -- some partition was not finished; the move finished it and touched no other
      refine .inr ⟨by rw [if_pos ha, if_neg hb], ?_⟩
      obtain ⟨i, hi, h0⟩ : ∃ i, i < partnum cfg t ∧ s.queueList (t, i) ≠ [] := by
        simpa [AllFinished] using hb
      obtain ⟨hop, hheld, hql⟩ := finish_of_move hst hmove h0 (ha i hi)
      refine ⟨i, hi, hheld, hop, hql, fun j hj hji => ?_⟩
      have hne : (t, j) ≠ (t, i) := fun he => hji (Prod.mk.inj he).2
      have := ha j hj
      rwa [hql, Function.update_of_ne hne] at this
  · have hb : ¬ AllFinished cfg s t := fun hb => ha fun i hi => finished_stays hmove (hb i hi)
    exact .inl (by rw [if_neg ha, if_neg hb])

/-! ### One tensor of two partitions -/

def twoParts : Config where
  bound := 10
  credits := none
  tensors := fun t => if t = 0 then ⟨"w", 15, 1, 0, [.push, .pull]⟩ else ⟨"b", 0, t, 0, []⟩

/-- The second partition overtakes the first one in PUSH. -/
def overtaking : List Label :=
  let x := taskOf twoParts 0 0
  let y := taskOf twoParts 0 1
  [.enqueue 0 [x], .enqueue 0 [x, y], .get .push fun task => task.key = y.key, .finish y [y],
    .get .push fun _ => true, .get .pull fun _ => true, .finish x [x], .finish y [],
    .get .pull fun _ => true, .finish x []]

theorem pipeline_two_parts :
    ∃ s, (pipeline twoParts).Reachable s ∧ (s.shared 0).callbacks = 1 ∧ Once twoParts s 0 ∧
      ∀ l s', step twoParts s l = some s' → LastOrQuiet twoParts s s' 0 := by
  have hr : ((pipeline twoParts).restrict fun _ _ _ => True).Reachable (State.init twoParts) := .init rfl
  have hrun : (LTS.execute (LTS.guarded (step twoParts) fun _ _ _ => True) (State.init twoParts)
      overtaking).map (fun s => (s.shared 0).callbacks) = some 1 := by decide +kernel
  obtain ⟨s, hs, h⟩ := Option.map_eq_some_iff.mp hrun
  have hreach := (LTS.Reachable.of_execute hr hs).of_restrict
  exact ⟨s, hreach, h, pipeline_once twoParts 0 (by decide) (by decide) (by decide) s hreach⟩

/-! ### One tensor of `2 ^ 32 + 1` partitions -/

def manyParts : Config where
  bound := 1
  credits := none
  tensors := fun _ => ⟨"w", 2 ^ 32 + 1, 1, 0, [.push]⟩

theorem partnum_manyParts : partnum manyParts 0 = 2 ^ 32 + 1 := by
  rw [partnum, partitionTensor_length (by decide)]
  rfl

/-- **Counterexample.** `total_partnum` is 1: the first partition that is done with its only queue
runs the callback, and the second one is still in it. -/
theorem pipeline_counterexample : ∃ s, (pipeline manyParts).Reachable s ∧
    (s.shared 0).callbacks = 1 ∧ s.queueList (0, 1) = [.push] ∧ 1 < partnum manyParts 0 := by
  have hnext : 0 < partnum manyParts 0 := by rw [partnum_manyParts]; decide
  have htotal : totalPartnum manyParts 0 = 1#32 := by rw [totalPartnum, partnum_manyParts]; rfl
  have hname : (taskOf manyParts 0 0).tensorName ≠ "" := by decide
  have hid : (taskOf manyParts 0 0).id = (0, 0) := rfl
  obtain ⟨s₁, h₁, hsq₁, hql₁, hsh₁⟩ : ∃ s, step manyParts (State.init manyParts) (.enqueue 0 [taskOf manyParts 0 0]) = some s ∧
      (s.queues .push).sq = [taskOf manyParts 0 0] ∧ s.queueList = (fun _ => [.push]) ∧ s.shared 0 = ⟨1, false, 0, 0⟩ := by
    have hadd : AddTask (isScheduled manyParts .push) [] (taskOf manyParts 0 0) [taskOf manyParts 0 0] := ⟨rfl, hname⟩
    have hfirst : ((State.init manyParts).shared 0).next = 0 := rfl
    have hlist : (manyParts.tensors 0).queueList = [.push] := rfl
    simp only [step, enqueueTensor, hlist, hfirst, if_pos hnext, addTask]
    rw [if_pos (by exact hadd)]
    exact ⟨_, rfl, rfl, rfl, rfl⟩
  generalize taskOf manyParts 0 0 = x at *
  obtain ⟨s₂, h₂, hql₂, hsh₂, hheld₂⟩ : ∃ s, step manyParts s₁ (.get .push fun _ => true) = some s ∧
      s.queueList = (fun _ => [.push]) ∧ s.shared 0 = ⟨1, false, 0, 0⟩ ∧ x ∈ s.held := by
    have hget : getTask (isScheduled manyParts .push) (fun _ => true) (s₁.queues .push) =
        some (x, ⟨[], (s₁.queues .push).credits⟩) := by
      simp [getTask, hsq₁, withinCredits, isScheduled, manyParts, hname, Queue.charge]
    exact ⟨_, congrArg (take s₁ .push) hget, hql₁, hsh₁, List.mem_cons_self⟩
  obtain ⟨s₃, h₃, hcall, hql₃⟩ : ∃ s, step manyParts s₂ (.finish x []) = some s ∧
      (s.shared 0).callbacks = 1 ∧ s.queueList (0, 1) = [.push] := by
    simp only [step, if_pos hheld₂, finishOrProceed, hql₂]
    refine ⟨_, rfl, ?_, ?_⟩
    · simp [State.setShared, State.setQueue, hid, hsh₂, htotal]
    · simp [State.setShared, State.setQueue, hid]
  exact ⟨s₃, .step (l := .finish x []) (.step (l := .get .push fun _ => true) (.step (l := .enqueue 0 [x]) (.init rfl) h₁) h₂) h₃,
    hcall, hql₃, by rw [partnum_manyParts]; decide⟩

end Inca.L4.Pipeline
