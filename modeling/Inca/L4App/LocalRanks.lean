import Mathlib.Algebra.BigOperators.Group.Finset.Piecewise
import Mathlib.Algebra.Order.BigOperators.Group.Finset
import Mathlib.Data.Fintype.Card
import Mathlib.Tactic.IntervalCases
import Inca.Core.LTS
import Inca.Core.Laps
import Inca.L4App.Pipeline

/-!
# The ranks of one machine: signals, ready tables and NCCL groups

`local_size = n + 1` processes of one machine, on one PCIe switch: the root
(the last rank, at once root device and signal root) and `n` others. Every
key (of a tensor without a compressor) goes round its queue list once per
iteration at every rank (`Core/Laps`); the ranks keep in step by signals over two sockets
(`communicator.cc`) and by the ready tables that the queues wait for
(`scheduled_queue.cc`).

* COORDINATE loops (`core_loops.cc`) put the task into the next queue and
  then signal the root; its listener counts the signal in a table.
* The root's NCCL thread takes a REDUCE or BROADCAST task when every rank has
  signalled, tells the others (`DO_REDUCE`, `DO_BROADCAST`) and closes the
  group (`DO_GROUP`). The others post what they are told, by `getTask(key)`.
* The sync threads pass the tasks of a closed group on, in order. When NCCL's
  calls return is left open: they may do so at any time after the group is
  closed at their own rank (`LocalProgress` makes it a parameter).
* The root's other loops tell the others when to copy (`DO_COPYD2H`,
  `DO_COPYH2D`).

Every step is one action of one thread; a message in flight can be delayed
for any time. Which of several ready tasks a queue hands out (list order,
priorities) is left open, and so is when its ready event fires. A failed
`BPS_CHECK` is recorded in `failed`, and nothing happens after it.

* `ranks_in_step`: in a distributed job no check ever fails, every rank has
  posted a beginning of the root's NCCL calls, and in every iteration of every
  key a stage starts at one rank only after the stages it depends on are over
  at all others.
* `contextPush_overflow`: on a single machine the same signals overflow the
  table of `CONTEXT_PUSH`: a key's second iteration fails the check of
  `AddReadyCount`.
-/
namespace Inca.L4.LocalRanks
open Inca.L4.Pipeline (QueueType)

/-! ## Queue lists and tables -/

/-- `groupSize` is `BYTEPS_NCCL_GROUP_SIZE`. The root's REDUCE queue is the only one that can be
scheduled; `credits` are its initial ones, and `len` is the length of a key's tasks.
mirrors byteps/byteps/common/scheduled_queue.cc:26-45 -/
structure Options where
  groupSize : Nat
  scheduled : Bool
  credits : BitVec 64
  len : Nat → BitVec 32

structure Cfg extends Options where
  distributed : Bool

/-- mirrors byteps/byteps/common/operations.cc:516-555; `IsCrossPcieSwitch()` is false and the
signal root is the root device -/
def getPushQueueList (distributed root : Bool) : List QueueType :=
  (if root then [.reduce] else [.coordinateReduce, .reduce]) ++
  (if distributed && root then [.contextPush, .contextPull] else []) ++
  (if distributed then [.copyD2H] else []) ++
  if distributed then (if root then [.push] else [.coordinatePush]) else []

/-- mirrors byteps/byteps/common/operations.cc:557-580 -/
def getPullQueueList (distributed root : Bool) : List QueueType :=
  (if distributed && root then [.pull] else []) ++
  (if distributed then [.copyH2D] else []) ++
  if root then [.broadcast] else [.coordinateBroadcast, .broadcast]

def queueList (cfg : Cfg) (root : Bool) : List QueueType :=
  getPushQueueList cfg.distributed root ++ getPullQueueList cfg.distributed root

/-- Signals to the root.
mirrors byteps/byteps/common/communicator.h:43-54 -/
inductive Up
  | reduceReady
  | contextPushReady
  | pushReady
  | bcastReady
  deriving DecidableEq

/-- Signals of the root over the basic socket. -/
inductive Down
  | doCopyD2H
  | doCopyH2D
  deriving DecidableEq

/-- Signals of the root over the NCCL socket: what to post. -/
inductive Order
  | reduce (key : Nat)
  | broadcast (key : Nat)
  | group
  deriving DecidableEq

/-- The table that a queue of the root waits for; a count of `local_size - 1 = n` is ready.
mirrors byteps/byteps/common/scheduled_queue.cc:46-89 and global.cc:319-381 -/
def rootTable : QueueType → Option Up
  | .reduce => some .reduceReady
  | .contextPush => some .contextPushReady
  | .push => some .pushReady
  | .broadcast => some .bcastReady
  | _ => none

/-- The table that a queue of another rank waits for; a count of 1 is ready. -/
def rankTable : QueueType → Option Down
  | .copyD2H => some .doCopyD2H
  | .copyH2D => some .doCopyH2D
  | _ => none

/-- What the loop of a stage at the root tells the others before it works on the task.
mirrors byteps/byteps/common/core_loops.cc:764-777 and 1287-1299 -/
def announces : QueueType → Option Down
  | .contextPull => some .doCopyD2H
  | .copyH2D => some .doCopyH2D
  | _ => none

/-- What a stage of another rank signals after `FinishOrProceed`.
mirrors byteps/byteps/common/core_loops.cc:306-331 and 635-643 -/
def signals : QueueType → Option Up
  | .coordinateReduce => some .reduceReady
  | .reduce => some .contextPushReady
  | .coordinatePush => some .pushReady
  | .coordinateBroadcast => some .bcastReady
  | _ => none

/-- The stages that are NCCL calls. -/
def ncclOrder : QueueType → Nat → Option Order
  | .reduce, key => some (.reduce key)
  | .broadcast, key => some (.broadcast key)
  | _, _ => none

/-- What a call takes off the credits of its queue.
mirrors byteps/byteps/common/scheduled_queue.cc:145-149,181-183 -/
def Cfg.cost (cfg : Cfg) : Order → Option (BitVec 32)
  | .reduce key => if cfg.scheduled then some (cfg.len key) else none
  | .broadcast _ | .group => none

/-! ## State -/

/-- The checks that can fail: `BPS_CHECK(task)` of an order, and the one of `AddReadyCount` at the
root and at another rank.
mirrors byteps/byteps/common/core_loops.cc:568 and ready_table.cc:29-34 -/
inductive Check (n : Nat)
  | task (r : Fin n) (key : Nat)
  | readyCount (s : Up) (key : Nat)
  | copyCount (r : Fin n) (d : Down) (key : Nat)
  deriving DecidableEq

structure State (n : Nat) where
  /-- where each key stands at the root and at the other ranks -/
  root : Nat → Laps
  rank : Fin n → Nat → Laps
  /-- the ready tables -/
  ready : Up → Nat → Nat
  copyReady : Fin n → Down → Nat → Nat
  /-- signals in flight -/
  toRoot : List (Fin n × Up × Nat)
  toRank : Fin n → List (Down × Nat)
  orders : Fin n → List Order
  /-- NCCL calls posted so far, and how many of them the sync threads are done with -/
  rootPosted : List Order
  posted : Fin n → List Order
  rootSynced : Nat
  synced : Fin n → Nat
  /-- tasks in the open group of the root -/
  reduces : Nat
  broadcasts : Nat
  /-- `_credits` of the root's REDUCE queue -/
  credits : BitVec 64
  /-- the `BPS_CHECK` that has failed -/
  failed : Option (Check n)

def State.init (credits : BitVec 64) (n : Nat) : State n where
  root _ := .start
  rank _ _ := .start
  ready _ _ := 0
  copyReady _ _ _ := 0
  toRoot := []
  toRank _ := []
  orders _ := []
  rootPosted := []
  posted _ := []
  rootSynced := 0
  synced _ := 0
  reduces := 0
  broadcasts := 0
  credits := credits
  failed := none

inductive Act (n : Nat)
  | enqueueRoot (key : Nat)
  | enqueue (r : Fin n) (key : Nat)
  | takeRoot (key : Nat)
  | finishRoot (key : Nat)
  | take (r : Fin n) (key : Nat)
  | finish (r : Fin n) (key : Nat)
  | ncclRoot (key : Nat)
  | groupRoot
  | nccl (r : Fin n)
  | syncRoot
  | sync (r : Fin n)
  | listen (i : Nat)
  | copyListen (r : Fin n) (i : Nat)

section Step
variable {n : Nat}

def State.setRoot (S : State n) (key : Nat) (t : Laps) : State n :=
  { S with root := Laps.set S.root key t }

def State.setRank (S : State n) (r : Fin n) (key : Nat) (t : Laps) : State n :=
  { S with rank := fun v k => Laps.set (fun y : Fin n × Nat => S.rank y.1 y.2) (r, key) t (v, k) }

/-- The queue that the task of a key is in. -/
def queuedAt (qs : List QueueType) (t : Laps) : Option QueueType :=
  match t.place with
  | .queued i => qs[i]?
  | .idle | .held _ => none

/-- The stage whose loop holds the task of a key. -/
def heldAt (qs : List QueueType) (t : Laps) : Option QueueType :=
  match t.place with
  | .held i => qs[i]?
  | .idle | .queued _ => none

/-- `IsKeyReady` of the queue's table. -/
def State.isReady (S : State n) (q : QueueType) (key : Nat) : Prop := ∀ s ∈ rootTable q, S.ready s key = n

/-- `ClearReadyCount` of the queue's table. -/
def State.clear (S : State n) (q : QueueType) (key : Nat) : State n :=
  { S with ready := fun s k => if rootTable q = some s ∧ k = key then 0 else S.ready s k }

def State.isReadyAt (S : State n) (r : Fin n) (q : QueueType) (key : Nat) : Prop :=
  ∀ d ∈ rankTable q, S.copyReady r d key = 1

def State.clearAt (S : State n) (r : Fin n) (q : QueueType) (key : Nat) : State n :=
  { S with copyReady := fun v d k => if v = r ∧ rankTable q = some d ∧ k = key then 0 else S.copyReady v d k }

instance (S : State n) (q : QueueType) (key : Nat) : Decidable (S.isReady q key) :=
  inferInstanceAs (Decidable (∀ s ∈ rootTable q, S.ready s key = n))

instance (S : State n) (r : Fin n) (q : QueueType) (key : Nat) : Decidable (S.isReadyAt r q key) :=
  inferInstanceAs (Decidable (∀ d ∈ rankTable q, S.copyReady r d key = 1))

/-- `broadcastSignal` over the basic socket.
mirrors byteps/byteps/common/communicator.cc:321-327 -/
def State.broadcastSignal (S : State n) (d : Option Down) (key : Nat) : State n :=
  { S with toRank := fun r => S.toRank r ++ (d.map (·, key)).toList }

/-- `sendSignalToRoot`. -/
def State.sendSignalToRoot (S : State n) (r : Fin n) (s : Option Up) (key : Nat) : State n :=
  { S with toRoot := S.toRoot ++ (s.map (r, ·, key)).toList }

/-- `broadcastSignal` over the NCCL socket; the root posts the call itself. -/
def State.order (S : State n) (o : Order) : State n :=
  { S with orders := fun r => S.orders r ++ [o], rootPosted := S.rootPosted ++ [o] }

/-- The loops of the root other than the NCCL thread: `getTask`.
mirrors byteps/byteps/common/core_loops.cc:663-671,729-777,787-791,969-973,1099-1103,1278-1299 and
scheduled_queue.cc:135-193 -/
def takeRoot (cfg : Cfg) (S : State n) (key : Nat) : Option (State n) := do
  let q ← queuedAt (queueList cfg true) (S.root key)
  let t ← (S.root key).take
  if ncclOrder q key = none ∧ S.isReady q key then
    some (((S.clear q key).broadcastSignal (announces q) key).setRoot key t)
  else none

/-- The same loops: `FinishOrProceed`, now or in a callback.
mirrors byteps/byteps/common/core_loops.cc:49-217 -/
def finishRoot (cfg : Cfg) (S : State n) (key : Nat) : Option (State n) := do
  let q ← heldAt (queueList cfg true) (S.root key)
  let t ← (S.root key).finish (queueList cfg true).length
  if ncclOrder q key = none then some (S.setRoot key t) else none

/-- The loops of another rank other than the NCCL thread: `getTask`.
mirrors byteps/byteps/common/core_loops.cc:291-296,787-791,1338-1342 -/
def take (cfg : Cfg) (S : State n) (r : Fin n) (key : Nat) : Option (State n) := do
  let q ← queuedAt (queueList cfg false) (S.rank r key)
  let t ← (S.rank r key).take
  if ncclOrder q key = none ∧ S.isReadyAt r q key then some ((S.clearAt r q key).setRank r key t) else none

/-- `FinishOrProceed`, and in a COORDINATE loop then the signal.
mirrors byteps/byteps/common/core_loops.cc:297-341,865,1348 -/
def finish (cfg : Cfg) (S : State n) (r : Fin n) (key : Nat) : Option (State n) := do
  let q ← heldAt (queueList cfg false) (S.rank r key)
  let t ← (S.rank r key).finish (queueList cfg false).length
  if ncclOrder q key = none then some ((S.setRank r key t).sendSignalToRoot r (signals q) key) else none

/-- The order of tasks in a group: at most `groupSize` REDUCE tasks, then at most `groupSize`
BROADCAST tasks. -/
def State.mayPost (cfg : Cfg) (S : State n) : Order → Prop
  | .reduce _ => S.reduces < cfg.groupSize ∧ S.broadcasts = 0
  | .broadcast _ => S.broadcasts < cfg.groupSize
  | .group => 0 < S.reduces + S.broadcasts

instance (cfg : Cfg) (S : State n) : (o : Order) → Decidable (S.mayPost cfg o)
  | .reduce _ => inferInstanceAs (Decidable (_ ∧ _))
  | .broadcast _ => inferInstanceAs (Decidable (_ < _))
  | .group => inferInstanceAs (Decidable (_ < _))

/-- The open group after a post. -/
def State.count (S : State n) (o : Order) : State n :=
  { S with
    reduces := match o with
      | .reduce _ => S.reduces + 1
      | .broadcast _ => S.reduces
      | .group => 0
    broadcasts := match o with
      | .reduce _ => S.broadcasts
      | .broadcast _ => S.broadcasts + 1
      | .group => 0 }

/-- The task of the call is within the credits. -/
def State.withinCredits (cfg : Cfg) (S : State n) (o : Order) : Bool :=
  (cfg.cost o).all fun len => !decide (S.credits < len.setWidth 64)

def State.charge (cfg : Cfg) (S : State n) (o : Order) : State n :=
  { S with credits := (cfg.cost o).elim S.credits fun len => S.credits - len.setWidth 64 }

/-- mirrors byteps/byteps/common/scheduled_queue.cc:227-233; `size` is an `int` -/
def State.reportFinish (cfg : Cfg) (S : State n) (o : Order) : State n :=
  { S with credits := (cfg.cost o).elim S.credits fun size => S.credits + size.signExtend 64 }

/-- mirrors byteps/byteps/common/core_loops.cc:482-522, one task of `RunRootNcclLoopOnce`, and
scheduled_queue.cc:135-193 -/
def ncclRoot (cfg : Cfg) (S : State n) (key : Nat) : Option (State n) := do
  let q ← queuedAt (queueList cfg true) (S.root key)
  let o ← ncclOrder q key
  let t ← (S.root key).take
  if S.isReady q key ∧ S.mayPost cfg o ∧ S.withinCredits cfg o then
    some (((((S.clear q key).order o).count o).charge cfg o).setRoot key t)
  else none

/-- mirrors byteps/byteps/common/core_loops.cc:523-531, the end of a group with tasks -/
def groupRoot (cfg : Cfg) (S : State n) : Option (State n) :=
  if S.mayPost cfg .group then some ((S.order .group).count .group) else none

/-- The key of a call and the stage it belongs to. -/
def Order.call : Order → Option (QueueType × Nat)
  | .reduce key => some (.reduce, key)
  | .broadcast key => some (.broadcast, key)
  | .group => none

/-- mirrors byteps/byteps/common/core_loops.cc:552-588, one message of `RunNonRootNcclLoopOnce`:
`getTask(key)` finds the task in the queue, or `BPS_CHECK(task)` fails -/
def nccl (cfg : Cfg) (S : State n) (r : Fin n) : Option (State n) :=
  match S.orders r with
  | [] => none
  | o :: rest =>
    let S' := { S with
      orders := Function.update S.orders r rest
      posted := Function.update S.posted r (S.posted r ++ [o]) }
    match o.call with
    | none => some S'
    | some (q, key) =>
      if queuedAt (queueList cfg false) (S.rank r key) = some q then
        ((S.rank r key).take).map (S'.setRank r key)
      else some { S with failed := some (.task r key) }

/-- mirrors byteps/byteps/common/core_loops.cc:590-661 at the root, one entry of a group that is
enqueued (line 530) -/
def syncRoot (cfg : Cfg) (S : State n) : Option (State n) := do
  let o ← S.rootPosted[S.rootSynced]?
  let S' := { S with rootSynced := S.rootSynced + 1 }
  if .group ∈ S.rootPosted.drop S.rootSynced then
    match o.call with
    | none => some S'
    | some (_, key) => ((S.root key).finish (queueList cfg true).length).map fun t =>
        (S'.reportFinish cfg o).setRoot key t
  else none

/-- The same at another rank: after a REDUCE the root is told the scale (`CONTEXT_PUSH_READY`). -/
def sync (cfg : Cfg) (S : State n) (r : Fin n) : Option (State n) := do
  let o ← (S.posted r)[S.synced r]?
  let S' := { S with synced := Function.update S.synced r (S.synced r + 1) }
  if .group ∈ (S.posted r).drop (S.synced r) then
    match o.call with
    | none => some S'
    | some (q, key) => ((S.rank r key).finish (queueList cfg false).length).map fun t =>
        (S'.setRank r key t).sendSignalToRoot r (signals q) key
  else none

/-- The root's listener: `AddReadyCount`, with its check.
mirrors byteps/byteps/common/communicator.cc:181-213 and ready_table.cc:29-34 -/
def listen (S : State n) (i : Nat) : Option (State n) := do
  let (_, s, key) ← S.toRoot[i]?
  let S' := { S with toRoot := S.toRoot.eraseIdx i }
  if S.ready s key < n then
    some { S' with ready := fun s' k => if s' = s ∧ k = key then S.ready s key + 1 else S.ready s' k }
  else some { S' with failed := some (.readyCount s key) }

/-- mirrors byteps/byteps/common/core_loops.cc:1309-1336 -/
def copyListen (S : State n) (r : Fin n) (i : Nat) : Option (State n) := do
  let (d, key) ← (S.toRank r)[i]?
  let S' := { S with toRank := Function.update S.toRank r ((S.toRank r).eraseIdx i) }
  if S.copyReady r d key < 1 then
    some { S' with copyReady := fun v d' k =>
      if v = r ∧ d' = d ∧ k = key then S.copyReady r d key + 1 else S.copyReady v d' k }
  else some { S' with failed := some (.copyCount r d key) }

def step (cfg : Cfg) (S : State n) (a : Act n) : Option (State n) :=
  if S.failed.isSome then none
  else match a with
    | .enqueueRoot key => (S.root key).enter.map (S.setRoot key)
    | .enqueue r key => (S.rank r key).enter.map (S.setRank r key)
    | .takeRoot key => takeRoot cfg S key
    | .finishRoot key => finishRoot cfg S key
    | .take r key => take cfg S r key
    | .finish r key => finish cfg S r key
    | .ncclRoot key => ncclRoot cfg S key
    | .groupRoot => groupRoot cfg S
    | .nccl r => nccl cfg S r
    | .syncRoot => syncRoot cfg S
    | .sync r => sync cfg S r
    | .listen i => listen S i
    | .copyListen r i => copyListen S r i

def machine (cfg : Cfg) (n : Nat) : LTS (State n) (Act n) := .ofFn (· = State.init cfg.credits n) (step cfg)

end Step

/-! ## The stages of a distributed job

The positions of the stages in the two queue lists. -/

def rootQueues : List QueueType :=
  [.reduce, .contextPush, .contextPull, .copyD2H, .push, .pull, .copyH2D, .broadcast]

def rankQueues : List QueueType :=
  [.coordinateReduce, .reduce, .copyD2H, .coordinatePush, .copyH2D, .coordinateBroadcast, .broadcast]

/-- A distributed job. -/
def dist (g : Options) : Cfg := ⟨g, true⟩

theorem queueList_root (g : Options) : queueList (dist g) true = rootQueues := rfl

theorem queueList_rank (g : Options) : queueList (dist g) false = rankQueues := rfl

/-- The stage of a rank that sends the signal. -/
def Up.rankStage : Up → Nat
  | .reduceReady => 0
  | .contextPushReady => 1
  | .pushReady => 3
  | .bcastReady => 5

/-- The stage of the root that waits for the signal. -/
def Up.rootStage : Up → Nat
  | .reduceReady => 0
  | .contextPushReady => 1
  | .pushReady => 4
  | .bcastReady => 7

def Down.rootStage : Down → Nat
  | .doCopyD2H => 2
  | .doCopyH2D => 6

def Down.rankStage : Down → Nat
  | .doCopyD2H => 2
  | .doCopyH2D => 4

inductive Call
  | reduce
  | broadcast
  deriving DecidableEq

def Call.stage : Call → QueueType
  | .reduce => .reduce
  | .broadcast => .broadcast

def Call.order : Call → Nat → Order
  | .reduce => .reduce
  | .broadcast => .broadcast

def Call.rootStage : Call → Nat
  | .reduce => 0
  | .broadcast => 7

def Call.rankStage : Call → Nat
  | .reduce => 1
  | .broadcast => 6

@[simp] theorem Call.order_inj {c d : Call} {k l : Nat} : c.order k = d.order l ↔ c = d ∧ k = l := by
  cases c <;> cases d <;> simp [Call.order]

@[simp] theorem Call.order_ne_group (c : Call) (k : Nat) : c.order k ≠ .group := by
  cases c <;> simp [Call.order]

@[simp] theorem Call.group_ne_order (c : Call) (k : Nat) : .group ≠ c.order k := (c.order_ne_group k).symm

theorem ncclOrder_eq {q : QueueType} {key : Nat} {o : Order} (h : ncclOrder q key = some o) :
    ∃ c : Call, c.stage = q ∧ o = c.order key := by
  cases q <;> simp only [ncclOrder, Option.some.injEq, reduceCtorEq] at h
  · exact ⟨.reduce, rfl, h.symm⟩
  · exact ⟨.broadcast, rfl, h.symm⟩

theorem ncclOrder_none {q : QueueType} {key : Nat} (h : ncclOrder q key = none) (c : Call) : c.stage ≠ q := by
  rintro rfl
  cases c <;> simp [ncclOrder, Call.stage] at h

theorem Order.call_eq {o : Order} {q : QueueType} {key : Nat} (h : o.call = some (q, key)) :
    ∃ c : Call, c.stage = q ∧ o = c.order key := by
  cases o <;> simp only [Order.call, Option.some.injEq, Prod.mk.injEq, reduceCtorEq] at h
  · exact ⟨.reduce, h.1, by rw [h.2]; rfl⟩
  · exact ⟨.broadcast, h.1, by rw [h.2]; rfl⟩

theorem Order.call_none {o : Order} (h : o.call = none) : o = .group := by
  cases o <;> simp [Order.call] at h ⊢

/-- Which stage of the root does what. -/
theorem rootQueues_spec {i : Nat} {q : QueueType} (h : rootQueues[i]? = some q) :
    i < 8 ∧ (∀ s, rootTable q = some s ↔ s.rootStage = i) ∧ (∀ d, announces q = some d ↔ d.rootStage = i) ∧
    ∀ c : Call, c.stage = q ↔ c.rootStage = i := by
  have hi : i < 8 := (List.getElem?_eq_some_iff.mp h).1
  refine ⟨hi, ?_⟩
  interval_cases i <;> cases h <;>
    exact ⟨fun s => by cases s <;> decide, fun d => by cases d <;> decide, fun c => by cases c <;> decide⟩

theorem rankQueues_spec {i : Nat} {q : QueueType} (h : rankQueues[i]? = some q) :
    i < 7 ∧ (∀ s, signals q = some s ↔ s.rankStage = i) ∧ (∀ d, rankTable q = some d ↔ d.rankStage = i) ∧
    ∀ c : Call, c.stage = q ↔ c.rankStage = i := by
  have hi : i < 7 := (List.getElem?_eq_some_iff.mp h).1
  refine ⟨hi, ?_⟩
  interval_cases i <;> cases h <;>
    exact ⟨fun s => by cases s <;> decide, fun d => by cases d <;> decide, fun c => by cases c <;> decide⟩

theorem Up.rankStage_lt (s : Up) : s.rankStage < 7 := by cases s <;> decide
theorem Up.rootStage_lt (s : Up) : s.rootStage < 8 := by cases s <;> decide
theorem Down.rankStage_lt (d : Down) : d.rankStage < 7 := by cases d <;> decide
theorem Down.rootStage_lt (d : Down) : d.rootStage < 8 := by cases d <;> decide
theorem Call.rankStage_lt (c : Call) : c.rankStage < 7 := by cases c <;> decide
theorem Call.rootStage_lt (c : Call) : c.rootStage < 8 := by cases c <;> decide

theorem Call.getElem_rankQueues (c : Call) : rankQueues[c.rankStage]? = some c.stage := by cases c <;> rfl

theorem queuedAt_eq {qs : List QueueType} {t : Laps} {q : QueueType} (h : queuedAt qs t = some q) :
    ∃ i, t.place = .queued i ∧ qs[i]? = some q := by
  unfold queuedAt at h
  split at h
  · next i hp => exact ⟨i, hp, h⟩
  all_goals cases h

theorem heldAt_eq {qs : List QueueType} {t : Laps} {q : QueueType} (h : heldAt qs t = some q) :
    ∃ i, t.place = .held i ∧ qs[i]? = some q := by
  unfold heldAt at h
  split at h
  · next i hp => exact ⟨i, hp, h⟩
  all_goals cases h

/-! ## What the signals say -/

section Safety
variable {n : Nat} {S S' : State n} {g : Options}

/-- The signals to the root: what a rank has signalled is taken, in flight or counted, and the
ranks counted in a table are different ones. -/
def Tallied (S : State n) : Prop :=
  ∃ C : Up → Nat → Finset (Fin n), (∀ s k, S.ready s k = (C s k).card) ∧ ∀ r s k,
    (S.rank r k).finished s.rankStage =
      (S.root k).taken s.rootStage + S.toRoot.count (r, s, k) + if r ∈ C s k then 1 else 0

/-- The credits of a scheduled queue and the lengths of its unfinished tasks add up to the initial
ones. -/
def Credited (g : Options) (S : State n) : Prop :=
  (g.scheduled = true → ∀ k, (g.len k).toNat < 2 ^ 31) → S.credits.toNat +
    ((S.rootPosted.drop S.rootSynced).map fun o => ((dist g).cost o).elim 0 BitVec.toNat).sum = g.credits.toNat

/-- Every signal is accounted for: it is in flight, counted in a table, or the stage that waits
for it has taken the task. -/
structure Inv (g : Options) (S : State n) : Prop where
  ok : S.failed = none
  onRoot : ∀ k, (S.root k).On 8
  onRank : ∀ y : Fin n × Nat, (S.rank y.1 y.2).On 7
  up : Tallied S
  down : ∀ r d k, (S.root k).taken d.rootStage =
    (S.rank r k).taken d.rankStage + (S.toRank r).count (d, k) + S.copyReady r d k
  call : ∀ r (c : Call) k, (S.root k).taken c.rootStage =
    (S.rank r k).taken c.rankStage + (S.orders r).count (c.order k)
  posts : ∀ r, S.posted r ++ S.orders r = S.rootPosted
  unsynced : ∀ (c : Call) k, (S.root k).taken c.rootStage =
    (S.root k).finished c.rootStage + (S.rootPosted.drop S.rootSynced).count (c.order k)
  unsyncedAt : ∀ r (c : Call) k, (S.rank r k).taken c.rankStage =
    (S.rank r k).finished c.rankStage + ((S.posted r).drop (S.synced r)).count (c.order k)
  synced : S.rootSynced ≤ S.rootPosted.length
  syncedAt : ∀ r, S.synced r ≤ (S.posted r).length
  -- an empty group is never closed
  closed : S.reduces + S.broadcasts = 0 → ∀ o ∈ S.rootPosted.getLast?, o = .group
  credits : Credited g S

theorem Inv.init : Inv g (State.init g.credits n) where
  ok := rfl
  onRoot _ := Laps.on_start 8
  onRank _ := Laps.on_start 7
  up := ⟨fun _ _ => ∅, fun _ _ => rfl, fun _ _ _ => by
    simp [State.init, Laps.start, Laps.taken, Laps.finished, Laps.pos]⟩
  down _ _ _ := by simp [State.init, Laps.start, Laps.taken, Laps.pos]
  call _ _ _ := by simp [State.init, Laps.start, Laps.taken, Laps.pos]
  posts _ := rfl
  unsynced _ _ := by simp [State.init, Laps.start, Laps.taken, Laps.finished, Laps.pos]
  unsyncedAt _ _ _ := by simp [State.init, Laps.start, Laps.taken, Laps.finished, Laps.pos]
  synced := Nat.le_refl _
  syncedAt _ := Nat.le_refl _
  closed _ o h := by simp [State.init] at h
  credits _ := by simp [State.init]

/-! ### Credits -/

theorem Credited.order (h : Credited g S) (hs : S.rootSynced ≤ S.rootPosted.length) {o : Order}
    (ho : (dist g).cost o = none) : Credited g (S.order o) := fun hlen => by
  simpa [State.order, List.drop_append_of_le_length hs, ho] using h hlen

/-- A task within the credits is charged its length. -/
theorem Credited.charge (h : Credited g S) (hs : S.rootSynced ≤ S.rootPosted.length) {o : Order}
    (ho : S.withinCredits (dist g) o) : Credited g ((S.order o).charge (dist g) o) := fun hlen => by
  have h := h hlen
  cases hc : (dist g).cost o with
  | none => simpa [State.charge, State.order, List.drop_append_of_le_length hs, hc] using h
  | some len =>
    have hle : len.setWidth 64 ≤ S.credits := by
      simpa [State.withinCredits, hc, BitVec.not_lt] using ho
    have hw : (len.setWidth 64).toNat = len.toNat := by simp; omega
    have hsub := BitVec.toNat_sub_of_le hle
    simp only [State.charge, State.order, hc, Option.elim_some, List.drop_append_of_le_length hs, List.map_append,
      List.sum_append, List.map_cons, List.map_nil, List.sum_singleton]
    rw [BitVec.le_def, hw] at hle
    rw [hw] at hsub
    omega

/-- `reportFinish` gives it back: the length is not negative as an `int`, and the credits do not
exceed the initial ones. -/
theorem Credited.finish (h : Credited g S) {o : Order} (ho : S.rootPosted[S.rootSynced]? = some o) :
    Credited g { S with
      rootSynced := S.rootSynced + 1
      credits := (S.reportFinish (dist g) o).credits } := fun hlen => by
  have hsum := h hlen
  obtain ⟨hm, rfl⟩ := List.getElem?_eq_some_iff.mp ho
  rw [List.drop_eq_getElem_cons hm, List.map_cons, List.sum_cons] at hsum
  cases hc : (dist g).cost S.rootPosted[S.rootSynced] with
  | none => simpa [State.reportFinish, hc] using hsum
  | some len =>
    simp only [hc, Option.elim_some] at hsum
    have hpos : len.toNat < 2 ^ 31 := by
      simp only [Cfg.cost] at hc
      split at hc
      · split at hc
        · next hs => cases hc; exact hlen hs _
        · cases hc
      all_goals cases hc
    have hext : (len.signExtend 64).toNat = len.toNat := by
      rw [BitVec.signExtend_eq_setWidth_of_msb_false (BitVec.msb_eq_false_iff_two_mul_lt.mpr (by omega))]
      simp; omega
    have hlt := g.credits.isLt
    simp only [State.reportFinish, hc, Option.elim_some, BitVec.toNat_add, hext]
    omega

/-! ### Bounds around the ring of stages -/

/-- What the root waits for, no rank has signalled twice. -/
theorem Inv.finished_le (h : Inv g S) (r : Fin n) (s : Up) (k : Nat) :
    (S.rank r k).finished s.rankStage ≤ (S.root k).taken s.rootStage + 1 := by
  have hr := h.call r .reduce k
  have hb := h.call r .broadcast k
  have hd := h.down r .doCopyD2H k
  have hh := h.down r .doCopyH2D k
  simp only [Call.rootStage, Call.rankStage, Down.rootStage, Down.rankStage] at hr hb hd hh
  cases s with
  | reduceReady =>
    have h1 := (S.rank r k).finished_le_taken_succ 0 6
    have h2 := (S.root k).taken_antitone (show 0 ≤ 7 by decide)
    simp only [Up.rankStage, Up.rootStage]
    omega
  | contextPushReady =>
    have h1 := (S.rank r k).finished_le_taken (Nat.le_refl 1)
    have h2 := (S.root k).taken_le_taken_succ 0 1
    simp only [Up.rankStage, Up.rootStage]
    omega
  | pushReady =>
    have h1 := (S.rank r k).finished_le_taken (show 2 ≤ 3 by decide)
    have h2 := (S.root k).taken_le_taken_succ 2 4
    simp only [Up.rankStage, Up.rootStage]
    omega
  | bcastReady =>
    have h1 := (S.rank r k).finished_le_taken (show 4 ≤ 5 by decide)
    have h2 := (S.root k).taken_le_taken_succ 6 7
    simp only [Up.rankStage, Up.rootStage]
    omega

/-- The root waits for every rank. -/
theorem Inv.taken_le_finished (h : Inv g S) (r : Fin n) (s : Up) (k : Nat) :
    (S.root k).taken s.rootStage ≤ (S.rank r k).finished s.rankStage := by
  obtain ⟨C, -, hC⟩ := h.up
  have := hC r s k
  omega

theorem Inv.taken_le (h : Inv g S) (r : Fin n) (d : Down) (k : Nat) :
    (S.root k).taken d.rootStage ≤ (S.rank r k).taken d.rankStage + 1 := by
  cases d with
  | doCopyD2H =>
    have h1 := h.taken_le_finished r .contextPushReady k
    have h2 := (S.root k).taken_antitone (show 1 ≤ 2 by decide)
    have h3 := (S.rank r k).finished_le_taken_succ 1 2
    simp only [Up.rankStage, Up.rootStage] at h1
    simp only [Down.rankStage, Down.rootStage]
    omega
  | doCopyH2D =>
    have h1 := h.taken_le_finished r .pushReady k
    have h2 := (S.root k).taken_antitone (show 4 ≤ 6 by decide)
    have h3 := (S.rank r k).finished_le_taken_succ 3 4
    simp only [Up.rankStage, Up.rootStage] at h1
    simp only [Down.rankStage, Down.rootStage]
    omega

/-- The task of an order is in the queue where `getTask(key)` looks for it. -/
theorem Inv.queued_of_order (h : Inv g S) {r : Fin n} {c : Call} {k : Nat} (ho : c.order k ∈ S.orders r) :
    (S.rank r k).place = .queued c.rankStage := by
  have hcall := h.call r c k
  have hpos := List.count_pos_iff.mpr ho
  cases c with
  | reduce =>
    have h1 := h.taken_le_finished r .reduceReady k
    simp only [Up.rankStage, Up.rootStage, Call.rankStage, Call.rootStage] at h1 hcall
    exact Laps.queued_of_lt (show (S.rank r k).taken 1 < (S.rank r k).finished 0 by omega)
  | broadcast =>
    have h1 := h.taken_le_finished r .bcastReady k
    simp only [Up.rankStage, Up.rootStage, Call.rankStage, Call.rootStage] at h1 hcall
    exact Laps.queued_of_lt (show (S.rank r k).taken 6 < (S.rank r k).finished 5 by omega)

/-- The task of a posted call is held by the NCCL thread until the sync thread passes it on. -/
theorem Inv.held_of_posted (h : Inv g S) {c : Call} {k : Nat} (ho : S.rootPosted[S.rootSynced]? = some (c.order k)) :
    (S.root k).place = .held c.rootStage := by
  have hmem : c.order k ∈ S.rootPosted.drop S.rootSynced :=
    List.mem_of_getElem? (i := 0) (by simpa using ho)
  have hpos := List.count_pos_iff.mpr hmem
  have hover := h.unsynced c k
  exact Laps.held_of_lt (by omega)

theorem Inv.held_of_postedAt (h : Inv g S) {r : Fin n} {c : Call} {k : Nat}
    (ho : (S.posted r)[S.synced r]? = some (c.order k)) : (S.rank r k).place = .held c.rankStage := by
  have hmem : c.order k ∈ (S.posted r).drop (S.synced r) :=
    List.mem_of_getElem? (i := 0) (by simpa using ho)
  have hpos := List.count_pos_iff.mpr hmem
  have hover := h.unsyncedAt r c k
  exact Laps.held_of_lt (by omega)

/-! ### Steps -/

theorem count_send (S : State n) (r v : Fin n) (o : Option Up) (s : Up) (key k : Nat) :
    (S.sendSignalToRoot r o key).toRoot.count (v, s, k) =
      S.toRoot.count (v, s, k) + if (v, k) = (r, key) ∧ o = some s then 1 else 0 := by
  cases o with
  | none => simp [State.sendSignalToRoot]
  | some s' =>
    simp only [State.sendSignalToRoot, Option.map_some, Option.toList_some, List.count_append,
      List.count_singleton, Option.some.injEq, beq_iff_eq, Prod.mk.injEq]
    congr 1
    exact if_congr (by constructor <;> rintro h <;> simp_all) rfl rfl

theorem count_broadcast (S : State n) (v : Fin n) (o : Option Down) (d : Down) (key k : Nat) :
    ((S.broadcastSignal o key).toRank v).count (d, k) =
      (S.toRank v).count (d, k) + if k = key ∧ o = some d then 1 else 0 := by
  cases o with
  | none => simp [State.broadcastSignal]
  | some d' =>
    simp only [State.broadcastSignal, Option.map_some, Option.toList_some, List.count_append,
      List.count_singleton, Option.some.injEq, beq_iff_eq, Prod.mk.injEq]
    congr 1
    exact if_congr (by constructor <;> rintro h <;> simp_all) rfl rfl

/-- The root goes on to its next queue: `FinishOrProceed` of a loop or of the sync thread. -/
theorem Inv.proceedRoot (h : Inv g S) {key m : Nat} {t : Laps} {cr : BitVec 64} (hm : m ≤ S.rootPosted.length)
    (ht : ∀ k, (Laps.set S.root key t k).On 8 ∧
      ∀ j < 8, (Laps.set S.root key t k).taken j = (S.root k).taken j)
    (hover : ∀ (c : Call) k, (S.root k).taken c.rootStage =
      (Laps.set S.root key t k).finished c.rootStage + (S.rootPosted.drop m).count (c.order k))
    (hcr : Credited g { S with rootSynced := m, credits := cr }) :
    Inv g (State.setRoot { S with rootSynced := m, credits := cr } key t) where
  ok := h.ok
  onRoot k := (ht k).1
  onRank := h.onRank
  up := by
    obtain ⟨C, hC, hT⟩ := h.up
    refine ⟨C, hC, fun r s k => ?_⟩
    show (S.rank r k).finished _ = (Laps.set S.root key t k).taken _ + _ + _
    rw [(ht k).2 _ s.rootStage_lt]
    exact hT r s k
  down r d k := ((ht k).2 _ d.rootStage_lt).trans (h.down r d k)
  call r c k := ((ht k).2 _ c.rootStage_lt).trans (h.call r c k)
  posts := h.posts
  unsynced c k := ((ht k).2 _ c.rootStage_lt).trans (hover c k)
  unsyncedAt := h.unsyncedAt
  synced := hm
  syncedAt := h.syncedAt
  closed := h.closed
  credits := hcr

/-- Another rank goes on to its next queue, and then signals. -/
theorem Inv.proceed (h : Inv g S) {r : Fin n} {key : Nat} {m : Fin n → Nat} {t : Laps} {o : Option Up}
    (hm : ∀ v, m v ≤ (S.posted v).length)
    (ht : ∀ y, (Laps.set (fun y : Fin n × Nat => S.rank y.1 y.2) (r, key) t y).On 7 ∧
      (∀ j < 7, (Laps.set (fun y : Fin n × Nat => S.rank y.1 y.2) (r, key) t y).taken j =
        (S.rank y.1 y.2).taken j) ∧
      ∀ s : Up, (Laps.set (fun y : Fin n × Nat => S.rank y.1 y.2) (r, key) t y).finished s.rankStage =
        (S.rank y.1 y.2).finished s.rankStage + if y = (r, key) ∧ o = some s then 1 else 0)
    (hover : ∀ v (c : Call) k, (S.rank v k).taken c.rankStage =
      (Laps.set (fun y : Fin n × Nat => S.rank y.1 y.2) (r, key) t (v, k)).finished c.rankStage +
        ((S.posted v).drop (m v)).count (c.order k)) :
    Inv g ((State.setRank { S with synced := m } r key t).sendSignalToRoot r o key) where
  ok := h.ok
  onRoot := h.onRoot
  onRank y := (ht y).1
  up := by
    obtain ⟨C, hC, hT⟩ := h.up
    refine ⟨C, hC, fun v s k => ?_⟩
    rw [count_send]
    have h1 := (ht (v, k)).2.2 s
    have h2 := hT v s k
    simp only [State.sendSignalToRoot, State.setRank] at h1 ⊢
    omega
  down v d k := (h.down v d k).trans (by rw [← (ht (v, k)).2.1 _ d.rankStage_lt]; rfl)
  call v c k := (h.call v c k).trans (by rw [← (ht (v, k)).2.1 _ c.rankStage_lt]; rfl)
  posts := h.posts
  unsynced := h.unsynced
  unsyncedAt v c k := ((ht (v, k)).2.1 _ c.rankStage_lt).trans (hover v c k)
  synced := h.synced
  syncedAt := hm
  closed := h.closed
  credits := h.credits

/-- A full table is cleared when the task is taken. -/
theorem Inv.up_clear (h : Inv g S) {q : QueueType} {key i : Nat} {t : Laps} (hq : rootQueues[i]? = some q)
    (hready : S.isReady q key) (ht : ∀ k j, (Laps.set S.root key t k).taken j =
      (S.root k).taken j + if k = key ∧ j = i then 1 else 0) :
    Tallied ((S.clear q key).setRoot key t) := by
  obtain ⟨-, htab, -⟩ := rootQueues_spec hq
  obtain ⟨C, hC, hT⟩ := h.up
  refine ⟨fun s k => if rootTable q = some s ∧ k = key then ∅ else C s k, fun s k => ?_, fun r s k => ?_⟩
  · simp only [State.setRoot, State.clear]
    split
    · rfl
    · exact hC s k
  · simp only [State.setRoot, State.clear]
    rw [ht, hT r s k]
    by_cases hc : rootTable q = some s ∧ k = key
    · have hfull : C s k = Finset.univ := by
        rw [← Finset.card_eq_iff_eq_univ, ← hC, Fintype.card_fin, hc.2]
        exact hready s hc.1
      have hi : k = key ∧ s.rootStage = i := ⟨hc.2, (htab s).mp hc.1⟩
      simp only [if_pos hc, if_pos hi, hfull, Finset.mem_univ, Finset.notMem_empty, if_true, if_false]
      omega
    · have hi : ¬(k = key ∧ s.rootStage = i) := fun h' => hc ⟨(htab s).mpr h'.2, h'.1⟩
      simp only [if_neg hc, if_neg hi, Nat.add_zero]

theorem Inv.takeRoot (h : Inv g S) {key : Nat} (hst : takeRoot (dist g) S key = some S') : Inv g S' := by
  simp only [LocalRanks.takeRoot, Option.bind_eq_bind, Option.bind_eq_some_iff] at hst
  obtain ⟨q, hq, t, ht, hst⟩ := hst
  split at hst
  · next hg =>
    cases hst
    rw [queueList_root] at hq
    obtain ⟨i, hp, hi⟩ := queuedAt_eq hq
    obtain ⟨-, -, hann, hcall⟩ := rootQueues_spec hi
    have hset := Laps.set_take ht hp h.onRoot
    have hne (c : Call) : c.rootStage ≠ i := fun hc => ncclOrder_none hg.1 c ((hcall c).mpr hc)
    exact {
      h with
      onRoot := fun k => (hset k).1
      up := h.up_clear hi hg.2 fun k j => ((hset k).2 j).1
      down := fun r d k => by
        have h1 := ((hset k).2 d.rootStage).1
        have h2 := h.down r d k
        have h3 := count_broadcast (S.clear q key) r (announces q) d key k
        simp only [hann] at h3
        simp only [State.setRoot, State.clear, State.broadcastSignal] at h1 h3 ⊢
        omega
      call := fun r c k => by
        refine (((hset k).2 _).1).trans ?_
        rw [if_neg fun hc => hne c hc.2]
        exact h.call r c k
      unsynced := fun c k => by
        have h1 := (hset k).2 c.rootStage
        rw [if_neg fun hc => hne c hc.2] at h1
        exact h1.1.trans ((h.unsynced c k).trans (congrArg (· + _) h1.2.symm)) }
  · cases hst

theorem Inv.ncclRoot (h : Inv g S) {key : Nat} (hst : ncclRoot (dist g) S key = some S') : Inv g S' := by
  simp only [LocalRanks.ncclRoot, Option.bind_eq_bind, Option.bind_eq_some_iff] at hst
  obtain ⟨q, hq, o, ho, t, ht, hst⟩ := hst
  split at hst
  · next hg =>
    cases hst
    rw [queueList_root] at hq
    obtain ⟨i, hp, hi⟩ := queuedAt_eq hq
    obtain ⟨c, rfl, rfl⟩ := ncclOrder_eq ho
    obtain ⟨-, -, hann, hcall⟩ := rootQueues_spec hi
    have hset := Laps.set_take ht hp h.onRoot
    have hic : c.rootStage = i := (hcall c).mp rfl
    have hcount (d : Call) (k : Nat) : [c.order key].count (d.order k) = if k = key ∧ d.rootStage = i then 1 else 0 := by
      rw [List.count_singleton]
      refine if_congr ?_ rfl rfl
      simp only [beq_iff_eq, Call.order_inj, ← hcall d]
      constructor
      · rintro ⟨rfl, rfl⟩; exact ⟨rfl, rfl⟩
      · rintro ⟨rfl, hd⟩; cases c <;> cases d <;> simp_all [Call.stage]
    exact {
      ok := h.ok
      onRoot := fun k => (hset k).1
      onRank := h.onRank
      up := h.up_clear hi hg.1 fun k j => ((hset k).2 j).1
      down := fun r d k => by
        refine (((hset k).2 _).1).trans ?_
        have hd : d.rootStage ≠ c.rootStage := by cases c <;> cases d <;> decide
        rw [if_neg fun hc => hd (hc.2.trans hic.symm)]
        exact h.down r d k
      call := fun r d k => by
        have h1 := ((hset k).2 d.rootStage).1
        have h2 := h.call r d k
        have h3 := hcount d k
        simp only [State.setRoot, State.charge, State.count, State.order, State.clear, List.count_append]
        omega
      posts := fun r => by
        simp only [State.setRoot, State.charge, State.count, State.order, State.clear, ← h.posts r, List.append_assoc]
      unsynced := fun d k => by
        have h1 := (hset k).2 d.rootStage
        have h2 := h.unsynced d k
        have h3 := hcount d k
        simp only [State.setRoot, State.charge, State.count, State.order, State.clear, List.drop_append_of_le_length h.synced,
          List.count_append]
        omega
      unsyncedAt := h.unsyncedAt
      synced := by
        have := h.synced
        simp only [State.setRoot, State.charge, State.count, State.order, State.clear, List.length_append]
        omega
      syncedAt := h.syncedAt
      closed := fun hz => by
        cases c <;> simp [State.setRoot, State.charge, State.count, Call.order, State.order, State.clear] at hz
      credits := h.credits.charge h.synced hg.2.2 }
  · cases hst

theorem Inv.groupRoot (h : Inv g S) (hst : groupRoot (dist g) S = some S') : Inv g S' := by
  simp only [LocalRanks.groupRoot] at hst
  split at hst
  · cases hst
    exact {
      h with
      call := fun r c k => by
        simpa [State.order, State.count, List.count_append, List.count_singleton] using h.call r c k
      posts := fun r => by simp only [State.count, State.order, ← h.posts r, List.append_assoc]
      unsynced := fun c k => by
        simpa [State.order, State.count, List.drop_append_of_le_length h.synced, List.count_append,
          List.count_singleton] using h.unsynced c k
      synced := by
        have := h.synced
        simp only [State.count, State.order, List.length_append]
        omega
      closed := fun _ o ho => by simpa [State.count, State.order, eq_comm] using ho
      credits := h.credits.order h.synced rfl }
  · cases hst

theorem Inv.finishRoot (h : Inv g S) {key : Nat} (hst : finishRoot (dist g) S key = some S') : Inv g S' := by
  simp only [LocalRanks.finishRoot, Option.bind_eq_bind, Option.bind_eq_some_iff] at hst
  obtain ⟨q, hq, t, ht, hst⟩ := hst
  split at hst
  · next hg =>
    cases hst
    rw [queueList_root] at hq ht
    obtain ⟨i, hp, hi⟩ := heldAt_eq hq
    obtain ⟨-, -, -, hcall⟩ := rootQueues_spec hi
    have hset := Laps.set_finish ht hp h.onRoot
    refine h.proceedRoot h.synced (fun k => ⟨(hset k).1, fun j hj => ((hset k).2 j hj).1⟩) (fun c k => ?_)
      h.credits
    have hne : c.rootStage ≠ i := fun hc => ncclOrder_none hg c ((hcall c).mpr hc)
    rw [((hset k).2 _ c.rootStage_lt).2, if_neg fun hc => hne hc.2]
    exact h.unsynced c k
  · cases hst

theorem count_drop_succ {l : List Order} {m : Nat} {o : Order} (h : l[m]? = some o) (p : Order) :
    (l.drop m).count p = (l.drop (m + 1)).count p + if p = o then 1 else 0 := by
  obtain ⟨hm, rfl⟩ := List.getElem?_eq_some_iff.mp h
  rw [List.drop_eq_getElem_cons hm, List.count_cons]
  congr 1
  exact if_congr (beq_iff_eq.trans eq_comm) rfl rfl

/-- The sync thread of a rank passes one call on. -/
theorem count_drop_of_sync {r : Fin n} {o : Order} (ho : (S.posted r)[S.synced r]? = some o) (v : Fin n)
    (p : Order) : ((S.posted v).drop (S.synced v)).count p =
      ((S.posted v).drop (Function.update S.synced r (S.synced r + 1) v)).count p +
        if v = r ∧ p = o then 1 else 0 := by
  by_cases hv : v = r
  · subst hv; simp [count_drop_succ ho]
  · simp [hv]

theorem synced_le_of_sync {r : Fin n} {o : Order} (ho : (S.posted r)[S.synced r]? = some o)
    (h : ∀ v, S.synced v ≤ (S.posted v).length) (v : Fin n) :
    Function.update S.synced r (S.synced r + 1) v ≤ (S.posted v).length := by
  by_cases hv : v = r
  · rw [hv, Function.update_self]; exact (List.getElem?_eq_some_iff.mp ho).1
  · rw [Function.update_of_ne hv]; exact h v

/-- A rank posts one call. -/
theorem count_drop_of_post (h : ∀ v, S.synced v ≤ (S.posted v).length) (r : Fin n) (o : Order) (v : Fin n)
    (p : Order) : ((Function.update S.posted r (S.posted r ++ [o]) v).drop (S.synced v)).count p =
      ((S.posted v).drop (S.synced v)).count p + if v = r ∧ p = o then 1 else 0 := by
  by_cases hv : v = r
  · subst hv
    rw [Function.update_self, List.drop_append_of_le_length (h v), List.count_append, List.count_singleton]
    exact congrArg (_ + ·) (if_congr ((beq_iff_eq.trans eq_comm).trans (and_iff_right rfl).symm) rfl rfl)
  · simp [hv]

theorem synced_le_of_post (h : ∀ v, S.synced v ≤ (S.posted v).length) (r : Fin n) (o : Order) (v : Fin n) :
    S.synced v ≤ (Function.update S.posted r (S.posted r ++ [o]) v).length := by
  have := h v
  by_cases hv : v = r
  · subst hv; rw [Function.update_self, List.length_append]; omega
  · rw [Function.update_of_ne hv]; exact this

theorem Inv.syncRoot (h : Inv g S) (hst : syncRoot (dist g) S = some S') : Inv g S' := by
  simp only [LocalRanks.syncRoot, Option.bind_eq_bind, Option.bind_eq_some_iff] at hst
  obtain ⟨o, ho, hst⟩ := hst
  have hm : S.rootSynced + 1 ≤ S.rootPosted.length := (List.getElem?_eq_some_iff.mp ho).1
  split at hst
  · split at hst
    · next hn =>
      cases hst
      exact {
        h with
        unsynced := fun c k => by
          rw [h.unsynced c k, count_drop_succ ho, Order.call_none hn, if_neg (c.order_ne_group k), Nat.add_zero]
        synced := hm
        credits := by
          have hcr := h.credits.finish ho
          rwa [Order.call_none hn] at hcr }
    · next q key hc =>
      obtain ⟨t, ht, rfl⟩ := Option.map_eq_some_iff.mp hst
      obtain ⟨c, -, rfl⟩ := Order.call_eq hc
      rw [queueList_root] at ht
      have hset := Laps.set_finish ht (h.held_of_posted ho) h.onRoot
      refine h.proceedRoot hm (fun k => ⟨(hset k).1, fun j hj => ((hset k).2 j hj).1⟩) (fun d k => ?_)
        (h.credits.finish ho)
      rw [h.unsynced d k, count_drop_succ ho, ((hset k).2 _ d.rootStage_lt).2]
      have hcond : (k = key ∧ d.rootStage = c.rootStage) ↔ d.order k = c.order key := by
        rw [Call.order_inj]
        cases c <;> cases d <;> simp [Call.rootStage]
      simp only [hcond]
      omega
  · cases hst

theorem Inv.enqueueRoot (h : Inv g S) {key : Nat} {t : Laps} (ht : (S.root key).enter = some t) :
    Inv g (S.setRoot key t) := by
  have hset := Laps.set_enter ht (show 0 < 8 by decide) h.onRoot
  refine h.proceedRoot h.synced (fun k => ⟨(hset k).1, fun j _ => ((hset k).2 j).1⟩) (fun c k => ?_) h.credits
  rw [((hset k).2 _).2]
  exact h.unsynced c k

theorem Inv.enqueue (h : Inv g S) {r : Fin n} {key : Nat} {t : Laps} (ht : (S.rank r key).enter = some t) :
    Inv g (S.setRank r key t) := by
  have hset := Laps.set_enter (f := fun y : Fin n × Nat => S.rank y.1 y.2) (x := (r, key)) ht
    (show 0 < 7 by decide) h.onRank
  have hinv := @Inv.proceed _ S g h r key _ t none h.syncedAt
    (fun y => ⟨(hset y).1, fun j _ => ((hset y).2 j).1, fun s => by simpa using ((hset y).2 _).2⟩)
    (fun v c k => by rw [((hset (v, k)).2 _).2]; exact h.unsyncedAt v c k)
  simpa [State.sendSignalToRoot] using hinv

theorem Inv.finish (h : Inv g S) {r : Fin n} {key : Nat} (hst : finish (dist g) S r key = some S') : Inv g S' := by
  simp only [LocalRanks.finish, Option.bind_eq_bind, Option.bind_eq_some_iff] at hst
  obtain ⟨q, hq, t, ht, hst⟩ := hst
  split at hst
  · next hg =>
    cases hst
    rw [queueList_rank] at hq ht
    obtain ⟨i, hp, hi⟩ := heldAt_eq hq
    obtain ⟨-, hsig, -, hcall⟩ := rankQueues_spec hi
    have hset := Laps.set_finish (f := fun y : Fin n × Nat => S.rank y.1 y.2) (x := (r, key)) ht hp h.onRank
    refine h.proceed h.syncedAt (fun y => ⟨(hset y).1, fun j hj => ((hset y).2 j hj).1, fun s => ?_⟩)
      fun v c k => ?_
    · simp only [((hset y).2 _ s.rankStage_lt).2, hsig]
    · have hne : c.rankStage ≠ i := fun hc => ncclOrder_none hg c ((hcall c).mpr hc)
      rw [((hset (v, k)).2 _ c.rankStage_lt).2, if_neg fun hc => hne hc.2]
      exact h.unsyncedAt v c k
  · cases hst

theorem Inv.sync (h : Inv g S) {r : Fin n} (hst : sync (dist g) S r = some S') : Inv g S' := by
  simp only [LocalRanks.sync, Option.bind_eq_bind, Option.bind_eq_some_iff] at hst
  obtain ⟨o, ho, hst⟩ := hst
  have hm := synced_le_of_sync ho h.syncedAt
  split at hst
  · split at hst
    · next hn =>
      cases hst
      exact {
        h with
        unsyncedAt := fun v c k => by
          rw [h.unsyncedAt v c k, count_drop_of_sync ho, Order.call_none hn,
            if_neg fun hc => c.order_ne_group k hc.2, Nat.add_zero]
        syncedAt := hm }
    · next q key hc =>
      obtain ⟨t, ht, rfl⟩ := Option.map_eq_some_iff.mp hst
      obtain ⟨c, rfl, rfl⟩ := Order.call_eq hc
      rw [queueList_rank] at ht
      obtain ⟨-, hsig, -⟩ := rankQueues_spec c.getElem_rankQueues
      have hset := Laps.set_finish (f := fun y : Fin n × Nat => S.rank y.1 y.2) (x := (r, key)) ht
        (h.held_of_postedAt ho) h.onRank
      refine h.proceed hm (fun y => ⟨(hset y).1, fun j hj => ((hset y).2 j hj).1, fun s => ?_⟩)
        fun v d k => ?_
      · simp only [((hset y).2 _ s.rankStage_lt).2, hsig]
      · rw [h.unsyncedAt v d k, count_drop_of_sync ho, ((hset (v, k)).2 _ d.rankStage_lt).2]
        have hcond : ((v, k) = (r, key) ∧ d.rankStage = c.rankStage) ↔ v = r ∧ d.order k = c.order key := by
          rw [Call.order_inj, Prod.mk.injEq]
          cases c <;> cases d <;> simp [Call.rankStage]
        simp only [hcond]
        omega
  · cases hst

theorem Inv.take (h : Inv g S) {r : Fin n} {key : Nat} (hst : take (dist g) S r key = some S') : Inv g S' := by
  simp only [LocalRanks.take, Option.bind_eq_bind, Option.bind_eq_some_iff] at hst
  obtain ⟨q, hq, t, ht, hst⟩ := hst
  split at hst
  · next hg =>
    cases hst
    rw [queueList_rank] at hq
    obtain ⟨i, hp, hi⟩ := queuedAt_eq hq
    obtain ⟨-, -, htab, hcall⟩ := rankQueues_spec hi
    have hset := Laps.set_take (f := fun y : Fin n × Nat => S.rank y.1 y.2) (x := (r, key)) ht hp h.onRank
    have hne (c : Call) : c.rankStage ≠ i := fun hc => ncclOrder_none hg.1 c ((hcall c).mpr hc)
    exact {
      h with
      onRank := fun y => (hset y).1
      up := by
        obtain ⟨C, hC, hT⟩ := h.up
        exact ⟨C, hC, fun v s k => (((hset (v, k)).2 _).2).trans (hT v s k)⟩
      down := fun v d k => by
        have h1 := ((hset (v, k)).2 d.rankStage).1
        have h2 := h.down v d k
        simp only [State.setRank, State.clearAt] at h1 ⊢
        by_cases hc : v = r ∧ rankTable q = some d ∧ k = key
        · obtain ⟨rfl, hd, rfl⟩ := hc
          have h3 := hg.2 d hd
          rw [if_pos ⟨rfl, (htab d).mp hd⟩] at h1
          rw [if_pos ⟨rfl, hd, rfl⟩]
          omega
        · rw [if_neg fun hn => hc ⟨congrArg Prod.fst hn.1, (htab d).mpr hn.2, congrArg Prod.snd hn.1⟩] at h1
          rw [if_neg hc]
          omega
      call := fun v c k => by
        have h1 := ((hset (v, k)).2 c.rankStage).1
        rw [if_neg fun hc => hne c hc.2] at h1
        exact (h.call v c k).trans (congrArg (· + _) h1.symm)
      unsyncedAt := fun v c k => by
        have h1 := (hset (v, k)).2 c.rankStage
        rw [if_neg fun hc => hne c hc.2] at h1
        exact h1.1.trans ((h.unsyncedAt v c k).trans (congrArg (· + _) h1.2.symm)) }
  · cases hst

theorem Inv.nccl (h : Inv g S) {r : Fin n} (hst : nccl (dist g) S r = some S') : Inv g S' := by
  simp only [LocalRanks.nccl] at hst
  split at hst
  · cases hst
  · next o rest horders =>
    have hposts (v : Fin n) : Function.update S.posted r (S.posted r ++ [o]) v ++
        Function.update S.orders r rest v = S.rootPosted := by
      by_cases hv : v = r
      · subst hv
        rw [Function.update_self, Function.update_self, List.append_assoc, List.singleton_append, ← horders]
        exact h.posts v
      · rw [Function.update_of_ne hv, Function.update_of_ne hv]
        exact h.posts v
    have hcount (v : Fin n) (p : Order) : (S.orders v).count p =
        (Function.update S.orders r rest v).count p + if v = r ∧ p = o then 1 else 0 := by
      by_cases hv : v = r
      · subst hv
        rw [horders, List.count_cons, Function.update_self]
        exact congrArg (_ + ·) (if_congr ((beq_iff_eq.trans eq_comm).trans (and_iff_right rfl).symm) rfl rfl)
      · simp [hv]
    have hdrop := count_drop_of_post h.syncedAt r o
    have hlen := synced_le_of_post h.syncedAt r o
    split at hst
    · next hn =>
      cases hst
      have hg (v : Fin n) (c : Call) (k : Nat) : ¬(v = r ∧ c.order k = o) := fun hc =>
        c.order_ne_group k (hc.2.trans (Order.call_none hn))
      exact {
        h with
        call := fun v c k => by rw [h.call v c k, hcount, if_neg (hg v c k)]; rfl
        posts := hposts
        unsyncedAt := fun v c k => by
          refine (h.unsyncedAt v c k).trans (congrArg _ ?_)
          rw [hdrop, if_neg (hg v c k), Nat.add_zero]
        syncedAt := hlen }
    · next q key hc =>
      obtain ⟨c, rfl, rfl⟩ := Order.call_eq hc
      have hp := h.queued_of_order (r := r) (c := c) (k := key) (by rw [horders]; exact List.mem_cons_self)
      rw [queueList_rank, if_pos (by simp [queuedAt, hp, c.getElem_rankQueues])] at hst
      obtain ⟨t, ht, rfl⟩ := Option.map_eq_some_iff.mp hst
      have hset := Laps.set_take (f := fun y : Fin n × Nat => S.rank y.1 y.2) (x := (r, key)) ht hp h.onRank
      have hcond (v : Fin n) (d : Call) (k : Nat) :
          ((v, k) = (r, key) ∧ d.rankStage = c.rankStage) ↔ v = r ∧ d.order k = c.order key := by
        rw [Call.order_inj, Prod.mk.injEq]
        cases c <;> cases d <;> simp [Call.rankStage]
      exact {
        h with
        onRank := fun y => (hset y).1
        up := by
          obtain ⟨C, hC, hT⟩ := h.up
          exact ⟨C, hC, fun v s k => (((hset (v, k)).2 _).2).trans (hT v s k)⟩
        down := fun v d k => by
          have h1 := ((hset (v, k)).2 d.rankStage).1
          have hd : d.rankStage ≠ c.rankStage := by cases c <;> cases d <;> decide
          rw [if_neg fun hc => hd hc.2] at h1
          have h2 := h.down v d k
          simp only [State.setRank] at h1 ⊢
          omega
        call := fun v d k => by
          have h1 := ((hset (v, k)).2 d.rankStage).1
          have h2 := hcount v (d.order k)
          have h3 := h.call v d k
          simp only [hcond] at h1
          simp only [State.setRank]
          omega
        posts := hposts
        unsyncedAt := fun v d k => by
          have h1 := (hset (v, k)).2 d.rankStage
          have h2 := hdrop v (d.order k)
          have h3 := h.unsyncedAt v d k
          simp only [hcond] at h1
          simp only [State.setRank]
          omega
        syncedAt := hlen }

theorem count_eraseIdx {α : Type} [BEq α] [LawfulBEq α] [DecidableEq α] {l : List α} {i : Nat} {a : α} (h : l[i]? = some a) (b : α) :
    l.count b = (l.eraseIdx i).count b + if b = a then 1 else 0 := by
  obtain ⟨hi, rfl⟩ := List.getElem?_eq_some_iff.mp h
  rw [(List.getElem_cons_eraseIdx_perm hi).symm.count_eq b, List.count_cons]
  congr 1
  exact if_congr (beq_iff_eq.trans eq_comm) rfl rfl

theorem Inv.listen (h : Inv g S) {i : Nat} (hst : listen S i = some S') : Inv g S' := by
  simp only [LocalRanks.listen, Option.bind_eq_bind, Option.bind_eq_some_iff] at hst
  obtain ⟨⟨r, s, key⟩, hmsg, hst⟩ := hst
  dsimp only at hst
  obtain ⟨C, hC, hT⟩ := h.up
  have hle := h.finished_le r s key
  have hrC : r ∉ C s key := by
    intro hmem
    have h1 := hT r s key
    rw [if_pos hmem, count_eraseIdx hmsg, if_pos rfl] at h1
    omega
  have hlt : S.ready s key < n := by
    rw [hC]
    simpa using Finset.card_lt_univ_of_notMem hrC
  rw [if_pos hlt] at hst
  cases hst
  refine { h with up := ⟨fun s' k => if s' = s ∧ k = key then insert r (C s key) else C s' k, ?_, ?_⟩ }
  · intro s' k
    dsimp only
    split
    · rw [Finset.card_insert_of_notMem hrC, hC]
    · exact hC s' k
  · intro v s' k
    have h1 := hT v s' k
    rw [count_eraseIdx hmsg] at h1
    by_cases hc : s' = s ∧ k = key
    · obtain ⟨rfl, rfl⟩ := hc
      by_cases hv : v = r
      · subst hv
        simp_all
      · simp_all
    · have hne : (v, s', k) ≠ (r, s, key) := fun he => hc (by simp_all)
      simp only [if_neg hc, if_neg hne] at h1 ⊢
      omega

theorem Inv.copyListen (h : Inv g S) {r : Fin n} {i : Nat} (hst : copyListen S r i = some S') : Inv g S' := by
  simp only [LocalRanks.copyListen, Option.bind_eq_bind, Option.bind_eq_some_iff] at hst
  obtain ⟨⟨d, key⟩, hmsg, hst⟩ := hst
  dsimp only at hst
  have hlt : S.copyReady r d key < 1 := by
    have h1 := h.down r d key
    have h2 := h.taken_le r d key
    rw [count_eraseIdx hmsg, if_pos rfl] at h1
    omega
  rw [if_pos hlt] at hst
  cases hst
  refine { h with down := fun v d' k => ?_ }
  have h1 := h.down v d' k
  by_cases hv : v = r
  · subst hv
    rw [count_eraseIdx hmsg] at h1
    by_cases hc : d' = d ∧ k = key
    · obtain ⟨rfl, rfl⟩ := hc
      simp only [Function.update_self, and_self, if_true] at h1 ⊢
      omega
    · have hne : (d', k) ≠ (d, key) := fun he => hc (by simp_all)
      simp only [Function.update_self, if_neg hne, true_and, if_neg hc] at h1 ⊢
      omega
  · simp only [Function.update_of_ne hv, hv, false_and, if_false]
    exact h1

theorem inv_inductive (g : Options) (n : Nat) : (machine (dist g) n).Inductive (Inv g) where
  init := fun s hs => by rw [show s = State.init g.credits n from hs]; exact Inv.init
  step := fun S a S' h hst => by
    simp only [machine, LTS.ofFn, step, h.ok, Option.isSome_none, Bool.false_eq_true, if_false] at hst
    cases a with
    | enqueueRoot key => obtain ⟨t, ht, rfl⟩ := Option.map_eq_some_iff.mp hst; exact h.enqueueRoot ht
    | enqueue r key => obtain ⟨t, ht, rfl⟩ := Option.map_eq_some_iff.mp hst; exact h.enqueue ht
    | takeRoot key => exact h.takeRoot hst
    | finishRoot key => exact h.finishRoot hst
    | take r key => exact h.take hst
    | finish r key => exact h.finish hst
    | ncclRoot key => exact h.ncclRoot hst
    | groupRoot => exact h.groupRoot hst
    | nccl r => exact h.nccl hst
    | syncRoot => exact h.syncRoot hst
    | sync r => exact h.sync hst
    | listen i => exact h.listen hst
    | copyListen r i => exact h.copyListen hst

/-! ## The ranks keep in step -/

/-- How often the root's queue of a stage has handed out the task of a key. -/
def State.rootTook (S : State n) (k : Nat) (q : QueueType) : Nat := (S.root k).taken (rootQueues.idxOf q)

/-- How often a stage of the root is through with the task of a key. -/
def State.rootDid (S : State n) (k : Nat) (q : QueueType) : Nat := (S.root k).finished (rootQueues.idxOf q)

def State.took (S : State n) (r : Fin n) (k : Nat) (q : QueueType) : Nat :=
  (S.rank r k).taken (rankQueues.idxOf q)

def State.did (S : State n) (r : Fin n) (k : Nat) (q : QueueType) : Nat :=
  (S.rank r k).finished (rankQueues.idxOf q)

/-- No rank copies into the shared buffer before every other one has copied the result of the last
iteration out of it. -/
theorem Inv.took_le_did_succ (h : Inv g S) (r v : Fin n) (k : Nat) :
    S.took v k .copyD2H ≤ S.did r k .copyH2D + 1 := by
  have h1 := h.down v .doCopyD2H k
  have h2 := h.taken_le_finished r .contextPushReady k
  have h3 := (S.root k).taken_antitone (show 1 ≤ 2 by decide)
  have h4 : (S.rank r k).finished 1 ≤ (S.rank r k).finished 4 + 1 := by simp only [Laps.finished]; omega
  simp only [Up.rankStage, Up.rootStage, Down.rankStage, Down.rootStage] at h1 h2
  show (S.rank v k).taken 2 ≤ (S.rank r k).finished 4 + 1
  omega

/-- The same with the root as the one that writes or reads. -/
theorem Inv.root_took_le_did_succ (h : Inv g S) (r : Fin n) (k : Nat) :
    S.rootTook k .copyD2H ≤ S.did r k .copyH2D + 1 ∧ S.took r k .copyD2H ≤ S.rootDid k .copyH2D + 1 := by
  have h1 := h.down r .doCopyD2H k
  have h2 := h.taken_le_finished r .contextPushReady k
  have h3 := (S.root k).taken_antitone (show 1 ≤ 3 by decide)
  have h4 : (S.rank r k).finished 1 ≤ (S.rank r k).finished 4 + 1 := by simp only [Laps.finished]; omega
  have h5 : (S.root k).taken 2 ≤ (S.root k).finished 6 + 1 := by simp only [Laps.taken, Laps.finished]; omega
  simp only [Up.rankStage, Up.rootStage, Down.rankStage, Down.rootStage] at h1 h2
  constructor
  · show (S.root k).taken 3 ≤ (S.rank r k).finished 4 + 1
    omega
  · show (S.rank r k).taken 2 ≤ (S.root k).finished 6 + 1
    omega

/-- The root pushes what every rank has deposited, and no rank reads back before the pull is over
or takes part in the broadcast before it has read back. -/
theorem Inv.push_pull (h : Inv g S) (r : Fin n) (k : Nat) : S.rootTook k .push ≤ S.did r k .copyD2H ∧
    S.took r k .copyH2D ≤ S.rootDid k .pull ∧ S.rootTook k .broadcast ≤ S.did r k .copyH2D := by
  have h1 := h.taken_le_finished r .pushReady k
  have h2 := h.taken_le_finished r .bcastReady k
  have h3 := h.down r .doCopyH2D k
  have h4 := (S.rank r k).finished_antitone (show 2 ≤ 3 by decide)
  have h5 := (S.rank r k).finished_antitone (show 4 ≤ 5 by decide)
  have h6 := (S.root k).taken_le_finished (show 5 < 6 by decide)
  simp only [Up.rankStage, Up.rootStage, Down.rankStage, Down.rootStage] at h1 h2 h3
  refine ⟨?_, ?_, ?_⟩
  · show (S.root k).taken 4 ≤ (S.rank r k).finished 2
    omega
  · show (S.rank r k).taken 4 ≤ (S.root k).finished 5
    omega
  · show (S.root k).taken 7 ≤ (S.rank r k).finished 4
    omega

end Safety

/-- One rank beside the root, one iteration of key 0 up to the root's pull. -/
def upToPull : List (Act 1) :=
  [.enqueueRoot 0, .enqueue 0 0, .take 0 0, .finish 0 0, .listen 0, .ncclRoot 0, .groupRoot, .nccl 0, .nccl 0,
    .syncRoot, .sync 0, .listen 0, .takeRoot 0, .finishRoot 0, .takeRoot 0, .finishRoot 0, .copyListen 0 0,
    .take 0 0, .finish 0 0, .take 0 0, .finish 0 0, .listen 0, .takeRoot 0, .finishRoot 0, .takeRoot 0]

/-- Groups of four tasks, and credits for two tasks of 8 bytes. -/
def smallOptions : Options := ⟨4, true, 16, fun _ => 8⟩

section Single
variable {n : Nat} {S S' : State n} {g : Options}

def single (g : Options) : Cfg := ⟨g, false⟩

def singleQueues : List QueueType := [.coordinateReduce, .reduce, .coordinateBroadcast, .broadcast]

theorem queueList_single (g : Options) : queueList (single g) false = singleQueues := rfl

def Call.singleStage : Call → Nat
  | .reduce => 1
  | .broadcast => 3

theorem Call.singleStage_lt (c : Call) : c.singleStage < 4 := by cases c <;> decide

theorem singleQueues_spec {i : Nat} {q : QueueType} (h : singleQueues[i]? = some q) :
    i < 4 ∧ (signals q = some .contextPushReady ↔ 1 = i) ∧ ∀ c : Call, c.stage = q ↔ c.singleStage = i := by
  have hi : i < 4 := (List.getElem?_eq_some_iff.mp h).1
  refine ⟨hi, ?_⟩
  interval_cases i <;> cases h <;> exact ⟨by decide, fun c => by cases c <;> decide⟩

theorem singleRoot_table {t : Laps} {q : QueueType} (h : queuedAt (queueList (single g) true) t = some q) :
    rootTable q ≠ some .contextPushReady := by
  obtain ⟨i, -, hi⟩ := queuedAt_eq h
  have hlt : i < 2 := (List.getElem?_eq_some_iff.mp hi).1
  interval_cases i <;> cases hi <;> decide

/-- `CONTEXT_PUSH_READY` signals of a key in flight. -/
def State.flying (S : State n) (k : Nat) : Nat := S.toRoot.countP (·.2 = (.contextPushReady, k))

/-- Every REDUCE that a rank has finished is counted or in flight, unless it has failed the check. -/
structure Sent (S : State n) : Prop where
  onRank : ∀ y : Fin n × Nat, (S.rank y.1 y.2).On 4
  unsyncedAt : ∀ r (c : Call) k, (S.rank r k).taken c.singleStage =
    (S.rank r k).finished c.singleStage + ((S.posted r).drop (S.synced r)).count (c.order k)
  syncedAt : ∀ r, S.synced r ≤ (S.posted r).length
  sum : ∀ k, S.failed ≠ some (.readyCount .contextPushReady k) →
    S.ready .contextPushReady k + S.flying k = ∑ r, (S.rank r k).finished 1
  bound : ∀ k, S.ready .contextPushReady k ≤ n

theorem Sent.init (credits : BitVec 64) : Sent (State.init credits n) where
  onRank _ := Laps.on_start 4
  unsyncedAt _ _ _ := by simp [State.init, Laps.start, Laps.taken, Laps.finished, Laps.pos]
  syncedAt _ := Nat.le_refl _
  sum _ _ := by simp [State.init, State.flying, Laps.start, Laps.finished, Laps.pos]
  bound _ := Nat.zero_le _

theorem flying_send (S : State n) (r : Fin n) (o : Option Up) (key k : Nat) :
    (S.sendSignalToRoot r o key).flying k =
      S.flying k + if k = key ∧ o = some .contextPushReady then 1 else 0 := by
  cases o with
  | none => simp [State.sendSignalToRoot, State.flying]
  | some s =>
    simp only [State.sendSignalToRoot, State.flying, Option.map_some, Option.toList_some, List.countP_append,
      List.countP_singleton, Option.some.injEq, decide_eq_true_eq, Prod.mk.injEq]
    congr 1
    exact if_congr (by rw [and_comm, eq_comm (a := key)]) rfl rfl

theorem Sent.frame (h : Sent S) (hok : S.failed = none) (hrank : S'.rank = S.rank) (hposted : S'.posted = S.posted)
    (hsynced : S'.synced = S.synced) (htoRoot : S'.toRoot = S.toRoot)
    (hready : ∀ k, S'.ready .contextPushReady k = S.ready .contextPushReady k) : Sent S' where
  onRank := by rw [hrank]; exact h.onRank
  unsyncedAt := by rw [hrank, hposted, hsynced]; exact h.unsyncedAt
  syncedAt := by rw [hposted, hsynced]; exact h.syncedAt
  sum k _ := by rw [hrank, hready, State.flying, htoRoot]; exact h.sum k (by simp [hok])
  bound k := by rw [hready]; exact h.bound k

/-- A root queue of a single machine clears another table. -/
theorem ready_clear {q : QueueType} (hq : rootTable q ≠ some .contextPushReady) (key k : Nat) :
    (S.clear q key).ready .contextPushReady k = S.ready .contextPushReady k := by
  simp [State.clear, hq]

theorem sum_set {f : Fin n × Nat → Laps} {r : Fin n} {key k : Nat} {t : Laps} {p : Prop} [Decidable p]
    (h : ∀ v, (Laps.set f (r, key) t (v, k)).finished 1 =
      (f (v, k)).finished 1 + if (v, k) = (r, key) ∧ p then 1 else 0) :
    ∑ v, (Laps.set f (r, key) t (v, k)).finished 1 =
      ∑ v, (f (v, k)).finished 1 + if k = key ∧ p then 1 else 0 := by
  rw [Finset.sum_congr rfl fun v _ => h v, Finset.sum_add_distrib]
  congr 1
  by_cases hc : k = key ∧ p
  · simp [hc, Finset.sum_ite_eq']
  · rw [if_neg hc]
    exact Finset.sum_eq_zero fun v _ => if_neg fun h' => hc ⟨congrArg Prod.snd h'.1, h'.2⟩

/-- A rank goes on to its next queue, and then signals. -/
theorem Sent.proceed (h : Sent S) {r : Fin n} {key i : Nat} {m : Fin n → Nat} {t : Laps} {q : QueueType}
    (hm : ∀ v, m v ≤ (S.posted v).length) (hp : (S.rank r key).place = .held i) (hi : singleQueues[i]? = some q)
    (ht : (S.rank r key).finish 4 = some t)
    (hover : ∀ v (c : Call) k, ((S.posted v).drop (S.synced v)).count (c.order k) =
      ((S.posted v).drop (m v)).count (c.order k) + if (v, k) = (r, key) ∧ c.singleStage = i then 1 else 0) :
    Sent ((State.setRank { S with synced := m } r key t).sendSignalToRoot r (signals q) key) := by
  obtain ⟨-, hsig, -⟩ := singleQueues_spec hi
  have hset := Laps.set_finish (f := fun y : Fin n × Nat => S.rank y.1 y.2) (x := (r, key)) ht hp h.onRank
  exact {
    onRank := fun y => (hset y).1
    unsyncedAt := fun v c k => by
      have h1 := (hset (v, k)).2 _ c.singleStage_lt
      have h2 := h.unsyncedAt v c k
      have h3 := hover v c k
      simp only [State.sendSignalToRoot, State.setRank] at h1 ⊢
      omega
    syncedAt := hm
    sum := fun k hk => by
      have h1 := sum_set (p := 1 = i) fun v => ((hset (v, k)).2 1 (by decide)).2
      have h2 := h.sum k hk
      have h3 := flying_send (State.setRank { S with synced := m } r key t) r (signals q) key k
      simp only [hsig] at h3
      simp only [State.flying, State.sendSignalToRoot, State.setRank] at h1 h2 h3 ⊢
      omega
    bound := h.bound }

theorem Sent.enqueue (h : Sent S) {r : Fin n} {key : Nat} {t : Laps} (ht : (S.rank r key).enter = some t) :
    Sent (S.setRank r key t) := by
  have hset := Laps.set_enter (f := fun y : Fin n × Nat => S.rank y.1 y.2) (x := (r, key)) ht
    (show 0 < 4 by decide) h.onRank
  exact {
    h with
    onRank := fun y => (hset y).1
    unsyncedAt := fun v c k => by
      have h1 := (hset (v, k)).2 c.singleStage
      exact h1.1.trans ((h.unsyncedAt v c k).trans (congrArg (· + _) h1.2.symm))
    sum := fun k hk => (h.sum k hk).trans (Finset.sum_congr rfl fun v _ => ((hset (v, k)).2 1).2.symm) }

theorem Sent.take (h : Sent S) {r : Fin n} {key : Nat} (hst : take (single g) S r key = some S') : Sent S' := by
  simp only [LocalRanks.take, Option.bind_eq_bind, Option.bind_eq_some_iff] at hst
  obtain ⟨q, hq, t, ht, hst⟩ := hst
  split at hst
  · next hg =>
    cases hst
    rw [queueList_single] at hq
    obtain ⟨i, hp, hi⟩ := queuedAt_eq hq
    obtain ⟨-, -, hcall⟩ := singleQueues_spec hi
    have hset := Laps.set_take (f := fun y : Fin n × Nat => S.rank y.1 y.2) (x := (r, key)) ht hp h.onRank
    exact {
      h with
      onRank := fun y => (hset y).1
      unsyncedAt := fun v c k => by
        have hne : c.singleStage ≠ i := fun hc => ncclOrder_none hg.1 c ((hcall c).mpr hc)
        have h1 := (hset (v, k)).2 c.singleStage
        rw [if_neg fun hc => hne hc.2] at h1
        exact h1.1.trans ((h.unsyncedAt v c k).trans (congrArg (· + _) h1.2.symm))
      sum := fun k hk => (h.sum k hk).trans (Finset.sum_congr rfl fun v _ => ((hset (v, k)).2 1).2.symm) }
  · cases hst

theorem Sent.finish (h : Sent S) {r : Fin n} {key : Nat} (hst : finish (single g) S r key = some S') : Sent S' := by
  simp only [LocalRanks.finish, Option.bind_eq_bind, Option.bind_eq_some_iff] at hst
  obtain ⟨q, hq, t, ht, hst⟩ := hst
  split at hst
  · next hg =>
    cases hst
    rw [queueList_single] at hq ht
    obtain ⟨i, hp, hi⟩ := heldAt_eq hq
    obtain ⟨-, -, hcall⟩ := singleQueues_spec hi
    refine h.proceed h.syncedAt hp hi ht fun v c k => ?_
    rw [if_neg fun hc => ncclOrder_none hg c ((hcall c).mpr hc.2)]
    rfl
  · cases hst

theorem Sent.sync (h : Sent S) {r : Fin n} (hst : sync (single g) S r = some S') : Sent S' := by
  simp only [LocalRanks.sync, Option.bind_eq_bind, Option.bind_eq_some_iff] at hst
  obtain ⟨o, ho, hst⟩ := hst
  have hm := synced_le_of_sync ho h.syncedAt
  split at hst
  · split at hst
    · next hn =>
      cases hst
      exact {
        h with
        unsyncedAt := fun v c k => by
          rw [h.unsyncedAt v c k, count_drop_of_sync ho, Order.call_none hn,
            if_neg fun hc => c.order_ne_group k hc.2, Nat.add_zero]
        syncedAt := hm }
    · next q key hc =>
      obtain ⟨t, ht, rfl⟩ := Option.map_eq_some_iff.mp hst
      obtain ⟨c, rfl, rfl⟩ := Order.call_eq hc
      have hheld : (S.rank r key).place = .held c.singleStage := by
        have hmem : c.order key ∈ (S.posted r).drop (S.synced r) :=
          List.mem_of_getElem? (i := 0) (by simpa using ho)
        have hpos := List.count_pos_iff.mpr hmem
        have hover := h.unsyncedAt r c key
        exact Laps.held_of_lt (by omega)
      refine h.proceed hm hheld (by cases c <;> rfl) ht fun v d k => ?_
      rw [count_drop_of_sync ho]
      refine congrArg (_ + ·) (if_congr ?_ rfl rfl)
      rw [Call.order_inj, Prod.mk.injEq]
      cases c <;> cases d <;> simp [Call.singleStage]
  · cases hst

theorem Sent.nccl (h : Sent S) (hok : S.failed = none) {r : Fin n} (hst : nccl (single g) S r = some S') : Sent S' := by
  simp only [LocalRanks.nccl] at hst
  split at hst
  · cases hst
  · next o rest horders =>
    have hdrop := count_drop_of_post h.syncedAt r o
    have hlen := synced_le_of_post h.syncedAt r o
    split at hst
    · next hn =>
      cases hst
      exact {
        h with
        unsyncedAt := fun v c k => by
          refine (h.unsyncedAt v c k).trans (congrArg _ ?_)
          rw [hdrop, if_neg fun hc => c.order_ne_group k (hc.2.trans (Order.call_none hn)), Nat.add_zero]
        syncedAt := hlen }
    · next q key hc =>
      split at hst
      · next hq =>
        obtain ⟨c, rfl, rfl⟩ := Order.call_eq hc
        obtain ⟨t, ht, rfl⟩ := Option.map_eq_some_iff.mp hst
        rw [queueList_single] at hq
        obtain ⟨i, hp, hi⟩ := queuedAt_eq hq
        obtain ⟨-, -, hcall⟩ := singleQueues_spec hi
        have hset := Laps.set_take (f := fun y : Fin n × Nat => S.rank y.1 y.2) (x := (r, key)) ht hp h.onRank
        exact {
          h with
          onRank := fun y => (hset y).1
          unsyncedAt := fun v d k => by
            have h1 := (hset (v, k)).2 d.singleStage
            have h2 := hdrop v (d.order k)
            have h3 := h.unsyncedAt v d k
            have hcond : ((v, k) = (r, key) ∧ d.singleStage = i) ↔ v = r ∧ d.order k = c.order key := by
              rw [← (hcall c).mp rfl, Call.order_inj, Prod.mk.injEq]
              cases c <;> cases d <;> simp [Call.singleStage]
            simp only [hcond] at h1
            simp only [State.setRank]
            omega
          syncedAt := hlen
          sum := fun k hk => (h.sum k hk).trans (Finset.sum_congr rfl fun v _ => ((hset (v, k)).2 1).2.symm) }
      · cases hst
        exact h.frame hok rfl rfl rfl rfl fun _ => rfl

theorem Sent.listen (h : Sent S) (hok : S.failed = none) {i : Nat} (hst : listen S i = some S') : Sent S' := by
  simp only [LocalRanks.listen, Option.bind_eq_bind, Option.bind_eq_some_iff] at hst
  obtain ⟨⟨r, s, key⟩, hmsg, hst⟩ := hst
  dsimp only at hst
  have hsum (k : Nat) := h.sum k (by simp [hok])
  have hfly (k : Nat) : S.flying k = (S.toRoot.eraseIdx i).countP (·.2 = (.contextPushReady, k)) +
      if .contextPushReady = s ∧ k = key then 1 else 0 := by
    obtain ⟨hi, hget⟩ := List.getElem?_eq_some_iff.mp hmsg
    rw [State.flying, (List.getElem_cons_eraseIdx_perm hi).symm.countP_eq, List.countP_cons, hget]
    refine congrArg (_ + ·) (if_congr ?_ rfl rfl)
    rw [decide_eq_true_eq, Prod.mk.injEq, eq_comm, eq_comm (a := key)]
  split at hst
  · next hlt =>
    cases hst
    exact {
      h with
      sum := fun k _ => by
        rw [← hsum k, hfly]
        simp only [State.flying]
        split
        · next hc => obtain ⟨rfl, rfl⟩ := hc; omega
        · omega
      bound := fun k => by
        dsimp only
        split
        · omega
        · exact h.bound k }
  · cases hst
    exact {
      h with
      sum := fun k hk => by
        have hne : ¬ (.contextPushReady = s ∧ k = key) := fun hc => hk (by rw [hc.1, hc.2])
        rw [← hsum k, hfly, if_neg hne]
        rfl }

theorem sent_inductive (g : Options) (n : Nat) : (machine (single g) n).Inductive Sent where
  init := fun s hs => by rw [show s = State.init g.credits n from hs]; exact Sent.init g.credits
  step := fun S a S' h hst => by
    have hok : S.failed = none := by
      cases hf : S.failed with
      | none => rfl
      | some c => simp [machine, LTS.ofFn, step, hf] at hst
    simp only [machine, LTS.ofFn, step, hok, Option.isSome_none, Bool.false_eq_true, if_false] at hst
    cases a with
    | enqueueRoot key => obtain ⟨t, -, rfl⟩ := Option.map_eq_some_iff.mp hst; exact h.frame hok rfl rfl rfl rfl fun _ => rfl
    | enqueue r key => obtain ⟨t, ht, rfl⟩ := Option.map_eq_some_iff.mp hst; exact h.enqueue ht
    | takeRoot key =>
      simp only [takeRoot, Option.bind_eq_bind, Option.bind_eq_some_iff] at hst
      obtain ⟨q, hq, t, -, hst⟩ := hst
      split at hst
      · cases hst; exact h.frame hok rfl rfl rfl rfl (ready_clear (singleRoot_table hq) key)
      · cases hst
    | finishRoot key =>
      simp only [finishRoot, Option.bind_eq_bind, Option.bind_eq_some_iff] at hst
      obtain ⟨q, -, t, -, hst⟩ := hst
      split at hst
      · cases hst; exact h.frame hok rfl rfl rfl rfl fun _ => rfl
      · cases hst
    | take r key => exact h.take hst
    | finish r key => exact h.finish hst
    | ncclRoot key =>
      simp only [ncclRoot, Option.bind_eq_bind, Option.bind_eq_some_iff] at hst
      obtain ⟨q, hq, o, -, t, -, hst⟩ := hst
      split at hst
      · cases hst; exact h.frame hok rfl rfl rfl rfl (ready_clear (singleRoot_table hq) key)
      · cases hst
    | groupRoot =>
      simp only [groupRoot] at hst
      split at hst
      · cases hst; exact h.frame hok rfl rfl rfl rfl fun _ => rfl
      · cases hst
    | nccl r => exact h.nccl hok hst
    | syncRoot =>
      simp only [syncRoot, Option.bind_eq_bind, Option.bind_eq_some_iff] at hst
      obtain ⟨o, -, hst⟩ := hst
      split at hst
      · split at hst
        · cases hst; exact h.frame hok rfl rfl rfl rfl fun _ => rfl
        · obtain ⟨t, -, rfl⟩ := Option.map_eq_some_iff.mp hst
          exact h.frame hok rfl rfl rfl rfl fun _ => rfl
      · cases hst
    | sync r => exact h.sync hst
    | listen i => exact h.listen hok hst
    | copyListen r i =>
      simp only [copyListen, Option.bind_eq_bind, Option.bind_eq_some_iff] at hst
      obtain ⟨m, -, hst⟩ := hst
      split at hst <;> cases hst <;> exact h.frame hok rfl rfl rfl rfl fun _ => rfl

/-- **The table of `CONTEXT_PUSH` overflows on a single machine.** It counts every REDUCE that one of
the `n` other ranks has finished, up to the signals in flight, and is never cleared; so when the root
has received more than `n` of them for a key, `AddReadyCount` has failed its check. -/
theorem contextPush_overflow (g : Options) (n : Nat) (S : State n) (h : (machine (single g) n).Reachable S)
    (k : Nat) :
    (S.failed = none → S.ready .contextPushReady k + S.flying k = ∑ r, (S.rank r k).finished 1 ∧
      S.ready .contextPushReady k ≤ n) ∧
    (n + S.flying k < ∑ r, (S.rank r k).finished 1 → S.failed = some (.readyCount .contextPushReady k)) := by
  have hsent := (sent_inductive g n).reachable S h
  refine ⟨fun hok => ⟨hsent.sum k (by simp [hok]), hsent.bound k⟩, fun hmany => ?_⟩
  by_contra hne
  have hsum := hsent.sum k hne
  have hbound := hsent.bound k
  omega

end Single

/-- Both other ranks do `as`. -/
def both (as : Fin 2 → List (Act 2)) : List (Act 2) := as 0 ++ as 1

/-- A REDUCE or BROADCAST of key 0 with the stage before it, up to the sync threads. -/
def ncclRound : List (Act 2) :=
  both (fun r => [.take r 0, .finish r 0]) ++ [.listen 0, .listen 0, .ncclRoot 0, .groupRoot] ++
    both (fun r => [.nccl r, .nccl r]) ++ [.syncRoot, .syncRoot] ++ both fun r => [.sync r, .sync r]

/-- One iteration on a single machine with three ranks, and the REDUCE of a second. -/
def secondReduce : List (Act 2) :=
  let enqueue := Act.enqueueRoot 0 :: both fun r => [.enqueue r 0]
  enqueue ++ ncclRound ++ [.listen 0, .listen 0] ++ ncclRound ++ enqueue ++ ncclRound

theorem contextPush_overflow_three_ranks : ∃ S : State 2, (machine (single smallOptions) 2).Reachable S ∧
    (∀ r, (S.rank r 0).iter = 1) ∧ S.failed = some (.readyCount .contextPushReady 0) := by
  have hex : ∃ S, LTS.execute (LTS.guarded (step (single smallOptions)) fun _ _ _ => True) (State.init 16 2)
      (secondReduce ++ [.listen 0]) = some S ∧ (∀ r, (S.rank r 0).iter = 1) ∧
      2 + S.flying 0 < ∑ r, (S.rank r 0).finished 1 := ⟨_, rfl, by decide, by decide⟩
  obtain ⟨S, hS, hiter, hmany⟩ := hex
  have hr := (LTS.Reachable.of_execute
    (.init (M := (machine (single smallOptions) 2).restrict fun _ _ _ => True) rfl) hS).of_restrict
  exact ⟨S, hr, hiter, (contextPush_overflow smallOptions 2 S hr 0).2 hmany⟩

end Inca.L4.LocalRanks
