import Inca.L2Machine.ReadyTable
import Inca.L4App.Pipeline

/-!
# The scheduled queue (`common/scheduled_queue.cc`)

A queue of partitions with credits. `addTask` sorts, by priority and then by
key; `getTask` takes the first task whose event has fired, whose length is
within the credits and whose key is complete in the ready table; its length
is taken off the credits until `reportFinish` puts it back. Each of the three
holds the queue's lock from beginning to end, so one call is one step. Credits
are a `uint64_t` and lengths `unsigned int`; `reportFinish` gets an `int`.

The ready table and the tasks' events belong to other threads too, which
change them at any time, also while `getTask` goes through the queue: the
label of a call carries what they do before each of its tests. What
`recorderTs` writes for the profiler is left out.

* `inv_step`: credits, places of the tasks and the order of the queue.
* `queue_run`: over every run of a scheduled queue the credits and the lengths
  of the unfinished tasks add up to the initial credits, every task is queued,
  unfinished or finished, once, and `getTask` returns the first task it can.
* `getTask_pipeline`: as long as no other thread interferes, the call is the one
  of `Pipeline`.
-/
namespace Inca.L4.ScheduledQueue
open Inca.L2.ReadyTable
open Inca.L4.Pipeline (QueueType Task before AddTask withinCredits)

/-! ## The queue -/

/-- `rt` says whether `_rt` is set.
mirrors byteps/byteps/common/scheduled_queue.h:42-48 -/
structure Queue extends Pipeline.Queue where
  isScheduled : Bool
  qt : QueueType
  rt : Bool

/-- What the constructor asks for; `schedulingCredit` is the number in `BYTEPS_SCHEDULING_CREDIT`. -/
structure Env where
  isSignalRoot : Bool
  isCrossPcieSwitch : Bool
  isReducerRoot : Bool
  isRootDevice : Bool
  partitionBound : BitVec 32
  schedulingCredit : Option Int

/-- mirrors byteps/byteps/common/scheduled_queue.cc:49-88 -/
def Env.hasTable (env : Env) : QueueType → Bool
  | .reduce => env.isSignalRoot
  | .pcieReduce => env.isCrossPcieSwitch && env.isReducerRoot
  | .contextPush => env.isRootDevice
  | .compress => env.isRootDevice
  | .push => env.isRootDevice
  | .copyH2D => !env.isRootDevice
  | .copyD2H => !env.isRootDevice
  | .broadcast => env.isSignalRoot
  | _ => false

/-- mirrors byteps/byteps/common/scheduled_queue.cc:26-90 -/
def Queue.new (env : Env) (type : QueueType) : Queue :=
  let creditInPartition := BitVec.ofInt 64 (env.schedulingCredit.getD 0)
  let isScheduled := decide (type = .reduce) && env.isSignalRoot && creditInPartition != 0
  { sq := []
    credits := if isScheduled then env.partitionBound.setWidth 64 * creditInPartition else 34359738368
    isScheduled := isScheduled
    qt := type
    rt := env.hasTable type }

/-! ## What others share with it -/

section Shared
variable {α : Type}

/-- The ready table, and the fields of the tasks that change: `readyEvent`, by key, is `none` for a
null pointer and otherwise what `Ready()` says. -/
structure World (α : Type) where
  table : Table α
  readyEvent : Nat → Option Bool
  scale : Nat → α
  norm : Nat → α

/-- mirrors byteps/byteps/common/scheduled_queue.cc:160-176 -/
def World.load [LinearOrder α] (w : World α) (type : QueueType) (key : Nat) : World α :=
  match type with
  | .copyD2H => { w with scale := Function.update w.scale key (w.table.getKeyScale key) }
  | .contextPush => { w with scale := Function.update w.scale key (max (w.scale key) (w.table.getKeyScale key)) }
  | .push => { w with norm := Function.update w.norm key (max (w.norm key) (w.table.getKeyNorm key)) }
  | .copyH2D => { w with norm := Function.update w.norm key (w.table.getKeyNorm key) }
  | _ => w

/-- What `getTask` does to the table and to the task it takes.
mirrors byteps/byteps/common/scheduled_queue.cc:152-178, 190 -/
def World.take [LinearOrder α] [OrderBot α] (w : World α) (q : Queue) (key : Nat) : World α :=
  let w := if q.rt then
      let w := w.load q.qt key
      { w with table := w.table.clearReadyCount key }
    else w
  { w with readyEvent := Function.update w.readyEvent key none }

/-! ## The calls -/

/-- `sq` is what `std::sort` may make of the queue and a new entry; the call ends at a failed
check if the entry has no name.
mirrors byteps/byteps/common/scheduled_queue.cc:92-112 -/
def addTask (q : Queue) (entry : Task) (sq : List Task) : Option Queue :=
  if AddTask q.isScheduled q.sq entry sq then some { q with sq := sq } else none

/-- The tests of the loop.
mirrors byteps/byteps/common/scheduled_queue.cc:141-155 -/
def eligible (readyCount : Nat) (q : Queue) (w : World α) (t : Task) : Bool :=
  (w.readyEvent t.key).getD true && withinCredits q.isScheduled q.toQueue t &&
    (!q.rt || w.table.isKeyReady readyCount t.key)

/-- The loop over `l`, up to the first task that passes; `others i` is what other threads do before
the test of entry `i`. -/
def scan (readyCount : Nat) (q : Queue) : (Nat → World α → World α) → World α → List Task →
    Option Nat × World α
  | _, w, [] => (none, w)
  | others, w, t :: rest =>
    let w := others 0 w
    if eligible readyCount q w t then (some 0, w)
    else
      let r := scan readyCount q (fun i => others (i + 1)) w rest
      (r.1.map (· + 1), r.2)

/-- The outer `Option` is a failed check.
mirrors byteps/byteps/common/scheduled_queue.cc:135-193 -/
def getTask [LinearOrder α] [OrderBot α] (readyCount : Nat) (q : Queue) (w : World α)
    (others : Nat → World α → World α) : Option (Queue × World α × Option Task) :=
  match scan readyCount q others w q.sq with
  | (none, w) => some (q, w, none)
  | (some i, w) =>
    match q.sq[i]? with
    | none => some (q, w, none)
    | some task =>
      if task.tensorName = "" then none
      else some ({ q with sq := q.sq.eraseIdx i, credits := q.charge q.isScheduled task }, w.take q task.key, some task)

/-- mirrors byteps/byteps/common/scheduled_queue.cc:227-233 -/
def reportFinish (q : Queue) (size : BitVec 32) : Queue :=
  { q with toQueue := q.toQueue.reportFinish q.isScheduled size }

/-! ## Runs -/

/-- `added` is the history of `addTask`; a task that was returned is `unfinished` until
`reportFinish` is called for it. -/
structure State (α : Type) where
  queue : Queue
  world : World α
  added : List Task
  unfinished : List Task
  finished : List Task

inductive Act (α : Type)
  | addTask (entry : Task) (sq : List Task)
  | getTask (others : Nat → World α → World α)
  | reportFinish (task : Task)
  | others (f : World α → World α)

def step [LinearOrder α] [OrderBot α] (readyCount : Nat) (s : State α) : Act α → Option (State α)
  | .addTask entry sq =>
    (addTask s.queue entry sq).map fun queue => { s with queue := queue, added := entry :: s.added }
  | .getTask others =>
    (getTask readyCount s.queue s.world others).map fun (queue, world, task) =>
      { s with queue := queue, world := world, unfinished := task.toList ++ s.unfinished }
  | .reportFinish task =>
    if task ∈ s.unfinished then
      some { s with
        queue := reportFinish s.queue task.len
        unfinished := s.unfinished.erase task
        finished := task :: s.finished }
    else none
  | .others f => some { s with world := f s.world }

/-- The runs of a new queue. -/
def system (α : Type) [LinearOrder α] [OrderBot α] (readyCount : Nat) (env : Env) (type : QueueType) :
    LTS (State α) (Act α) :=
  .ofFn (fun s => ∃ w, s = ⟨.new env type, w, [], [], []⟩) (step readyCount)

/-- Keys are different and lengths below `2 ^ 31`. -/
def Disciplined (s : State α) (a : Act α) (_ : State α) : Prop :=
  match a with
  | .addTask entry _ => entry.key ∉ s.added.map Task.key ∧ entry.len.toNat < 2 ^ 31
  | _ => True

/-! ## What the loop finds -/

/-- The world at the test of entry `i`. -/
def worldAt (others : Nat → World α → World α) (w : World α) : Nat → World α
  | 0 => others 0 w
  | i + 1 => worldAt (fun j => others (j + 1)) (others 0 w) i

/-- The loop finds task `t` eligible when it comes to it. -/
def Sees (readyCount : Nat) (q : Queue) (w : World α) (others : Nat → World α → World α) (t : Task) : Prop :=
  ∃ i, q.sq[i]? = some t ∧ eligible readyCount q (worldAt others w i) t = true

theorem worldAt_alone (w : World α) (i : Nat) : worldAt (fun _ w => w) w i = w := by
  induction i with
  | zero => rfl
  | succ i ih => exact ih

/-- Without other threads the loop sees the world as it is. -/
theorem sees_alone {readyCount : Nat} {q : Queue} {w : World α} {t : Task} :
    Sees readyCount q w (fun _ w => w) t ↔ t ∈ q.sq ∧ eligible readyCount q w t = true := by
  simp only [Sees, worldAt_alone, exists_and_right, List.mem_iff_getElem?]

section Scan
variable {readyCount : Nat} {q : Queue} {others : Nat → World α → World α} {w : World α} {l : List Task}

theorem scan_none (h : (scan readyCount q others w l).1 = none) {i : Nat} {t : Task} (ht : l[i]? = some t) :
    eligible readyCount q (worldAt others w i) t = false := by
  induction l generalizing others w i with
  | nil => cases ht
  | cons u rest ih =>
    unfold scan at h
    simp only at h
    split at h
    · cases h
    · next hu =>
      cases i with
      | zero =>
        cases ht
        exact Bool.eq_false_iff.mpr hu
      | succ i => exact ih (Option.map_eq_none_iff.mp h) ht

/-- The loop stops at the first entry that passes. -/
theorem scan_some {n : Nat} (h : (scan readyCount q others w l).1 = some n) :
    (∃ t, l[n]? = some t ∧ eligible readyCount q (worldAt others w n) t = true) ∧
    ∀ i < n, ∀ t, l[i]? = some t → eligible readyCount q (worldAt others w i) t = false := by
  induction l generalizing others w n with
  | nil => cases h
  | cons u rest ih =>
    unfold scan at h
    simp only at h
    split at h
    · next hu =>
      cases h
      exact ⟨⟨u, rfl, hu⟩, fun i hi => absurd hi (Nat.not_lt_zero i)⟩
    · next hu =>
      obtain ⟨m, hm, rfl⟩ := Option.map_eq_some_iff.mp h
      obtain ⟨⟨t, ht, he⟩, hskip⟩ := ih hm
      refine ⟨⟨t, ht, he⟩, fun i hi v hv => ?_⟩
      cases i with
      | zero =>
        cases hv
        exact Bool.eq_false_iff.mpr hu
      | succ i => exact hskip i (Nat.lt_of_succ_lt_succ hi) v hv

end Scan

/-- What a call of `getTask` can do: find nothing, or take entry `i`. -/
inductive Got (readyCount : Nat) (q : Queue) (w : World α) (others : Nat → World α → World α) :
    Queue → World α → Option Task → Prop
  | nothing (w' : World α) (hnone : ∀ t, ¬ Sees readyCount q w others t) : Got readyCount q w others q w' none
  | task (i : Nat) (t : Task) (w' : World α) (hi : q.sq[i]? = some t)
      (helig : eligible readyCount q (worldAt others w i) t = true)
      (hskip : ∀ j < i, ∀ u, q.sq[j]? = some u → eligible readyCount q (worldAt others w j) u = false) :
      Got readyCount q w others
        { q with
          sq := q.sq.eraseIdx i
          credits := q.charge q.isScheduled t }
        w' (some t)

/-- What `getTask` returns comes before everything else that it finds eligible. -/
theorem Got.first {readyCount : Nat} {q q' : Queue} {w w' : World α} {others : Nat → World α → World α} {t : Task}
    (h : Got readyCount q w others q' w' (some t)) (hsorted : q.sq.Pairwise fun a b => before b a = false)
    (hkeys : (q.sq.map Task.key).Nodup) :
    Sees readyCount q w others t ∧ ∀ u, Sees readyCount q w others u → u ≠ t → before t u = true := by
  cases h with
  | task i _ _ hi helig hskip =>
    refine ⟨⟨i, hi, helig⟩, fun u hu hne => ?_⟩
    obtain ⟨j, hj, he⟩ := hu
    obtain ⟨hil, rfl⟩ := List.getElem?_eq_some_iff.mp hi
    obtain ⟨hjl, rfl⟩ := List.getElem?_eq_some_iff.mp hj
    have hij : i < j := by
      rcases Nat.lt_trichotomy i j with hlt | rfl | hgt
      · exact hlt
      · exact absurd rfl hne
      · rw [hskip j hgt _ hj] at he
        cases he
    -- sorted, and with different keys: the comparison decides
    have hle := List.pairwise_iff_getElem.mp hsorted i j hil hjl hij
    have hkey : q.sq[i].key ≠ q.sq[j].key := by
      have := List.pairwise_iff_getElem.mp hkeys i j (by simpa using hil) (by simpa using hjl) hij
      simpa using this
    unfold before at hle ⊢
    split at hle
    · next hp =>
      rw [if_pos hp.symm]
      simp only [decide_eq_false_iff_not, decide_eq_true_eq] at hle ⊢
      omega
    · next hp =>
      rw [if_neg (Ne.symm hp)]
      simp only [decide_eq_false_iff_not, decide_eq_true_eq] at hle ⊢
      omega

/-! ### Credits -/

theorem toNat_len (t : Task) : (t.len.setWidth 64).toNat = t.len.toNat := by
  have := t.len.isLt
  rw [BitVec.toNat_setWidth]
  omega

section Credits
variable {readyCount : Nat} {q : Queue} {w : World α} {t : Task} (hs : q.isScheduled = true)
  (he : eligible readyCount q w t = true)
include hs he

/-- A task that is eligible in a scheduled queue is within the credits. -/
theorem len_le_of_eligible : t.len.toNat ≤ q.credits.toNat := by
  simp only [eligible, withinCredits, hs, Bool.and_eq_true, Bool.not_true, Bool.false_or, Bool.not_eq_true',
    decide_eq_false_iff_not, BitVec.lt_def, toNat_len] at he
  omega

theorem toNat_charge : (q.charge q.isScheduled t).toNat = q.credits.toNat - t.len.toNat := by
  have hle := len_le_of_eligible hs he
  rw [← toNat_len t, ← BitVec.le_def] at hle
  rw [Pipeline.Queue.charge, if_pos hs, BitVec.toNat_sub_of_le hle, toNat_len]

end Credits

section Call
variable [LinearOrder α] [OrderBot α] {readyCount : Nat} {q : Queue} {w : World α}
  {others : Nat → World α → World α}

theorem getTask_got {q' : Queue} {w' : World α} {r : Option Task} (h : getTask readyCount q w others = some (q', w', r)) :
    Got readyCount q w others q' w' r := by
  unfold getTask at h
  split at h
  · next w'' hscan =>
    cases h
    refine .nothing _ ?_
    intro t ht
    obtain ⟨i, hi, he⟩ := ht
    rw [scan_none (by rw [hscan]) hi] at he
    cases he
  · next i w'' hscan =>
    obtain ⟨⟨t, ht, he⟩, hskip⟩ := scan_some (show (scan readyCount q others w q.sq).1 = some i by rw [hscan])
    simp only [ht] at h
    split at h
    · cases h
    · cases h
      exact .task i t _ ht he hskip

variable (readyCount w others) in
/-- The call does not fail if every task has a name. -/
theorem getTask_isSome (hname : ∀ t ∈ q.sq, t.tensorName ≠ "") : ∃ r, getTask readyCount q w others = some r := by
  unfold getTask
  split
  · exact ⟨_, rfl⟩
  · split
    · exact ⟨_, rfl⟩
    · next i w' hscan task htask =>
      simp only [hname task (List.mem_of_getElem? htask), if_false]
      exact ⟨_, rfl⟩

end Call

/-! ## Invariant -/

/-- `c` are the initial credits. -/
structure Inv (c : BitVec 64) (s : State α) : Prop where
  scheduled : s.queue.isScheduled = true
  credits : s.queue.credits.toNat + (s.unfinished.map fun t => t.len.toNat).sum = c.toNat
  sorted : s.queue.sq.Pairwise fun a b => before b a = false
  places : (s.queue.sq ++ (s.unfinished ++ s.finished)).Perm s.added
  keys : (s.added.map Task.key).Nodup
  named : ∀ t ∈ s.added, t.tensorName ≠ ""
  len_lt : ∀ t ∈ s.added, t.len.toNat < 2 ^ 31

namespace Inv
variable {c : BitVec 64} {s : State α} (h : Inv c s)
include h

theorem mem_added {t : Task} (ht : t ∈ s.queue.sq) : t ∈ s.added :=
  h.places.mem_iff.mp (List.mem_append_left _ ht)

theorem addTask {entry : Task} {sq : List Task} {q : Queue} (hq : addTask s.queue entry sq = some q)
    (hkey : entry.key ∉ s.added.map Task.key) (hlen : entry.len.toNat < 2 ^ 31) :
    Inv c { s with queue := q, added := entry :: s.added } := by
  unfold ScheduledQueue.addTask at hq
  split at hq
  · next hsort =>
    obtain ⟨hsort, hname⟩ := hsort
    obtain ⟨hperm, hpair⟩ := (if_pos h.scheduled).mp hsort
    cases hq
    refine ⟨h.scheduled, h.credits, hpair, ?_, List.nodup_cons.mpr ⟨hkey, h.keys⟩,
      List.forall_mem_cons.mpr ⟨hname, h.named⟩, List.forall_mem_cons.mpr ⟨hlen, h.len_lt⟩⟩
    calc sq ++ (s.unfinished ++ s.finished)
        |>.Perm ((s.queue.sq ++ [entry]) ++ (s.unfinished ++ s.finished)) := hperm.append_right _
      _ |>.Perm (entry :: (s.queue.sq ++ (s.unfinished ++ s.finished))) := by
        rw [List.append_assoc]
        exact List.perm_middle
      _ |>.Perm (entry :: s.added) := h.places.cons entry
  · cases hq

theorem getTask [LinearOrder α] [OrderBot α] {readyCount : Nat} {others : Nat → World α → World α}
    {q : Queue} {w : World α} {r : Option Task}
    (hq : getTask readyCount s.queue s.world others = some (q, w, r)) :
    Inv c { s with queue := q, world := w, unfinished := r.toList ++ s.unfinished } := by
  cases getTask_got hq with
  | nothing w' hnone => exact ⟨h.scheduled, h.credits, h.sorted, h.places, h.keys, h.named, h.len_lt⟩
  | task i t w' hi helig hskip =>
    have hcredits := h.credits
    have hle := len_le_of_eligible h.scheduled helig
    have hperm : (t :: s.queue.sq.eraseIdx i).Perm s.queue.sq := by
      obtain ⟨hlt, rfl⟩ := List.getElem?_eq_some_iff.mp hi
      exact List.getElem_cons_eraseIdx_perm hlt
    refine ⟨h.scheduled, ?_, h.sorted.sublist (List.eraseIdx_sublist _ _), ?_, h.keys, h.named, h.len_lt⟩
    · simp only [Option.toList_some, List.singleton_append, List.map_cons, List.sum_cons,
        toNat_charge h.scheduled helig]
      omega
    · show (s.queue.sq.eraseIdx i ++ (t :: s.unfinished ++ s.finished)).Perm s.added
      refine List.Perm.trans ?_ h.places
      exact List.perm_middle.trans (hperm.append_right _)

theorem reportFinish {task : Task} (ht : task ∈ s.unfinished) :
    Inv c { s with
      queue := reportFinish s.queue task.len
      unfinished := s.unfinished.erase task
      finished := task :: s.finished } := by
  have hmem : task ∈ s.added :=
    h.places.mem_iff.mp (List.mem_append_right _ (List.mem_append_left _ ht))
  have hperm := List.perm_cons_erase ht
  have hsum := (hperm.map fun t => t.len.toNat).sum_eq
  have hcredits := h.credits
  have hlen := h.len_lt task hmem
  have hc := c.isLt
  have hq : ScheduledQueue.reportFinish s.queue task.len =
      { s.queue with credits := s.queue.credits + task.len.signExtend 64 } := by
    rw [ScheduledQueue.reportFinish, Pipeline.Queue.reportFinish, if_pos h.scheduled]
  rw [hq]
  refine ⟨h.scheduled, ?_, h.sorted, ?_, h.keys, h.named, h.len_lt⟩
  · -- the length is not negative as an `int`, and the credits do not exceed the initial ones
    have hmsb : task.len.msb = false := by
      rw [BitVec.msb_eq_false_iff_two_mul_lt]
      omega
    have hext : (task.len.signExtend 64).toNat = task.len.toNat := by
      rw [BitVec.signExtend_eq_setWidth_of_msb_false hmsb, BitVec.toNat_setWidth]
      omega
    rw [List.map_cons, List.sum_cons] at hsum
    simp only [BitVec.toNat_add, hext]
    omega
  · refine List.Perm.trans ?_ h.places
    refine List.Perm.append_left _ ?_
    show (s.unfinished.erase task ++ task :: s.finished).Perm _
    exact List.perm_middle.trans (hperm.symm.append_right _)

end Inv

section Run
variable [LinearOrder α] [OrderBot α] {readyCount : Nat} {env : Env} {type : QueueType}

theorem inv_step {c : BitVec 64} {s s' : State α} {a : Act α} (h : Inv c s)
    (hs : step readyCount s a = some s') (hd : Disciplined s a s') : Inv c s' := by
  cases a with
  | addTask entry sq =>
    obtain ⟨q, hq, rfl⟩ := Option.map_eq_some_iff.mp hs
    exact h.addTask hq hd.1 hd.2
  | getTask others =>
    obtain ⟨⟨q, w, r⟩, hq, rfl⟩ := Option.map_eq_some_iff.mp hs
    exact h.getTask hq
  | reportFinish task =>
    simp only [step] at hs
    split at hs
    · next ht =>
      cases hs
      exact h.reportFinish ht
    · cases hs
  | others f =>
    cases hs
    exact ⟨h.scheduled, h.credits, h.sorted, h.places, h.keys, h.named, h.len_lt⟩

theorem inv_reachable (hsched : (Queue.new env type).isScheduled = true) {s : State α}
    (hs : ((system α readyCount env type).restrict Disciplined).Reachable s) :
    Inv (Queue.new env type).credits s := by
  have hind : ((system α readyCount env type).restrict Disciplined).Inductive
      (Inv (Queue.new env type).credits) := by
    refine ⟨?_, fun s a s' h hst => inv_step h hst.1 hst.2⟩
    intro s hs
    obtain ⟨w, rfl⟩ := hs
    exact ⟨hsched, rfl, List.Pairwise.nil, .refl _, List.nodup_nil, by simp, by simp⟩
  exact hind.reachable s hs

/-- **Scheduled queue.** In every run in which keys are different, lengths below `2 ^ 31`, and
`reportFinish` is called for a task that was returned, once: the credits and the lengths of the
unfinished tasks add up to the initial credits; every added task is in the queue, unfinished or
finished, in one of them and once; and a call of `getTask` returns the first task, by priority and
key, of those it finds eligible, or nothing if there are none. -/
theorem queue_run (hsched : (Queue.new env type).isScheduled = true) {s : State α}
    (hs : ((system α readyCount env type).restrict Disciplined).Reachable s) :
    s.queue.credits.toNat + (s.unfinished.map fun t => t.len.toNat).sum =
        (Queue.new env type).credits.toNat ∧
    s.added.Nodup ∧ (s.queue.sq ++ (s.unfinished ++ s.finished)).Perm s.added ∧
    ∀ others, ∃ q w r, getTask readyCount s.queue s.world others = some (q, w, r) ∧
      (r = none ↔ ∀ t, ¬ Sees readyCount s.queue s.world others t) ∧
      ∀ t, r = some t → Sees readyCount s.queue s.world others t ∧
        ∀ u, Sees readyCount s.queue s.world others u → u ≠ t → before t u = true := by
  have h := inv_reachable hsched hs
  refine ⟨h.credits, h.keys.of_map _, h.places, fun others => ?_⟩
  obtain ⟨⟨q, w, r⟩, hq⟩ := getTask_isSome readyCount s.world others
    fun t ht => h.named t (h.mem_added ht)
  have hgot := getTask_got hq
  have hkeys : (s.queue.sq.map Task.key).Nodup := by
    have := (h.places.map Task.key).nodup_iff.mpr h.keys
    rw [List.map_append] at this
    exact this.of_append_left
  refine ⟨q, w, r, hq, ?_, ?_⟩
  · cases r with
    | none =>
      cases hgot with
      | nothing w' hnone => exact ⟨fun _ => hnone, fun _ => rfl⟩
    | some t =>
      have hsees := (hgot.first h.sorted hkeys).1
      exact ⟨fun hr => (Option.some_ne_none t hr).elim, fun hnone => absurd hsees (hnone t)⟩
  · intro t ht
    subst ht
    exact hgot.first h.sorted hkeys

/-! ### Two partitions -/

instance (s : State α) (a : Act α) (s' : State α) : Decidable (Disciplined s a s') :=
  match a with
  | .addTask entry _ => inferInstanceAs (Decidable (entry.key ∉ s.added.map Task.key ∧ entry.len.toNat < 2 ^ 31))
  | .getTask _ => isTrue trivial
  | .reportFinish _ => isTrue trivial
  | .others _ => isTrue trivial

end Run
end Shared

/-- Credits for one partition of 4096 bytes. -/
def onePartition : Env := ⟨true, false, false, true, 4096, some 1⟩

def low : Task := ⟨(0, 0), "g0_0", 0, -1, 4096⟩

def high : Task := ⟨(1, 0), "g1_0", 65536, 0, 4096⟩

/-- No counts, no events. -/
def quiet : World Nat := ⟨⟨fun _ => 0, fun _ => 0, fun _ => 0⟩, fun _ => none, fun _ => 0, fun _ => 0⟩

/-- Both tasks are added, `low` first, and one call returns a task. -/
def twoTasks : List (Act Nat) := [.addTask low [low], .addTask high [high, low], .getTask fun _ w => w]

/-- The one of higher priority is returned first, and the other one has to wait for its credits. -/
theorem queue_run_two : ∃ s, LTS.execute (LTS.guarded (step 0) Disciplined)
      ⟨.new onePartition .reduce, quiet, [], [], []⟩ twoTasks = some s ∧
    s.unfinished = [high] ∧ s.queue.sq = [low] ∧
    s.queue.credits.toNat + 4096 = 4096 ∧
    ∃ q w, getTask 0 s.queue s.world (fun _ w => w) = some (q, w, none) := by
  have hrun : ∃ s, LTS.execute (LTS.guarded (step 0) Disciplined)
      ⟨.new onePartition .reduce, quiet, [], [], []⟩ twoTasks = some s ∧
      s.unfinished = [high] ∧ s.queue.sq = [low] := ⟨_, rfl, rfl, rfl⟩
  obtain ⟨s, hs, hunf, hsq⟩ := hrun
  have hreach : ((system Nat 0 onePartition .reduce).restrict Disciplined).Reachable s :=
    LTS.Reachable.of_execute (.init ⟨quiet, rfl⟩) hs
  obtain ⟨hcredits, -, -, hget⟩ := queue_run (by decide) hreach
  rw [hunf] at hcredits
  have h0 : s.queue.credits.toNat = 0 := by
    have : (Queue.new onePartition .reduce).credits.toNat = 4096 := by decide
    rw [this] at hcredits
    simpa [high] using hcredits
  obtain ⟨q, w, r, hr, hnone, -⟩ := hget fun _ w => w
  refine ⟨s, hs, hunf, hsq, by omega, q, w, ?_⟩
  rw [hr, hnone.mpr]
  intro t ht
  obtain ⟨hmem, he⟩ := sees_alone.mp ht
  have hle := len_le_of_eligible (inv_reachable (by decide) hreach).scheduled he
  rw [hsq, List.mem_singleton] at hmem
  rw [h0, hmem] at hle
  exact absurd hle (by decide)

/-! ## The queue of `Pipeline` -/

/-- What the event and the table say of a task. -/
def readyIn {α : Type} (readyCount : Nat) (q : Queue) (w : World α) (t : Task) : Bool :=
  (w.readyEvent t.key).getD true && (!q.rt || w.table.isKeyReady readyCount t.key)

section Refinement
variable {α : Type} {readyCount : Nat} {q : Queue} {w : World α}

/-- What a call returns, in terms of the list. -/
theorem Got.find {q' : Queue} {w' : World α} {r : Option Task} (h : Got readyCount q w (fun _ w => w) q' w' r) :
    q.sq.find? (eligible readyCount q w) = r ∧
    ∀ t, r = some t → q' = { q with
      sq := q.sq.eraseP (eligible readyCount q w)
      credits := q.charge q.isScheduled t } := by
  cases h with
  | nothing w' hnone =>
    refine ⟨List.find?_eq_none.mpr ?_, fun t ht => by cases ht⟩
    intro t ht he
    exact hnone t (sees_alone.mpr ⟨ht, he⟩)
  | task i t w' hi helig hskip =>
    obtain ⟨hlt, hget⟩ := List.getElem?_eq_some_iff.mp hi
    simp only [worldAt_alone] at helig hskip
    have hfirst : ∀ j (hj : j < i), (!eligible readyCount q w q.sq[j]) = true := by
      intro j hj
      rw [hskip j hj _ (List.getElem?_eq_getElem (Nat.lt_trans hj hlt))]
      rfl
    refine ⟨List.find?_eq_some_iff_getElem.mpr ⟨helig, i, hlt, hget, hfirst⟩, fun u hu => ?_⟩
    cases hu
    have hidx : q.sq.findIdx? (eligible readyCount q w) = some i := by
      rw [List.findIdx?_eq_some_iff_getElem]
      refine ⟨hlt, by rw [hget]; exact helig, fun j hj => ?_⟩
      simpa using hfirst j hj
    rw [List.eraseP_eq_eraseIdx, hidx]

/-- **Refinement.** While no other thread interferes, a call is the call of `Pipeline`. -/
theorem getTask_pipeline [LinearOrder α] [OrderBot α] (hname : ∀ t ∈ q.sq, t.tensorName ≠ "") :
    (getTask readyCount q w fun _ w => w).map (fun r => r.2.2.map fun t => (t, r.1.toQueue)) =
      some (Pipeline.getTask q.isScheduled (readyIn readyCount q w) q.toQueue) := by
  obtain ⟨⟨q', w', r⟩, hget⟩ := getTask_isSome readyCount w (fun _ w => w) hname
  obtain ⟨hfind, hq'⟩ := (getTask_got hget).find
  -- the test of `Pipeline` is the test of the loop
  have hp : (fun task => readyIn readyCount q w task && withinCredits q.isScheduled q.toQueue task) =
      eligible readyCount q w := by
    funext t
    rw [readyIn, eligible, Bool.and_right_comm]
  rw [hget, Option.map_some, Option.some_inj, Pipeline.getTask, hp, hfind]
  cases r with
  | none => rfl
  | some t =>
    have hsome := hname t (List.mem_of_find?_eq_some hfind)
    simp [hsome, hq' t rfl]

end Refinement
end Inca.L4.ScheduledQueue
