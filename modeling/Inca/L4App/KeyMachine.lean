import Inca.L4App.Server

/-!
# Workers, the server, and the machine of one key

`Sys` is the server in synchronous, non-blocking mode with `n` workers. For
each key a worker sends its init push and waits for the ack, then (if the
key is compressed) registers a compressor and waits, and then repeats: push,
ack, pull, response. A request reaches the server at any time after the
worker may send it, and an engine thread takes its next message at any time.

Keys meet only in the queues of the engine threads. `View` is what the server
and the workers hold for one key, without thread numbers, and `KStep` how one
key moves on its own; a step of another key can at most reorder its messages,
and only with scheduling.

* `threads_inductive`: what a key has, it has on the thread `GetThreadID`
  gave it.
* `step_view`: a step of the system is a step of every key's machine.
* `view_reachable`: so the view of each key is reachable in its machine, also
  in runs cut down to the steps that meet a condition.
-/
namespace Inca.L4.KeyMachine
open Inca.L2 Inca.L4.Server
open PriorityQueue (Reorder ofKey)

/-- Synchronous, non-blocking mode. -/
def syncConfig (n engineThreadNum : Nat) (enableSchedule : Bool) : Config :=
  ⟨n, engineThreadNum, true, false, enableSchedule⟩

/-! ## Workers -/

/-- Where a worker is with a key: about to send, or waiting for the response; `j` counts the
rounds. -/
inductive Phase
  | init
  | initWait
  | reg
  | regWait
  | push (j : Nat)
  | pushWait (j : Nat)
  | pull (j : Nat)
  | pullWait (j : Nat)
deriving DecidableEq

/-- What the workers send. -/
structure Inputs (E : Type) (n : Nat) where
  dtype : Nat → Nat
  len : Nat → Nat
  initVals : Fin n → Nat → Nat → E
  /-- whether the workers register a compressor for a key -/
  registers : Nat → Bool
  content : Nat → List Char
  pushLen : Fin n → Nat → Nat → Nat
  /-- worker, key, round, element -/
  vals : Fin n → Nat → Nat → Nat → E

variable {E σ : Type} {n : Nat}

/-- The request a worker is about to send, and how it waits. -/
def Inputs.request (inp : Inputs E n) (w : Fin n) (key : Nat) :
    Phase → Option (KVMeta (Fin n) × Request E × Phase)
  | .init => some (⟨w, 0⟩, .push (inp.dtype key) (inp.len key) (inp.initVals w key), .initWait)
  | .reg => some (⟨w, 0⟩, .register (inp.content key), .regWait)
  | .push j => some (⟨w, j⟩, .push (inp.dtype key) (inp.pushLen w key j) (inp.vals w key j), .pushWait j)
  | .pull j => some (⟨w, j⟩, .pull, .pullWait j)
  | _ => none

section Requests
variable {inp : Inputs E n} {w : Fin n} {key : Nat} {p p' : Phase} {req : KVMeta (Fin n)}

theorem request_register {content : List Char} (h : inp.request w key p = some (req, .register content, p')) :
    p = .reg ∧ req = ⟨w, 0⟩ ∧ p' = .regWait := by
  cases p <;> simp_all [Inputs.request]

theorem request_push {dtype len : Nat} {vals : Nat → E}
    (h : inp.request w key p = some (req, .push dtype len vals, p')) :
    (p = .init ∧ req = ⟨w, 0⟩ ∧ len = inp.len key ∧ p' = .initWait) ∨
    ∃ j, p = .push j ∧ req = ⟨w, j⟩ ∧ len = inp.pushLen w key j ∧ vals = inp.vals w key j ∧
      p' = .pushWait j := by
  cases p <;> simp_all [Inputs.request]

theorem request_pull (h : inp.request w key p = some (req, .pull, p')) :
    ∃ j, p = .pull j ∧ req = ⟨w, j⟩ ∧ p' = .pullWait j := by
  cases p <;> simp_all [Inputs.request]

end Requests

/-- An ack arrives. -/
def Phase.onPush (registers : Bool) : Phase → Phase
  | .initWait => if registers then .reg else .push 0
  | .regWait => .push 0
  | .pushWait j => .pull j
  | p => p

/-- A pull response arrives. -/
def Phase.onPull : Phase → Phase
  | .pullWait j => .push (j + 1)
  | p => p

/-- The pushes of a worker that were handled. -/
def Phase.pushed : Phase → Nat
  | .push j | .pushWait j => j
  | .pull j | .pullWait j => j + 1
  | _ => 0

/-- The pulls of a worker that were answered. -/
def Phase.answered : Phase → Nat
  | .push j | .pushWait j | .pull j | .pullWait j => j
  | _ => 0

/-- Pushing and pulling, and not in the middle of a push. -/
def Phase.Running : Phase → Prop
  | .push _ | .pull _ | .pullWait _ => True
  | _ => False

theorem Phase.pushed_le (p : Phase) : p.pushed ≤ p.answered + 1 := by
  cases p <;> simp [pushed, answered]

/-- The workers on one key, with what happened: the `ALL_RECV` messages executed and the
responses sent. -/
structure KeyRun (E : Type) (n : Nat) where
  phase : Fin n → Phase
  allRecv : Nat
  log : List (Response E (Fin n))

namespace KeyRun

def start : KeyRun E n := ⟨fun _ => .init, 0, []⟩

def wait (r : KeyRun E n) (w : Fin n) (p : Phase) : KeyRun E n :=
  { r with phase := Function.update r.phase w p }

@[simp] theorem wait_allRecv (r : KeyRun E n) (w : Fin n) (p : Phase) : (r.wait w p).allRecv = r.allRecv := rfl
@[simp] theorem wait_log (r : KeyRun E n) (w : Fin n) (p : Phase) : (r.wait w p).log = r.log := rfl

def receive (registers : Bool) (r : KeyRun E n) (resp : Response E (Fin n)) : KeyRun E n :=
  match resp with
  | .push _ req => { r with
      phase := Function.update r.phase req.sender ((r.phase req.sender).onPush registers)
      log := r.log ++ [resp] }
  | .pull _ req _ _ => { r with
      phase := Function.update r.phase req.sender (r.phase req.sender).onPull
      log := r.log ++ [resp] }

def receiveAll (registers : Bool) (r : KeyRun E n) (resps : List (Response E (Fin n))) : KeyRun E n :=
  resps.foldl (receive registers) r

def executed (r : KeyRun E n) (b : Body E) : KeyRun E n :=
  if b.ops = .allRecv then { r with allRecv := r.allRecv + 1 } else r

end KeyRun

/-! ## The system -/

structure Sys (E : Type) (n : Nat) (σ : Type) where
  srv : State E (Fin n) σ
  run : Nat → KeyRun E n

def Sys.init (cfg : Config) : Sys E n σ := ⟨.init cfg, fun _ => .start⟩

inductive Act (n : Nat)
  | req (w : Fin n) (key : Nat)
  | engine (i : Nat)

section System
variable [Add E] [Zero E] (cfg : Config) (C : Compressor E σ) (inp : Inputs E n)

/-- A request of a worker reaches the handler, or an engine thread takes a message. -/
def step (S : Sys E n σ) : Act n → Option (Sys E n σ)
  | .req w key => do
    let (req, body, waiting) ← inp.request w key ((S.run key).phase w)
    let (srv, resps) ← handler cfg C S.srv key req body
    some ⟨srv, Function.update S.run key
      (((S.run key).wait w waiting).receiveAll (inp.registers key) resps)⟩
  | .engine i => do
    let (msg, _) ← (S.srv.engineQueues i).waitAndPop
    let (srv, resps) ← engineThread cfg C S.srv i
    some ⟨srv, Function.update S.run msg.key
      (((S.run msg.key).executed msg.body).receiveAll (inp.registers msg.key) resps)⟩

def sys : LTS (Sys E n σ) (Act n) := .ofFn (· = .init cfg) (step cfg C inp)

/-! ## The machine of one key -/

/-- What the server and the workers hold for one key. -/
structure View (E : Type) (n : Nat) (σ : Type) where
  key : KeyState E (Fin n) σ
  flags : Flags (Fin n)
  msgs : List (Body E)
  run : KeyRun E n

inductive KAct (E : Type) (n : Nat)
  | req (w : Fin n)
  | engine (b : Body E)
  | other

/-- One step of a key: a request of it, a message of it, or a step of another key. -/
inductive KStep (k : Nat) : View E n σ → KAct E n → View E n σ → Prop
  | register {v : View E n σ} {w : Fin n} {req : KVMeta (Fin n)} {content : List Char} {p : Phase}
      {key : KeyState E (Fin n) σ} {resps : List (Response E (Fin n))} :
      inp.request w k (v.run.phase w) = some (req, .register content, p) →
      handleRegister cfg C k v.key req content = some (key, resps) →
      KStep k v (.req w) { v with
        key := key, run := (v.run.wait w p).receiveAll (inp.registers k) resps }
  | pushInit {v : View E n σ} {w : Fin n} {req : KVMeta (Fin n)} {dtype len : Nat} {vals : Nat → E} {p : Phase} :
      inp.request w k (v.run.phase w) = some (req, .push dtype len vals, p) →
      v.key.stored.tensor = none →
      KStep k v (.req w) { v with
        key := (handleInit cfg k v.key req dtype len vals).1
        run := (v.run.wait w p).receiveAll (inp.registers k) (handleInit cfg k v.key req dtype len vals).2 }
  | push {v : View E n σ} {w : Fin n} {req : KVMeta (Fin n)} {dtype len : Nat} {vals store : Nat → E} {p : Phase}
      {key key' : KeyState E (Fin n) σ} {recv round msgs : List (Body E)} :
      inp.request w k (v.run.phase w) = some (req, .push dtype len vals, p) →
      v.key.stored.tensor = some store →
      handleRecv cfg v.key store len vals = some (key, recv) →
      handleRound cfg key store req len = some (key', round) →
      Reorder cfg.enableSchedule (v.msgs ++ (recv ++ round)) msgs →
      KStep k v (.req w) { v with
        key := key', msgs := msgs
        run := (v.run.wait w p).receiveAll (inp.registers k) [.push k req] }
  | pull {v : View E n σ} {w : Fin n} {req : KVMeta (Fin n)} {p : Phase} {resp : Response E (Fin n)} :
      inp.request w k (v.run.phase w) = some (req, .pull, p) →
      v.flags.isPushFinished = true → req.sender ∉ v.flags.seenSender →
      sendPullResponse k v.key req = some resp →
      KStep k v (.req w) { v with
        flags := if (v.flags.see req.sender).pullCnt = cfg.numWorkers then (v.flags.see req.sender).reset
          else v.flags.see req.sender
        run := (v.run.wait w p).receiveAll (inp.registers k) [resp] }
  | pullWait {v : View E n σ} {w : Fin n} {req : KVMeta (Fin n)} {p : Phase} :
      inp.request w k (v.run.phase w) = some (req, .pull, p) →
      ¬ (v.flags.isPushFinished = true ∧ req.sender ∉ v.flags.seenSender) →
      KStep k v (.req w) { v with
        flags := { v.flags with qPullReqmeta := v.flags.qPullReqmeta ++ [req] }
        run := v.run.wait w p }
  | engine {v : View E n σ} {b : Body E} {msgs : List (Body E)} {key : KeyState E (Fin n) σ}
      {flags : Flags (Fin n)} {resps : List (Response E (Fin n))} :
      Reorder cfg.enableSchedule v.msgs (b :: msgs) →
      runMessage cfg C k v.key v.flags b = some (key, flags, resps) →
      KStep k v (.engine b)
        ⟨key, flags, msgs, (v.run.executed b).receiveAll (inp.registers k) resps⟩
  | other {v : View E n σ} {msgs : List (Body E)} :
      Reorder cfg.enableSchedule v.msgs msgs → KStep k v .other { v with msgs := msgs }

def View.init : View E n σ := ⟨.empty, .empty, [], .start⟩

def keySys (k : Nat) : LTS (View E n σ) (KAct E n) := ⟨(· = .init), KStep cfg C inp k⟩

end System

/-! ## The view of a key -/

/-- The messages of a key in a queue. -/
def bodies (k : Nat) (q : PriorityQueue (Body E)) : List (Body E) :=
  q.queue.filterMap fun m => if m.key = k then some m.body else none

/-- A key without thread has no flags and no messages. -/
def view (S : Sys E n σ) (k : Nat) : View E n σ where
  key := S.srv.keys k
  flags := (S.srv.hashCache k).elim .empty fun tid => S.srv.flags tid k
  msgs := (S.srv.hashCache k).elim [] fun tid => bodies k (S.srv.engineQueues tid)
  run := S.run k

/-- What a key has, it has on its own thread. -/
def OwnThread (s : State E (Fin n) σ) (k : Nat) : Prop :=
  ∀ i, s.hashCache k ≠ some i → s.flags i k = .empty ∧ bodies k (s.engineQueues i) = []

structure Threads (enableSchedule : Bool) (s : State E (Fin n) σ) : Prop where
  own : ∀ k, OwnThread s k
  schedule : ∀ i, (s.engineQueues i).enableSchedule = enableSchedule

/-- A step that is not about `k` leaves it alone, up to the order of its messages. -/
structure Frame (enableSchedule : Bool) (s s' : State E (Fin n) σ) (k : Nat) : Prop where
  keys : s'.keys k = s.keys k
  hashCache : s'.hashCache k = s.hashCache k
  flags : ∀ i, s'.flags i k = s.flags i k
  bodies : ∀ i, Reorder enableSchedule (bodies k (s.engineQueues i)) (bodies k (s'.engineQueues i))

theorem Frame.own {b : Bool} {s s' : State E (Fin n) σ} {k : Nat} (hf : Frame b s s' k) (h : OwnThread s k) :
    OwnThread s' k := by
  intro i hi
  rw [hf.hashCache] at hi
  obtain ⟨hfl, hb⟩ := h i hi
  refine ⟨(hf.flags i).trans hfl, ?_⟩
  have := (hf.bodies i).perm
  rw [hb] at this
  exact this.nil_eq.symm

/-! ### What the queue calls do to the messages of a key -/

theorem bodies_push (k : Nat) (q : PriorityQueue (Body E)) (m : EngineMessage (Body E)) :
    Reorder q.enableSchedule (bodies k q ++ if m.key = k then [m.body] else []) (bodies k (q.push m)) := by
  have h := (PriorityQueue.push_reorder q m).filterMap fun m => if m.key = k then some m.body else none
  unfold bodies
  by_cases hk : m.key = k <;> simpa [hk] using h

theorem bodies_waitAndPop (k : Nat) {q q' : PriorityQueue (Body E)} {m : EngineMessage (Body E)}
    (h : q.waitAndPop = some (m, q')) :
    Reorder q.enableSchedule (bodies k q) ((if m.key = k then [m.body] else []) ++ bodies k q') := by
  have h := (PriorityQueue.waitAndPop_reorder h).filterMap fun m => if m.key = k then some m.body else none
  unfold bodies
  by_cases hk : m.key = k <;> simpa [hk] using h

theorem bodies_enqueue (tid key k : Nat) (s : State E (Fin n) σ) (b : Body E) :
    Reorder (s.engineQueues tid).enableSchedule
      (bodies k (s.engineQueues tid) ++ if key = k then [b] else [])
      (bodies k ((enqueue tid key s b).engineQueues tid)) := by
  have h := bodies_push k (s.engineQueues tid) ⟨s.timestamp, key, b⟩
  by_cases hb : b.ops = .allRecv
  · simpa only [enqueue, Function.update_self, hb, if_true, bodies, PriorityQueue.clearCounter_queue] using h
  · simpa only [enqueue, Function.update_self, hb, if_false] using h

theorem enqueue_schedule (tid key i : Nat) (s : State E (Fin n) σ) (b : Body E) :
    ((enqueue tid key s b).engineQueues i).enableSchedule = (s.engineQueues i).enableSchedule := by
  by_cases hi : i = tid
  · subst hi
    simp only [enqueue, Function.update_self]
    split <;> simp
  · simp [enqueue, hi]

/-- What the server is after a push has queued its messages. -/
structure Enqueued (tid key : Nat) (bs : List (Body E)) (s s' : State E (Fin n) σ) : Prop where
  keys : s'.keys = s.keys
  flags : s'.flags = s.flags
  hashCache : s'.hashCache = s.hashCache
  queues : ∀ i, i ≠ tid → s'.engineQueues i = s.engineQueues i
  schedule : ∀ i, (s'.engineQueues i).enableSchedule = (s.engineQueues i).enableSchedule
  bodies : ∀ k, Reorder (s.engineQueues tid).enableSchedule
    (bodies k (s.engineQueues tid) ++ if key = k then bs else []) (bodies k (s'.engineQueues tid))

theorem enqueued (tid key : Nat) (bs : List (Body E)) (s : State E (Fin n) σ) :
    Enqueued tid key bs s (bs.foldl (enqueue tid key) s) := by
  induction bs generalizing s with
  | nil => exact ⟨rfl, rfl, rfl, fun _ _ => rfl, fun _ => rfl, fun k => by simpa using .refl _ _⟩
  | cons b bs ih =>
    have h := ih (enqueue tid key s b)
    refine ⟨h.keys, h.flags, h.hashCache, fun i hi => ?_, fun i => ?_, fun k => ?_⟩
    · rw [List.foldl_cons, h.queues i hi]
      simp [enqueue, hi]
    · rw [List.foldl_cons, h.schedule i, enqueue_schedule]
    · have h1 := (bodies_enqueue tid key k s b).append_right (if key = k then bs else [])
      have h2 := h.bodies k
      rw [enqueue_schedule] at h2
      have := h1.trans h2
      by_cases hk : key = k
      · simpa [hk] using this
      · simpa [hk] using this

theorem getThreadID_spec {cfg : Config} {s s' : State E (Fin n) σ} {key len tid : Nat}
    (h : getThreadID cfg s key len = some (tid, s')) :
    s'.hashCache = Function.update s.hashCache key (some tid) ∧
    (s.hashCache key = none ∨ s.hashCache key = some tid) ∧
    s'.keys = s.keys ∧ s'.flags = s.flags ∧ s'.engineQueues = s.engineQueues := by
  unfold getThreadID at h
  split at h
  · rename_i t ht
    cases h
    exact ⟨by rw [← ht, Function.update_eq_self], .inr ht, rfl, rfl, rfl⟩
  · rename_i hnone
    split at h
    · cases h
    · split at h
      · cases h
      · cases h
        exact ⟨rfl, .inl hnone, rfl, rfl, rfl⟩

theorem getThreadID_zero {cfg : Config} {s s' : State E (Fin n) σ} {key tid : Nat}
    (h : getThreadID cfg s key 0 = some (tid, s')) : s' = s ∧ s.hashCache key = some tid := by
  unfold getThreadID at h
  split at h
  · rename_i t ht
    cases h
    exact ⟨rfl, ht⟩
  · simp at h

/-! ### Steps of other keys -/

section Frames
variable {b : Bool} {s s' : State E (Fin n) σ} {k key tid : Nat}

theorem setKey_frame (hk : k ≠ key) (x : KeyState E (Fin n) σ) : Frame b s (s.setKey key x) k :=
  ⟨by simp [hk], rfl, fun _ => rfl, fun _ => .refl _ _⟩

theorem setFlags_flags_other (hk : k ≠ key) (f : Flags (Fin n)) (i : Nat) :
    (s.setFlags tid key f).flags i k = s.flags i k := by
  by_cases hi : i = tid
  · subst hi; simp [hk]
  · simp [hi]

theorem setFlags_frame (hk : k ≠ key) (f : Flags (Fin n)) : Frame b s (s.setFlags tid key f) k :=
  ⟨rfl, rfl, setFlags_flags_other hk f, fun _ => .refl _ _⟩

/-- A push that got its thread and queued its messages. -/
theorem push_frame {cfg : Config} {len : Nat} {bs : List (Body E)} {x : KeyState E (Fin n) σ}
    (hk : k ≠ key) (hsched : ∀ i, (s.engineQueues i).enableSchedule = b)
    (hid : getThreadID cfg s key len = some (tid, s')) :
    Frame b s (bs.foldl (enqueue tid key) (s'.setKey key x)) k := by
  obtain ⟨hhash, -, hkeys, hflags, hqueues⟩ := getThreadID_spec hid
  have he := enqueued tid key bs (s'.setKey key x)
  refine ⟨?_, ?_, fun i => ?_, fun i => ?_⟩
  · rw [he.keys]; simp [hk, hkeys]
  · rw [he.hashCache]; simp [hk, hhash]
  · rw [he.flags]; simp [hflags]
  · by_cases hi : i = tid
    · subst hi
      have hb := he.bodies k
      simpa [hqueues, hsched, Ne.symm hk] using hb
    · rw [he.queues i hi]
      simpa [hqueues] using .refl _ _

/-- A message of another key was popped. -/
theorem pop_frame {i : Nat} {q : PriorityQueue (Body E)} {m : EngineMessage (Body E)}
    {x : KeyState E (Fin n) σ} {f : Flags (Fin n)} (hk : k ≠ m.key)
    (hsched : ∀ i, (s.engineQueues i).enableSchedule = b)
    (hpop : (s.engineQueues i).waitAndPop = some (m, q)) :
    Frame b s
      (({ s with engineQueues := Function.update s.engineQueues i q }.setKey m.key x).setFlags i m.key f) k := by
  refine ⟨by simp [hk], rfl, setFlags_flags_other hk f, fun j => ?_⟩
  by_cases hj : j = i
  · subst hj
    have hb := bodies_waitAndPop k hpop
    simpa [hsched, Ne.symm hk] using hb
  · simpa [hj] using .refl _ _

end Frames

/-! ### Steps of the key itself -/

section Own
variable {s s' : State E (Fin n) σ} {key tid : Nat}

theorem OwnThread.flags_eq (h : OwnThread s key) (ht : s.hashCache key = none ∨ s.hashCache key = some tid) :
    ((s.hashCache key).elim .empty fun t => s.flags t key) = s.flags tid key := by
  rcases ht with ht | ht
  · rw [(h tid (by simp [ht])).1, ht]; rfl
  · rw [ht]; rfl

theorem OwnThread.bodies_eq (h : OwnThread s key) (ht : s.hashCache key = none ∨ s.hashCache key = some tid) :
    ((s.hashCache key).elim [] fun t => bodies key (s.engineQueues t)) = bodies key (s.engineQueues tid) := by
  rcases ht with ht | ht
  · rw [(h tid (by simp [ht])).2, ht]; rfl
  · rw [ht]; rfl

/-- A thread other than the key's own has nothing of it. -/
theorem OwnThread.other (h : OwnThread s key) (ht : s.hashCache key = none ∨ s.hashCache key = some tid)
    {i : Nat} (hi : i ≠ tid) : s.flags i key = .empty ∧ bodies key (s.engineQueues i) = [] := by
  refine h i ?_
  rcases ht with ht | ht <;> simp [ht, Ne.symm hi]

theorem setFlags_own (h : OwnThread s key) (ht : s.hashCache key = some tid) (f : Flags (Fin n)) :
    OwnThread (s.setFlags tid key f) key := by
  intro i hi
  have hi : i ≠ tid := fun e => hi (by rw [e]; exact ht)
  have := h.other (.inr ht) hi
  simpa [hi] using this

theorem push_own {cfg : Config} {len : Nat} {bs : List (Body E)} {x : KeyState E (Fin n) σ}
    (h : OwnThread s key) (hid : getThreadID cfg s key len = some (tid, s')) :
    OwnThread (bs.foldl (enqueue tid key) (s'.setKey key x)) key := by
  obtain ⟨hhash, ht, -, hflags, hqueues⟩ := getThreadID_spec hid
  have he := enqueued tid key bs (s'.setKey key x)
  intro i hi
  rw [he.hashCache] at hi
  have hi : i ≠ tid := fun e => hi (by simp [hhash, e])
  rw [he.flags, he.queues i hi]
  simpa [hflags, hqueues] using h.other ht hi

/-- The view of a key whose push got a thread and queued its messages. -/
theorem push_view {cfg : Config} {len : Nat} {b : Bool} (bs : List (Body E)) (x : KeyState E (Fin n) σ)
    (h : OwnThread s key) (hsched : ∀ i, (s.engineQueues i).enableSchedule = b)
    (hid : getThreadID cfg s key len = some (tid, s')) (run run' : Nat → KeyRun E n) :
    ∃ msgs, Reorder b ((view ⟨s, run⟩ key).msgs ++ bs) msgs ∧
      view ⟨bs.foldl (enqueue tid key) (s'.setKey key x), run'⟩ key =
        { view ⟨s, run⟩ key with key := x, msgs := msgs, run := run' key } := by
  obtain ⟨hhash, ht, hkeys, hflags, hqueues⟩ := getThreadID_spec hid
  have he := enqueued tid key bs (s'.setKey key x)
  refine ⟨bodies key ((bs.foldl (enqueue tid key) (s'.setKey key x)).engineQueues tid), ?_, ?_⟩
  · have hb := he.bodies key
    simp only [setKey_engineQueues, hqueues, hsched, if_true] at hb
    simpa only [view, h.bodies_eq ht] using hb
  · simp [view, he.keys, he.hashCache, he.flags, h.flags_eq ht, hhash, hflags]

end Own

/-! ## The simulation -/

section Simulation
variable [Add E] [Zero E] {cfg : Config} {C : Compressor E σ} {inp : Inputs E n}

/-- What a step of the system is for a key. -/
def act (S : Sys E n σ) (k : Nat) : Act n → KAct E n
  | .req w key => if k = key then .req w else .other
  | .engine i =>
    match (S.srv.engineQueues i).waitAndPop with
    | some (m, _) => if k = m.key then .engine m.body else .other
    | none => .other

theorem Frame.other {S S' : Sys E n σ} {k : Nat} (hf : Frame cfg.enableSchedule S.srv S'.srv k)
    (hrun : S'.run k = S.run k) : KStep cfg C inp k (view S k) .other (view S' k) := by
  have hv : view S' k = { view S k with msgs := (view S' k).msgs } := by
    simp [view, hf.keys, hf.hashCache, hf.flags, hrun]
  rw [hv]
  refine .other ?_
  simp only [view, hf.hashCache]
  cases S.srv.hashCache k with
  | none => exact .refl _ _
  | some tid => exact hf.bodies tid

/-- The cases of a push with a store. -/
theorem handlePush_some {s s' : State E (Fin n) σ} {key dtype len : Nat} {req : KVMeta (Fin n)}
    {vals store : Nat → E} {resps : List (Response E (Fin n))} (hst : (s.keys key).stored.tensor = some store)
    (h : handlePush cfg s key req dtype len vals = some (s', resps)) :
    ∃ tid s₁ k recv k' round, getThreadID cfg s key len = some (tid, s₁) ∧
      handleRecv cfg (s.keys key) store len vals = some (k, recv) ∧
      handleRound cfg k store req len = some (k', round) ∧
      s' = (recv ++ round).foldl (enqueue tid key) (s₁.setKey key k') ∧ resps = [.push key req] := by
  unfold handlePush at h
  simp only [hst, Option.bind_eq_bind, Option.bind_eq_some_iff, Prod.exists, Option.some.injEq,
    Prod.mk.injEq] at h
  obtain ⟨tid, s₁, hid, k, recv, hrecv, k', round, hround, rfl, rfl⟩ := h
  rw [(getThreadID_spec hid).2.2.1] at hrecv
  exact ⟨tid, s₁, k, recv, k', round, hid, hrecv, hround, rfl, rfl⟩

theorem handlePush_none {s s' : State E (Fin n) σ} {key dtype len : Nat} {req : KVMeta (Fin n)}
    {vals : Nat → E} {resps : List (Response E (Fin n))} (hst : (s.keys key).stored.tensor = none)
    (h : handlePush cfg s key req dtype len vals = some (s', resps)) :
    s' = s.setKey key (handleInit cfg key (s.keys key) req dtype len vals).1 ∧
      resps = (handleInit cfg key (s.keys key) req dtype len vals).2 := by
  unfold handlePush at h
  simp only [hst, Option.some.injEq, Prod.mk.injEq] at h
  exact ⟨h.1.symm, h.2.symm⟩

omit [Add E] [Zero E] in
/-- The cases of a pull: answered, or put into the queue. -/
theorem handlePull_some {s s' : State E (Fin n) σ} {key : Nat} {req : KVMeta (Fin n)}
    {resps : List (Response E (Fin n))} (hsync : cfg.syncMode = true) (hblock : cfg.isEngineBlocking = false)
    (h : handlePull cfg s key req = some (s', resps)) : ∃ tid, s.hashCache key = some tid ∧
      (((s.flags tid key).isPushFinished = true ∧ req.sender ∉ (s.flags tid key).seenSender ∧
        ∃ r, sendPullResponse key (s.keys key) req = some r ∧ resps = [r] ∧
          s' = s.setFlags tid key (if ((s.flags tid key).see req.sender).pullCnt = cfg.numWorkers then
            ((s.flags tid key).see req.sender).reset else (s.flags tid key).see req.sender)) ∨
      (¬ ((s.flags tid key).isPushFinished = true ∧ req.sender ∉ (s.flags tid key).seenSender) ∧ resps = [] ∧
        s' = s.setFlags tid key
          { s.flags tid key with qPullReqmeta := (s.flags tid key).qPullReqmeta ++ [req] })) := by
  unfold handlePull at h
  have hst : (s.keys key).stored.tensor.isNone = false := by
    by_contra hst
    simp [Bool.not_eq_false _ ▸ hst] at h
  simp only [hst, hblock, hsync, Bool.not_true, Bool.or_self, Bool.false_eq_true, if_false,
    Option.bind_eq_bind, Option.bind_eq_some_iff, Prod.exists] at h
  obtain ⟨tid, s₁, hid, h⟩ := h
  obtain ⟨rfl, ht⟩ := getThreadID_zero hid
  refine ⟨tid, ht, ?_⟩
  split at h
  · rename_i hf
    simp only [Option.bind_eq_some_iff, Option.some.injEq, Prod.mk.injEq] at h
    obtain ⟨r, hr, rfl, rfl⟩ := h
    exact .inl ⟨hf.1, hf.2, r, hr, rfl, rfl⟩
  · rename_i hf
    cases h
    exact .inr ⟨hf, rfl, rfl⟩

/-- A request of `key`: a step of its machine, and a frame for the others. -/
theorem req_view {S S' : Sys E n σ} {w : Fin n} {key : Nat} (hsync : cfg.syncMode = true)
    (hblock : cfg.isEngineBlocking = false) (hT : Threads cfg.enableSchedule S.srv)
    (h : step cfg C inp S (.req w key) = some S') :
    (∀ i, (S'.srv.engineQueues i).enableSchedule = cfg.enableSchedule) ∧
    (∀ k, k ≠ key → Frame cfg.enableSchedule S.srv S'.srv k ∧ S'.run k = S.run k) ∧
    OwnThread S'.srv key ∧ KStep cfg C inp key (view S key) (.req w) (view S' key) := by
  simp only [step, Option.bind_eq_bind, Option.bind_eq_some_iff, Prod.exists, Option.some.injEq] at h
  obtain ⟨req, body, waiting, hreq, srv, resps, hh, rfl⟩ := h
  have hown := hT.own key
  cases body with
  | register content =>
    simp only [handler, Option.bind_eq_bind, Option.bind_eq_some_iff, Prod.exists, Option.some.injEq,
      Prod.mk.injEq] at hh
    obtain ⟨k', _, hreg, rfl, rfl⟩ := hh
    refine ⟨hT.schedule, fun k hk => ⟨setKey_frame hk _, by simp [hk]⟩, hown, ?_⟩
    have : KStep cfg C inp key (view S key) (.req w) _ := .register hreq hreg
    simpa [view] using this
  | push dtype len vals =>
    cases hst : (S.srv.keys key).stored.tensor with
    | none =>
      obtain ⟨rfl, rfl⟩ := handlePush_none hst hh
      refine ⟨hT.schedule, fun k hk => ⟨setKey_frame hk _, by simp [hk]⟩, hown, ?_⟩
      have : KStep cfg C inp key (view S key) (.req w) _ := .pushInit hreq hst
      simpa [view] using this
    | some store =>
      obtain ⟨tid, s₁, k₁, recv, k₂, round, hid, hrecv, hround, rfl, rfl⟩ := handlePush_some hst hh
      refine ⟨fun i => ?_, fun k hk => ⟨push_frame hk hT.schedule hid, by simp [hk]⟩, push_own hown hid, ?_⟩
      · rw [(enqueued tid key (recv ++ round) (s₁.setKey key k₂)).schedule, setKey_engineQueues,
          (getThreadID_spec hid).2.2.2.2]
        exact hT.schedule i
      obtain ⟨msgs, hmsgs, hv⟩ := push_view (recv ++ round) k₂ hown hT.schedule hid S.run
        (Function.update S.run key (((S.run key).wait w waiting).receiveAll (inp.registers key) [.push key req]))
      rw [hv, Function.update_self]
      exact .push hreq hst hrecv hround hmsgs
  | pull =>
    obtain ⟨tid, ht, h⟩ := handlePull_some hsync hblock hh
    have hfl : (view S key).flags = S.srv.flags tid key := hown.flags_eq (.inr ht)
    rcases h with ⟨hf, hseen, r, hr, rfl, rfl⟩ | ⟨hf, rfl, rfl⟩
    · refine ⟨hT.schedule, fun k hk => ⟨setFlags_frame hk _, by simp [hk]⟩, setFlags_own hown ht _, ?_⟩
      have : KStep cfg C inp key (view S key) (.req w) _ := .pull hreq (hfl ▸ hf) (hfl ▸ hseen) hr
      simpa [view, ht] using this
    · refine ⟨hT.schedule, fun k hk => ⟨setFlags_frame hk _, by simp [hk]⟩, setFlags_own hown ht _, ?_⟩
      have : KStep cfg C inp key (view S key) (.req w) _ := .pullWait hreq (hfl ▸ hf)
      simpa [view, ht, KeyRun.receiveAll] using this

omit [Add E] [Zero E] in
/-- A message comes from the thread of its key. -/
theorem Threads.of_pop {b : Bool} {s : State E (Fin n) σ} {i : Nat} {m : EngineMessage (Body E)}
    {q : PriorityQueue (Body E)} (hT : Threads b s) (hpop : (s.engineQueues i).waitAndPop = some (m, q)) :
    s.hashCache m.key = some i ∧ Reorder b (bodies m.key (s.engineQueues i)) (m.body :: bodies m.key q) := by
  have hb := bodies_waitAndPop m.key hpop
  simp only [hT.schedule, if_true, List.singleton_append] at hb
  refine ⟨?_, hb⟩
  by_contra hne
  have hnil := (hT.own m.key i hne).2
  rw [hnil] at hb
  exact absurd hb.perm.length_eq (by simp)

omit [Zero E] in
/-- A message of an engine thread: a step of the machine of its key, and a frame for the
others. -/
theorem engine_view {s s' : State E (Fin n) σ} {i : Nat} {m : EngineMessage (Body E)} {q : PriorityQueue (Body E)}
    {resps : List (Response E (Fin n))} (hT : Threads cfg.enableSchedule s)
    (hpop : (s.engineQueues i).waitAndPop = some (m, q)) (h : engineThread cfg C s i = some (s', resps)) :
    (∀ j, (s'.engineQueues j).enableSchedule = cfg.enableSchedule) ∧
    (∀ k, k ≠ m.key → Frame cfg.enableSchedule s s' k) ∧ OwnThread s' m.key ∧
    s.hashCache m.key = some i ∧ s'.hashCache = s.hashCache ∧
    ∃ x f msgs, runMessage cfg C m.key (s.keys m.key) (s.flags i m.key) m.body = some (x, f, resps) ∧
      Reorder cfg.enableSchedule (bodies m.key (s.engineQueues i)) (m.body :: msgs) ∧
      s'.keys m.key = x ∧ s'.flags i m.key = f ∧ bodies m.key (s'.engineQueues i) = msgs := by
  simp only [engineThread, hpop, Option.bind_eq_bind, Option.bind_some, Option.bind_eq_some_iff, Prod.exists,
    Option.some.injEq, Prod.mk.injEq] at h
  obtain ⟨x, f, _, hrun, rfl, rfl⟩ := h
  obtain ⟨ht, hb⟩ := hT.of_pop hpop
  refine ⟨fun j => ?_, fun k hk => pop_frame hk hT.schedule hpop, fun j hj => ?_, ht, rfl, x, f, _, hrun, hb,
    ?_, ?_, ?_⟩
  · by_cases hj : j = i
    · subst hj
      simpa using (PriorityQueue.waitAndPop_perm hpop).2.trans (hT.schedule j)
    · simpa [hj] using hT.schedule j
  · have hji : j ≠ i := fun e => hj (e ▸ ht)
    simpa [hji] using (hT.own m.key).other (.inr ht) hji
  · simp
  · simp
  · simp

/-- **One step.** A step of the system is a step of every key's machine, and what a key has stays
on its thread. -/
theorem step_view {S S' : Sys E n σ} {a : Act n} (hsync : cfg.syncMode = true)
    (hblock : cfg.isEngineBlocking = false) (hT : Threads cfg.enableSchedule S.srv)
    (h : step cfg C inp S a = some S') :
    Threads cfg.enableSchedule S'.srv ∧ ∀ k, KStep cfg C inp k (view S k) (act S k a) (view S' k) := by
  cases a with
  | req w key =>
    obtain ⟨hsched, hframe, hown, hk⟩ := req_view hsync hblock hT h
    refine ⟨⟨fun k => ?_, hsched⟩, fun k => ?_⟩
    · by_cases he : k = key
      · exact he ▸ hown
      · exact (hframe k he).1.own (hT.own k)
    · by_cases he : k = key
      · subst he; simpa only [act, if_true] using hk
      · simpa only [act, he, if_false] using (hframe k he).1.other (hframe k he).2
  | engine i =>
    simp only [step, Option.bind_eq_bind, Option.bind_eq_some_iff, Prod.exists, Option.some.injEq] at h
    obtain ⟨m, q, hpop, srv, resps, hsrv, rfl⟩ := h
    obtain ⟨hsched, hframe, hown, ht, hhash, x, f, msgs, hrun, hmsgs, rfl, rfl, rfl⟩ := engine_view hT hpop hsrv
    refine ⟨⟨fun k => ?_, hsched⟩, fun k => ?_⟩
    · by_cases he : k = m.key
      · exact he ▸ hown
      · exact (hframe k he).own (hT.own k)
    · by_cases he : k = m.key
      · subst he
        have : KStep cfg C inp m.key (view S m.key) (.engine m.body) _ :=
          .engine (by simpa [view, ht] using hmsgs) (by simpa [view, ht] using hrun)
        simpa [act, hpop, view, hhash, ht] using this
      · simp only [act, hpop, he, if_false]
        exact (hframe k he).other (Function.update_of_ne he _ _)

omit [Add E] [Zero E] in
theorem threads_init : Threads cfg.enableSchedule (State.init cfg : State E (Fin n) σ) :=
  ⟨fun _ _ _ => ⟨rfl, rfl⟩, fun _ => rfl⟩

theorem threads_inductive (hsync : cfg.syncMode = true) (hblock : cfg.isEngineBlocking = false) :
    (sys cfg C inp).Inductive fun S => Threads cfg.enableSchedule S.srv where
  init := by rintro S rfl; exact threads_init
  step := fun _ _ _ hT hs => (step_view hsync hblock hT hs).1

/-- **Each key runs on its own.** -/
theorem view_reachable (hsync : cfg.syncMode = true) (hblock : cfg.isEngineBlocking = false) {S : Sys E n σ}
    (h : (sys cfg C inp).Reachable S) (k : Nat) : (keySys cfg C inp k).Reachable (view S k) :=
  h.simulate (view · k) (threads_inductive hsync hblock) (by rintro S rfl; rfl)
    fun S a S' hT hs => ⟨act S k a, (step_view hsync hblock hT hs).2 k⟩

/-- The same for runs whose steps meet `G`, if `G` gives `H` for the key. -/
theorem view_reachable_restrict (hsync : cfg.syncMode = true) (hblock : cfg.isEngineBlocking = false)
    {G : Sys E n σ → Act n → Sys E n σ → Prop} {H : View E n σ → KAct E n → View E n σ → Prop} {k : Nat}
    (hGH : ∀ S a S', Threads cfg.enableSchedule S.srv → G S a S' → H (view S k) (act S k a) (view S' k))
    {S : Sys E n σ} (h : ((sys cfg C inp).restrict G).Reachable S) :
    ((keySys cfg C inp k).restrict H).Reachable (view S k) :=
  h.simulate (N := (keySys cfg C inp k).restrict H) (view · k) ((threads_inductive hsync hblock).restrict G)
    (by rintro S rfl; rfl)
    fun S a S' hT hs => ⟨act S k a, (step_view hsync hblock hT hs.1).2 k, hGH S a S' hT hs.2⟩

end Simulation

end Inca.L4.KeyMachine
