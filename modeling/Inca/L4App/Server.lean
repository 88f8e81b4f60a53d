import Mathlib.Algebra.Ring.Nat
import Mathlib.Data.Finset.Card
import Inca.L2Machine.PriorityQueue

/-!
# The BytePS server (`byteps/server/server.cc`)

The request handler and the engine threads of the server, in all its modes.
A call of the handler holds `handle_mu_` from its first line to its last, so
it is one step; an engine thread takes one message a step. A failed `CHECK`
ends the process: the step has no result.

The server keeps its tables by key: one `KeyState` holds what `store_`,
`update_buf_` and `compressor_map_` have under a key, and one `Flags` what an
engine thread has under it. Keys share the rest: the thread of each key
(`hash_cache_`, `acc_load_`), the message counter and the engine queues.

A tensor is a function from element indices and a length in elements.
`merged.tensor` is a pointer: after a round without compressor it points into
the store, so what a pull is answered with is what the store holds at that
moment.
-/
namespace Inca.L4.Server
open Inca.L2

/-- mirrors byteps/byteps/server/server.cc:438-482 -/
structure Config where
  numWorkers : Nat
  engineThreadNum : Nat
  syncMode : Bool
  isEngineBlocking : Bool
  enableSchedule : Bool

/-- What the server reads of a `ps::KVMeta`: the sender, and the timestamp its response carries
back. -/
structure KVMeta (W : Type) where
  sender : W
  timestamp : Nat
deriving DecidableEq

/-- The requests of a key, by what the handler does with them; `content` is the serialised
compressor configuration. -/
inductive Request (E : Type)
  | register (content : List Char)
  | push (dtype len : Nat) (vals : Nat → E)
  | pull

inductive Response (E W : Type)
  | push (key : Nat) (req : KVMeta W)
  | pull (key : Nat) (req : KVMeta W) (len : Nat) (vals : Nat → E)

/-- mirrors byteps/byteps/server/server.h:49-51 -/
inductive Op
  | sumRecv
  | copyFirst
  | allRecv
deriving DecidableEq

/-- What a tensor pointer points at: the store of the key, or a buffer of its own. -/
inductive Ptr (E : Type)
  | store
  | buf (vals : Nat → E)

/-- What a `BytePSEngineMessage` has beside its id and its key; the destination is always the
store of the key.
mirrors byteps/byteps/server/server.h:75-85 -/
structure Body (E : Type) where
  ops : Op
  src : Ptr E
  len : Nat
  /-- `sarray.lens[0]` -/
  sarrayLen : Nat

/-- mirrors byteps/byteps/server/server.h:63-68; `tensor` is `none` for a null pointer -/
structure BytePSArray (T : Type) where
  tensor : Option T
  len : Nat
  dtype : Nat

/-- mirrors byteps/byteps/server/server.h:70-73 -/
structure UpdateBuf (E W : Type) where
  request : List (KVMeta W)
  merged : BytePSArray (Ptr E)

/-- The flags of one key on one engine thread.
mirrors byteps/byteps/server/server.h:110-113 -/
structure Flags (W : Type) where
  isPushFinished : Bool
  pullCnt : Nat
  seenSender : Finset W
  qPullReqmeta : List (KVMeta W)

/-- What the server uses of a compressor; `σ` is the state of the object. -/
structure Compressor (E σ : Type) where
  /-- `CompressorRegistry::Create`, from the content, the length and the type -/
  create : List Char → Nat → Nat → Option σ
  compress : σ → (Nat → E) → Nat → σ × (Nat → E) × Nat
  decompress : σ → (Nat → E) → Nat → σ × (Nat → E)

/-- The entries of a key in `store_`, `update_buf_` and `compressor_map_`. -/
structure KeyState (E W σ : Type) where
  stored : BytePSArray (Nat → E)
  updates : UpdateBuf E W
  compressor : Option σ

/-- `flags` is by thread and key. -/
structure State (E W σ : Type) where
  keys : Nat → KeyState E W σ
  flags : Nat → Nat → Flags W
  hashCache : Nat → Option Nat
  accLoad : Nat → Nat
  timestamp : Nat
  engineQueues : Nat → PriorityQueue (Body E)

variable {E W σ : Type}

def Flags.empty : Flags W := ⟨false, 0, ∅, []⟩

def KeyState.empty : KeyState E W σ := ⟨⟨none, 0, 0⟩, ⟨[], ⟨none, 0, 0⟩⟩, none⟩

/-- A map entry that does not exist yet is the one the code creates for it.
mirrors byteps/byteps/server/server.cc:484-522 -/
def State.init (cfg : Config) : State E W σ where
  keys := fun _ => .empty
  flags := fun _ _ => .empty
  hashCache := fun _ => none
  accLoad := fun _ => 0
  timestamp := 0
  engineQueues := fun _ => .empty cfg.enableSchedule

/-! ## The reducer -/

/-- mirrors byteps/byteps/common/cpu_reducer.cc:426-437 -/
def copy (dst src : Nat → E) (len : Nat) : Nat → E := fun i => if i < len then src i else dst i

/-- mirrors byteps/byteps/common/cpu_reducer.cc:59-96 -/
def sum [Add E] (dst src : Nat → E) (len : Nat) : Nat → E :=
  fun i => if i < len then dst i + src i else dst i

/-! ## Threads and queues -/

/-- The thread with the least load, the first of them: `min_index` and `min_load` after the loop
over the first `t` threads.
mirrors byteps/byteps/server/server.h:175-182 -/
def minLoad (accLoad : Nat → Nat) : Nat → Option Nat × Nat
  | 0 => (none, 2 ^ 64 - 1)
  | t + 1 =>
    let (minIndex, minLoad) := minLoad accLoad t
    if accLoad t < minLoad then (some t, accLoad t) else (minIndex, minLoad)

/-- mirrors byteps/byteps/server/server.h:163-187 -/
def getThreadID (cfg : Config) (s : State E W σ) (key len : Nat) : Option (Nat × State E W σ) :=
  match s.hashCache key with
  | some tid => some (tid, s)
  | none =>
    if len = 0 then none
    else match (minLoad s.accLoad cfg.engineThreadNum).1 with
      | none => none
      | some tid => some (tid, { s with
          accLoad := Function.update s.accLoad tid ((s.accLoad tid + len) % 2 ^ 64)
          hashCache := Function.update s.hashCache key (some tid) })

/-- `engine_queues_[tid]->Push(msg)`, with the next timestamp as the id; after an `ALL_RECV` the
counter of the key is cleared.
mirrors byteps/byteps/server/server.cc:336-339,366-369,390-394 -/
def enqueue (tid key : Nat) (s : State E W σ) (b : Body E) : State E W σ :=
  let q := (s.engineQueues tid).push ⟨s.timestamp, key, b⟩
  { s with
    timestamp := s.timestamp + 1
    engineQueues := Function.update s.engineQueues tid
      (if b.ops = .allRecv then q.clearCounter key else q) }

def State.setKey (s : State E W σ) (key : Nat) (k : KeyState E W σ) : State E W σ :=
  { s with keys := Function.update s.keys key k }

def State.setFlags (s : State E W σ) (tid key : Nat) (f : Flags W) : State E W σ :=
  { s with flags := Function.update s.flags tid (Function.update (s.flags tid) key f) }

section Set
variable (s : State E W σ) (tid key : Nat) (k : KeyState E W σ) (f : Flags W)

@[simp] theorem setKey_keys : (s.setKey key k).keys = Function.update s.keys key k := rfl
@[simp] theorem setKey_flags : (s.setKey key k).flags = s.flags := rfl
@[simp] theorem setKey_hashCache : (s.setKey key k).hashCache = s.hashCache := rfl
@[simp] theorem setKey_engineQueues : (s.setKey key k).engineQueues = s.engineQueues := rfl

@[simp] theorem setFlags_keys : (s.setFlags tid key f).keys = s.keys := rfl
@[simp] theorem setFlags_flags :
    (s.setFlags tid key f).flags = Function.update s.flags tid (Function.update (s.flags tid) key f) := rfl
@[simp] theorem setFlags_hashCache : (s.setFlags tid key f).hashCache = s.hashCache := rfl
@[simp] theorem setFlags_engineQueues : (s.setFlags tid key f).engineQueues = s.engineQueues := rfl

end Set

/-! ## Responses -/

def KeyState.read (k : KeyState E W σ) : Ptr E → Option (Nat → E)
  | .store => k.stored.tensor
  | .buf vals => some vals

/-- The data is read through `merged.tensor`, which must not be null.
mirrors byteps/byteps/server/server.cc:53-80 -/
def sendPullResponse (key : Nat) (k : KeyState E W σ) (req : KVMeta W) : Option (Response E W) := do
  let p ← k.updates.merged.tensor
  let vals ← k.read p
  return .pull key req k.updates.merged.len vals

def Flags.reset (f : Flags W) : Flags W := { f with isPushFinished := false, pullCnt := 0, seenSender := ∅ }

variable [DecidableEq W]

/-- Count a sender as answered.
mirrors byteps/byteps/server/server.cc:166-167,421-422 -/
def Flags.see (f : Flags W) (w : W) : Flags W :=
  { f with pullCnt := f.pullCnt + 1, seenSender := insert w f.seenSender }

/-- The loop over `q_pull_reqmeta_`: the flags after it, the requests that stay, the requests
that are answered.
mirrors byteps/byteps/server/server.cc:161-178 -/
def answerPulls (numWorkers : Nat) : Flags W → List (KVMeta W) → Flags W × List (KVMeta W) × List (KVMeta W)
  | f, [] => (f, [], [])
  | f, req :: reqs =>
    if req.sender ∉ f.seenSender then
      let f := f.see req.sender
      if f.pullCnt = numWorkers then (f.reset, reqs, [req])
      else
        let (f, kept, answered) := answerPulls numWorkers f reqs
        (f, kept, req :: answered)
    else if f.pullCnt = numWorkers then (f.reset, req :: reqs, [])
    else
      let (f, kept, answered) := answerPulls numWorkers f reqs
      (f, req :: kept, answered)

/-! ## The engine threads -/

/-- The source of a `COPY_FIRST` or `SUM_RECV`, decompressed if the key has a compressor.
mirrors byteps/byteps/server/server.cc:103-111 -/
def source (C : Compressor E σ) (k : KeyState E W σ) (b : Body E) :
    Option (KeyState E W σ × (Nat → E)) := do
  let src ← k.read b.src
  match k.compressor with
  | none => some (k, src)
  | some c =>
    if b.sarrayLen ≤ b.len then
      let (c, vals) := C.decompress c src b.sarrayLen
      some ({ k with compressor := some c }, vals)
    else none

/-- What an `ALL_RECV` makes of `merged`: the compressed store, or a pointer to it.
mirrors byteps/byteps/server/server.cc:93-102,112-119 -/
def publish (C : Compressor E σ) (k : KeyState E W σ) (b : Body E) : Option (KeyState E W σ) := do
  let src ← k.read b.src
  match k.compressor with
  | none => some { k with updates.merged.tensor := some b.src, updates.merged.len := b.len }
  | some c =>
    let (c, vals, size) := C.compress c src b.len
    some { k with
      compressor := some c
      updates.merged.tensor := some (.buf vals)
      updates.merged.len := size }

/-- One message of a key, after it was popped; `f` are the flags of the key on this thread.
mirrors byteps/byteps/server/server.cc:88-213 -/
def runMessage [Add E] (cfg : Config) (C : Compressor E σ) (key : Nat) (k : KeyState E W σ) (f : Flags W)
    (b : Body E) : Option (KeyState E W σ × Flags W × List (Response E W)) := do
  let dst ← k.stored.tensor
  match b.ops with
  | .copyFirst =>
    let (k, src) ← source C k b
    some ({ k with stored.tensor := some (copy dst src b.len) }, f, [])
  | .sumRecv =>
    let (k, src) ← source C k b
    some ({ k with stored.tensor := some (sum dst src b.len) }, f, [])
  | .allRecv =>
    let k ← publish C k b
    let (f, kept, answered) := answerPulls cfg.numWorkers { f with isPushFinished := true } f.qPullReqmeta
    let responses ← answered.mapM (sendPullResponse key k)
    some (k, { f with qPullReqmeta := kept }, responses)

/-- mirrors byteps/byteps/server/server.cc:82-215 -/
def engineThread [Add E] (cfg : Config) (C : Compressor E σ) (s : State E W σ) (i : Nat) :
    Option (State E W σ × List (Response E W)) := do
  let (msg, q) ← (s.engineQueues i).waitAndPop
  let (k, f, responses) ← runMessage cfg C msg.key (s.keys msg.key) (s.flags i msg.key) msg.body
  some (({ s with engineQueues := Function.update s.engineQueues i q }.setKey msg.key k).setFlags i msg.key f,
    responses)

/-! ## The request handler -/

/-- Buffer a request; the `NumWorkers`-th answers them all.
mirrors byteps/byteps/server/server.cc:258-268,298-300,315-318 -/
def collect (cfg : Config) (key : Nat) (k : KeyState E W σ) (req : KVMeta W) :
    KeyState E W σ × List (Response E W) :=
  let request := k.updates.request ++ [req]
  if request.length < cfg.numWorkers then ({ k with updates.request := request }, [])
  else ({ k with updates.request := [] }, request.map (.push key))

/-- mirrors byteps/byteps/server/server.cc:238-269 -/
def handleRegister (cfg : Config) (C : Compressor E σ) (key : Nat) (k : KeyState E W σ) (req : KVMeta W)
    (content : List Char) : Option (KeyState E W σ × List (Response E W)) := do
  let c ← k.compressor <|> C.create content k.stored.len k.stored.dtype
  some (collect cfg key { k with compressor := some c } req)

/-- A push before the store exists: the last of them allocates and fills it.
mirrors byteps/byteps/server/server.cc:292-319 -/
def handleInit [Zero E] (cfg : Config) (key : Nat) (k : KeyState E W σ) (req : KVMeta W) (dtype len : Nat)
    (vals : Nat → E) : KeyState E W σ × List (Response E W) :=
  let k := if cfg.syncMode then { k with updates.merged.len := len, updates.merged.dtype := dtype } else k
  let (k', responses) := collect cfg key k req
  if k.updates.request.length + 1 < cfg.numWorkers then (k', responses)
  else ({ k' with stored := ⟨some (copy (fun _ => 0) vals len), len, dtype⟩ }, responses)

/-- What a push does to the buffers: the key after it, and the messages for the engine.
mirrors byteps/byteps/server/server.cc:323-371 -/
def handleRecv [Add E] (cfg : Config) (k : KeyState E W σ) (store : Nat → E) (len : Nat) (vals : Nat → E) :
    Option (KeyState E W σ × List (Body E)) :=
  if k.updates.request.isEmpty then
    if cfg.syncMode then some (k, [⟨.copyFirst, .buf vals, k.stored.len, len⟩])
    else some ({ k with stored.tensor := some (sum store vals len) }, [])
  else if !cfg.syncMode then none
  else if cfg.isEngineBlocking then
    match k.updates.merged.tensor with
    | none => none
    | some .store => some ({ k with stored.tensor := some (sum store vals len) }, [])
    | some (.buf m) => some ({ k with updates.merged.tensor := some (.buf (sum m vals len)) }, [])
  else some (k, [⟨.sumRecv, .buf vals, k.stored.len, len⟩])

/-- The end of a round: the last push of it sends `ALL_RECV`.
mirrors byteps/byteps/server/server.cc:373-401 -/
def handleRound (cfg : Config) (k : KeyState E W σ) (store : Nat → E) (req : KVMeta W) (len : Nat) :
    Option (KeyState E W σ × List (Body E)) :=
  let request := k.updates.request ++ [req]
  if cfg.syncMode then
    if request.length = cfg.numWorkers then
      if cfg.isEngineBlocking then do
        let merged ← k.updates.merged.tensor
        let vals ← k.read merged
        some ({ k with updates.request := [], stored.tensor := some (copy store vals len) }, [])
      else some ({ k with updates.request := [] }, [⟨.allRecv, .store, k.stored.len, 0⟩])
    else some ({ k with updates.request := request }, [])
  else some ({ k with updates.request := [] }, [])

/-- mirrors byteps/byteps/server/server.cc:285-401 -/
def handlePush [Add E] [Zero E] (cfg : Config) (s : State E W σ) (key : Nat) (req : KVMeta W)
    (dtype len : Nat) (vals : Nat → E) : Option (State E W σ × List (Response E W)) :=
  match (s.keys key).stored.tensor with
  | none =>
    let (k, responses) := handleInit cfg key (s.keys key) req dtype len vals
    some (s.setKey key k, responses)
  | some store => do
    let (tid, s) ← getThreadID cfg s key len
    let (k, recv) ← handleRecv cfg (s.keys key) store len vals
    let (k, round) ← handleRound cfg k store req len
    some ((recv ++ round).foldl (enqueue tid key) (s.setKey key k), [.push key req])

/-- mirrors byteps/byteps/server/server.cc:402-435 -/
def handlePull (cfg : Config) (s : State E W σ) (key : Nat) (req : KVMeta W) :
    Option (State E W σ × List (Response E W)) :=
  let k := s.keys key
  if k.stored.tensor.isNone then none
  else if cfg.isEngineBlocking || !cfg.syncMode then do
    let r ← sendPullResponse key k req
    some (s, [r])
  else do
    let (tid, s) ← getThreadID cfg s key 0
    let f := s.flags tid key
    if f.isPushFinished ∧ req.sender ∉ f.seenSender then
      let r ← sendPullResponse key k req
      let f := f.see req.sender
      some (s.setFlags tid key (if f.pullCnt = cfg.numWorkers then f.reset else f), [r])
    else some (s.setFlags tid key { f with qPullReqmeta := f.qPullReqmeta ++ [req] }, [])

/-- mirrors byteps/byteps/server/server.cc:217-436 -/
def handler [Add E] [Zero E] (cfg : Config) (C : Compressor E σ) (s : State E W σ) (key : Nat) (req : KVMeta W) :
    Request E → Option (State E W σ × List (Response E W))
  | .register content => do
    let (k, responses) ← handleRegister cfg C key (s.keys key) req content
    some (s.setKey key k, responses)
  | .push dtype len vals => handlePush cfg s key req dtype len vals
  | .pull => handlePull cfg s key req

/-! ## What the calls do in synchronous, non-blocking mode -/

section Sync
variable {cfg : Config} {C : Compressor E σ} {key : Nat} {k k' : KeyState E W σ} {f f' : Flags W} {b : Body E}

omit [DecidableEq W] in
/-- Gathering changes the request buffer only. -/
theorem collect_fst (cfg : Config) (key : Nat) (k : KeyState E W σ) (req : KVMeta W) :
    (collect cfg key k req).1 = { k with updates.request :=
      if k.updates.request.length + 1 < cfg.numWorkers then k.updates.request ++ [req] else [] } := by
  unfold collect
  by_cases h : k.updates.request.length + 1 < cfg.numWorkers <;> simp [h]

omit [DecidableEq W] in
/-- An init push is gathered; the last one makes the store. -/
theorem handleInit_eq [Zero E] (cfg : Config) (key : Nat) (k : KeyState E W σ) (req : KVMeta W) (dtype len : Nat)
    (vals : Nat → E) : ∃ k₀ : KeyState E W σ, k₀.updates.request = k.updates.request ∧ k₀.stored = k.stored ∧
      k₀.compressor = k.compressor ∧ handleInit cfg key k req dtype len vals =
        (if k.updates.request.length + 1 < cfg.numWorkers then (collect cfg key k₀ req).1
          else { (collect cfg key k₀ req).1 with stored := ⟨some (copy (fun _ => 0) vals len), len, dtype⟩ },
        (collect cfg key k₀ req).2) := by
  refine ⟨if cfg.syncMode then { k with updates.merged.len := len, updates.merged.dtype := dtype } else k,
    ?_, ?_, ?_, ?_⟩
  · split <;> rfl
  · split <;> rfl
  · split <;> rfl
  · have hreq : (if cfg.syncMode then { k with updates.merged.len := len, updates.merged.dtype := dtype }
        else k).updates.request = k.updates.request := by split <;> rfl
    by_cases hlt : k.updates.request.length + 1 < cfg.numWorkers <;> simp [handleInit, hreq, hlt]

omit [DecidableEq W] in
theorem handleInit_fst [Zero E] (cfg : Config) (key : Nat) (k : KeyState E W σ) (req : KVMeta W) (dtype len : Nat)
    (vals : Nat → E) : (handleInit cfg key k req dtype len vals).1.compressor = k.compressor ∧
      ((handleInit cfg key k req dtype len vals).1.stored = k.stored ∨
        (handleInit cfg key k req dtype len vals).1.stored = ⟨some (copy (fun _ => 0) vals len), len, dtype⟩) := by
  obtain ⟨k₀, -, hst, hcomp, heq⟩ := handleInit_eq cfg key k req dtype len vals
  rw [heq]
  by_cases hlt : k.updates.request.length + 1 < cfg.numWorkers <;> simp [hlt, collect_fst, hst, hcomp]

omit [DecidableEq W] in
/-- Init pushes are acked, and nothing else is sent. -/
theorem handleInit_snd [Zero E] (cfg : Config) (key : Nat) (k : KeyState E W σ) (req : KVMeta W) (dtype len : Nat)
    (vals : Nat → E) :
    ∃ reqs : List (KVMeta W), (handleInit cfg key k req dtype len vals).2 = reqs.map (.push key) := by
  obtain ⟨k₀, -, -, -, heq⟩ := handleInit_eq cfg key k req dtype len vals
  rw [heq]
  by_cases hlt : k₀.updates.request.length + 1 < cfg.numWorkers
  · exact ⟨[], by simp [collect, hlt]⟩
  · exact ⟨k₀.updates.request ++ [req], by simp [collect, hlt]⟩

omit [DecidableEq W] in
/-- The first push of a round is copied into the store, the others are added. -/
theorem handleRecv_sync [Add E] (hsync : cfg.syncMode = true) (hblock : cfg.isEngineBlocking = false)
    (store : Nat → E) (len : Nat) (vals : Nat → E) :
    handleRecv cfg k store len vals = some (k,
      [⟨if k.updates.request.isEmpty then .copyFirst else .sumRecv, .buf vals, k.stored.len, len⟩]) := by
  unfold handleRecv
  cases hr : k.updates.request.isEmpty <;> simp [hsync, hblock]

omit [DecidableEq W] in
theorem handleRound_sync (hsync : cfg.syncMode = true) (hblock : cfg.isEngineBlocking = false)
    (store : Nat → E) (req : KVMeta W) (len : Nat) :
    handleRound cfg k store req len = some
      (if k.updates.request.length + 1 = cfg.numWorkers then
        ({ k with updates.request := [] }, [⟨.allRecv, .store, k.stored.len, 0⟩])
      else ({ k with updates.request := k.updates.request ++ [req] }, [])) := by
  unfold handleRound
  by_cases hlast : k.updates.request.length + 1 = cfg.numWorkers <;> simp [hsync, hblock, hlast]

/-- What a push does to its key, and the messages it sends. -/
structure Pushed (cfg : Config) (k : KeyState E W σ) (req : KVMeta W) (len : Nat) (vals : Nat → E)
    (k' : KeyState E W σ) (msgs : List (Body E)) : Prop where
  stored : k'.stored = k.stored
  compressor : k'.compressor = k.compressor
  merged : k'.updates.merged = k.updates.merged
  request : k'.updates.request =
    if k.updates.request.length + 1 = cfg.numWorkers then [] else k.updates.request ++ [req]
  msgs : msgs = ⟨if k.updates.request.isEmpty then .copyFirst else .sumRecv, .buf vals, k.stored.len, len⟩ ::
    if k.updates.request.length + 1 = cfg.numWorkers then [⟨.allRecv, .store, k.stored.len, 0⟩] else []

omit [DecidableEq W] in
theorem push_sync [Add E] (hsync : cfg.syncMode = true) (hblock : cfg.isEngineBlocking = false)
    {store vals : Nat → E} {len : Nat} {req : KVMeta W} {k₁ : KeyState E W σ} {recv round : List (Body E)}
    (hrecv : handleRecv cfg k store len vals = some (k₁, recv))
    (hround : handleRound cfg k₁ store req len = some (k', round)) :
    Pushed cfg k req len vals k' (recv ++ round) := by
  rw [handleRecv_sync hsync hblock] at hrecv
  cases hrecv
  rw [handleRound_sync hsync hblock] at hround
  by_cases hlast : k.updates.request.length + 1 = cfg.numWorkers
  · rw [if_pos hlast] at hround
    cases hround
    exact ⟨rfl, rfl, rfl, by rw [if_pos hlast], by rw [if_pos hlast]; rfl⟩
  · rw [if_neg hlast] at hround
    cases hround
    exact ⟨rfl, rfl, rfl, by rw [if_neg hlast], by rw [if_neg hlast]; rfl⟩

omit [DecidableEq W] in
theorem sendPullResponse_some {req : KVMeta W} {r : Response E W} (h : sendPullResponse key k req = some r) :
    ∃ p vals, k.updates.merged.tensor = some p ∧ k.read p = some vals ∧
      r = .pull key req k.updates.merged.len vals := by
  simp only [sendPullResponse, Option.bind_eq_bind, Option.bind_eq_some_iff, Option.pure_def,
    Option.some.injEq] at h
  obtain ⟨p, hp, vals, hvals, rfl⟩ := h
  exact ⟨p, vals, hp, hvals, rfl⟩

omit [DecidableEq W] in
/-- Pulls answered together get the same data. -/
theorem mapM_sendPullResponse {reqs : List (KVMeta W)} {resps : List (Response E W)} (d : Nat → E)
    (h : reqs.mapM (sendPullResponse key k) = some resps) :
    ∃ vals, resps = reqs.map (fun req => .pull key req k.updates.merged.len vals) ∧
      (reqs ≠ [] → ∃ p, k.updates.merged.tensor = some p ∧ k.read p = some vals) := by
  induction reqs generalizing resps with
  | nil => cases h; exact ⟨d, rfl, fun hne => absurd rfl hne⟩
  | cons req reqs ih =>
    simp only [List.mapM_cons, Option.bind_eq_bind, Option.bind_eq_some_iff, Option.pure_def,
      Option.some.injEq] at h
    obtain ⟨r, hr, rest, hrest, rfl⟩ := h
    obtain ⟨p, vals, hp, hvals, rfl⟩ := sendPullResponse_some hr
    obtain ⟨vals', rfl, hvals'⟩ := ih hrest
    refine ⟨vals, ?_, fun _ => ⟨p, hp, hvals⟩⟩
    cases reqs with
    | nil => rfl
    | cons req' reqs =>
      obtain ⟨p', hp', hv'⟩ := hvals' (by simp)
      rw [hp] at hp'
      cases hp'
      rw [hvals] at hv'
      cases hv'
      rfl

omit [DecidableEq W] in
theorem source_some {src : Nat → E} (h : source C k b = some (k', src)) :
    k'.updates = k.updates ∧ k'.stored = k.stored ∧ (k.compressor = none → k' = k ∧ k.read b.src = some src) := by
  simp only [source, Option.bind_eq_bind, Option.bind_eq_some_iff] at h
  obtain ⟨raw, hraw, h⟩ := h
  cases hc : k.compressor with
  | none =>
    simp only [hc, Option.some.injEq, Prod.mk.injEq] at h
    obtain ⟨rfl, rfl⟩ := h
    exact ⟨rfl, rfl, fun _ => ⟨rfl, hraw⟩⟩
  | some c =>
    simp only [hc] at h
    split at h
    · cases h; exact ⟨rfl, rfl, fun hn => by simp at hn⟩
    · cases h

omit [DecidableEq W] in
theorem publish_some (h : publish C k b = some k') :
    k'.updates.request = k.updates.request ∧ k'.stored = k.stored ∧
      (k.compressor = none → k'.compressor = none ∧ k'.updates.merged.tensor = some b.src ∧
        k'.updates.merged.len = b.len) := by
  simp only [publish, Option.bind_eq_bind, Option.bind_eq_some_iff] at h
  obtain ⟨raw, hraw, h⟩ := h
  cases hc : k.compressor with
  | none =>
    simp only [hc, Option.some.injEq] at h
    subst h
    exact ⟨rfl, rfl, fun _ => ⟨rfl, rfl, rfl⟩⟩
  | some c =>
    simp only [hc, Option.some.injEq] at h
    subst h
    exact ⟨rfl, rfl, fun hn => by simp at hn⟩

/-- A `COPY_FIRST` or `SUM_RECV` writes the store and answers nobody. -/
theorem runMessage_data [Add E] {resps : List (Response E W)} (hb : b.ops ≠ .allRecv)
    (h : runMessage cfg C key k f b = some (k', f', resps)) :
    f' = f ∧ resps = [] ∧ k'.updates = k.updates ∧ k'.stored.len = k.stored.len ∧
      ∃ dst src, k.stored.tensor = some dst ∧
        k'.stored.tensor = some (if b.ops = .copyFirst then copy dst src b.len else sum dst src b.len) ∧
        (k.compressor = none → k'.compressor = none ∧ k.read b.src = some src) := by
  simp only [runMessage, Option.bind_eq_bind, Option.bind_eq_some_iff] at h
  obtain ⟨dst, hdst, h⟩ := h
  cases ho : b.ops with
  | allRecv => exact absurd ho hb
  | copyFirst
  | sumRecv =>
    simp only [ho, Option.bind_eq_some_iff, Prod.exists, Option.some.injEq, Prod.mk.injEq] at h
    obtain ⟨k₁, src, hsrc, rfl, rfl, rfl⟩ := h
    obtain ⟨hu, hs, hc⟩ := source_some hsrc
    refine ⟨rfl, rfl, hu, by rw [hs], dst, src, hdst, by simp, fun hn => ?_⟩
    obtain ⟨rfl, hr⟩ := hc hn
    exact ⟨hn, hr⟩

/-- An `ALL_RECV` leaves the store alone and answers what the loop over the waiting pulls
answers. -/
theorem runMessage_all [Add E] {resps : List (Response E W)} (hb : b.ops = .allRecv)
    (h : runMessage cfg C key k f b = some (k', f', resps)) :
    k'.updates.request = k.updates.request ∧ k'.stored = k.stored ∧ k.stored.tensor.isSome ∧
    (k.compressor = none → k'.compressor = none ∧ k'.updates.merged.tensor = some b.src ∧
      k'.updates.merged.len = b.len) ∧
    ∃ f₁ kept answered vals,
      answerPulls cfg.numWorkers { f with isPushFinished := true } f.qPullReqmeta = (f₁, kept, answered) ∧
      f' = { f₁ with qPullReqmeta := kept } ∧
      resps = answered.map (fun req => .pull key req k'.updates.merged.len vals) ∧
      (answered ≠ [] → ∃ p, k'.updates.merged.tensor = some p ∧ k'.read p = some vals) := by
  simp only [runMessage, hb, Option.bind_eq_bind, Option.bind_eq_some_iff] at h
  obtain ⟨dst, hdst, k₁, hk₁, rs, hrs, h⟩ := h
  cases h
  obtain ⟨hreq, hst, hc⟩ := publish_some hk₁
  obtain ⟨vals, hv, hvals⟩ := mapM_sendPullResponse dst hrs
  exact ⟨hreq, hst, by simp [hdst], hc, _, _, _, vals, rfl, rfl, hv, hvals⟩

end Sync

end Inca.L4.Server
