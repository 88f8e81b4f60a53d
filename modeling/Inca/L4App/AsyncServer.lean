import Mathlib.Algebra.BigOperators.Group.List.Basic
import Inca.L4App.Server

/-!
# The server in async mode (`sync_mode_` false)

In async mode a push is added to the store right in the handler, and a pull
is answered at once. The answer is read through `merged.tensor` of the
update buffer. Its writers are the engine's `ALL_RECV` and, in blocking
mode, the sums of later pushes of a round; both run in sync mode only. So
the pointer stays null and `SendPullResponse` fails its `CHECK`, whatever
came before.

* `serve_inits`: the init pushes of all workers store the last one's value.
* `handler_push`: a push adds to the store and is acked; `merged.tensor`
  stays null.
* `handler_pull`: a pull fails.
* `async_pull_iff`: after the init pushes, a sequence of pushes and pulls is
  handled as it should be exactly if it has no pull.
-/
namespace Inca.L4.AsyncServer
open Inca.L4.Server

variable {E W σ : Type} [AddCommMonoid E] [DecidableEq W]

/-- The handler over a sequence of requests of one key; `none` if one of them fails a `CHECK`. -/
def serve (cfg : Config) (C : Compressor E σ) (key : Nat) : State E W σ → List (KVMeta W × Request E) →
    Option (State E W σ × List (Response E W))
  | s, [] => some (s, [])
  | s, (req, r) :: rest =>
    (handler cfg C s key req r).bind fun (s, out) =>
      (serve cfg C key s rest).map fun (s, out') => (s, out ++ out')

/-- A push or a pull; a push has data. -/
def PushPull : Request E → Prop
  | .register _ => False
  | .push _ len _ => 0 < len
  | .pull => True

def IsPull : Request E → Prop
  | .pull => True
  | _ => False

/-- What a request adds to element `i` of the store. -/
def added (i : Nat) : Request E → E
  | .push _ len vals => if i < len then vals i else 0
  | _ => 0

/-- The store of init value `v` after the requests. -/
def storeAfter (v : Nat → E) (reqs : List (KVMeta W × Request E)) : Nat → E :=
  fun i => v i + (reqs.map fun q => added i q.2).sum

/-- The responses that the requests should get: an ack for a push, the store for a pull. -/
def expected (key len : Nat) (v : Nat → E) : List (KVMeta W × Request E) → List (Response E W)
  | [] => []
  | (req, .pull) :: rest => .pull key req len v :: expected key len v rest
  | (req, r) :: rest => .push key req :: expected key len (storeAfter v [(req, r)]) rest

/-- A key of an async server after its init pushes. -/
structure Inited (cfg : Config) (key : Nat) (s : State E W σ) (v : Nat → E) : Prop where
  stored : (s.keys key).stored.tensor = some v
  request : (s.keys key).updates.request = []
  merged : (s.keys key).updates.merged.tensor = none
  thread : (s.hashCache key).isSome ∨ (minLoad s.accLoad cfg.engineThreadNum).1.isSome

/-! ## Init pushes -/

/-- One worker's init push. -/
structure InitPush (E W : Type) where
  req : KVMeta W
  dtype : Nat
  len : Nat
  vals : Nat → E

def InitPush.request (p : InitPush E W) : KVMeta W × Request E := (p.req, .push p.dtype p.len p.vals)

/-- A key of an async server that has gathered `reqs`, fewer than it has workers. -/
structure Gathering (cfg : Config) (key : Nat) (s : State E W σ) (reqs : List (KVMeta W)) : Prop where
  stored : (s.keys key).stored.tensor = none
  request : (s.keys key).updates.request = reqs
  merged : (s.keys key).updates.merged.tensor = none
  thread : (minLoad s.accLoad cfg.engineThreadNum).1.isSome

theorem minLoad_zero (t : Nat) (ht : 0 < t) : (minLoad (fun _ => 0) t).1.isSome := by
  have h : ∀ t, (minLoad (fun _ => 0) (t + 1)) = (some 0, 0) := by
    intro t
    induction t with
    | zero => rfl
    | succ t ih => rw [minLoad, ih]; rfl
  obtain ⟨u, rfl⟩ := Nat.exists_eq_succ_of_ne_zero (Nat.pos_iff_ne_zero.mp ht)
  rw [Nat.succ_eq_add_one, h]
  rfl

omit [AddCommMonoid E] [DecidableEq W] in
theorem gathering_init {cfg : Config} (ht : 0 < cfg.engineThreadNum) (key : Nat) :
    Gathering cfg key (State.init cfg : State E W σ) [] :=
  ⟨rfl, rfl, rfl, minLoad_zero _ ht⟩

section Handler
variable {cfg : Config} (hasync : cfg.syncMode = false) (C : Compressor E σ) {key : Nat}
  {s : State E W σ}
include hasync

omit [DecidableEq W] in
/-- Without `sync_mode_` an init push leaves `merged` alone. -/
theorem handleInit_async (k : KeyState E W σ) (req : KVMeta W) (dtype len : Nat) (vals : Nat → E) :
    handleInit cfg key k req dtype len vals =
      if k.updates.request.length + 1 < cfg.numWorkers then
        ({ k with updates.request := k.updates.request ++ [req] }, [])
      else ({ k with
        stored := ⟨some (copy (fun _ => 0) vals len), len, dtype⟩
        updates.request := [] }, (k.updates.request ++ [req]).map (.push key)) := by
  by_cases h : k.updates.request.length + 1 < cfg.numWorkers <;> simp [handleInit, hasync, Server.collect, h]

theorem handler_init {reqs : List (KVMeta W)} (h : Gathering cfg key s reqs) (p : InitPush E W) :
    ∃ s' out, handler cfg C s key p.req (.push p.dtype p.len p.vals) = some (s', out) ∧
      if reqs.length + 1 < cfg.numWorkers then out = [] ∧ Gathering cfg key s' (reqs ++ [p.req])
      else out = (reqs ++ [p.req]).map (.push key) ∧
        Inited cfg key s' (copy (fun _ => 0) p.vals p.len) := by
  obtain ⟨hs, rfl, hm, ht⟩ := h
  simp only [handler, handlePush, hs, handleInit_async hasync]
  by_cases hlt : (s.keys key).updates.request.length + 1 < cfg.numWorkers
  · simp only [if_pos hlt]
    exact ⟨_, _, rfl, rfl, by simp [hs], by simp, by simp [hm], ht⟩
  · simp only [if_neg hlt]
    exact ⟨_, _, rfl, rfl, by simp, by simp, by simp [hm], .inr ht⟩

/-- A push after the init pushes: added to the store and acked. -/
theorem handler_push {v : Nat → E} (h : Inited cfg key s v) (req : KVMeta W) (dtype : Nat) {len : Nat}
    (hl : 0 < len) (vals : Nat → E) :
    ∃ s', handler cfg C s key req (.push dtype len vals) = some (s', [.push key req]) ∧
      Inited cfg key s' (storeAfter v [(req, .push dtype len vals)]) := by
  obtain ⟨hs, hr, hm, ht⟩ := h
  have hsum : sum v vals len = storeAfter v [(req, .push dtype len vals)] := by
    funext i
    by_cases hi : i < len <;> simp [sum, storeAfter, added, hi]
  -- the thread is the cached one, or the one with the least load
  have hthread : ∃ tid s1, getThreadID cfg s key len = some (tid, s1) ∧ s1.keys = s.keys ∧
      (s1.hashCache key).isSome := by
    unfold getThreadID
    cases hc : s.hashCache key with
    | some tid => exact ⟨tid, s, rfl, rfl, by simp [hc]⟩
    | none =>
      obtain ⟨tid, htid⟩ := Option.isSome_iff_exists.mp (ht.resolve_left (by simp [hc]))
      simp only [htid, if_neg (Nat.pos_iff_ne_zero.mp hl)]
      exact ⟨tid, _, rfl, rfl, by simp⟩
  obtain ⟨tid, s1, hg, hk, hc⟩ := hthread
  refine ⟨s1.setKey key { s.keys key with
    stored.tensor := some (sum v vals len), updates.request := [] }, ?_, ?_⟩
  · simp [handler, handlePush, hs, hg, hk, handleRecv, hr, hasync, handleRound]
  · rw [← hsum]
    exact ⟨by simp, by simp, by simp [hm], .inl (by simpa using hc)⟩

/-- A pull fails: nothing ever sets the pointer it reads. -/
theorem handler_pull {v : Nat → E} (h : Inited cfg key s v) (req : KVMeta W) :
    handler cfg C s key req .pull = none := by
  simp [handler, handlePull, h.stored, hasync, sendPullResponse, h.merged]

theorem serve_inits {reqs : List (KVMeta W)} (h : Gathering cfg key s reqs) (ps : List (InitPush E W))
    (p : InitPush E W) (hn : reqs.length + (ps ++ [p]).length = cfg.numWorkers) :
    ∃ s' out, serve cfg C key s ((ps ++ [p]).map InitPush.request) = some (s', out) ∧
      Inited cfg key s' (copy (fun _ => 0) p.vals p.len) := by
  -- the buffer grows by one request per push until the last one fills it
  induction ps generalizing s reqs with
  | nil =>
    obtain ⟨s', out, hh, hi⟩ := handler_init hasync C h p
    simp only [List.nil_append, List.length_singleton] at hn
    rw [if_neg (by omega)] at hi
    exact ⟨s', out ++ [], by simp [serve, InitPush.request, hh], hi.2⟩
  | cons q ps ih =>
    obtain ⟨s1, out, hh, hi⟩ := handler_init hasync C h q
    simp only [List.cons_append, List.length_cons, List.length_append, List.length_nil] at hn
    rw [if_pos (by omega)] at hi
    obtain ⟨s', out', hs', hfin⟩ := ih hi.2 (by simp; omega)
    refine ⟨s', out ++ out', ?_, hfin⟩
    simp only [List.cons_append, List.map_cons, serve, InitPush.request, hh, Option.bind_some] at hs' ⊢
    rw [hs']
    rfl

/-- Pushes alone are all acked, and the store holds the init value plus their sum. -/
theorem serve_pushes {v : Nat → E} (h : Inited cfg key s v) (reqs : List (KVMeta W × Request E))
    (hreqs : ∀ q ∈ reqs, PushPull q.2) (hno : ∀ q ∈ reqs, ¬ IsPull q.2) (len : Nat) :
    ∃ s', serve cfg C key s reqs = some (s', expected key len v reqs) ∧
      Inited cfg key s' (storeAfter v reqs) := by
  induction reqs generalizing s v with
  | nil =>
    have hv : storeAfter v ([] : List (KVMeta W × Request E)) = v := by funext i; simp [storeAfter]
    exact ⟨s, rfl, by rw [hv]; exact h⟩
  | cons q reqs ih =>
    obtain ⟨req, r⟩ := q
    cases r with
    | register content => exact absurd (hreqs _ List.mem_cons_self) id
    | pull => exact absurd trivial (hno _ List.mem_cons_self)
    | push dtype plen vals =>
      obtain ⟨s1, hh, h1⟩ := handler_push hasync C h req dtype (hreqs _ List.mem_cons_self) vals
      obtain ⟨s', hs', h'⟩ := ih h1 (fun q hq => hreqs q (List.mem_cons_of_mem _ hq))
        (fun q hq => hno q (List.mem_cons_of_mem _ hq))
      refine ⟨s', by simp [serve, hh, hs', expected], ?_⟩
      have hv : storeAfter v ((req, .push dtype plen vals) :: reqs) =
          storeAfter (storeAfter v [(req, .push dtype plen vals)]) reqs := by
        funext i; simp [storeAfter, add_assoc]
      rw [hv]
      exact h'

/-- A sequence with a pull does not get to its end. -/
theorem serve_pull {v : Nat → E} (h : Inited cfg key s v) (reqs : List (KVMeta W × Request E))
    (hreqs : ∀ q ∈ reqs, PushPull q.2) (hp : ∃ q ∈ reqs, IsPull q.2) : serve cfg C key s reqs = none := by
  induction reqs generalizing s v with
  | nil => simp at hp
  | cons q reqs ih =>
    obtain ⟨req, r⟩ := q
    cases r with
    | register content => exact absurd (hreqs _ List.mem_cons_self) id
    | pull => simp [serve, handler_pull hasync C h req]
    | push dtype plen vals =>
      obtain ⟨s1, hh, h1⟩ := handler_push hasync C h req dtype (hreqs _ List.mem_cons_self) vals
      have hrest : ∃ q ∈ reqs, IsPull q.2 := by
        obtain ⟨q, hq, hpull⟩ := hp
        rcases List.mem_cons.mp hq with rfl | hq
        · exact absurd hpull id
        · exact ⟨q, hq, hpull⟩
      simp [serve, hh, ih h1 (fun q hq => hreqs q (List.mem_cons_of_mem _ hq)) hrest]

end Handler

/-- **Async mode.** After the init pushes of all workers, a sequence of pushes and pulls of the
key gets its acks and answers, and leaves the init value plus the pushes in the store, exactly
if it has no pull: each pull fails. -/
theorem async_pull_iff {cfg : Config} (hasync : cfg.syncMode = false) (ht : 0 < cfg.engineThreadNum)
    (C : Compressor E σ) (key : Nat) (ps : List (InitPush E W)) (p : InitPush E W)
    (hn : (ps ++ [p]).length = cfg.numWorkers) (reqs : List (KVMeta W × Request E))
    (hreqs : ∀ q ∈ reqs, PushPull q.2) :
    ∃ s out, serve cfg C key (State.init cfg) ((ps ++ [p]).map InitPush.request) = some (s, out) ∧
      (s.keys key).stored.tensor = some (copy (fun _ => 0) p.vals p.len) ∧
      ((∃ s', serve cfg C key s reqs =
          some (s', expected key (s.keys key).stored.len (copy (fun _ => 0) p.vals p.len) reqs) ∧
        (s'.keys key).stored.tensor = some (storeAfter (copy (fun _ => 0) p.vals p.len) reqs)) ↔
      ∀ q ∈ reqs, ¬ IsPull q.2) := by
  obtain ⟨s, out, hs, hi⟩ := serve_inits hasync C (gathering_init ht key) ps p (by simpa using hn)
  refine ⟨s, out, hs, hi.stored, ?_, ?_⟩
  · rintro ⟨s', h', -⟩ q hq hpull
    rw [serve_pull hasync C hi reqs hreqs ⟨q, hq, hpull⟩] at h'
    cases h'
  · intro hno
    obtain ⟨s', h', hi'⟩ := serve_pushes hasync C hi reqs hreqs hno (s.keys key).stored.len
    exact ⟨s', h', hi'.stored⟩

/-! ### One and two workers -/

def asyncCfg (n : Nat) : Config := ⟨n, 1, false, false, false⟩

def noCompressor : Compressor Nat Unit := ⟨fun _ _ _ => none, fun c v n => (c, v, n), fun c v _ => (c, v)⟩

/-- Worker `w` pushes `x` for a tensor of one element. -/
def initPush (w x : Nat) : InitPush Nat Nat := ⟨⟨w, 0⟩, 0, 1, fun _ => x⟩

theorem async_two_workers :
    ∃ s out, serve (asyncCfg 2) noCompressor 7 (State.init (asyncCfg 2))
        (([initPush 0 10] ++ [initPush 1 20]).map InitPush.request) = some (s, out) ∧
      (s.keys 7).stored.tensor = some (copy (fun _ => 0) (fun _ => 20) 1) ∧
      ((∃ s', serve (asyncCfg 2) noCompressor 7 s [(initPush 0 3).request] =
          some (s', expected 7 (s.keys 7).stored.len (copy (fun _ => 0) (fun _ => 20) 1)
            [(initPush 0 3).request]) ∧
        (s'.keys 7).stored.tensor =
          some (storeAfter (copy (fun _ => 0) (fun _ => 20) 1) [(initPush 0 3).request])) ↔
      ∀ q ∈ [(initPush 0 3).request], ¬ IsPull q.2) :=
  async_pull_iff rfl (by decide) noCompressor 7 [initPush 0 10] (initPush 1 20) rfl
    [(initPush 0 3).request] (by simp [PushPull, InitPush.request, initPush])

/-- **Counterexample.** One worker: its init push is handled, its first pull fails. -/
theorem async_pull_counterexample :
    (serve (asyncCfg 1) noCompressor 7 (State.init (asyncCfg 1)) [(initPush 0 5).request]).isSome ∧
    serve (asyncCfg 1) noCompressor 7 (State.init (asyncCfg 1))
      [(initPush 0 5).request, (⟨0, 1⟩, .pull)] = none := by
  refine ⟨rfl, rfl⟩

end Inca.L4.AsyncServer
