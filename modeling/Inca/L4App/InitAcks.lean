import Inca.L4App.PullRounds

/-!
# Init pushes and registrations are acknowledged together

For each key a worker sends an init push, then, if the workers compress the
key, a registration, then alternates pushes and pulls; it waits for the
response before the next request. The server keeps what it has not yet
acknowledged in one request buffer per key. Init pushes, registrations and
the pushes of a round all go there, told apart only by whether the store
exists and by the command.

The server is in any mode (`Config`), requests carry any data and arrive in
any order, and a request that fails a `CHECK` ends the run. A response is
handed over in the step that sends it; the next request of the worker may
arrive at any later time.

* `Stage`: which requests a key's buffer holds follows from the phases of
  the workers: everybody is at the init push, or at the registration, or
  past both.
* `Gathers.collect`: one more request of the kind that is gathered.
* `stage_inductive`: every step keeps the stage of every key, or moves it on.
* `init_acks`: no init push or registration is acknowledged before
  everybody's has arrived, then each is, once; the buffer holds requests of
  one kind, and fewer than there are workers.
-/
namespace Inca.L4.InitAcks
open Inca.L2 Inca.L4.Server Inca.L4.KeyMachine Inca.L4.PullRounds

/-! ## Workers -/

/-- What a request carries. -/
structure Payload (E : Type) where
  dtype : Nat
  len : Nat
  vals : Nat → E
  content : List Char

inductive Kind
  | init
  | register
  | push
  | pull
deriving DecidableEq

/-- A worker gives each request on a key a timestamp of its own, by kind and round. -/
def kindOf (timestamp : Nat) : Kind :=
  match timestamp with
  | 0 => .init
  | 1 => .register
  | t + 2 => if t % 2 = 0 then .push else .pull

variable {E σ : Type}

/-- The timestamp and the body of the request a worker is about to send, and how it waits.
mirrors byteps/byteps/common/operations.cc:439-493 -/
def send (x : Payload E) : Phase → Option (Nat × Request E × Phase)
  | .init => some (0, .push x.dtype x.len x.vals, .initWait)
  | .reg => some (1, .register x.content, .regWait)
  | .push j => some (2 * j + 2, .push x.dtype x.len x.vals, .pushWait j)
  | .pull j => some (2 * j + 3, .pull, .pullWait j)
  | _ => none

/-- The workers on one key, with the requests that have arrived. -/
structure Run (E : Type) (n : Nat) extends KeyRun E n where
  arrived : List (KVMeta (Fin n))

namespace Run
variable {n : Nat}

def start : Run E n := ⟨.start, []⟩

def arrive (r : Run E n) (w : Fin n) (t : Nat) (p : Phase) : Run E n :=
  ⟨r.wait w p, r.arrived ++ [⟨w, t⟩]⟩

def receive (registers : Bool) (r : Run E n) (resps : List (Response E (Fin n))) : Run E n :=
  ⟨r.receiveAll registers resps, r.arrived⟩

/-- The acks that were sent. -/
def acked (r : Run E n) : List (KVMeta (Fin n)) :=
  r.log.filterMap fun
    | .push _ req => some req
    | .pull _ _ _ _ => none

end Run

/-! ## The system -/

structure St (E σ : Type) (n : Nat) where
  srv : State E (Fin n) σ
  run : Nat → Run E n

inductive Act (E : Type) (n : Nat)
  | req (w : Fin n) (key : Nat) (x : Payload E)
  | engine (i : Nat)

section System
variable [Add E] [Zero E] (cfg : Config) (C : Compressor E σ) (registers : Nat → Bool)

/-- A request reaches the handler, or an engine thread takes a message. -/
def step (S : St E σ cfg.numWorkers) : Act E cfg.numWorkers → Option (St E σ cfg.numWorkers)
  | .req w key x => do
    let (t, body, waiting) ← send x ((S.run key).phase w)
    let (srv, resps) ← handler cfg C S.srv key ⟨w, t⟩ body
    some ⟨srv, Function.update S.run key
      (((S.run key).arrive w t waiting).receive (registers key) resps)⟩
  | .engine i => do
    let (msg, _) ← (S.srv.engineQueues i).waitAndPop
    let (srv, resps) ← engineThread cfg C S.srv i
    some ⟨srv, Function.update S.run msg.key ((S.run msg.key).receive (registers msg.key) resps)⟩

def sys : LTS (St E σ cfg.numWorkers) (Act E cfg.numWorkers) :=
  .ofFn (· = ⟨.init cfg, fun _ => .start⟩) (step cfg C registers)

end System

/-! ## What the calls do to a key, in every mode -/

section Calls
variable {n : Nat} {cfg : Config} {C : Compressor E σ} {key : Nat}

def PullsOnly (resps : List (Response E (Fin n))) : Prop :=
  ∀ x ∈ resps, ∃ k req len vals, x = Response.pull k req len vals

/-- The buffer is the same, and a store that exists still does. -/
structure SameBuffer (k k' : KeyState E (Fin n) σ) : Prop where
  request : k'.updates.request = k.updates.request
  stored : k'.stored.tensor.isSome = k.stored.tensor.isSome

theorem SameBuffer.refl (k : KeyState E (Fin n) σ) : SameBuffer k k := ⟨rfl, rfl⟩

theorem handlePull_buffer {s s' : State E (Fin n) σ} {req : KVMeta (Fin n)}
    {resps : List (Response E (Fin n))} (h : handlePull cfg s key req = some (s', resps)) :
    s'.keys = s.keys ∧ PullsOnly resps := by
  have hone : ∀ {r : Response E (Fin n)}, sendPullResponse key (s.keys key) req = some r →
      PullsOnly [r] := by
    intro r hr x hx
    obtain ⟨p, vals, -, -, rfl⟩ := sendPullResponse_some hr
    exact ⟨_, _, _, _, List.mem_singleton.mp hx⟩
  unfold handlePull at h
  dsimp only at h
  split at h
  · cases h
  · split at h
    · obtain ⟨r, hr, h⟩ := Option.bind_eq_some_iff.mp h
      cases h
      exact ⟨rfl, hone hr⟩
    · obtain ⟨⟨tid, s₁⟩, hid, h⟩ := Option.bind_eq_some_iff.mp h
      obtain ⟨rfl, -⟩ := getThreadID_zero hid
      dsimp only at h
      split at h
      · obtain ⟨r, hr, h⟩ := Option.bind_eq_some_iff.mp h
        cases h
        exact ⟨rfl, hone hr⟩
      · cases h
        exact ⟨rfl, by simp [PullsOnly]⟩

theorem handleRecv_buffer [Add E] {k k' : KeyState E (Fin n) σ} {store vals : Nat → E} {len : Nat}
    {bs : List (Body E)} (hst : k.stored.tensor = some store)
    (h : handleRecv cfg k store len vals = some (k', bs)) : SameBuffer k k' := by
  unfold handleRecv at h
  split at h
  · split at h <;> cases h
    · exact .refl k
    · exact ⟨rfl, by simp [hst]⟩
  · split at h
    · cases h
    · split at h
      · split at h <;> cases h
        · exact ⟨rfl, by simp [hst]⟩
        · exact ⟨rfl, rfl⟩
      · cases h; exact .refl k

/-- The end of a push clears the buffer, or leaves it with one more entry and short of a round. -/
theorem handleRound_buffer {k k' : KeyState E (Fin n) σ} {store : Nat → E} {req : KVMeta (Fin n)}
    {len : Nat} {bs : List (Body E)} (hst : k.stored.tensor.isSome)
    (h : handleRound cfg k store req len = some (k', bs)) : k'.stored.tensor.isSome ∧
      (k'.updates.request = [] ∨ k'.updates.request = k.updates.request ++ [req] ∧
        k.updates.request.length + 1 ≠ cfg.numWorkers) := by
  unfold handleRound at h
  dsimp only at h
  split at h
  · split at h
    · split at h
      · obtain ⟨m, -, h⟩ := Option.bind_eq_some_iff.mp h
        obtain ⟨vals, -, h⟩ := Option.bind_eq_some_iff.mp h
        cases h; exact ⟨rfl, .inl rfl⟩
      · cases h; exact ⟨hst, .inl rfl⟩
    · rename_i hne
      cases h; exact ⟨hst, .inr ⟨rfl, by simpa using hne⟩⟩
  · cases h; exact ⟨hst, .inl rfl⟩

theorem handlePush_buffer [Add E] [Zero E] {s s' : State E (Fin n) σ} {req : KVMeta (Fin n)}
    {dtype len : Nat} {vals store : Nat → E} {resps : List (Response E (Fin n))}
    (hst : (s.keys key).stored.tensor = some store)
    (h : handlePush cfg s key req dtype len vals = some (s', resps)) :
    (∀ k, k ≠ key → s'.keys k = s.keys k) ∧ resps = [.push key req] ∧
      (s'.keys key).stored.tensor.isSome ∧ ((s'.keys key).updates.request = [] ∨
        (s'.keys key).updates.request = (s.keys key).updates.request ++ [req] ∧
          (s.keys key).updates.request.length + 1 ≠ cfg.numWorkers) := by
  obtain ⟨tid, s₁, k, recv, k', round, hid, hrecv, hround, rfl, rfl⟩ := handlePush_some hst h
  have hkeys := (enqueued tid key (recv ++ round) (s₁.setKey key k')).keys
  have hb := handleRecv_buffer hst hrecv
  have hr := handleRound_buffer (by rw [hb.stored, hst]; rfl) hround
  rw [hb.request] at hr
  refine ⟨fun j hj => ?_, rfl, ?_⟩
  · rw [hkeys]; simp [hj, (getThreadID_spec hid).2.2.1]
  · rw [hkeys]; simpa using hr

theorem engineThread_buffer [Add E] {s s' : State E (Fin n) σ} {i : Nat}
    {resps : List (Response E (Fin n))} (h : engineThread cfg C s i = some (s', resps)) :
    (∀ k, SameBuffer (s.keys k) (s'.keys k)) ∧ PullsOnly resps := by
  simp only [engineThread, Option.bind_eq_bind, Option.bind_eq_some_iff, Prod.exists, Option.some.injEq,
    Prod.mk.injEq] at h
  obtain ⟨m, q, -, x, f, rs, hrun, rfl, rfl⟩ := h
  have hbuf : SameBuffer (s.keys m.key) x ∧ PullsOnly rs := by
    by_cases hb : m.body.ops = .allRecv
    · obtain ⟨hreq, hst, -, -, f₁, kept, answered, vals, -, -, rfl, -⟩ := runMessage_all hb hrun
      refine ⟨⟨hreq, by rw [hst]⟩, fun y hy => ?_⟩
      obtain ⟨req, -, rfl⟩ := List.mem_map.mp hy
      exact ⟨_, _, _, _, rfl⟩
    · obtain ⟨-, rfl, hu, -, dst, src, hd, hd', -⟩ := runMessage_data hb hrun
      exact ⟨⟨by rw [hu], by rw [hd, hd']; rfl⟩, by simp [PullsOnly]⟩
  refine ⟨fun k => ?_, hbuf.2⟩
  by_cases hk : k = m.key
  · subst hk; simpa using hbuf.1
  · simpa [hk] using SameBuffer.refl (s.keys k)

end Calls

/-! ## What the workers receive -/

/-- The init pushes and registrations among some requests. -/
def setup {n : Nat} (reqs : List (KVMeta (Fin n))) : List (KVMeta (Fin n)) :=
  reqs.filter fun q => q.timestamp < 2

/-- Past the init push and the registration. -/
def Past : Phase → Prop
  | .push _ | .pushWait _ | .pull _ | .pullWait _ => True
  | _ => False

section Runs
variable {n : Nat}

@[simp] theorem setup_append (l l' : List (KVMeta (Fin n))) : setup (l ++ l') = setup l ++ setup l' :=
  List.filter_append ..

theorem setup_of_lt {l : List (KVMeta (Fin n))} (h : ∀ q ∈ l, q.timestamp < 2) : setup l = l :=
  List.filter_eq_self.mpr fun q hq => decide_eq_true (h q hq)

theorem setup_of_ge {q : KVMeta (Fin n)} (h : 2 ≤ q.timestamp) : setup [q] = [] :=
  List.filter_cons_of_neg (by rw [decide_eq_true_iff]; exact Nat.not_lt_of_le h)

theorem mem_setup {l : List (KVMeta (Fin n))} {q : KVMeta (Fin n)} (h : q.timestamp < 2) :
    q ∈ setup l ↔ q ∈ l := by
  rw [setup, List.mem_filter]
  exact and_iff_left (decide_eq_true h)

theorem count_setup {l : List (KVMeta (Fin n))} {q : KVMeta (Fin n)} (h : q.timestamp < 2) :
    (setup l).count q = l.count q :=
  List.count_filter (decide_eq_true h)

/-- The acks of some requests arrive. -/
theorem acked_receive (b : Bool) (key : Nat) (reqs : List (KVMeta (Fin n))) (r : Run E n) :
    (r.receive b (reqs.map (.push key))).acked = r.acked ++ reqs := by
  simp [Run.receive, Run.acked, receiveAll_log, List.filterMap_append, List.filterMap_map]

/-- Nothing happens before the workers are past their setup, and they stay there. -/
structure SameSetup (r r' : Run E n) : Prop where
  arrived : setup r'.arrived = setup r.arrived
  acked : setup r'.acked = setup r.acked
  phase : ∀ w, r'.phase w = r.phase w ∨ Past (r.phase w) ∧ Past (r'.phase w)

theorem SameSetup.refl (r : Run E n) : SameSetup r r := ⟨rfl, rfl, fun _ => .inl rfl⟩

theorem SameSetup.trans {r r' r'' : Run E n} (h : SameSetup r r') (h' : SameSetup r' r'') :
    SameSetup r r'' := by
  refine ⟨h'.arrived.trans h.arrived, h'.acked.trans h.acked, fun w => ?_⟩
  rcases h.phase w with e | ⟨hp, hp'⟩
  · rw [← e]; exact h'.phase w
  · rcases h'.phase w with e | ⟨-, hp''⟩
    · exact .inr ⟨hp, e ▸ hp'⟩
    · exact .inr ⟨hp, hp''⟩

theorem update_past {phase : Fin n → Phase} {w : Fin n} {p : Phase} (h : Past (phase w)) (hp : Past p)
    (v : Fin n) :
    Function.update phase w p v = phase v ∨ Past (phase v) ∧ Past (Function.update phase w p v) := by
  by_cases hv : v = w
  · subst hv; right; simpa using ⟨h, hp⟩
  · left; simp [hv]

theorem arrive_sameSetup {r : Run E n} {w : Fin n} {t : Nat} {p : Phase} (h : Past (r.phase w)) (hp : Past p)
    (ht : 2 ≤ t) : SameSetup r (r.arrive w t p) :=
  ⟨by simp [Run.arrive, setup_of_ge, ht], rfl, update_past h hp⟩

/-- Only a worker that waits for its pull moves. -/
theorem receive_pull (b : Bool) (key : Nat) (req : KVMeta (Fin n)) (len : Nat) (vals : Nat → E)
    (r : Run E n) : SameSetup r (r.receive b [.pull key req len vals]) := by
  refine ⟨rfl, by simp [Run.acked, Run.receive, receiveAll_log], fun w => ?_⟩
  simp only [Run.receive, KeyRun.receiveAll, List.foldl_cons, List.foldl_nil, KeyRun.receive]
  cases hp : r.phase req.sender with
  | pullWait j =>
    have hpast : Past (Phase.pullWait j).onPull := trivial
    exact update_past (by rw [hp]; trivial) hpast w
  | _ => left; rw [Phase.onPull, ← hp, Function.update_eq_self]; simp

theorem receive_pulls (b : Bool) {resps : List (Response E (Fin n))} (h : PullsOnly resps) (r : Run E n) :
    SameSetup r (r.receive b resps) := by
  induction resps generalizing r with
  | nil => exact .refl r
  | cons x resps ih =>
    obtain ⟨k, req, len, vals, rfl⟩ := h x (by simp)
    exact (receive_pull b k req len vals r).trans (ih (fun y hy => h y (by simp [hy])) _)

end Runs

/-! ## Stages of a key -/

section Stages
variable {n : Nat}

/-- One request with timestamp `t` of every worker, in some order. -/
def Everyone (t : Nat) (reqs : List (KVMeta (Fin n))) : Prop :=
  ∃ ws : List (Fin n), ws.Nodup ∧ (∀ w, w ∈ ws) ∧ reqs = ws.map fun w => ⟨w, t⟩

/-- The workers `ws`, not yet all, have sent their request with timestamp `t` and wait. -/
structure Gathers (t : Nat) (before wait : Phase) (ws : List (Fin n)) (request : List (KVMeta (Fin n)))
    (phase : Fin n → Phase) : Prop extends Gathering before wait ws phase where
  room : 0 < n → ws.length < n
  request : request = ws.map fun w => ⟨w, t⟩

/-- What is gathered before the first round: the timestamp and the phases of the workers, whether
there is a store, and what was acknowledged before. -/
inductive Round (registers : Bool) : Nat → Phase → Phase → Bool → List (KVMeta (Fin n)) → Prop
  | init : Round registers 0 .init .initWait false []
  | register {done : List (KVMeta (Fin n))} : registers = true → Everyone 0 done →
      Round registers 1 .reg .regWait true done

theorem Round.not_past {b stored : Bool} {t : Nat} {before wait p : Phase} {done : List (KVMeta (Fin n))}
    (h : Round b t before wait stored done) (hp : p = before ∨ p = wait) : ¬ Past p := by
  cases h <;> rcases hp with rfl | rfl <;> exact id

/-- All that is acknowledged before the first round. -/
def Done (registers : Bool) (done : List (KVMeta (Fin n))) : Prop :=
  ∃ inits regs, Everyone 0 inits ∧ (if registers then Everyone 1 regs else regs = []) ∧
    done = inits ++ regs

inductive Stage (registers : Bool) (k : KeyState E (Fin n) σ) (r : Run E n) : Prop
  | gather {t : Nat} {before wait : Phase} {ws : List (Fin n)} {done : List (KVMeta (Fin n))} :
    Round registers t before wait k.stored.tensor.isSome done →
    Gathers t before wait ws k.updates.request r.phase →
    setup r.arrived = done ++ k.updates.request → setup r.acked = done → Stage registers k r
  | running {done : List (KVMeta (Fin n))} :
    k.stored.tensor.isSome = true → (∀ w, Past (r.phase w)) →
    (∀ q ∈ k.updates.request, kindOf q.timestamp = .push) →
    (0 < n → k.updates.request.length < n) →
    Done registers done → setup r.arrived = done → setup r.acked = done → Stage registers k r

theorem Stage.keep {b : Bool} {k k' : KeyState E (Fin n) σ} {r r' : Run E n} (h : Stage b k r)
    (hk : SameBuffer k k') (hr : SameSetup r r') : Stage b k' r' := by
  cases h with
  | gather hround hg harr hack =>
    -- nobody is past the setup yet
    have hphase : r'.phase = r.phase := funext fun w =>
      (hr.phase w).resolve_right fun hp => hround.not_past (hg.phase_cases w) hp.1
    exact .gather (hk.stored ▸ hround) ⟨hphase ▸ hg.toGathering, hg.room, hk.request ▸ hg.request⟩
      (by rw [hr.arrived, harr, hk.request]) (by rw [hr.acked, hack])
  | running hst hpast hkind hroom hdone harr hack =>
    refine .running (by rw [hk.stored, hst]) (fun w => ?_) (hk.request ▸ hkind) (hk.request ▸ hroom) hdone
      (by rw [hr.arrived, harr]) (by rw [hr.acked, hack])
    rcases hr.phase w with e | ⟨-, hp⟩
    · rw [e]; exact hpast w
    · exact hp

/-! What the phase of one worker tells about the key. -/

variable {b : Bool} {k : KeyState E (Fin n) σ} {r : Run E n} {w : Fin n}

theorem Stage.of_init (h : Stage b k r) (hw : r.phase w = .init) :
    k.stored.tensor = none ∧ setup r.arrived = k.updates.request ∧ setup r.acked = [] ∧
      ∃ ws, Gathers 0 .init .initWait ws k.updates.request r.phase := by
  cases h with
  | gather hround hg harr hack =>
    generalize hst : k.stored.tensor.isSome = st at hround
    cases hround with
    | init => exact ⟨by simpa using hst, harr, hack, _, hg⟩
    | register _ _ => have := hg.phase_cases w; simp [hw] at this
  | running _ hpast => have := hpast w; rw [hw] at this; exact this.elim

theorem Stage.of_reg (h : Stage b k r) (hw : r.phase w = .reg) :
    b = true ∧ k.stored.tensor.isSome = true ∧
      ∃ done ws, Everyone 0 done ∧ setup r.arrived = done ++ k.updates.request ∧ setup r.acked = done ∧
        Gathers 1 .reg .regWait ws k.updates.request r.phase := by
  cases h with
  | gather hround hg harr hack =>
    generalize hst : k.stored.tensor.isSome = st at hround
    cases hround with
    | init => have := hg.phase_cases w; simp [hw] at this
    | register hb hdone => exact ⟨hb, rfl, _, _, hdone, harr, hack, hg⟩
  | running _ hpast => have := hpast w; rw [hw] at this; exact this.elim

theorem Stage.of_past (h : Stage b k r) (hw : Past (r.phase w)) :
    k.stored.tensor.isSome = true ∧ (∀ w, Past (r.phase w)) ∧
      (∀ q ∈ k.updates.request, kindOf q.timestamp = .push) ∧ k.updates.request.length < n ∧
      ∃ done, Done b done ∧ setup r.arrived = done ∧ setup r.acked = done := by
  cases h with
  | gather hround hg => exact absurd hw (hround.not_past (hg.phase_cases w))
  | running hst hpast hkind hroom hdone harr hack =>
    exact ⟨hst, hpast, hkind, hroom w.pos, _, hdone, harr, hack⟩

end Stages

/-! ## Steps of a key -/

section Steps
variable {cfg : Config} {C : Compressor E σ} {key : Nat} {k k' : KeyState E (Fin cfg.numWorkers) σ}
  {r : Run E cfg.numWorkers} {w : Fin cfg.numWorkers} {b : Bool}
  {resps : List (Response E (Fin cfg.numWorkers))}

/-- One more request is gathered: it stays with the others, or all are acknowledged. -/
theorem Gathers.collect {t : Nat} {before wait : Phase} {ws : List (Fin cfg.numWorkers)}
    (h : Gathers t before wait ws k.updates.request r.phase) (hne : before ≠ wait) (ht : t < 2)
    (hw : r.phase w = before) (hc : Server.collect cfg key k ⟨w, t⟩ = (k', resps)) (b : Bool) :
    (k.updates.request.length + 1 < cfg.numWorkers ∧
      k'.updates.request = k.updates.request ++ [⟨w, t⟩] ∧
      Gathers t before wait (ws ++ [w]) k'.updates.request ((r.arrive w t wait).receive b resps).phase ∧
      setup ((r.arrive w t wait).receive b resps).acked = setup r.acked) ∨
    (¬ k.updates.request.length + 1 < cfg.numWorkers ∧ k'.updates.request = [] ∧
      Everyone t (k.updates.request ++ [⟨w, t⟩]) ∧
      (∀ v, ((r.arrive w t wait).receive b resps).phase v = wait.onPush b) ∧
      setup ((r.arrive w t wait).receive b resps).acked =
        setup r.acked ++ (k.updates.request ++ [⟨w, t⟩])) := by
  have hg : Gathering before wait (ws ++ [w]) (r.arrive w t wait).phase := h.toGathering.arrive hne hw
  have hreq : k.updates.request ++ [⟨w, t⟩] = (ws ++ [w]).map fun w => ⟨w, t⟩ := by simp [h.request]
  have hlen : (ws ++ [w]).length = k.updates.request.length + 1 := by simp [h.request]
  simp only [Server.collect, List.length_append, List.length_singleton] at hc
  by_cases hlt : k.updates.request.length + 1 < cfg.numWorkers
  · rw [if_pos hlt] at hc
    cases hc
    exact .inl ⟨hlt, rfl, ⟨hg, fun _ => by rw [hlen]; exact hlt, hreq⟩, rfl⟩
  · rw [if_neg hlt] at hc
    cases hc
    -- with this request everybody has sent one, so every worker gets an ack
    have hfull : Fintype.card (Fin cfg.numWorkers) ≤ (ws ++ [w]).length := by
      rw [hlen, Fintype.card_fin]; exact Nat.le_of_not_lt hlt
    have hall := (mem_all_iff hg.nodup).mpr hfull
    have hsend : ((ws ++ [w]).map fun w => (⟨w, t⟩ : KVMeta (Fin cfg.numWorkers))).map KVMeta.sender =
        ws ++ [w] := by rw [List.map_map]; exact List.map_id _
    have hsetup : setup (k.updates.request ++ [⟨w, t⟩]) = k.updates.request ++ [⟨w, t⟩] :=
      setup_of_lt fun q hq => by
        rw [hreq] at hq
        obtain ⟨v, -, rfl⟩ := List.mem_map.mp hq
        exact ht
    refine .inr ⟨hlt, rfl, ⟨ws ++ [w], hg.nodup, hall, hreq⟩, fun v => ?_, ?_⟩
    · rw [hreq, Run.receive, receiveAll_push _ _ _ (by rw [hsend]; exact hg.nodup), hsend, if_pos (hall v),
        hg.phase_of_full hfull]
    · rw [acked_receive, setup_append, hsetup]; rfl

theorem setup_arrive {t : Nat} {p : Phase} (ht : t < 2) :
    setup ((r.arrive w t p).receive b resps).arrived = setup r.arrived ++ [⟨w, t⟩] := by
  rw [Run.receive, Run.arrive, setup_append]
  exact congrArg _ (setup_of_lt fun q hq => by rw [List.mem_singleton.mp hq]; exact ht)

/-- The setup of a key is over. -/
theorem Stage.first_round {done : List (KVMeta (Fin cfg.numWorkers))} (hst : k.stored.tensor.isSome = true)
    (hreq : k.updates.request = []) (hphase : ∀ v, r.phase v = .push 0) (hdone : Done b done)
    (harr : setup r.arrived = done) (hack : setup r.acked = done) : Stage b k r :=
  .running hst (fun v => by rw [hphase]; trivial) (by simp [hreq]) (by simp [hreq]) hdone harr hack

/-- An init push; the last one makes the store. -/
theorem Stage.init [Zero E] {dtype len : Nat} {vals : Nat → E} (h : Stage b k r) (hw : r.phase w = .init) :
    Stage b (handleInit cfg key k ⟨w, 0⟩ dtype len vals).1
      ((r.arrive w 0 .initWait).receive b (handleInit cfg key k ⟨w, 0⟩ dtype len vals).2) := by
  obtain ⟨hst, harr, hack, ws, hg⟩ := h.of_init hw
  obtain ⟨k₀, hreq, hst₀, -, heq⟩ := handleInit_eq cfg key k ⟨w, 0⟩ dtype len vals
  obtain ⟨⟨k', resps⟩, hc⟩ : ∃ p, Server.collect cfg key k₀ ⟨w, 0⟩ = p := ⟨_, rfl⟩
  have hst' : (k', resps).1.stored = k.stored := by rw [← hc, collect_fst, hst₀]
  simp only [heq, hc]
  rw [← hreq] at hg harr
  rcases hg.collect (by simp) (by decide) hw hc b with
    ⟨hlt, hreq', hg', hack'⟩ | ⟨hge, hreq', hall, hphase, hack'⟩
  · rw [hreq] at hlt
    rw [if_pos hlt]
    have hround : @Round cfg.numWorkers b 0 .init .initWait k'.stored.tensor.isSome [] := by
      rw [show k'.stored.tensor = none from (congrArg BytePSArray.tensor hst').trans hst]
      exact .init
    refine .gather hround hg' ?_ (hack'.trans hack)
    rw [setup_arrive (by decide), harr, hreq', List.nil_append]
  · rw [hreq] at hge
    rw [if_neg hge]
    rw [hack, List.nil_append] at hack'
    have harr' : setup ((r.arrive w 0 .initWait).receive b resps).arrived =
        k₀.updates.request ++ [⟨w, 0⟩] := by
      rw [setup_arrive (by decide), harr]
    -- the store is made; the registrations come next, or the first round
    cases b with
    | true =>
      refine .gather (.register rfl hall) ⟨.nil hphase, fun hn => hn, hreq'⟩ ?_ hack'
      rw [harr', show _ = [] from hreq', List.append_nil]
    | false => exact .first_round rfl hreq' hphase ⟨_, [], hall, rfl, by rw [List.append_nil]⟩ harr' hack'

/-- A registration; the last one ends the setup. -/
theorem Stage.register {content : List Char} (h : Stage b k r) (hw : r.phase w = .reg)
    (hreg : handleRegister cfg C key k ⟨w, 1⟩ content = some (k', resps)) :
    Stage b k' ((r.arrive w 1 .regWait).receive b resps) := by
  obtain ⟨rfl, hst, done, ws, hdone, harr, hack, hg⟩ := h.of_reg hw
  simp only [handleRegister, Option.bind_eq_bind, Option.bind_eq_some_iff, Option.some.injEq] at hreg
  obtain ⟨c, -, hc⟩ := hreg
  have hst' : (k', resps).1.stored.tensor.isSome = true := by rw [← hc, collect_fst]; exact hst
  have harr' : setup ((r.arrive w 1 .regWait).receive true resps).arrived =
      done ++ (k.updates.request ++ [⟨w, 1⟩]) := by
    rw [setup_arrive (by decide), harr, List.append_assoc]
  rcases Gathers.collect (k := { k with compressor := some c }) hg (by simp) (by decide) hw hc true with
    ⟨-, hreq', hg', hack'⟩ | ⟨-, hreq', hall, hphase, hack'⟩
  · refine .gather ?_ hg' (by rw [harr', hreq']) (hack'.trans hack)
    rw [show k'.stored.tensor.isSome = true from hst']
    exact .register rfl hdone
  · refine .first_round hst' hreq' hphase ⟨done, _, hdone, hall, rfl⟩ harr' ?_
    rw [hack', hack]

/-- A push of a round: it is acknowledged at once, and the buffer is emptied or stays short of a
round. -/
theorem Stage.push {j : Nat} (h : Stage b k r) (hw : r.phase w = .push j)
    (hst : k'.stored.tensor.isSome = true)
    (hreq : k'.updates.request = [] ∨ k'.updates.request = k.updates.request ++ [⟨w, 2 * j + 2⟩] ∧
      k.updates.request.length + 1 ≠ cfg.numWorkers) :
    Stage b k' ((r.arrive w (2 * j + 2) (.pushWait j)).receive b [.push key ⟨w, 2 * j + 2⟩]) := by
  obtain ⟨-, hpast, hkind, hroom, done, hdone, harr, hack⟩ := h.of_past (w := w) (by rw [hw]; trivial)
  have hlate : setup [(⟨w, 2 * j + 2⟩ : KVMeta (Fin cfg.numWorkers))] = [] := setup_of_ge (by simp)
  have hphase : ((r.arrive w (2 * j + 2) (.pushWait j)).receive b [.push key ⟨w, 2 * j + 2⟩]).phase =
      Function.update r.phase w (.pull j) := by
    simp [Run.receive, Run.arrive, KeyRun.receiveAll, KeyRun.receive, KeyRun.wait, Phase.onPush]
  refine .running hst (fun v => ?_) ?_ (fun hn => ?_) hdone ?_ ?_
  · rw [hphase]
    rcases @update_past _ r.phase w (.pull j) (hpast w) trivial v with e | ⟨-, hp⟩
    · rw [e]; exact hpast v
    · exact hp
  · rcases hreq with e | ⟨e, -⟩
    · simp [e]
    · rw [e]
      intro q hq
      rcases List.mem_append.mp hq with hq | hq
      · exact hkind q hq
      · rw [List.mem_singleton.mp hq]; simp [kindOf]
  · rcases hreq with e | ⟨e, hne⟩
    · simpa [e] using hn
    · rw [e, List.length_append, List.length_singleton]; omega
  · rw [Run.receive, Run.arrive, setup_append, hlate, List.append_nil, harr]
  · have := acked_receive b key [⟨w, 2 * j + 2⟩] (r.arrive w (2 * j + 2) (.pushWait j))
    rw [List.map_singleton] at this
    rw [this, setup_append, hlate, List.append_nil]
    exact hack

end Steps

/-! ## Steps of the system -/

section System
variable [Add E] [Zero E] {cfg : Config} {C : Compressor E σ} {registers : Nat → Bool}

/-- Every key is in one of its stages. -/
def Stages (registers : Nat → Bool) (S : St E σ cfg.numWorkers) : Prop :=
  ∀ key, Stage (registers key) (S.srv.keys key) (S.run key)

omit [Add E] [Zero E] in
/-- Only the key of a request changes. -/
theorem Stages.update {S : St E σ cfg.numWorkers} {srv : State E (Fin cfg.numWorkers) σ} {key : Nat}
    {run : Run E cfg.numWorkers} (h : Stages registers S)
    (hkeys : ∀ k, k ≠ key → srv.keys k = S.srv.keys k) (hkey : Stage (registers key) (srv.keys key) run) :
    Stages registers ⟨srv, Function.update S.run key run⟩ := by
  intro k
  by_cases hk : k = key
  · subst hk; simpa using hkey
  · simpa [hk, hkeys k hk] using h k

theorem stages_req {S S' : St E σ cfg.numWorkers} {w : Fin cfg.numWorkers} {key : Nat} {x : Payload E}
    (h : Stages registers S) (hs : step cfg C registers S (.req w key x) = some S') : Stages registers S' := by
  simp only [step, Option.bind_eq_bind, Option.bind_eq_some_iff, Prod.exists, Option.some.injEq] at hs
  obtain ⟨t, body, waiting, hsend, srv, resps, hh, rfl⟩ := hs
  have hkey := h key
  cases hp : (S.run key).phase w with
  | init =>
    rw [hp] at hsend
    cases hsend
    obtain ⟨rfl, rfl⟩ := handlePush_none (hkey.of_init hp).1 hh
    exact h.update (fun k hk => by simp [hk]) (by simpa using hkey.init hp)
  | reg =>
    rw [hp] at hsend
    cases hsend
    simp only [handler, Option.bind_eq_bind, Option.bind_eq_some_iff, Prod.exists, Option.some.injEq,
      Prod.mk.injEq] at hh
    obtain ⟨k', _, hreg, rfl, rfl⟩ := hh
    exact h.update (fun k hk => by simp [hk]) (by simpa using hkey.register hp hreg)
  | push j =>
    rw [hp] at hsend
    cases hsend
    obtain ⟨store, hst⟩ := Option.isSome_iff_exists.mp (hkey.of_past (w := w) (by rw [hp]; trivial)).1
    obtain ⟨hkeys, rfl, hst', hreq⟩ := handlePush_buffer hst hh
    exact h.update hkeys (hkey.push hp hst' hreq)
  | pull j =>
    rw [hp] at hsend
    cases hsend
    obtain ⟨hkeys, hpulls⟩ := handlePull_buffer hh
    refine h.update (fun k _ => by rw [hkeys]) ?_
    rw [hkeys]
    refine hkey.keep (.refl _) (SameSetup.trans ?_ (receive_pulls _ hpulls _))
    exact arrive_sameSetup (by rw [hp]; trivial) trivial (by simp)
  | _ => rw [hp] at hsend; cases hsend

theorem stages_engine {S S' : St E σ cfg.numWorkers} {i : Nat} (h : Stages registers S)
    (hs : step cfg C registers S (.engine i) = some S') : Stages registers S' := by
  simp only [step, Option.bind_eq_bind, Option.bind_eq_some_iff, Prod.exists, Option.some.injEq] at hs
  obtain ⟨m, _, -, srv, resps, hrun, rfl⟩ := hs
  obtain ⟨hbuf, hpulls⟩ := engineThread_buffer hrun
  -- an engine thread answers pulls only, and these reach nobody before the first round
  intro k
  refine (h k).keep (hbuf k) ?_
  by_cases hk : k = m.key
  · subst hk; simpa using receive_pulls (registers m.key) hpulls (S.run m.key)
  · simpa [hk] using SameSetup.refl (S.run k)

theorem stage_inductive : (sys cfg C registers).Inductive (Stages registers) where
  init := by
    rintro S rfl key
    have hg : Gathers 0 .init .initWait [] [] fun _ : Fin cfg.numWorkers => Phase.init :=
      ⟨.nil fun _ => rfl, id, rfl⟩
    exact .gather .init hg rfl rfl
  step := by
    rintro S a S' h hs
    cases a with
    | req w key x => exact stages_req h hs
    | engine i => exact stages_engine h hs

end System

/-! ## Acknowledgements -/

section Acks
variable {n : Nat}

/-- `req w` is the request of worker `w`: if everybody's has arrived, each is acknowledged once;
before that, none is. -/
def AckedTogether (req : Fin n → KVMeta (Fin n)) (r : Run E n) : Prop :=
  ∀ w, r.acked.count (req w) = if ∀ v, req v ∈ r.arrived then 1 else 0

/-- The buffer of a key after a handler step. -/
structure BufferOk (request : List (KVMeta (Fin n))) : Prop where
  one_kind : ∀ p ∈ request, ∀ q ∈ request, kindOf p.timestamp = kindOf q.timestamp
  room : 0 < n → request.length < n

theorem Everyone.mem {t : Nat} {reqs : List (KVMeta (Fin n))} (h : Everyone t reqs) (w : Fin n) (t' : Nat) :
    ⟨w, t'⟩ ∈ reqs ↔ t' = t := by
  obtain ⟨ws, -, hall, rfl⟩ := h
  simp [hall w, eq_comm]

theorem Everyone.count {t : Nat} {reqs : List (KVMeta (Fin n))} (h : Everyone t reqs) (w : Fin n) (t' : Nat) :
    reqs.count ⟨w, t'⟩ = if t' = t then 1 else 0 := by
  split
  · rename_i ht
    subst ht
    have hmem := (h.mem w t').mpr rfl
    obtain ⟨ws, hnd, -, rfl⟩ := h
    refine List.count_eq_one_of_mem (hnd.map fun u v e => ?_) hmem
    exact congrArg KVMeta.sender e
  · rename_i ht
    exact List.count_eq_zero_of_not_mem fun hm => ht ((h.mem w t').mp hm)

theorem Gathers.mem {t : Nat} {before wait : Phase} {ws : List (Fin n)} {request : List (KVMeta (Fin n))}
    {phase : Fin n → Phase} (h : Gathers t before wait ws request phase) (w : Fin n) (t' : Nat) :
    ⟨w, t'⟩ ∈ request ↔ t' = t ∧ w ∈ ws := by
  rw [h.request]
  simp [eq_comm, and_comm]

/-- Somebody's request is still to come. -/
theorem Gathers.not_all {t : Nat} {before wait : Phase} {ws : List (Fin n)}
    {request : List (KVMeta (Fin n))} {phase : Fin n → Phase}
    (h : Gathers t before wait ws request phase) (hn : 0 < n) : ¬ ∀ w, w ∈ ws := by
  rw [mem_all_iff h.nodup, Fintype.card_fin]
  exact Nat.not_le_of_lt (h.room hn)

theorem ackedTogether_iff {t : Nat} (ht : t < 2) (r : Run E n) : AckedTogether (⟨·, t⟩) r ↔
    ∀ w, (setup r.acked).count ⟨w, t⟩ = if ∀ v, ⟨v, t⟩ ∈ setup r.arrived then 1 else 0 := by
  have hcount : ∀ w, (setup r.acked).count ⟨w, t⟩ = r.acked.count ⟨w, t⟩ := fun w => count_setup ht
  have hmem : ∀ v, ⟨v, t⟩ ∈ setup r.arrived ↔ ⟨v, t⟩ ∈ r.arrived := fun v => mem_setup ht
  simp only [hcount, hmem]
  rfl

theorem Stage.ackedTogether {b : Bool} {k : KeyState E (Fin n) σ} {r : Run E n} (h : Stage b k r) :
    AckedTogether (⟨·, 0⟩) r ∧ AckedTogether (⟨·, 1⟩) r := by
  rw [ackedTogether_iff (by decide), ackedTogether_iff (by decide)]
  cases h with
  | gather hround hg harr hack =>
    rw [harr, hack]
    generalize k.stored.tensor.isSome = st at hround
    cases hround with
    | init =>
      refine ⟨fun w => ?_, fun w => ?_⟩
      · simp [hg.mem, hg.not_all w.pos]
      · have hne : ¬ ∀ v : Fin n, False := fun h => h w
        simp [hg.mem, hne]
    | register _ hdone =>
      refine ⟨fun w => ?_, fun w => ?_⟩ <;> simp [hg.mem, hdone.mem, hdone.count, hg.not_all w.pos]
  | running _ _ _ _ hdone harr hack =>
    obtain ⟨inits, regs, hi, hr, rfl⟩ := hdone
    rw [harr, hack]
    cases b with
    | true =>
      have hr : Everyone 1 regs := by simpa using hr
      refine ⟨fun w => ?_, fun w => ?_⟩ <;> simp [hi.mem, hi.count, hr.mem, hr.count]
    | false =>
      obtain rfl : regs = [] := by simpa using hr
      refine ⟨fun w => ?_, fun w => ?_⟩
      · simp [hi.mem, hi.count]
      · have hne : ¬ ∀ v : Fin n, False := fun h => h w
        simp [hi.mem, hi.count, hne]

theorem Stage.bufferOk {b : Bool} {k : KeyState E (Fin n) σ} {r : Run E n} (h : Stage b k r) :
    BufferOk k.updates.request := by
  cases h with
  | gather _ hg =>
    refine ⟨fun p hp q hq => ?_, fun hn => ?_⟩
    · rw [((hg.mem p.sender p.timestamp).mp hp).1, ((hg.mem q.sender q.timestamp).mp hq).1]
    · rw [hg.request, List.length_map]; exact hg.room hn
  | running _ _ hkind hroom => exact ⟨fun p hp q hq => by rw [hkind p hp, hkind q hq], hroom⟩

end Acks

/-- **Init pushes and registrations.** In every run, for every key: they are acknowledged once
everybody's has arrived and not before, each once; the request buffer holds requests of one kind
and never as many as there are workers. -/
theorem init_acks [Add E] [Zero E] {cfg : Config} {C : Compressor E σ} {registers : Nat → Bool}
    {S : St E σ cfg.numWorkers} (h : (sys cfg C registers).Reachable S) (key : Nat) :
    AckedTogether (⟨·, 0⟩) (S.run key) ∧ AckedTogether (⟨·, 1⟩) (S.run key) ∧
      BufferOk (S.srv.keys key).updates.request := by
  have hstage := stage_inductive.reachable S h key
  exact ⟨hstage.ackedTogether.1, hstage.ackedTogether.2, hstage.bufferOk⟩

/-- Two workers and a compressor. The second init push and the second registration bring two acks
each; worker 0 has then pushed, and its push is in the buffer. -/
theorem init_acks_two :
    ∃ S, (sys (syncConfig 2 1 false) identity fun _ => true).Reachable S ∧
      (S.run 0).acked.map (fun q => (q.sender.val, q.timestamp)) = [(1, 0), (0, 0), (0, 1), (1, 1), (0, 2)] ∧
      (S.srv.keys 0).updates.request.length = 1 ∧
      AckedTogether (⟨·, 0⟩) (S.run 0) ∧ AckedTogether (⟨·, 1⟩) (S.run 0) ∧
      BufferOk (S.srv.keys 0).updates.request := by
  let one : Payload Nat := ⟨0, 1, fun _ => 1, []⟩
  let w₀ : Fin (syncConfig 2 1 false).numWorkers := ⟨0, by decide⟩
  let w₁ : Fin (syncConfig 2 1 false).numWorkers := ⟨1, by decide⟩
  have hex : ∃ S, LTS.execute
      (LTS.guarded (step (syncConfig 2 1 false) identity fun _ => true) fun _ _ _ => True)
      ⟨.init (syncConfig 2 1 false), fun _ => .start⟩
      [.req w₁ 0 one, .req w₀ 0 one, .req w₀ 0 one, .req w₁ 0 one, .req w₀ 0 one] = some S ∧
      (S.run 0).acked.map (fun q => (q.sender.val, q.timestamp)) = [(1, 0), (0, 0), (0, 1), (1, 1), (0, 2)] ∧
      (S.srv.keys 0).updates.request.length = 1 := ⟨_, rfl, rfl, rfl⟩
  obtain ⟨S, hS, hacked, hlen⟩ := hex
  have hr := LTS.Reachable.of_execute
    (.init (M := (sys (syncConfig 2 1 false) identity fun _ => true).restrict fun _ _ _ => True) rfl) hS
  exact ⟨S, hr.of_restrict, hacked, hlen, init_acks hr.of_restrict 0⟩

end Inca.L4.InitAcks
