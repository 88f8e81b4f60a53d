import Mathlib.Algebra.BigOperators.Fin
import Mathlib.Algebra.BigOperators.Group.Finset.Basic
import Inca.L4App.PullRounds

/-!
# What the store holds

Synchronous, non-blocking mode without scheduling and without compressors.
The pushes of a round arrive in some order; `done` are the workers whose
push the engine has taken, `rest` those whose push is queued (`Summing`). The
store then holds the sum over `done`, and the messages of the key are those of
`rest` in their order, with `ALL_RECV` at the end if the round is complete.

* `all_recv_sum`: when the engine takes the `j`-th `ALL_RECV` of a key, the
  store is the sum of all workers' `j`-th pushes.
* `pull_response_sum`: the data of each pull response is the sum of its
  round, in every run in which the engine takes a `COPY_FIRST` of a key only
  when `is_push_finished` is false for it.
* `pull_response_counterexample`: without that condition a worker that is a
  round behind gets data of the next round, because the response is read from
  the store and the first push of the next round overwrites it.
* `readLate_sum`: a response points into the store, and is the sum until the
  next `COPY_FIRST`.
-/
namespace Inca.L4.StoreSum
open Inca.L2 Inca.L4.Server Inca.L4.KeyMachine Inca.L4.PullRounds
open PriorityQueue (Reorder)

variable {E σ : Type} {n : Nat}

/-! ## The messages of a round -/

section Messages
variable (inp : Inputs E n) (k R : Nat)

/-- The message of a worker's push of round `R`. -/
def pushMsg (first : Bool) (w : Fin n) : Body E :=
  ⟨if first then .copyFirst else .sumRecv, .buf (inp.vals w k R), inp.len k, inp.pushLen w k R⟩

def allMsg : Body E := ⟨.allRecv, .store, inp.len k, 0⟩

/-- The messages of pushes in this order; the first is a `COPY_FIRST` if the round starts with
it. -/
def pushMsgs (first : Bool) : List (Fin n) → List (Body E)
  | [] => []
  | w :: ws => pushMsg inp k R first w :: ws.map (pushMsg inp k R false)

theorem pushMsgs_false (ws : List (Fin n)) : pushMsgs inp k R false ws = ws.map (pushMsg inp k R false) := by
  cases ws <;> rfl

theorem pushMsgs_concat (first : Bool) (ws : List (Fin n)) (w : Fin n) :
    pushMsgs inp k R first (ws ++ [w]) =
      pushMsgs inp k R first ws ++ [pushMsg inp k R (first && ws.isEmpty) w] := by
  cases ws <;> simp [pushMsgs]

/-- What is queued of a round. -/
def roundMsgs (done rest : List (Fin n)) : List (Body E) :=
  pushMsgs inp k R done.isEmpty rest ++ if (done ++ rest).length = n then [allMsg inp k] else []

/-- The next message is the push of the next worker. -/
theorem roundMsgs_cons (done ws : List (Fin n)) (w : Fin n) :
    roundMsgs inp k R done (w :: ws) = pushMsg inp k R done.isEmpty w :: roundMsgs inp k R (done ++ [w]) ws := by
  unfold roundMsgs
  rw [show (done ++ [w]).isEmpty = false by simp, pushMsgs_false]
  simp [pushMsgs]

/-- A push joins a round that is not complete, and the last one completes it. -/
theorem roundMsgs_concat {done ws : List (Fin n)} (w : Fin n) (hroom : (done ++ ws).length < n) :
    roundMsgs inp k R done (ws ++ [w]) = roundMsgs inp k R done ws ++
      (pushMsg inp k R (done ++ ws).isEmpty w :: if (done ++ ws).length + 1 = n then [allMsg inp k] else []) := by
  have hempty : (done ++ ws).isEmpty = (done.isEmpty && ws.isEmpty) := by cases done <;> simp
  rw [roundMsgs, roundMsgs, if_neg hroom.ne, pushMsgs_concat, hempty]
  simp [Nat.add_assoc]

end Messages

/-! ## The store during a round -/

variable [AddCommMonoid E]

/-- The sum of the pushes of some workers. -/
def sumOf (inp : Inputs E n) (k R : Nat) (ws : List (Fin n)) (x : Nat) : E :=
  (ws.map fun w => inp.vals w k R x).sum

/-- All workers, each once. -/
theorem sumOf_all (inp : Inputs E n) (k R : Nat) {ws : List (Fin n)} (hnd : ws.Nodup) (hlen : ws.length = n)
    (x : Nat) : sumOf inp k R ws x = ∑ w, inp.vals w k R x := by
  have huniv : ws.toFinset = Finset.univ := by
    ext w
    simpa using all_mem hnd hlen w
  rw [sumOf, ← huniv, List.sum_toFinset _ hnd]

/-- Round `R` of key `k`: `done` is in the store, `rest` is queued. -/
structure Summing (inp : Inputs E n) (k : Nat) (v : View E n σ) (done rest : List (Fin n)) : Prop where
  nodup : (done ++ rest).Nodup
  mem : ∀ w, w ∈ done ++ rest ↔ (v.run.phase w).pushed = v.run.allRecv + 1
  msgs : v.msgs = roundMsgs inp k v.run.allRecv done rest
  len : v.key.stored.len = inp.len k
  store : ∃ s, v.key.stored.tensor = some s ∧
    (done ≠ [] → ∀ x < inp.len k, s x = sumOf inp k v.run.allRecv done x)

namespace Summing
variable {inp : Inputs E n} {k : Nat} {v : View E n σ} {done rest : List (Fin n)}

/-- A step that neither pushes nor takes a message. -/
theorem congr (h : Summing inp k v done rest) {v' : View E n σ}
    (hp : ∀ w, (v'.run.phase w).pushed = (v.run.phase w).pushed) (hall : v'.run.allRecv = v.run.allRecv)
    (hmsgs : v'.msgs = v.msgs) (hst : v'.key.stored = v.key.stored) : Summing inp k v' done rest := by
  refine ⟨h.nodup, fun w => ?_, ?_, ?_, ?_⟩
  · rw [hp, hall]; exact h.mem w
  · rw [hmsgs, hall]; exact h.msgs
  · rw [hst]; exact h.len
  · rw [hst, hall]; exact h.store

/-- A round that nobody has pushed for. -/
theorem start (hp : ∀ w, (v.run.phase w).pushed ≠ v.run.allRecv + 1) (hn : 0 < n) (hmsgs : v.msgs = [])
    (hlen : v.key.stored.len = inp.len k) (hst : v.key.stored.tensor.isSome) : Summing inp k v [] [] := by
  obtain ⟨s, hs⟩ := Option.isSome_iff_exists.mp hst
  refine ⟨List.nodup_nil, fun w => by simpa using hp w, ?_, hlen, s, hs, fun hne => absurd rfl hne⟩
  rw [hmsgs]
  simp [roundMsgs, pushMsgs, hn.ne]

/-- While workers push, the workers of the round are those of the request buffer. -/
theorem perm_senders (h : Summing inp k v done rest) (hr : Running v) (hQ : pending v.msgs = 0) :
    (done ++ rest).Perm (senders v) := by
  rw [List.perm_ext_iff_of_nodup h.nodup hr.rounds.nodup]
  intro w
  have hp := hr.rounds.pushed w
  rw [hQ] at hp
  rw [h.mem, hp]
  split <;> simp_all

/-- A push joins the queue of its round. -/
theorem push (h : Summing inp k v done rest) (hr : Running v) {cfg : Config} {w : Fin n} {j : Nat}
    {store : Nat → E} {key key' : KeyState E (Fin n) σ} {recv round msgs : List (Body E)}
    (hcfg : cfg.numWorkers = n) (hsync : cfg.syncMode = true) (hblock : cfg.isEngineBlocking = false)
    (hsched : cfg.enableSchedule = false) (hw : v.run.phase w = .push j)
    (hrecv : handleRecv cfg v.key store (inp.pushLen w k j) (inp.vals w k j) = some (key, recv))
    (hround : handleRound cfg key store ⟨w, j⟩ (inp.pushLen w k j) = some (key', round))
    (hmsgs : Reorder cfg.enableSchedule (v.msgs ++ (recv ++ round)) msgs) (registers : Bool) :
    Summing inp k { v with key := key', msgs := msgs
                           run := (v.run.wait w (.pushWait j)).receiveAll registers [.push k ⟨w, j⟩] }
      done (rest ++ [w]) := by
  obtain ⟨hnew, rfl, hQ⟩ := hr.rounds.at_push hw
  have hperm := h.perm_senders hr (by omega)
  have hlen : (done ++ rest).length = v.key.updates.request.length := by
    rw [hperm.length_eq, senders, List.length_map]
  have hroom : (done ++ rest).length < n := hperm.length_eq ▸ hr.rounds.room
  have hempty : v.key.updates.request.isEmpty = (done ++ rest).isEmpty := by
    rw [Bool.eq_iff_iff, List.isEmpty_iff_length_eq_zero, List.isEmpty_iff_length_eq_zero, hlen]
  have hpush := push_sync hsync hblock hrecv hround
  refine ⟨?_, fun u => ?_, ?_, by rw [hpush.stored]; exact h.len, ?_⟩
  · simpa using h.nodup.concat fun hmem => hnew (hperm.mem_iff.mp hmem)
  · simp only [wait_receive_push, receiveAll_allRecv, KeyRun.wait_allRecv]
    rw [← List.append_assoc, List.mem_append, List.mem_singleton]
    by_cases hu : u = w
    · subst hu; simp [Phase.pushed]
    · simpa [hu] using h.mem u
  · simp only [receiveAll_allRecv, KeyRun.wait_allRecv]
    rw [← hmsgs.eq hsched, h.msgs, roundMsgs_concat inp k _ w hroom, hpush.msgs, hcfg, hempty, hlen, h.len]
    rfl
  · rw [hpush.stored]
    simpa only [receiveAll_allRecv, KeyRun.wait_allRecv] using h.store

/-- The next message is the push of the next worker, or the `ALL_RECV` of the complete round. -/
theorem next (h : Summing inp k v done rest) {b : Body E} {msgs : List (Body E)} (hm : v.msgs = b :: msgs) :
    (∃ w ws, rest = w :: ws ∧ b = pushMsg inp k v.run.allRecv done.isEmpty w ∧
      msgs = roundMsgs inp k v.run.allRecv (done ++ [w]) ws) ∨
    (rest = [] ∧ done.length = n ∧ b = allMsg inp k ∧ msgs = []) := by
  rw [h.msgs] at hm
  cases rest with
  | nil =>
    by_cases hlen : done.length = n
    · simp only [roundMsgs, pushMsgs, List.append_nil, hlen, if_true, List.nil_append, List.cons.injEq] at hm
      exact .inr ⟨rfl, hlen, hm.1.symm, hm.2.symm⟩
    · simp [roundMsgs, pushMsgs, hlen] at hm
  | cons w ws =>
    rw [roundMsgs_cons, List.cons.injEq] at hm
    exact .inl ⟨w, ws, rfl, hm.1.symm, hm.2.symm⟩

/-- The engine copies or adds the next push. -/
theorem take {w : Fin n} {ws : List (Fin n)} (h : Summing inp k v done (w :: ws)) {cfg : Config}
    {C : Compressor E σ} {key : KeyState E (Fin n) σ} {flags : Flags (Fin n)} {resps : List (Response E (Fin n))}
    (hc : v.key.compressor = none)
    (hrun : runMessage cfg C k v.key v.flags (pushMsg inp k v.run.allRecv done.isEmpty w) =
      some (key, flags, resps)) :
    Summing inp k ⟨key, flags, roundMsgs inp k v.run.allRecv (done ++ [w]) ws, v.run⟩ (done ++ [w]) ws := by
  obtain ⟨-, -, -, hlen, dst, src, hdst, hst, hsrc⟩ :=
    runMessage_data (by simp only [pushMsg]; split <;> simp) hrun
  obtain ⟨-, hread⟩ := hsrc hc
  cases hread
  obtain ⟨s, hs, hsum⟩ := h.store
  rw [hdst] at hs
  cases hs
  refine ⟨by simpa using h.nodup, fun u => by simpa using h.mem u, rfl, hlen.trans h.len, _, hst, fun _ x hx => ?_⟩
  simp only [pushMsg] at hst ⊢
  cases done with
  | nil => simp [copy, hx, sumOf]
  | cons d ds =>
    have hd := hsum (by simp) x hx
    simp [Server.sum, hx, hd, sumOf, add_assoc]

/-- A complete round is summed up. -/
theorem complete (h : Summing inp k v done []) (hlen : done.length = n) (hn : 0 < n) :
    ∃ s, v.key.stored.tensor = some s ∧ ∀ x < inp.len k, s x = ∑ w, inp.vals w k v.run.allRecv x := by
  obtain ⟨s, hs, hsum⟩ := h.store
  have hne : done ≠ [] := fun e => by simp [e] at hlen; omega
  have hnd : done.Nodup := by simpa using h.nodup
  exact ⟨s, hs, fun x hx => (hsum hne x hx).trans (sumOf_all inp k _ hnd hlen x)⟩

/-- After `ALL_RECV` the next round starts. -/
theorem all (h : Summing inp k v done rest) (hr : Running v) (hn : 0 < n) {cfg : Config} {C : Compressor E σ}
    {b : Body E} {key : KeyState E (Fin n) σ} {flags : Flags (Fin n)} {resps : List (Response E (Fin n))}
    {registers : Bool} (hb : b.ops = .allRecv) (hm : v.msgs = [b])
    (hrun : runMessage cfg C k v.key v.flags b = some (key, flags, resps))
    (hr' : Running ⟨key, flags, [], (v.run.executed b).receiveAll registers resps⟩) :
    Summing inp k ⟨key, flags, [], (v.run.executed b).receiveAll registers resps⟩ [] [] := by
  obtain ⟨hreq, hst, hsome, -⟩ := runMessage_all hb hrun
  have hpend : pending v.msgs = 1 := by simp [hm, pending, hb]
  have hs : senders v = [] := (hr.rounds.at_all hn (by omega)).2.2
  refine .start (fun w => ?_) hn rfl (by rw [hst]; exact h.len) (by rw [hst]; exact hsome)
  have hp := hr'.rounds.pushed w
  simp only [senders, hreq, pending, List.countP_nil, Nat.add_zero] at hp hs ⊢
  rw [hs] at hp
  simp only [List.not_mem_nil, if_false] at hp
  omega

end Summing

/-! ## Keys without compressor -/

/-- No registration. -/
def Plain (p : Phase) : Prop := p ≠ .reg ∧ p ≠ .regWait

theorem plain_onPush {p : Phase} (h : Plain p) : Plain (p.onPush false) := by
  cases p <;> simp_all [Plain, Phase.onPush]

theorem plain_onPull {p : Phase} (h : Plain p) : Plain p.onPull := by
  cases p <;> simp_all [Plain, Phase.onPull]

/-- Nothing pushed yet. -/
def Early : Phase → Prop
  | .init | .initWait | .reg | .regWait | .push 0 => True
  | _ => False

theorem early_onPush {registers : Bool} {p : Phase} (h : Early p) : Early (p.onPush registers) := by
  cases registers <;> cases p <;> simp_all [Early, Phase.onPush]

theorem early_onPull {p : Phase} (h : Early p) : Early p.onPull := by
  cases p <;> simp_all [Early, Phase.onPull]

theorem early_pushed {p : Phase} (h : Early p) : p.pushed = 0 := by
  cases p with
  | push j => cases j <;> simp_all [Early, Phase.pushed]
  | _ => simp_all [Early, Phase.pushed]

/-- A key of which no compressor is registered. -/
structure NoCompressor (v : View E n σ) : Prop where
  plain : ∀ w, Plain (v.run.phase w)
  compressor : v.key.compressor = none

section Steps
variable {cfg : Config} {C : Compressor E σ} {inp : Inputs E n} {k : Nat} {v v' : View E n σ} {a : KAct E n}

omit [AddCommMonoid E] in
theorem plain_receiveAll {r : KeyRun E n} (resps : List (Response E (Fin n))) (h : ∀ u, Plain (r.phase u)) :
    ∀ u, Plain ((r.receiveAll false resps).phase u) :=
  receiveAll_forall (P := Plain) (fun _ => plain_onPush) (fun _ => plain_onPull) r resps h

theorem NoCompressor.step (hsync : cfg.syncMode = true) (hblock : cfg.isEngineBlocking = false)
    (hreg : inp.registers k = false) (h : NoCompressor v) (hs : KStep cfg C inp k v a v') : NoCompressor v' := by
  cases hs with
  | @register w req content p key resps hreq _ => exact absurd (request_register hreq).1 (h.plain w).1
  | @pushInit w req dtype len vals p hreq _ =>
    have hp : Plain p := by
      rcases request_push hreq with ⟨-, -, -, rfl⟩ | ⟨j, -, -, -, -, rfl⟩ <;> simp [Plain]
    refine ⟨?_, (handleInit_fst cfg k v.key req dtype len vals).1.trans h.compressor⟩
    rw [hreg]
    exact plain_receiveAll _ (update_forall h.plain hp)
  | @push w req dtype len vals store p key key' recv round msgs hreq _ hrecv hround _ =>
    have hp : Plain p := by
      rcases request_push hreq with ⟨-, -, -, rfl⟩ | ⟨j, -, -, -, -, rfl⟩ <;> simp [Plain]
    refine ⟨?_, (push_sync hsync hblock hrecv hround).compressor.trans h.compressor⟩
    rw [hreg]
    exact plain_receiveAll _ (update_forall h.plain hp)
  | @pull w req p resp hreq _ _ _ =>
    obtain ⟨j, -, -, rfl⟩ := request_pull hreq
    refine ⟨?_, h.compressor⟩
    rw [hreg]
    exact plain_receiveAll _ (update_forall h.plain (by simp [Plain]))
  | @pullWait w req p hreq _ =>
    obtain ⟨j, -, -, rfl⟩ := request_pull hreq
    exact ⟨update_forall h.plain (by simp [Plain]), h.compressor⟩
  | @engine b msgs key flags resps _ hrun =>
    have hex : ∀ u, Plain ((v.run.executed b).phase u) := by
      unfold KeyRun.executed; split <;> exact h.plain
    refine ⟨?_, ?_⟩
    · rw [hreg]; exact plain_receiveAll _ hex
    · by_cases hb : b.ops = .allRecv
      · exact ((runMessage_all hb hrun).2.2.2.1 h.compressor).1
      · obtain ⟨-, -, -, -, dst, src, -, -, hc⟩ := runMessage_data hb hrun
        exact (hc h.compressor).1
  | other _ => exact ⟨h.plain, h.compressor⟩

/-- The store is made by an init push, and starts round 0. -/
theorem Summing.init {w : Fin n} {dtype len : Nat} {vals : Nat → E} (hn : 0 < n) (h : Gather v .init .initWait)
    (hst : v.key.stored.tensor = none) (hlen : len = inp.len k) (registers : Bool)
    (hsome : (handleInit cfg k v.key ⟨w, 0⟩ dtype len vals).1.stored.tensor.isSome) :
    Summing inp k { v with
      key := (handleInit cfg k v.key ⟨w, 0⟩ dtype len vals).1
      run := (v.run.wait w .initWait).receiveAll registers (handleInit cfg k v.key ⟨w, 0⟩ dtype len vals).2 }
      [] [] := by
  have hearly : ∀ u, Early (v.run.phase u) := fun u => by
    rcases h.phase_cases u with h | h <;> rw [h] <;> trivial
  have hlater : ∀ u, Early (((v.run.wait w .initWait).receiveAll registers
      (handleInit cfg k v.key ⟨w, 0⟩ dtype len vals).2).phase u) :=
    receiveAll_forall (P := Early) (fun _ => early_onPush) (fun _ => early_onPull) _ _ (update_forall hearly trivial)
  refine .start (fun u => ?_) hn h.untouched.msgs ?_ hsome
  · rw [early_pushed (hlater u)]; simp
  · rcases (handleInit_fst cfg k v.key ⟨w, 0⟩ dtype len vals).2 with h | h
    · rw [h, hst] at hsome; simp at hsome
    · simp only [h]; exact hlen

/-! ### Every reachable view -/

/-- The round of a key whose store exists. -/
structure SumInv (inp : Inputs E n) (k : Nat) (v : View E n σ) : Prop where
  inv : Inv v
  plain : NoCompressor v
  sums : v.key.stored.tensor.isSome → ∃ done rest, Summing inp k v done rest

/-- A pull, answered or not, leaves the round alone. -/
theorem Summing.pull_step {done rest : List (Fin n)} (h : Summing inp k v done rest) {w : Fin n} {j : Nat}
    (hw : v.run.phase w = .pull j) (flags : Flags (Fin n)) {run : KeyRun E n} {p : Phase}
    (hphase : run.phase = Function.update v.run.phase w p) (hall : run.allRecv = v.run.allRecv)
    (hp : p.pushed = j + 1) : Summing inp k { v with flags := flags, run := run } done rest := by
  refine h.congr (fun u => ?_) hall rfl rfl
  rw [show ({ v with flags := flags, run := run } : View E n σ).run.phase = _ from hphase]
  exact update_same Phase.pushed (by rw [hp, hw]; rfl) u

theorem SumInv.step (hn : 0 < n) (hcfg : cfg.numWorkers = n) (hsync : cfg.syncMode = true)
    (hblock : cfg.isEngineBlocking = false) (hsched : cfg.enableSchedule = false)
    (hreg : inp.registers k = false) (h : SumInv inp k v) (hs : KStep cfg C inp k v a v') :
    SumInv inp k v' := by
  have hinv' := inv_step hn hcfg hsync hblock h.inv hs
  refine ⟨hinv', h.plain.step hsync hblock hreg hs, fun hsome => ?_⟩
  cases hs with
  | @register w req content p key resps hreq _ => exact absurd (request_register hreq).1 (h.plain.plain w).1
  | @pushInit w req dtype len vals p hreq hst =>
    rcases request_push hreq with ⟨hw, rfl, hlen, rfl⟩ | ⟨j, hw, rfl, -, -, rfl⟩
    · exact ⟨[], [], .init hn (h.inv.of_init hw).2 hst hlen _ hsome⟩
    · have hr := (h.inv.of_running (w := w) (by rw [hw]; trivial)).stored
      simp [hst] at hr
  | @push w req dtype len vals store p key key' recv round msgs hreq hst hrecv hround hmsgs =>
    rcases request_push hreq with ⟨hw, rfl, -, rfl⟩ | ⟨j, hw, rfl, rfl, rfl, rfl⟩
    · have hnone := (h.inv.of_init hw).1
      simp [hst] at hnone
    · obtain ⟨done, rest, hd⟩ := h.sums (by simp [hst])
      have hr := h.inv.of_running (w := w) (by rw [hw]; trivial)
      exact ⟨done, rest ++ [w], hd.push hr hcfg hsync hblock hsched hw hrecv hround hmsgs _⟩
  | @pull w req p resp hreq _ _ hresp =>
    obtain ⟨j, hw, rfl, rfl⟩ := request_pull hreq
    obtain ⟨done, rest, hd⟩ := h.sums hsome
    obtain ⟨p, vals, -, -, rfl⟩ := sendPullResponse_some hresp
    exact ⟨done, rest, hd.pull_step hw _ (wait_receive_pull _ _ _ _ _ _ _) (receiveAll_allRecv _ _) rfl⟩
  | @pullWait w req p hreq _ =>
    obtain ⟨j, hw, rfl, rfl⟩ := request_pull hreq
    obtain ⟨done, rest, hd⟩ := h.sums hsome
    exact ⟨done, rest, hd.pull_step hw _ rfl rfl rfl⟩
  | @engine b msgs key flags resps hmsgs hrun =>
    have hr := h.inv.of_msg hmsgs
    obtain ⟨done, rest, hd⟩ := h.sums hr.stored
    have hm := hmsgs.eq hsched
    rcases hd.next hm with ⟨w, ws, rfl, rfl, rfl⟩ | ⟨rfl, hlen, rfl, rfl⟩
    · refine ⟨done ++ [w], ws, ?_⟩
      have hops : (pushMsg inp k v.run.allRecv done.isEmpty w).ops ≠ .allRecv := by
        simp only [pushMsg]; split <;> simp
      obtain ⟨-, rfl, -⟩ := runMessage_data hops hrun
      simpa [KeyRun.executed, hops, KeyRun.receiveAll] using hd.take h.plain.compressor hrun
    · have hr' := hr.engine (C := C) hn hcfg hmsgs hrun (inp.registers k)
      exact ⟨[], [], hd.all hr hn rfl hm hrun hr'⟩
  | other hmsgs =>
    obtain ⟨done, rest, hd⟩ := h.sums hsome
    exact ⟨done, rest, hd.congr (fun _ => rfl) rfl (hmsgs.eq hsched).symm rfl⟩

theorem sumInv_init (hn : 0 < n) : SumInv inp k (View.init : View E n σ) where
  inv := inv_init hn
  plain := ⟨fun _ => by simp [View.init, KeyRun.start, Plain], rfl⟩
  sums := fun hsome => by simp [View.init, KeyState.empty] at hsome

theorem sumInv_reachable (hn : 0 < n) (hcfg : cfg.numWorkers = n) (hsync : cfg.syncMode = true)
    (hblock : cfg.isEngineBlocking = false) (hsched : cfg.enableSchedule = false)
    (hreg : inp.registers k = false) (h : (keySys cfg C inp k).Reachable v) : SumInv inp k v := by
  have hind : (keySys cfg C inp k).Inductive (SumInv inp k) :=
    ⟨fun v hv => hv ▸ sumInv_init hn, fun _ _ _ hI hs => hI.step hn hcfg hsync hblock hsched hreg hs⟩
  exact hind.reachable v h

end Steps

/-- **The store at `ALL_RECV`.** With any number of workers, keys and engine threads: when an
engine thread takes the next `ALL_RECV` of a key, the store of the key is the sum of all workers'
pushes of that round, each once. -/
theorem all_recv_sum (hn : 0 < n) (engineThreadNum : Nat) (C : Compressor E σ) (inp : Inputs E n)
    (hreg : ∀ k, inp.registers k = false) (S : Sys E n σ)
    (h : (sys (syncConfig n engineThreadNum false) C inp).Reachable S) (i : Nat)
    (m : EngineMessage (Body E)) (q : PriorityQueue (Body E))
    (hpop : (S.srv.engineQueues i).waitAndPop = some (m, q)) (hops : m.body.ops = .allRecv) :
    ∃ s, (S.srv.keys m.key).stored.tensor = some s ∧
      ∀ x < inp.len m.key, s x = ∑ w, inp.vals w m.key (S.run m.key).allRecv x := by
  have hT := (threads_inductive rfl rfl).reachable S h
  have hv := sumInv_reachable hn rfl rfl rfl rfl (hreg m.key) (view_reachable rfl rfl h m.key)
  obtain ⟨ht, hmsgs⟩ := hT.of_pop hpop
  rw [← (hT.own m.key).bodies_eq (.inr ht)] at hmsgs
  obtain ⟨done, rest, hd⟩ := hv.sums (hv.inv.of_msg hmsgs).stored
  rcases hd.next (hmsgs.eq rfl) with ⟨w, ws, -, hb, -⟩ | ⟨rfl, hlen, -, -⟩
  · rw [hb] at hops
    simp only [pushMsg] at hops
    split at hops <;> cases hops
  · exact hd.complete hlen hn

/-- Two workers, two keys on one thread: the round of key 0 is complete and its `ALL_RECV` is
next. -/
theorem all_recv_sum_two_keys : ∃ S m q, (sys (syncConfig 2 1 false) identity (oneElement false)).Reachable S ∧
    (S.srv.engineQueues 0).waitAndPop = some (m, q) ∧ m.key = 0 ∧ m.body.ops = .allRecv ∧
    ∃ s, (S.srv.keys m.key).stored.tensor = some s ∧
      ∀ x < (oneElement false).len m.key, s x = ∑ w, (oneElement false).vals w m.key (S.run m.key).allRecv x := by
  have hex : ∃ S m q, LTS.execute
      (LTS.guarded (step (syncConfig 2 1 false) identity (oneElement false)) fun _ _ _ => True)
      (.init (syncConfig 2 1 false)) [.req 0 0, .req 1 0, .req 0 1, .req 1 1, .req 1 0, .req 0 1, .req 0 0,
        .engine 0, .engine 0, .engine 0] = some S ∧
      (S.srv.engineQueues 0).waitAndPop = some (m, q) ∧ m.key = 0 ∧ m.body.ops = .allRecv :=
    ⟨_, _, _, rfl, rfl, rfl, rfl⟩
  obtain ⟨S, m, q, hS, hpop, hkey, hops⟩ := hex
  have hr := LTS.Reachable.of_execute
    (.init (M := (sys (syncConfig 2 1 false) identity (oneElement false)).restrict fun _ _ _ => True) rfl) hS
  exact ⟨S, m, q, hr.of_restrict, hpop, hkey, hops,
    all_recv_sum (by decide) 1 identity (oneElement false) (fun _ => rfl) S hr.of_restrict 0 m q hpop hops⟩

/-! ## What pulls are answered with -/

/-- The engine takes a `COPY_FIRST` of a key only when nobody lacks an answer. -/
def NoOverwrite (S : Sys E n σ) (a : Act n) (_ : Sys E n σ) : Prop :=
  match a with
  | .req _ _ => True
  | .engine i => ∀ p ∈ (S.srv.engineQueues i).waitAndPop,
      p.1.body.ops = .copyFirst → (S.srv.flags i p.1.key).isPushFinished = false

/-- The same for one key. -/
def KeepsStore (v : View E n σ) (a : KAct E n) (_ : View E n σ) : Prop :=
  match a with
  | .engine b => b.ops = .copyFirst → v.flags.isPushFinished = false
  | _ => True

omit [AddCommMonoid E] in
theorem NoOverwrite.key {cfg : Config} {S S' : Sys E n σ} {a : Act n} (k : Nat)
    (hT : Threads cfg.enableSchedule S.srv) (h : NoOverwrite S a S') :
    KeepsStore (view S k) (act S k a) (view S' k) := by
  cases a with
  | req w key => simp only [act]; split <;> trivial
  | engine i =>
    simp only [NoOverwrite] at h
    simp only [act]
    cases hpop : (S.srv.engineQueues i).waitAndPop with
    | none => trivial
    | some p =>
      obtain ⟨m, q⟩ := p
      have h := h (m, q) hpop
      by_cases hk : k = m.key
      · subst hk
        simp only [if_true, KeepsStore]
        rw [show (view S m.key).flags = _ from (hT.own m.key).flags_eq (.inr (hT.of_pop hpop).1)]
        exact h
      · simp only [hk, if_false]; trivial

/-- A pull response carries the sum of its round. -/
def Correct (inp : Inputs E n) (k : Nat) : Response E (Fin n) → Prop
  | .push _ _ => True
  | .pull _ req len vals => len = inp.len k ∧ ∀ x < len, vals x = ∑ w, inp.vals w k req.timestamp x

/-- The store holds round `R`, nothing of the next one is taken, and pulls read the store. -/
structure Fresh (inp : Inputs E n) (k R : Nat) (v : View E n σ) : Prop where
  untaken : ∃ rest, Summing inp k v [] rest
  merged : v.key.updates.merged.tensor = some .store
  len : v.key.updates.merged.len = inp.len k
  allRecv : v.run.allRecv = R + 1
  sum : ∃ s, v.key.stored.tensor = some s ∧ ∀ x < inp.len k, s x = ∑ w, inp.vals w k R x

/-- A response that is sent in the step to `v`: its data is what the store then holds. -/
def Answer (inp : Inputs E n) (k : Nat) (v : View E n σ) : Response E (Fin n) → Prop
  | .push _ _ => True
  | .pull _ req len vals => Fresh inp k req.timestamp v ∧ len = inp.len k ∧ v.key.stored.tensor = some vals

structure Exact (inp : Inputs E n) (k : Nat) (v : View E n σ) : Prop where
  sums : SumInv inp k v
  log : ∀ resp ∈ v.run.log, Correct inp k resp
  fresh : v.flags.isPushFinished = true → ∃ R, Fresh inp k R v

section Exact
variable {cfg : Config} {C : Compressor E σ} {inp : Inputs E n} {k R : Nat} {v v' : View E n σ} {a : KAct E n}

theorem answer_pushes (k' : Nat) (reqs : List (KVMeta (Fin n))) :
    ∀ resp ∈ reqs.map (Response.push k'), Answer inp k v resp := by
  intro resp hresp
  obtain ⟨req, -, rfl⟩ := List.mem_map.mp hresp
  trivial

theorem Answer.correct {resp : Response E (Fin n)} (h : Answer inp k v resp) : Correct inp k resp := by
  cases resp with
  | push key req => trivial
  | pull key req len vals =>
    obtain ⟨hfresh, hlen, hvals⟩ := h
    obtain ⟨s, hs, hsum⟩ := hfresh.sum
    rw [hs] at hvals
    cases hvals
    exact ⟨hlen, fun x hx => hsum x (hlen ▸ hx)⟩

/-- A step that takes no message and leaves what pulls read. -/
theorem Fresh.congr (h : Fresh inp k R v) (hround : ∃ rest, Summing inp k v' [] rest)
    (hmerged : v'.key.updates.merged = v.key.updates.merged) (hst : v'.key.stored = v.key.stored)
    (hall : v'.run.allRecv = v.run.allRecv) : Fresh inp k R v' :=
  ⟨hround, by rw [hmerged]; exact h.merged, by rw [hmerged]; exact h.len, by rw [hall]; exact h.allRecv,
    by rw [hst]; exact h.sum⟩

/-- The first message of a round that is not taken yet is its `COPY_FIRST`. -/
theorem Fresh.next (h : Fresh inp k R v) (hn : 0 < n) {b : Body E} {msgs : List (Body E)} (hm : v.msgs = b :: msgs) :
    b.ops = .copyFirst := by
  obtain ⟨rest, hd⟩ := h.untaken
  rcases hd.next hm with ⟨w, ws, -, rfl, -⟩ | ⟨-, hlen, -⟩
  · rfl
  · exact absurd hlen hn.ne

/-- The store stays until the engine takes the next `COPY_FIRST`. -/
theorem Fresh.step (hn : 0 < n) (hcfg : cfg.numWorkers = n) (hsync : cfg.syncMode = true)
    (hblock : cfg.isEngineBlocking = false) (hsched : cfg.enableSchedule = false) (hI : SumInv inp k v)
    (h : Fresh inp k R v) (hs : KStep cfg C inp k v a v') (hkeep : ∀ b, a = .engine b → b.ops ≠ .copyFirst) :
    Fresh inp k R v' := by
  obtain ⟨rest, hd⟩ := h.untaken
  cases hs with
  | @register w req content p key resps hreq _ => exact absurd (request_register hreq).1 (hI.plain.plain w).1
  | @pushInit w req dtype len vals p hreq hst =>
    obtain ⟨s, hs, -⟩ := h.sum
    simp [hst] at hs
  | @push w req dtype len vals store p key key' recv round msgs hreq hst hrecv hround hmsgs =>
    rcases request_push hreq with ⟨hw, rfl, -, rfl⟩ | ⟨j, hw, rfl, rfl, rfl, rfl⟩
    · have hnone := (hI.inv.of_init hw).1
      simp [hst] at hnone
    · have hr := hI.inv.of_running (w := w) (by rw [hw]; trivial)
      have hpush := push_sync hsync hblock hrecv hround
      have hd' := hd.push hr hcfg hsync hblock hsched hw hrecv hround hmsgs (inp.registers k)
      exact h.congr ⟨_, hd'⟩ hpush.merged hpush.stored (receiveAll_allRecv _ _)
  | @pull w req p resp hreq _ _ hresp =>
    obtain ⟨j, hw, rfl, rfl⟩ := request_pull hreq
    obtain ⟨p, vals, -, -, rfl⟩ := sendPullResponse_some hresp
    refine h.congr ⟨rest, ?_⟩ rfl rfl (receiveAll_allRecv _ _)
    exact hd.pull_step hw _ (wait_receive_pull _ _ _ _ _ _ _) (receiveAll_allRecv _ _) rfl
  | @pullWait w req p hreq _ =>
    obtain ⟨j, hw, rfl, rfl⟩ := request_pull hreq
    exact h.congr ⟨rest, hd.pull_step hw _ rfl rfl rfl⟩ rfl rfl rfl
  | @engine b msgs key flags resps hmsgs hrun => exact absurd (h.next hn (hmsgs.eq hsched)) (hkeep b rfl)
  | other hmsgs => exact h.congr ⟨rest, hd.congr (fun _ => rfl) rfl (hmsgs.eq hsched).symm rfl⟩ rfl rfl rfl

/-- With `ALL_RECV` the pulls that wait are answered with the sum, and so will be those that come
until the next round starts. -/
theorem SumInv.all {b : Body E} {key : KeyState E (Fin n) σ} {flags : Flags (Fin n)}
    {resps : List (Response E (Fin n))} {done : List (Fin n)} (hn : 0 < n) (hcfg : cfg.numWorkers = n)
    (h : SumInv inp k v) (hr : Running v) (hd : Summing inp k v done []) (hlen : done.length = n)
    (hm : v.msgs = [allMsg inp k]) (hb : b = allMsg inp k)
    (hrun : runMessage cfg C k v.key v.flags b = some (key, flags, resps)) (registers : Bool)
    (hsums : Summing inp k ⟨key, flags, [], (v.run.executed b).receiveAll registers resps⟩ [] []) :
    Fresh inp k v.run.allRecv ⟨key, flags, [], (v.run.executed b).receiveAll registers resps⟩ ∧
    ∀ resp ∈ resps, Answer inp k ⟨key, flags, [], (v.run.executed b).receiveAll registers resps⟩ resp := by
  subst hb
  obtain ⟨-, hst, -, hpub, f₁, kept, answered, vals, hloop, -, rfl, hvals⟩ := runMessage_all rfl hrun
  obtain ⟨-, hmerged, hmlen⟩ := hpub h.plain.compressor
  obtain ⟨s, hs, hsum⟩ := hd.complete hlen hn
  have hpend : pending v.msgs = 1 := by simp [hm, pending, allMsg]
  obtain ⟨f', hloop', -⟩ := hr.rounds.all hn (by omega) (fun _ => rfl)
  rw [hcfg, hloop'] at hloop
  cases hloop
  have hfresh : Fresh inp k v.run.allRecv ⟨key, flags, [], (v.run.executed (allMsg inp k)).receiveAll registers
      (v.flags.qPullReqmeta.map fun req => .pull k req key.updates.merged.len vals)⟩ :=
    ⟨⟨[], hsums⟩, hmerged, hmlen, by simp [receiveAll_allRecv, KeyRun.executed, allMsg], s, hst ▸ hs, hsum⟩
  refine ⟨hfresh, fun resp hresp => ?_⟩
  obtain ⟨req, hreq, rfl⟩ := List.mem_map.mp hresp
  obtain ⟨p, hp, hread⟩ := hvals (List.ne_nil_of_mem hreq)
  rw [hmerged] at hp
  cases hp
  exact ⟨(hr.rounds.waits req hreq).2.symm ▸ hfresh, hmlen, hread⟩

/-- The engine answers pulls only on `ALL_RECV`. -/
theorem SumInv.engine {b : Body E} {msgs : List (Body E)} {key : KeyState E (Fin n) σ} {flags : Flags (Fin n)}
    {resps : List (Response E (Fin n))} (hn : 0 < n) (hcfg : cfg.numWorkers = n) (hsched : cfg.enableSchedule = false)
    (h : SumInv inp k v) (hmsgs : Reorder cfg.enableSchedule v.msgs (b :: msgs))
    (hrun : runMessage cfg C k v.key v.flags b = some (key, flags, resps)) (registers : Bool) :
    (Fresh inp k v.run.allRecv ⟨key, flags, msgs, (v.run.executed b).receiveAll registers resps⟩ ∧
      ∀ resp ∈ resps, Answer inp k ⟨key, flags, msgs, (v.run.executed b).receiveAll registers resps⟩ resp) ∨
    (flags = v.flags ∧ resps = []) := by
  have hr := h.inv.of_msg hmsgs
  have hm := hmsgs.eq hsched
  by_cases hb : b.ops = .allRecv
  · obtain ⟨done, rest, hd⟩ := h.sums hr.stored
    rcases hd.next hm with ⟨w, ws, -, rfl, -⟩ | ⟨rfl, hlen, rfl, rfl⟩
    · simp only [pushMsg] at hb
      split at hb <;> cases hb
    · have hr' := hr.engine (C := C) hn hcfg hmsgs hrun registers
      exact .inl (h.all hn hcfg hr hd hlen hm rfl hrun registers (hd.all hr hn rfl hm hrun hr'))
  · obtain ⟨hflags, hresps, -⟩ := runMessage_data hb hrun
    exact .inr ⟨hflags, hresps⟩

/-- **What a step sends.** Pulls are answered by the engine on `ALL_RECV`, and at once when they ask for the
last executed round. -/
theorem Exact.sends (hn : 0 < n) (hcfg : cfg.numWorkers = n) (hsync : cfg.syncMode = true)
    (hblock : cfg.isEngineBlocking = false) (hsched : cfg.enableSchedule = false) (h : Exact inp k v)
    (hs : KStep cfg C inp k v a v') :
    ∃ resps, v'.run.log = v.run.log ++ resps ∧ ∀ resp ∈ resps, Answer inp k v' resp := by
  have hfresh := fun R (hf : Fresh inp k R v) => hf.step hn hcfg hsync hblock hsched h.sums hs
  cases hs with
  | @register w req content p key resps hreq _ => exact absurd (request_register hreq).1 (h.sums.plain.plain w).1
  | @pushInit w req dtype len vals p hreq hst =>
    obtain ⟨reqs, hreqs⟩ := handleInit_snd cfg k v.key req dtype len vals
    exact ⟨_, receiveAll_log _ _, hreqs ▸ answer_pushes k reqs⟩
  | @push w req dtype len vals store p key key' recv round msgs hreq hst hrecv hround hmsgs =>
    exact ⟨_, receiveAll_log _ _, answer_pushes k [req]⟩
  | @pull w req p resp hreq hfin hseen hresp =>
    obtain ⟨j, hw, rfl, rfl⟩ := request_pull hreq
    obtain ⟨R, hf⟩ := h.fresh hfin
    have hf' := hfresh R hf (by simp)
    have hr := h.sums.inv.of_running (w := w) (by rw [hw]; trivial)
    have hj : j = R := by
      have hanswered := (hr.rounds.on hfin).2.2 w
      have hall := hf.allRecv
      simp [hseen, hw, Phase.answered] at hanswered
      omega
    obtain ⟨p, vals, hp, hvals, rfl⟩ := sendPullResponse_some hresp
    rw [hf.merged] at hp
    cases hp
    refine ⟨_, receiveAll_log _ _, fun resp hresp => ?_⟩
    cases List.mem_singleton.mp hresp
    exact ⟨hj ▸ hf', hf.len, hvals⟩
  | @pullWait w req p hreq _ => exact ⟨[], (List.append_nil _).symm, by simp⟩
  | @engine b msgs key flags resps hmsgs hrun =>
    have hlog : (v.run.executed b).log = v.run.log := by unfold KeyRun.executed; split <;> rfl
    refine ⟨resps, (receiveAll_log _ _).trans (by rw [hlog]), ?_⟩
    rcases h.sums.engine hn hcfg hsched hmsgs hrun (inp.registers k) with ⟨-, hanswers⟩ | ⟨-, rfl⟩
    · exact hanswers
    · simp
  | other hmsgs => exact ⟨[], (List.append_nil _).symm, by simp⟩

theorem Exact.step (hn : 0 < n) (hcfg : cfg.numWorkers = n) (hsync : cfg.syncMode = true)
    (hblock : cfg.isEngineBlocking = false) (hsched : cfg.enableSchedule = false)
    (hreg : inp.registers k = false) (h : Exact inp k v) (hs : KStep cfg C inp k v a v')
    (hkeep : KeepsStore v a v') : Exact inp k v' := by
  obtain ⟨resps, hlog, hanswers⟩ := h.sends hn hcfg hsync hblock hsched hs
  refine ⟨h.sums.step hn hcfg hsync hblock hsched hreg hs, fun resp hresp => ?_, fun hfin => ?_⟩
  · rw [hlog, List.mem_append] at hresp
    exact hresp.elim (h.log resp) fun hnew => (hanswers resp hnew).correct
  · have hfresh := fun (hfin : v.flags.isPushFinished = true) hkeep =>
      (h.fresh hfin).imp fun R hf => hf.step hn hcfg hsync hblock hsched h.sums hs hkeep
    cases hs with
    | @engine b msgs key flags resps hmsgs hrun =>
      rcases h.sums.engine hn hcfg hsched hmsgs hrun (inp.registers k) with ⟨hnew, -⟩ | ⟨rfl, -⟩
      · exact ⟨_, hnew⟩
      · refine hfresh hfin fun b' hb' hcopy => ?_
        cases hb'
        have hoff : v.flags.isPushFinished = false := hkeep hcopy
        exact absurd (hoff.symm.trans hfin) (by simp)
    | pull _ hopen _ _ => exact hfresh hopen nofun
    | _ => exact hfresh hfin nofun

theorem exact_reachable (hn : 0 < n) (hcfg : cfg.numWorkers = n) (hsync : cfg.syncMode = true)
    (hblock : cfg.isEngineBlocking = false) (hsched : cfg.enableSchedule = false) (hreg : inp.registers k = false)
    (h : ((keySys cfg C inp k).restrict KeepsStore).Reachable v) : Exact inp k v := by
  have hind : ((keySys cfg C inp k).restrict KeepsStore).Inductive (Exact inp k) := by
    refine ⟨fun v hv => ?_, fun _ _ _ hI hs => hI.step hn hcfg hsync hblock hsched hreg hs.1 hs.2⟩
    cases hv
    exact ⟨sumInv_init hn, by simp [View.init, KeyRun.start], by simp [View.init, Flags.empty]⟩
  exact hind.reachable v h

end Exact

/-- **Pull responses.** In every run in which no `COPY_FIRST` of a key is taken while
`is_push_finished` holds for it, each response to a worker's `j`-th pull carries the sum of all
workers' `j`-th pushes. -/
theorem pull_response_sum (hn : 0 < n) (engineThreadNum : Nat) (C : Compressor E σ) (inp : Inputs E n)
    (hreg : ∀ k, inp.registers k = false) (S : Sys E n σ)
    (h : ((sys (syncConfig n engineThreadNum false) C inp).restrict NoOverwrite).Reachable S) (k : Nat) :
    ∀ resp ∈ (S.run k).log, Correct inp k resp := by
  have hv : ((keySys (syncConfig n engineThreadNum false) C inp k).restrict KeepsStore).Reachable (view S k) :=
    view_reachable_restrict rfl rfl (fun _ _ _ hT hG => hG.key k hT) h
  exact (exact_reachable hn rfl rfl rfl rfl (hreg k) hv).log

instance (S : Sys E n σ) (a : Act n) (S' : Sys E n σ) : Decidable (NoOverwrite S a S') :=
  match a with
  | .req _ _ => inferInstanceAs (Decidable True)
  | .engine i => inferInstanceAs (Decidable (∀ p ∈ (S.srv.engineQueues i).waitAndPop,
      p.1.body.ops = .copyFirst → (S.srv.flags i p.1.key).isPushFinished = false))

/-- The element of the responses to pulls of a worker, in their order. -/
def answersTo (w : Fin n) (log : List (Response E (Fin n))) : List (Nat × E) :=
  log.filterMap fun
    | .push _ _ => none
    | .pull _ req _ vals => if req.sender = w then some (req.timestamp, vals 0) else none

/-- Two workers and two rounds: 1 + 2, then 11 + 12. Worker 0 pushes for round 1 before worker 1
has pulled round 0, and the engine waits with that push. -/
theorem pull_response_sum_two_rounds :
    ∃ S, ((sys (syncConfig 2 1 false) identity (oneElement false)).restrict NoOverwrite).Reachable S ∧
      answersTo 0 (S.run 0).log = [(0, 3), (1, 23)] ∧ answersTo 1 (S.run 0).log = [(0, 3)] ∧
      ∀ resp ∈ (S.run 0).log, Correct (oneElement false) 0 resp := by
  have hex : ∃ S, LTS.execute (LTS.guarded (step (syncConfig 2 1 false) identity (oneElement false)) NoOverwrite)
      (.init (syncConfig 2 1 false)) [.req 0 0, .req 1 0, .req 0 0, .req 1 0, .engine 0, .engine 0, .engine 0,
        .req 0 0, .req 0 0, .req 1 0, .engine 0, .req 1 0, .engine 0, .engine 0, .req 0 0] = some S ∧
      answersTo 0 (S.run 0).log = [(0, 3), (1, 23)] ∧ answersTo 1 (S.run 0).log = [(0, 3)] := ⟨_, rfl, rfl, rfl⟩
  obtain ⟨S, hS, h0, h1⟩ := hex
  have hr := LTS.Reachable.of_execute
    (.init (M := (sys (syncConfig 2 1 false) identity (oneElement false)).restrict NoOverwrite) rfl) hS
  exact ⟨S, hr, h0, h1, pull_response_sum (by decide) 1 identity (oneElement false) (fun _ => rfl) S hr 0⟩

/-- The same workers, but the engine takes worker 0's push of round 1 before worker 1 pulls:
worker 1 gets 11 as round 0 and not 1 + 2. -/
theorem pull_response_counterexample :
    ∃ S, (sys (syncConfig 2 1 false) identity (oneElement false)).Reachable S ∧
      answersTo 1 (S.run 0).log = [(0, 11)] ∧ ∑ w, (oneElement false).vals w 0 0 0 = 3 ∧
      ¬ ∀ resp ∈ (S.run 0).log, Correct (oneElement false) 0 resp := by
  have hex : ∃ S vals, LTS.execute
      (LTS.guarded (step (syncConfig 2 1 false) identity (oneElement false)) fun _ _ _ => True)
      (.init (syncConfig 2 1 false)) [.req 0 0, .req 1 0, .req 0 0, .req 1 0, .engine 0, .engine 0, .engine 0,
        .req 0 0, .req 0 0, .engine 0, .req 1 0] = some S ∧
      answersTo 1 (S.run 0).log = [(0, 11)] ∧ (S.run 0).log.getLast? = some (.pull 0 ⟨1, 0⟩ 1 vals) ∧
      vals 0 = 11 := ⟨_, _, rfl, rfl, rfl, rfl⟩
  obtain ⟨S, vals, hS, h1, hlast, hvals⟩ := hex
  have hr := LTS.Reachable.of_execute
    (.init (M := (sys (syncConfig 2 1 false) identity (oneElement false)).restrict fun _ _ _ => True) rfl) hS
  have hsum : ∑ w, (oneElement false).vals w 0 0 0 = 3 := rfl
  refine ⟨S, hr.of_restrict, h1, hsum, fun h => ?_⟩
  have hc := (h _ (List.mem_of_getLast? hlast)).2 0 (by decide)
  rw [hsum, hvals] at hc
  cases hc

/-! ## Zero copy -/

/-- A response points to the buffer (`SArray<char>(data, len, false)`): the data of one that was sent in the
step to `S`, if it is read in `S'`.
mirrors byteps/byteps/server/server.cc:53-80 -/
def readLate (S S' : Sys E n σ) (k : Nat) : Option (Nat → E) :=
  (S.srv.keys k).updates.merged.tensor.bind (S'.srv.keys k).read

/-- No engine thread takes a `COPY_FIRST` of the key. -/
def NotTaken (k : Nat) (S : Sys E n σ) (a : Act n) (_ : Sys E n σ) : Prop :=
  match a with
  | .req _ _ => True
  | .engine i => ∀ p ∈ (S.srv.engineQueues i).waitAndPop, p.1.key = k → p.1.body.ops ≠ .copyFirst

/-- The runs from `S` in which no `COPY_FIRST` of the key is taken. -/
def later (cfg : Config) (C : Compressor E σ) (inp : Inputs E n) (k : Nat) (S : Sys E n σ) : LTS (Sys E n σ) (Act n) :=
  (LTS.ofFn (· = S) (step cfg C inp)).restrict (NotTaken k)

omit [AddCommMonoid E] in
theorem NotTaken.key {k : Nat} {S S' : Sys E n σ} {a : Act n} (h : NotTaken k S a S') :
    ∀ b, act S k a = .engine b → b.ops ≠ .copyFirst := by
  intro b hb
  cases a with
  | req w key =>
    simp only [act] at hb
    split at hb <;> cases hb
  | engine i =>
    simp only [act] at hb
    cases hpop : (S.srv.engineQueues i).waitAndPop with
    | none => simp [hpop] at hb
    | some p =>
      rw [hpop] at hb
      by_cases hk : k = p.1.key
      · simp only [hk, if_true, KAct.engine.injEq] at hb
        exact hb ▸ h p hpop hk.symm
      · simp [hk] at hb

/-- However late a response is read: until the engine takes the next `COPY_FIRST` of the key it is the sum of its
round. -/
theorem readLate_sum (hn : 0 < n) {engineThreadNum : Nat} {C : Compressor E σ} {inp : Inputs E n} {k : Nat}
    (hreg : inp.registers k = false) {S S' T : Sys E n σ} {a : Act n}
    (h : ((sys (syncConfig n engineThreadNum false) C inp).restrict NoOverwrite).Reachable S)
    (hs : step (syncConfig n engineThreadNum false) C inp S a = some S')
    (hT : (later (syncConfig n engineThreadNum false) C inp k S').Reachable T)
    {key len : Nat} {req : KVMeta (Fin n)} {vals : Nat → E}
    (hresp : .pull key req len vals ∈ (S'.run k).log.drop (S.run k).log.length) :
    len = inp.len k ∧ ∃ s, readLate S' T k = some s ∧ ∀ x < len, s x = ∑ w, inp.vals w k req.timestamp x := by
  have hthreads := (threads_inductive rfl rfl).reachable S h.of_restrict
  have hexact : Exact inp k (view S k) := exact_reachable hn rfl rfl rfl rfl hreg
    (view_reachable_restrict rfl rfl (fun _ _ _ hT hG => hG.key k hT) h)
  obtain ⟨hthreads', hstep⟩ := step_view rfl rfl hthreads hs
  obtain ⟨resps, hlog, hanswers⟩ := hexact.sends hn rfl rfl rfl rfl (hstep k)
  have hmem : .pull key req len vals ∈ resps := by
    rw [show (S'.run k).log = (S.run k).log ++ resps from hlog, List.drop_left] at hresp
    exact hresp
  obtain ⟨hfresh, hlen, -⟩ := hanswers _ hmem
  -- the store of the round stays along the later run
  have hind : (later (syncConfig n engineThreadNum false) C inp k S').Inductive fun T =>
      Threads false T.srv ∧ SumInv inp k (view T k) ∧ Fresh inp k req.timestamp (view T k) := by
    refine ⟨?_, fun T a T' hI hstep => ?_⟩
    · rintro T rfl
      exact ⟨hthreads', hexact.sums.step hn rfl rfl rfl rfl hreg (hstep k), hfresh⟩
    · obtain ⟨hthr, hsums, hfr⟩ := hI
      obtain ⟨hthr', hview⟩ := step_view rfl rfl hthr hstep.1
      exact ⟨hthr', hsums.step hn rfl rfl rfl rfl hreg (hview k),
        hfr.step hn rfl rfl rfl rfl hsums (hview k) hstep.2.key⟩
  obtain ⟨-, -, hlate⟩ := hind.reachable T hT
  obtain ⟨s, hs, hsum⟩ := hlate.sum
  refine ⟨hlen, s, ?_, fun x hx => hsum x (hlen ▸ hx)⟩
  rw [readLate, show (S'.srv.keys k).updates.merged.tensor = _ from hfresh.merged]
  exact hs

end Inca.L4.StoreSum
