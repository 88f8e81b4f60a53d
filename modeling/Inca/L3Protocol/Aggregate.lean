import Mathlib.Data.Fintype.Card
import Inca.L2Machine.ParameterServer
import Inca.L3Protocol.WorkerJobs

/-!
# Workers, server and network: what an accepted reply contains

`n` workers (`WorkerJobs`), the software parameter server and a network
that may delay, reorder and lose packets. A packet on its way to the server
is named by its sender and its job number, so it can be neither altered nor
duplicated; a reply is a frame, labelled with the job it answers. The
workers run the same `Program`: their `k`-th calls have the same length and
tensor name.

The invariant ties the three together. Round `r` of slot `s` is job
`s + 2500 * r` at *every* worker, resets or not (`WorkerJobs.Slots`); a slot
of the server holds one packet of that job from each worker of a set
(`AggSlot.Holds`); and a reply in flight is the sum over all workers.

* `accepted_reply`: with at most 256 workers, an accepted gradient reply
  answers the outstanding packet of its slot and sums one packet of that
  key from every worker.
* `accepted_reply_counterexample`: with 257 workers the 8-bit worker count
  in the packet is 1, and the server answers a single packet.
-/
namespace Inca.L3.Aggregate
open Inca.L1.DpdkPkt Inca.L2.AggSlot Inca.L2.DpdkManager Inca.L2.ParameterServer Inca.L3.WorkerJobs
open scoped BigOperators

/-! ## The system -/

/-- Length and tensor name of every call. -/
abbrev Program := Nat → Nat × List Char

structure Sys (n : Nat) where
  wk : Fin n → Wk
  ps : Ps
  /-- packets on the way to the server: sender and job number -/
  up : List (Fin n × Nat)
  /-- replies on the way to a worker, with the job they answer -/
  down : Fin n → List (Nat × Frame)

def Sys.init (n : Nat) (mem : Fin n → Nat → Nat → Byte) : Sys n :=
  ⟨fun w => Wk.init (mem w), Ps.init, [], fun _ => []⟩

inductive Act (n : Nat)
  | push (w : Fin n) (tensorKey : Nat) (data : Ptr)
  | tx (w : Fin n) (payload : P4mlhdr)
  | rxServer (k : Nat)
  | rxWorker (w : Fin n) (k : Nat)
  | loseUp (k : Nat)
  | loseDown (w : Fin n) (k : Nat)
  | reset (w : Fin n)
  | host (w : Fin n) (mem : Nat → Nat → Byte)

def cfgOf (build : Build) {n : Nat} (w : Fin n) : Cfg := ⟨build, w, n⟩

/-- Call number `k` of the program; the buffer and its tensor key are the worker's own. -/
def programCall (prog : Program) (k tensorKey : Nat) (data : Ptr) : Call :=
  ⟨tensorKey, data, (prog k).1, TENSOR_COMM, (prog k).2⟩

def Sys.setWk {n : Nat} (S : Sys n) (w : Fin n) (x : Wk) : Sys n :=
  { S with wk := Function.update S.wk w x }

def step (build : Build) (prog : Program) {n : Nat} (S : Sys n) : Act n → Option (Sys n)
  | .push w tensorKey data =>
    (WorkerJobs.step (cfgOf build w) (S.wk w)
      (.push (programCall prog (S.wk w).calls.length tensorKey data))).map (S.setWk w)
  | .tx w payload =>
    (WorkerJobs.step (cfgOf build w) (S.wk w) (.tx payload)).map fun x =>
      { S.setWk w x with up := S.up ++ [(w, (S.wk w).sent.length)] }
  | .rxServer k =>
    (S.up[k]?).bind fun (w, i) => ((S.wk w).sent[i]?).map fun (_, f) =>
      let r := L2.ParameterServer.rxThread n S.ps f
      -- one reply frame leaves the server; the switch sends a copy to every worker
      { S with
        ps := r.1
        up := S.up.eraseIdx k
        down := fun v => S.down v ++ (r.2.map fun g => (i, g)).toList }
  | .rxWorker w k =>
    ((S.down w)[k]?).map fun (i, f) =>
      { S.setWk w ((S.wk w).receive (cfgOf build w) i f) with
        down := Function.update S.down w ((S.down w).eraseIdx k) }
  | .loseUp k => some { S with up := S.up.eraseIdx k }
  | .loseDown w k => some { S with down := Function.update S.down w ((S.down w).eraseIdx k) }
  | .reset w => (WorkerJobs.step (cfgOf build w) (S.wk w) .reset).map (S.setWk w)
  | .host w mem => (WorkerJobs.step (cfgOf build w) (S.wk w) (.host mem)).map (S.setWk w)

def system (build : Build) (prog : Program) (n : Nat) (mem : Fin n → Nat → Nat → Byte) :
    LTS (Sys n) (Act n) := .ofFn (· = Sys.init n mem) (step build prog)

/-- Fewer than `2 ^ 32` rounds per slot, at every worker. -/
def Fair {n : Nat} (_ : Sys n) (_ : Act n) (S' : Sys n) : Prop := ∀ w, RoundsOk (S'.wk w)

instance {n : Nat} (S : Sys n) (a : Act n) (S' : Sys n) : Decidable (Fair S a S') :=
  inferInstanceAs (Decidable (∀ w, RoundsOk (S'.wk w)))

/-! ## The jobs of the program -/

/-- The commands of the jobs of the first `k` calls. -/
def cmds (build : Build) (prog : Program) (k : Nat) : List Int :=
  (List.range k).flatMap fun t =>
    List.replicate (parts ⟨build, 0, 0⟩ (programCall prog t 0 ⟨0, 0⟩)) (cmdOf (programCall prog t 0 ⟨0, 0⟩))

theorem cmds_prefix (build : Build) (prog : Program) {k k' : Nat} (h : k ≤ k') :
    cmds build prog k <+: cmds build prog k' := by
  induction k', h using Nat.le_induction with
  | base => exact List.prefix_rfl
  | succ k' _ ih =>
    refine ih.trans ?_
    rw [cmds, cmds, List.range_succ, List.flatMap_append]
    exact List.prefix_append _ _

theorem cmds_agree (build : Build) (prog : Program) {k k' i : Nat} {a b : Int}
    (ha : (cmds build prog k)[i]? = some a) (hb : (cmds build prog k')[i]? = some b) : a = b := by
  have key : ∀ {k k'}, k ≤ k' → ∀ {a b}, (cmds build prog k)[i]? = some a →
      (cmds build prog k')[i]? = some b → a = b := by
    intro k k' h a b ha hb
    obtain ⟨t, ht⟩ := cmds_prefix build prog h
    rw [← ht, List.getElem?_append_left (List.getElem?_eq_some_iff.mp ha).1, ha] at hb
    exact Option.some.inj hb
  rcases Nat.le_total k k' with h | h
  · exact key h ha hb
  · exact (key h hb ha).symm

/-- The command of job `i`, at every worker that gets that far. -/
noncomputable def jobCmd (build : Build) (prog : Program) (i : Nat) : Int :=
  open Classical in if h : ∃ c k, (cmds build prog k)[i]? = some c then h.choose else TENSOR_INIT

theorem jobCmd_eq {build : Build} {prog : Program} {k i : Nat} {c : Int}
    (h : (cmds build prog k)[i]? = some c) : jobCmd build prog i = c := by
  have hex : ∃ c k, (cmds build prog k)[i]? = some c := ⟨c, k, h⟩
  obtain ⟨k', hk'⟩ := hex.choose_spec
  rw [jobCmd, dif_pos hex]
  exact cmds_agree build prog hk' h

theorem jobCmd_cases (build : Build) (prog : Program) (i : Nat) :
    jobCmd build prog i = TENSOR_COMM ∨ jobCmd build prog i = TENSOR_INIT := by
  by_cases hex : ∃ c k, (cmds build prog k)[i]? = some c
  · obtain ⟨c, k, h⟩ := hex
    rw [jobCmd_eq h]
    have hm := List.mem_of_getElem? h
    simp only [cmds, List.mem_flatMap] at hm
    obtain ⟨t, -, hm⟩ := hm
    rw [List.eq_of_mem_replicate hm, cmdOf]
    split
    · exact .inr rfl
    · exact .inl rfl
  · exact .inr (dif_neg hex)

/-! ## What each worker keeps -/

/-- What `TxThread` writes in every packet. -/
structure Wire (n : Nat) (f : Frame) : Prop where
  etherType : f.etherType = 0x0c00#16
  shutdown : f.msg.shutdown = false
  numWorker : f.msg.p4mlHdrs.numWorker = BitVec.ofNat 8 n

/-- The fields of a call that the program fixes. -/
def shape (c : Call) : Nat × Int × List Char := (c.len, c.cmd, c.tensorName)

def shapeCmds (build : Build) (t : Nat × Int × List Char) : List Int :=
  List.replicate ((t.1 + bound ⟨build, 0, 0⟩ - 1) / bound ⟨build, 0, 0⟩)
    (if t.2.2.getD 7 '\x00' ≠ 'G' then TENSOR_INIT else t.2.1)

structure Worker (build : Build) (prog : Program) {n : Nat} (w : Fin n) (x : Wk) : Prop where
  slots : Slots x
  jobs : Jobs (cfgOf build w) x
  calls : x.calls.map shape = (List.range x.calls.length).map fun k => shape (programCall prog k 0 ⟨0, 0⟩)
  wire : ∀ y ∈ x.sent, Wire n y.2

section Worker
variable {build : Build} {prog : Program} {n : Nat} {w : Fin n} {x x' : Wk}

theorem worker_init (build : Build) (prog : Program) (w : Fin n) (mem : Nat → Nat → Byte) :
    Worker build prog w (Wk.init mem) :=
  ⟨slots_init mem, rfl, rfl, by simp [Wk.init]⟩

theorem frameOf_wire (build : Build) (w : Fin n) (payload : P4mlhdr) (m : Mgr) (job : Job) :
    Wire n (frameOf (cfgOf build w) payload m job) := by
  refine ⟨rfl, rfl, ?_⟩
  unfold frameOf
  split <;> simp [assembleDpdkP4mlHdrs, assembleNormalHdrs, gradHdr, cfgOf]

theorem Worker.push (h : Worker build prog w x) (hR : RoundsOk x) {tensorKey : Nat} {data : Ptr}
    (hs : WorkerJobs.step (cfgOf build w) x (.push (programCall prog x.calls.length tensorKey data)) =
      some x') : Worker build prog w x' ∧ x'.sent = x.sent := by
  have hslots := slots_step h.slots hR hs
  have hjobs := jobs_step h.jobs h.slots hR hs
  simp only [WorkerJobs.step, programCall] at hs
  cases hs
  refine ⟨⟨hslots, hjobs, ?_, h.wire⟩, rfl⟩
  simp only [List.map_append, h.calls, List.length_append, List.length_singleton, List.range_succ]
  rfl

theorem Worker.tx (h : Worker build prog w x) (hR : RoundsOk x) {payload : P4mlhdr}
    (hs : WorkerJobs.step (cfgOf build w) x (.tx payload) = some x') :
    Worker build prog w x' ∧ ∃ y, x'.sent = x.sent ++ [y] := by
  have hslots := slots_step h.slots hR hs
  have hjobs := jobs_step h.jobs h.slots hR hs
  obtain ⟨job, rest, -, -, rfl⟩ := step_tx hs
  refine ⟨⟨hslots, hjobs, h.calls, fun y hy => ?_⟩, _, rfl⟩
  rcases List.mem_append.mp hy with hy | hy
  · exact h.wire y hy
  · rw [List.mem_singleton.mp hy]; exact frameOf_wire build w payload x.mgr job

/-- Replies, resets and host writes. -/
theorem Worker.other (h : Worker build prog w x) (hR : RoundsOk x) {a : WorkerJobs.Act}
    (hs : WorkerJobs.step (cfgOf build w) x a = some x') (hp : ∀ c, a ≠ .push c) (ht : ∀ p, a ≠ .tx p) :
    Worker build prog w x' ∧ x'.sent = x.sent := by
  have he := step_sameJobs h.slots hR hs hp ht
  exact ⟨⟨slots_step h.slots hR hs, jobs_step h.jobs h.slots hR hs, by rw [he.calls]; exact h.calls,
    by rw [he.sent]; exact h.wire⟩, he.sent⟩

/-- The command of a sent job is the one the program gives it. -/
theorem Worker.cmd (h : Worker build prog w x) {i : Nat} {y : Job × Frame} (hy : x.sent[i]? = some y) :
    y.1.cmd = jobCmd build prog i := by
  have hj := congrArg (Option.map Job.cmd) (h.jobs.sent hy)
  have hc : (jobsFrom (cfgOf build w) 0 x.calls).map Job.cmd = cmds build prog x.calls.length := by
    calc (jobsFrom (cfgOf build w) 0 x.calls).map Job.cmd
      _ = x.calls.flatMap fun c => shapeCmds build (shape c) := jobsFrom_cmd _ _ _
      _ = (x.calls.map shape).flatMap (shapeCmds build) := by rw [List.flatMap_map]
      _ = cmds build prog x.calls.length := by rw [h.calls, List.flatMap_map]; rfl
  rw [← List.getElem?_map, hc] at hj
  exact (jobCmd_eq hj).symm

end Worker

/-! ## What server and network keep

All of this depends on the workers through the packets they have sent. -/

abbrev Sent (n : Nat) := Fin n → List (Job × Frame)

/-- The vector that worker `v` sent for job `i`. -/
def words {n : Nat} (sent : Sent n) (i : Nat) (v : Fin n) : Nat → Word :=
  match (sent v)[i]? with
  | some x => leWord x.2.msg.p4mlHdrs.vector
  | none => fun _ => 0

/-- What is known of every sent packet; `cmd` is the command of each job. -/
structure Packets {n : Nat} (cmd : Nat → Int) (sent : Sent n) : Prop where
  packet : ∀ v (i : Nat) x, (sent v)[i]? = some x → IsPacket i x
  wire : ∀ v (i : Nat) x, (sent v)[i]? = some x → Wire n x.2
  cmd_eq : ∀ v (i : Nat) x, (sent v)[i]? = some x → x.1.cmd = cmd i
  cmd_cases : ∀ i, cmd i = TENSOR_COMM ∨ cmd i = TENSOR_INIT
  rounds : ∀ v, ∀ i < (sent v).length, i / MAX_AGTR_COUNT + 1 < 2 ^ 32

/-- The job that slot `a` of the server is at. -/
def jobAtSlot (ps : Ps) (a : BitVec 16) : Nat := a.toNat + MAX_AGTR_COUNT * (ps.roundNumbers a).toNat

/-- Slot `a` holds the packets of the workers `H`, which are off the network. -/
structure ServerSlot {n : Nat} (cmd : Nat → Int) (sent : Sent n) (up : List (Fin n × Nat)) (ps : Ps)
    (a : BitVec 16) (H : Finset (Fin n)) : Prop where
  sent_of_mem : ∀ v ∈ H, jobAtSlot ps a < (sent v).length ∧ (v, jobAtSlot ps a) ∉ up
  holds : Slot.Holds MAX_ENTRIES_PER_PACKET (ps.slot a) (ps.roundNumbers a) H
    (cmd (jobAtSlot ps a) = TENSOR_COMM) (words sent (jobAtSlot ps a))

/-- `f` answers job `i`, which every worker has sent. -/
structure Answers {n : Nat} (cmd : Nat → Int) (sent : Sent n) (i : Nat) (f : Frame) : Prop where
  sent_all : ∀ v, i < (sent v).length
  agtr : f.msg.p4mlHdrs.agtr = BitVec.ofNat 16 (i % MAX_AGTR_COUNT)
  roundNum : f.msg.p4mlHdrs.roundNum = BitVec.ofNat 32 (i / MAX_AGTR_COUNT)
  key : f.msg.key = i % DPDK_KEY_TOTAL
  cmd_eq : f.msg.cmd = cmd i
  data : cmd i = TENSOR_COMM → ∀ q < MAX_ENTRIES_PER_PACKET,
    leWord f.msg.p4mlHdrs.vector q = ∑ v, words sent i v q

structure Net {n : Nat} (cmd : Nat → Int) (sent : Sent n) (ps : Ps) (up : List (Fin n × Nat))
    (down : Fin n → List (Nat × Frame)) : Prop where
  flying : ∀ v i, (v, i) ∈ up → i < (sent v).length
  nodup : up.Nodup
  server : ∀ a, ∃ H, ServerSlot cmd sent up ps a H
  replies : ∀ v i f, (i, f) ∈ down v → Answers cmd sent i f

theorem net_init {n : Nat} (cmd : Nat → Int) (sent : Sent n) : Net cmd sent Ps.init [] fun _ => [] where
  flying := by simp
  nodup := List.nodup_nil
  server := fun a => ⟨∅, by simp, rfl, rfl, by simp⟩
  replies := by simp

section Net
variable {n : Nat} {cmd : Nat → Int} {sent : Sent n} {ps : Ps} {up : List (Fin n × Nat)}
  {down : Fin n → List (Nat × Frame)}

/-! ### One slot -/

section ServerSlot
variable {a : BitVec 16} {H : Finset (Fin n)}

theorem ServerSlot.eraseIdx (h : ServerSlot cmd sent up ps a H) (k : Nat) :
    ServerSlot cmd sent (up.eraseIdx k) ps a H :=
  ⟨fun v hv => ⟨(h.sent_of_mem v hv).1, fun hm => (h.sent_of_mem v hv).2 (List.mem_of_mem_eraseIdx hm)⟩,
    h.holds⟩

theorem ServerSlot.congr (h : ServerSlot cmd sent up ps a H) {ps' : Ps} (hs : ps'.slot a = ps.slot a) :
    ServerSlot cmd sent up ps' a H := by
  have hr : ps'.roundNumbers a = ps.roundNumbers a := congrArg Slot.roundNum hs
  have hj : jobAtSlot ps' a = jobAtSlot ps a := by rw [jobAtSlot, hr, jobAtSlot]
  refine ⟨?_, ?_⟩
  · rw [hj]; exact h.sent_of_mem
  · rw [hj, hs, hr]; exact h.holds

/-- A slot in the round of job `i` holds packets of job `i`. -/
theorem ServerSlot.of_holds {r : BitVec 32} {i : Nat} (hjob : a.toNat + MAX_AGTR_COUNT * r.toNat = i)
    (hh : Slot.Holds MAX_ENTRIES_PER_PACKET (ps.slot a) r H (cmd i = TENSOR_COMM) (words sent i))
    (hsent : ∀ v ∈ H, i < (sent v).length ∧ (v, i) ∉ up) :
    jobAtSlot ps a = i ∧ ServerSlot cmd sent up ps a H := by
  have hr : ps.roundNumbers a = r := hh.roundNum
  have hj : jobAtSlot ps a = i := by rw [jobAtSlot, hr, hjob]
  refine ⟨hj, ?_, ?_⟩
  · rw [hj]; exact hsent
  · rw [hj, hr]; exact hh

end ServerSlot

/-! ### Losing packets and sending more -/

theorem Net.loseUp (h : Net cmd sent ps up down) (k : Nat) : Net cmd sent ps (up.eraseIdx k) down where
  flying := fun v i hm => h.flying v i (List.mem_of_mem_eraseIdx hm)
  nodup := h.nodup.eraseIdx k
  server := fun a => by
    obtain ⟨H, hH⟩ := h.server a
    exact ⟨H, hH.eraseIdx k⟩
  replies := h.replies

theorem Net.loseDown (h : Net cmd sent ps up down) (w : Fin n) (k : Nat) :
    Net cmd sent ps up (Function.update down w ((down w).eraseIdx k)) where
  flying := h.flying
  nodup := h.nodup
  server := h.server
  replies := fun v i f hm => by
    by_cases hv : v = w
    · subst hv
      rw [Function.update_self] at hm
      exact h.replies v i f (List.mem_of_mem_eraseIdx hm)
    · rw [Function.update_of_ne hv] at hm
      exact h.replies v i f hm

/-- More packets are sent; the old ones stay what they were. -/
def Extends (sent sent' : Sent n) : Prop := ∀ v (i : Nat) x, (sent v)[i]? = some x → (sent' v)[i]? = some x

theorem Extends.length {sent' : Sent n} (he : Extends sent sent') {v : Fin n} {i : Nat}
    (hi : i < (sent v).length) : i < (sent' v).length :=
  (List.getElem?_eq_some_iff.mp (he v i _ (List.getElem?_eq_getElem hi))).1

theorem Extends.words {sent' : Sent n} (he : Extends sent sent') {v : Fin n} {i : Nat}
    (hi : i < (sent v).length) : words sent' i v = words sent i v := by
  have hx := List.getElem?_eq_getElem hi
  simp only [Aggregate.words, hx, he v i _ hx]

theorem Net.send (h : Net cmd sent ps up down) {sent' : Sent n} (he : Extends sent sent') {w : Fin n}
    (hw : (sent w).length < (sent' w).length) : Net cmd sent' ps (up ++ [(w, (sent w).length)]) down where
  flying := fun v i hm => by
    rcases List.mem_append.mp hm with hm | hm
    · exact he.length (h.flying v i hm)
    · cases List.mem_singleton.mp hm; exact hw
  nodup := by
    have hnew : (w, (sent w).length) ∉ up := fun hm => Nat.lt_irrefl _ (h.flying _ _ hm)
    simpa using h.nodup.concat hnew
  server := fun a => by
    obtain ⟨H, hH⟩ := h.server a
    refine ⟨H, fun v hv => ⟨he.length (hH.sent_of_mem v hv).1, fun hm => ?_⟩, hH.holds.roundNum,
      hH.holds.count, fun hg hne q hq => ?_⟩
    · rcases List.mem_append.mp hm with hm | hm
      · exact (hH.sent_of_mem v hv).2 hm
      · obtain ⟨rfl, hi⟩ := Prod.mk.inj (List.mem_singleton.mp hm)
        have := (hH.sent_of_mem v hv).1
        omega
    · rw [hH.holds.data hg hne q hq]
      exact Finset.sum_congr rfl fun v hv => by rw [he.words (hH.sent_of_mem v hv).1]
  replies := fun v i f hm => by
    have ha := h.replies v i f hm
    refine ⟨fun v => he.length (ha.sent_all v), ha.agtr, ha.roundNum, ha.key, ha.cmd_eq, fun hc q hq => ?_⟩
    rw [ha.data hc q hq]
    exact Finset.sum_congr rfl fun v _ => by rw [he.words (ha.sent_all v)]

/-! ### The server receives a packet -/

section Receive
variable {k i : Nat} {w : Fin n} {j : Job} {f : Frame}

theorem Packets.isFrom (hP : Packets cmd sent) (hx : (sent w)[i]? = some (j, f)) :
    Slot.IsFrom (pkt f.msg) w f.msg.p4mlHdrs.roundNum n (cmd i = TENSOR_COMM) (words sent i) where
  roundNum := rfl
  numWorker := (hP.wire w i _ hx).numWorker
  grad := by
    have hcmd : f.msg.cmd = cmd i := (hP.packet w i _ hx).cmd.trans (hP.cmd_eq w i _ hx)
    simp only [pkt, hcmd]
  last := rfl
  words := by simp only [words, hx]; rfl

/-- Slot and round in a packet spell its job number. -/
theorem Packets.job_eq (hP : Packets cmd sent) (hx : (sent w)[i]? = some (j, f)) :
    f.msg.p4mlHdrs.agtr.toNat + MAX_AGTR_COUNT * f.msg.p4mlHdrs.roundNum.toNat = i := by
  have hp := hP.packet w i _ hx
  have hr := hP.rounds w i (List.getElem?_eq_some_iff.mp hx).1
  have hr' : i / MAX_AGTR_COUNT % 2 ^ 32 = i / MAX_AGTR_COUNT := Nat.mod_eq_of_lt (by omega)
  rw [hp.agtr, hp.roundNum, agtr_toNat, BitVec.toNat_ofNat, hr']
  exact Nat.mod_add_div i MAX_AGTR_COUNT

/-- The slot of the packet afterwards: still a sum over a set of workers, and over all of them if
the packet completes it. -/
theorem server_receives (hP : Packets cmd sent) (h : Net cmd sent ps up down) (h256 : n ≤ 256)
    (hk : up[k]? = some (w, i)) (hx : (sent w)[i]? = some (j, f)) :
    let a := f.msg.p4mlHdrs.agtr
    let ps' := (handle n ps f.msg).1
    ∃ H, ServerSlot cmd sent (up.eraseIdx k) ps' a H ∧
      ((ps.slot a).Completes (pkt f.msg) → jobAtSlot ps' a = i ∧ H = Finset.univ) := by
  intro a ps'
  have hup : (w, i) ∈ up := List.mem_of_getElem? hk
  have hoff : (w, i) ∉ up.eraseIdx k := fun hm => by
    obtain ⟨l, hne, hl⟩ := List.mem_eraseIdx_iff_getElem?.mp hm
    exact hne ((List.getElem?_inj (List.getElem?_eq_some_iff.mp hl).1 h.nodup).mp (hl.trans hk.symm))
  have hi : i < (sent w).length := (List.getElem?_eq_some_iff.mp hx).1
  have hfrom := hP.isFrom hx
  have hjob := hP.job_eq hx
  have hslot : ps'.slot a = (ps.slot a).step MAX_ENTRIES_PER_PACKET (· + ·) (pkt f.msg) := by
    rw [handle_slot n ps f.msg a, if_pos rfl]
  have hn : 0 < n := Fin.pos w
  obtain ⟨H, hH⟩ := h.server a
  -- older than the slot, newer, or of its round
  by_cases hold : f.msg.p4mlHdrs.roundNum < ps.roundNumbers a
  · have hst := (Slot.classify_stale_iff (ps.slot a) (pkt f.msg)).mpr hold
    rw [Slot.step_stale _ _ hst] at hslot
    exact ⟨H, (hH.eraseIdx k).congr hslot, fun hc => absurd hst hc.1⟩
  by_cases hnew : ps.roundNumbers a < f.msg.p4mlHdrs.roundNum
  · obtain ⟨hh, hc⟩ := Slot.Holds.newer (m := MAX_ENTRIES_PER_PACKET) (s := ps.slot a) hnew hfrom hn h256
    rw [← hslot] at hh
    have hsent : ∀ v ∈ ({w} : Finset (Fin n)), i < (sent v).length ∧ (v, i) ∉ up.eraseIdx k := by
      intro v hv
      rw [Finset.mem_singleton.mp hv]
      exact ⟨hi, hoff⟩
    obtain ⟨hja, hs⟩ := ServerSlot.of_holds hjob hh hsent
    refine ⟨{w}, hs, fun hcomp => ⟨hja, Finset.eq_univ_of_card _ ?_⟩⟩
    rw [Finset.card_singleton, Fintype.card_fin, hc.mp hcomp]
  · have heq : f.msg.p4mlHdrs.roundNum = ps.roundNumbers a :=
      BitVec.le_antisymm (BitVec.not_lt.mp hnew) (BitVec.not_lt.mp hold)
    have hja0 : jobAtSlot ps a = i := by rw [jobAtSlot, ← heq]; exact hjob
    obtain ⟨hmem, hholds⟩ := hH
    rw [hja0] at hmem hholds
    rw [← heq] at hholds
    have hw : w ∉ H := fun hm => (hmem w hm).2 hup
    have hlt : H.card < n := by simpa using Finset.card_lt_univ_of_notMem hw
    obtain ⟨hh, hc⟩ := hholds.same hfrom hw hlt h256
    rw [← hslot] at hh
    have hsent : ∀ v ∈ insert w H, i < (sent v).length ∧ (v, i) ∉ up.eraseIdx k := by
      intro v hv
      rcases Finset.mem_insert.mp hv with rfl | hv
      · exact ⟨hi, hoff⟩
      · exact ⟨(hmem v hv).1, fun hm => (hmem v hv).2 (List.mem_of_mem_eraseIdx hm)⟩
    obtain ⟨hja, hs⟩ := ServerSlot.of_holds hjob hh hsent
    refine ⟨insert w H, hs, fun hcomp => ⟨hja, Finset.eq_univ_of_card _ ?_⟩⟩
    rw [Finset.card_insert_of_notMem hw, Fintype.card_fin, hc.mp hcomp]

/-- Words of a reply are the words of the server's slot. -/
theorem broadcastPacket_words (n : Nat) (ps : Ps) (msg : TestMessage) (q : Nat) :
    leWord (broadcastPacket n ps msg).msg.p4mlHdrs.vector q = (ps.slot msg.p4mlHdrs.agtr).data q :=
  leWord_leByte (fun i => ps.dataSlots i msg.p4mlHdrs.agtr) q

theorem Net.rxServer (hP : Packets cmd sent) (h : Net cmd sent ps up down) (h256 : n ≤ 256)
    (hk : up[k]? = some (w, i)) (hx : (sent w)[i]? = some (j, f)) :
    Net cmd sent (L2.ParameterServer.rxThread n ps f).1 (up.eraseIdx k)
      (fun v => down v ++ ((L2.ParameterServer.rxThread n ps f).2.map fun g => (i, g)).toList) := by
  have hp := hP.packet w i _ hx
  have hcmd : f.msg.cmd = cmd i := hp.cmd.trans (hP.cmd_eq w i _ hx)
  have hacc : accepts f := by
    refine ⟨(hP.wire w i _ hx).shutdown, ?_, (hP.wire w i _ hx).etherType⟩
    rw [hcmd]
    rcases hP.cmd_cases i with hc | hc
    · exact .inl hc
    · exact .inr (.inr hc)
  rw [L2.ParameterServer.rxThread_eq n ps hacc]
  obtain ⟨H, hH, hall⟩ := server_receives hP h h256 hk hx
  refine ⟨(h.loseUp k).flying, (h.loseUp k).nodup, fun a => ?_, fun v l g hm => ?_⟩
  · by_cases ha : a = f.msg.p4mlHdrs.agtr
    · subst ha; exact ⟨H, hH⟩
    · -- another slot is as it was
      have hs := handle_slot n ps f.msg a
      rw [if_neg ha] at hs
      obtain ⟨H', hH'⟩ := (h.loseUp k).server a
      exact ⟨H', hH'.congr hs⟩
  · rcases List.mem_append.mp hm with hm | hm
    · exact h.replies v l g hm
    · rw [handle_reply] at hm
      split at hm
      · rename_i hcomp
        obtain ⟨rfl, rfl⟩ : l = i ∧ g = broadcastPacket n (handle n ps f.msg).1 f.msg := by simpa using hm
        obtain ⟨hja, rfl⟩ := hall hcomp
        refine ⟨fun v => hja ▸ (hH.sent_of_mem v (Finset.mem_univ v)).1, hp.agtr, hp.roundNum, hp.key,
          hcmd, fun hc q hq => ?_⟩
        have hd := hH.holds.data (by rw [hja]; exact decide_eq_true hc) ⟨w, Finset.mem_univ w⟩ q hq
        rw [broadcastPacket_words, hd, hja]
      · simp at hm

end Receive

end Net

/-! ## Every run -/

def Sys.sent {n : Nat} (S : Sys n) : Sent n := fun v => (S.wk v).sent

structure Inv (build : Build) (prog : Program) {n : Nat} (S : Sys n) : Prop where
  workers : ∀ w, Worker build prog w (S.wk w)
  rounds : ∀ w, RoundsOk (S.wk w)
  net : Net (jobCmd build prog) S.sent S.ps S.up S.down

section Inv
variable {build : Build} {prog : Program} {n : Nat} {S S' : Sys n}

theorem inv_init (build : Build) (prog : Program) (mem : Fin n → Nat → Nat → Byte) :
    Inv build prog (Sys.init n mem) where
  workers := fun w => worker_init build prog w (mem w)
  rounds := by simp [RoundsOk, Sys.init, Wk.init]
  net := net_init _ _

theorem Inv.packets (h : Inv build prog S) : Packets (jobCmd build prog) S.sent where
  packet := fun v => (h.workers v).slots.packet
  wire := fun v _ x hx => (h.workers v).wire x (List.mem_of_getElem? hx)
  cmd_eq := fun v _ _ hx => (h.workers v).cmd hx
  cmd_cases := jobCmd_cases build prog
  rounds := h.rounds

/-- One worker changes, without sending. -/
theorem Inv.setWk (h : Inv build prog S) {w : Fin n} {x : Wk}
    (hx : Worker build prog w x ∧ x.sent = (S.wk w).sent)
    (hR : ∀ v, RoundsOk ((S.setWk w x).wk v)) : Inv build prog (S.setWk w x) where
  workers := fun v => by
    by_cases hv : v = w
    · subst hv; simpa [Sys.setWk] using hx.1
    · simpa [Sys.setWk, Function.update_of_ne hv] using h.workers v
  rounds := hR
  net := by
    have hs : (S.setWk w x).sent = S.sent := funext fun v => by
      by_cases hv : v = w
      · subst hv; simpa [Sys.sent, Sys.setWk] using hx.2
      · simp [Sys.sent, Sys.setWk, Function.update_of_ne hv]
    rw [hs]; exact h.net

theorem Inv.tx (h : Inv build prog S) {w : Fin n} {x : Wk} {y : Job × Frame}
    (hx : Worker build prog w x) (hy : x.sent = (S.wk w).sent ++ [y])
    (hR : ∀ v, RoundsOk ((S.setWk w x).wk v)) :
    Inv build prog { S.setWk w x with up := S.up ++ [(w, (S.wk w).sent.length)] } where
  workers := fun v => by
    by_cases hv : v = w
    · subst hv; simpa [Sys.setWk] using hx
    · simpa [Sys.setWk, Function.update_of_ne hv] using h.workers v
  rounds := hR
  net := by
    have hw : (S.setWk w x).sent w = S.sent w ++ [y] := by simpa [Sys.sent, Sys.setWk] using hy
    have he : Extends S.sent (S.setWk w x).sent := fun v i z hz => by
      by_cases hv : v = w
      · subst hv
        rw [hw, List.getElem?_append_left (List.getElem?_eq_some_iff.mp hz).1]; exact hz
      · simpa [Sys.sent, Sys.setWk, Function.update_of_ne hv] using hz
    exact h.net.send he (by rw [hw]; simp)

/-- A reply in flight answers the packet of its job at every worker. -/
theorem Inv.answerTo (h : Inv build prog S) {w v : Fin n} {i : Nat} {f : Frame} (hm : (i, f) ∈ S.down w) :
    ∃ j p, (S.wk v).sent[i]? = some (j, p) ∧ AnswerTo p f := by
  have ha := h.net.replies w i f hm
  obtain ⟨⟨j, p⟩, hx⟩ : ∃ x, (S.sent v)[i]? = some x := ⟨_, List.getElem?_eq_getElem (ha.sent_all v)⟩
  have hp := h.packets.packet v i _ hx
  exact ⟨j, p, hx, ha.agtr.trans hp.agtr.symm, ha.roundNum.trans hp.roundNum.symm,
    ha.key.trans hp.key.symm, by rw [ha.cmd_eq, hp.cmd, h.packets.cmd_eq v i _ hx]⟩

theorem Inv.receive (h : Inv build prog S) {w : Fin n} {i : Nat} {f : Frame} (hm : (i, f) ∈ S.down w) :
    WorkerJobs.step (cfgOf build w) (S.wk w) (.reply i f) = some ((S.wk w).receive (cfgOf build w) i f) := by
  obtain ⟨j, p, hx, hans⟩ := h.answerTo (v := w) hm
  simp only [WorkerJobs.step, hx, Option.bind_some, if_pos hans]

theorem inv_step (h256 : n ≤ 256) (h : Inv build prog S) {a : Act n} (hs : step build prog S a = some S')
    (hR : ∀ w, RoundsOk (S'.wk w)) : Inv build prog S' := by
  cases a with
  | push w tensorKey data =>
    simp only [step, Option.map_eq_some_iff] at hs
    obtain ⟨x, hx, rfl⟩ := hs
    exact h.setWk ((h.workers w).push (h.rounds w) hx) hR
  | tx w payload =>
    simp only [step, Option.map_eq_some_iff] at hs
    obtain ⟨x, hx, rfl⟩ := hs
    obtain ⟨hw, y, hy⟩ := (h.workers w).tx (h.rounds w) hx
    exact h.tx hw hy hR
  | rxServer k =>
    simp only [step, Option.bind_eq_some_iff, Option.map_eq_some_iff] at hs
    obtain ⟨⟨w, i⟩, hk, ⟨j, f⟩, hx, rfl⟩ := hs
    exact ⟨h.workers, h.rounds, h.net.rxServer h.packets h256 hk hx⟩
  | rxWorker w k =>
    simp only [step, Option.map_eq_some_iff] at hs
    obtain ⟨⟨i, f⟩, hk, rfl⟩ := hs
    have hst := h.receive (List.mem_of_getElem? hk)
    have h' := h.setWk ((h.workers w).other (h.rounds w) hst (by simp) (by simp)) hR
    exact ⟨h'.workers, h'.rounds, h'.net.loseDown w k⟩
  | loseUp k => cases hs; exact ⟨h.workers, h.rounds, h.net.loseUp k⟩
  | loseDown w k => cases hs; exact ⟨h.workers, h.rounds, h.net.loseDown w k⟩
  | reset w =>
    simp only [step, Option.map_eq_some_iff] at hs
    obtain ⟨x, hx, rfl⟩ := hs
    exact h.setWk ((h.workers w).other (h.rounds w) hx (by simp) (by simp)) hR
  | host w mem =>
    simp only [step, Option.map_eq_some_iff] at hs
    obtain ⟨x, hx, rfl⟩ := hs
    exact h.setWk ((h.workers w).other (h.rounds w) hx (by simp) (by simp)) hR

theorem inv_inductive (build : Build) (prog : Program) (h256 : n ≤ 256) (mem : Fin n → Nat → Nat → Byte) :
    ((system build prog n mem).restrict Fair).Inductive (Inv build prog) where
  init := by rintro S rfl; exact inv_init build prog mem
  step := fun _ _ _ h hs => inv_step h256 h hs.1 hs.2

end Inv

/-- The words of `f` are the sum of one packet of every worker, all sent for slot, round and key
of `f`. -/
def SumsAll {n : Nat} (S : Sys n) (f : Frame) : Prop :=
  ∃ p : Fin n → Frame,
    (∀ v, (∃ j, (j, p v) ∈ (S.wk v).sent) ∧ (p v).msg.key = f.msg.key ∧
      (p v).msg.p4mlHdrs.agtr = f.msg.p4mlHdrs.agtr ∧
      (p v).msg.p4mlHdrs.roundNum = f.msg.p4mlHdrs.roundNum) ∧
    ∀ q < MAX_ENTRIES_PER_PACKET,
      leWord f.msg.p4mlHdrs.vector q = ∑ v, leWord (p v).msg.p4mlHdrs.vector q

theorem Inv.sumsAll {build : Build} {prog : Program} {n : Nat} {S : Sys n} (h : Inv build prog S) {w : Fin n}
    {i : Nat} {f : Frame} (hm : (i, f) ∈ S.down w) (hc : f.msg.cmd = TENSOR_COMM) : SumsAll S f := by
  have ha := h.net.replies w i f hm
  choose j p hx hans using fun v => h.answerTo (v := v) hm
  refine ⟨p, fun v => ⟨⟨j v, List.mem_of_getElem? (hx v)⟩, (hans v).2.2.1.symm, (hans v).1.symm,
    (hans v).2.1.symm⟩, fun q hq => ?_⟩
  rw [ha.data (ha.cmd_eq ▸ hc) q hq]
  refine Finset.sum_congr rfl fun v _ => ?_
  have hxv : (S.sent v)[i]? = some (j v, p v) := hx v
  simp only [words, hxv]

/-- **Aggregation.** With at most 256 workers, in every run with fewer than `2 ^ 32` rounds per
slot: when a worker accepts a gradient reply, the slot is outstanding, the reply carries its
outstanding key, and its vector is the sum of one packet of every worker for that key. -/
theorem accepted_reply (build : Build) (prog : Program) (n : Nat) (h256 : n ≤ 256)
    (mem : Fin n → Nat → Nat → Byte) (S : Sys n)
    (hS : ((system build prog n mem).restrict Fair).Reachable S) (w : Fin n) (i : Nat) (f : Frame)
    (hm : (i, f) ∈ S.down w) (hacc : RxAccepts (S.wk w).mgr f) (hc : f.msg.cmd = TENSOR_COMM) :
    (S.wk w).mgr.slotReady f.msg.p4mlHdrs.agtr.toNat = false ∧
    f.msg.key = (S.wk w).mgr.slotDpdkKey f.msg.p4mlHdrs.agtr.toNat ∧ SumsAll S f := by
  have h := (inv_inductive build prog h256 mem).reachable S hS
  have ha := h.net.replies w i f hm
  obtain ⟨j, p, hx, hans⟩ := h.answerTo (v := w) hm
  have hopen := (h.workers w).slots.open_of_accepts (h.rounds w) hx hans hacc
  obtain ⟨hr, hk, -, -⟩ := (h.workers w).slots.isOpen i hopen.1 hopen.2
  rw [ha.agtr, agtr_toNat]
  exact ⟨hr, ha.key.trans hk.symm, h.sumsAll hm hc⟩

/-! ### Two runs -/

/-- Every call is one packet of gradient bytes. -/
def smallProgram : Program := fun _ => (4, ['b', 'y', 't', 'e', 'p', 's', '.', 'G'])

/-- The memory of worker `w` holds bytes `w + 1`. -/
def smallMem {n : Nat} (w : Fin n) : Nat → Nat → Byte := fun _ _ => BitVec.ofNat 8 (w + 1)

/-- Two workers send one packet each; they reach the server in the opposite order. -/
def twoWorkers : List (Act 2) :=
  [.push 0 7 ⟨0, 0⟩, .push 1 7 ⟨0, 0⟩, .tx 0 .zero, .tx 1 .zero, .rxServer 1, .rxServer 0]

theorem accepted_reply_two_workers : ∃ S f,
    ((system (inca true) smallProgram 2 smallMem).restrict Fair).Reachable S ∧ (0, f) ∈ S.down 0 ∧
    leWord f.msg.p4mlHdrs.vector 0 = 0x03030303#32 ∧ SumsAll S f := by
  have hex : ∃ S f, LTS.execute (LTS.guarded (step (inca true) smallProgram) Fair) (Sys.init 2 smallMem)
      twoWorkers = some S ∧ S.down 0 = [(0, f)] ∧ RxAccepts (S.wk 0).mgr f ∧ f.msg.cmd = TENSOR_COMM ∧
      leWord f.msg.p4mlHdrs.vector 0 = 0x03030303#32 := ⟨_, _, rfl, rfl, by decide, rfl, by decide⟩
  obtain ⟨S, f, hS, hd, hacc, hc, hsum⟩ := hex
  have hr := LTS.Reachable.of_execute
    (.init (M := (system (inca true) smallProgram 2 smallMem).restrict Fair) rfl) hS
  have hm : (0, f) ∈ S.down 0 := by rw [hd]; exact List.mem_singleton_self _
  exact ⟨S, f, hr, hm, hsum,
    (accepted_reply (inca true) smallProgram 2 (by decide) smallMem S hr 0 0 f hm hacc hc).2.2⟩

set_option maxRecDepth 20000 in
/-- 257 workers: the packet of worker 0 says `num_worker = 1`, so the server answers it alone, and
worker 0 accepts a sum that no packet of worker 1 went into. -/
theorem accepted_reply_counterexample : ∃ S f,
    ((system (inca true) smallProgram 257 smallMem).restrict Fair).Reachable S ∧ (0, f) ∈ S.down 0 ∧
    RxAccepts (S.wk 0).mgr f ∧ f.msg.cmd = TENSOR_COMM ∧ ¬ SumsAll S f := by
  have hex : ∃ S f, LTS.execute (LTS.guarded (step (inca true) smallProgram) Fair) (Sys.init 257 smallMem)
      [.push 0 7 ⟨0, 0⟩, .tx 0 .zero, .rxServer 0] = some S ∧ S.down 0 = [(0, f)] ∧
      RxAccepts (S.wk 0).mgr f ∧ f.msg.cmd = TENSOR_COMM ∧ (S.wk 1).sent = [] :=
    ⟨_, _, rfl, rfl, by decide, rfl, rfl⟩
  obtain ⟨S, f, hS, hd, hacc, hc, hnone⟩ := hex
  refine ⟨S, f, LTS.Reachable.of_execute (.init rfl) hS, by rw [hd]; exact List.mem_singleton_self _,
    hacc, hc, ?_⟩
  rintro ⟨p, hp, -⟩
  obtain ⟨j, hj⟩ := (hp 1).1
  rw [hnone] at hj
  cases hj

end Inca.L3.Aggregate
