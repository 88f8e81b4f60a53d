import Mathlib.Algebra.Group.Action.Defs
import Mathlib.Algebra.Order.BigOperators.Group.Finset
import Mathlib.Data.Fintype.Card
import Inca.Core.LTS
import Inca.L2Machine.DpdkManager
import Inca.L2Machine.NormAgg

/-!
# The norm exchange (`DPDKManager::CommunicateNorm`)

`n` workers make the same sequence of `CommunicateNorm` calls, one at a
time each. A call reads the round of its norm slot (`key % NORM_SLOT`),
clears `norm_ready[key]`, sends one packet and polls; the receive thread
accepts the reply of that round, advances the round and stores the value.
Keys share slots, and workers run ahead of each other.

Steps are single accesses to what the two threads of a worker share; the
aggregator handles one packet at a time. The network delays and reorders:
any packet, and any reply of a worker, may be next. It neither loses nor
duplicates: a packet is named by its sender and its call, and taken off
when it is handled; a reply of the aggregator is one copy for every worker.

Call `i` is call number `roundOf i` of its slot at every worker, and this is
the round its packets carry. A worker sends in the next round only after a
reply, which needs a packet of everybody: so a slot never sees an old round,
holds the packets of one call only (`SlotOk`), and a reply in flight is one
that everybody has sent for (`Answered`).

* `exists_returned`: a call that every worker has begun returns.
* `norm_calls`: with at most 256 workers and fewer than `2 ^ 32` calls per
  slot, every call returns the largest of the values passed to it.
* `norm_counterexample`: with 257 workers the first packet is answered alone.
-/
namespace Inca.L3.NormCall
open Inca.L1.DpdkPkt Inca.L2.AggSlot Inca.L2.NormAgg

/-! ## One worker -/

/-- Where `CommunicateNorm` is: the packet is assembled (`read`), `norm_ready[key]` is cleared
(`armed`), the packet is sent (`waiting`). -/
inductive Pc
  | idle
  | read (round : BitVec 32)
  | armed (round : BitVec 32)
  | waiting
  deriving DecidableEq

/-- Where `RxThread` is with an accepted reply: the round is advanced (`bumped`), the value is
stored (`wrote`). -/
inductive Rx
  | free
  | bumped (key : Nat) (norm : BitVec 32)
  | wrote (key : Nat)
  deriving DecidableEq

/-- `calls`, `results`: the calls that have returned, and what. -/
structure Worker where
  slotRoundnum : Nat → BitVec 32
  normReady : Nat → Bool
  normValue : Nat → BitVec 32
  pc : Pc
  rx : Rx
  calls : Nat
  results : List (BitVec 32)

/-- mirrors byteps/byteps/common/dpdk/client/dpdk_manager.cc:639-645 and the zeroed statics -/
def Worker.init : Worker := ⟨fun _ => 0, fun _ => false, fun _ => 0, .idle, .free, 0, []⟩

/-- mirrors byteps/byteps/common/dpdk/client/dpdk_manager.cc:940 -/
def agtrIndex (key : Nat) : Nat := MAX_AGTR_COUNT + key % NORM_SLOT

/-- mirrors byteps/byteps/common/dpdk/client/dpdk_manager.cc:945-956; `payload` is the
uninitialised `msg_body`. -/
def normFrame (sw : Bool) (payload : TestMessage) (host n : Nat) (round : BitVec 32) (key : Nat)
    (maxNorm : BitVec 32) : Frame where
  etherType := if sw then 0x0c00#16 else 0x0a00#16
  msg :=
    { payload with
      p4mlHdrs := assembleNormPkt sw payload.p4mlHdrs host (BitVec.ofNat 8 n) round key maxNorm
      key := key
      cmd := TENSOR_NORM
      shutdown := false }

/-- The slot of a norm packet.
mirrors byteps/byteps/common/dpdk/client/dpdk_manager.cc:281-288 -/
def rxIndex (sw : Bool) (msg : TestMessage) : Nat :=
  if sw then msg.p4mlHdrs.agtr.toNat else agtrIndex msg.key

/-- mirrors byteps/byteps/common/dpdk/client/dpdk_manager.cc:257-301 -/
def RxAccepts (sw : Bool) (x : Worker) (f : Frame) : Prop :=
  f.etherType = (if sw then 0x0d00#16 else 0x0a00#16) ∧ f.msg.cmd ≤ TENSOR_INIT ∧
  f.msg.key < DPDK_KEY_TOTAL ∧ f.msg.p4mlHdrs.roundNum = x.slotRoundnum (rxIndex sw f.msg)

instance (sw : Bool) (x : Worker) (f : Frame) : Decidable (RxAccepts sw x f) :=
  inferInstanceAs (Decidable (_ ∧ _))

/-- The receive thread takes a norm packet; the one it does not accept it drops.
mirrors byteps/byteps/common/dpdk/client/dpdk_manager.cc:257-310 -/
def Worker.recv (sw : Bool) (x : Worker) (f : Frame) : Worker :=
  if RxAccepts sw x f then
    { x with
      slotRoundnum := Function.update x.slotRoundnum (rxIndex sw f.msg)
        (x.slotRoundnum (rxIndex sw f.msg) + 1#32)
      rx := .bumped f.msg.key f.msg.p4mlHdrs.normInfo }
  else x

/-- mirrors byteps/byteps/common/dpdk/client/dpdk_manager.cc:312 -/
def Worker.write (x : Worker) (key : Nat) (norm : BitVec 32) : Worker :=
  { x with normValue := Function.update x.normValue key norm, rx := .wrote key }

/-- mirrors byteps/byteps/common/dpdk/client/dpdk_manager.cc:313 -/
def Worker.ready (x : Worker) (key : Nat) : Worker :=
  { x with normReady := Function.update x.normReady key true, rx := .free }

/-- The receive thread's three steps are its norm branch in one. -/
theorem recv_write_ready (cfg : L2.DpdkManager.Cfg) (m : L2.DpdkManager.Mgr) (x : Worker) (f : Frame)
    (hr : x.slotRoundnum = m.slotRoundnum) (hv : x.normValue = m.normValue)
    (hb : x.normReady = m.normReady) (hc : f.msg.cmd = TENSOR_NORM) (ha : RxAccepts true x f) :
    let x' := ((x.recv true f).write f.msg.key f.msg.p4mlHdrs.normInfo).ready f.msg.key
    let m' := L2.DpdkManager.rxThread cfg m f
    x'.slotRoundnum = m'.slotRoundnum ∧ x'.normValue = m'.normValue ∧ x'.normReady = m'.normReady := by
  intro x' m'
  have hm : L2.DpdkManager.RxAccepts m f := by
    obtain ⟨h1, h2, h3, h4⟩ := ha
    exact ⟨h1, h2, h3, by rw [h4, hr]; rfl⟩
  simp only [m', L2.DpdkManager.rxThread_eq, if_pos hm, L2.DpdkManager.handleReply, hc, if_true]
  simp only [x', Worker.recv, if_pos ha, Worker.write, Worker.ready, hr, hv, hb, rxIndex, if_true]
  trivial

/-! ## The system -/

/-- The build, the keys of the calls, and the values that each worker passes. -/
structure Program (n : Nat) where
  sw : Bool
  keys : Nat → Nat
  vals : Fin n → Nat → BitVec 32

/-- `up`: packets on their way, with sender and call; `down`: replies on their way, with the call
of the packet they are made from. -/
structure Sys (A : Type) (n : Nat) where
  wk : Fin n → Worker
  agg : A
  up : List ((Fin n × Nat) × Frame)
  down : Fin n → List (Nat × Frame)

/-- `aggregate k dest`: packet `k` of those in flight is handled; `dest` is where the port of a packet
leads that is not for everybody. -/
inductive Act (n : Nat)
  | start (w : Fin n)
  | arm (w : Fin n)
  | send (w : Fin n) (payload : TestMessage)
  | aggregate (k : Nat) (dest : Option (Fin n))
  | recv (w : Fin n) (k : Nat)
  | write (w : Fin n)
  | ready (w : Fin n)
  | ret (w : Fin n)

section System
variable {A : Type} {n : Nat} (P : Program n) (agg : Aggregator A)

def Sys.init : Sys A n := ⟨fun _ => .init, agg.init, [], fun _ => []⟩

def Sys.setWk (S : Sys A n) (w : Fin n) (x : Worker) : Sys A n :=
  { S with wk := Function.update S.wk w x }

/-- The replies that `out` puts on their way to worker `v`. -/
def delivered (out : Out) (dest : Option (Fin n)) (v : Fin n) : List Frame :=
  match out with
  | .drop => []
  | .all g => [g]
  | .port g => if dest = some v then [g] else []

/-- mirrors byteps/byteps/common/dpdk/client/dpdk_manager.cc:925-999 (`start` to `send`, `ret`) -/
def step (S : Sys A n) : Act n → Option (Sys A n)
  | .start w =>
    let x := S.wk w
    if x.pc = .idle then
      some (S.setWk w { x with pc := .read (x.slotRoundnum (agtrIndex (P.keys x.calls))) })
    else none
  | .arm w =>
    let x := S.wk w
    match x.pc with
    | .read round => some (S.setWk w { x with
        pc := .armed round, normReady := Function.update x.normReady (P.keys x.calls) false })
    | _ => none
  | .send w payload =>
    let x := S.wk w
    match x.pc with
    | .armed round => some { S.setWk w { x with pc := .waiting } with
        up := S.up ++ [((w, x.calls),
          normFrame P.sw payload w n round (P.keys x.calls) (P.vals w x.calls))] }
    | _ => none
  | .aggregate k dest =>
    (S.up[k]?).map fun ((_, i), f) =>
      let r := agg.recv S.agg f
      { S with
        agg := r.1
        up := S.up.eraseIdx k
        down := fun v => S.down v ++ (delivered r.2 dest v).map fun g => (i, g) }
  | .recv w k =>
    if (S.wk w).rx = .free then
      ((S.down w)[k]?).map fun (_, f) =>
        { S.setWk w ((S.wk w).recv P.sw f) with
          down := Function.update S.down w ((S.down w).eraseIdx k) }
    else none
  | .write w =>
    match (S.wk w).rx with
    | .bumped key norm => some (S.setWk w ((S.wk w).write key norm))
    | _ => none
  | .ready w =>
    match (S.wk w).rx with
    | .wrote key => some (S.setWk w ((S.wk w).ready key))
    | _ => none
  | .ret w =>
    let x := S.wk w
    if x.pc = .waiting ∧ x.normReady (P.keys x.calls) = true then
      some (S.setWk w { x with
        pc := .idle, calls := x.calls + 1, results := x.results ++ [x.normValue (P.keys x.calls)] })
    else none

def system : LTS (Sys A n) (Act n) := LTS.ofFn (· = Sys.init agg) (step P agg)

/-- What an action does, and when. -/
inductive Step (S : Sys A n) : Act n → Sys A n → Prop
  | start {w : Fin n} (hpc : (S.wk w).pc = .idle) :
    Step S (.start w) (S.setWk w { S.wk w with
      pc := .read ((S.wk w).slotRoundnum (agtrIndex (P.keys (S.wk w).calls))) })
  | arm {w : Fin n} {round : BitVec 32} (hpc : (S.wk w).pc = .read round) :
    Step S (.arm w) (S.setWk w { S.wk w with
      pc := .armed round
      normReady := Function.update (S.wk w).normReady (P.keys (S.wk w).calls) false })
  | send {w : Fin n} {round : BitVec 32} (payload : TestMessage) (hpc : (S.wk w).pc = .armed round) :
    Step S (.send w payload) { S.setWk w { S.wk w with pc := .waiting } with
      up := S.up ++ [((w, (S.wk w).calls),
        normFrame P.sw payload w n round (P.keys (S.wk w).calls) (P.vals w (S.wk w).calls))] }
  | aggregate {w : Fin n} {k i : Nat} {f : Frame} (dest : Option (Fin n))
    (hk : S.up[k]? = some ((w, i), f)) :
    Step S (.aggregate k dest)
      { S with
        agg := (agg.recv S.agg f).1
        up := S.up.eraseIdx k
        down := fun v => S.down v ++ (delivered (agg.recv S.agg f).2 dest v).map fun g => (i, g) }
  | recv {w : Fin n} {k i : Nat} {g : Frame} (hrx : (S.wk w).rx = .free)
    (hk : (S.down w)[k]? = some (i, g)) :
    Step S (.recv w k)
      { S.setWk w ((S.wk w).recv P.sw g) with
        down := Function.update S.down w ((S.down w).eraseIdx k) }
  | write {w : Fin n} {key : Nat} {norm : BitVec 32} (hrx : (S.wk w).rx = .bumped key norm) :
    Step S (.write w) (S.setWk w ((S.wk w).write key norm))
  | ready {w : Fin n} {key : Nat} (hrx : (S.wk w).rx = .wrote key) :
    Step S (.ready w) (S.setWk w ((S.wk w).ready key))
  | ret {w : Fin n} (hpc : (S.wk w).pc = .waiting)
    (hready : (S.wk w).normReady (P.keys (S.wk w).calls) = true) :
    Step S (.ret w) (S.setWk w { S.wk w with
      pc := .idle
      calls := (S.wk w).calls + 1
      results := (S.wk w).results ++ [(S.wk w).normValue (P.keys (S.wk w).calls)] })

variable {P agg} in
theorem step_cases {S S' : Sys A n} {a : Act n} (hs : step P agg S a = some S') : Step P agg S a S' := by
  cases a with
  | start w =>
    simp only [step, Option.ite_none_right_eq_some, Option.some.injEq] at hs
    obtain ⟨hpc, rfl⟩ := hs
    exact .start hpc
  | arm w =>
    simp only [step] at hs
    split at hs
    · next round hpc => obtain rfl := Option.some.inj hs; exact .arm hpc
    · cases hs
  | send w payload =>
    simp only [step] at hs
    split at hs
    · next round hpc => obtain rfl := Option.some.inj hs; exact .send payload hpc
    · cases hs
  | aggregate k dest =>
    simp only [step, Option.map_eq_some_iff] at hs
    obtain ⟨⟨⟨w, i⟩, f⟩, hk, rfl⟩ := hs
    exact .aggregate dest hk
  | recv w k =>
    simp only [step, Option.ite_none_right_eq_some, Option.map_eq_some_iff] at hs
    obtain ⟨hrx, ⟨i, g⟩, hk, rfl⟩ := hs
    exact .recv hrx hk
  | write w =>
    simp only [step] at hs
    split at hs
    · next key norm hrx => obtain rfl := Option.some.inj hs; exact .write hrx
    · cases hs
  | ready w =>
    simp only [step] at hs
    split at hs
    · next key hrx => obtain rfl := Option.some.inj hs; exact .ready hrx
    · cases hs
  | ret w =>
    simp only [step, Option.ite_none_right_eq_some, Option.some.injEq] at hs
    obtain ⟨⟨hpc, hready⟩, rfl⟩ := hs
    exact .ret hpc hready

end System

/-! ## Calls and rounds -/

/-- The number of the first `i` calls that use norm slot `j`. -/
def callsOn (keys : Nat → Nat) (j i : Nat) : Nat := (List.range i).countP fun k => keys k % NORM_SLOT = j

/-- The round of call `i`: how many calls used its slot before. -/
def roundOf (keys : Nat → Nat) (i : Nat) : Nat := callsOn keys (keys i % NORM_SLOT) i

def Act.starts {n : Nat} : Act n → Option (Fin n)
  | .start w => some w
  | _ => none

/-- Fewer than `2 ^ 32` calls per slot. -/
def Fair {A : Type} {n : Nat} (P : Program n) (S : Sys A n) (a : Act n) (_ : Sys A n) : Prop :=
  ∀ w ∈ a.starts, roundOf P.keys (S.wk w).calls + 1 < 2 ^ 32

instance {A : Type} {n : Nat} (P : Program n) (S : Sys A n) (a : Act n) (S' : Sys A n) :
    Decidable (Fair P S a S') := inferInstanceAs (Decidable (∀ w ∈ a.starts, _))

section Rounds
variable {keys : Nat → Nat}

theorem callsOn_succ (j i : Nat) :
    callsOn keys j (i + 1) = callsOn keys j i + if keys i % NORM_SLOT = j then 1 else 0 := by
  simp only [callsOn, List.range_succ, List.countP_append, List.countP_singleton, decide_eq_true_eq]

theorem callsOn_mono (j : Nat) {i i' : Nat} (h : i ≤ i') : callsOn keys j i ≤ callsOn keys j i' := by
  induction i', h using Nat.le_induction with
  | base => exact Nat.le_refl _
  | succ k _ ih => rw [callsOn_succ]; omega

/-- Rounds of a slot grow with the calls. -/
theorem roundOf_lt {i i' : Nat} (hs : keys i % NORM_SLOT = keys i' % NORM_SLOT) (h : i < i') :
    roundOf keys i < roundOf keys i' := by
  have hmono : callsOn keys (keys i % NORM_SLOT) (i + 1) ≤ callsOn keys (keys i % NORM_SLOT) i' :=
    callsOn_mono _ (Nat.succ_le_of_lt h)
  rw [callsOn_succ, if_pos rfl] at hmono
  rw [roundOf, roundOf, ← hs]
  omega

/-- The rounds of a slot so far are those of its calls. -/
theorem callsOn_pos {j m : Nat} (h : callsOn keys j m ≠ 0) :
    ∃ i < m, callsOn keys j m = roundOf keys i + 1 := by
  induction m with
  | zero => exact absurd rfl h
  | succ m ih =>
    rw [callsOn_succ] at h ⊢
    by_cases hm : keys m % NORM_SLOT = j
    · exact ⟨m, by omega, by rw [if_pos hm, roundOf, hm]⟩
    · rw [if_neg hm, Nat.add_zero] at h ⊢
      obtain ⟨i, hi, he⟩ := ih h
      exact ⟨i, by omega, he⟩

end Rounds

/-! ## What is on the wire -/

section Wire
variable {n : Nat} (P : Program n)

/-- The aggregator's slot of call `i`. -/
def agtrOf (i : Nat) : BitVec 16 :=
  BitVec.ofNat 16 (if P.sw then MAX_AGTR_COUNT + P.keys i % NORM_SLOT
    else MAX_AGTR_COUNT * CIRC_TIME + P.keys i % NORM_SLOT)

theorem agtrOf_toNat (i : Nat) : (agtrOf P i).toNat =
    if P.sw then MAX_AGTR_COUNT + P.keys i % NORM_SLOT
    else MAX_AGTR_COUNT * CIRC_TIME + P.keys i % NORM_SLOT := by
  have hi : P.keys i % 300 < 300 := Nat.mod_lt _ (by decide)
  rw [agtrOf, BitVec.toNat_ofNat]
  refine Nat.mod_eq_of_lt ?_
  split
  · show 2500 + P.keys i % 300 < 65536; omega
  · show 2500 * 4 + P.keys i % 300 < 65536; omega

theorem agtrOf_inj {i j : Nat} (h : agtrOf P i = agtrOf P j) :
    P.keys i % NORM_SLOT = P.keys j % NORM_SLOT := by
  have ht := congrArg BitVec.toNat h
  rw [agtrOf_toNat, agtrOf_toNat] at ht
  split at ht <;> exact Nat.add_left_cancel ht

/-- The largest value passed to call `i`. -/
def top (i : Nat) : Nat := Finset.univ.sup fun v => (P.vals v i).toNat

structure IsPacket (w : Fin n) (i : Nat) (f : Frame) : Prop where
  norm : IsNormFrame P.sw f
  key : f.msg.key = P.keys i
  agtr : f.msg.p4mlHdrs.agtr = agtrOf P i
  roundNum : f.msg.p4mlHdrs.roundNum = BitVec.ofNat 32 (roundOf P.keys i)
  numWorker : f.msg.p4mlHdrs.numWorker = BitVec.ofNat 8 n
  normInfo : f.msg.p4mlHdrs.normInfo = P.vals w i

structure IsAnswer (i : Nat) (g : Frame) : Prop where
  etherType : g.etherType = if P.sw then 0x0d00#16 else 0x0a00#16
  key : g.msg.key = P.keys i
  cmd : g.msg.cmd = TENSOR_NORM
  agtr : g.msg.p4mlHdrs.agtr = agtrOf P i
  roundNum : g.msg.p4mlHdrs.roundNum = BitVec.ofNat 32 (roundOf P.keys i)
  normInfo : g.msg.p4mlHdrs.normInfo.toNat = top P i

theorem normFrame_isPacket (payload : TestMessage) (w : Fin n) (i : Nat) :
    IsPacket P w i (normFrame P.sw payload w n (BitVec.ofNat 32 (roundOf P.keys i)) (P.keys i) (P.vals w i)) :=
  ⟨⟨rfl, rfl, rfl, rfl, rfl⟩, rfl, rfl, rfl, rfl, rfl⟩

theorem IsAnswer.rxIndex {P : Program n} {i : Nat} {g : Frame} (h : IsAnswer P i g) :
    rxIndex P.sw g.msg = agtrIndex (P.keys i) := by
  unfold NormCall.rxIndex
  split
  · next hsw => rw [h.agtr, agtrOf_toNat, if_pos hsw, agtrIndex]
  · rw [h.key]

end Wire

/-! ## What a worker keeps -/

section Worker
variable {n : Nat} (P : Program n)

/-- The packets a worker has sent. -/
def sentOf (x : Worker) : Nat := if x.pc = .waiting then x.calls + 1 else x.calls

/-- The replies a worker has accepted. -/
def accOf (x : Worker) : Nat :=
  if x.pc = .waiting ∧ (x.rx ≠ .free ∨ x.normReady (P.keys x.calls) = true) then x.calls + 1 else x.calls

/-- What the two threads are at, for the current call. -/
def Phase (x : Worker) : Prop :=
  match x.pc with
  | .idle => x.rx = .free
  | .read round => x.rx = .free ∧ round = BitVec.ofNat 32 (roundOf P.keys x.calls)
  | .armed round => x.rx = .free ∧ round = BitVec.ofNat 32 (roundOf P.keys x.calls) ∧
      x.normReady (P.keys x.calls) = false
  | .waiting =>
    match x.rx with
    | .free => x.normReady (P.keys x.calls) = true → (x.normValue (P.keys x.calls)).toNat = top P x.calls
    | .bumped key norm => key = P.keys x.calls ∧ norm.toNat = top P x.calls ∧
        x.normReady (P.keys x.calls) = false
    | .wrote key => key = P.keys x.calls ∧ (x.normValue (P.keys x.calls)).toNat = top P x.calls ∧
        x.normReady (P.keys x.calls) = false

structure WorkerOk (x : Worker) : Prop where
  rounds : ∀ key, x.slotRoundnum (agtrIndex key) =
    BitVec.ofNat 32 (callsOn P.keys (key % NORM_SLOT) (accOf P x))
  results : x.results.map BitVec.toNat = (List.range x.calls).map (top P)
  phase : Phase P x

variable {P} {x : Worker}

theorem accOf_le_sentOf (x : Worker) : accOf P x ≤ sentOf x := by
  unfold accOf sentOf
  split
  · next h => rw [if_pos h.1]
  · split <;> omega

theorem sentOf_le_accOf (x : Worker) : sentOf x ≤ accOf P x + 1 := by
  unfold accOf sentOf
  split <;> split <;> omega

theorem workerOk_init : WorkerOk P .init := by
  refine ⟨fun key => ?_, rfl, rfl⟩
  have h0 : accOf P .init = 0 := if_neg fun h => by cases h.1
  rw [h0]; rfl

theorem WorkerOk.start (h : WorkerOk P x) (hpc : x.pc = .idle) :
    let x' := { x with pc := .read (x.slotRoundnum (agtrIndex (P.keys x.calls))) }
    WorkerOk P x' ∧ sentOf x' = sentOf x ∧ accOf P x' = accOf P x := by
  intro x'
  have hacc : accOf P x = x.calls := if_neg fun h => by rw [hpc] at h; cases h.1
  have hacc' : accOf P x' = x.calls := if_neg fun h => by cases h.1
  have hfree : x.rx = .free := by simpa [Phase, hpc] using h.phase
  refine ⟨⟨fun key => ?_, h.results, hfree, ?_⟩, ?_, hacc'.trans hacc.symm⟩
  · rw [hacc', ← hacc]; exact h.rounds key
  · rw [h.rounds, hacc]; rfl
  · simp [sentOf, x', hpc]

theorem WorkerOk.arm (h : WorkerOk P x) {round : BitVec 32} (hpc : x.pc = .read round) :
    let x' := { x with
      pc := .armed round, normReady := Function.update x.normReady (P.keys x.calls) false }
    WorkerOk P x' ∧ sentOf x' = sentOf x ∧ accOf P x' = accOf P x := by
  intro x'
  have hacc : accOf P x = x.calls := if_neg fun h => by rw [hpc] at h; cases h.1
  have hacc' : accOf P x' = x.calls := if_neg fun h => by cases h.1
  have hph : x.rx = .free ∧ round = BitVec.ofNat 32 (roundOf P.keys x.calls) := by
    simpa [Phase, hpc] using h.phase
  refine ⟨⟨fun key => ?_, h.results, hph.1, hph.2, Function.update_self ..⟩, ?_, hacc'.trans hacc.symm⟩
  · rw [hacc', ← hacc]; exact h.rounds key
  · simp [sentOf, x', hpc]

theorem WorkerOk.send (h : WorkerOk P x) {round : BitVec 32} (hpc : x.pc = .armed round) :
    let x' := { x with pc := .waiting }
    WorkerOk P x' ∧ sentOf x = x.calls ∧ sentOf x' = x.calls + 1 ∧ accOf P x = x.calls ∧
    accOf P x' = x.calls ∧ round = BitVec.ofNat 32 (roundOf P.keys x.calls) := by
  intro x'
  have hacc : accOf P x = x.calls := if_neg fun h => by rw [hpc] at h; cases h.1
  have hph : x.rx = .free ∧ round = BitVec.ofNat 32 (roundOf P.keys x.calls) ∧
      x.normReady (P.keys x.calls) = false := by
    simpa [Phase, hpc] using h.phase
  have hacc' : accOf P x' = x.calls := if_neg fun h' => by
    rcases h'.2 with h1 | h1
    · exact h1 hph.1
    · rw [hph.2.2] at h1; cases h1
  refine ⟨⟨fun key => ?_, h.results, ?_⟩, by simp [sentOf, hpc], rfl, hacc, hacc', hph.2.1⟩
  · rw [hacc', ← hacc]; exact h.rounds key
  · simp [Phase, x', hph.1, hph.2.2]

theorem WorkerOk.write (h : WorkerOk P x) {key : Nat} {norm : BitVec 32} (hrx : x.rx = .bumped key norm) :
    WorkerOk P (x.write key norm) ∧ sentOf (x.write key norm) = sentOf x ∧
    accOf P (x.write key norm) = accOf P x := by
  have hacc : accOf P (x.write key norm) = accOf P x := by simp [accOf, Worker.write, hrx]
  refine ⟨⟨fun k => by rw [hacc]; exact h.rounds k, h.results, ?_⟩, rfl, hacc⟩
  have hph := h.phase
  unfold Phase at hph ⊢
  cases hpc : x.pc with
  | idle | read _ | armed _ => simp [hpc, hrx] at hph
  | waiting =>
    simp only [hpc, hrx] at hph
    obtain ⟨rfl, hv, hr⟩ := hph
    simpa [Worker.write, hpc, hv] using hr

theorem WorkerOk.ready (h : WorkerOk P x) {key : Nat} (hrx : x.rx = .wrote key) :
    WorkerOk P (x.ready key) ∧ sentOf (x.ready key) = sentOf x ∧ accOf P (x.ready key) = accOf P x := by
  have hph := h.phase
  unfold Phase at hph
  cases hpc : x.pc with
  | idle | read _ | armed _ => simp [hpc, hrx] at hph
  | waiting =>
    simp only [hpc, hrx] at hph
    obtain ⟨rfl, hv, -⟩ := hph
    have hacc : accOf P (x.ready (P.keys x.calls)) = accOf P x := by simp [accOf, Worker.ready, hrx, hpc]
    refine ⟨⟨fun k => by rw [hacc]; exact h.rounds k, h.results, ?_⟩, rfl, hacc⟩
    simp [Phase, Worker.ready, hpc, hv]

theorem WorkerOk.ret (h : WorkerOk P x) (hpc : x.pc = .waiting)
    (hr : x.normReady (P.keys x.calls) = true) :
    let x' := { x with
      pc := .idle, calls := x.calls + 1, results := x.results ++ [x.normValue (P.keys x.calls)] }
    WorkerOk P x' ∧ sentOf x' = sentOf x ∧ accOf P x' = accOf P x := by
  intro x'
  have hph := h.phase
  unfold Phase at hph
  -- the value is stored before the flag is set
  obtain ⟨hfree, hv⟩ : x.rx = .free ∧ (x.normValue (P.keys x.calls)).toNat = top P x.calls := by
    cases hrx : x.rx with
    | free => simp only [hpc, hrx] at hph; exact ⟨rfl, hph hr⟩
    | bumped key norm => simp [hpc, hrx, hr] at hph
    | wrote key => simp [hpc, hrx, hr] at hph
  have hacc : accOf P x = x.calls + 1 := if_pos ⟨hpc, .inr hr⟩
  have hacc' : accOf P x' = x.calls + 1 := if_neg fun h => by cases h.1
  refine ⟨⟨fun key => ?_, ?_, hfree⟩, ?_, hacc'.trans hacc.symm⟩
  · rw [hacc', ← hacc]; exact h.rounds key
  · simp [x', List.range_succ, h.results, hv]
  · simp [sentOf, x', hpc]

/-! ### Replies -/

section Reply
variable (h : WorkerOk P x) {i : Nat} {g : Frame} (hg : IsAnswer P i g) (hi : i < sentOf x)
  (hR : ∀ k < sentOf x, roundOf P.keys k + 1 < 2 ^ 32)
include h hg hi hR

/-- A worker accepts exactly the reply to the packet it waits for. -/
theorem WorkerOk.accepts_iff :
    RxAccepts P.sw x g ↔ P.keys i < DPDK_KEY_TOTAL ∧ i = accOf P x := by
  have hle : i ≤ accOf P x := by have := sentOf_le_accOf (P := P) x; omega
  have hbound : callsOn P.keys (P.keys i % NORM_SLOT) (accOf P x) < 2 ^ 32 := by
    by_cases h0 : callsOn P.keys (P.keys i % NORM_SLOT) (accOf P x) = 0
    · omega
    · obtain ⟨k, hk, he⟩ := callsOn_pos h0
      have := hR k (Nat.lt_of_lt_of_le hk (accOf_le_sentOf x))
      omega
  have hround : g.msg.p4mlHdrs.roundNum = x.slotRoundnum (rxIndex P.sw g.msg) ↔ i = accOf P x := by
    rw [hg.roundNum, hg.rxIndex, h.rounds]
    constructor
    · intro he
      replace he : roundOf P.keys i = callsOn P.keys (P.keys i % NORM_SLOT) (accOf P x) := by
        have ht := congrArg BitVec.toNat he
        have := hR i hi
        rwa [BitVec.toNat_ofNat, BitVec.toNat_ofNat, Nat.mod_eq_of_lt (by omega),
          Nat.mod_eq_of_lt hbound] at ht
      by_contra hne
      have hmono : callsOn P.keys (P.keys i % NORM_SLOT) (i + 1) ≤ _ :=
        callsOn_mono _ (show i + 1 ≤ accOf P x by omega)
      rw [callsOn_succ, if_pos rfl] at hmono
      rw [roundOf] at he
      omega
    · intro he; rw [← he]; rfl
  unfold RxAccepts
  rw [hround, hg.key, hg.cmd]
  exact ⟨fun hacc => hacc.2.2, fun hacc => ⟨hg.etherType, by decide, hacc⟩⟩

theorem WorkerOk.recv (hrx : x.rx = .free) (hacc : RxAccepts P.sw x g) :
    WorkerOk P (x.recv P.sw g) ∧ sentOf (x.recv P.sw g) = sentOf x ∧
    accOf P (x.recv P.sw g) = accOf P x + 1 := by
  obtain ⟨-, he⟩ := (h.accepts_iff hg hi hR).mp hacc
  -- it has sent one packet more than it has had replies: it waits
  obtain ⟨hpc, hready, hcalls⟩ : x.pc = .waiting ∧ x.normReady (P.keys x.calls) = false ∧ i = x.calls := by
    have hlt := he ▸ hi
    unfold accOf sentOf at hlt
    unfold accOf at he
    by_cases hpc : x.pc = .waiting
    · cases hr : x.normReady (P.keys x.calls) with
      | false => simp [hpc, hrx, hr] at he; exact ⟨hpc, rfl, he⟩
      | true => simp [hpc, hr] at hlt
    · simp [hpc] at hlt
  have hx : x.recv P.sw g = { x with
      slotRoundnum := Function.update x.slotRoundnum (agtrIndex (P.keys i))
        (x.slotRoundnum (agtrIndex (P.keys i)) + 1#32)
      rx := .bumped (P.keys i) g.msg.p4mlHdrs.normInfo } := by
    rw [Worker.recv, if_pos hacc, hg.rxIndex, hg.key]
  have hold : accOf P x = x.calls := he ▸ hcalls
  have hnew : accOf P (x.recv P.sw g) = x.calls + 1 := by
    rw [hx]; exact if_pos ⟨hpc, .inl (by simp)⟩
  refine ⟨⟨fun key => ?_, ?_, ?_⟩, ?_, by rw [hnew, hold]⟩
  · rw [hnew, callsOn_succ, hx, ← hcalls]
    dsimp only
    by_cases hk : P.keys i % NORM_SLOT = key % NORM_SLOT
    · have hidx : agtrIndex key = agtrIndex (P.keys i) := by rw [agtrIndex, agtrIndex, hk]
      rw [hidx, Function.update_self, h.rounds, if_pos hk, hold, ← hcalls, hk, BitVec.ofNat_add]
    · have hidx : agtrIndex key ≠ agtrIndex (P.keys i) := fun hidx => hk (Nat.add_left_cancel hidx).symm
      rw [Function.update_of_ne hidx, if_neg hk, h.rounds, hold, ← hcalls, Nat.add_zero]
  · rw [hx]; exact h.results
  · rw [hx]
    simp only [Phase, hpc]
    exact ⟨by rw [hcalls], by rw [hg.normInfo, hcalls], hready⟩
  · rw [hx]; rfl

end Reply
end Worker

/-! ## What network and aggregator keep

All of this depends on the workers through the numbers of packets they have sent and of replies
they have accepted. -/

section Net
variable {n : Nat} (P : Program n) (sent : Fin n → Nat) (up : List ((Fin n × Nat) × Frame))

/-- The aggregator has had the packet of worker `v` for call `i`. -/
def Handled (v : Fin n) (i : Nat) : Prop := i < sent v ∧ (v, i) ∉ up.map Prod.fst

/-- The aggregator has had everybody's packet for call `i`. -/
def Answered (i : Nat) : Prop := ∀ v, Handled sent up v i

/-- Slot `a` has counted the packets of the workers `H` for call `c`, its latest. -/
structure AtCall (slot : Slot) (a : BitVec 16) (c : Nat) (H : Finset (Fin n)) : Prop where
  agtr : agtrOf P c = a
  nonempty : H.Nonempty
  holds : Slot.HoldsMax slot (BitVec.ofNat 32 (roundOf P.keys c)) H fun v => P.vals v c
  handled : ∀ v ∈ H, Handled sent up v c
  latest : ∀ v i, agtrOf P i = a → Handled sent up v i → i < c ∨ i = c ∧ v ∈ H

/-- Nothing has reached slot `a`. -/
structure Fresh (slot : Slot) (a : BitVec 16) : Prop where
  zero : slot.roundNum = 0 ∧ slot.receiveCount = 0 ∧ slot.normInfo = 0
  none : ∀ v i, agtrOf P i = a → ¬ Handled sent up v i

structure Net (acc : Fin n → Nat) (slots : BitVec 16 → Slot) (down : Fin n → List (Nat × Frame)) :
    Prop where
  flying : ∀ w i f, ((w, i), f) ∈ up → i < sent w ∧ IsPacket P w i f
  nodup : (up.map Prod.fst).Nodup
  ahead : ∀ w, sent w ≤ acc w + 1
  answered : ∀ w i, i < acc w → Answered sent up i
  slots : ∀ a, Fresh P sent up (slots a) a ∨ ∃ c H, AtCall P sent up (slots a) a c H
  replies : ∀ w i g, (i, g) ∈ down w → Answered sent up i ∧ IsAnswer P i g
  owed : (∀ i, P.keys i < DPDK_KEY_TOTAL) → ∀ w i, Answered sent up i → acc w ≤ i → ∃ g, (i, g) ∈ down w
  rounds : ∀ w, ∀ i < sent w, roundOf P.keys i + 1 < 2 ^ 32

end Net

section NetSteps
variable {n : Nat} {P : Program n} {sent acc : Fin n → Nat} {up : List ((Fin n × Nat) × Frame)}
  {slots : BitVec 16 → Slot} {down : Fin n → List (Nat × Frame)}

theorem net_init (hz : ∀ a, (slots a).roundNum = 0 ∧ (slots a).receiveCount = 0 ∧ (slots a).normInfo = 0) :
    Net P (fun _ => 0) [] (fun _ => 0) slots fun _ => [] where
  flying := by simp
  nodup := by simp
  ahead := by simp
  answered := by simp
  slots := fun a => .inl ⟨hz a, fun v i _ h => Nat.not_lt_zero i h.1⟩
  replies := by simp
  owed := fun _ w i h _ => absurd (h w).1 (Nat.not_lt_zero i)
  rounds := by simp

/-- A slot is at the same call as long as the same of its packets have reached it. -/
theorem slot_congr {sent' : Fin n → Nat} {up' : List ((Fin n × Nat) × Frame)} {slot : Slot} {a : BitVec 16}
    (hsame : ∀ v i, agtrOf P i = a → (Handled sent' up' v i ↔ Handled sent up v i))
    (hs : Fresh P sent up slot a ∨ ∃ c H, AtCall P sent up slot a c H) :
    Fresh P sent' up' slot a ∨ ∃ c H, AtCall P sent' up' slot a c H := by
  rcases hs with hs | ⟨c, H, hs⟩
  · exact .inl ⟨hs.zero, fun v i hi hh => hs.none v i hi ((hsame v i hi).mp hh)⟩
  · exact .inr ⟨c, H, hs.agtr, hs.nonempty, hs.holds,
      fun v hv => (hsame v c hs.agtr).mpr (hs.handled v hv),
      fun v i hi hh => hs.latest v i hi ((hsame v i hi).mp hh)⟩

/-! ### A packet is sent -/

theorem handled_send {w v : Fin n} {i : Nat} {f : Frame} :
    Handled (Function.update sent w (sent w + 1)) (up ++ [((w, sent w), f)]) v i ↔ Handled sent up v i := by
  unfold Handled
  by_cases hv : v = w
  · subst hv
    simp only [Function.update_self, List.map_append, List.map_singleton, List.mem_append,
      List.mem_singleton, Prod.mk.injEq, true_and, not_or]
    constructor
    · rintro ⟨h1, h2, h3⟩; exact ⟨by omega, h2⟩
    · rintro ⟨h1, h2⟩; exact ⟨by omega, h2, by omega⟩
  · simp [hv]

theorem Net.send (h : Net P sent up acc slots down) {w : Fin n} {f : Frame} (hacc : sent w = acc w)
    (hf : IsPacket P w (sent w) f) (hR : roundOf P.keys (sent w) + 1 < 2 ^ 32) :
    Net P (Function.update sent w (sent w + 1)) (up ++ [((w, sent w), f)]) acc slots down where
  flying := fun v i g hm => by
    rcases List.mem_append.mp hm with hm | hm
    · obtain ⟨h1, h2⟩ := h.flying v i g hm
      refine ⟨?_, h2⟩
      by_cases hv : v = w
      · subst hv; rw [Function.update_self]; omega
      · rwa [Function.update_of_ne hv]
    · obtain ⟨⟨rfl, rfl⟩, rfl⟩ : (v = w ∧ i = sent w) ∧ g = f := by simpa using hm
      exact ⟨by rw [Function.update_self]; omega, hf⟩
  nodup := by
    have hnew : (w, sent w) ∉ up.map Prod.fst := by
      intro hm
      obtain ⟨⟨⟨v, i⟩, g⟩, hx, he⟩ := List.mem_map.mp hm
      obtain ⟨rfl, rfl⟩ := Prod.mk.inj he
      exact Nat.lt_irrefl _ (h.flying _ _ _ hx).1
    rw [List.map_append, List.map_singleton]
    simpa using h.nodup.concat hnew
  ahead := fun v => by
    by_cases hv : v = w
    · subst hv; rw [Function.update_self]; omega
    · rw [Function.update_of_ne hv]; exact h.ahead v
  answered := fun v i hi u => handled_send.mpr (h.answered v i hi u)
  slots := fun a => slot_congr (fun _ _ _ => handled_send) (h.slots a)
  replies := fun v i g hm => ⟨fun u => handled_send.mpr ((h.replies v i g hm).1 u), (h.replies v i g hm).2⟩
  owed := fun hk v i ha hle => h.owed hk v i (fun u => handled_send.mp (ha u)) hle
  rounds := fun v i hi => by
    by_cases hv : v = w
    · subst hv
      rw [Function.update_self] at hi
      rcases Nat.lt_succ_iff_lt_or_eq.mp hi with hi | rfl
      · exact h.rounds v i hi
      · exact hR
    · rw [Function.update_of_ne hv] at hi; exact h.rounds v i hi

/-! ### A reply is taken -/

/-- Reply `k` of worker `w` is taken off; then the worker has had the replies to all calls before
`acc' w`, and this was one of them if its key is in range. -/
theorem Net.take (h : Net P sent up acc slots down) {w : Fin n} {k i : Nat} {g : Frame}
    (hk : (down w)[k]? = some (i, g)) {acc' : Fin n → Nat} (hle : ∀ v, acc v ≤ acc' v)
    (hans : ∀ v j, j < acc' v → Answered sent up j) (hi : P.keys i < DPDK_KEY_TOTAL → i < acc' w) :
    Net P sent up acc' slots (Function.update down w ((down w).eraseIdx k)) where
  flying := h.flying
  nodup := h.nodup
  ahead := fun v => by have := h.ahead v; have := hle v; omega
  answered := hans
  slots := h.slots
  replies := fun v j f hm => by
    by_cases hv : v = w
    · subst hv
      rw [Function.update_self] at hm
      exact h.replies v j f (List.mem_of_mem_eraseIdx hm)
    · rw [Function.update_of_ne hv] at hm; exact h.replies v j f hm
  owed := fun hkeys v j ha hj => by
    obtain ⟨f, hf⟩ := h.owed hkeys v j ha ((hle v).trans hj)
    by_cases hv : v = w
    · subst hv
      rw [Function.update_self]
      obtain ⟨m, hm⟩ := List.mem_iff_getElem?.mp hf
      refine ⟨f, List.mem_eraseIdx_iff_getElem?.mpr ⟨m, fun he => ?_, hm⟩⟩
      subst he
      rw [hk] at hm
      cases hm
      have := hi (hkeys i)
      omega
    · rw [Function.update_of_ne hv]; exact ⟨f, hf⟩
  rounds := h.rounds

theorem Net.accept (h : Net P sent up acc slots down) {w : Fin n} {k : Nat} {g : Frame}
    (hk : (down w)[k]? = some (acc w, g)) :
    Net P sent up (Function.update acc w (acc w + 1)) slots
      (Function.update down w ((down w).eraseIdx k)) := by
  refine h.take hk (fun v => ?_) (fun v j hj => ?_) fun _ => by simp
  · by_cases hv : v = w
    · subst hv; simp
    · simp [hv]
  · by_cases hv : v = w
    · subst hv
      rw [Function.update_self] at hj
      rcases Nat.lt_succ_iff_lt_or_eq.mp hj with hj | rfl
      · exact h.answered v j hj
      · exact (h.replies v _ g (List.mem_of_getElem? hk)).1
    · rw [Function.update_of_ne hv] at hj; exact h.answered v j hj

/-! ### The aggregator handles a packet -/

section Handle
variable (h : Net P sent up acc slots down) {k i : Nat} {w : Fin n} {f : Frame}
  (hk : up[k]? = some ((w, i), f))
include h hk

omit h in
theorem Net.not_handled : ¬ Handled sent up w i := fun hh =>
  hh.2 (List.mem_map_of_mem (f := Prod.fst) (List.mem_of_getElem? hk))

theorem Net.handled_take {v : Fin n} {j : Nat} :
    Handled sent (up.eraseIdx k) v j ↔ Handled sent up v j ∨ v = w ∧ j = i := by
  have hkey : (up.map Prod.fst)[k]? = some (w, i) := by rw [List.getElem?_map, hk]; rfl
  have hmem : (v, j) ∈ (up.eraseIdx k).map Prod.fst ↔ (v, j) ∈ up.map Prod.fst ∧ (v, j) ≠ (w, i) := by
    rw [← List.eraseIdx_map, List.mem_eraseIdx_iff_getElem?]
    constructor
    · rintro ⟨l, hne, hl⟩
      refine ⟨List.mem_of_getElem? hl, fun he => hne ?_⟩
      rw [he] at hl
      exact (List.getElem?_inj (List.getElem?_eq_some_iff.mp hl).1 h.nodup).mp (hl.trans hkey.symm)
    · rintro ⟨hm, hne⟩
      obtain ⟨l, hl⟩ := List.mem_iff_getElem?.mp hm
      refine ⟨l, fun he => hne ?_, hl⟩
      rw [he, hkey] at hl
      exact (Option.some.inj hl).symm
  have hsent := (h.flying w i f (List.mem_of_getElem? hk)).1
  unfold Handled
  rw [hmem, ne_eq, Prod.mk.injEq]
  constructor
  · rintro ⟨h1, h2⟩
    by_cases hm : (v, j) ∈ up.map Prod.fst
    · exact .inr (by_contra fun hne => h2 ⟨hm, hne⟩)
    · exact .inl ⟨h1, hm⟩
  · rintro (⟨h1, h2⟩ | ⟨rfl, rfl⟩)
    · exact ⟨h1, fun hm => h2 hm.1⟩
    · exact ⟨hsent, fun hm => hm.2 ⟨rfl, rfl⟩⟩

/-- A slot is never at a call later than one whose packets are still in flight: nobody is past a
call before everybody's packet of it has been handled. -/
theorem Net.latest_le {c : Nat} {v : Fin n} (hc : Handled sent up v c) : c ≤ i := by
  by_contra hlt
  have hacc := h.ahead v
  have hsent := hc.1
  exact Net.not_handled hk (h.answered v i (by omega) w)

/-- The slot of the packet is at an older round, or at the packet's own call. -/
theorem Net.slot_cases :
    ((slots (agtrOf P i)).roundNum < BitVec.ofNat 32 (roundOf P.keys i) ∧
      ∀ v j, agtrOf P j = agtrOf P i → Handled sent up v j → j < i) ∨
    ∃ H, Slot.HoldsMax (slots (agtrOf P i)) (BitVec.ofNat 32 (roundOf P.keys i)) H (fun v => P.vals v i) ∧
      (∀ v ∈ H, Handled sent up v i) ∧
      ∀ v j, agtrOf P j = agtrOf P i → Handled sent up v j → j < i ∨ j = i ∧ v ∈ H := by
  have hri := h.rounds w i (h.flying w i f (List.mem_of_getElem? hk)).1
  rcases h.slots (agtrOf P i) with hs | ⟨c, H, hs⟩
  · obtain ⟨h1, h2, h3⟩ := hs.zero
    by_cases h0 : roundOf P.keys i = 0
    · refine .inr ⟨∅, ⟨by rw [h1, h0]; rfl, h2, by rw [h3]; rfl⟩, by simp, fun v j ha hh => ?_⟩
      exact absurd hh (hs.none v j ha)
    · refine .inl ⟨?_, fun v j ha hh => absurd hh (hs.none v j ha)⟩
      rw [h1, BitVec.lt_def, BitVec.toNat_ofNat, Nat.mod_eq_of_lt (by omega)]
      exact Nat.pos_of_ne_zero h0
  · obtain ⟨v, hv⟩ := hs.nonempty
    have hcv := hs.handled v hv
    rcases Nat.lt_or_eq_of_le (h.latest_le hk hcv) with hlt | rfl
    · have hrc := h.rounds v c hcv.1
      have hround := roundOf_lt (agtrOf_inj P hs.agtr) hlt
      refine .inl ⟨?_, fun u j ha hh => ?_⟩
      · rw [hs.holds.roundNum, BitVec.lt_def, BitVec.toNat_ofNat, BitVec.toNat_ofNat,
          Nat.mod_eq_of_lt (by omega), Nat.mod_eq_of_lt (by omega)]
        exact hround
      · rcases hs.latest u j ha hh with h1 | h1 <;> omega
    · exact .inr ⟨H, hs.holds, hs.handled, hs.latest⟩

theorem Net.not_stale : (slots (agtrOf P i)).roundNum ≤ BitVec.ofNat 32 (roundOf P.keys i) := by
  rcases h.slot_cases hk with ⟨hlt, -⟩ | ⟨H, hH, -⟩
  · exact BitVec.le_of_lt hlt
  · rw [hH.roundNum]; exact BitVec.le_refl _

/-- The slot counts the packet, and is complete when it has one of everybody. -/
theorem Net.counted (h256 : n ≤ 256) {p : Pkt}
    (hp : Slot.IsNorm p (BitVec.ofNat 32 (roundOf P.keys i)) n (P.vals w i)) (m : Nat)
    (add : Word → Word → Word) :
    ∃ H, AtCall P sent (up.eraseIdx k) ((slots (agtrOf P i)).step m add p) (agtrOf P i) i H ∧
      ((slots (agtrOf P i)).Completes p ↔ H.card = n) := by
  have hn : 0 < n := Fin.pos w
  have htake := fun v j => h.handled_take hk (v := v) (j := j)
  rcases h.slot_cases hk with ⟨hlt, hlatest⟩ | ⟨H, hH, hhandled, hlatest⟩
  · obtain ⟨hmax, hc⟩ := Slot.HoldsMax.newer w (fun v => P.vals v i) hlt hp hn h256 m add
    refine ⟨{w}, ⟨rfl, Finset.singleton_nonempty w, hmax, fun v hv => ?_, fun v j ha hh => ?_⟩, ?_⟩
    · obtain rfl := Finset.mem_singleton.mp hv
      exact (htake v i).mpr (.inr ⟨rfl, rfl⟩)
    · rcases (htake v j).mp hh with hh | ⟨rfl, rfl⟩
      · exact .inl (hlatest v j ha hh)
      · exact .inr ⟨rfl, Finset.mem_singleton_self v⟩
    · rw [Finset.card_singleton]; exact hc
  · have hw : w ∉ H := fun hm => Net.not_handled hk (hhandled w hm)
    have hlt : H.card < n := by simpa using Finset.card_lt_univ_of_notMem hw
    obtain ⟨hmax, hc⟩ := hH.same hp hw hlt h256 m add
    refine ⟨insert w H, ⟨rfl, Finset.insert_nonempty w H, hmax, fun v hv => ?_, fun v j ha hh => ?_⟩, ?_⟩
    · rcases Finset.mem_insert.mp hv with rfl | hv
      · exact (htake v i).mpr (.inr ⟨rfl, rfl⟩)
      · exact (htake v i).mpr (.inl (hhandled v hv))
    · rcases (htake v j).mp hh with hh | ⟨rfl, rfl⟩
      · exact (hlatest v j ha hh).imp_right fun h1 => ⟨h1.1, Finset.mem_insert_of_mem h1.2⟩
      · exact .inr ⟨rfl, Finset.mem_insert_self v H⟩
    · rw [Finset.card_insert_of_notMem hw]; exact hc

end Handle

theorem Net.aggregate {A : Type} {agg : Aggregator A} {slot : A → BitVec 16 → Slot} {st : A}
    (h : Net P sent up acc (slot st) down) (hagg : Aggregates P.sw agg slot) (h256 : n ≤ 256)
    {k i : Nat} {w : Fin n} {f : Frame} (hk : up[k]? = some ((w, i), f)) (dest : Option (Fin n)) :
    Net P sent (up.eraseIdx k) acc (slot (agg.recv st f).1)
      (fun v => down v ++ (delivered (agg.recv st f).2 dest v).map fun g => (i, g)) := by
  have hp := (h.flying w i f (List.mem_of_getElem? hk)).2
  have hstale := h.not_stale hk
  rw [← hp.agtr, ← hp.roundNum] at hstale
  obtain ⟨m, add, p, hnorm, hslot, hout⟩ := hagg.own st f hp.norm n hp.numWorker hstale
  rw [hp.roundNum, hp.normInfo] at hnorm
  rw [hp.agtr] at hslot hout
  obtain ⟨H, hat, hcomp⟩ := h.counted hk h256 hnorm m add
  rw [← hslot] at hat
  have htake := fun v j => h.handled_take hk (v := v) (j := j)
  have hmono : ∀ j, Answered sent up j → Answered sent (up.eraseIdx k) j := fun j ha v =>
    (htake v j).mpr (.inl (ha v))
  -- what is delivered is a reply to everybody, when the packet completes the call
  have hdeliv : ∀ v g, g ∈ delivered (agg.recv st f).2 dest v → H = Finset.univ ∧ IsAnswer P i g := by
    intro v g hg
    split at hout
    · next hc =>
      obtain ⟨g', he, hr⟩ := hout
      rw [he] at hg
      obtain rfl := List.mem_singleton.mp hg
      have hall : H = Finset.univ := Finset.eq_univ_of_card H (by rw [hcomp.mp hc, Fintype.card_fin])
      refine ⟨hall, hr.etherType, hr.key.trans hp.key, hr.cmd.trans hp.norm.cmd, hr.agtr.trans hp.agtr,
        hr.roundNum.trans hp.roundNum, ?_⟩
      rw [hr.normInfo, hat.holds.normInfo, hall]; rfl
    · rw [hout] at hg; cases hg
  refine ⟨fun v j g hm => ?_, ?_, h.ahead, fun v j hj => hmono j (h.answered v j hj), fun a => ?_,
    fun v j g hm => ?_, fun hkeys v j ha hle => ?_, h.rounds⟩
  · exact h.flying v j g (List.mem_of_mem_eraseIdx hm)
  · rw [← List.eraseIdx_map]; exact h.nodup.eraseIdx k
  · by_cases ha : a = agtrOf P i
    · subst ha; exact .inr ⟨i, H, hat⟩
    · -- another slot is as it was, and so are its packets
      rw [hagg.other st f hp.norm a (by rw [hp.agtr]; exact ha)]
      refine slot_congr (fun v j hj => ?_) (h.slots a)
      rw [htake v j]
      exact or_iff_left fun he => ha (by rw [← hj, he.2])
  · rcases List.mem_append.mp hm with hm | hm
    · exact ⟨hmono j (h.replies v j g hm).1, (h.replies v j g hm).2⟩
    · obtain ⟨g', hg', he⟩ := List.mem_map.mp hm
      obtain ⟨rfl, rfl⟩ := Prod.mk.inj he
      obtain ⟨hall, hans⟩ := hdeliv v g' hg'
      exact ⟨fun u => hat.handled u (hall ▸ Finset.mem_univ u), hans⟩
  · by_cases hold : Answered sent up j
    · obtain ⟨g, hg⟩ := h.owed hkeys v j hold hle
      exact ⟨g, List.mem_append_left _ hg⟩
    · -- only the packet's own call can have become complete
      obtain ⟨u, hu⟩ := not_forall.mp hold
      obtain ⟨-, rfl⟩ := ((htake u j).mp (ha u)).resolve_left hu
      have hall : H = Finset.univ := Finset.eq_univ_iff_forall.mpr fun v =>
        ((hat.latest v j rfl (ha v)).resolve_left (Nat.lt_irrefl j)).2
      rw [if_pos (hcomp.mpr (by rw [hall, Finset.card_univ, Fintype.card_fin]))] at hout
      obtain ⟨g, he, -⟩ := hout
      exact ⟨g, List.mem_append_right _ (by rw [he]; simp [delivered])⟩

end NetSteps

/-! ## Every run -/

section Run
variable {A : Type} {n : Nat} {P : Program n} {agg : Aggregator A} {slot : A → BitVec 16 → Slot}
  {S S' : Sys A n}

/-- The current call of a worker is one of fewer than `2 ^ 32` of its slot. -/
def Started (P : Program n) (x : Worker) : Prop :=
  x.pc ≠ .idle → roundOf P.keys x.calls + 1 < 2 ^ 32

structure Inv (P : Program n) (slot : A → BitVec 16 → Slot) (S : Sys A n) : Prop where
  workers : ∀ w, WorkerOk P (S.wk w)
  net : Net P (fun w => sentOf (S.wk w)) S.up (fun w => accOf P (S.wk w)) (slot S.agg) S.down
  started : ∀ w, Started P (S.wk w)

theorem inv_init (hagg : Aggregates P.sw agg slot) : Inv P slot (Sys.init agg) where
  workers := fun _ => workerOk_init
  net := by
    have hacc : accOf P .init = 0 := if_neg fun h => by cases h.1
    show Net P (fun _ => 0) [] (fun _ => accOf P .init) (slot agg.init) fun _ => []
    rw [hacc]
    exact net_init hagg.init
  started := fun w h => absurd rfl h

/-- Counts that depend on the workers, when one of them changes. -/
theorem count_setWk {α : Type} (c : Worker → α) (S : Sys A n) (w : Fin n) (x : Worker) :
    (fun v => c ((S.setWk w x).wk v)) = Function.update (fun v => c (S.wk v)) w (c x) := by
  funext v
  by_cases hv : v = w
  · subst hv; simp [Sys.setWk]
  · simp [Sys.setWk, hv]

/-- What holds of every worker, when one of them changes. -/
theorem forall_setWk {p : Worker → Prop} (h : ∀ v, p (S.wk v)) {w : Fin n} {x : Worker} (hx : p x)
    (v : Fin n) : p ((S.setWk w x).wk v) := by
  by_cases hv : v = w
  · subst hv; simpa [Sys.setWk] using hx
  · simpa [Sys.setWk, hv] using h v

/-- A step of one worker that neither sends nor takes a reply. -/
theorem Inv.setWk (h : Inv P slot S) {w : Fin n} {x : Worker}
    (hx : WorkerOk P x ∧ sentOf x = sentOf (S.wk w) ∧ accOf P x = accOf P (S.wk w))
    (hs : Started P x) : Inv P slot (S.setWk w x) where
  workers := forall_setWk h.workers hx.1
  net := by
    rw [count_setWk, count_setWk, hx.2.1, hx.2.2, Function.update_eq_self, Function.update_eq_self]
    exact h.net
  started := forall_setWk h.started hs

theorem Inv.send (h : Inv P slot S) {w : Fin n} {round : BitVec 32} (hpc : (S.wk w).pc = .armed round)
    (payload : TestMessage) :
    Inv P slot { S.setWk w { S.wk w with pc := .waiting } with
      up := S.up ++ [((w, (S.wk w).calls),
        normFrame P.sw payload w n round (P.keys (S.wk w).calls) (P.vals w (S.wk w).calls))] } := by
  obtain ⟨hok, hsent, hsent', hacc, hacc', hround⟩ := (h.workers w).send hpc
  have hR := h.started w (by rw [hpc]; simp)
  refine ⟨forall_setWk h.workers hok, ?_, forall_setWk h.started fun _ => hR⟩
  have hnet := h.net.send (w := w) (hsent.trans hacc.symm)
    (hsent ▸ normFrame_isPacket P payload w (S.wk w).calls) (hsent ▸ hR)
  rw [hround]
  show Net P (fun v => sentOf ((S.setWk w _).wk v)) _ (fun v => accOf P ((S.setWk w _).wk v)) _ _
  rw [count_setWk, count_setWk, hsent', hacc', ← hacc, Function.update_eq_self, hacc]
  simp only [hsent] at hnet
  exact hnet

theorem Inv.recv (h : Inv P slot S) {w : Fin n} {k i : Nat} {g : Frame} (hrx : (S.wk w).rx = .free)
    (hk : (S.down w)[k]? = some (i, g)) :
    Inv P slot { S.setWk w ((S.wk w).recv P.sw g) with
      down := Function.update S.down w ((S.down w).eraseIdx k) } := by
  obtain ⟨hans, hg⟩ := h.net.replies w i g (List.mem_of_getElem? hk)
  have hi : i < sentOf (S.wk w) := (hans w).1
  have hR := h.net.rounds w
  have hpc : ((S.wk w).recv P.sw g).pc = (S.wk w).pc ∧ ((S.wk w).recv P.sw g).calls = (S.wk w).calls := by
    unfold Worker.recv; split <;> exact ⟨rfl, rfl⟩
  have hstarted : Started P ((S.wk w).recv P.sw g) := by
    unfold Started; rw [hpc.1, hpc.2]; exact h.started w
  have hiff := (h.workers w).accepts_iff hg hi hR
  by_cases hacc : RxAccepts P.sw (S.wk w) g
  · obtain ⟨hok, hs, ha⟩ := (h.workers w).recv hg hi hR hrx hacc
    obtain ⟨-, rfl⟩ := hiff.mp hacc
    refine ⟨forall_setWk h.workers hok, ?_, forall_setWk h.started hstarted⟩
    show Net P (fun v => sentOf ((S.setWk w _).wk v)) _ (fun v => accOf P ((S.setWk w _).wk v)) _ _
    rw [count_setWk, count_setWk, hs, ha, Function.update_eq_self]
    exact h.net.accept hk
  · have hx : (S.wk w).recv P.sw g = S.wk w := if_neg hacc
    rw [hx] at hstarted ⊢
    refine ⟨forall_setWk h.workers (h.workers w), ?_, forall_setWk h.started hstarted⟩
    show Net P (fun v => sentOf ((S.setWk w _).wk v)) _ (fun v => accOf P ((S.setWk w _).wk v)) _ _
    rw [count_setWk, count_setWk, Function.update_eq_self, Function.update_eq_self]
    refine h.net.take hk (fun _ => Nat.le_refl _) h.net.answered fun hkey => ?_
    -- a reply that is not accepted is an old one
    have hne : i ≠ accOf P (S.wk w) := fun he => hacc (hiff.mpr ⟨hkey, he⟩)
    have hle := sentOf_le_accOf (P := P) (S.wk w)
    omega

theorem inv_step (hagg : Aggregates P.sw agg slot) (h256 : n ≤ 256) (h : Inv P slot S) {a : Act n}
    (hs : step P agg S a = some S') (hG : Fair P S a S') : Inv P slot S' := by
  cases step_cases hs with
  | @start w hpc => exact h.setWk ((h.workers w).start hpc) fun _ => hG w rfl
  | @arm w round hpc =>
    exact h.setWk ((h.workers w).arm hpc) fun _ => h.started w (by rw [hpc]; simp)
  | send payload hpc => exact h.send hpc payload
  | aggregate dest hk => exact ⟨h.workers, h.net.aggregate hagg h256 hk dest, h.started⟩
  | recv hrx hk => exact h.recv hrx hk
  | @write w key norm hrx => exact h.setWk ((h.workers w).write hrx) (h.started w)
  | @ready w key hrx => exact h.setWk ((h.workers w).ready hrx) (h.started w)
  | @ret w hpc hready => exact h.setWk ((h.workers w).ret hpc hready) fun hne => absurd rfl hne

theorem inv_inductive (hagg : Aggregates P.sw agg slot) (h256 : n ≤ 256) :
    ((system P agg).restrict (Fair P)).Inductive (Inv P slot) where
  init := by rintro S rfl; exact inv_init hagg
  step := fun _ _ _ h hs => inv_step hagg h256 h hs.1 hs.2

theorem Inv.result (h : Inv P slot S) {w : Fin n} {i : Nat} {v : BitVec 32}
    (hv : (S.wk w).results[i]? = some v) : v.toNat = top P i := by
  have hr := congrArg (·[i]?) (h.workers w).results
  simp only [List.getElem?_map, hv, Option.map_some] at hr
  obtain ⟨k, hk, he⟩ := Option.map_eq_some_iff.mp hr.symm
  obtain ⟨hlt, hk⟩ := List.getElem?_eq_some_iff.mp hk
  rw [← he, ← hk, List.getElem_range]

theorem Inv.results_length (h : Inv P slot S) (w : Fin n) : (S.wk w).results.length = (S.wk w).calls := by
  have hr := congrArg List.length (h.workers w).results
  simpa using hr

/-! ### Every call returns

What is left to do for the calls that have begun goes down with every step but a `start`, and such a
step is there as long as a call that every worker has begun has not returned. -/

def Pc.weight (n : Nat) : Pc → Nat
  | .idle => 0
  | .read _ => 3 * n + 5
  | .armed _ => 3 * n + 4
  | .waiting => 1

def Rx.weight : Rx → Nat
  | .free => 0
  | .bumped _ _ => 2
  | .wrote _ => 1

def weight (n : Nat) (x : Worker) (down : List (Nat × Frame)) : Nat :=
  x.pc.weight n + x.rx.weight + 3 * down.length

def Sys.left (S : Sys A n) : Nat :=
  (∑ w, weight n (S.wk w) (S.down w)) + (3 * n + 2) * S.up.length

theorem sum_weight_setWk (S : Sys A n) (w : Fin n) (x : Worker) (d : List (Nat × Frame)) :
    (∑ v, weight n ((S.setWk w x).wk v) (Function.update S.down w d v)) + weight n (S.wk w) (S.down w) =
      (∑ v, weight n (S.wk v) (S.down v)) + weight n x d := by
  rw [← Finset.sum_erase_add _ _ (Finset.mem_univ w),
    ← Finset.sum_erase_add _ (fun v => weight n (S.wk v) (S.down v)) (Finset.mem_univ w)]
  have hrest : ∀ v ∈ Finset.univ.erase w, weight n ((S.setWk w x).wk v) (Function.update S.down w d v) =
      weight n (S.wk v) (S.down v) := by
    intro v hv
    simp [Sys.setWk, Finset.ne_of_mem_erase hv]
  rw [Finset.sum_congr rfl hrest]
  simp only [Sys.setWk, Function.update_self]
  omega

theorem left_setWk (S : Sys A n) {w : Fin n} {x : Worker}
    (hx : x.pc.weight n + x.rx.weight < (S.wk w).pc.weight n + (S.wk w).rx.weight) :
    (S.setWk w x).left < S.left := by
  have := sum_weight_setWk S w x (S.down w)
  rw [Function.update_eq_self] at this
  show (∑ v, weight n ((S.setWk w x).wk v) (S.down v)) + _ < _
  simp only [Sys.left, Sys.setWk, weight] at this ⊢
  omega

theorem left_send (S : Sys A n) {w : Fin n} {x : Worker} (p : (Fin n × Nat) × Frame)
    (hx : weight n x (S.down w) + (3 * n + 3) = weight n (S.wk w) (S.down w)) :
    ({ S.setWk w x with up := S.up ++ [p] } : Sys A n).left < S.left := by
  have hsum := sum_weight_setWk S w x (S.down w)
  rw [Function.update_eq_self] at hsum
  show (∑ v, weight n ((S.setWk w x).wk v) (S.down v)) + (3 * n + 2) * (S.up ++ [p]).length < _
  rw [List.length_append, List.length_singleton, Nat.mul_add, Sys.left]
  omega

theorem delivered_length (out : Out) (dest : Option (Fin n)) (v : Fin n) :
    (delivered out dest v).length ≤ 1 := by
  unfold delivered
  split
  · exact Nat.zero_le _
  · exact Nat.le_refl _
  · split
    · exact Nat.le_refl _
    · exact Nat.zero_le _

theorem left_aggregate (S : Sys A n) {k i : Nat} {p : (Fin n × Nat) × Frame} (hk : S.up[k]? = some p)
    (agg' : A) (out : Out) (dest : Option (Fin n)) :
    ({ S with
      agg := agg'
      up := S.up.eraseIdx k
      down := fun v => S.down v ++ (delivered out dest v).map fun g => (i, g) } : Sys A n).left < S.left := by
  obtain ⟨hlt, -⟩ := List.getElem?_eq_some_iff.mp hk
  have hsum : (∑ v, weight n (S.wk v) (S.down v ++ (delivered out dest v).map (i, ·))) ≤
      ∑ v, (weight n (S.wk v) (S.down v) + 3) := by
    refine Finset.sum_le_sum fun v _ => ?_
    have := delivered_length out dest v
    simp only [weight, List.length_append, List.length_map]
    omega
  rw [Finset.sum_add_distrib, Finset.sum_const, Finset.card_univ, Fintype.card_fin, smul_eq_mul] at hsum
  obtain ⟨m, hm⟩ := Nat.exists_eq_add_of_lt (Nat.zero_lt_of_lt hlt)
  simp only [Sys.left, List.length_eraseIdx_of_lt hlt, hm, Nat.zero_add, Nat.add_sub_cancel, Nat.mul_add,
    Nat.mul_one]
  omega

theorem left_recv (S : Sys A n) {w : Fin n} {k : Nat} {p : Nat × Frame} (hrx : (S.wk w).rx = .free)
    (hk : (S.down w)[k]? = some p) (g : Frame) :
    ({ S.setWk w ((S.wk w).recv P.sw g) with
      down := Function.update S.down w ((S.down w).eraseIdx k) } : Sys A n).left < S.left := by
  obtain ⟨hlt, -⟩ := List.getElem?_eq_some_iff.mp hk
  have hx : ((S.wk w).recv P.sw g).pc = (S.wk w).pc ∧ ((S.wk w).recv P.sw g).rx.weight ≤ 2 := by
    unfold Worker.recv
    split
    · exact ⟨rfl, Nat.le_refl _⟩
    · exact ⟨rfl, by rw [hrx]; exact Nat.zero_le _⟩
  have := sum_weight_setWk S w ((S.wk w).recv P.sw g) ((S.down w).eraseIdx k)
  show (∑ v, weight n ((S.setWk w _).wk v) (Function.update S.down w _ v)) + _ < _
  simp only [Sys.left, weight, hx.1, List.length_eraseIdx_of_lt hlt, Sys.setWk] at this ⊢
  omega

theorem left_step {a : Act n} (ha : a.starts = none) (hs : step P agg S a = some S') :
    S'.left < S.left := by
  cases step_cases hs with
  | start => cases ha
  | arm hpc => exact left_setWk S (by simp [hpc, Pc.weight])
  | send payload hpc => exact left_send S _ (by simp only [weight, hpc, Pc.weight]; omega)
  | aggregate dest hk => exact left_aggregate S hk _ _ dest
  | recv hrx hk => exact left_recv S hrx hk _
  | write hrx => exact left_setWk S (by simp [Worker.write, hrx, Rx.weight])
  | ready hrx => exact left_setWk S (by simp [Worker.ready, hrx, Rx.weight])
  | ret hpc hready => exact left_setWk S (by simp [hpc, Pc.weight])

/-- The worker has begun its call `i`. -/
def Begun (i : Nat) (x : Worker) : Prop := i < x.calls ∨ x.calls = i ∧ x.pc ≠ .idle

theorem begun_step {a : Act n} {i : Nat} (ha : a.starts = none) (hs : step P agg S a = some S')
    (h : ∀ v, Begun i (S.wk v)) : ∀ v, Begun i (S'.wk v) := by
  cases step_cases hs with
  | start => cases ha
  | @arm w | @send w => exact forall_setWk h ((h w).imp_right fun hw => ⟨hw.1, by simp⟩)
  | aggregate => exact h
  | @recv w =>
    refine forall_setWk h ?_
    unfold Worker.recv
    split <;> exact h w
  | @write w | @ready w => exact forall_setWk h (h w)
  | @ret w =>
    refine forall_setWk h (.inl ?_)
    rcases h w with hlt | ⟨he, -⟩
    · exact Nat.lt_succ_of_lt hlt
    · exact he ▸ Nat.lt_succ_self _

/-- **Progress.** A call that every worker has begun and one has not returned from goes on. -/
theorem Inv.progress (h : Inv P slot S) (hkeys : ∀ i, P.keys i < DPDK_KEY_TOTAL) {i : Nat}
    (hb : ∀ v, Begun i (S.wk v)) {w : Fin n} (hw : (S.wk w).calls = i) :
    ∃ a S', a.starts = none ∧ step P agg S a = some S' := by
  by_contra hstuck
  have hno : ∀ a, a.starts = none → step P agg S a = none := fun a ha =>
    Option.eq_none_iff_forall_ne_some.mpr fun S' hs => hstuck ⟨a, S', ha, hs⟩
  have hup : S.up = [] := by
    cases hup : S.up with
    | nil => rfl
    | cons x l => have := hno (.aggregate 0 none) rfl; simp [step, hup] at this
  have hwait : ∀ v, (S.wk v).pc ≠ .idle → (S.wk v).pc = .waiting := by
    intro v hne
    cases hpc : (S.wk v).pc with
    | idle => exact absurd hpc hne
    | read round => have := hno (.arm v) rfl; simp [step, hpc] at this
    | armed round => have := hno (.send v ⟨.zero, 0, 0, 0, false⟩) rfl; simp [step, hpc] at this
    | waiting => rfl
  have hans : Answered (fun v => sentOf (S.wk v)) S.up i := by
    intro v
    refine ⟨show i < sentOf (S.wk v) from ?_, by simp [hup]⟩
    unfold sentOf
    rcases hb v with hlt | ⟨he, hne⟩
    · split <;> omega
    · rw [if_pos (hwait v hne)]; omega
  have hpc : (S.wk w).pc = .waiting := by
    rcases hb w with hlt | ⟨-, hne⟩
    · omega
    · exact hwait w hne
  have hrx : (S.wk w).rx = .free := by
    cases hrx : (S.wk w).rx with
    | free => rfl
    | bumped key norm => have := hno (.write w) rfl; simp [step, hrx] at this
    | wrote key => have := hno (.ready w) rfl; simp [step, hrx] at this
  have hready : (S.wk w).normReady (P.keys (S.wk w).calls) = false := by
    cases hr : (S.wk w).normReady (P.keys (S.wk w).calls) with
    | false => rfl
    | true => have := hno (.ret w) rfl; simp [step, hpc, hr] at this
  -- the reply of a call that everybody has sent for is on its way
  have hacc : accOf P (S.wk w) = i := (if_neg fun hc => by simp [hrx, hready] at hc).trans hw
  obtain ⟨g, hg⟩ := h.net.owed hkeys w _ hans (Nat.le_of_eq hacc)
  obtain ⟨k, hk⟩ := List.mem_iff_getElem?.mp hg
  have := hno (.recv w k) rfl
  simp [step, hrx, hk] at this

variable (P agg S) in
/-- The runs from `S` in which no call begins. -/
def continued : LTS (Sys A n) (Act n) :=
  (LTS.ofFn (· = S) (step P agg)).restrict fun _ a _ => a.starts = none

theorem continued_inductive (hagg : Aggregates P.sw agg slot) (h256 : n ≤ 256) {i : Nat}
    (h : Inv P slot S) (hb : ∀ v, Begun i (S.wk v)) :
    (continued P agg S).Inductive fun S' => Inv P slot S' ∧ ∀ v, Begun i (S'.wk v) where
  init := by rintro S rfl; exact ⟨h, hb⟩
  step := fun _ _ _ hi hs => ⟨inv_step hagg h256 hi.1 hs.1 fun w hw => by simp [hs.2] at hw,
    begun_step hs.2 hs.1 hi.2⟩

/-- A call that every worker has begun returns to every worker. -/
theorem exists_returned (hagg : Aggregates P.sw agg slot) (h256 : n ≤ 256)
    (hkeys : ∀ i, P.keys i < DPDK_KEY_TOTAL) {i : Nat} (h : Inv P slot S)
    (hb : ∀ v, Begun i (S.wk v)) (S' : Sys A n) (hS : (continued P agg S).Reachable S') :
    ∃ S'', (continued P agg S).Reachable S'' ∧
      ∀ w, ∃ v, (S''.wk w).results[i]? = some v ∧ v.toNat = top P i := by
  have hind := continued_inductive hagg h256 h hb
  induction hm : S'.left using Nat.strong_induction_on generalizing S' with
  | _ m ih =>
    obtain ⟨hi, hb'⟩ := hind.reachable S' hS
    by_cases hdone : ∀ w, i < (S'.wk w).calls
    · refine ⟨S', hS, fun w => ?_⟩
      have hlt : i < (S'.wk w).results.length := hi.results_length w ▸ hdone w
      exact ⟨_, List.getElem?_eq_getElem hlt, hi.result (List.getElem?_eq_getElem hlt)⟩
    · obtain ⟨w, hw⟩ := not_forall.mp hdone
      obtain ⟨a, S'', ha, hs⟩ := hi.progress hkeys hb' ((hb' w).resolve_left hw).1
      exact ih _ (hm ▸ left_step ha hs) S'' (.step hS ⟨hs, ha⟩) rfl

end Run

/-- Call `i` is call number `c` on norm slot `j`. -/
def IsCall (keys : Nat → Nat) (j c i : Nat) : Prop := keys i % NORM_SLOT = j ∧ roundOf keys i = c

instance (keys : Nat → Nat) (j c i : Nat) : Decidable (IsCall keys j c i) :=
  inferInstanceAs (Decidable (_ ∧ _))

theorem IsCall.unique {keys : Nat → Nat} {j c i i' : Nat} (h : IsCall keys j c i)
    (h' : IsCall keys j c i') : i = i' := by
  rcases Nat.lt_trichotomy i i' with hlt | heq | hlt
  · have := roundOf_lt (h.1.trans h'.1.symm) hlt; rw [h.2, h'.2] at this; omega
  · exact heq
  · have := roundOf_lt (h'.1.trans h.1.symm) hlt; rw [h.2, h'.2] at this; omega

/-- The largest of the values that the workers pass to their calls `call`. -/
def greatest {n : Nat} (P : Program n) (call : Fin n → Nat) : Nat :=
  Finset.univ.sup fun u => (P.vals u (call u)).toNat

/-- What the workers' calls `call` return, in every run: the largest of the values passed to them;
and once every worker has begun its call, they return without another call. -/
def Agrees {A : Type} {n : Nat} (P : Program n) (agg : Aggregator A) (call : Fin n → Nat) : Prop :=
  ∀ S, ((system P agg).restrict (Fair P)).Reachable S →
    (∀ w v, (S.wk w).results[call w]? = some v → v.toNat = greatest P call) ∧
    ((∀ i, P.keys i < DPDK_KEY_TOTAL) → (∀ v, Begun (call v) (S.wk v)) →
      ∃ S', (continued P agg S).Reachable S' ∧
        ∀ w, ∃ v, (S'.wk w).results[call w]? = some v ∧ v.toNat = greatest P call)

theorem agrees {A : Type} {n : Nat} {P : Program n} {agg : Aggregator A} {slot : A → BitVec 16 → Slot}
    (hagg : Aggregates P.sw agg slot) (h256 : n ≤ 256) {j c : Nat} {call : Fin n → Nat}
    (hcall : ∀ u, IsCall P.keys j c (call u)) : Agrees P agg call := by
  intro S hS
  have h := (inv_inductive hagg h256).reachable S hS
  have htop : ∀ w, top P (call w) = greatest P call := fun w => by
    simp only [top, greatest, fun u => (hcall u).unique (hcall w)]
  refine ⟨fun w v hv => (h.result hv).trans (htop w), fun hkeys hb => ?_⟩
  by_cases hn : Nonempty (Fin n)
  · obtain ⟨u⟩ := hn
    have hsame : ∀ w, call w = call u := fun w => (hcall w).unique (hcall u)
    obtain ⟨S', hS', hres⟩ := exists_returned hagg h256 hkeys h (fun v => hsame v ▸ hb v) S (.init rfl)
    refine ⟨S', hS', fun w => ?_⟩
    rw [hsame w, ← htop u]
    exact hres w
  · exact ⟨S, .init rfl, fun w => absurd ⟨w⟩ hn⟩

/-- **Norm exchange.** At most 256 workers make the same calls, fewer than `2 ^ 32` per slot. Call `c`
on slot `j` returns, to every worker, the largest of the values that the workers pass to their calls
`c` on slot `j`; with either aggregator. -/
theorem norm_calls {n : Nat} (h256 : n ≤ 256) (keys : Nat → Nat) (vals : Fin n → Nat → BitVec 32)
    (j c : Nat) (call : Fin n → Nat) (hcall : ∀ u, IsCall keys j c (call u)) :
    Agrees ⟨true, keys, vals⟩ (server n) call ∧
    ∀ tbl dst src, Agrees ⟨false, keys, vals⟩ (switch tbl dst src) call :=
  ⟨agrees (server_aggregates n) h256 hcall, fun tbl dst src =>
    agrees (switch_aggregates tbl dst src) h256 hcall⟩

/-! ### Two runs -/

/-- A call of worker `w` up to its packet. -/
def request {n : Nat} (w : Fin n) : List (Act n) := [.start w, .arm w, .send w ⟨.zero, 0, 0, 0, false⟩]

/-- A worker takes its only reply and returns. -/
def reply {n : Nat} (w : Fin n) : List (Act n) := [.recv w 0, .write w, .ready w, .ret w]

/-- Two workers; the keys 5 and 305 of their calls share a slot. -/
def twoCalls (sw : Bool) : Program 2 where
  sw := sw
  keys i := 5 + 300 * (i % 2)
  vals w i := if w.val = i then BitVec.ofNat 32 (9 - 2 * i) else 4

/-- Worker 0 makes its second call before worker 1 has taken the first reply. -/
def ahead : List (Act 2) :=
  request 0 ++ request 1 ++ [.aggregate 0 none, .aggregate 0 none] ++ reply 0 ++ request 0 ++
    [.aggregate 0 none] ++ reply 1 ++ request 1

def view {A : Type} (S : Sys A 2) : List (Nat × List (BitVec 32) × Pc) :=
  [S.wk 0, S.wk 1].map fun x => (x.calls, x.results, x.pc)

/-- Both workers are back from their first call with 9, and the second returns 7. -/
def NineThenSeven {A : Type} (sw : Bool) (agg : Aggregator A) : Prop :=
  ∃ S S', ((system (twoCalls sw) agg).restrict (Fair (twoCalls sw))).Reachable S ∧
    (∀ w, (S.wk w).results = [9]) ∧ (continued (twoCalls sw) agg S).Reachable S' ∧
    ∀ w, ∃ v, (S'.wk w).results[1]? = some v ∧ v.toNat = 7

theorem nineThenSeven {A : Type} {sw : Bool} {agg : Aggregator A}
    (hrun : (LTS.execute (LTS.guarded (step (twoCalls sw) agg) (Fair (twoCalls sw))) (Sys.init agg)
      ahead).map view = some [(1, [9], .waiting), (1, [9], .waiting)])
    (h : Agrees (twoCalls sw) agg fun _ => 1) : NineThenSeven sw agg := by
  obtain ⟨S, hS, hv⟩ := Option.map_eq_some_iff.mp hrun
  have hr : ((system (twoCalls sw) agg).restrict (Fair (twoCalls sw))).Reachable S :=
    LTS.Reachable.of_execute (.init rfl) hS
  have hwk : ∀ w, (S.wk w).calls = 1 ∧ (S.wk w).results = [9] ∧ (S.wk w).pc = .waiting := by
    simp only [view, List.map_cons, List.map_nil, List.cons.injEq, Prod.mk.injEq, and_true] at hv
    exact Fin.forall_fin_two.mpr hv
  have hkeys : ∀ i, (twoCalls sw).keys i < DPDK_KEY_TOTAL := fun i => by
    show 5 + 300 * (i % 2) < 1200000; omega
  obtain ⟨S', hS', hres⟩ := (h S hr).2 hkeys fun v => .inr ⟨(hwk v).1, by rw [(hwk v).2.2]; simp⟩
  exact ⟨S, S', hr, fun w => (hwk w).2.1, hS', hres⟩

theorem norm_calls_two_workers :
    NineThenSeven true (server 2) ∧
    NineThenSeven false (switch ⟨fun _ => none, fun _ => none, fun _ => none⟩ 0 0) := by
  have hcall : ∀ _ : Fin 2, IsCall (twoCalls true).keys 5 1 1 := fun _ => by decide
  obtain ⟨hserver, hswitch⟩ := norm_calls (by decide) (twoCalls true).keys (twoCalls true).vals 5 1 _ hcall
  exact ⟨nineThenSeven (by decide +kernel) hserver,
    nineThenSeven (by decide +kernel) (hswitch ⟨fun _ => none, fun _ => none, fun _ => none⟩ 0 0)⟩

/-- 257 workers; worker 1 passes 9. -/
def tooMany : Program 257 := ⟨true, fun _ => 5, fun w _ => if w.val = 1 then 9 else 4⟩

/-- **Counterexample.** `(uint8_t)NUM_WORKER` is 1 for 257 workers: the server answers the first packet
alone. -/
theorem norm_counterexample :
    IsCall tooMany.keys 5 0 0 ∧
    ∃ S, ((system tooMany (server 257)).restrict (Fair tooMany)).Reachable S ∧
      (S.wk 0).results[0]? = some 4 ∧ 4 < greatest tooMany fun _ => 0 := by
  have hrun : (LTS.execute (LTS.guarded (step tooMany (server 257)) (Fair tooMany))
      (Sys.init (server 257)) (request 0 ++ [.aggregate 0 none] ++ reply 0)).map
        (fun S => (S.wk 0).results) = some [4] := by decide +kernel
  obtain ⟨S, hS, hres⟩ := Option.map_eq_some_iff.mp hrun
  refine ⟨by decide, S, LTS.Reachable.of_execute (.init rfl) hS, by rw [hres]; rfl, ?_⟩
  calc 4 < (tooMany.vals 1 0).toNat := by decide
    _ ≤ greatest tooMany fun _ => 0 :=
      Finset.le_sup (f := fun u => (tooMany.vals u 0).toNat) (Finset.mem_univ 1)

end Inca.L3.NormCall
