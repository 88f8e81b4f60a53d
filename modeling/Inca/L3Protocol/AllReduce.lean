import Mathlib.Algebra.BigOperators.Fin
import Mathlib.Algebra.BigOperators.Ring.Finset
import Inca.L2Machine.Lanes
import Inca.L3Protocol.Aggregate
import Inca.L3Protocol.WorkerBuffers

/-!
# The in-network all-reduce, from call to finished buffer

The system of `Aggregate` (workers, software parameter server, a network
that delays, reorders and loses packets, `Reset` at any time), with the
compressed gradients of the INCA build, with and without `NO_CPUBUFF_COPY`.
A `Traced` state records in addition
what every call found in its buffer and which jobs `Reset` gave up; neither
is read by a step.

`all_reduce`: at the moment at which the last job of a gradient call is
closed, and its key is reported finished, every part of the buffer holds
either the byte sums of what *all* workers' calls of that number found, or,
if `Reset` gave its job up, what this worker's call found. It never holds a
sum over some of the workers, nor one of another call or round. In a build
with `NO_CPUBUFF_COPY`, as `common.h` has it, every reply carries the sums
(`Inv.reply_summed`) but none is copied: the buffer is as the call found it.
-/
namespace Inca.L3.AllReduce
open Inca.L1.DpdkPkt Inca.L2.DpdkManager Inca.L2.Lanes Inca.L3.WorkerJobs Inca.L3.Aggregate
open Inca.L3.Completion Inca.L3.WorkerBuffers
open scoped BigOperators

/-! ## The system with its history -/

structure Traced (n : Nat) where
  sys : Sys n
  /-- what the calls of each worker found in their buffers -/
  found : Fin n → List (Nat → Byte)
  /-- the jobs that `Reset` closed at each worker -/
  abandoned : Fin n → List Nat

def Traced.init (n : Nat) (mem : Fin n → Nat → Nat → Byte) : Traced n :=
  ⟨Sys.init n mem, fun _ => [], fun _ => []⟩

abbrev Traced.wk {n : Nat} (T : Traced n) (w : Fin n) : Wk := T.sys.wk w

/-- The next call of worker `w`. -/
def nextCall (prog : Program) {n : Nat} (T : Traced n) (w : Fin n) (tensorKey : Nat) (data : Ptr) : Call :=
  programCall prog (T.wk w).calls.length tensorKey data

def record (prog : Program) {n : Nat} (T : Traced n) (S : Sys n) : Act n → Traced n
  | .push w tensorKey data => { T with
      sys := S
      found := Function.update T.found w (T.found w ++ [foundBy (T.wk w) (nextCall prog T w tensorKey data)]) }
  | .reset w => { T with
      sys := S
      abandoned := Function.update T.abandoned w
        (T.abandoned w ++ resetCloses (T.wk w) (List.range (MAX_AGTR_COUNT + NORM_SLOT))) }
  | _ => { T with sys := S }

def step (noCopy : Bool) (prog : Program) {n : Nat} (T : Traced n) (a : Act n) : Option (Traced n) :=
  (Aggregate.step (inca noCopy) prog T.sys a).map fun S => record prog T S a

def traced (noCopy : Bool) (prog : Program) (n : Nat) (mem : Fin n → Nat → Nat → Byte) : LTS (Traced n) (Act n) :=
  .ofFn (· = Traced.init n mem) (step noCopy prog)

/-- What the callers see to: a call is not empty and its buffer is apart from those of the pending
calls, and no one else writes a buffer of a pending call. -/
def Callers (noCopy : Bool) (prog : Program) {n : Nat} (T : Traced n) : Act n → Prop
  | .push w tensorKey data =>
    0 < (nextCall prog T w tensorKey data).len ∧
    ∀ k < (T.wk w).calls.length, Pending (cfgOf (inca noCopy) w) (T.wk w) k →
      ∀ d ∈ (T.wk w).calls[k]?, Apart d (nextCall prog T w tensorKey data)
  | .host w mem =>
    ∀ k < (T.wk w).calls.length, Pending (cfgOf (inca noCopy) w) (T.wk w) k →
      ∀ d ∈ (T.wk w).calls[k]?, ∀ o < d.len,
        mem d.data.buf (d.data.off + o) = (T.wk w).mgr.mem d.data.buf (d.data.off + o)
  | _ => True

/-- The runs considered: fewer than `2 ^ 32` rounds per slot and fewer than `KEY_ROOM` unfinished
packets at every worker, and orderly callers. Losses and resets are free. -/
def Orderly (noCopy : Bool) (prog : Program) {n : Nat} (T : Traced n) (a : Act n) (T' : Traced n) : Prop :=
  (∀ w, RoundsOk (T'.wk w) ∧ Unfinished KEY_ROOM (T'.wk w)) ∧ Callers noCopy prog T a

/-! ## Sums over the workers -/

/-- What worker `v` has to contribute to job `i`. -/
def Traced.chunk (noCopy : Bool) {n : Nat} (T : Traced n) (v : Fin n) (i j : Nat) : Byte :=
  match (pieces (cfgOf (inca noCopy) v) (T.wk v).calls)[i]? with
  | some (k, p) => callBytes (T.found v) k (p * bound (cfgOf (inca noCopy) v) + j)
  | none => 0

/-- Sum of byte `j` of job `i` over the workers. -/
def Traced.lane (noCopy : Bool) {n : Nat} (T : Traced n) (i j : Nat) : Nat := ∑ v, (T.chunk noCopy v i j).toNat

/-- `b` is the sum of byte `j` of job `i`, unless this byte or one before it overflows. -/
def Summed (noCopy : Bool) {n : Nat} (T : Traced n) (i j : Nat) (b : Byte) : Prop :=
  (∀ v, i < (T.wk v).sent.length) ∧ ((∀ l ≤ j, T.lane noCopy i l ≤ 255) → b.toNat = T.lane noCopy i j)

theorem toNat_sum {ι : Type} (s : Finset ι) (f : ι → Word) :
    (∑ v ∈ s, f v).toNat = (∑ v ∈ s, (f v).toNat) % 2 ^ 32 := by
  classical
  induction s using Finset.induction_on with
  | empty => rfl
  | insert a s ha ih =>
    rw [Finset.sum_insert ha, Finset.sum_insert ha, BitVec.toNat_add, ih, Nat.add_mod_mod]

/-- The sum of the workers' words, lane by lane. -/
theorem sum_words {n : Nat} (vec : Fin n → Nat → Byte) (q : Nat) :
    (∑ v, leWord (vec v) q).toNat = ((∑ v, (vec v (4 * q)).toNat) + 2 ^ 8 * (∑ v, (vec v (4 * q + 1)).toNat) +
      2 ^ 16 * (∑ v, (vec v (4 * q + 2)).toNat) + 2 ^ 24 * ∑ v, (vec v (4 * q + 3)).toNat) % 2 ^ 32 := by
  simp only [toNat_sum, leWord_toNat, Finset.sum_add_distrib, Finset.mul_sum]

/-- A vector whose words are the sums of the workers' words holds the byte sums, up to the first
byte that overflows. -/
theorem byte_sum {n : Nat} {vec : Fin n → Nat → Byte} {b : Nat → Byte} {j : Nat}
    (hw : ∀ q, 4 * q ≤ j → leWord b q = ∑ v, leWord (vec v) q)
    (hL : ∀ l ≤ j, ∑ v, (vec v l).toNat ≤ 255) : (b j).toNat = ∑ v, (vec v j).toNat := by
  rw [← leByte_leWord b j]
  have hword : ∀ q, 4 * q < j + 1 → (leWord b q).toNat = ((∑ v, (vec v (4 * q)).toNat) +
      2 ^ 8 * (∑ v, (vec v (4 * q + 1)).toNat) + 2 ^ 16 * (∑ v, (vec v (4 * q + 2)).toNat) +
      2 ^ 24 * ∑ v, (vec v (4 * q + 3)).toNat) % 2 ^ 32 := fun q hq => by
    rw [hw q (by omega), sum_words]
  exact leByte_low (L := fun l => ∑ v, (vec v l).toNat) hword (fun l hl => hL l (by omega)) j (by omega)

/-! ## The invariant -/

structure Inv (noCopy : Bool) (prog : Program) {n : Nat} (T : Traced n) : Prop where
  base : Aggregate.Inv (inca noCopy) prog T.sys
  tables : ∀ w, Completion.Inv (cfgOf (inca noCopy) w) (T.wk w)
  buffers : ∀ w, Buffers (cfgOf (inca noCopy) w) (T.wk w) (T.found w) (T.abandoned w)
  kept : ∀ w, Kept (cfgOf (inca noCopy) w) (T.wk w) (T.found w) (T.abandoned w) (Summed noCopy T)
    (Pending (cfgOf (inca noCopy) w) (T.wk w))
  lens : ∀ w i f, (i, f) ∈ T.sys.down w → ∀ v y, (T.wk v).sent[i]? = some y → f.msg.len = y.1.len

section Inv
variable {noCopy : Bool} {prog : Program} {n : Nat} {T T' : Traced n}

theorem inv_init (noCopy : Bool) (prog : Program) (mem : Fin n → Nat → Nat → Byte) : Inv noCopy prog (Traced.init n mem) where
  base := Aggregate.inv_init (inca noCopy) prog mem
  tables := fun w => Completion.inv_init (cfgOf (inca noCopy) w) (mem w)
  buffers := fun w => ⟨rfl, by simp [Traced.init], by simp [Traced.init, Sys.init, Wk.init],
    by simp [Traced.init, Sys.init, Wk.init], by simp [Traced.init, Sys.init, Wk.init],
    by simp [Traced.init, Sys.init, Wk.init]⟩
  kept := fun w i k p c hi => by simp [Traced.init, Sys.init, Wk.init, pieces] at hi
  lens := by simp [Traced.init, Sys.init]

/-! ### Jobs of one number at two workers -/

/-- Which job carries which part, for the first `k` calls of the program. -/
def programPieces (noCopy : Bool) (prog : Program) (k : Nat) : List (Nat × Nat) :=
  (List.range k).flatMap fun t =>
    (List.range (parts ⟨inca noCopy, 0, 0⟩ (programCall prog t 0 ⟨0, 0⟩))).map fun p => (t, p)

theorem Inv.call_len (h : Inv noCopy prog T) {w : Fin n} {k : Nat} {c : Call} (hc : (T.wk w).calls[k]? = some c) :
    c.len = (prog k).1 := by
  have hs := congrArg (·[k]?) (h.base.workers w).calls
  have hk := (List.getElem?_eq_some_iff.mp hc).1
  simp only [List.getElem?_map, hc, Option.map_some] at hs
  rw [List.getElem?_range hk, Option.map_some] at hs
  exact congrArg Prod.fst (Option.some.inj hs)

theorem parts_eq (w : Fin n) {c d : Call} (h : c.len = d.len) :
    parts (cfgOf (inca noCopy) w) c = parts ⟨inca noCopy, 0, 0⟩ d := by
  simp only [parts, h, bound, cfgOf]

theorem Inv.pieces_eq (h : Inv noCopy prog T) (w : Fin n) :
    pieces (cfgOf (inca noCopy) w) (T.wk w).calls = programPieces noCopy prog (T.wk w).calls.length := by
  have hlen := fun k c (hc : (T.wk w).calls[k]? = some c) => h.call_len hc
  revert hlen
  generalize (T.wk w).calls = calls
  induction calls using List.reverseRecOn with
  | nil => intro; rfl
  | append_singleton calls c ih =>
    intro hlen
    have hc : c.len = (prog calls.length).1 := hlen calls.length c (by simp)
    rw [pieces_append, ih, programPieces, programPieces, List.length_append, List.length_singleton,
      List.range_succ, List.flatMap_append, parts_eq w (d := programCall prog calls.length 0 ⟨0, 0⟩) hc]
    · simp
    · intro k d hd
      refine hlen k d ?_
      rw [List.getElem?_append_left (List.getElem?_eq_some_iff.mp hd).1]
      exact hd

theorem programPieces_prefix (noCopy : Bool) (prog : Program) {k k' : Nat} (h : k ≤ k') :
    programPieces noCopy prog k <+: programPieces noCopy prog k' := by
  induction k', h using Nat.le_induction with
  | base => exact List.prefix_rfl
  | succ k' _ ih =>
    refine ih.trans ?_
    rw [programPieces, programPieces, List.range_succ, List.flatMap_append]
    exact List.prefix_append _ _

/-- A job carries the same part of the same call at every worker that has made it. -/
theorem Inv.piece_agree (h : Inv noCopy prog T) {v w : Fin n} {i : Nat} {x y : Nat × Nat}
    (hx : (pieces (cfgOf (inca noCopy) v) (T.wk v).calls)[i]? = some x)
    (hy : (pieces (cfgOf (inca noCopy) w) (T.wk w).calls)[i]? = some y) : x = y := by
  have key : ∀ {k k' : Nat}, k ≤ k' → ∀ {x y}, (programPieces noCopy prog k)[i]? = some x →
      (programPieces noCopy prog k')[i]? = some y → x = y := by
    intro k k' hle x y hx hy
    obtain ⟨t, ht⟩ := programPieces_prefix noCopy prog hle
    rw [← ht, List.getElem?_append_left (List.getElem?_eq_some_iff.mp hx).1, hx] at hy
    exact Option.some.inj hy
  rw [h.pieces_eq] at hx hy
  rcases Nat.le_total (T.wk v).calls.length (T.wk w).calls.length with hle | hle
  · exact key hle hx hy
  · exact (key hle hy hx).symm

theorem Inv.sent_len (h : Inv noCopy prog T) {v w : Fin n} {i : Nat} {x y : Job × Frame}
    (hx : (T.wk v).sent[i]? = some x) (hy : (T.wk w).sent[i]? = some y) : x.1.len = y.1.len := by
  obtain ⟨k, p, c, hp, hc, -, hj⟩ := piece_of_job ((h.base.workers v).jobs.sent hx)
  obtain ⟨k', p', c', hp', hc', -, hj'⟩ := piece_of_job ((h.base.workers w).jobs.sent hy)
  cases h.piece_agree hp hp'
  rw [hj, hj']
  simp only [jobAt, h.call_len hc, h.call_len hc', bound, cfgOf]

/-- The packet of a job carries what its call found. -/
theorem Inv.sent_vector (h : Inv noCopy prog T) {v : Fin n} {i j : Nat} {y : Job × Frame}
    (hy : (T.wk v).sent[i]? = some y) (hj : j < y.1.len) :
    y.2.msg.p4mlHdrs.vector j = T.chunk noCopy v i j := by
  obtain ⟨k, p, c, hp, hc, -, hjob⟩ := piece_of_job ((h.base.workers v).jobs.sent hy)
  have hlen : y.1.len = partLen (cfgOf (inca noCopy) v) c p := by rw [hjob]; rfl
  rw [(h.buffers v).sent i k p c y hp hc hy j (hlen ▸ hj), Traced.chunk, hp]

/-! ### A reply is the sum -/

theorem Inv.reply_summed (h : Inv noCopy prog T) {w : Fin n} {i j : Nat} {f : Frame} {y : Job × Frame}
    (hm : (i, f) ∈ T.sys.down w) (hy : (T.wk w).sent[i]? = some y) (hcmd : y.1.cmd = TENSOR_COMM)
    (hj : j < y.1.len) : Summed noCopy T i j (f.msg.p4mlHdrs.vector j) := by
  have ha := h.base.net.replies w i f hm
  have hjc : jobCmd (inca noCopy) prog i = TENSOR_COMM := by rw [← (h.base.workers w).cmd hy, hcmd]
  have hsent : ∀ v, ∃ z, (T.wk v).sent[i]? = some z := fun v => ⟨_, List.getElem?_eq_getElem (ha.sent_all v)⟩
  choose z hz using hsent
  have hlen : ∀ v, (z v).1.len = y.1.len := fun v => h.sent_len (hz v) hy
  have hvec : ∀ v, ∀ l ≤ j, (z v).2.msg.p4mlHdrs.vector l = T.chunk noCopy v i l := fun v l hl =>
    h.sent_vector (hz v) (by have := hlen v; omega)
  have hlane : ∀ l ≤ j, T.lane noCopy i l = ∑ v, ((z v).2.msg.p4mlHdrs.vector l).toNat := fun l hl =>
    Finset.sum_congr rfl fun v _ => by rw [hvec v l hl]
  have h1024 : y.1.len ≤ 1024 := by
    obtain ⟨k, p, c, -, -, -, hjob⟩ := piece_of_job ((h.base.workers w).jobs.sent hy)
    rw [hjob]
    exact Nat.min_le_left _ _
  refine ⟨ha.sent_all, fun hL => ?_⟩
  rw [hlane j (Nat.le_refl j)]
  refine byte_sum (fun q hq => ?_) fun l hl => hlane l hl ▸ hL l hl
  rw [ha.data hjc q (by simp only [MAX_ENTRIES_PER_PACKET]; omega)]
  refine Finset.sum_congr rfl fun v _ => ?_
  have hzv : (T.sys.sent v)[i]? = some (z v) := hz v
  simp only [words, hzv]

/-! ### Histories only grow -/

structure Grows (T T' : Traced n) : Prop where
  calls : ∀ v, (T.wk v).calls <+: (T'.wk v).calls
  found : ∀ v, T.found v <+: T'.found v
  sent : ∀ v, (T.wk v).sent <+: (T'.wk v).sent

theorem pieces_mono (cfg : Cfg) {calls calls' : List Call} (h : calls <+: calls') :
    pieces cfg calls <+: pieces cfg calls' := by
  obtain ⟨t, rfl⟩ := h
  simp only [pieces, List.zipIdx_append, List.flatMap_append]
  exact List.prefix_append _ _

theorem getElem?_of_prefix {α : Type} {l l' : List α} (h : l <+: l') {i : Nat} {x : α} (hx : l[i]? = some x) :
    l'[i]? = some x := by
  obtain ⟨t, rfl⟩ := h
  rwa [List.getElem?_append_left (List.getElem?_eq_some_iff.mp hx).1]

theorem Inv.chunk_grows (h : Inv noCopy prog T) (hg : Grows T T') {v : Fin n} {i : Nat}
    (hi : i < (T.wk v).sent.length) (j : Nat) : T'.chunk noCopy v i j = T.chunk noCopy v i j := by
  obtain ⟨k, p, c, hp, hc, -, -⟩ :=
    piece_of_job ((h.base.workers v).jobs.sent (List.getElem?_eq_getElem hi))
  have hp' := getElem?_of_prefix (pieces_mono (cfgOf (inca noCopy) v) (hg.calls v)) hp
  have hk : k < (T.found v).length := (h.buffers v).length ▸ (List.getElem?_eq_some_iff.mp hc).1
  have hf := getElem?_of_prefix (hg.found v) (List.getElem?_eq_getElem hk)
  simp only [Traced.chunk, hp, hp', callBytes, List.getD_eq_getElem?_getD, hf, List.getElem?_eq_getElem hk]

theorem Inv.summed_grows (h : Inv noCopy prog T) (hg : Grows T T') {i j : Nat} {b : Byte} (hs : Summed noCopy T i j b) :
    Summed noCopy T' i j b := by
  have hlane : ∀ l, T'.lane noCopy i l = T.lane noCopy i l := fun l =>
    Finset.sum_congr rfl fun v _ => by rw [h.chunk_grows hg (hs.1 v) l]
  refine ⟨fun v => Nat.lt_of_lt_of_le (hs.1 v) (hg.sent v).length_le, ?_⟩
  simpa only [hlane] using hs.2

/-! ### One worker moves -/

/-- Worker `w` goes on to `x`, with its history; the others stand still. -/
structure Moves (T T' : Traced n) (w : Fin n) (x : Wk) (found : List (Nat → Byte)) (abandoned : List Nat) :
    Prop where
  wk : T'.sys.wk = Function.update T.sys.wk w x
  found : T'.found = Function.update T.found w found
  abandoned : T'.abandoned = Function.update T.abandoned w abandoned

/-- What a step does to the buffers of the calls that are pending before or after it. -/
def StepKept (noCopy : Bool) (T T' : Traced n) : Prop :=
  Grows T T' ∧ ∀ w, Completion.Inv (cfgOf (inca noCopy) w) (T'.wk w) ∧
    Buffers (cfgOf (inca noCopy) w) (T'.wk w) (T'.found w) (T'.abandoned w) ∧
    Kept (cfgOf (inca noCopy) w) (T'.wk w) (T'.found w) (T'.abandoned w) (Summed noCopy T')
      fun k => Pending (cfgOf (inca noCopy) w) (T.wk w) k ∨ Pending (cfgOf (inca noCopy) w) (T'.wk w) k

theorem Inv.moves (h : Inv noCopy prog T) {w : Fin n} {x : Wk} {found : List (Nat → Byte)} {abandoned : List Nat}
    (hm : Moves T T' w x found abandoned) (hcalls : (T.wk w).calls <+: x.calls)
    (hfound : T.found w <+: found) (hsent : (T.wk w).sent <+: x.sent)
    (ht : Completion.Inv (cfgOf (inca noCopy) w) x) (hb : Buffers (cfgOf (inca noCopy) w) x found abandoned)
    (hk : Kept (cfgOf (inca noCopy) w) x found abandoned (Summed noCopy T)
      fun k => Pending (cfgOf (inca noCopy) w) (T.wk w) k ∨ Pending (cfgOf (inca noCopy) w) x k) : StepKept noCopy T T' := by
  have hself : T'.wk w = x ∧ T'.found w = found ∧ T'.abandoned w = abandoned :=
    ⟨by rw [Traced.wk, hm.wk, Function.update_self], by rw [hm.found, Function.update_self],
      by rw [hm.abandoned, Function.update_self]⟩
  have hother : ∀ v, v ≠ w → T'.wk v = T.wk v ∧ T'.found v = T.found v ∧ T'.abandoned v = T.abandoned v :=
    fun v hv => ⟨by rw [Traced.wk, hm.wk, Function.update_of_ne hv], by rw [hm.found, Function.update_of_ne hv],
      by rw [hm.abandoned, Function.update_of_ne hv]⟩
  have hg : Grows T T' := by
    refine ⟨fun v => ?_, fun v => ?_, fun v => ?_⟩ <;> by_cases hv : v = w
    · subst hv; rw [hself.1]; exact hcalls
    · rw [(hother v hv).1]
    · subst hv; rw [hself.2.1]; exact hfound
    · rw [(hother v hv).2.1]
    · subst hv; rw [hself.1]; exact hsent
    · rw [(hother v hv).1]
  refine ⟨hg, fun v => ?_⟩
  by_cases hv : v = w
  · subst hv
    rw [hself.1, hself.2.1, hself.2.2]
    exact ⟨ht, hb, hk.mono (fun _ hp => hp) fun _ _ _ _ hs => h.summed_grows hg hs⟩
  · rw [(hother v hv).1, (hother v hv).2.1, (hother v hv).2.2]
    refine ⟨h.tables v, h.buffers v, (h.kept v).mono (fun _ hp => ?_) fun _ _ _ _ hs => h.summed_grows hg hs⟩
    exact hp.elim id id

/-- No worker moves. -/
theorem Inv.still (h : Inv noCopy prog T) (hw : T'.sys.wk = T.sys.wk) (hf : T'.found = T.found)
    (ha : T'.abandoned = T.abandoned) : StepKept noCopy T T' := by
  have hg : Grows T T' := ⟨fun v => by rw [Traced.wk, Traced.wk, hw], fun v => by rw [hf],
    fun v => by rw [Traced.wk, Traced.wk, hw]⟩
  refine ⟨hg, fun v => ?_⟩
  rw [hf, ha, Traced.wk, hw]
  exact ⟨h.tables v, h.buffers v, (h.kept v).mono (fun _ hp => hp.elim id id)
    fun _ _ _ _ hs => h.summed_grows hg hs⟩

/-- The tables after a step of one worker. -/
theorem tables_of_step {cfg : Cfg} {x x' : Wk} {a : WorkerJobs.Act} (h : Completion.Inv cfg x)
    (hs : WorkerJobs.step cfg x a = some x') (hR : RoundsOk x' ∧ Unfinished KEY_ROOM x')
    (hpos : ∀ c, a = .push c → 0 < c.len) : Completion.Inv cfg x' := by
  refine ⟨slots_step h.slots h.rounds hs, hR.1, hR.2, tables_step h hs ⟨hR.1, hR.2, ?_⟩⟩
  cases a with
  | push c => exact hpos c rfl
  | tx | reply | reset | host => trivial

/-! ### The steps -/

section Steps
variable {w : Fin n}

theorem Inv.push (h : Inv noCopy prog T) {tensorKey : Nat} {data : Ptr} {x : Wk}
    (hs : WorkerJobs.step (cfgOf (inca noCopy) w) (T.wk w) (.push (nextCall prog T w tensorKey data)) = some x)
    (hR : RoundsOk x ∧ Unfinished KEY_ROOM x) (hc : Callers noCopy prog T (.push w tensorKey data)) :
    StepKept noCopy T (record prog T (T.sys.setWk w x) (.push w tensorKey data)) := by
  have ht := tables_of_step (h.tables w) hs hR (by rintro c ⟨⟩; exact hc.1)
  have hx : x = called (cfgOf (inca noCopy) w) (T.wk w) (nextCall prog T w tensorKey data) := by
    cases hs; rfl
  have hwin : ∀ i, i ∉ (T.wk w).closed → (T.wk w).mgr.dpdkKey +
      parts (cfgOf (inca noCopy) w) (nextCall prog T w tensorKey data) ≤ i + DPDK_KEY_TOTAL := by
    intro i hi
    have hcl : x.closed = (T.wk w).closed := by rw [hx]; rfl
    have := window ht.slots hR.2 (hcl ▸ hi)
    rwa [hx, called, (dpdkPushPull_spec _ _ _).1] at this
  have hap : ∀ (k : Nat) (d : Call), (T.wk w).calls[k]? = some d → Pending (cfgOf (inca noCopy) w) (T.wk w) k →
      Apart d (nextCall prog T w tensorKey data) := fun k d hd hp =>
    hc.2 k (List.getElem?_eq_some_iff.mp hd).1 hp d hd
  subst hx
  refine h.moves (w := w) ⟨rfl, rfl, (Function.update_eq_self _ _).symm⟩ (List.prefix_append _ _)
    (List.prefix_append _ _) List.prefix_rfl ht ((h.buffers w).push (h.tables w) hwin hap) ?_
  exact (Kept.push (h.buffers w) (h.tables w) (h.kept w)).mono
    (fun k hk => hk.elim pending_called_of id) fun _ _ _ _ hd => hd

theorem Inv.tx (h : Inv noCopy prog T) {payload : P4mlhdr} {x : Wk} {S : Sys n}
    (hs : WorkerJobs.step (cfgOf (inca noCopy) w) (T.wk w) (.tx payload) = some x)
    (hR : RoundsOk x ∧ Unfinished KEY_ROOM x) (hS : S.wk = Function.update T.sys.wk w x) :
    StepKept noCopy T (record prog T S (.tx w payload)) := by
  have ht := tables_of_step (h.tables w) hs hR (by rintro c ⟨⟩)
  obtain ⟨hcalls, hclosed, -, -⟩ := tx_same hs
  refine h.moves (w := w) ⟨hS, (Function.update_eq_self _ _).symm, (Function.update_eq_self _ _).symm⟩
    (by rw [hcalls]) List.prefix_rfl ?_ ht
    ((h.buffers w).tx hs rfl (h.tables w) (h.base.workers w).jobs (h.kept w)) ?_
  · obtain ⟨job, rest, -, -, rfl⟩ := step_tx hs
    exact List.prefix_append _ _
  · refine ((h.kept w).tx hs).mono (fun k hk => hk.elim id fun hp => ?_) fun _ _ _ _ hd => hd
    rwa [Pending, hcalls, hclosed] at hp

/-- Closing jobs makes no call pending. -/
theorem pending_of_closing {cfg : Cfg} {x x' : Wk} (hcalls : x'.calls = x.calls)
    (hsub : ∀ i ∈ x.closed, i ∈ x'.closed) {k : Nat} (hp : Pending cfg x' k) : Pending cfg x k := fun hall => by
  rw [Pending, hcalls] at hp
  exact hp fun i hi hik => hsub i (hall i hi hik)

theorem Inv.reply (h : Inv noCopy prog T) {i : Nat} {f : Frame} (hm : (i, f) ∈ T.sys.down w) {S : Sys n} {k : Nat}
    (hR : RoundsOk ((T.wk w).receive (cfgOf (inca noCopy) w) i f) ∧
      Unfinished KEY_ROOM ((T.wk w).receive (cfgOf (inca noCopy) w) i f))
    (hS : S.wk = Function.update T.sys.wk w ((T.wk w).receive (cfgOf (inca noCopy) w) i f)) :
    StepKept noCopy T (record prog T S (.rxWorker w k)) := by
  have hst := h.base.receive hm
  have ht := tables_of_step (h.tables w) hst hR (by rintro c ⟨⟩)
  obtain ⟨j, p, hy, hans⟩ := h.base.answerTo (v := w) hm
  by_cases hacc : RxAccepts (T.wk w).mgr f
  · have hopen := (h.tables w).slots.open_of_accepts (h.tables w).rounds hy hans hacc
    have hclosed : ((T.wk w).receive (cfgOf (inca noCopy) w) i f).closed = (T.wk w).closed ++ [i] := if_pos hacc
    have hsub : ∀ l ∈ (T.wk w).closed, l ∈ ((T.wk w).receive (cfgOf (inca noCopy) w) i f).closed := fun l hl => by
      rw [hclosed]; exact List.mem_append_left _ hl
    have hcalls : ((T.wk w).receive (cfgOf (inca noCopy) w) i f).calls = (T.wk w).calls := rfl
    have htab : ((T.wk w).receive (cfgOf (inca noCopy) w) i f).mgr.cpubuffTable = (T.wk w).mgr.cpubuffTable := by
      obtain ⟨mem, he⟩ := (h.tables w).slots.receive_eq (cfgOf (inca noCopy) w) hy hans hacc
      rw [he]; rfl
    refine h.moves (w := w) ⟨hS, (Function.update_eq_self _ _).symm, (Function.update_eq_self _ _).symm⟩
      List.prefix_rfl List.prefix_rfl List.prefix_rfl ht
      ((h.buffers w).closing rfl rfl htab hsub fun l hl => hsub l ((h.buffers w).abandoned_closed l hl)) ?_
    refine (Kept.receive rfl (h.buffers w) (h.tables w).slots (h.base.workers w).jobs (h.kept w) hy hans hacc
      hopen.2 (h.lens w i f hm w _ hy) fun hcmd l hl => h.reply_summed hm hy hcmd hl).mono
      (fun k hk => hk.elim id (pending_of_closing hcalls hsub)) fun _ _ _ _ hd => hd
  · have hsame : (T.wk w).receive (cfgOf (inca noCopy) w) i f = T.wk w := by
      rw [Wk.receive, L2.DpdkManager.rxThread_eq, if_neg hacc, if_neg hacc]
    rw [hsame, Function.update_eq_self] at hS
    exact h.still hS rfl rfl

theorem Inv.reset (h : Inv noCopy prog T) {x : Wk}
    (hs : WorkerJobs.step (cfgOf (inca noCopy) w) (T.wk w) .reset = some x)
    (hR : RoundsOk x ∧ Unfinished KEY_ROOM x) :
    StepKept noCopy T (record prog T (T.sys.setWk w x) (.reset w)) := by
  have ht := tables_of_step (h.tables w) hs hR (by rintro c ⟨⟩)
  have hc := step_reset (h.tables w).slots hs
  obtain ⟨-, htab, hclosed⟩ := Closes.same hc
  have hsub : ∀ l ∈ (T.wk w).closed, l ∈ x.closed := fun l hl => by
    rw [hclosed]; exact List.mem_append_left _ hl
  refine h.moves (w := w) ⟨rfl, (Function.update_eq_self _ _).symm, rfl⟩ (by rw [hc.sameJobs.calls])
    List.prefix_rfl (by rw [hc.sameJobs.sent]) ht
    ((h.buffers w).closing hc.sameJobs.calls hc.sameJobs.sent htab hsub fun l hl => ?_) ?_
  · rw [hclosed]
    rcases List.mem_append.mp hl with hl | hl
    · exact List.mem_append_left _ ((h.buffers w).abandoned_closed l hl)
    · exact List.mem_append_right _ hl
  · exact ((h.kept w).reset hc).mono
      (fun k hk => hk.elim id (pending_of_closing hc.sameJobs.calls hsub)) fun _ _ _ _ hd => hd

theorem Inv.host (h : Inv noCopy prog T) {mem : Nat → Nat → Byte} {x : Wk}
    (hs : WorkerJobs.step (cfgOf (inca noCopy) w) (T.wk w) (.host mem) = some x)
    (hR : RoundsOk x ∧ Unfinished KEY_ROOM x) (hc : Callers noCopy prog T (.host w mem)) :
    StepKept noCopy T (record prog T (T.sys.setWk w x) (.host w mem)) := by
  have ht := tables_of_step (h.tables w) hs hR (by rintro c ⟨⟩)
  cases hs
  refine h.moves (w := w) ⟨rfl, (Function.update_eq_self _ _).symm, (Function.update_eq_self _ _).symm⟩
    List.prefix_rfl List.prefix_rfl List.prefix_rfl ht
    ((h.buffers w).closing rfl rfl rfl (fun _ hi => hi) (h.buffers w).abandoned_closed) ?_
  refine (h.kept w).mono (fun k hk => hk.elim id id) (fun _ _ _ _ hd => hd) |>.host fun k c hck hp o ho => ?_
  exact hc k (List.getElem?_eq_some_iff.mp hck).1 (hp.elim id id) c hck o ho

end Steps

/-- **Step.** -/
theorem stepKept (h : Inv noCopy prog T) {a : Act n} (hs : step noCopy prog T a = some T') (ho : Orderly noCopy prog T a T') :
    StepKept noCopy T T' := by
  obtain ⟨S, hS, rfl⟩ := Option.map_eq_some_iff.mp hs
  obtain ⟨hR, hc⟩ := ho
  cases a with
  | push w tensorKey data =>
    simp only [Aggregate.step, Option.map_eq_some_iff] at hS
    obtain ⟨x, hx, rfl⟩ := hS
    exact h.push hx (by simpa [record, Traced.wk, Sys.setWk] using hR w) hc
  | tx w payload =>
    simp only [Aggregate.step, Option.map_eq_some_iff] at hS
    obtain ⟨x, hx, rfl⟩ := hS
    exact h.tx hx (by simpa [record, Traced.wk, Sys.setWk] using hR w) rfl
  | rxServer k =>
    simp only [Aggregate.step, Option.bind_eq_some_iff, Option.map_eq_some_iff] at hS
    obtain ⟨⟨w, i⟩, -, ⟨j, f⟩, -, rfl⟩ := hS
    exact h.still rfl rfl rfl
  | rxWorker w k =>
    simp only [Aggregate.step, Option.map_eq_some_iff] at hS
    obtain ⟨⟨i, f⟩, hk, rfl⟩ := hS
    exact h.reply (List.mem_of_getElem? hk) (by simpa [record, Traced.wk, Sys.setWk] using hR w) rfl
  | loseUp k => cases hS; exact h.still rfl rfl rfl
  | loseDown w k => cases hS; exact h.still rfl rfl rfl
  | reset w =>
    simp only [Aggregate.step, Option.map_eq_some_iff] at hS
    obtain ⟨x, hx, rfl⟩ := hS
    exact h.reset hx (by simpa [record, Traced.wk, Sys.setWk] using hR w)
  | host w mem =>
    simp only [Aggregate.step, Option.map_eq_some_iff] at hS
    obtain ⟨x, hx, rfl⟩ := hS
    exact h.host hx (by simpa [record, Traced.wk, Sys.setWk] using hR w) hc

/-! ### Lengths of replies -/

theorem mem_of_update_eraseIdx {α : Type} {down : Fin n → List α} {u w : Fin n} {k : Nat} {x : α}
    (h : x ∈ Function.update down u ((down u).eraseIdx k) w) : x ∈ down w := by
  by_cases hw : w = u
  · subst hw
    rw [Function.update_self] at h
    exact List.mem_of_mem_eraseIdx h
  · rwa [Function.update_of_ne hw] at h

theorem Inv.lens_of (h : Inv noCopy prog T) (hg : Grows T T') (hd : ∀ w, ∀ x ∈ T'.sys.down w, x ∈ T.sys.down w)
    {w v : Fin n} {i : Nat} {f : Frame} {y : Job × Frame} (hm : (i, f) ∈ T'.sys.down w)
    (hy : (T'.wk v).sent[i]? = some y) : f.msg.len = y.1.len := by
  have hm' := hd w _ hm
  have hi := (h.base.net.replies w i f hm').sent_all v
  have hold := getElem?_of_prefix (hg.sent v) (List.getElem?_eq_getElem hi)
  rw [hy] at hold
  cases hold
  exact h.lens w i f hm' v _ (List.getElem?_eq_getElem hi)

theorem reply_len {n : Nat} {ps : L2.ParameterServer.Ps} {f g : Frame}
    (h : (L2.ParameterServer.rxThread n ps f).2 = some g) : g.msg.len = f.msg.len := by
  simp only [L2.ParameterServer.rxThread, L2.ParameterServer.handle] at h
  repeat' split at h
  all_goals cases h
  rfl

theorem Inv.lens_step (h : Inv noCopy prog T) {a : Act n} (hs : step noCopy prog T a = some T') (hg : Grows T T') :
    ∀ w i f, (i, f) ∈ T'.sys.down w → ∀ v y, (T'.wk v).sent[i]? = some y → f.msg.len = y.1.len := by
  intro w i f hm v y hy
  obtain ⟨S, hS, rfl⟩ := Option.map_eq_some_iff.mp hs
  cases a with
  | push u tensorKey data =>
    simp only [Aggregate.step, Option.map_eq_some_iff] at hS
    obtain ⟨x, -, rfl⟩ := hS
    exact h.lens_of hg (fun _ _ hx => hx) hm hy
  | tx u payload =>
    simp only [Aggregate.step, Option.map_eq_some_iff] at hS
    obtain ⟨x, -, rfl⟩ := hS
    exact h.lens_of hg (fun _ _ hx => hx) hm hy
  | rxServer k =>
    simp only [Aggregate.step, Option.bind_eq_some_iff, Option.map_eq_some_iff] at hS
    obtain ⟨⟨u, l⟩, -, ⟨j, g⟩, hx, rfl⟩ := hS
    rcases List.mem_append.mp hm with hm | hm
    · exact h.lens w i f hm v y hy
    · -- a new reply has the length of the packet that completed the slot
      rw [Option.mem_toList, Option.map_eq_some_iff] at hm
      obtain ⟨r, hr, he⟩ := hm
      cases he
      rw [reply_len hr, (h.buffers u).sent_len _ (List.mem_of_getElem? hx)]
      exact h.sent_len hx hy
  | rxWorker u k =>
    simp only [Aggregate.step, Option.map_eq_some_iff] at hS
    obtain ⟨⟨l, g⟩, -, rfl⟩ := hS
    exact h.lens_of hg (fun _ _ hx => mem_of_update_eraseIdx hx) hm hy
  | loseUp k => cases hS; exact h.lens_of hg (fun _ _ hx => hx) hm hy
  | loseDown u k => cases hS; exact h.lens_of hg (fun _ _ hx => mem_of_update_eraseIdx hx) hm hy
  | reset u =>
    simp only [Aggregate.step, Option.map_eq_some_iff] at hS
    obtain ⟨x, -, rfl⟩ := hS
    exact h.lens_of hg (fun _ _ hx => hx) hm hy
  | host u mem =>
    simp only [Aggregate.step, Option.map_eq_some_iff] at hS
    obtain ⟨x, -, rfl⟩ := hS
    exact h.lens_of hg (fun _ _ hx => hx) hm hy

theorem inv_step (h256 : n ≤ 256) (h : Inv noCopy prog T) {a : Act n} (hs : step noCopy prog T a = some T')
    (ho : Orderly noCopy prog T a T') : Inv noCopy prog T' := by
  obtain ⟨hg, hw⟩ := stepKept h hs ho
  obtain ⟨S, hS, he⟩ := Option.map_eq_some_iff.mp hs
  have hsys : T'.sys = S := by subst he; cases a <;> rfl
  refine ⟨?_, fun w => (hw w).1, fun w => (hw w).2.1, fun w => ?_, h.lens_step hs hg⟩
  · rw [hsys]
    exact Aggregate.inv_step h256 h.base hS fun w => hsys ▸ (ho.1 w).1
  · exact (hw w).2.2.mono (fun _ hp => .inr hp) fun _ _ _ _ hd => hd

theorem inv_inductive (noCopy : Bool) (prog : Program) (h256 : n ≤ 256) (mem : Fin n → Nat → Nat → Byte) :
    ((traced noCopy prog n mem).restrict (Orderly noCopy prog)).Inductive (Inv noCopy prog) where
  init := by rintro T rfl; exact inv_init noCopy prog mem
  step := fun _ _ _ h hs => inv_step h256 h hs.1 hs.2

end Inv

/-! ## Main result -/

/-- Every byte of a call's buffer belongs to one job. -/
theorem exists_piece {cfg : Cfg} {calls : List Call} {k p : Nat} {c : Call} (hc : calls[k]? = some c)
    (hp : p < parts cfg c) : ∃ i : Nat, (pieces cfg calls)[i]? = some (k, p) := by
  rw [← List.mem_iff_getElem?]
  simp only [pieces, List.mem_flatMap, List.mem_map, List.mem_range, Prod.exists]
  exact ⟨c, k, List.mem_zipIdx_iff_getElem?.mpr hc, p, hp, rfl⟩

/-- **All-reduce.** At most 256 workers, any orderly run with any losses and resets. When a step
finishes the gradient call `k` of worker `w`, every byte `o` of its buffer is accounted for: if
`Reset` gave up the job of its 1024-byte part, it is what this worker's call found; else it is the sum
of what the calls `k` of all workers found, unless a byte of the part up to `o` overflows. With
`NO_CPUBUFF_COPY` every byte is what this worker's call found. -/
theorem all_reduce (noCopy : Bool) (prog : Program) (n : Nat) (h256 : n ≤ 256) (mem : Fin n → Nat → Nat → Byte)
    (T T' : Traced n) (a : Act n) (hT : ((traced noCopy prog n mem).restrict (Orderly noCopy prog)).Reachable T)
    (hs : ((traced noCopy prog n mem).restrict (Orderly noCopy prog)).step T a T') (w : Fin n) (k : Nat) (c : Call)
    (hc : (T.wk w).calls[k]? = some c) (hg : cmdOf c = TENSOR_COMM)
    (hbefore : k ∉ completed (owners (cfgOf (inca noCopy) w) (T.wk w).calls) (T.wk w).closed)
    (hafter : k ∈ completed (owners (cfgOf (inca noCopy) w) (T'.wk w).calls) (T'.wk w).closed) :
    ∀ o < c.len, ∃ i, (pieces (cfgOf (inca noCopy) w) (T'.wk w).calls)[i]? = some (k, o / 1024) ∧
      let b := (T'.wk w).mgr.mem c.data.buf (c.data.off + o)
      if noCopy = true ∨ i ∈ T'.abandoned w then b = callBytes (T'.found w) k o
      else (∀ l ≤ o, l / 1024 = o / 1024 → ∑ v, (callBytes (T'.found v) k l).toNat ≤ 255) →
        b.toNat = ∑ v, (callBytes (T'.found v) k o).toNat := by
  have h := (inv_inductive noCopy prog h256 mem).reachable T hT
  have h' := inv_step h256 h hs.1 hs.2
  obtain ⟨hgrow, hw⟩ := stepKept h hs.1 hs.2
  have hc' := getElem?_of_prefix (hgrow.calls w) hc
  have hb : bound (cfgOf (inca noCopy) w) = 1024 := rfl
  have hmem : ∀ {S : Traced n}, Completion.Inv (cfgOf (inca noCopy) w) (S.wk w) → (S.wk w).calls[k]? = some c →
      k ∈ owners (cfgOf (inca noCopy) w) (S.wk w).calls := fun {S} hS hck => by
    rw [← List.count_pos_iff, owners_count hck]
    exact hS.tables.positive c (List.mem_of_getElem? hck)
  -- the call was pending before the step, and all its jobs are closed now
  have hpend : Pending (cfgOf (inca noCopy) w) (T.wk w) k := fun hall =>
    hbefore ((mem_completed_iff (hmem (h.tables w) hc)).mpr hall)
  have hall := (mem_completed_iff (hmem (hw w).1 hc')).mp hafter
  intro o ho
  have hp : o / 1024 < parts (cfgOf (inca noCopy) w) c := by
    rw [L2.Chunks.lt_parts_iff, hb]
    omega
  obtain ⟨i, hi⟩ := exists_piece hc' hp
  have hclosed : i ∈ (T'.wk w).closed :=
    hall i (List.getElem?_eq_some_iff.mp (owner_of_piece hi)).1 (owner_of_piece hi)
  obtain ⟨hown, hdone⟩ := (hw w).2.2 i k (o / 1024) c hi hc' (.inl hpend)
  have hlt : o % 1024 < partLen (cfgOf (inca noCopy) w) c (o / 1024) := by
    rw [partLen, hb]
    omega
  have hbyte : partByte (cfgOf (inca noCopy) w) (T'.wk w).mgr.mem c (o / 1024) (o % 1024) =
      (T'.wk w).mgr.mem c.data.buf (c.data.off + o) := by
    rw [partByte, hb, Nat.add_assoc, Nat.div_add_mod']
  refine ⟨i, hi, ?_⟩
  dsimp only
  split
  · next hab =>
    have := hown (fun _ => hab.symm.imp_right fun hno hcopy => by rw [hno] at hcopy; cases hcopy.1) _ hlt
    rwa [hbyte, hb, Nat.div_add_mod'] at this
  · next hab =>
    intro hL
    rw [not_or, Bool.not_eq_true] at hab
    obtain ⟨hsent, hsum⟩ := hdone hclosed hab.2 ⟨hab.1, hg⟩ _ hlt
    -- job `i` carries the same part at every worker
    have hchunk : ∀ v l, T'.chunk noCopy v i l = callBytes (T'.found v) k (o / 1024 * 1024 + l) := fun v l => by
      obtain ⟨k', p', c', hp', -, -, -⟩ :=
        piece_of_job ((h'.base.workers v).jobs.sent (List.getElem?_eq_getElem (hsent v)))
      cases h'.piece_agree hp' hi
      rw [Traced.chunk, hp']
      rfl
    have hlane : ∀ l, T'.lane noCopy i l = ∑ v, (callBytes (T'.found v) k (o / 1024 * 1024 + l)).toNat := fun l =>
      Finset.sum_congr rfl fun v _ => by rw [hchunk v l]
    rw [hbyte, hlane, Nat.div_add_mod'] at hsum
    refine hsum fun l hl => ?_
    rw [hlane]
    exact hL _ (by omega) (by omega)

/-! ### A run -/

instance (prog : Program) {n : Nat} (T : Traced n) (a : Act n) : Decidable (Callers noCopy prog T a) :=
  match a with
  | .push _ _ _ => inferInstanceAs (Decidable (_ ∧ _))
  | .host w mem => inferInstanceAs (Decidable (∀ k < (T.wk w).calls.length,
      Pending (cfgOf (inca noCopy) w) (T.wk w) k → ∀ d ∈ (T.wk w).calls[k]?, ∀ o < d.len,
        mem d.data.buf (d.data.off + o) = (T.wk w).mgr.mem d.data.buf (d.data.off + o)))
  | .tx _ _ | .rxServer _ | .rxWorker _ _ | .loseUp _ | .loseDown _ _ | .reset _ => .isTrue trivial

instance (u : Nat) (x : Wk) : Decidable (Unfinished u x) := inferInstanceAs (Decidable (_ < _))

instance (prog : Program) {n : Nat} (T : Traced n) (a : Act n) (T' : Traced n) :
    Decidable (Orderly noCopy prog T a T') := inferInstanceAs (Decidable (_ ∧ _))

/-- Two workers whose buffers hold bytes 1 and 2: after the reply has reached worker 0, its buffer
holds `byte`. -/
def EndsWith (noCopy : Bool) (byte : Nat) : Prop := ∃ T T',
  ((traced noCopy smallProgram 2 smallMem).restrict (Orderly noCopy smallProgram)).Reachable T ∧
  step noCopy smallProgram T (.rxWorker 0 0) = some T' ∧ (T'.wk 0).closed = [0] ∧
  ∀ o < 4, ((T'.wk 0).mgr.mem 0 (0 + o)).toNat = byte

/-- The sum 3, if replies are copied; else the 1 that the call found. -/
theorem all_reduce_two_workers : EndsWith false 3 ∧ EndsWith true 1 := by
  have key : ∀ noCopy, EndsWith noCopy (if noCopy then 1 else 3) := fun noCopy => by
    have hex : ∃ T T', LTS.execute (LTS.guarded (step noCopy smallProgram) (Orderly noCopy smallProgram))
        (Traced.init 2 smallMem) twoWorkers = some T ∧
        LTS.guarded (step noCopy smallProgram) (Orderly noCopy smallProgram) T (.rxWorker 0 0) = some T' ∧
        (T.wk 0).calls = [programCall smallProgram 0 7 ⟨0, 0⟩] ∧ (T.wk 0).closed = [] ∧
        (T'.wk 0).calls = [programCall smallProgram 0 7 ⟨0, 0⟩] ∧ (T'.wk 0).closed = [0] ∧
        T'.abandoned 0 = [] ∧ ∀ o, callBytes (T'.found 0) 0 o = 1 ∧ callBytes (T'.found 1) 0 o = 2 := by
      cases noCopy <;> exact ⟨_, _, rfl, rfl, rfl, rfl, rfl, rfl, rfl, fun _ => ⟨rfl, rfl⟩⟩
    obtain ⟨T, T', hT, hs, hcalls, hclosed, hcalls', hclosed', hab, hfound⟩ := hex
    have hr := LTS.Reachable.of_execute
      (.init (M := (traced noCopy smallProgram 2 smallMem).restrict (Orderly noCopy smallProgram)) rfl) hT
    obtain ⟨hs, ho⟩ := Option.filter_eq_some_iff.mp hs
    refine ⟨T, T', hr, hs, hclosed', fun o ho' => ?_⟩
    obtain ⟨i, -, hb⟩ := all_reduce noCopy smallProgram 2 (by decide) smallMem T T' _ hr
      ⟨hs, of_decide_eq_true ho⟩ 0 0 (programCall smallProgram 0 7 ⟨0, 0⟩) (by rw [hcalls]; rfl) (by decide)
      (by rw [hcalls, hclosed]; cases noCopy <;> decide) (by rw [hcalls', hclosed']; cases noCopy <;> decide) o ho'
    have hsum : ∀ l, ∑ v : Fin 2, (callBytes (T'.found v) 0 l).toNat = 3 := fun l => by
      rw [Fin.sum_univ_two, (hfound l).1, (hfound l).2]
      rfl
    have hbuf : (programCall smallProgram 0 7 ⟨0, 0⟩).data = ⟨0, 0⟩ := rfl
    simp only [hab, List.not_mem_nil, or_false, hsum, (hfound o).1, hbuf] at hb
    cases noCopy with
    | false => exact hb fun _ _ _ => by decide
    | true => exact congrArg BitVec.toNat hb
  exact ⟨key false, key true⟩

end Inca.L3.AllReduce
