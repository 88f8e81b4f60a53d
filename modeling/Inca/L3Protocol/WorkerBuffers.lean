import Inca.L2Machine.Chunks
import Inca.L3Protocol.Completion

/-!
# One worker's gradient buffers

What `WorkerJobs` and `Completion` say about jobs and tables, carried to the
bytes they are about. Each job is one *piece* of one call; `found` records
what each call found in its buffer, `abandoned` the jobs that `Reset`
closed.

As long as a call is `Pending` its buffer is accounted for byte by byte
(`Kept`): a piece that is not answered, that `Reset` gave up or that no reply
is copied into (with `NO_CPUBUFF_COPY` none is) holds what the call found;
every other piece holds what its reply brought (`Done`). A packet on the wire carries the bytes its call
found (`Buffers.sent`), whenever it is sent.

This rests on two things about the callers. Buffers of pending calls do not
overlap, and no one else writes them.
-/
namespace Inca.L3.WorkerBuffers
open Inca.L1.DpdkPkt Inca.L2.DpdkManager Inca.L2.Chunks Inca.L3.WorkerJobs Inca.L3.Completion

/-! ## Which part of which call a job carries -/

/-- The call, by number, and the part of it that each job carries. -/
def pieces (cfg : Cfg) (calls : List Call) : List (Nat × Nat) :=
  calls.zipIdx.flatMap fun x => (List.range (parts cfg x.1)).map fun p => (x.2, p)

section Pieces
variable {cfg : Cfg} {calls : List Call}

theorem pieces_append (cfg : Cfg) (calls : List Call) (c : Call) : pieces cfg (calls ++ [c]) =
    pieces cfg calls ++ (List.range (parts cfg c)).map fun p => (calls.length, p) := by
  simp [pieces, List.zipIdx_append]

theorem pieces_fst (cfg : Cfg) (calls : List Call) : (pieces cfg calls).map Prod.fst = owners cfg calls := by
  simp [pieces, owners, List.map_flatMap, Function.comp_def, List.map_const']

theorem owner_of_piece {i k p : Nat} (h : (pieces cfg calls)[i]? = some (k, p)) :
    (owners cfg calls)[i]? = some k := by
  rw [← pieces_fst, List.getElem?_map, h]; rfl

theorem length_pieces (cfg : Cfg) (calls : List Call) :
    (pieces cfg calls).length = (jobsFrom cfg 0 calls).length := by
  induction calls using List.reverseRecOn with
  | nil => rfl
  | append_singleton calls c ih => simp [pieces_append, jobsFrom_append, jobsFrom, ih]

/-- A piece of the longer list: an old one, or a part of the new call. -/
theorem piece_append {c : Call} {i k p : Nat} (h : (pieces cfg (calls ++ [c]))[i]? = some (k, p)) :
    (pieces cfg calls)[i]? = some (k, p) ∨
      k = calls.length ∧ p < parts cfg c ∧ i = (pieces cfg calls).length + p := by
  rw [pieces_append] at h
  rcases Nat.lt_or_ge i (pieces cfg calls).length with hi | hi
  · left; rwa [List.getElem?_append_left hi] at h
  · right
    rw [List.getElem?_append_right hi, List.getElem?_map, Option.map_eq_some_iff] at h
    obtain ⟨q, hq, he⟩ := h
    obtain ⟨hlt, rfl⟩ := List.getElem?_eq_some_iff.mp hq
    rw [List.getElem_range] at he
    rw [List.length_range] at hlt
    cases he
    exact ⟨rfl, hlt, by omega⟩

/-- The job of a piece. -/
theorem job_of_piece {i k p : Nat} (h : (pieces cfg calls)[i]? = some (k, p)) :
    ∃ c, calls[k]? = some c ∧ p < parts cfg c ∧
      (jobsFrom cfg 0 calls)[i]? = some (jobAt cfg c (i % DPDK_KEY_TOTAL) (p * bound cfg)) := by
  induction calls using List.reverseRecOn with
  | nil => simp [pieces] at h
  | append_singleton calls c ih =>
    rcases piece_append h with h | ⟨rfl, hp, rfl⟩
    · obtain ⟨d, hd, hp, hj⟩ := ih h
      refine ⟨d, ?_, hp, ?_⟩
      · rw [List.getElem?_append_left (List.getElem?_eq_some_iff.mp hd).1]; exact hd
      · rw [jobsFrom_append, List.getElem?_append_left (List.getElem?_eq_some_iff.mp hj).1]; exact hj
    · refine ⟨c, by simp, hp, ?_⟩
      have hl := length_pieces cfg calls
      rw [jobsFrom_append, List.getElem?_append_right (by omega), ← hl, Nat.add_sub_cancel_left]
      simp [jobsFrom, hp]

theorem piece_of_job {i : Nat} {job : Job} (h : (jobsFrom cfg 0 calls)[i]? = some job) :
    ∃ k p c, (pieces cfg calls)[i]? = some (k, p) ∧ calls[k]? = some c ∧ p < parts cfg c ∧
      job = jobAt cfg c (i % DPDK_KEY_TOTAL) (p * bound cfg) := by
  have hi : i < (pieces cfg calls).length := by
    rw [length_pieces]; exact (List.getElem?_eq_some_iff.mp h).1
  obtain ⟨⟨k, p⟩, hkp⟩ : ∃ x, (pieces cfg calls)[i]? = some x := ⟨_, List.getElem?_eq_getElem hi⟩
  obtain ⟨c, hc, hp, hj⟩ := job_of_piece hkp
  rw [h] at hj
  exact ⟨k, p, c, hkp, hc, hp, Option.some.inj hj⟩

/-- No part is carried twice. -/
theorem pieces_nodup (cfg : Cfg) (calls : List Call) : (pieces cfg calls).Nodup := by
  induction calls using List.reverseRecOn with
  | nil => simp [pieces]
  | append_singleton calls c ih =>
    rw [pieces_append, List.nodup_append]
    refine ⟨ih, (List.nodup_range).map fun _ _ h => (Prod.mk.inj h).2, fun x hx y hy => ?_⟩
    rintro rfl
    obtain ⟨p, -, rfl⟩ := List.mem_map.mp hy
    obtain ⟨i, hi⟩ := List.mem_iff_getElem?.mp hx
    exact Nat.lt_irrefl _ (owners_lt (owner_of_piece hi))

end Pieces

/-! ## What the buffers hold -/

/-- The `k`-th call found `callBytes found k` in its buffer. -/
def callBytes (found : List (Nat → Byte)) (k : Nat) : Nat → Byte := found.getD k fun _ => 0

theorem callBytes_append {found : List (Nat → Byte)} (b : Nat → Byte) {k : Nat} (hk : k < found.length) :
    callBytes (found ++ [b]) k = callBytes found k := by
  rw [callBytes, callBytes, List.getD_eq_getElem?_getD, List.getD_eq_getElem?_getD,
    List.getElem?_append_left hk]

/-- Length of part `p`. -/
def partLen (cfg : Cfg) (c : Call) (p : Nat) : Nat := min (bound cfg) (c.len - p * bound cfg)

/-- Byte `j` of part `p` in host memory. -/
def partByte (cfg : Cfg) (mem : Nat → Nat → Byte) (c : Call) (p j : Nat) : Byte :=
  mem c.data.buf (c.data.off + p * bound cfg + j)

/-- Some job of call `k` is not closed. -/
def Pending (cfg : Cfg) (x : Wk) (k : Nat) : Prop := ¬ AllClosed (owners cfg x.calls) x.closed k

instance (cfg : Cfg) (x : Wk) (k : Nat) : Decidable (Pending cfg x k) :=
  inferInstanceAs (Decidable (¬ _))

/-- The buffers of two calls do not overlap. -/
def Apart (c d : Call) : Prop :=
  c.data.buf ≠ d.data.buf ∨ c.data.off + c.len ≤ d.data.off ∨ d.data.off + d.len ≤ c.data.off

instance (c d : Call) : Decidable (Apart c d) := inferInstanceAs (Decidable (_ ∨ _))

theorem Apart.symm {c d : Call} (h : Apart c d) : Apart d c := by
  rcases h with h | h | h
  · exact .inl h.symm
  · exact .inr (.inr h)
  · exact .inr (.inl h)

/-- Tables and packets of a worker whose calls found `found`. -/
structure Buffers (cfg : Cfg) (x : Wk) (found : List (Nat → Byte)) (abandoned : List Nat) : Prop where
  length : found.length = x.calls.length
  abandoned_closed : ∀ i ∈ abandoned, i ∈ x.closed
  table : ∀ (i k p : Nat) (c : Call), (pieces cfg x.calls)[i]? = some (k, p) → x.calls[k]? = some c → i ∉ x.closed →
    cmdOf c = TENSOR_COMM → x.mgr.cpubuffTable (i % DPDK_KEY_TOTAL) =
      some ⟨c.data.buf, c.data.off + p * bound cfg⟩
  apart : ∀ (k : Nat) (c : Call) (l : Nat) (d : Call), x.calls[k]? = some c → x.calls[l]? = some d → Pending cfg x k → Pending cfg x l →
    k ≠ l → Apart c d
  sent : ∀ (i k p : Nat) (c : Call) (y : Job × Frame), (pieces cfg x.calls)[i]? = some (k, p) → x.calls[k]? = some c →
    x.sent[i]? = some y → ∀ j < partLen cfg c p,
      y.2.msg.p4mlHdrs.vector j = callBytes found k (p * bound cfg + j)
  sent_len : ∀ y ∈ x.sent, y.2.msg.len = y.1.len

/-- A reply is copied into the buffer of the call. -/
def Copied (cfg : Cfg) (c : Call) : Prop := cfg.noCpubuffCopy = false ∧ cmdOf c = TENSOR_COMM

instance (cfg : Cfg) (c : Call) : Decidable (Copied cfg c) := inferInstanceAs (Decidable (_ ∧ _))

/-- Part `p` of call `k`, which job `i` carries. -/
structure Content (cfg : Cfg) (x : Wk) (found : List (Nat → Byte)) (abandoned : List Nat)
    (Done : Nat → Nat → Byte → Prop) (i k p : Nat) (c : Call) : Prop where
  own : (i ∈ x.closed → i ∈ abandoned ∨ ¬ Copied cfg c) → ∀ j < partLen cfg c p,
    partByte cfg x.mgr.mem c p j = callBytes found k (p * bound cfg + j)
  done : i ∈ x.closed → i ∉ abandoned → Copied cfg c → ∀ j < partLen cfg c p,
    Done i j (partByte cfg x.mgr.mem c p j)

/-- The buffers of the calls `P`. -/
def Kept (cfg : Cfg) (x : Wk) (found : List (Nat → Byte)) (abandoned : List Nat)
    (Done : Nat → Nat → Byte → Prop) (P : Nat → Prop) : Prop :=
  ∀ (i k p : Nat) (c : Call), (pieces cfg x.calls)[i]? = some (k, p) → x.calls[k]? = some c → P k →
    Content cfg x found abandoned Done i k p c

theorem Kept.mono {cfg : Cfg} {x : Wk} {found : List (Nat → Byte)} {abandoned : List Nat}
    {Done Done' : Nat → Nat → Byte → Prop} {P P' : Nat → Prop} (h : Kept cfg x found abandoned Done P)
    (hP : ∀ k, P' k → P k) (hD : ∀ i j b, i ∈ x.closed → Done i j b → Done' i j b) :
    Kept cfg x found abandoned Done' P' := fun i k p c hi hc hk =>
  have ht := h i k p c hi hc (hP k hk)
  ⟨ht.own, fun h1 h2 h3 j hj => hD i j _ h1 (ht.done h1 h2 h3 j hj)⟩

/-- An open job's call is pending. -/
theorem pending_of_open {cfg : Cfg} {x : Wk} {i k : Nat} (hi : (owners cfg x.calls)[i]? = some k)
    (ho : i ∉ x.closed) : Pending cfg x k :=
  fun hall => ho (hall i (List.getElem?_eq_some_iff.mp hi).1 hi)

section Steps
variable {cfg : Cfg} {x x' : Wk} {found : List (Nat → Byte)} {abandoned : List Nat}
  {Done : Nat → Nat → Byte → Prop}

/-! ### Calls -/

/-- The buffer table after `k` rounds of the loop: the last `DPDK_KEY_TOTAL` keys drawn point to
their parts. -/
theorem foldl_pushPart_cpubuff (cfg : Cfg) (c : Call) (mu : Nat) (m : Mgr) {k : Nat}
    (hk : k ≤ DPDK_KEY_TOTAL) (hc : cmdOf c = TENSOR_COMM) {p : Nat} (hp : p < k) :
    ((List.range k).foldl (pushPart cfg c mu) m).cpubuffTable ((m.dpdkKey + p) % DPDK_KEY_TOTAL) =
      some ⟨c.data.buf, c.data.off + p * bound cfg⟩ := by
  induction k with
  | zero => omega
  | succ k ih =>
    have hd := (foldl_pushPart cfg c mu m k).1
    have ih := ih (by omega)
    simp only [List.range_succ, List.foldl_append, List.foldl_cons, List.foldl_nil] at hd ih ⊢
    generalize (List.range k).foldl (pushPart cfg c mu) m = t at hd ih ⊢
    simp only [pushPart, hc, if_true, hd]
    rcases Nat.lt_succ_iff_lt_or_eq.mp hp with hlt | rfl
    · have hne : (m.dpdkKey + p) % DPDK_KEY_TOTAL ≠ (m.dpdkKey + k) % DPDK_KEY_TOTAL := by
        simp only [DPDK_KEY_TOTAL] at *; omega
      rw [Function.update_of_ne hne]
      exact ih hlt
    · rw [Function.update_self]; rfl

/-- A key that is not drawn keeps its entry. -/
theorem foldl_pushPart_cpubuff_other (cfg : Cfg) (c : Call) (mu : Nat) (m : Mgr) {k key : Nat}
    (hkey : ∀ j < k, key ≠ (m.dpdkKey + j) % DPDK_KEY_TOTAL) :
    ((List.range k).foldl (pushPart cfg c mu) m).cpubuffTable key = m.cpubuffTable key := by
  induction k with
  | zero => rfl
  | succ k ih =>
    have hd := (foldl_pushPart cfg c mu m k).1
    have ih := ih fun j hj => hkey j (by omega)
    simp only [List.range_succ, List.foldl_append, List.foldl_cons, List.foldl_nil] at hd ih ⊢
    generalize (List.range k).foldl (pushPart cfg c mu) m = t at hd ih ⊢
    simp only [pushPart, hd]
    split
    · rw [Function.update_of_ne (hkey k (by omega)), ih]
    · exact ih

theorem foldl_pushPart_mem (cfg : Cfg) (c : Call) (mu : Nat) (m : Mgr) (k : Nat) :
    ((List.range k).foldl (pushPart cfg c mu) m).mem = m.mem := by
  induction k with
  | zero => rfl
  | succ k ih => rw [List.range_succ, List.foldl_append]; exact ih

theorem dpdkPushPull_cpubuff (cfg : Cfg) (m : Mgr) (c : Call) (hc : cmdOf c = TENSOR_COMM)
    (hle : parts cfg c ≤ DPDK_KEY_TOTAL) {p : Nat} (hp : p < parts cfg c) :
    (dpdkPushPull cfg m c).cpubuffTable ((m.dpdkKey + p) % DPDK_KEY_TOTAL) =
      some ⟨c.data.buf, c.data.off + p * bound cfg⟩ :=
  foldl_pushPart_cpubuff cfg c m.currMutexIdx { m with
    currMutexIdx := (m.currMutexIdx + 1) % DPDK_KEY_TOTAL
    tensorKeyPartTotal := Function.update m.tensorKeyPartTotal m.currMutexIdx (parts cfg c)
    tensorKeyPartFinish := Function.update m.tensorKeyPartFinish m.currMutexIdx 0 } hle hc hp

theorem dpdkPushPull_cpubuff_other (cfg : Cfg) (m : Mgr) (c : Call) {key : Nat}
    (hkey : ∀ j < parts cfg c, key ≠ (m.dpdkKey + j) % DPDK_KEY_TOTAL) :
    (dpdkPushPull cfg m c).cpubuffTable key = m.cpubuffTable key :=
  foldl_pushPart_cpubuff_other cfg c m.currMutexIdx { m with
    currMutexIdx := (m.currMutexIdx + 1) % DPDK_KEY_TOTAL
    tensorKeyPartTotal := Function.update m.tensorKeyPartTotal m.currMutexIdx (parts cfg c)
    tensorKeyPartFinish := Function.update m.tensorKeyPartFinish m.currMutexIdx 0 } hkey

theorem dpdkPushPull_mem (cfg : Cfg) (m : Mgr) (c : Call) : (dpdkPushPull cfg m c).mem = m.mem :=
  foldl_pushPart_mem cfg c m.currMutexIdx _ (parts cfg c)

/-- The worker after the call `c`. -/
def called (cfg : Cfg) (x : Wk) (c : Call) : Wk :=
  { x with mgr := dpdkPushPull cfg x.mgr c, calls := x.calls ++ [c] }

theorem length_pieces_eq (h : Completion.Inv cfg x) : (pieces cfg x.calls).length = x.mgr.dpdkKey := by
  rw [← h.tables.drawn, ← pieces_fst, List.length_map]

theorem pending_called {c : Call} {k : Nat} (h : Pending cfg (called cfg x c) k) :
    Pending cfg x k ∨ k = x.calls.length := by
  by_cases hk : k = x.calls.length
  · exact .inr hk
  · refine .inl fun hall => h fun i hi hik => ?_
    simp only [called, owners_append] at hi hik
    rcases Nat.lt_or_ge i (owners cfg x.calls).length with hlt | hge
    · rw [List.getElem?_append_left hlt] at hik
      exact hall i hlt hik
    · rw [List.getElem?_append_right hge, List.getElem?_replicate, Option.ite_none_right_eq_some] at hik
      exact absurd (Option.some.inj hik.2).symm hk

theorem pending_called_of {c : Call} {k : Nat} (h : Pending cfg x k) : Pending cfg (called cfg x c) k := by
  refine fun hall => h fun i hi hik => ?_
  have hown : (owners cfg (called cfg x c).calls)[i]? = some k := by
    rw [called, owners_append, List.getElem?_append_left hi]; exact hik
  exact hall i (List.getElem?_eq_some_iff.mp hown).1 hown

/-- What the call found. -/
def foundBy (x : Wk) (c : Call) : Nat → Byte := fun o => x.mgr.mem c.data.buf (c.data.off + o)

theorem callBytes_foundBy (hl : found.length = x.calls.length) (c : Call) :
    callBytes (found ++ [foundBy x c]) x.calls.length = foundBy x c := by
  rw [callBytes, List.getD_eq_getElem?_getD, ← hl]
  simp

section Called
variable {c : Call} (hb : Buffers cfg x found abandoned) (h : Completion.Inv cfg x)
  (hwin : ∀ i, i ∉ x.closed → x.mgr.dpdkKey + parts cfg c ≤ i + DPDK_KEY_TOTAL)
  (hap : ∀ (k : Nat) (d : Call), x.calls[k]? = some d → Pending cfg x k → Apart d c)
include hb h

omit h in
theorem callBytes_called {k : Nat} {d : Call} (hk : x.calls[k]? = some d) :
    callBytes (found ++ [foundBy x c]) k = callBytes found k :=
  callBytes_append _ (hb.length ▸ (List.getElem?_eq_some_iff.mp hk).1)

include hwin in
theorem table_called {i k p : Nat} {d : Call} (hi : (pieces cfg (x.calls ++ [c]))[i]? = some (k, p))
    (hd : (x.calls ++ [c])[k]? = some d) (hic : i ∉ x.closed) (hcomm : cmdOf d = TENSOR_COMM) :
    (dpdkPushPull cfg x.mgr c).cpubuffTable (i % DPDK_KEY_TOTAL) =
      some ⟨d.data.buf, d.data.off + p * bound cfg⟩ := by
  have hl := length_pieces_eq h
  have hw := hwin i hic
  rcases piece_append hi with hold | ⟨rfl, hp, rfl⟩
  · -- an older open job's key is not drawn again
    have hlt := (List.getElem?_eq_some_iff.mp hold).1
    have hk := owners_lt (owner_of_piece hold)
    rw [List.getElem?_append_left hk] at hd
    rw [dpdkPushPull_cpubuff_other]
    · exact hb.table i k p d hold hd hic hcomm
    · intro j hj
      simp only [DPDK_KEY_TOTAL] at *
      omega
  · rw [List.getElem?_append_right (Nat.le_refl _), Nat.sub_self] at hd
    cases hd
    have hnew := hwin x.mgr.dpdkKey fun hm => by
      have := h.slots.closed_lt _ hm
      have := h.slots.drawn
      omega
    rw [hl]
    exact dpdkPushPull_cpubuff cfg x.mgr c hcomm (by omega) hp

include hwin hap in
theorem Buffers.push : Buffers cfg (called cfg x c) (found ++ [foundBy x c]) abandoned where
  length := by simp [called, hb.length]
  abandoned_closed := hb.abandoned_closed
  table := fun i k p d hi hd hic hcomm => table_called hb h hwin hi hd hic hcomm
  apart := fun k d l e hk hl hpk hpl hne => by
    simp only [called] at hk hl
    rcases getElem?_snoc hk with hk' | ⟨rfl, rfl⟩ <;> rcases getElem?_snoc hl with hl' | ⟨rfl, rfl⟩
    · have hkl := (List.getElem?_eq_some_iff.mp hk').1
      have hll := (List.getElem?_eq_some_iff.mp hl').1
      exact hb.apart k d l e hk' hl' ((pending_called hpk).resolve_right (by omega))
        ((pending_called hpl).resolve_right (by omega)) hne
    · have hkl := (List.getElem?_eq_some_iff.mp hk').1
      exact hap k d hk' ((pending_called hpk).resolve_right (by omega))
    · have hll := (List.getElem?_eq_some_iff.mp hl').1
      exact (hap l e hl' ((pending_called hpl).resolve_right (by omega))).symm
    · exact absurd rfl hne
  sent := fun i k p d y hi hd hy j hj => by
    simp only [called] at hi hd hy
    rcases piece_append hi with hold | ⟨-, -, rfl⟩
    · have hk := owners_lt (owner_of_piece hold)
      rw [List.getElem?_append_left hk] at hd
      rw [callBytes_called hb hd]
      exact hb.sent i k p d y hold hd hy j hj
    · -- a job of the new call is not sent yet
      have hi := (List.getElem?_eq_some_iff.mp hy).1
      have := h.slots.drawn
      rw [length_pieces_eq h] at hi
      omega
  sent_len := hb.sent_len

theorem Kept.push (hk : Kept cfg x found abandoned Done (Pending cfg x)) :
    Kept cfg (called cfg x c) (found ++ [foundBy x c]) abandoned Done (Pending cfg (called cfg x c)) := by
  intro i k p d hi hd hpk
  simp only [called] at hi hd
  have hmem : (called cfg x c).mgr.mem = x.mgr.mem := dpdkPushPull_mem cfg x.mgr c
  rcases piece_append hi with hold | ⟨rfl, hp, rfl⟩
  · have hkl := owners_lt (owner_of_piece hold)
    rw [List.getElem?_append_left hkl] at hd
    obtain ⟨hown, hdone⟩ := hk i k p d hold hd ((pending_called hpk).resolve_right (by omega))
    refine ⟨fun hc j hj => ?_, fun h1 h2 h3 j hj => ?_⟩
    · rw [hmem, callBytes_called hb hd]
      exact hown hc j hj
    · rw [hmem]
      exact hdone h1 h2 h3 j hj
  · rw [List.getElem?_append_right (Nat.le_refl _), Nat.sub_self] at hd
    cases hd
    refine ⟨fun _ j _ => ?_, fun hcl => ?_⟩
    · rw [hmem, callBytes_foundBy hb.length]
      simp only [partByte, foundBy, Nat.add_assoc]
    · have := h.slots.closed_lt _ hcl
      have := h.slots.drawn
      have := length_pieces_eq h
      omega

end Called

/-! ### Sends -/

/-- The packet of a job holds the bytes of its part. -/
theorem frameOf_part (hcomp : cfg.useCompression = true) (payload : P4mlhdr) (m : Mgr) (c : Call) (key p : Nat)
    {j : Nat} (hj : j < partLen cfg c p) :
    (frameOf cfg payload m (jobAt cfg c key (p * bound cfg))).msg.p4mlHdrs.vector j =
      partByte cfg m.mem c p j := by
  have hb : bound cfg = DPDK_ELEMENT_NUM := if_pos hcomp
  have hcl : copyLen cfg (partLen cfg c p) = partLen cfg c p := by
    rw [copyLen, if_pos hcomp, partLen, hb]
    omega
  rw [frameOf_vector, if_pos]
  · rfl
  · have hlen : (jobAt cfg c key (p * bound cfg)).len = partLen cfg c p := rfl
    rw [mem_copied, hlen, hcl]
    omega

section Tx
variable {payload : P4mlhdr} (hs : WorkerJobs.step cfg x (.tx payload) = some x')
include hs

theorem tx_same : x'.calls = x.calls ∧ x'.closed = x.closed ∧ x'.mgr.mem = x.mgr.mem ∧
    x'.mgr.cpubuffTable = x.mgr.cpubuffTable := by
  obtain ⟨job, rest, -, -, rfl⟩ := step_tx hs
  exact ⟨rfl, rfl, rfl, rfl⟩

theorem Kept.tx {P : Nat → Prop} (hk : Kept cfg x found abandoned Done P) :
    Kept cfg x' found abandoned Done P := by
  obtain ⟨hcalls, hclosed, hmem, -⟩ := tx_same hs
  intro i k p c hi hc hpk
  rw [hcalls] at hi hc
  obtain ⟨hown, hdone⟩ := hk i k p c hi hc hpk
  exact ⟨by rwa [hclosed, hmem], by rwa [hclosed, hmem]⟩

theorem Buffers.tx (hcomp : cfg.useCompression = true) (hb : Buffers cfg x found abandoned)
    (h : Completion.Inv cfg x) (hj : Jobs cfg x)
    (hk : Kept cfg x found abandoned Done (Pending cfg x)) : Buffers cfg x' found abandoned := by
  obtain ⟨hcalls, hclosed, -, htab⟩ := tx_same hs
  have hpend : ∀ k, Pending cfg x' k ↔ Pending cfg x k := fun k => by rw [Pending, Pending, hcalls, hclosed]
  obtain ⟨length, abandoned_closed, table, apart, sent, sent_len⟩ := hb
  refine ⟨by rwa [hcalls], by rwa [hclosed], by rwa [hcalls, hclosed, htab], ?_, ?_, ?_⟩
  · simp only [hcalls, hpend]; exact apart
  · intro i k p c y hi hc hy j hjl
    rw [hcalls] at hi hc
    obtain ⟨job, rest, hq, -, rfl⟩ := step_tx hs
    rcases getElem?_snoc hy with hy | ⟨rfl, rfl⟩
    · exact sent i k p c y hi hc hy j hjl
    · -- the job at the head of the queue: it is not closed, so its part is as the call found it
      have hjob : (jobsFrom cfg 0 x.calls)[x.sent.length]? = some job := by
        rw [← hj, List.getElem?_append_right (by simp), hq]
        simp
      obtain ⟨d, hd, -, hjob'⟩ := job_of_piece hi
      rw [hjob] at hjob'
      rw [hc] at hd
      cases hd
      have hopen : x.sent.length ∉ x.closed := fun hm => Nat.lt_irrefl _ (h.slots.closed_lt _ hm)
      have hown := (hk _ k p c hi hc (pending_of_open (owner_of_piece hi) hopen)).own
        (fun hm => absurd hm hopen) j hjl
      rw [Option.some.inj hjob', frameOf_part hcomp payload x.mgr c _ p hjl, hown]
  · obtain ⟨job, rest, -, -, rfl⟩ := step_tx hs
    intro y hy
    rcases List.mem_append.mp hy with hy | hy
    · exact sent_len y hy
    · rw [List.mem_singleton.mp hy]; rfl

end Tx

/-! ### Replies, resets and host writes -/

/-- An accepted reply: the job closes, and memory is written if it is a gradient. -/
theorem receive_mem (cfg : Cfg) (h : Slots x) {i : Nat} {y : Job × Frame} {f : Frame}
    (hy : x.sent[i]? = some y) (hf : AnswerTo y.2 f) (ha : RxAccepts x.mgr f) :
    (x.receive cfg i f).mgr.mem =
      if cfg.noCpubuffCopy = false ∧ y.1.cmd = TENSOR_COMM then (copyBack cfg x.mgr f.msg).mem else x.mgr.mem := by
  have hp := h.packet i y hy
  have hcmd : f.msg.cmd = y.1.cmd := hf.2.2.2.trans hp.cmd
  simp only [Wk.receive, rxThread_eq, if_pos ha, handleReply, hcmd, if_neg hp.job.cmd, finishPart]
  split
  · unfold copyBack
    cases x.mgr.cpubuffTable f.msg.key <;> rfl
  · rfl

/-- Writing one part leaves the others alone. -/
theorem partByte_write {mem : Nat → Nat → Byte} {c d : Call} {p q j n : Nat} {b : Nat → Byte}
    (hj : j < partLen cfg c p) (hn : n ≤ partLen cfg d q)
    (hne : Apart c d ∨ c = d ∧ p ≠ q) :
    partByte cfg (Function.update mem d.data.buf fun o =>
      if d.data.off + q * bound cfg ≤ o ∧ o < d.data.off + q * bound cfg + n then
        b (o - (d.data.off + q * bound cfg)) else mem d.data.buf o) c p j = partByte cfg mem c p j := by
  unfold partLen at hj hn
  have hout : ¬ (c.data.buf = d.data.buf ∧ d.data.off + q * bound cfg ≤ c.data.off + p * bound cfg + j ∧
      c.data.off + p * bound cfg + j < d.data.off + q * bound cfg + n) := by
    rintro ⟨hbuf, h1, h2⟩
    rcases hne with (hne | hne | hne) | ⟨rfl, hpq⟩
    · exact hne hbuf
    · omega
    · omega
    · -- parts of one call start `bound` apart
      rcases Nat.lt_or_gt_of_ne hpq with hlt | hlt
      · have : (p + 1) * bound cfg ≤ q * bound cfg := Nat.mul_le_mul_right _ hlt
        rw [Nat.add_mul, Nat.one_mul] at this
        omega
      · have : (q + 1) * bound cfg ≤ p * bound cfg := Nat.mul_le_mul_right _ hlt
        rw [Nat.add_mul, Nat.one_mul] at this
        omega
  unfold partByte
  by_cases hbuf : c.data.buf = d.data.buf
  · rw [hbuf, Function.update_self, if_neg fun hin => hout ⟨hbuf, hin⟩]
  · rw [Function.update_of_ne hbuf]

theorem Kept.receive (hcomp : cfg.useCompression = true) (hb : Buffers cfg x found abandoned)
    (h : Slots x) (hj : Jobs cfg x) (hk : Kept cfg x found abandoned Done (Pending cfg x)) {i : Nat}
    {y : Job × Frame} {f : Frame} (hy : x.sent[i]? = some y) (hf : AnswerTo y.2 f) (ha : RxAccepts x.mgr f)
    (ho : i ∉ x.closed) (hlen : f.msg.len = y.1.len)
    (hdone : y.1.cmd = TENSOR_COMM → ∀ j < y.1.len, Done i j (f.msg.p4mlHdrs.vector j)) :
    Kept cfg (x.receive cfg i f) found abandoned Done (Pending cfg x) := by
  obtain ⟨k₀, p₀, c₀, hi₀, hc₀, -, hy₁⟩ := piece_of_job (hj.sent hy)
  have hcmd₀ : y.1.cmd = cmdOf c₀ := by rw [hy₁]; rfl
  have hmem : (x.receive cfg i f).mgr.mem =
      if Copied cfg c₀ then (copyBack cfg x.mgr f.msg).mem else x.mgr.mem := by
    rw [receive_mem cfg h hy hf ha, hcmd₀]
    rfl
  have hlen₀ : y.1.len = partLen cfg c₀ p₀ := by rw [hy₁]; rfl
  have hclosed : (x.receive cfg i f).closed = x.closed ++ [i] := if_pos ha
  have hab : i ∉ abandoned := fun hm => ho (hb.abandoned_closed i hm)
  -- where a gradient is written
  have hwrite : Copied cfg c₀ → (x.receive cfg i f).mgr.mem =
      Function.update x.mgr.mem c₀.data.buf fun o =>
        if c₀.data.off + p₀ * bound cfg ≤ o ∧ o < c₀.data.off + p₀ * bound cfg + partLen cfg c₀ p₀ then
          f.msg.p4mlHdrs.vector (o - (c₀.data.off + p₀ * bound cfg)) else x.mgr.mem c₀.data.buf o := by
    intro hcopy
    have hkey : f.msg.key = i % DPDK_KEY_TOTAL := hf.2.2.1.trans (h.packet i y hy).key
    rw [hmem, if_pos hcopy, copyBack, hkey, hb.table i k₀ p₀ c₀ hi₀ hc₀ ho hcopy.2, hcomp, if_pos rfl,
      hlen, hlen₀]
  intro l k p c hl hc hpk
  have hl' : (pieces cfg x.calls)[l]? = some (k, p) := hl
  have hc' : x.calls[k]? = some c := hc
  obtain ⟨hown, hkdone⟩ := hk l k p c hl' hc' hpk
  by_cases hli : l = i
  · subst hli
    rw [hi₀] at hl'
    cases hl'
    rw [hc₀] at hc'
    cases hc'
    refine ⟨fun hcl j hlt => ?_, fun _ _ hcopy j hlt => ?_⟩
    · have hne := (hcl (by rw [hclosed]; simp)).resolve_left hab
      rw [hmem, if_neg hne]
      exact hown (fun hm => absurd hm ho) j hlt
    · have hat : partByte cfg (x.receive cfg l f).mgr.mem c₀ p₀ j = f.msg.p4mlHdrs.vector j := by
        rw [partByte, hwrite hcopy, Function.update_self, if_pos (by omega), Nat.add_sub_cancel_left]
      rw [hat]
      exact hdone (hcmd₀ ▸ hcopy.2) j (hlen₀ ▸ hlt)
  · -- another part: it is not written
    have hbyte : ∀ j < partLen cfg c p,
        partByte cfg (x.receive cfg i f).mgr.mem c p j = partByte cfg x.mgr.mem c p j := by
      intro j hlt
      by_cases hcopy : Copied cfg c₀
      · rw [hwrite hcopy]
        refine partByte_write hlt (Nat.le_refl _) ?_
        by_cases hkk : k = k₀
        · subst hkk
          rw [hc₀] at hc'
          refine .inr ⟨(Option.some.inj hc').symm, fun hpp => hli ?_⟩
          rw [hpp] at hl'
          exact (List.getElem?_inj (List.getElem?_eq_some_iff.mp hl').1 (pieces_nodup cfg x.calls)).mp
            (hl'.trans hi₀.symm)
        · exact .inl (hb.apart k c k₀ c₀ hc' hc₀ hpk (pending_of_open (owner_of_piece hi₀) ho) hkk)
      · rw [hmem, if_neg hcopy]
    have hcl : l ∈ (x.receive cfg i f).closed ↔ l ∈ x.closed := by rw [hclosed]; simp [hli]
    refine ⟨fun hcl' j hlt => ?_, fun h1 h2 h3 j hlt => ?_⟩
    · rw [hbyte j hlt]
      exact hown (fun hm => hcl' (hcl.mpr hm)) j hlt
    · rw [hbyte j hlt]
      exact hkdone (hcl.mp h1) h2 h3 j hlt

/-- Jobs are closed; calls, packets and the buffer table stay. -/
theorem Buffers.closing (hb : Buffers cfg x found abandoned) {abandoned' : List Nat}
    (hcalls : x'.calls = x.calls) (hsent : x'.sent = x.sent)
    (htab : x'.mgr.cpubuffTable = x.mgr.cpubuffTable) (hsub : ∀ i ∈ x.closed, i ∈ x'.closed)
    (hab : ∀ i ∈ abandoned', i ∈ x'.closed) : Buffers cfg x' found abandoned' := by
  have hpend : ∀ k, Pending cfg x' k → Pending cfg x k := fun k hp hall => by
    rw [Pending, hcalls] at hp
    exact hp fun i hi hik => hsub i (hall i hi hik)
  obtain ⟨length, -, table, apart, sent, sent_len⟩ := hb
  refine ⟨by rwa [hcalls], hab, ?_, ?_, by rwa [hcalls, hsent], by rwa [hsent]⟩
  · rw [hcalls, htab]
    exact fun i k p c hi hc hic => table i k p c hi hc fun hm => hic (hsub i hm)
  · rw [hcalls]
    exact fun k c l d hc hd hk hl => apart k c l d hc hd (hpend k hk) (hpend l hl)

/-- What `Reset` leaves alone, and what it closes. -/
theorem Closes.same {is : List Nat} (hc : Closes x is x') : x'.mgr.mem = x.mgr.mem ∧
    x'.mgr.cpubuffTable = x.mgr.cpubuffTable ∧ x'.closed = x.closed ++ is := by
  induction hc with
  | nil => simp
  | cons _ _ ih =>
    obtain ⟨h1, h2, h3⟩ := ih
    exact ⟨h1, h2, by rw [h3]; simp [Wk.close]⟩

theorem Closes.notMem {is : List Nat} (hc : Closes x is x') : ∀ i ∈ is, i ∉ x.closed := by
  induction hc with
  | nil => simp
  | @cons w _ j _ ho _ ih =>
    intro i hi
    rcases List.mem_cons.mp hi with rfl | hi
    · exact ho.2
    · exact fun hm => ih i hi (List.mem_append_left [j] hm)

theorem Kept.reset {is : List Nat} {P : Nat → Prop} (hk : Kept cfg x found abandoned Done P)
    (hc : Closes x is x') : Kept cfg x' found (abandoned ++ is) Done P := by
  obtain ⟨hmem, -, hclosed⟩ := Closes.same hc
  have hcalls := hc.sameJobs.calls
  intro i k p c hi hcall hpk
  rw [hcalls] at hi hcall
  obtain ⟨hown, hdone⟩ := hk i k p c hi hcall hpk
  rw [← hmem] at hown hdone
  refine ⟨fun hcl => hown fun hm => ?_, fun h1 h2 => ?_⟩
  · rcases hcl (by rw [hclosed]; exact List.mem_append_left _ hm) with hm' | hm'
    · rcases List.mem_append.mp hm' with hm' | hm'
      · exact .inl hm'
      · exact absurd hm (Closes.notMem hc i hm')
    · exact .inr hm'
  · rw [List.mem_append, not_or] at h2
    rw [hclosed, List.mem_append] at h1
    exact hdone (h1.resolve_right h2.2) h2.1

/-- Host writes that spare the buffers of the calls `P`. -/
theorem Kept.host {P : Nat → Prop} (hk : Kept cfg x found abandoned Done P) {mem : Nat → Nat → Byte}
    (hm : ∀ (k : Nat) (c : Call), x.calls[k]? = some c → P k → ∀ o < c.len,
      mem c.data.buf (c.data.off + o) = x.mgr.mem c.data.buf (c.data.off + o)) :
    Kept cfg { x with mgr := { x.mgr with mem := mem } } found abandoned Done P := by
  intro i k p c hi hc hpk
  have hbyte : ∀ j < partLen cfg c p, partByte cfg mem c p j = partByte cfg x.mgr.mem c p j := by
    intro j hlt
    unfold partLen at hlt
    have := hm k c hc hpk (p * bound cfg + j) (by omega)
    rwa [← Nat.add_assoc] at this
  obtain ⟨hown, hdone⟩ := hk i k p c hi hc hpk
  refine ⟨fun hcl j hlt => ?_, fun h1 h2 h3 j hlt => ?_⟩
  · exact (hbyte j hlt).trans (hown hcl j hlt)
  · exact (congrArg (Done i j) (hbyte j hlt)).mpr (hdone h1 h2 h3 j hlt)

end Steps
end Inca.L3.WorkerBuffers
