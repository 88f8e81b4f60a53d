import Inca.L1Encoding.DpdkLayout
import Inca.L2Machine.Lanes

/-!
# The `NEW_INCA` build: gradients as table indices, two to a byte

With `NEW_INCA` a gradient is a 4-bit index. `DPDKPushPull` packs the
indices of a chunk in place, the packet carries half as many bytes, and the
software parameter server looks every index up in `recv_table` while it
adds. Its `process_data` reads 16 bits in network order, takes the four
nibbles from the low end and shifts them into a 32-bit word, so that the
word read back as bytes has the values in the order of the indices.

* `shiftValues_apply`: the packing loop never reads a byte it has written.
* `rxThread_eq`: the server on a packet of indices is the server of the
  other builds on the decoded packet (`entryData_eq`).
* `index_sum`: one round of `n ≤ 256` workers is answered once, with the
  sums of the table values. Behind a short chunk the packet carries what its
  buffer held before; these lanes are above the lanes of the chunk, and
  their carries leave the word.
* `index_counterexample`: 257 workers.

`p4mlhdr_index` and `IndexMessage` differ from `p4mlhdr` and `TestMessage`
in the type of `vector` only, which is a byte array here.
-/
namespace Inca.L2.NewInca
open Inca.L1.DpdkPkt Inca.L1.DpdkLayout Inca.L2.AggSlot Inca.L2.ParameterServer Inca.L2.Lanes

/-! ## The worker -/

/-- mirrors byteps/byteps/common/dpdk/client/dpdk_manager.cc:852-861 -/
def shiftValues (jobLen : Nat) (indexData : Nat → Byte) : Nat → Byte :=
  let packed := (List.range (jobLen / 2)).foldl
    (fun d i => Function.update d i (d (2 * i) * 16#8 + d (2 * i + 1))) indexData
  if jobLen % 2 = 1 then Function.update packed (jobLen / 2) (packed (jobLen - 1) * 16#8) else packed

/-- mirrors byteps/byteps/common/dpdk/common/dpdk_pkt.h:190-241 (`NEW_INCA`, `SW_PS`) -/
def assembleDpdkP4mlHdrs (payload : P4mlhdr) (workerId : Nat) (numWorker : BitVec 8)
    (roundNum : BitVec 32) (inputData : Option (Nat → Byte)) (key len : Nat) : P4mlhdr :=
  let hdr := gradHdr true payload workerId numWorker roundNum key
  match inputData with
  | none => hdr
  | some data => { hdr with vector := memcpy hdr.vector data ((min len DPDK_ELEMENT_NUM + 1) / 2) }

/-- A worker of a round: what its packet's buffer held before, its number, and the indices of
its chunk. -/
structure Sender where
  payload : P4mlhdr
  workerId : Nat
  indexData : Nat → Byte

/-- The packet of a chunk.
mirrors byteps/byteps/common/dpdk/client/dpdk_manager.cc:409-444 -/
def Sender.frame (w : Sender) (n : Nat) (roundNum : BitVec 32) (key len : Nat) : Frame where
  etherType := 0x0c00#16
  msg :=
    { p4mlHdrs := assembleDpdkP4mlHdrs w.payload w.workerId (BitVec.ofNat 8 n) roundNum
        (some (shiftValues len w.indexData)) key len
      key := key
      cmd := TENSOR_COMM
      len := len
      shutdown := false }

/-! ## The server -/

/-- mirrors byteps/byteps/common/dpdk/server/ParameterServer.cc:395 -/
def recvTable : List Byte := [0, 3, 5, 7, 9, 11, 13, 14, 16, 17, 19, 21, 23, 25, 27, 30]

/-- Element `i` of an array of `uint16_t` on a little-endian host. -/
def leHalf (b : Nat → Byte) (i : Nat) : BitVec 16 := b (2 * i + 1) ++ b (2 * i)

/-- mirrors byteps/byteps/common/dpdk/server/ParameterServer.cc:400-406; `ntohs` is the same swap
of two bytes as `htons`. -/
def entryData (vector : Nat → Byte) (i : Nat) : Word :=
  ((List.range 4).foldl (fun (s : Word × BitVec 16) _ =>
    (s.1 <<< 8 ||| (recvTable.getD (s.2 % 16#16).toNat 0).setWidth 32, s.2 / 16#16))
    (0#32, htons (leHalf vector i))).1

/-- mirrors byteps/byteps/common/dpdk/server/ParameterServer.cc:393-418 -/
def processData (st : Ps) (msg : TestMessage) : Ps :=
  let agtrIdx := msg.p4mlHdrs.agtr
  let entry := entryData msg.p4mlHdrs.vector
  if st.receiveCount agtrIdx = 1#8 then
    { st with dataSlots := fun i => if i < MAX_ENTRIES_PER_PACKET then
        Function.update (st.dataSlots i) agtrIdx (entry i) else st.dataSlots i }
  else
    { st with dataSlots := fun i => if i < MAX_ENTRIES_PER_PACKET then
        Function.update (st.dataSlots i) agtrIdx (st.dataSlots i agtrIdx + entry i)
        else st.dataSlots i }

/-- mirrors byteps/byteps/common/dpdk/server/ParameterServer.cc:567-596 -/
def aggregate (st : Ps) (msg : TestMessage) : Ps :=
  let st := checkRoundNum st msg.p4mlHdrs
  if msg.cmd = TENSOR_COMM then processData st msg else st

/-- mirrors byteps/byteps/common/dpdk/server/ParameterServer.cc:559-616 -/
def handle (n : Nat) (st : Ps) (msg : TestMessage) : Ps × Option Frame :=
  let h := msg.p4mlHdrs
  if h.roundNum < st.roundNumbers h.agtr then (st, none)
  else
    let st := aggregate st msg
    if st.receiveCount h.agtr = h.numWorker then
      let st := { st with bitmap := Function.update st.bitmap h.agtr 0 }
      (st, some (broadcastPacket n st msg))
    else
      ({ st with bitmap := Function.update st.bitmap h.agtr (st.bitmap h.agtr ||| h.bitmap) }, none)

/-- mirrors byteps/byteps/common/dpdk/server/ParameterServer.cc:526-617, one received packet -/
def rxThread (n : Nat) (st : Ps) (f : Frame) : Ps × Option Frame :=
  if f.msg.shutdown then ({ st with shouldShutdown := true }, none)
  else if (f.msg.cmd ≠ TENSOR_COMM ∧ f.msg.cmd ≠ TENSOR_NORM ∧ f.msg.cmd ≠ TENSOR_INIT) ∨
      f.etherType ≠ 0x0c00#16 then (st, none)
  else handle n st f.msg

/-- A stream of packets, with the replies. -/
def serve (n : Nat) (st : Ps) : List Frame → Ps × List Frame
  | [] => (st, [])
  | f :: fs =>
    let (st, reply) := rxThread n st f
    let (st, replies) := serve n st fs
    (st, reply.toList ++ replies)

/-! ## Packing -/

theorem packed_apply (v : Nat → Byte) (n j : Nat) :
    (List.range n).foldl (fun d i => Function.update d i (d (2 * i) * 16#8 + d (2 * i + 1))) v j =
      if j < n then v (2 * j) * 16#8 + v (2 * j + 1) else v j := by
  induction n generalizing j with
  | zero => simp
  | succ n ih =>
    -- round `n` reads at `2 * n` and `2 * n + 1`, and only the bytes below `n` are written
    rw [List.range_succ, List.foldl_append, List.foldl_cons, List.foldl_nil, ih, ih,
      if_neg (by omega), if_neg (by omega)]
    by_cases hj : j = n
    · subst hj; simp
    · rw [Function.update_of_ne hj, ih]
      exact if_congr (by omega) rfl rfl

/-- Byte `j` of the packed chunk holds the indices `2 * j` and `2 * j + 1`, a missing one as 0. -/
theorem shiftValues_apply (v : Nat → Byte) {len j : Nat} (hj : j < (len + 1) / 2) :
    shiftValues len v j = v (2 * j) * 16#8 + if 2 * j + 1 < len then v (2 * j + 1) else 0#8 := by
  unfold shiftValues
  simp only [packed_apply]
  by_cases hodd : len % 2 = 1
  · rw [if_pos hodd]
    by_cases he : j = len / 2
    · subst he
      rw [Function.update_self, if_neg (by omega), if_neg (by omega), BitVec.add_zero,
        show 2 * (len / 2) = len - 1 by omega]
    · rw [Function.update_of_ne he, packed_apply, if_pos (by omega), if_pos (by omega)]
  · rw [if_neg hodd, packed_apply, if_pos (by omega), if_pos (by omega)]

theorem two_nibbles {a b : Byte} (ha : a.toNat < 16) (hb : b.toNat < 16) :
    (a * 16#8 + b).toNat = a.toNat * 16 + b.toNat := by
  rw [BitVec.toNat_add, BitVec.toNat_mul, show (16#8).toNat = 16 from rfl]
  omega

/-! ## Decoding -/

/-- Nibble `j` of a byte array, the high nibble of a byte first. -/
def nibble (v : Nat → Byte) (j : Nat) : Nat :=
  if j % 2 = 0 then (v (j / 2)).toNat / 16 else (v (j / 2)).toNat % 16

/-- The values a packet of indices stands for. -/
def decoded (v : Nat → Byte) (j : Nat) : Byte := recvTable.getD (nibble v j) 0

theorem htons_leHalf (v : Nat → Byte) (i : Nat) :
    (htons (leHalf v i)).toNat = (v (2 * i)).toNat * 256 + (v (2 * i + 1)).toNat := by
  have h0 := (v (2 * i)).isLt
  have h1 := (v (2 * i + 1)).isLt
  simp only [htons, leHalf, append_toNat, BitVec.extractLsb'_toNat, Nat.shiftRight_eq_div_pow]
  omega

/-- One round of the decoding loop, as long as nothing is shifted out. -/
theorem shift_or_toNat {x : Word} (h : x.toNat < 2 ^ 24) (t : Byte) :
    (x <<< 8 ||| t.setWidth 32).toNat = x.toNat * 2 ^ 8 + t.toNat := by
  have ht := t.isLt
  rw [BitVec.toNat_or, BitVec.toNat_shiftLeft, BitVec.toNat_setWidth, Nat.mod_eq_of_lt (by omega),
    Nat.shiftLeft_eq, Nat.mod_eq_of_lt (by omega), Nat.mul_comm, Nat.two_pow_add_eq_or_of_lt ht]

theorem nibble_high (v : Nat → Byte) (j : Nat) : nibble v (2 * j) = (v j).toNat / 16 := by
  rw [nibble, if_pos (by omega), Nat.mul_div_cancel_left j (by decide)]

theorem nibble_low (v : Nat → Byte) (j : Nat) : nibble v (2 * j + 1) = (v j).toNat % 16 := by
  rw [nibble, if_neg (by omega), show (2 * j + 1) / 2 = j by omega]

/-- What the loop takes from the two bytes of a half word, from the last nibble to the first. -/
theorem htons_nibbles (v : Nat → Byte) (i : Nat) : let x := htons (leHalf v i)
    (x % 16#16).toNat = nibble v (4 * i + 3) ∧ (x / 16#16 % 16#16).toNat = nibble v (4 * i + 2) ∧
    (x / 16#16 / 16#16 % 16#16).toNat = nibble v (4 * i + 1) ∧
    (x / 16#16 / 16#16 / 16#16 % 16#16).toNat = nibble v (4 * i) := by
  have h0 := (v (2 * i)).isLt
  have h1 := (v (2 * i + 1)).isLt
  simp only [BitVec.toNat_umod, BitVec.toNat_udiv, htons_leHalf, BitVec.reduceToNat]
  rw [show 4 * i + 3 = 2 * (2 * i + 1) + 1 by omega, show 4 * i + 2 = 2 * (2 * i + 1) by omega,
    show 4 * i + 1 = 2 * (2 * i) + 1 by omega, show 4 * i = 2 * (2 * i) by omega]
  simp only [nibble_high, nibble_low]
  omega

/-- The word of four indices is the word of their values. -/
theorem entryData_eq (v : Nat → Byte) (i : Nat) : entryData v i = leWord (decoded v) i := by
  obtain ⟨n3, n2, n1, n0⟩ := htons_nibbles v i
  have t0 := (decoded v (4 * i)).isLt
  have t1 := (decoded v (4 * i + 1)).isLt
  have t2 := (decoded v (4 * i + 2)).isLt
  have t3 := (decoded v (4 * i + 3)).isLt
  have hd : ∀ j, recvTable.getD (nibble v j) 0 = decoded v j := fun _ => rfl
  apply BitVec.eq_of_toNat_eq
  simp only [entryData, show List.range 4 = [0, 1, 2, 3] from rfl, List.foldl_cons, List.foldl_nil,
    n0, n1, n2, n3, hd]
  have e3 := shift_or_toNat (x := 0#32) (by decide) (decoded v (4 * i + 3))
  have e2 := shift_or_toNat (by rw [e3]; simp; omega) (decoded v (4 * i + 2))
  have e1 := shift_or_toNat (by rw [e2, e3]; simp; omega) (decoded v (4 * i + 1))
  have e0 := shift_or_toNat (by rw [e1, e2, e3]; simp; omega) (decoded v (4 * i))
  rw [e0, e1, e2, e3, leWord_toNat, BitVec.toNat_zero]
  omega

/-! ## The server on the decoded packets -/

def decode (f : Frame) : Frame :=
  { f with msg := { f.msg with p4mlHdrs :=
      { f.msg.p4mlHdrs with vector := decoded f.msg.p4mlHdrs.vector } } }

/-- **Decoding.** The server on a packet of indices is the server of the other builds on the
values. -/
theorem rxThread_eq (n : Nat) (st : Ps) (f : Frame) :
    rxThread n st f = ParameterServer.rxThread n st (decode f) := by
  have hp : ∀ st, processData st f.msg = ParameterServer.processData st (decode f).msg := by
    intro st
    unfold processData ParameterServer.processData
    simp only [funext (entryData_eq f.msg.p4mlHdrs.vector)]
    rfl
  have ha : aggregate st f.msg = ParameterServer.aggregate st (decode f).msg := by
    simp only [aggregate, ParameterServer.aggregate, hp]
    rfl
  unfold rxThread ParameterServer.rxThread handle ParameterServer.handle
  rw [ha]
  rfl

theorem serve_fst (n : Nat) (st : Ps) (fs : List Frame) :
    (serve n st fs).1 = ParameterServer.serve n st (fs.map decode) := by
  induction fs generalizing st with
  | nil => rfl
  | cons f fs ih =>
    rw [serve, rxThread_eq]
    exact ih _

theorem serve_cons (n : Nat) (st : Ps) (f : Frame) (fs : List Frame) :
    (serve n st (f :: fs)).2 = (rxThread n st f).2.toList ++ (serve n (rxThread n st f).1 fs).2 := rfl

theorem serve_append (n : Nat) (st : Ps) (fs : List Frame) (f : Frame) :
    (serve n st (fs ++ [f])).2 =
      (serve n st fs).2 ++ (rxThread n (serve n st fs).1 f).2.toList := by
  induction fs generalizing st with
  | nil => simp [serve]
  | cons g fs ih => simp only [List.cons_append, serve, ih, List.append_assoc]

/-! ## One round -/

/-- Sum of the table values of index `j` over the workers. -/
def valueSum (ws : List Sender) (j : Nat) : Nat :=
  (ws.map fun w => (recvTable.getD (w.indexData j).toNat 0).toNat).sum

section Round
variable {n key len : Nat} {r : BitVec 32}

theorem frame_roundOf (w : Sender) : Slot.RoundOf r n (pkt (decode (w.frame n r key len)).msg) :=
  ⟨rfl, rfl, rfl⟩

/-- The first `len` values of a packet are those of the worker's indices. -/
theorem frame_vector {w : Sender} (hlen : len ≤ DPDK_ELEMENT_NUM)
    (hw : ∀ j < len, (w.indexData j).toNat < 16) {j : Nat} (hj : j < len) :
    (decode (w.frame n r key len)).msg.p4mlHdrs.vector j = recvTable.getD (w.indexData j).toNat 0 := by
  have hvec : (w.frame n r key len).msg.p4mlHdrs.vector (j / 2) =
      shiftValues len w.indexData (j / 2) := by
    refine if_pos ?_
    rw [Nat.min_eq_left hlen]; omega
  have hnib : nibble (w.frame n r key len).msg.p4mlHdrs.vector j = (w.indexData j).toNat := by
    have hj' := hw j hj
    have he := hw (2 * (j / 2)) (by omega)
    rw [nibble, hvec, shiftValues_apply _ (by omega)]
    have ho : (if 2 * (j / 2) + 1 < len then w.indexData (2 * (j / 2) + 1) else 0#8).toNat < 16 := by
      split
      · exact hw _ ‹_›
      · decide
    rw [two_nibbles he ho]
    by_cases hpar : j % 2 = 0
    · have hj2 : 2 * (j / 2) = j := by omega
      rw [if_pos hpar]
      rw [hj2] at ho ⊢
      omega
    · rw [if_neg hpar, if_pos (by omega), show 2 * (j / 2) + 1 = j by omega]
      omega
  rw [← hnib]
  rfl

variable (N : Nat) (st : Ps)

theorem serve_run (ws : List Sender) :
    (serve N st (ws.map (·.frame n r key len))).1.slot (BitVec.ofNat 16 (key % MAX_AGTR_COUNT)) =
      (st.slot (BitVec.ofNat 16 (key % MAX_AGTR_COUNT))).run MAX_ENTRIES_PER_PACKET (· + ·)
        (ws.map fun w => pkt (decode (w.frame n r key len)).msg) := by
  rw [serve_fst, serve_slot, List.map_map, List.map_map]
  · rfl
  · intro f hf
    simp only [List.map_map, List.mem_map] at hf
    obtain ⟨w, -, rfl⟩ := hf
    exact ⟨⟨rfl, .inl rfl, rfl⟩, rfl⟩

variable {st} (hst : (st.slot (BitVec.ofNat 16 (key % MAX_AGTR_COUNT))).Begins r n) (h256 : n ≤ 256)
include hst h256

/-- The server answers the packet that completes the round. -/
theorem rxThread_reply (len : Nat) {ws : List Sender} (hws : ws.length < n) (w : Sender) :
    (rxThread N (serve N st (ws.map (·.frame n r key len))).1 (w.frame n r key len)).2 =
      if ws.length + 1 = n then
        some (broadcastPacket N (serve N st ((ws ++ [w]).map (·.frame n r key len))).1
          (decode (w.frame n r key len)).msg)
      else none := by
  have hc := Slot.run_round_completes MAX_ENTRIES_PER_PACKET (· + ·) hst
    (ws.map fun w => pkt (decode (w.frame n r key len)).msg) (pkt (decode (w.frame n r key len)).msg)
    (fun p hp => by obtain ⟨u, -, rfl⟩ := List.mem_map.mp hp; exact frame_roundOf u)
    (frame_roundOf w) rfl (by simpa using hws) h256
  have hacc : accepts (decode (w.frame n r key len)) := ⟨rfl, .inl rfl, rfl⟩
  rw [← serve_run N st, List.length_map] at hc
  have happ : (serve N st ((ws ++ [w]).map (·.frame n r key len))).1 =
      (ParameterServer.handle N (serve N st (ws.map (·.frame n r key len))).1
        (decode (w.frame n r key len)).msg).1 := by
    rw [serve_fst, serve_fst, List.map_append, List.map_append, List.map_singleton, List.map_singleton,
      ParameterServer.serve_append, ParameterServer.rxThread_eq _ _ hacc]
  rw [rxThread_eq, ParameterServer.rxThread_eq _ _ hacc, handle_reply, happ]
  exact if_congr hc rfl rfl

/-- No packet before the last one is answered. -/
theorem serve_replies_nil {ws : List Sender} (hws : ws.length < n) :
    (serve N st (ws.map (·.frame n r key len))).2 = [] := by
  induction ws using List.reverseRecOn with
  | nil => rfl
  | append_singleton ws w ih =>
    rw [List.length_append, List.length_singleton] at hws
    rw [List.map_append, List.map_singleton, serve_append, ih (by omega),
      rxThread_reply N hst h256 _ (by omega), if_neg (by omega)]
    rfl

theorem serve_replies {ws : List Sender} (hws : ws.length + 1 = n) (w : Sender) :
    (serve N st ((ws ++ [w]).map (·.frame n r key len))).2 =
      [broadcastPacket N (serve N st ((ws ++ [w]).map (·.frame n r key len))).1
        (decode (w.frame n r key len)).msg] := by
  have hrep := rxThread_reply N hst h256 len (show ws.length < n by omega) w
  rw [if_pos hws] at hrep
  rw [List.map_append, List.map_singleton] at hrep ⊢
  rw [serve_append, serve_replies_nil N hst h256 (by omega), hrep]
  rfl

/-- A round is answered once, with the sums of the values. -/
theorem round_reply (h0 : 1 ≤ n) (hlen : len ≤ DPDK_ELEMENT_NUM) {ws : List Sender}
    (hn : ws.length = n) (hidx : ∀ w ∈ ws, ∀ j < len, (w.indexData j).toNat < 16)
    (hsum : ∀ j < len, valueSum ws j ≤ 255) :
    ∃ reply, (serve N st (ws.map (·.frame n r key len))).2 = [reply] ∧
      ∀ j < len, (reply.msg.p4mlHdrs.vector j).toNat = valueSum ws j := by
  obtain ⟨us, w, rfl⟩ : ∃ us w, ws = us ++ [w] :=
    (List.eq_nil_or_concat' ws).resolve_left (by rintro rfl; simp at hn; omega)
  have hn' : us.length + 1 = n := by simpa using hn
  refine ⟨_, serve_replies N hst h256 hn' w, ?_⟩
  have hlane : ∀ j < len, laneSum ((us ++ [w]).map fun u =>
      (decode (u.frame n r key len)).msg.p4mlHdrs.vector) j = valueSum (us ++ [w]) j := by
    intro j hj
    rw [laneSum, valueSum, List.map_map]
    refine congrArg List.sum (List.map_congr_left fun u hu => ?_)
    exact congrArg BitVec.toNat (frame_vector hlen (hidx u hu) hj)
  intro j hj
  rw [← hlane j hj]
  refine leByte_low (fun i hi => ?_) (fun j hj => (hlane j hj).trans_le (hsum j hj)) j hj
  -- the words of the slot are the wrapping sums of the decoded words
  have h1024 : len ≤ 1024 := hlen
  have hdata := Slot.run_round_data MAX_ENTRIES_PER_PACKET (· + ·) hst
    ((us ++ [w]).map fun u => pkt (decode (u.frame n r key len)).msg) (by simp)
    (fun p hp => by obtain ⟨u, -, rfl⟩ := List.mem_map.mp hp; exact frame_roundOf u)
    (by rw [List.length_map]; exact hn.le) h256 (show i < 256 by omega)
  rw [← serve_run N st, List.map_map] at hdata
  refine (congrArg BitVec.toNat hdata).trans ?_
  rw [foldWords_add_mod, ← sum_leWord, List.map_map, List.map_map]
  rfl

end Round

/-- **Index sum.** One fresh round of `n ≤ 256` workers, in any order of arrival, with indices
below 16 whose values sum up to at most 255 at every position: the server answers once, with
these sums. -/
theorem index_sum {n key len : Nat} {r : BitVec 32} {st : Ps} (h0 : 1 ≤ n) (h256 : n ≤ 256)
    (hlen : 1 ≤ len ∧ len ≤ DPDK_ELEMENT_NUM) {ws : List Sender} (hn : ws.length = n)
    (hst : (st.slot (BitVec.ofNat 16 (key % MAX_AGTR_COUNT))).Begins r n)
    (hidx : ∀ w ∈ ws, ∀ j < len, (w.indexData j).toNat < 16)
    (hsum : ∀ j < len, valueSum ws j ≤ 255) :
    ∃ reply, (serve n st (ws.map (·.frame n r key len))).2 = [reply] ∧
      ∀ j < len, (reply.msg.p4mlHdrs.vector j).toNat = valueSum ws j :=
  round_reply n hst h256 h0 hlen.2 hn hidx hsum

/-- A worker with the given indices, and 0 behind them. -/
def sender (workerId : Nat) (indices : List Byte) : Sender := ⟨.zero, workerId, (indices.getD · 0)⟩

/-- Two workers with three indices, in round 0 of a server that was just started. -/
theorem index_sum_two :
    let ws := [sender 0 [1, 2, 15], sender 1 [4, 0, 3]]
    ∃ reply, (serve 2 Ps.init (ws.map (·.frame 2 0 7 3))).2 = [reply] ∧
      (List.range 3).map (fun j => (reply.msg.p4mlHdrs.vector j).toNat) = [12, 5, 37] := by
  intro ws
  have hidx : ∀ w ∈ ws, ∀ j < 3, (w.indexData j).toNat < 16 := by decide
  have hst : (Ps.init.slot (BitVec.ofNat 16 (7 % MAX_AGTR_COUNT))).Begins 0 2 := .inr ⟨rfl, .inl rfl⟩
  obtain ⟨reply, hs, hv⟩ := index_sum (by decide) (by decide) (by decide) rfl hst hidx (by decide)
  refine ⟨reply, hs, ?_⟩
  rw [List.map_congr_left fun j hj => hv j (List.mem_range.mp hj)]
  decide

/-- With a `num_worker` of 1 every packet of a round is answered with its own values. -/
theorem serve_alone (N : Nat) {key len : Nat} {r : BitVec 32} (hlen : len ≤ DPDK_ELEMENT_NUM) {st : Ps}
    {ws : List Sender} (hst : (st.slot (BitVec.ofNat 16 (key % MAX_AGTR_COUNT))).Begins r 1)
    (hidx : ∀ w ∈ ws, ∀ j < len, (w.indexData j).toNat < 16) :
    (serve N st (ws.map (·.frame 1 r key len))).2.length = ws.length ∧
    ∀ reply ∈ (serve N st (ws.map (·.frame 1 r key len))).2,
      ∃ w ∈ ws, ∀ j < len, (reply.msg.p4mlHdrs.vector j).toNat = valueSum [w] j := by
  induction ws generalizing st with
  | nil => exact ⟨rfl, fun _ h => absurd h List.not_mem_nil⟩
  | cons w ws ih =>
    have hle : ∀ j < len, valueSum [w] j ≤ 255 := fun j _ => by
      have := (recvTable.getD (w.indexData j).toNat 0).isLt
      rw [valueSum, List.map_singleton, List.sum_singleton]; omega
    have hone : ∀ u ∈ [w], ∀ j < len, (u.indexData j).toNat < 16 := by
      simpa using hidx w List.mem_cons_self
    obtain ⟨reply, hrep, hval⟩ := round_reply N hst (by decide) (by decide) hlen rfl hone hle
    -- the slot has a complete round of one packet, so the next packet begins a round again
    have hnext : ((rxThread N st (w.frame 1 r key len)).1.slot
        (BitVec.ofNat 16 (key % MAX_AGTR_COUNT))).Begins r 1 := by
      have hrun := Slot.run_round MAX_ENTRIES_PER_PACKET (· + ·) hst
        (pkt (decode (w.frame 1 r key len)).msg) [] (frame_roundOf w) (by simp) (by decide) (by decide)
      exact .inr ⟨(congrArg Slot.roundNum (serve_run N st [w])).trans hrun.1,
        .inr ((congrArg Slot.receiveCount (serve_run N st [w])).trans hrun.2.1)⟩
    have hhead : (rxThread N st (w.frame 1 r key len)).2 = some reply := by
      rw [List.map_singleton, serve_cons, serve, List.append_nil] at hrep
      exact Option.toList_eq_singleton_iff.mp hrep
    obtain ⟨hlength, hall⟩ := ih hnext fun u hu => hidx u (List.mem_cons_of_mem _ hu)
    rw [List.map_cons, serve_cons, hhead, Option.toList_some, List.singleton_append]
    refine ⟨congrArg (· + 1) hlength, fun x hx => ?_⟩
    rcases List.mem_cons.mp hx with rfl | hx
    · exact ⟨w, List.mem_cons_self, hval⟩
    · obtain ⟨u, hu, hv⟩ := hall x hx
      exact ⟨u, List.mem_cons_of_mem _ hu, hv⟩

/-- **Counterexample.** 257 workers: the first and the last one send index 1, all others index 0,
so that the sum is 6. `num_worker` is `(uint8_t)257`; every packet is answered alone, with 0
or 3. -/
theorem index_counterexample :
    let ws := (List.range 257).map fun i => sender i [if i = 0 ∨ i = 256 then 1 else 0]
    let replies := (serve 257 Ps.init (ws.map (·.frame 257 1 0 1))).2
    ws.length = 257 ∧ (∀ w ∈ ws, ∀ j, (w.indexData j).toNat < 16) ∧ valueSum ws 0 = 6 ∧
    replies.length = 257 ∧ ∀ reply ∈ replies, (reply.msg.p4mlHdrs.vector 0).toNat ≠ 6 := by
  intro ws replies
  have hidx : ∀ w ∈ ws, ∀ j, (w.indexData j).toNat ≤ 1 := by
    intro w hw j
    obtain ⟨i, -, rfl⟩ := List.mem_map.mp hw
    cases j with
    | zero => exact (by split <;> decide : (if i = 0 ∨ i = 256 then 1#8 else 0#8).toNat ≤ 1)
    | succ j => exact Nat.zero_le 1
  have hval : ∀ w ∈ ws, valueSum [w] 0 ≠ 6 := by
    intro w hw
    have := hidx w hw 0
    rw [valueSum, List.map_singleton, List.sum_singleton]
    rcases Nat.le_one_iff_eq_zero_or_eq_one.mp this with h | h <;> rw [h] <;> decide
  have h16 : ∀ w ∈ ws, ∀ j, (w.indexData j).toNat < 16 := fun w hw j =>
    Nat.lt_of_le_of_lt (hidx w hw j) (by decide)
  -- the packets are those of a round of one worker
  have hrep : replies.length = ws.length ∧ ∀ reply ∈ replies, ∃ w ∈ ws, ∀ j < 1,
      (reply.msg.p4mlHdrs.vector j).toNat = valueSum [w] j :=
    serve_alone 257 (by decide) (.inl (by decide)) fun w hw j _ => h16 w hw j
  have hlength : ws.length = 257 := by simp [ws]
  refine ⟨hlength, h16, by decide +kernel, hrep.1.trans hlength, fun reply hr => ?_⟩
  obtain ⟨w, hw, he⟩ := hrep.2 reply hr
  rw [he 0 (by decide)]
  exact hval w hw

end Inca.L2.NewInca
