import Inca.L1Encoding.DpdkPkt
import Inca.L1Encoding.P4Headers

/-!
# The packet in memory and on the wire (`dpdk/common/dpdk_pkt.h`, `P4/headers.p4`)

A worker of the switch build lays a `TestMessage` out as a packed C struct on
a little-endian host, behind an Ethernet header; the switch reads the same
bytes as `p4ml_h`, `p4ml_agtr_index_h` and `entry_h`, most significant bit
first. `store` is a store to memory, `htonl` and `htons` are the byte swaps
of `<arpa/inet.h>`; a field of the model holds the value before the swap.

* `store_htonl`, `store_htons`: a swapped field is in network order.
* `parse_message`: what the ingress parser makes of any message.
* `parse_assembled`: it reads back what the two assemblers were given.
-/
namespace Inca.L1.DpdkLayout
open Inca.L1.DpdkPkt Inca.L1.P4

/-! ## A little-endian host -/

/-- The low `n` bytes of `v`, least significant first. -/
def leBytes : Nat → Nat → List Byte
  | 0, _ => []
  | n + 1, v => BitVec.ofNat 8 v :: leBytes n (v / 256)

/-- The number that little-endian bytes spell. -/
def leNat : List Byte → Nat
  | [] => 0
  | b :: bs => b.toNat + 256 * leNat bs

theorem leNat_leBytes (n v : Nat) : leNat (leBytes n v) = v % 256 ^ n := by
  induction n generalizing v with
  | zero => simp [leBytes, leNat, Nat.mod_one]
  | succ n ih =>
    rw [leBytes, leNat, ih, BitVec.toNat_ofNat, Nat.pow_succ 256, Nat.mul_comm (256 ^ n), Nat.mod_mul]

@[simp] theorem leBytes_length (n v : Nat) : (leBytes n v).length = n := by
  induction n generalizing v with
  | zero => rfl
  | succ n ih => simp [leBytes, ih]

/-- The bytes of an integer variable of `w` bits. -/
def store (w : Nat) (x : BitVec w) : List Byte := leBytes (w / 8) x.toNat

@[simp] theorem store_length (w : Nat) (x : BitVec w) : (store w x).length = w / 8 := leBytes_length _ _

theorem leNat_store {w : Nat} (hw : 8 ∣ w) (x : BitVec w) : leNat (store w x) = x.toNat := by
  rw [store, leNat_leBytes, pow_div8 hw, Nat.mod_eq_of_lt x.isLt]

def htonl (x : BitVec 32) : BitVec 32 :=
  x.extractLsb' 0 8 ++ x.extractLsb' 8 8 ++ x.extractLsb' 16 8 ++ x.extractLsb' 24 8

def htons (x : BitVec 16) : BitVec 16 := x.extractLsb' 0 8 ++ x.extractLsb' 8 8

theorem leBytes_append (n v : Nat) (b : Byte) :
    leBytes (n + 1) (v * 2 ^ 8 + b.toNat) = b :: leBytes n v := by
  have hb := b.isLt
  rw [leBytes, show (v * 2 ^ 8 + b.toNat) / 256 = v by omega]
  congr 1
  apply BitVec.eq_of_toNat_eq
  rw [BitVec.toNat_ofNat]
  omega

/-- A byte of a word, as `beBytes` writes it. -/
theorem ofNat_div {w : Nat} (x : BitVec w) (k : Nat) :
    BitVec.ofNat 8 (x.toNat / 256 ^ k) = x.extractLsb' (8 * k) 8 := by
  apply BitVec.eq_of_toNat_eq
  rw [BitVec.toNat_ofNat, BitVec.extractLsb'_toNat, Nat.shiftRight_eq_div_pow, Nat.pow_mul]

theorem leBytes_byte (b : Byte) : leBytes 1 b.toNat = [b] := by
  simp [leBytes]

theorem store_htonl (x : BitVec 32) : store 32 (htonl x) = putBE 32 x := by
  simp only [store, htonl, putBE, Nat.reduceDiv, beBytes, ofNat_div, append_toNat, leBytes_append,
    leBytes_byte, Nat.reduceMul]

theorem store_htons (x : BitVec 16) : store 16 (htons x) = putBE 16 x := by
  simp only [store, htons, putBE, Nat.reduceDiv, beBytes, ofNat_div, append_toNat, leBytes_append,
    leBytes_byte, Nat.reduceMul]

/-- A single byte has no order. -/
theorem store_byte (x : BitVec 8) : store 8 x = putBE 8 x := by
  simp [store, putBE, leBytes, beBytes]

/-! ## The structs -/

/-- mirrors byteps/byteps/common/dpdk/common/dpdk_pkt.h:74-89 (`struct p4mlhdr` with `SW_PS`
undefined). Both assemblers set the time stamps to zero. -/
def hdrBytes (h : P4mlhdr) : List Byte :=
  store 32 (htonl h.bitmap) ++ store 8 h.numWorker ++ store 32 (htonl h.roundNum) ++
  store 32 (htonl h.maxInfo) ++ store 32 (htonl h.normInfo) ++ store 8 h.typeAndIndex ++
  store 8 h.recircTimes ++ store 64 0 ++ store 64 0 ++ store 16 (htons h.agtr) ++
  (List.range DPDK_ELEMENT_NUM).map h.vector

/-- The members behind the header.
mirrors byteps/byteps/common/dpdk/common/dpdk_pkt.h:107-118 (`struct TestMessage`, `SW_PS` undefined) -/
def tailBytes (msg : TestMessage) : List Byte :=
  store 64 (BitVec.ofNat 64 msg.key) ++ store 32 (BitVec.ofInt 32 msg.cmd) ++
  store 32 (BitVec.ofNat 32 msg.len)

def messageBytes (msg : TestMessage) : List Byte := hdrBytes msg.p4mlHdrs ++ tailBytes msg

/-- mirrors byteps/byteps/common/dpdk/client/dpdk_manager.cc:449-478: Ethernet header (the
addresses are byte arrays), then the message. -/
def frameBytes (eth : Ethernet) (msg : TestMessage) : List Byte :=
  putBE 48 eth.dstAddr ++ putBE 48 eth.srcAddr ++ store 16 (htons eth.etherType) ++ messageBytes msg

/-! ## Reading the vector as words -/

theorem putBE_beWord (b : Nat → Byte) (i : Nat) :
    putBE 32 (beWord b i) = [b (4 * i), b (4 * i + 1), b (4 * i + 2), b (4 * i + 3)] := by
  have h0 := (b (4 * i)).isLt; have h1 := (b (4 * i + 1)).isLt
  have h2 := (b (4 * i + 2)).isLt; have h3 := (b (4 * i + 3)).isLt
  simp only [putBE, beWord_toNat, Nat.reduceDiv, beBytes, List.cons.injEq, and_true]
  refine ⟨?_, ?_, ?_, ?_⟩ <;> apply BitVec.eq_of_toNat_eq <;> rw [BitVec.toNat_ofNat] <;> omega

/-- The words of an array in network order are its bytes. -/
theorem putWords_beWord (b : Nat → Byte) (n : Nat) :
    putWords ((List.range n).map (beWord b)) = (List.range (4 * n)).map b := by
  induction n with
  | zero => rfl
  | succ n ih =>
    have hw : putWords ((List.range (n + 1)).map (beWord b)) =
        putWords ((List.range n).map (beWord b)) ++ putBE 32 (beWord b n) := by
      simp [putWords, List.range_succ]
    rw [hw, ih, putBE_beWord, show 4 * (n + 1) = 4 * n + 1 + 1 + 1 + 1 by omega]
    simp [List.range_succ]

/-- The vector, split where the parser stops. -/
theorem vector_split (b : Nat → Byte) :
    (List.range DPDK_ELEMENT_NUM).map b =
      putWords ((List.range ENTRY_NUM).map (beWord b)) ++
        (List.range' (4 * ENTRY_NUM) (DPDK_ELEMENT_NUM - 4 * ENTRY_NUM)).map b := by
  have h := @List.range'_append 0 (4 * ENTRY_NUM) (DPDK_ELEMENT_NUM - 4 * ENTRY_NUM) 1
  rw [putWords_beWord, ← List.map_append, List.range_eq_range', List.range_eq_range']
  exact congrArg (List.map b) h.symm

/-! ## Parsing a message -/

/-- A header of the worker as the switch reads it. -/
def switchP4ml (h : P4mlhdr) : P4ml where
  bitmap := h.bitmap
  numWorker := h.numWorker
  roundNum := h.roundNum
  maxInfo := h.maxInfo
  normInfo := h.normInfo
  packetType := h.typeAndIndex.extractLsb' 7 1
  dataIndex := h.typeAndIndex.extractLsb' 6 1
  pad := h.typeAndIndex.extractLsb' 0 6
  recircTime := h.recircTimes
  pad1 := 0
  ingressGlobal := 0
  pad2 := 0
  egressGlobal := 0

/-- What the parser leaves of a message: the vector from word 64 on, key, command and length. -/
def unparsed (msg : TestMessage) : List Byte :=
  (List.range' (4 * ENTRY_NUM) (DPDK_ELEMENT_NUM - 4 * ENTRY_NUM)).map msg.p4mlHdrs.vector ++
    tailBytes msg

/-- The fields of the struct are those of the `p4ml_h`, bit for bit. -/
theorem frameBytes_eq (eth : Ethernet) (msg : TestMessage) :
    frameBytes eth msg =
      ingressDeparser (dpdkHeader eth (switchP4ml msg.p4mlHdrs) msg.p4mlHdrs.agtr
        ((List.range ENTRY_NUM).map (beWord msg.p4mlHdrs.vector))) (unparsed msg) := by
  have hts : store 64 0 = putBE 16 0 ++ putBE 48 0 := by decide
  simp only [frameBytes, messageBytes, hdrBytes, unparsed, ingressDeparser, dpdkHeader, emitOpt,
    emitEthernet, emitP4ml, switchP4ml, store_htonl, store_htons, store_byte, hts, vector_split,
    flags_join, List.append_assoc, List.nil_append]

theorem parse_message (eth : Ethernet) (msg : TestMessage) (ht : eth.etherType = 0x0a00#16) :
    ingressParser (frameBytes eth msg) =
      some (dpdkHeader eth (switchP4ml msg.p4mlHdrs) msg.p4mlHdrs.agtr
        ((List.range ENTRY_NUM).map (beWord msg.p4mlHdrs.vector)), unparsed msg) := by
  rw [frameBytes_eq]
  exact ingressParser_deparse_p4ml _ _ _ _ _ ht (by simp)

/-! ## The two assemblers -/

/-- The bit of a worker, as a number. -/
def workerBit {workerId : Nat} (hw : workerId < 32) : BitVec 32 :=
  BitVec.ofNatLT (2 ^ workerId) (Nat.pow_lt_pow_right (by decide) hw)

theorem one_shiftLeft {workerId : Nat} (hw : workerId < 32) : 1#32 <<< workerId = workerBit hw := by
  have hlt : 2 ^ workerId < 2 ^ 32 := Nat.pow_lt_pow_right (by decide) hw
  apply BitVec.eq_of_toNat_eq
  rw [BitVec.toNat_shiftLeft, Nat.shiftLeft_eq, show (1#32).toNat = 1 from rfl, Nat.one_mul,
    Nat.mod_eq_of_lt hlt]
  rfl

/-- A chunk of at least 256 bytes fills all entries. -/
theorem entries_memcpy (dst data : Nat → Byte) {n : Nat} (hn : 4 * ENTRY_NUM ≤ n) :
    (List.range ENTRY_NUM).map (beWord (memcpy dst data n)) = (List.range ENTRY_NUM).map (beWord data) := by
  refine List.map_congr_left fun i hi => ?_
  have hi := List.mem_range.mp hi
  simp only [ENTRY_NUM] at hi hn
  simp only [beWord, memcpy, show 4 * i < n by omega, show 4 * i + 1 < n by omega,
    show 4 * i + 2 < n by omega, show 4 * i + 3 < n by omega, if_true]

/-- **Layout.** The switch reads back what the assemblers of the switch build were given: of a
gradient packet with at least 256 bytes of data (any more are not looked at), and of a norm
packet. -/
theorem parse_assembled (eth : Ethernet) (ht : eth.etherType = 0x0a00#16) (payload : P4mlhdr)
    {workerId : Nat} (hw : workerId < 32) (numWorker : BitVec 8) (roundNum : BitVec 32) (key : Nat)
    (cmd : Int) (shutdown : Bool) :
    (∀ (data : Nat → Byte) (len : Nat), 4 * ENTRY_NUM ≤ len →
      let hdr := assembleDpdkP4mlHdrs false payload workerId numWorker roundNum (some data) key len
      let msg : TestMessage := ⟨hdr, key, cmd, len, shutdown⟩
      ingressParser (frameBytes eth msg) = some
        ({ ethernet := eth
           p4ml := some
            { bitmap := workerBit hw, numWorker, roundNum, maxInfo := 0
              normInfo := 0, packetType := 0#1, dataIndex := 0, pad := 0, recircTime := 0#8
              pad1 := 0, ingressGlobal := 0, pad2 := 0, egressGlobal := 0 }
           agtrIndex := some (BitVec.ofNat 16 (key % MAX_AGTR_COUNT * CIRC_TIME))
           entries := some ((List.range ENTRY_NUM).map (beWord data)) }, unparsed msg)) ∧
    (∀ (norm : BitVec 32) (len : Nat),
      let hdr := assembleNormPkt false payload workerId numWorker roundNum key norm
      let msg : TestMessage := ⟨hdr, key, cmd, len, shutdown⟩
      ingressParser (frameBytes eth msg) = some
        ({ ethernet := eth
           p4ml := some
            { bitmap := workerBit hw, numWorker, roundNum, maxInfo := 0
              normInfo := norm, packetType := 1#1, dataIndex := 0, pad := 0, recircTime := 3#8
              pad1 := 0, ingressGlobal := 0, pad2 := 0, egressGlobal := 0 }
           agtrIndex := some (BitVec.ofNat 16 (MAX_AGTR_COUNT * CIRC_TIME + key % NORM_SLOT))
           entries := some ((List.range ENTRY_NUM).map (beWord payload.vector)) }, unparsed msg)) := by
  refine ⟨fun data len hlen => ?_, fun norm len => ?_⟩
  · intro hdr msg
    rw [parse_message eth msg ht]
    have he : (List.range ENTRY_NUM).map (beWord hdr.vector) = (List.range ENTRY_NUM).map (beWord data) :=
      entries_memcpy _ _ (by simp only [ENTRY_NUM, DPDK_ELEMENT_NUM, MAX_ENTRIES_PER_PACKET] at *; omega)
    simp only [dpdkHeader, msg, he]
    simp [hdr, switchP4ml, assembleDpdkP4mlHdrs, gradHdr, one_shiftLeft hw]
  · intro hdr msg
    rw [parse_message eth msg ht]
    have hc : BitVec.ofNat 8 (CIRC_TIME - 1) = 3#8 := by decide
    simp [hdr, msg, dpdkHeader, switchP4ml, assembleNormPkt, one_shiftLeft hw, hc]

/-- Worker 1 of two, round 7, key 2501: a chunk of 256 bytes, and a norm. -/
theorem parse_assembled_two :
    let eth : Ethernet := ⟨0, 0, 0x0a00#16⟩
    let grad : TestMessage :=
      ⟨assembleDpdkP4mlHdrs false .zero 1 2 7 (some (BitVec.ofNat 8)) 2501 256, 2501, TENSOR_COMM,
        256, false⟩
    let norm : TestMessage := ⟨assembleNormPkt false .zero 1 2 7 2501 5, 2501, TENSOR_NORM, 0, false⟩
    ((ingressParser (frameBytes eth grad)).bind (·.1.p4ml)).map P4ml.bitmap = some 2 ∧
    (ingressParser (frameBytes eth grad)).bind (·.1.agtrIndex) = some 4 ∧
    ((ingressParser (frameBytes eth norm)).bind (·.1.p4ml)).map P4ml.normInfo = some 5 ∧
    (ingressParser (frameBytes eth norm)).bind (·.1.agtrIndex) = some 10101 := by
  intro eth grad norm
  have h := parse_assembled eth rfl .zero (show 1 < 32 by decide) 2 7 2501
  have hg := (h TENSOR_COMM false).1 (BitVec.ofNat 8) 256 (by decide)
  have hn := (h TENSOR_NORM false).2 5 0
  rw [hg, hn]
  exact ⟨rfl, rfl, rfl, rfl⟩

end Inca.L1.DpdkLayout
