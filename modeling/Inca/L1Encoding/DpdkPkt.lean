import Inca.Core.Bytes

/-!
# The DPDK packet (`dpdk/common/dpdk_pkt.h`, `dpdk/common/common.h`)

The message that worker and aggregator exchange, and the three functions
that fill its header. A multi-byte header field is stored with `htonl` /
`htons` and only ever read back with `ntohl` / `ntohs`, so the model keeps
the host-order value; `vector` is copied with `memcpy` and kept as the raw
byte array.

A packet is assembled into an uninitialised stack variable
(`struct TestMessage msg_body;`), so every assembler takes what was there
before (`payload`): bytes it does not write keep that content, in
particular the end of `vector` behind a short chunk.

`sw` is the build flag `SW_PS` (`common.h` defines it): the software
parameter server is addressed by slot, the switch by register index.
-/
namespace Inca.L1.DpdkPkt

/-! ## Constants (`dpdk_pkt.h`, `common.h`, `client/dpdk_manager.h`) -/

abbrev MAX_ENTRIES_PER_PACKET : Nat := 256
abbrev AGTR_SLOT_NUM : Nat := 64
abbrev CIRC_TIME : Nat := MAX_ENTRIES_PER_PACKET / AGTR_SLOT_NUM
abbrev DPDK_ELEMENT_NUM : Nat := MAX_ENTRIES_PER_PACKET * 4
abbrev MAX_AGTR_COUNT : Nat := 2500
abbrev NORM_SLOT : Nat := 300
abbrev DPDK_KEY_TOTAL : Nat := 1200000

abbrev TENSOR_COMM : Int := 1
abbrev TENSOR_NORM : Int := 2
abbrev TENSOR_INIT : Int := 3

/-! ## Structures -/

/-- mirrors byteps/byteps/common/dpdk/common/dpdk_pkt.h:74-90 (`struct p4mlhdr`,
without the two timestamps, which only the switch build has) -/
structure P4mlhdr where
  bitmap : BitVec 32
  numWorker : BitVec 8
  roundNum : BitVec 32
  maxInfo : BitVec 32
  normInfo : BitVec 32
  typeAndIndex : BitVec 8
  recircTimes : BitVec 8
  agtr : BitVec 16
  vector : Nat → Byte

def P4mlhdr.zero : P4mlhdr := ⟨0, 0, 0, 0, 0, 0, 0, 0, fun _ => 0⟩

/-- mirrors byteps/byteps/common/dpdk/common/dpdk_pkt.h:107-118 (`struct TestMessage`) -/
structure TestMessage where
  p4mlHdrs : P4mlhdr
  key : Nat
  cmd : Int
  len : Nat
  shutdown : Bool

/-- A message with the Ethernet type of the frame that carries it. -/
structure Frame where
  etherType : BitVec 16
  msg : TestMessage

/-- `memcpy(dst, src, n)`. -/
def memcpy (dst src : Nat → Byte) (n : Nat) : Nat → Byte := fun j => if j < n then src j else dst j

/-! ## Assemblers -/

/-- The fields both gradient assemblers write before they copy the data. -/
def gradHdr (sw : Bool) (payload : P4mlhdr) (workerId : Nat) (numWorker : BitVec 8)
    (roundNum : BitVec 32) (key : Nat) : P4mlhdr :=
  { payload with
    bitmap := 1#32 <<< workerId
    numWorker := numWorker
    agtr := BitVec.ofNat 16 (if sw then key % MAX_AGTR_COUNT else key % MAX_AGTR_COUNT * CIRC_TIME)
    roundNum := roundNum
    typeAndIndex := 0
    maxInfo := 0
    normInfo := 0
    recircTimes := 0 }

/-- mirrors byteps/byteps/common/dpdk/common/dpdk_pkt.h:190-241 (`USE_UINT8`, not `NEW_INCA`);
`inputData = none` is the null pointer. -/
def assembleDpdkP4mlHdrs (sw : Bool) (payload : P4mlhdr) (workerId : Nat) (numWorker : BitVec 8)
    (roundNum : BitVec 32) (inputData : Option (Nat → Byte)) (key len : Nat) : P4mlhdr :=
  let hdr := gradHdr sw payload workerId numWorker roundNum key
  match inputData with
  | none => hdr
  | some data => { hdr with vector := memcpy hdr.vector data (min len DPDK_ELEMENT_NUM) }

/-- mirrors byteps/byteps/common/dpdk/common/dpdk_pkt.h:244-274: `len` counts floats, each
copied as four bytes. -/
def assembleNormalHdrs (sw : Bool) (payload : P4mlhdr) (workerId : Nat) (numWorker : BitVec 8)
    (roundNum : BitVec 32) (data : Option (Nat → Byte)) (key len : Nat) : P4mlhdr :=
  let hdr := gradHdr sw payload workerId numWorker roundNum key
  match data with
  | none => hdr
  | some d => { hdr with vector := memcpy hdr.vector d (4 * min len MAX_ENTRIES_PER_PACKET) }

/-- mirrors byteps/byteps/common/dpdk/common/dpdk_pkt.h:162-187; `norm` is the bit pattern
of the float. -/
def assembleNormPkt (sw : Bool) (payload : P4mlhdr) (workerId : Nat) (numWorker : BitVec 8)
    (roundNum : BitVec 32) (key : Nat) (norm : BitVec 32) : P4mlhdr :=
  { payload with
    bitmap := 1#32 <<< workerId
    numWorker := numWorker
    agtr := BitVec.ofNat 16 (if sw then MAX_AGTR_COUNT + key % NORM_SLOT
      else MAX_AGTR_COUNT * CIRC_TIME + key % NORM_SLOT)
    roundNum := roundNum
    typeAndIndex := 0x80
    maxInfo := 0
    normInfo := norm
    recircTimes := BitVec.ofNat 8 (CIRC_TIME - 1) }

end Inca.L1.DpdkPkt
