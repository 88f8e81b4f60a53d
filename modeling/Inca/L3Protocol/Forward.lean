import Inca.L3Protocol.Recirc

/-!
# Forwarded traffic: the whole pipeline on packets without `p4ml` header

`Pipeline` of `main.p4`: ingress parser, control and deparser (`Recirc.pass`),
then, unless `bypass_egress` is set, egress parser, control and deparser. A
packet without `p4ml` header is multicast (`0x0d00`, the software parameter
server's reply) or forwarded by `dmac`; no control changes a header of it.

* `pipeline_forward`: such a packet leaves the switch, and no register
  changes.
* `forward_bytes_iff`: it leaves with the bytes it came with exactly if its
  type is not `0x0900`. Background packets (`parse_bg`) lose the 16 bytes of
  `p4ml_bg`, which is extracted and in neither deparser's list.
-/
namespace Inca.L3.Forward
open Inca.L1.P4 Inca.L2.Switch Inca.L3.Recirc

/-- mirrors P4/main.p4:81-96 (`SwitchEgress`) -/
def switchEgress (globalTstamp : BitVec 48) (hdr : SwitchHeader) : SwitchHeader :=
  match hdr.p4ml with
  | some p4ml => { hdr with p4ml := some { p4ml with egressGlobal := globalTstamp } }
  | none => hdr

/-- Egress parser, control and deparser. -/
def egressPass (tstamp : BitVec 48) (b : List Byte) : Option (List Byte) :=
  (egressParser b).map fun (hdr, rest) => egressDeparser (switchEgress tstamp hdr) rest

/-- One way through the switch; `none` if a parser rejects the packet or a control drops it.
Every copy of a multicast packet goes through egress.
mirrors P4/main.p4:98-103 (`Pipeline`) -/
def pipeline (tbl : Tables) (tstamp tstamp' : BitVec 48) (regs : Regs) (b : List Byte) :
    Option (Regs × List Byte) :=
  (Recirc.pass tbl tstamp regs b).bind fun (regs, b, md) =>
    if md.dropCtl ≠ 0 then none
    else if md.bypassEgress = 1 then some (regs, b)
    else (egressPass tstamp' b).map (regs, ·)

section Forward
variable (tbl : Tables) (tstamp tstamp' : BitVec 48) (regs : Regs) {b rest : List Byte} {hdr : SwitchHeader}
  (hp : ingressParser b = some (hdr, rest))
include hp

/-- No `p4ml` header: not one of the two types with one. -/
theorem p4ml_none (h7 : hdr.ethernet.etherType ≠ 0x0700#16) (ha : hdr.ethernet.etherType ≠ 0x0a00#16) :
    hdr.p4ml = none := by
  have h := (ingressParser_parsed hp).p4ml
  simpa [h7, ha] using h

/-- The second parse of a multicast packet finds what the first one found. -/
theorem egressPass_forward (hn : hdr.p4ml = none) (ht : hdr.ethernet.etherType ≠ 0x0900#16) :
    egressPass tstamp' b = some b := by
  have he := egressParser_of_ingress hp hn
  have hs : switchEgress tstamp' hdr = hdr := by rw [switchEgress, hn]
  simp only [egressPass, he, Option.map_some, hs, (egressDeparser_of_parsed he hn).mpr ht]

/-- What leaves is what the ingress deparser made of the packet. -/
theorem pipeline_forward (h7 : hdr.ethernet.etherType ≠ 0x0700#16)
    (ha : hdr.ethernet.etherType ≠ 0x0a00#16)
    (hf : hdr.ethernet.etherType = 0x0d00#16 ∨ (tbl.dmac hdr.ethernet.dstAddr).isSome) :
    pipeline tbl tstamp tstamp' regs b = some (regs, ingressDeparser hdr rest) := by
  have hn := p4ml_none hp h7 ha
  simp only [pipeline, Recirc.pass, hp, Option.map_some, Option.bind_some, switchIngress, hn]
  by_cases hd : hdr.ethernet.etherType = 0x0d00#16
  · -- multicast: the only type that goes through egress
    have h9 : hdr.ethernet.etherType ≠ 0x0900#16 := by rw [hd]; decide
    simp [hd, (ingressDeparser_of_parsed hp).mpr h9, egressPass_forward tstamp' hp hn h9]
  · obtain ⟨port, hport⟩ := Option.isSome_iff_exists.mp (hf.resolve_left hd)
    simp [hd, hport]

/-- **Forwarding.** A packet the switch forwards without `p4ml` processing leaves it with
exactly the bytes with which it entered if and only if it is not a background packet. -/
theorem forward_bytes_iff (h7 : hdr.ethernet.etherType ≠ 0x0700#16)
    (ha : hdr.ethernet.etherType ≠ 0x0a00#16)
    (hf : hdr.ethernet.etherType = 0x0d00#16 ∨ (tbl.dmac hdr.ethernet.dstAddr).isSome) :
    ∃ out, pipeline tbl tstamp tstamp' regs b = some (regs, out) ∧
      (out = b ↔ hdr.ethernet.etherType ≠ 0x0900#16) :=
  ⟨_, pipeline_forward tbl tstamp tstamp' regs hp h7 ha hf, ingressDeparser_of_parsed hp⟩

end Forward

/-- A table that knows every address. -/
def toPort1 : Tables := ⟨fun _ => none, fun _ => none, fun _ => some 1⟩

/-- A packet of the given type with zero addresses and 48 bytes behind them. -/
def sample (etherType : BitVec 16) : List Byte :=
  emitEthernet ⟨0, 0, etherType⟩ ++ (List.range 48).map (BitVec.ofNat 8)

theorem sample_reply : ingressParser (sample 0x0d00#16) =
    some ({ ethernet := ⟨0, 0, 0x0d00#16⟩ }, (List.range 48).map (BitVec.ofNat 8)) := by
  simp [ingressParser, parseEthernet, sample, extractEthernet_emit]

theorem forward_bytes_reply :
    ∃ out, pipeline toPort1 0 0 Regs.init (sample 0x0d00#16) = some (Regs.init, out) ∧
      (out = sample 0x0d00#16 ↔ 0x0d00#16 ≠ 0x0900#16) :=
  forward_bytes_iff toPort1 0 0 Regs.init sample_reply (by decide) (by decide) (.inl rfl)

/-- **Counterexample.** A background packet comes out 16 bytes short: bytes 42 to 57 are gone. -/
theorem forward_counterexample :
    (pipeline toPort1 0 0 Regs.init (sample 0x0900#16)).map Prod.snd =
      some ((sample 0x0900#16).take 42 ++ (sample 0x0900#16).drop 58) ∧
    (sample 0x0900#16).take 42 ++ (sample 0x0900#16).drop 58 ≠ sample 0x0900#16 := by
  decide +kernel

end Inca.L3.Forward
