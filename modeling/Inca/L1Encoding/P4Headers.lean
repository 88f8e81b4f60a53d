import Inca.Core.Bytes

/-!
# The switch's headers, parsers and deparsers

`headers.p4`, `struct.p4` and `parse.p4`. A packet is its byte list. A
parser extracts headers in the order of its states and leaves the rest of
the packet unparsed; a packet too short for a header of its path is rejected
(`none`). A deparser emits the valid headers in the order of
`SwitchIngressDeparser` or `SwitchEgressDeparser`, followed by the unparsed
remainder.

No control reads a field of `ipv4_h`, `udp_h` or `p4ml_bg_h`, so these are
kept as raw bytes of the header's length.

`ingressParser_deparse_p4ml`: a packet whose only headers are the ones of
the `0x0a00` path (`ethernet`, `p4ml`, `p4ml_agtr_index`, `p4ml_entries`)
parses back to the headers it was deparsed from, with the same remainder.
So a recirculated packet enters its next pass with exactly the headers of
the last one: the parser always stops after the *first* 64 words.

`ingressDeparser_of_parsed`, `egressDeparser_of_parsed`: deparsing what was
parsed gives the packet back on every path but that of `0x0900`, whose
`p4ml_bg` header both parsers extract and neither deparser emits.
`egressParser_of_ingress`: off the `p4ml` paths both parsers do the same.
-/
namespace Inca.L1.P4

/-- mirrors P4/headers.p4:65-69 (`ethernet_h`) -/
structure Ethernet where
  dstAddr : BitVec 48
  srcAddr : BitVec 48
  etherType : BitVec 16
  deriving DecidableEq

/-- mirrors P4/headers.p4:93-107 (`p4ml_h`) -/
structure P4ml where
  bitmap : BitVec 32
  numWorker : BitVec 8
  roundNum : BitVec 32
  maxInfo : BitVec 32
  normInfo : BitVec 32
  packetType : BitVec 1
  dataIndex : BitVec 1
  pad : BitVec 6
  recircTime : BitVec 8
  pad1 : BitVec 16
  ingressGlobal : BitVec 48
  pad2 : BitVec 16
  egressGlobal : BitVec 48
  deriving DecidableEq

/-- `entry_h` has the fields `data0` .. `data63`. -/
abbrev ENTRY_NUM : Nat := 64

/-- mirrors P4/struct.p4:36-45 (`switch_header_t`); `none` is an invalid header. -/
structure SwitchHeader where
  ethernet : Ethernet
  ipv4 : Option (List Byte) := none
  udp : Option (List Byte) := none
  p4ml : Option P4ml := none
  agtrIndex : Option (BitVec 16) := none
  p4mlBg : Option (List Byte) := none
  entries : Option (List Word) := none

/-! ## Extract and emit -/

def emitEthernet (h : Ethernet) : List Byte :=
  putBE 48 h.dstAddr ++ putBE 48 h.srcAddr ++ putBE 16 h.etherType

def extractEthernet (b : List Byte) : Option (Ethernet × List Byte) := do
  let (dstAddr, b) ← getBE 48 b
  let (srcAddr, b) ← getBE 48 b
  let (etherType, b) ← getBE 16 b
  return (⟨dstAddr, srcAddr, etherType⟩, b)

def emitP4ml (h : P4ml) : List Byte :=
  putBE 32 h.bitmap ++ putBE 8 h.numWorker ++ putBE 32 h.roundNum ++ putBE 32 h.maxInfo ++
  putBE 32 h.normInfo ++ putBE 8 (h.packetType ++ h.dataIndex ++ h.pad) ++ putBE 8 h.recircTime ++
  putBE 16 h.pad1 ++ putBE 48 h.ingressGlobal ++ putBE 16 h.pad2 ++ putBE 48 h.egressGlobal

def extractP4ml (b : List Byte) : Option (P4ml × List Byte) := do
  let (bitmap, b) ← getBE 32 b
  let (numWorker, b) ← getBE 8 b
  let (roundNum, b) ← getBE 32 b
  let (maxInfo, b) ← getBE 32 b
  let (normInfo, b) ← getBE 32 b
  let (flags, b) ← getBE 8 b
  let (recircTime, b) ← getBE 8 b
  let (pad1, b) ← getBE 16 b
  let (ingressGlobal, b) ← getBE 48 b
  let (pad2, b) ← getBE 16 b
  let (egressGlobal, b) ← getBE 48 b
  return (⟨bitmap, numWorker, roundNum, maxInfo, normInfo, flags.extractLsb' 7 1,
    flags.extractLsb' 6 1, flags.extractLsb' 0 6, recircTime, pad1, ingressGlobal, pad2,
    egressGlobal⟩, b)

/-- `pkt.extract` of a header kept as raw bytes. -/
def extractRaw (n : Nat) (b : List Byte) : Option (List Byte × List Byte) :=
  if n ≤ b.length then some (b.take n, b.drop n) else none

theorem extractEthernet_emit (h : Ethernet) (r : List Byte) :
    extractEthernet (emitEthernet h ++ r) = some (h, r) := by
  unfold extractEthernet emitEthernet
  simp only [List.append_assoc]
  iterate 3 rw [getBE_putBE_bind (by decide)]
  rfl

theorem flags_split (a b : BitVec 1) (c : BitVec 6) :
    (show BitVec 8 from a ++ b ++ c).extractLsb' 7 1 = a ∧
    (show BitVec 8 from a ++ b ++ c).extractLsb' 6 1 = b ∧
    (show BitVec 8 from a ++ b ++ c).extractLsb' 0 6 = c := by
  have ha := a.isLt; have hb := b.isLt; have hc := c.isLt
  refine ⟨?_, ?_, ?_⟩ <;> apply BitVec.eq_of_toNat_eq <;>
    simp only [BitVec.extractLsb'_toNat, append_toNat, Nat.shiftRight_eq_div_pow] <;> omega

theorem extractP4ml_emit (h : P4ml) (r : List Byte) : extractP4ml (emitP4ml h ++ r) = some (h, r) := by
  obtain ⟨h1, h2, h3⟩ := flags_split h.packetType h.dataIndex h.pad
  unfold extractP4ml emitP4ml
  simp only [List.append_assoc]
  iterate 11 rw [getBE_putBE_bind (by decide)]
  simp only [h1, h2, h3, Option.pure_def]

theorem emitEthernet_of_extract {b r : List Byte} {h : Ethernet} (he : extractEthernet b = some (h, r)) :
    emitEthernet h ++ r = b := by
  unfold extractEthernet at he
  obtain ⟨v1, b, rfl, h1⟩ := of_getBE_bind (by decide) he
  obtain ⟨v2, b, rfl, h2⟩ := of_getBE_bind (by decide) h1
  obtain ⟨v3, b, rfl, h3⟩ := of_getBE_bind (by decide) h2
  cases h3
  simp only [emitEthernet, List.append_assoc]

theorem flags_join (x : BitVec 8) : x.extractLsb' 7 1 ++ x.extractLsb' 6 1 ++ x.extractLsb' 0 6 = x := by
  have hx := x.isLt
  apply BitVec.eq_of_toNat_eq
  simp only [append_toNat, BitVec.extractLsb'_toNat, Nat.shiftRight_eq_div_pow]
  omega

theorem emitP4ml_of_extract {b r : List Byte} {h : P4ml} (he : extractP4ml b = some (h, r)) :
    emitP4ml h ++ r = b := by
  unfold extractP4ml at he
  obtain ⟨v1, b, rfl, h1⟩ := of_getBE_bind (by decide) he
  obtain ⟨v2, b, rfl, h2⟩ := of_getBE_bind (by decide) h1
  obtain ⟨v3, b, rfl, h3⟩ := of_getBE_bind (by decide) h2
  obtain ⟨v4, b, rfl, h4⟩ := of_getBE_bind (by decide) h3
  obtain ⟨v5, b, rfl, h5⟩ := of_getBE_bind (by decide) h4
  obtain ⟨flags, b, rfl, h6⟩ := of_getBE_bind (by decide) h5
  obtain ⟨v7, b, rfl, h7⟩ := of_getBE_bind (by decide) h6
  obtain ⟨v8, b, rfl, h8⟩ := of_getBE_bind (by decide) h7
  obtain ⟨v9, b, rfl, h9⟩ := of_getBE_bind (by decide) h8
  obtain ⟨v10, b, rfl, h10⟩ := of_getBE_bind (by decide) h9
  obtain ⟨v11, b, rfl, h11⟩ := of_getBE_bind (by decide) h10
  cases h11
  simp only [emitP4ml, List.append_assoc, flags_join]

theorem extractRaw_append (x r : List Byte) : extractRaw x.length (x ++ r) = some (x, r) := by
  simp [extractRaw]

theorem of_extractRaw {n : Nat} {b x r : List Byte} (h : extractRaw n b = some (x, r)) :
    x ++ r = b ∧ x.length = n := by
  unfold extractRaw at h
  split at h
  · next hl =>
    obtain ⟨rfl, rfl⟩ := Prod.mk.inj (Option.some.inj h)
    exact ⟨List.take_append_drop n b, by simp [hl]⟩
  · cases h

/-! ## Ingress parser and deparser -/

/-- mirrors P4/parse.p4:109-120 (`parse_p4ml`, `parse_agtr_index`, `parse_entry`) -/
def parseP4ml (hdr : SwitchHeader) (b : List Byte) : Option (SwitchHeader × List Byte) := do
  let (p4ml, b) ← extractP4ml b
  let (agtr, b) ← getBE 16 b
  let (entries, b) ← getWords ENTRY_NUM b
  return ({ hdr with p4ml := some p4ml, agtrIndex := some agtr, entries := some entries }, b)

/-- The egress parser selects on `ether_type` as the ingress parser does, but for the state
`parse_p4ml`.
mirrors P4/parse.p4:72-120 and 159-203 (`parse_ethernet` and the states it selects) -/
def parseEthernet (parseP4ml : SwitchHeader → List Byte → Option (SwitchHeader × List Byte))
    (b : List Byte) : Option (SwitchHeader × List Byte) := do
  let (eth, b) ← extractEthernet b
  let hdr : SwitchHeader := { ethernet := eth }
  if eth.etherType = 0x0700#16 then
    let (ipv4, b) ← extractRaw 20 b
    parseP4ml { hdr with ipv4 := some ipv4 } b
  else if eth.etherType = 0x0900#16 then
    let (ipv4, b) ← extractRaw 20 b
    let (udp, b) ← extractRaw 8 b
    let (bg, b) ← extractRaw 16 b
    return ({ hdr with ipv4 := some ipv4, udp := some udp, p4mlBg := some bg }, b)
  else if eth.etherType = 0x0800#16 then
    let (ipv4, b) ← extractRaw 20 b
    return ({ hdr with ipv4 := some ipv4 }, b)
  else if eth.etherType = 0x0a00#16 then parseP4ml hdr b
  else return (hdr, b)

/-- mirrors P4/parse.p4:72-120 (`SwitchIngressParser`) -/
def ingressParser (b : List Byte) : Option (SwitchHeader × List Byte) := parseEthernet parseP4ml b

def emitOpt {α : Type} (f : α → List Byte) : Option α → List Byte
  | none => []
  | some h => f h

@[simp] theorem emitOpt_none {α : Type} (f : α → List Byte) : emitOpt f none = [] := rfl
@[simp] theorem emitOpt_some {α : Type} (f : α → List Byte) (h : α) : emitOpt f (some h) = f h := rfl

/-- mirrors P4/parse.p4:127-140 (`SwitchIngressDeparser`), then the unparsed remainder -/
def ingressDeparser (hdr : SwitchHeader) (rest : List Byte) : List Byte :=
  emitEthernet hdr.ethernet ++ emitOpt id hdr.ipv4 ++ emitOpt emitP4ml hdr.p4ml ++
  emitOpt id hdr.udp ++ emitOpt (putBE 16) hdr.agtrIndex ++ emitOpt putWords hdr.entries ++ rest

/-! ## Egress parser and deparser -/

/-- mirrors P4/parse.p4:197-200 (the egress `parse_p4ml`, which accepts after the header) -/
def egressParseP4ml (hdr : SwitchHeader) (b : List Byte) : Option (SwitchHeader × List Byte) := do
  let (p4ml, b) ← extractP4ml b
  return ({ hdr with p4ml := some p4ml }, b)

/-- mirrors P4/parse.p4:159-203 (`SwitchEgressParser`) -/
def egressParser (b : List Byte) : Option (SwitchHeader × List Byte) := parseEthernet egressParseP4ml b

/-- mirrors P4/parse.p4:207-218 (`SwitchEgressDeparser`), then the unparsed remainder -/
def egressDeparser (hdr : SwitchHeader) (rest : List Byte) : List Byte :=
  emitEthernet hdr.ethernet ++ emitOpt id hdr.ipv4 ++ emitOpt emitP4ml hdr.p4ml ++
  emitOpt id hdr.udp ++ rest

/-! ## Deparsing what was parsed -/

/-- Every valid header, `p4ml_bg` included, and the remainder. -/
def allHeaders (hdr : SwitchHeader) (rest : List Byte) : List Byte :=
  emitEthernet hdr.ethernet ++ emitOpt id hdr.ipv4 ++ emitOpt emitP4ml hdr.p4ml ++
  emitOpt id hdr.udp ++ emitOpt id hdr.p4mlBg ++ emitOpt (putBE 16) hdr.agtrIndex ++
  emitOpt putWords hdr.entries ++ rest

/-- What a parser does to an accepted packet. -/
structure Parsed (b : List Byte) (hdr : SwitchHeader) (rest : List Byte) : Prop where
  bytes : allHeaders hdr rest = b
  p4ml : hdr.p4ml.isSome ↔ hdr.ethernet.etherType = 0x0700#16 ∨ hdr.ethernet.etherType = 0x0a00#16
  bg : hdr.p4mlBg.isSome ↔ hdr.ethernet.etherType = 0x0900#16
  bgLength : ∀ x, hdr.p4mlBg = some x → x.length = 16
  agtr : hdr.p4ml = none → hdr.agtrIndex = none ∧ hdr.entries = none

/-- A `parse_p4ml` state takes the bytes of the headers it makes valid: `p4ml`, and perhaps
the index and the entries. -/
def TakesP4ml (parseP4ml : SwitchHeader → List Byte → Option (SwitchHeader × List Byte)) : Prop :=
  ∀ eth ipv4 b hdr' rest, parseP4ml { ethernet := eth, ipv4 := ipv4 } b = some (hdr', rest) →
    ∃ p4ml agtr entries, hdr' = ⟨eth, ipv4, none, some p4ml, agtr, none, entries⟩ ∧
      emitP4ml p4ml ++ (emitOpt (putBE 16) agtr ++ (emitOpt putWords entries ++ rest)) = b

theorem takesP4ml_ingress : TakesP4ml parseP4ml := by
  intro eth ipv4 b hdr' rest h
  simp only [parseP4ml, Option.bind_eq_bind, Option.pure_def, Option.bind_eq_some_iff] at h
  obtain ⟨⟨p4ml, b1⟩, h1, ⟨agtr, b2⟩, h2, ⟨entries, b3⟩, h3, hr⟩ := h
  obtain ⟨rfl, rfl⟩ := Prod.mk.inj (Option.some.inj hr)
  refine ⟨p4ml, some agtr, some entries, rfl, ?_⟩
  simp only [emitOpt]
  rw [putWords_of_getWords h3, putBE_of_getBE (by decide) h2, emitP4ml_of_extract h1]

theorem takesP4ml_egress : TakesP4ml egressParseP4ml := by
  intro eth ipv4 b hdr' rest h
  simp only [egressParseP4ml, Option.bind_eq_bind, Option.pure_def, Option.bind_eq_some_iff] at h
  obtain ⟨⟨p4ml, b1⟩, h1, hr⟩ := h
  obtain ⟨rfl, rfl⟩ := Prod.mk.inj (Option.some.inj hr)
  exact ⟨p4ml, none, none, rfl, emitP4ml_of_extract h1⟩

theorem parseEthernet_parsed {parseP4ml : SwitchHeader → List Byte → Option (SwitchHeader × List Byte)}
    (hp : TakesP4ml parseP4ml) {b rest : List Byte} {hdr : SwitchHeader}
    (h : parseEthernet parseP4ml b = some (hdr, rest)) : Parsed b hdr rest := by
  simp only [parseEthernet, Option.bind_eq_bind, Option.pure_def] at h
  obtain ⟨⟨eth, b1⟩, he, h⟩ := Option.bind_eq_some_iff.mp h
  have hb := emitEthernet_of_extract he
  dsimp only at h
  -- one case per state that `parse_ethernet` selects
  split at h
  · next ht =>
    obtain ⟨⟨ipv4, b2⟩, h2, h⟩ := Option.bind_eq_some_iff.mp h
    obtain ⟨p4ml, agtr, entries, rfl, h3⟩ := hp _ _ _ _ _ h
    exact ⟨by simp [allHeaders, h3, (of_extractRaw h2).1, hb], by simp [ht], by simp [ht], by simp, by simp⟩
  split at h
  · next ht =>
    simp only [Option.bind_eq_some_iff] at h
    obtain ⟨⟨ipv4, b2⟩, h2, ⟨udp, b3⟩, h3, ⟨bg, b4⟩, h4, hr⟩ := h
    obtain ⟨rfl, rfl⟩ := Prod.mk.inj (Option.some.inj hr)
    refine ⟨?_, by simp [ht], by simp [ht], by simpa using (of_extractRaw h4).2, by simp⟩
    simp [allHeaders, (of_extractRaw h4).1, (of_extractRaw h3).1, (of_extractRaw h2).1, hb]
  split at h
  · next ht =>
    obtain ⟨⟨ipv4, b2⟩, h2, hr⟩ := Option.bind_eq_some_iff.mp h
    obtain ⟨rfl, rfl⟩ := Prod.mk.inj (Option.some.inj hr)
    exact ⟨by simp [allHeaders, (of_extractRaw h2).1, hb], by simp [ht], by simp [ht], by simp, by simp⟩
  split at h
  · next ht =>
    obtain ⟨p4ml, agtr, entries, rfl, h3⟩ := hp _ _ _ _ _ h
    exact ⟨by simp [allHeaders, h3, hb], by simp [ht], by simp [ht], by simp, by simp⟩
  · next h7 h9 _ ha =>
    obtain ⟨rfl, rfl⟩ := Prod.mk.inj (Option.some.inj h)
    exact ⟨by simp [allHeaders, hb], by simp [h7, ha], by simp [h9], by simp, by simp⟩

theorem ingressParser_parsed {b rest : List Byte} {hdr : SwitchHeader}
    (h : ingressParser b = some (hdr, rest)) : Parsed b hdr rest :=
  parseEthernet_parsed takesP4ml_ingress h

/-- A packet without `p4ml` header is parsed without any `parse_p4ml` state. -/
theorem parseEthernet_congr {p q : SwitchHeader → List Byte → Option (SwitchHeader × List Byte)}
    (hp : TakesP4ml p) {b rest : List Byte} {hdr : SwitchHeader}
    (h : parseEthernet p b = some (hdr, rest)) (hn : hdr.p4ml = none) :
    parseEthernet q b = some (hdr, rest) := by
  simp only [parseEthernet, Option.bind_eq_bind, Option.pure_def] at h ⊢
  obtain ⟨⟨eth, b1⟩, he, h⟩ := Option.bind_eq_some_iff.mp h
  rw [he, Option.bind_some]
  dsimp only at h ⊢
  split at h
  · next h7 =>
    obtain ⟨⟨ipv4, b2⟩, -, h⟩ := Option.bind_eq_some_iff.mp h
    obtain ⟨p4ml, agtr, entries, rfl, -⟩ := hp _ _ _ _ _ h
    cases hn
  · next h7 =>
    rw [if_neg h7]
    split at h
    · next h9 => rw [if_pos h9, h]
    · next h9 =>
      rw [if_neg h9]
      split at h
      · next h8 => rw [if_pos h8, h]
      · next h8 =>
        rw [if_neg h8]
        split at h
        · obtain ⟨p4ml, agtr, entries, rfl, -⟩ := hp _ _ _ _ _ h
          cases hn
        · next ha => rw [if_neg ha, h]

theorem egressParser_of_ingress {b rest : List Byte} {hdr : SwitchHeader}
    (h : ingressParser b = some (hdr, rest)) (hn : hdr.p4ml = none) :
    egressParser b = some (hdr, rest) :=
  parseEthernet_congr takesP4ml_ingress h hn

/-- What a deparser drops is missed: it gives the packet back if it drops `p4ml_bg` only and
there is none. -/
theorem Parsed.deparse_iff {b rest out : List Byte} {hdr : SwitchHeader} (h : Parsed b hdr rest)
    (ho : out.length + (emitOpt id hdr.p4mlBg).length = (allHeaders hdr rest).length)
    (he : hdr.p4mlBg = none → out = allHeaders hdr rest) :
    out = b ↔ hdr.ethernet.etherType ≠ 0x0900#16 := by
  obtain ⟨hb, -, hbg, hlen, -⟩ := h
  rw [ne_eq, ← hbg]
  cases hx : hdr.p4mlBg with
  | none => simp [he hx, hb]
  | some x =>
    simp only [Option.isSome_some, not_true_eq_false, iff_false]
    intro hd
    simp only [hx, emitOpt_some, id_eq, hlen x hx, hb, hd] at ho
    omega

/-- **Ingress.** The deparser gives a parsed packet back, but for the 16 bytes of `p4ml_bg`. -/
theorem ingressDeparser_of_parsed {b rest : List Byte} {hdr : SwitchHeader}
    (h : ingressParser b = some (hdr, rest)) :
    ingressDeparser hdr rest = b ↔ hdr.ethernet.etherType ≠ 0x0900#16 := by
  apply (ingressParser_parsed h).deparse_iff
  · simp only [ingressDeparser, allHeaders, List.length_append]
    omega
  · intro hx
    simp [ingressDeparser, allHeaders, hx]

/-- **Egress.** The same for the egress parser and deparser, off the `p4ml` paths. -/
theorem egressDeparser_of_parsed {b rest : List Byte} {hdr : SwitchHeader}
    (h : egressParser b = some (hdr, rest)) (hn : hdr.p4ml = none) :
    egressDeparser hdr rest = b ↔ hdr.ethernet.etherType ≠ 0x0900#16 := by
  have hp := parseEthernet_parsed takesP4ml_egress h
  obtain ⟨ha, he⟩ := hp.agtr hn
  apply hp.deparse_iff
  · simp only [egressDeparser, allHeaders, ha, he, emitOpt_none, List.append_nil, List.length_append]
    omega
  · intro hx
    simp [egressDeparser, allHeaders, hx, ha, he]

/-- The headers of a DPDK packet (`0x0a00`). -/
def dpdkHeader (eth : Ethernet) (p : P4ml) (agtr : BitVec 16) (es : List Word) : SwitchHeader :=
  { ethernet := eth, p4ml := some p, agtrIndex := some agtr, entries := some es }

theorem ingressParser_deparse_p4ml (eth : Ethernet) (p : P4ml) (agtr : BitVec 16) (es : List Word)
    (rest : List Byte) (ht : eth.etherType = 0x0a00#16) (hl : es.length = ENTRY_NUM) :
    ingressParser (ingressDeparser (dpdkHeader eth p agtr es) rest) =
      some (dpdkHeader eth p agtr es, rest) := by
  have hw := getWords_putWords es rest
  rw [hl] at hw
  simp [ingressParser, parseEthernet, ingressDeparser, dpdkHeader, emitOpt, List.append_assoc,
    extractEthernet_emit, ht, parseP4ml, extractP4ml_emit, getBE_putBE, hw]

end Inca.L1.P4
