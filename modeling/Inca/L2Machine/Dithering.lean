import Mathlib.Algebra.Order.Floor.Defs
import Inca.L1Encoding.BitStream
import Inca.L2Machine.Compress

/-!
# The dithering compressor (`compressor/impl/dithering.cc`)

Every element is divided by the tensor's scale and rounded, at random, to one
of finitely many levels. The elements whose level is not 0 are written to a
bit stream: the distance to the one before, the sign and the level, numbers as
Elias delta codes. `Decompress` sets the elements that it reads from the stream;
`FastUpdateError` runs the same loop and subtracts.

* `Encoded`: the stream holds the code of a list of tokens whose positions
  grow (`encode_step`, `encode_run`).
* `decodeLoop_tokens`: the loop reads them back and stops behind the last.
* `dithering_lawful`: as no position occurs twice, subtracting from the
  gradient and setting in a tensor of zeros complement each other.
-/
namespace Inca.L2.Dithering
open Inca.BitList Inca.L1.BitStream Inca.L2.Compress

/-- mirrors byteps/byteps/common/compressor/impl/dithering.h:45 -/
inductive PartitionType
  | linear
  | natural
  deriving DecidableEq

/-- mirrors byteps/byteps/common/compressor/impl/dithering.h:46 -/
inductive NomalizeType
  | max
  | l2
  deriving DecidableEq

structure Cfg where
  s : BitVec 32
  ptype : PartitionType
  ntype : NomalizeType

/-- `_s`, or `1 << (_s - 1)`, which is undefined in the source unless `1 ≤ _s ≤ 32`.
mirrors byteps/byteps/common/compressor/impl/dithering.cc:87, 144-147, 192-195 -/
def Cfg.levels (cfg : Cfg) : BitVec 32 :=
  match cfg.ptype with
  | .linear => cfg.s
  | .natural => 1#32 <<< (cfg.s - 1)

/-- mirrors byteps/byteps/common/compressor/utils.h:181-190 -/
def roundNextPow2 (v : BitVec 32) : BitVec 32 :=
  let v := v - 1
  let v := v ||| v >>> 1
  let v := v ||| v >>> 2
  let v := v ||| v >>> 4
  let v := v ||| v >>> 8
  let v := v ||| v >>> 16
  v + 1

/-! ## Compress -/

section Compress
variable {K : Type} [Field K] [LinearOrder K]

/-- mirrors byteps/byteps/common/compressor/impl/dithering.cc:57-68 -/
def scaleOf (sqrt : K → K) (ntype : NomalizeType) (len : Nat) (src : Nat → K) : K :=
  match ntype with
  | .max => (List.range len).foldl (fun scale i => if scale > |src i| then scale else |src i|) 0
  | .l2 => sqrt ((List.range len).foldl (fun scale i => scale + src i * src i) 0)

variable [FloorSemiring K]

/-- The level of an element.
mirrors byteps/byteps/common/compressor/impl/dithering.cc:74-77, 89-94 -/
def quantize (cfg : Cfg) (scale : K) (rng : Rng) (x : K) : BitVec 32 × Rng :=
  let normalized := |x| / scale * (cfg.levels.toNat : K)
  match cfg.ptype with
  | .linear =>
    let floor := ⌊normalized⌋₊
    let r := rng.bernoulli (normalized - floor)
    (BitVec.ofNat 32 (floor + r.1.toNat), r.2)
  | .natural =>
    let floor := roundNextPow2 (BitVec.ofNat 32 ⌈normalized⌉₊) >>> 1
    let length := if floor ≠ 0 then floor else 1
    let r := rng.bernoulli ((normalized - floor.toNat) / length.toNat)
    (floor + length * BitVec.ofNat 32 r.1.toNat, r.2)

/-- The variables of the loop; `last` is `last_non_zero_pos`, which starts as `-1`. -/
structure Enc where
  writer : BitWriter 32
  last : Int
  rng : Rng

/-- mirrors byteps/byteps/common/compressor/impl/dithering.cc:73-85, 88-102 -/
def encode (cfg : Cfg) (scale : K) (src : Nat → K) (st : Enc) (i : Nat) : Enc :=
  let q := quantize cfg scale st.rng (src i)
  if q.1 ≠ 0 then
    let wr := eliasDeltaEncode st.writer (i - st.last).toNat
    let wr := wr.put (src i < 0)
    let wr := eliasDeltaEncode wr q.1.toNat
    ⟨wr, i, q.2⟩
  else { st with rng := q.2 }

/-- mirrors byteps/byteps/common/compressor/impl/dithering.cc:104-115 -/
def streamTensor (wr : BitWriter 32) (scale : K) : Tensor K where
  data j :=
    if j < wr.blocks then .int (wr.dptr j)
    else if j = wr.blocks then .int (BitVec.ofNat 32 wr.bits)
    else .float scale
  size := wr.blocks * 4 + 4 + 4

/-- mirrors byteps/byteps/common/compressor/impl/dithering.cc:51-116 -/
def compress (sqrt : K → K) (cfg : Cfg) (sh : Shape) (rng : Rng) (src : Nat → K) :
    Except Fault (Rng × Tensor K) :=
  if ∀ i < sh.len, src i = 0 then .error .zeros
  else
    let scale := scaleOf sqrt cfg.ntype sh.len src
    let st := (List.range sh.len).foldl (encode cfg scale src) ⟨{ dptr := fun _ => 0 }, -1, rng⟩
    let wr := st.writer.flush
    if wr.bits < 2 ^ 24 then .ok (st.rng, streamTensor wr scale) else .error .stream

end Compress

/-! ## Decompress and FastUpdateError -/

/-- The loop of both; `f` is what they do with an element.
mirrors byteps/byteps/common/compressor/impl/dithering.cc:149-159, 197-207 -/
def decodeLoop {β : Type} (f : β → Nat → Bool → BitVec 32 → β) (bits : Nat) :
    Nat → BitReader 32 → Int → β → Except Fault β
  | 0, _, _, _ => .error .endless
  | fuel + 1, rd, last, acc =>
    if rd.bits < bits then
      match eliasDeltaDecode bits rd with
      | none => .error .endless
      | some (diff, rd) =>
        let i := last + diff
        let signbit := rd.get
        match eliasDeltaDecode bits signbit.2 with
        | none => .error .endless
        | some (quantized, rd) =>
          decodeLoop f bits fuel rd i (f acc i.toNat signbit.1 (BitVec.ofNat 32 quantized))
    else .ok acc

section Decompress
variable {K : Type} [Field K]

/-- `(1 - (signbit << 1)) * num` with `num = quantized * scale / s` -/
def valueOf (cfg : Cfg) (scale : K) (signbit : Bool) (quantized : BitVec 32) : K :=
  (1 - ((signbit.toNat <<< 1 : Nat) : K)) * ((quantized.toNat : K) * scale / (cfg.levels.toNat : K))

def setValue (cfg : Cfg) (scale : K) (dst : Nat → K) (i : Nat) (signbit : Bool) (quantized : BitVec 32) :
    Nat → K := Function.update dst i (valueOf cfg scale signbit quantized)

def subValue (cfg : Cfg) (scale : K) (error : Nat → K) (i : Nat) (signbit : Bool) (quantized : BitVec 32) :
    Nat → K := Function.update error i (error i - valueOf cfg scale signbit quantized)

/-- mirrors byteps/byteps/common/compressor/impl/dithering.cc:123-162 -/
def decompress (cfg : Cfg) (sh : Shape) (t : Tensor K) (dst : Nat → K) : Except Fault (Nat → K) :=
  let blocks := (t.size - 4 - 4) / 4
  let bits := (t.intAt blocks).toNat
  let scale := t.floatAt (blocks + 1)
  decodeLoop (setValue cfg scale) bits (bits + 1) { dptr := t.intAt } (-1) (sh.memset dst)

/-- mirrors byteps/byteps/common/compressor/impl/dithering.cc:174-208 -/
def fastUpdateError (cfg : Cfg) (sh : Shape) (error corrected : Nat → K) (t : Tensor K) :
    Except Fault (Nat → K) :=
  let blocks := (t.size - 4 - 4) / 4
  let bits := (t.intAt blocks).toNat
  let scale := t.floatAt (blocks + 1)
  decodeLoop (subValue cfg scale) bits (bits + 1) { dptr := t.intAt } (-1) (sh.memcpy error corrected)

end Decompress

/-- mirrors byteps/byteps/common/compressor/impl/dithering.cc:51-215 -/
def dithering {K : Type} [Field K] [LinearOrder K] [FloorSemiring K] (sqrt : K → K) (cfg : Cfg) (sh : Shape) :
    Compressor K where
  compress := compress sqrt cfg sh
  decompress := decompress cfg sh
  fastUpdateError := fastUpdateError cfg sh

/-! ## The stream -/

/-- An element of the stream. -/
structure Token where
  pos : Nat
  signbit : Bool
  quantized : BitVec 32

/-- The code of a token after the one at `last`. -/
def Token.code (last : Int) (tk : Token) : List Bool :=
  eliasDelta (tk.pos - last).toNat ++ tk.signbit :: eliasDelta tk.quantized.toNat

theorem Token.code_pos (last : Int) (tk : Token) : 0 < (tk.code last).length := by
  rw [Token.code, List.length_append, List.length_cons]
  omega

def codeOf : Int → List Token → List Bool
  | _, [] => []
  | last, tk :: tks => tk.code last ++ codeOf tk.pos tks

def lastPos : Int → List Token → Int
  | last, [] => last
  | _, tk :: tks => lastPos tk.pos tks

/-- Positions grow from `last` on, and no level is 0. -/
def Growing : Int → List Token → Prop
  | _, [] => True
  | last, tk :: tks => last < tk.pos ∧ tk.quantized ≠ 0 ∧ Growing tk.pos tks

section Tokens
variable {last : Int} {tks : List Token} (tk : Token)

theorem lastPos_concat : lastPos last (tks ++ [tk]) = tk.pos := by
  induction tks generalizing last with
  | nil => rfl
  | cons t tks ih => exact ih

theorem codeOf_concat : codeOf last (tks ++ [tk]) = codeOf last tks ++ tk.code (lastPos last tks) := by
  induction tks generalizing last with
  | nil => simp [codeOf, lastPos]
  | cons t tks ih => rw [List.cons_append, codeOf, ih, codeOf, List.append_assoc, lastPos]

theorem growing_concat (h : Growing last tks) (hpos : lastPos last tks < tk.pos) (hq : tk.quantized ≠ 0) :
    Growing last (tks ++ [tk]) := by
  induction tks generalizing last with
  | nil => exact ⟨hpos, hq, trivial⟩
  | cons t tks ih => exact ⟨h.1, h.2.1, ih h.2.2 hpos⟩

end Tokens

/-- After the elements before `n`, the stream is the code of `tks`. -/
structure Encoded (st : Enc) (n : Nat) (tks : List Token) : Prop where
  wrote : Wrote st.writer (codeOf (-1) tks)
  last : st.last = lastPos (-1) tks
  growing : Growing (-1) tks
  last_lt : st.last < n

section Encode
variable {K : Type} [Field K] [LinearOrder K] [FloorSemiring K] (cfg : Cfg) (scale : K) (src : Nat → K)

theorem encode_step {st : Enc} {n : Nat} {tks : List Token} (h : Encoded st n tks) :
    ∃ tks', Encoded (encode cfg scale src st n) (n + 1) tks' := by
  have hlt := h.last_lt
  simp only [encode]
  split
  · next hq =>
    let tk : Token := ⟨n, src n < 0, (quantize cfg scale st.rng (src n)).1⟩
    refine ⟨tks ++ [tk], ?_, (lastPos_concat tk).symm, growing_concat tk h.growing (h.last ▸ hlt) hq, ?_⟩
    · have := ((h.wrote.eliasDeltaEncode (n - st.last).toNat).put (src n < 0)).eliasDeltaEncode
        (quantize cfg scale st.rng (src n)).1.toNat
      rw [codeOf_concat, Token.code, ← h.last]
      simpa using this
    · show (n : Int) < ((n + 1 : Nat) : Int)
      omega
  · exact ⟨tks, h.wrote, h.last, h.growing, by simp only; omega⟩

theorem encode_run (rng : Rng) (n : Nat) : ∃ tks, Encoded
    ((List.range n).foldl (encode cfg scale src) ⟨{ dptr := fun _ => 0 }, -1, rng⟩) n tks := by
  induction n with
  | zero => exact ⟨[], Wrote.init (by decide) _, rfl, trivial, show (-1 : Int) < (0 : Nat) by decide⟩
  | succ n ih =>
    obtain ⟨tks, h⟩ := ih
    rw [List.range_succ, List.foldl_append, List.foldl_cons, List.foldl_nil]
    exact encode_step cfg scale src h

end Encode

/-- A reader at the code of a token reads it and stands behind it. -/
theorem token_reads {fuel p : Nat} {d : Nat → BitVec 32} {rd : BitReader 32} {last : Int} {tk : Token}
    {rest : List Bool} (hat : rd.At d p) (hs : Spells d p (tk.code last ++ rest)) (hlt : last < tk.pos)
    (hq : tk.quantized ≠ 0) (hfuel : (tk.code last).length ≤ fuel) :
    ∃ rd₁ rd₂, eliasDeltaDecode fuel rd = some ((tk.pos - last).toNat, rd₁) ∧ rd₁.get.1 = tk.signbit ∧
      eliasDeltaDecode fuel rd₁.get.2 = some (tk.quantized.toNat, rd₂) ∧
      rd₂.At d (p + (tk.code last).length) ∧ Spells d (p + (tk.code last).length) rest := by
  have hdiff : (tk.pos - last).toNat ≠ 0 := by omega
  have hq0 : tk.quantized.toNat ≠ 0 := fun h => hq (BitVec.eq_of_toNat_eq h)
  have hlen : (tk.code last).length =
      (eliasDelta (tk.pos - last).toNat).length + (1 + (eliasDelta tk.quantized.toNat).length) := by
    rw [Token.code, List.length_append, List.length_cons, Nat.add_comm 1]
  rw [Token.code, List.append_assoc, List.cons_append] at hs
  obtain ⟨hs₁, hs⟩ := spells_append.mp hs
  obtain ⟨hsign, hs⟩ := spells_cons.mp hs
  obtain ⟨hs₂, hrest⟩ := spells_append.mp hs
  obtain ⟨rd₁, hdec₁, hat₁⟩ := eliasDeltaDecode_of_spells hdiff hat hs₁ (show _ ≤ fuel by omega)
  obtain ⟨hget, hat₂⟩ := hat₁.get
  obtain ⟨rd₂, hdec₂, hat₃⟩ := eliasDeltaDecode_of_spells hq0 hat₂ hs₂ (show _ ≤ fuel by omega)
  refine ⟨rd₁, rd₂, hdec₁, hget.trans hsign, hdec₂, ?_, ?_⟩
  · rwa [hlen, ← Nat.add_assoc, ← Nat.add_assoc]
  · rwa [hlen, ← Nat.add_assoc, ← Nat.add_assoc]

/-- The loop hands the tokens of the stream to `f`, one after the other, and ends. -/
theorem decodeLoop_tokens {β : Type} (f : β → Nat → Bool → BitVec 32 → β) {bits fuel : Nat}
    {d : Nat → BitVec 32} {p : Nat} {rd : BitReader 32} {last : Int} {tks : List Token} (acc : β)
    (hat : rd.At d p) (hs : Spells d p (codeOf last tks)) (hbits : p + (codeOf last tks).length = bits)
    (hlast : -1 ≤ last) (hg : Growing last tks) (hfuel : (codeOf last tks).length < fuel) :
    decodeLoop f bits fuel rd last acc =
      .ok (tks.foldl (fun acc tk => f acc tk.pos tk.signbit tk.quantized) acc) := by
  induction tks generalizing fuel p rd last acc with
  | nil =>
    obtain ⟨fuel, rfl⟩ : ∃ n, fuel = n + 1 := ⟨fuel - 1, by omega⟩
    have : ¬ rd.bits < bits := by rw [hat.bits, ← hbits]; simp [codeOf]
    rw [decodeLoop, if_neg this, List.foldl_nil]
  | cons tk tks ih =>
    obtain ⟨hlt, hq, hg⟩ := hg
    obtain ⟨fuel, rfl⟩ : ∃ n, fuel = n + 1 := ⟨fuel - 1, by omega⟩
    have hpos : last + ((tk.pos - last).toNat : Int) = tk.pos := by omega
    have hcode := tk.code_pos last
    simp only [codeOf, List.length_append] at hs hbits hfuel
    obtain ⟨rd₁, rd₂, hdec₁, hsign, hdec₂, hat₂, hrest⟩ :=
      token_reads hat hs hlt hq (show (tk.code last).length ≤ bits by omega)
    have hmore : rd.bits < bits := by rw [hat.bits]; omega
    rw [decodeLoop, if_pos hmore, hdec₁]
    simp only [hdec₂]
    rw [hpos, hsign, BitVec.ofNat_toNat, BitVec.setWidth_eq, Int.toNat_natCast, List.foldl_cons]
    exact ih _ hat₂ hrest (by omega) (by omega) hg (by omega)

/-! ## What is left out -/

section Law
variable {K : Type}

/-- Elements up to `last` are not touched by tokens behind it. -/
theorem foldl_update_of_le (g : (Nat → K) → Token → K) {last : Int} {tks : List Token}
    (h : Growing last tks) (f : Nat → K) {p : Nat} (hp : (p : Int) ≤ last) :
    tks.foldl (fun f tk => Function.update f tk.pos (g f tk)) f p = f p := by
  induction tks generalizing last f with
  | nil => rfl
  | cons tk tks ih =>
    have hlt := h.1
    rw [List.foldl_cons, ih h.2.2 _ (by omega), Function.update_of_ne (by omega)]

variable [Field K] (cfg : Cfg) (scale : K)

/-- Subtracting the tokens leaves the gradient without what setting them makes of zeros. -/
theorem sub_eq_sub_set {last : Int} {tks : List Token} (h : Growing last tks) (error dst : Nat → K) {p : Nat}
    (hp : last < p) (h0 : dst p = 0) :
    tks.foldl (fun f tk => subValue cfg scale f tk.pos tk.signbit tk.quantized) error p =
      error p - tks.foldl (fun f tk => setValue cfg scale f tk.pos tk.signbit tk.quantized) dst p := by
  induction tks generalizing last error dst with
  | nil => rw [List.foldl_nil, List.foldl_nil, h0, sub_zero]
  | cons tk tks ih =>
    rw [List.foldl_cons, List.foldl_cons]
    by_cases hle : (p : Int) ≤ tk.pos
    · have hsub := foldl_update_of_le (fun f tk => f tk.pos - valueOf cfg scale tk.signbit tk.quantized)
        h.2.2 (subValue cfg scale error tk.pos tk.signbit tk.quantized) hle
      have hset := foldl_update_of_le (fun _ tk => valueOf cfg scale tk.signbit tk.quantized)
        h.2.2 (setValue cfg scale dst tk.pos tk.signbit tk.quantized) hle
      have hhere : subValue cfg scale error tk.pos tk.signbit tk.quantized p =
          error p - setValue cfg scale dst tk.pos tk.signbit tk.quantized p := by
        by_cases hpos : p = tk.pos
        · subst hpos
          simp only [subValue, setValue, Function.update_self]
        · simp only [subValue, setValue, Function.update_of_ne hpos, h0, sub_zero]
      exact hsub.trans (hhere.trans (congrArg (error p - ·) hset.symm))
    · have hne : p ≠ tk.pos := by omega
      have hset : setValue cfg scale dst tk.pos tk.signbit tk.quantized p = 0 := by
        rw [setValue, Function.update_of_ne hne, h0]
      rw [ih h.2.2 _ _ (by omega) hset, subValue, Function.update_of_ne hne]

/-- What the readers find in the words. -/
theorem streamTensor_reads (wr : BitWriter 32) (hbits : wr.bits < 2 ^ 24) :
    ((streamTensor wr scale).size - 4 - 4) / 4 = wr.blocks ∧
    ((streamTensor wr scale).intAt wr.blocks).toNat = wr.bits ∧
    (streamTensor wr scale).floatAt (wr.blocks + 1) = scale ∧
    ∀ j < wr.blocks, (streamTensor wr scale).intAt j = wr.dptr j := by
  refine ⟨?_, ?_, ?_, fun j hj => ?_⟩
  · show (wr.blocks * 4 + 4 + 4 - 4 - 4) / 4 = _
    omega
  · simp only [streamTensor, Tensor.intAt, lt_irrefl, if_false, if_true, BitVec.toNat_ofNat]
    omega
  · simp [streamTensor, Tensor.floatAt]
  · simp only [streamTensor, Tensor.intAt, if_pos hj]

/-- The readers' loop on what the writer has written. -/
theorem decodeLoop_streamTensor {β : Type} (f : β → Nat → Bool → BitVec 32 → β) (acc : β)
    {wr : BitWriter 32} {tks : List Token} (hw : Wrote wr (codeOf (-1) tks)) (hg : Growing (-1) tks)
    (hbits : wr.flush.bits < 2 ^ 24) :
    decodeLoop f wr.flush.bits (wr.flush.bits + 1) { dptr := (streamTensor wr.flush scale).intAt } (-1) acc =
      .ok (tks.foldl (fun acc tk => f acc tk.pos tk.signbit tk.quantized) acc) := by
  obtain ⟨hs, hlen⟩ := hw.flush
  have hreads := (streamTensor_reads scale wr.flush hbits).2.2.2
  refine decodeLoop_tokens f acc (.init (by decide) _) (fun i b hb => ?_) (by omega) (by decide) hg (by omega)
  have hi := (List.getElem?_eq_some_iff.mp hb).1
  have hblock : (0 + i) / 32 < wr.flush.blocks := by
    show (0 + i) / 32 < (wr.flush.bits + (32 - 1)) / 32
    omega
  rw [bitAt, hreads _ hblock]
  exact hs i b hb

section
variable (sh : Shape) {wr : BitWriter 32} {tks : List Token} (hw : Wrote wr (codeOf (-1) tks))
  (hg : Growing (-1) tks) (hbits : wr.flush.bits < 2 ^ 24)
include hw hg hbits

theorem decompress_streamTensor (dst : Nat → K) :
    decompress cfg sh (streamTensor wr.flush scale) dst = .ok (tks.foldl
      (fun f tk => setValue cfg scale f tk.pos tk.signbit tk.quantized) (sh.memset dst)) := by
  obtain ⟨hsize, hint, hfloat, -⟩ := streamTensor_reads scale wr.flush hbits
  simp only [decompress, hsize, hint, hfloat]
  exact decodeLoop_streamTensor scale _ _ hw hg hbits

theorem fastUpdateError_streamTensor (error corrected : Nat → K) :
    fastUpdateError cfg sh error corrected (streamTensor wr.flush scale) = .ok (tks.foldl
      (fun f tk => subValue cfg scale f tk.pos tk.signbit tk.quantized) (sh.memcpy error corrected)) := by
  obtain ⟨hsize, hint, hfloat, -⟩ := streamTensor_reads scale wr.flush hbits
  simp only [fastUpdateError, hsize, hint, hfloat]
  exact decodeLoop_streamTensor scale _ _ hw hg hbits

end

variable [LinearOrder K] [FloorSemiring K] (sqrt : K → K)

theorem compress_fault {sh : Shape} {rng : Rng} {src : Nat → K} {f : Fault}
    (h : compress sqrt cfg sh rng src = .error f) : f ∈ [Fault.zeros, .stream] := by
  unfold compress at h
  split at h
  · cases h; exact List.mem_cons_self
  · simp only at h
    split at h
    · cases h
    · cases h; exact List.mem_cons_of_mem _ List.mem_cons_self

theorem compress_ok {sh : Shape} {rng rng' : Rng} {src : Nat → K} {t : Tensor K}
    (h : compress sqrt cfg sh rng src = .ok (rng', t)) :
    let scale := scaleOf sqrt cfg.ntype sh.len src
    let wr := ((List.range sh.len).foldl (encode cfg scale src) ⟨{ dptr := fun _ => 0 }, -1, rng⟩).writer.flush
    wr.bits < 2 ^ 24 ∧ t = streamTensor wr scale := by
  unfold compress at h
  split at h
  · cases h
  · simp only at h
    split at h
    · next hbits => exact ⟨hbits, (Prod.mk.inj (Except.ok.inj h)).2.symm⟩
    · cases h

/-- What `compress` returns is the stream of some tokens. -/
theorem compress_tokens {sh : Shape} {rng rng' : Rng} {src : Nat → K} {t : Tensor K}
    (h : compress sqrt cfg sh rng src = .ok (rng', t)) :
    ∃ wr tks, Wrote wr (codeOf (-1) tks) ∧ Growing (-1) tks ∧ wr.flush.bits < 2 ^ 24 ∧
      t = streamTensor wr.flush (scaleOf sqrt cfg.ntype sh.len src) := by
  obtain ⟨hbits, ht⟩ := compress_ok cfg sqrt h
  obtain ⟨tks, henc⟩ := encode_run cfg (scaleOf sqrt cfg.ntype sh.len src) src rng sh.len
  exact ⟨_, tks, henc.wrote, henc.growing, hbits, ht⟩

theorem dithering_lawful (sh : Shape) : Lawful sh [.zeros, .stream] (dithering sqrt cfg sh) where
  fault := fun _ _ _ h => compress_fault cfg sqrt h
  error := by
    intro rng src rng' t h dst error
    obtain ⟨wr, tks, hw, hg, hbits, rfl⟩ := compress_tokens cfg sqrt h
    refine ⟨_, _, decompress_streamTensor cfg _ sh hw hg hbits dst,
      fastUpdateError_streamTensor cfg _ sh hw hg hbits error src, fun i hi => ?_⟩
    rw [sub_eq_sub_set cfg _ hg _ _ (by omega) (sh.memset_of_lt dst hi), sh.memcpy_of_lt error src hi]

end Law
end Inca.L2.Dithering
