import Inca.L2Machine.Dithering

/-!
# The stream of signed levels (`compressor/impl/dithering.cc`)

What the loops of the dithering compressor do with levels once these are
drawn: `CompressImpl` writes the gap, the sign and the level of every element
whose level is not 0, `DecompressImpl` reads them until it has seen as many
bits as were written. Positions are `size_t`: the position before the first
element is `-1`, that is `2 ^ 64 - 1`, and gaps are computed and added up
around it.

* `wroteLevels_step`, `wroteLevels`: the writer's loop writes the code of the
  tokens of the levels.
* `readLevels_tokens`: the reader's loop gives the tokens back, and stops
  behind the last bit of the last one.
* `levels_round_trip`: the levels come out at their positions, and zeros
  elsewhere.
* `encode_levels`: the loop of the compressor is the writer's loop on the
  levels that it draws.
-/
namespace Inca.L2.LevelStream
open Inca.BitList Inca.L1.BitStream Inca.L2.Compress Inca.L2.Dithering

/-! ## The loops -/

structure Level where
  signbit : Bool
  quantized : BitVec 32
  deriving DecidableEq

/-- What a position holds that no level was written for. -/
def Level.zero : Level := ⟨false, 0⟩

/-- The variables of the writer's loop. -/
structure Writing (w : Nat) where
  writer : BitWriter w
  lastNonZeroPos : BitVec 64

/-- `floorLog2` is what `EliasDeltaEncode` takes for `floor(log2(x))`.
mirrors byteps/byteps/common/compressor/impl/dithering.cc:78-84, 95-101 -/
def writeLevelBy {w : Nat} (floorLog2 : Nat → Nat) (levels : Nat → Level) (st : Writing w) (i : Nat) : Writing w :=
  let l := levels i
  if l.quantized ≠ 0 then
    let diff := BitVec.ofNat 64 i - st.lastNonZeroPos
    let wr := eliasDeltaEncodeBy floorLog2 st.writer diff.toNat
    let wr := wr.put l.signbit
    ⟨eliasDeltaEncodeBy floorLog2 wr l.quantized.toNat, BitVec.ofNat 64 i⟩
  else st

/-- mirrors byteps/byteps/common/compressor/impl/dithering.cc:70-103 -/
def writeLevelsBy {w : Nat} (floorLog2 : Nat → Nat) (d : Nat → BitVec w) (levels : Nat → Level) (len : Nat) : Writing w :=
  (List.range len).foldl (writeLevelBy floorLog2 levels) ⟨{ dptr := d }, -1⟩

/-- With the exact logarithm, in words of 32 bits. -/
def writeLevels (d : Nat → BitVec 32) (levels : Nat → Level) (len : Nat) : Writing 32 :=
  writeLevelsBy Nat.log2 d levels len

/-- `none` if the fuel is not enough.
mirrors byteps/byteps/common/compressor/impl/dithering.cc:149-159 -/
def readLevels (bits : BitVec 32) : Nat → BitReader 32 → BitVec 64 → (Nat → Level) →
    Option ((Nat → Level) × BitReader 32)
  | 0, _, _, _ => none
  | fuel + 1, rd, lastNonZeroPos, dst =>
    if rd.bits < bits.toNat then
      match eliasDeltaDecode bits.toNat rd with
      | none => none
      | some (diff, rd) =>
        let i := lastNonZeroPos + BitVec.ofNat 64 diff
        let signbit := rd.get
        match eliasDeltaDecode bits.toNat signbit.2 with
        | none => none
        | some (quantized, rd) =>
          readLevels bits fuel rd i (Function.update dst i.toNat ⟨signbit.1, BitVec.ofNat 32 quantized⟩)
    else some (dst, rd)

theorem writeLevels_succ (d : Nat → BitVec 32) (levels : Nat → Level) (len : Nat) :
    writeLevels d levels (len + 1) = writeLevelBy Nat.log2 levels (writeLevels d levels len) len := by
  rw [writeLevels, writeLevelsBy, List.range_succ, List.foldl_append]
  rfl

/-! ## Positions -/

/-- `x` is the position `pos`, or `-1`. -/
def At64 (x : BitVec 64) (pos : Int) : Prop := -1 ≤ pos ∧ pos < 2 ^ 63 ∧ x = BitVec.ofInt 64 pos

theorem at64_start : At64 (-1) (-1) := ⟨by decide, by decide, by decide⟩

theorem at64_ofNat {i : Nat} (hi : i < 2 ^ 63) : At64 (BitVec.ofNat 64 i) i :=
  ⟨by omega, by omega, (BitVec.ofInt_natCast 64 i).symm⟩

/-- Around `-1` too, a gap is the difference of the positions. -/
theorem At64.sub {x : BitVec 64} {pos : Int} (h : At64 x pos) {i : Nat} (hi : i < 2 ^ 63) (hlt : pos < i) :
    (BitVec.ofNat 64 i - x).toNat = (i - pos).toNat := by
  obtain ⟨hlo, -, rfl⟩ := h
  rw [BitVec.toNat_sub, BitVec.toNat_ofInt, BitVec.toNat_ofNat]
  omega

theorem At64.add {x : BitVec 64} {pos : Int} (h : At64 x pos) {i : Nat} (hi : i < 2 ^ 63) (hlt : pos < i) :
    x + BitVec.ofNat 64 (i - pos).toNat = BitVec.ofNat 64 i := by
  rw [← h.sub hi hlt, BitVec.ofNat_toNat, BitVec.setWidth_eq, BitVec.add_comm, BitVec.sub_add_cancel]

/-! ## Writing -/

/-- The tokens of the first `len` levels. -/
def tokens (levels : Nat → Level) : Nat → List Token
  | 0 => []
  | len + 1 =>
    if (levels len).quantized ≠ 0 then
      tokens levels len ++ [⟨len, (levels len).signbit, (levels len).quantized⟩]
    else tokens levels len

theorem mem_tokens {levels : Nat → Level} {len : Nat} {tk : Token} : tk ∈ tokens levels len ↔
    tk.pos < len ∧ (levels tk.pos).quantized ≠ 0 ∧ levels tk.pos = ⟨tk.signbit, tk.quantized⟩ := by
  induction len with
  | zero => simp [tokens]
  | succ len ih =>
    unfold tokens
    split
    · next hq =>
      rw [List.mem_append, List.mem_singleton, ih]
      constructor
      · intro h
        rcases h with h | rfl
        · exact ⟨by omega, h.2⟩
        · exact ⟨Nat.lt_succ_self len, hq, rfl⟩
      · intro h
        rcases Nat.lt_succ_iff_lt_or_eq.mp h.1 with hlt | heq
        · exact .inl ⟨hlt, h.2⟩
        · obtain ⟨pos, signbit, quantized⟩ := tk
          simp only at heq h
          subst heq
          rw [h.2.2]
          exact .inr rfl
    · next hq =>
      rw [ih]
      constructor
      · intro h
        exact ⟨by omega, h.2⟩
      · intro h
        refine ⟨?_, h.2⟩
        rcases Nat.lt_succ_iff_lt_or_eq.mp h.1 with hlt | heq
        · exact hlt
        · exact absurd (heq ▸ h.2.1) hq

/-- After the levels before `len`, the stream is the code of their tokens. -/
structure WroteLevels (st : Writing 32) (levels : Nat → Level) (len : Nat) : Prop where
  wrote : Wrote st.writer (codeOf (-1) (tokens levels len))
  last : At64 st.lastNonZeroPos (lastPos (-1) (tokens levels len))
  growing : Growing (-1) (tokens levels len)
  last_lt : lastPos (-1) (tokens levels len) < len

theorem wroteLevels_step {st : Writing 32} {levels : Nat → Level} {len : Nat} (h : WroteLevels st levels len)
    (hlen : len < 2 ^ 63) : WroteLevels (writeLevelBy Nat.log2 levels st len) levels (len + 1) := by
  have hlt := h.last_lt
  by_cases hq : (levels len).quantized ≠ 0
  · have hst : writeLevelBy Nat.log2 levels st len = _ := if_pos hq
    have htk : tokens levels (len + 1) =
        tokens levels len ++ [⟨len, (levels len).signbit, (levels len).quantized⟩] := if_pos hq
    rw [hst]
    refine ⟨?_, ?_, ?_, ?_⟩
    · have := ((h.wrote.eliasDeltaEncode (len - lastPos (-1) (tokens levels len)).toNat).put
        (levels len).signbit).eliasDeltaEncode (levels len).quantized.toNat
      rw [htk, codeOf_concat, Token.code]
      simp only [h.last.sub hlen hlt]
      simpa [eliasDeltaEncode] using this
    · rw [htk, lastPos_concat]
      exact at64_ofNat hlen
    · rw [htk]
      exact growing_concat _ h.growing hlt hq
    · rw [htk, lastPos_concat]
      show (len : Int) < ((len + 1 : Nat) : Int)
      omega
  · have hst : writeLevelBy Nat.log2 levels st len = st := if_neg hq
    have htk : tokens levels (len + 1) = tokens levels len := if_neg hq
    rw [hst]
    refine ⟨htk ▸ h.wrote, htk ▸ h.last, htk ▸ h.growing, ?_⟩
    rw [htk]
    omega

theorem wroteLevels (d : Nat → BitVec 32) (levels : Nat → Level) {len : Nat} (hlen : len ≤ 2 ^ 63) :
    WroteLevels (writeLevels d levels len) levels len := by
  induction len with
  | zero => exact ⟨Wrote.init (by decide) d, at64_start, trivial, show (-1 : Int) < (0 : Nat) by decide⟩
  | succ len ih =>
    rw [writeLevels_succ]
    exact wroteLevels_step (ih (by omega)) (by omega)

/-! ## Reading -/

/-- The loop gives the tokens of the stream to their positions and stops behind the last one. -/
theorem readLevels_tokens {bits : BitVec 32} {fuel p : Nat} {d : Nat → BitVec 32} {rd : BitReader 32}
    {x : BitVec 64} {last : Int} {tks : List Token} (dst : Nat → Level) (hat : rd.At d p)
    (hs : Spells d p (codeOf last tks)) (hbits : p + (codeOf last tks).length = bits.toNat) (hx : At64 x last)
    (hg : Growing last tks) (hpos : ∀ tk ∈ tks, tk.pos < 2 ^ 63) (hfuel : (codeOf last tks).length < fuel) :
    ∃ rd', readLevels bits fuel rd x dst = some (tks.foldl (fun dst tk =>
        Function.update dst tk.pos ⟨tk.signbit, tk.quantized⟩) dst, rd') ∧ rd'.bits = bits.toNat := by
  induction tks generalizing fuel p rd x last dst with
  | nil =>
    obtain ⟨fuel, rfl⟩ : ∃ n, fuel = n + 1 := ⟨fuel - 1, by omega⟩
    have hend : rd.bits = bits.toNat := by rw [hat.bits, ← hbits]; rfl
    refine ⟨rd, ?_, hend⟩
    rw [readLevels, if_neg (by omega), List.foldl_nil]
  | cons tk tks ih =>
    obtain ⟨hlt, hq, hg⟩ := hg
    obtain ⟨hpos, hpos'⟩ := List.forall_mem_cons.mp hpos
    obtain ⟨fuel, rfl⟩ : ∃ n, fuel = n + 1 := ⟨fuel - 1, by omega⟩
    have hcode := tk.code_pos last
    simp only [codeOf, List.length_append] at hs hbits hfuel
    obtain ⟨rd₁, rd₂, hdec₁, hsign, hdec₂, hat₂, hrest⟩ :=
      token_reads hat hs hlt hq (show (tk.code last).length ≤ bits.toNat by omega)
    have hmore : rd.bits < bits.toNat := by rw [hat.bits]; omega
    have hi : (BitVec.ofNat 64 tk.pos).toNat = tk.pos := by
      rw [BitVec.toNat_ofNat]
      omega
    rw [readLevels, if_pos hmore, hdec₁]
    simp only [hdec₂]
    rw [hx.add hpos hlt, hi, hsign, BitVec.ofNat_toNat, BitVec.setWidth_eq, List.foldl_cons]
    exact ih _ hat₂ hrest (by omega) (at64_ofNat hpos) hg hpos' (by omega)

/-- **Levels.** For every vector of fewer than `2 ^ 32` levels whose stream has fewer than `2 ^ 32`
bits: the reader's loop ends, it stands behind the last bit, and every position holds its sign and
level, or zero if no level was written for it. -/
theorem levels_round_trip (d : Nat → BitVec 32) (levels : Nat → Level) {len : Nat} (hlen : len < 2 ^ 32)
    (hbits : (writeLevels d levels len).writer.flush.bits < 2 ^ 32) {fuel : Nat}
    (hfuel : (writeLevels d levels len).writer.flush.bits < fuel) :
    let wr := (writeLevels d levels len).writer.flush
    ∃ dst rd, readLevels (BitVec.ofNat 32 wr.bits) fuel { dptr := wr.dptr } (-1) (fun _ => .zero) = some (dst, rd) ∧
      rd.bits = wr.bits ∧
      ∀ i, dst i = if i < len ∧ (levels i).quantized ≠ 0 then levels i else .zero := by
  intro wr
  have h := wroteLevels d levels (show len ≤ 2 ^ 63 by omega)
  obtain ⟨hs, hwr⟩ := h.wrote.flush
  have hcount : (BitVec.ofNat 32 wr.bits).toNat = wr.bits := by
    rw [BitVec.toNat_ofNat, Nat.mod_eq_of_lt hbits]
  obtain ⟨rd, hread, hend⟩ := readLevels_tokens (fun _ => Level.zero) (.init (by decide) wr.dptr) hs
    (show 0 + (codeOf (-1) (tokens levels len)).length = (BitVec.ofNat 32 wr.bits).toNat by
      rw [hcount, Nat.zero_add, ← hwr])
    at64_start h.growing (fun tk htk => (mem_tokens.mp htk).1.trans (by omega))
    (show (codeOf (-1) (tokens levels len)).length < fuel by rw [← hwr]; exact hfuel)
  refine ⟨_, rd, hread, hend.trans hcount, fun i => ?_⟩
  rw [foldl_update Token.pos (fun tk => ⟨tk.signbit, tk.quantized⟩) levels]
  · have hmem : i ∈ (tokens levels len).map Token.pos ↔ i < len ∧ (levels i).quantized ≠ 0 := by
      rw [List.mem_map]
      constructor
      · intro h
        obtain ⟨tk, htk, rfl⟩ := h
        exact ⟨(mem_tokens.mp htk).1, (mem_tokens.mp htk).2.1⟩
      · intro h
        exact ⟨⟨i, (levels i).signbit, (levels i).quantized⟩, mem_tokens.mpr ⟨h.1, h.2, rfl⟩, rfl⟩
    simp only [hmem]
  · intro tk htk
    exact (mem_tokens.mp htk).2.2.symm

/-- Three levels, the middle one 0. -/
def threeLevels (i : Nat) : Level := if i = 1 then ⟨true, 0⟩ else ⟨i = 2, BitVec.ofNat 32 (i + 3)⟩

theorem levels_round_trip_three : ∃ dst rd,
    readLevels 16 17 { dptr := (writeLevels (fun _ => 0) threeLevels 3).writer.flush.dptr } (-1) (fun _ => .zero) =
      some (dst, rd) ∧ rd.bits = 16 ∧ dst 0 = ⟨false, 3⟩ ∧ dst 1 = .zero ∧ dst 2 = ⟨true, 5⟩ := by
  have hbits : (writeLevels (fun _ => 0) threeLevels 3).writer.flush.bits = 16 := by decide +kernel
  obtain ⟨dst, rd, hread, hend, hdst⟩ := levels_round_trip (fun _ => 0) threeLevels (show 3 < 2 ^ 32 by decide)
    (by rw [hbits]; decide) (show _ < 17 by rw [hbits]; decide)
  rw [hbits] at hread hend
  refine ⟨dst, rd, hread, hend, ?_, ?_, ?_⟩
  · rw [hdst]; decide
  · rw [hdst]; decide
  · rw [hdst]; decide

/-! ## The compressor's loop -/

section Encode
variable {K : Type} [Field K] [LinearOrder K] [FloorSemiring K] (cfg : Cfg) (scale : K) (src : Nat → K)

/-- The generator before element `i`. -/
def rngAt (rng : Rng) : Nat → Rng
  | 0 => rng
  | i + 1 => (quantize cfg scale (rngAt rng i) (src i)).2

/-- The signs and levels of the elements. -/
def drawn (rng : Rng) (i : Nat) : Level :=
  ⟨decide (src i < 0), (quantize cfg scale (rngAt cfg scale src rng i) (src i)).1⟩

/-- The loop of `CompressImpl` writes the levels that it draws. -/
theorem encode_levels (rng : Rng) {len : Nat} (hlen : len ≤ 2 ^ 63) :
    let st := (List.range len).foldl (encode cfg scale src) ⟨{ dptr := fun _ => 0 }, -1, rng⟩
    st.writer = (writeLevels (fun _ => 0) (drawn cfg scale src rng) len).writer ∧
    At64 (writeLevels (fun _ => 0) (drawn cfg scale src rng) len).lastNonZeroPos st.last ∧
    st.last < len ∧ st.rng = rngAt cfg scale src rng len := by
  induction len with
  | zero => exact ⟨rfl, at64_start, show (-1 : Int) < (0 : Nat) by decide, rfl⟩
  | succ len ih =>
    obtain ⟨hwr, hlast, hlt, hrng⟩ := ih (by omega)
    simp only [writeLevels_succ, List.range_succ, List.foldl_append, List.foldl_cons, List.foldl_nil]
    generalize (List.range len).foldl (encode cfg scale src) ⟨{ dptr := fun _ => 0 }, -1, rng⟩ = st at *
    generalize hw : writeLevels (fun _ => 0) (drawn cfg scale src rng) len = ws at *
    have hquant : (drawn cfg scale src rng len).quantized = (quantize cfg scale st.rng (src len)).1 := by
      rw [hrng]; rfl
    unfold encode writeLevelBy
    simp only [hquant]
    split
    · next hq =>
      refine ⟨?_, at64_ofNat (by omega), ?_, ?_⟩
      · rw [hlast.sub (by omega) hlt, hwr]
        rfl
      · show (len : Int) < ((len + 1 : Nat) : Int)
        omega
      · rw [hrng]; rfl
    · refine ⟨hwr, hlast, ?_, ?_⟩
      · show st.last < ((len + 1 : Nat) : Int)
        omega
      · rw [hrng]; rfl

end Encode
end Inca.L2.LevelStream
