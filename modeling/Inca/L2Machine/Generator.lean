import Inca.Core.ShiftXor
import Inca.L2Machine.Compress

/-!
# The state of the random number generator (`compressor/utils.h`)

`XorShift128PlusBitShifterRNG` keeps two words, and every draw replaces them once. The update is a
chain of steps that can be undone, so only the state of zeros leads to the state of zeros; a generator
with a seed other than 0 stays away from it.

* `next_injective`: no two states have the same successor.
* `draw_ne_zero`, `draws_ne_zero`: one draw, and any number of them.
-/
namespace Inca.L2.Generator
open Inca.L2.Compress Inca.ShiftXor

/-! ## The code -/

/-- mirrors byteps/byteps/common/compressor/utils.h:94 -/
def setSeed (seed : BitVec 64) : Rng := ⟨seed, seed⟩

/-- The state behind one call of `xorshift128p`.
mirrors byteps/byteps/common/compressor/utils.h:101-110 -/
def next (rng : Rng) : Rng := rng.xorshift128p.2

def zero : Rng := ⟨0, 0⟩

/-- The calls that draw a number.
mirrors byteps/byteps/common/compressor/utils.h:82-91 -/
inductive Draw (K : Type)
  | randint (low high : BitVec 64)
  | rand
  | bernoulli (p : K)

section
variable {K : Type} [Field K] [LinearOrder K]

/-- mirrors byteps/byteps/common/compressor/utils.h:87 -/
def rand (rng : Rng) : K × Rng :=
  let r := rng.xorshift128p
  ((r.1.toNat : K) / ((2 ^ 64 - 1 : Nat) : K), r.2)

/-- The state behind a call. -/
def Draw.run (rng : Rng) : Draw K → Rng
  | .randint low high => (rng.randint low high).2
  | .rand => (Generator.rand (K := K) rng).2
  | .bernoulli p => (rng.bernoulli p).2

end

/-! ## The update -/

theorem next_injective : Function.Injective next := by
  intro r r' h
  obtain ⟨a, b⟩ := r
  obtain ⟨a', b'⟩ := r'
  obtain ⟨hb, ht⟩ := Rng.mk.inj h
  have hb : b = b' := hb
  subst hb
  -- the word `b` is the same, so its part of the last step cancels
  have ht : a ^^^ a <<< 23 ^^^ (a ^^^ a <<< 23) >>> 17 = a' ^^^ a' <<< 23 ^^^ (a' ^^^ a' <<< 23) >>> 17 :=
    (BitVec.xor_left_inj _).mp ht
  have hleft : a ^^^ a <<< 23 = a' ^^^ a' <<< 23 := xor_shiftRight_injective (show 0 < 17 by omega) ht
  have ha : a = a' := xor_shiftLeft_injective (show 0 < 23 by omega) hleft
  rw [ha]

theorem next_zero : next zero = zero := by decide

theorem next_ne_zero {rng : Rng} (h : rng ≠ zero) : next rng ≠ zero := by
  intro hzero
  rw [← next_zero] at hzero
  exact h (next_injective hzero)

/-! ## Draws -/

section
variable {K : Type} [Field K] [LinearOrder K]

/-- Every call updates the state once. -/
theorem Draw.run_eq (rng : Rng) (d : Draw K) : d.run rng = next rng := by
  cases d with
  | randint low high => rfl
  | rand => rfl
  | bernoulli p => rfl

/-- **One draw.** -/
theorem draw_ne_zero {rng : Rng} (h : rng ≠ zero) (d : Draw K) : d.run rng ≠ zero := by
  rw [Draw.run_eq]
  exact next_ne_zero h

/-- **Any number of draws.** -/
theorem draws_ne_zero {rng : Rng} (h : rng ≠ zero) (draws : List (Draw K)) : draws.foldl Draw.run rng ≠ zero := by
  induction draws generalizing rng with
  | nil => exact h
  | cons d draws ih =>
    rw [List.foldl_cons]
    exact ih (draw_ne_zero h d)

theorem setSeed_ne_zero {seed : BitVec 64} (h : seed ≠ 0) : setSeed seed ≠ zero := by
  intro hzero
  exact h (Rng.mk.inj hzero).1

variable (K)

/-- **The generator.** The update of the state loses nothing and keeps the zeros, which no seed but 0
leads to. -/
theorem seeded_ne_zero : Function.Injective next ∧ next zero = zero ∧
    ∀ seed : BitVec 64, seed ≠ 0 → ∀ draws : List (Draw K), draws.foldl Draw.run (setSeed seed) ≠ zero :=
  ⟨next_injective, next_zero, fun _ hseed draws => draws_ne_zero (setSeed_ne_zero hseed) draws⟩

end

/-- The seed 1, and three draws. -/
theorem seeded_ne_zero_three :
    ([.rand, .bernoulli (1 / 2), .randint 0 10] : List (Draw ℚ)).foldl Draw.run (setSeed 1) ≠ zero :=
  (seeded_ne_zero ℚ).2.2 1 (by decide) _

end Inca.L2.Generator
