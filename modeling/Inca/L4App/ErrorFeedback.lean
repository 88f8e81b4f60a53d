import Mathlib.Algebra.BigOperators.Group.Finset.Basic
import Mathlib.Data.Rat.Floor
import Mathlib.Tactic.FieldSimp
import Inca.L2Machine.Dithering

/-!
# Error feedback (`error_feedback.cc`, `vanilla_error_feedback.cc`)

What a compressor loses of a gradient is kept in a buffer and added to the
next one, scaled by the quotient of the learning rates:

  `p_t = g_t + (l_{t-1} / l_t) e_{t-1}`, send `c_t = Compress(p_t)`,
  `e_t = p_t - Decompress(c_t)`.

The learning rate is read from a file at every call. `lr 0` is what the
constructor reads, `lr t` what call `t` reads; the buffer starts with zeros.

* `balanced_step`: one call keeps the balance of what came in, what went out
  and what is stored.
* `feedback_sum`: for the four compressors, over every run: the weighted sum
  of what goes out plus the weighted error is the weighted sum of the
  gradients.
-/
namespace Inca.L4.ErrorFeedback
open Inca.L2.Compress Inca.L2.Dithering

section Feedback
variable {K : Type} [Field K]

/-- `rng` is the state of the compressor inside.
mirrors byteps/byteps/common/compressor/impl/vanilla_error_feedback.h:44-63 -/
structure State (K : Type) where
  error : Nat → K
  preLr : K
  rng : Rng

/-- mirrors byteps/byteps/common/compressor/error_feedback.h:51-56, vanilla_error_feedback.cc:42-51 -/
def State.init (lr : K) (rng : Rng) : State K := ⟨fun _ => 0, lr, rng⟩

/-- `CpuReducer::sum` of `len` floats.
mirrors byteps/byteps/common/cpu_reducer.cc:236-272 -/
def sum (len : Nat) (dst src : Nat → K) (alpha : K) (i : Nat) : K :=
  if i < len then dst i + alpha * src i else dst i

/-- mirrors byteps/byteps/common/compressor/impl/vanilla_error_feedback.cc:58-64 -/
def updateGradient (sh : Shape) (s : State K) (curLr : K) (grad : Nat → K) : Nat → K :=
  sum sh.len grad s.error (s.preLr / curLr)

/-- mirrors byteps/byteps/common/compressor/error_feedback.cc:22-43 -/
def compress (c : Compressor K) (sh : Shape) (s : State K) (curLr : K) (grad : Nat → K) :
    Except Fault (State K × Tensor K) := do
  let grad := updateGradient sh s curLr grad
  let (rng, compressed) ← c.compress s.rng grad
  let error ← c.fastUpdateError s.error grad compressed
  return (⟨error, curLr, rng⟩, compressed)

/-- `T` calls, and what they send. -/
def run (c : Compressor K) (sh : Shape) (rng : Rng) (lr : Nat → K) (g : Nat → Nat → K) :
    Nat → Except Fault (State K × List (Tensor K))
  | 0 => .ok (.init (lr 0) rng, [])
  | T + 1 => do
    let (s, sent) ← run c sh rng lr g T
    let (s, t) ← compress c sh s (lr (T + 1)) (g (T + 1))
    return (s, sent ++ [t])

/-- After `T` calls: everything sent can be decompressed, to `out`, whatever the destination held
before, and together with the stored error it makes up the gradients. -/
structure Balanced (c : Compressor K) (sh : Shape) (lr : Nat → K) (g : Nat → Nat → K) (T : Nat)
    (s : State K) (sent : List (Tensor K)) : Prop where
  length : sent.length = T
  preLr : s.preLr = lr T
  sum : ∀ dst : Nat → Nat → K, ∃ out : Nat → Nat → K,
    (∀ t x, sent[t]? = some x → c.decompress x (dst t) = .ok (out t)) ∧
    ∀ i < sh.len, ∑ t ∈ Finset.range T, lr (t + 1) * out t i + lr T * s.error i =
      ∑ t ∈ Finset.range T, lr (t + 1) * g (t + 1) i

variable {c : Compressor K} {sh : Shape} {faults : List Fault} {rng : Rng} {lr : Nat → K} {g : Nat → Nat → K}

/-- A call fails at a check, or it returns and the stored error is what its gradient and the error
before have more than what is sent. -/
theorem compress_spec (hc : Lawful sh faults c) (s : State K) {curLr : K} (hl : curLr ≠ 0) (grad : Nat → K) :
    (∃ f ∈ faults, compress c sh s curLr grad = .error f) ∨
    ∃ s' t, compress c sh s curLr grad = .ok (s', t) ∧ s'.preLr = curLr ∧
      ∀ dst, ∃ out, c.decompress t dst = .ok out ∧
        ∀ i < sh.len, curLr * out i + curLr * s'.error i = curLr * grad i + s.preLr * s.error i := by
  cases hcomp : c.compress s.rng (updateGradient sh s curLr grad) with
  | error f =>
    exact .inl ⟨f, hc.fault _ _ f hcomp, by simp only [compress, hcomp]; rfl⟩
  | ok r =>
    obtain ⟨rng', t⟩ := r
    have hlaw := hc.error s.rng _ rng' t hcomp
    obtain ⟨-, error, -, herror, -⟩ := hlaw (fun _ => 0) s.error
    have hret : compress c sh s curLr grad = .ok (⟨error, curLr, rng'⟩, t) := by
      simp only [compress, bind, Except.bind, hcomp, herror]
      rfl
    refine .inr ⟨_, t, hret, rfl, fun dst => ?_⟩
    obtain ⟨out, error', hout, herror', hsub⟩ := hlaw dst s.error
    obtain rfl := Except.ok.inj (herror.symm.trans herror')
    refine ⟨out, hout, fun i hi => ?_⟩
    simp only [hsub i hi, updateGradient, sum, if_pos hi]
    field_simp
    ring

/-- One more call keeps the balance. -/
theorem balanced_step (hc : Lawful sh faults c) {T : Nat} (hl : lr (T + 1) ≠ 0) {s : State K}
    {sent : List (Tensor K)} (h : Balanced c sh lr g T s sent) :
    (∃ f ∈ faults, compress c sh s (lr (T + 1)) (g (T + 1)) = .error f) ∨
    ∃ s' t, compress c sh s (lr (T + 1)) (g (T + 1)) = .ok (s', t) ∧
      Balanced c sh lr g (T + 1) s' (sent ++ [t]) := by
  refine (compress_spec hc s hl (g (T + 1))).imp_right ?_
  rintro ⟨s', t, hcomp, hpre, hsum⟩
  refine ⟨s', t, hcomp, by simp [h.length], hpre, fun dst => ?_⟩
  obtain ⟨out, hout, hbal⟩ := h.sum dst
  obtain ⟨last, hlast, hstep⟩ := hsum (dst T)
  refine ⟨Function.update out T last, fun t' x hx => ?_, fun i hi => ?_⟩
  · rcases Nat.lt_or_ge t' sent.length with hlt | hge
    · rw [List.getElem?_append_left hlt] at hx
      rw [Function.update_of_ne (by rw [h.length] at hlt; omega)]
      exact hout t' x hx
    · have ht : t' = T := by
        have := (List.getElem?_eq_some_iff.mp hx).1
        rw [List.length_append, List.length_singleton, h.length] at this
        rw [h.length] at hge
        omega
      subst ht
      rw [← h.length, List.getElem?_concat_length] at hx
      obtain rfl := Option.some.inj hx
      rw [Function.update_self]
      exact hlast
  · have hold : ∑ t ∈ Finset.range T, lr (t + 1) * Function.update out T last t i =
        ∑ t ∈ Finset.range T, lr (t + 1) * out t i := by
      refine Finset.sum_congr rfl fun t ht => ?_
      rw [Function.update_of_ne (Finset.mem_range.mp ht).ne]
    rw [Finset.sum_range_succ, Finset.sum_range_succ, hold, Function.update_self, ← hbal i hi, add_assoc,
      hstep i hi, h.preLr]
    ring

theorem balanced_run (hc : Lawful sh faults c) {T : Nat} (hlr : ∀ t < T, lr (t + 1) ≠ 0) :
    (∃ f ∈ faults, run c sh rng lr g T = .error f) ∨
    ∃ s sent, run c sh rng lr g T = .ok (s, sent) ∧ Balanced c sh lr g T s sent := by
  induction T with
  | zero =>
    refine .inr ⟨_, _, rfl, rfl, rfl, fun dst => ⟨fun _ _ => 0, fun t x hx => by simp at hx, fun i _ => ?_⟩⟩
    simp [State.init]
  | succ T ih =>
    rcases ih fun t ht => hlr t (Nat.lt_succ_of_lt ht) with ⟨f, hf, hrun⟩ | ⟨s, sent, hrun, hbal⟩
    · exact .inl ⟨f, hf, by rw [run, hrun]; rfl⟩
    · rcases balanced_step hc (hlr T (Nat.lt_succ_self T)) hbal with ⟨f, hf, hcomp⟩ | ⟨s', t, hcomp, hbal'⟩
      · refine .inl ⟨f, hf, ?_⟩
        rw [run, hrun]
        simp only [bind, Except.bind, hcomp]
      · refine .inr ⟨s', sent ++ [t], ?_, hbal'⟩
        rw [run, hrun]
        simp only [bind, Except.bind, hcomp]
        rfl

end Feedback

/-! ## The four compressors -/

/-- The registered compressors and their parameters; the registry makes `k` positive. -/
inductive Kind
  | onebit (useScale : Bool)
  | topk (k : Nat) (hk : 0 < k)
  | randomk (k : Nat) (hk : 0 < k)
  | dithering (cfg : Cfg)

section Kinds
variable {K : Type} [Field K] [LinearOrder K] [FloorSemiring K] (sqrt : K → K)

def Kind.compressor (sh : Shape) : Kind → Compressor K
  | .onebit useScale => L2.Compress.onebit useScale sh
  | .topk k _ => L2.Compress.topk k sh
  | .randomk k _ => L2.Compress.randomk k sh
  | .dithering cfg => L2.Dithering.dithering sqrt cfg sh

/-- What a call may fail with. -/
def Kind.faults : Kind → List Fault
  | .onebit _ => []
  | .topk _ _ => [.check]
  | .randomk _ _ => [.check]
  | .dithering _ => [.zeros, .stream]

theorem Kind.lawful (sh : Shape) (kind : Kind) : Lawful sh kind.faults (kind.compressor sqrt sh) := by
  cases kind with
  | onebit useScale => exact onebit_lawful useScale sh
  | topk k hk => exact topk_lawful k sh
  | randomk k hk => exact randomk_lawful k sh
  | dithering cfg => exact dithering_lawful cfg sqrt sh

/-- **Error feedback.** For each of the four compressors, in exact arithmetic, with learning rates that are
not 0: a run of `T` calls fails at a check of the compressor (dithering: at a tensor of zeros or a stream
of `2 ^ 24` bits), or it returns, everything it sent can be decompressed, and for each element the sum over the calls of learning rate times decompressed gradient,
plus the last learning rate times the stored error, is the sum of learning rate times gradient. -/
theorem feedback_sum (kind : Kind) (sh : Shape) (rng : Rng) (lr : Nat → K) (g : Nat → Nat → K) (T : Nat)
    (hlr : ∀ t < T, lr (t + 1) ≠ 0) :
    let c := kind.compressor sqrt sh
    (∃ f ∈ kind.faults, run c sh rng lr g T = .error f) ∨
    ∃ s sent, run c sh rng lr g T = .ok (s, sent) ∧ sent.length = T ∧
      ∀ dst : Nat → Nat → K, ∃ out : Nat → Nat → K,
        (∀ t x, sent[t]? = some x → c.decompress x (dst t) = .ok (out t)) ∧
        ∀ i < sh.len, ∑ t ∈ Finset.range T, lr (t + 1) * out t i + lr T * s.error i =
          ∑ t ∈ Finset.range T, lr (t + 1) * g (t + 1) i := by
  intro c
  refine (balanced_run (kind.lawful sqrt sh) hlr).imp_right ?_
  rintro ⟨s, sent, hrun, hbal⟩
  exact ⟨s, sent, hrun, hbal.length, hbal.sum⟩

end Kinds

/-! ### Two calls with dithering -/

def threeFloats : Shape := ⟨3, by decide⟩

/-- The learning rate is halved before the second call. -/
def halving (t : Nat) : ℚ := if t < 2 then 1 else 1 / 2

def samples (t i : Nat) : ℚ := if i = 1 then 0 else if t = 1 then 3 / 8 - i else 1 + i

def fourLevels : Compressor ℚ := (Kind.dithering ⟨4, .linear, .max⟩).compressor id threeFloats

theorem feedback_sum_two_calls :
    ∃ s sent, run fourLevels threeFloats ⟨1, 2⟩ halving samples 2 = .ok (s, sent) ∧ s.error 0 = -9 / 16 ∧
      ∃ out : Nat → Nat → ℚ, (∀ t x, sent[t]? = some x → fourLevels.decompress x (fun _ => 0) = .ok (out t)) ∧
        ∀ i < 3, ∑ t ∈ Finset.range 2, halving (t + 1) * out t i + halving 2 * s.error i =
          ∑ t ∈ Finset.range 2, halving (t + 1) * samples (t + 1) i := by
  have heval : (run fourLevels threeFloats ⟨1, 2⟩ halving samples 2).toOption.map (fun r => r.1.error 0) =
      some (-9 / 16) := by decide +kernel
  have hlr : ∀ t < 2, halving (t + 1) ≠ 0 := by decide +kernel
  rcases feedback_sum id (.dithering ⟨4, .linear, .max⟩) threeFloats ⟨1, 2⟩ halving samples 2 hlr with
    ⟨f, -, hrun⟩ | ⟨s, sent, hrun, -, hsum⟩
  · rw [fourLevels, hrun] at heval
    cases heval
  · rw [fourLevels, hrun] at heval
    exact ⟨s, sent, hrun, Option.some.inj heval, hsum fun _ _ => 0⟩

end Inca.L4.ErrorFeedback
