import Inca.Core.LTS
import Inca.Core.Maximum
import Mathlib.Algebra.Group.Action.Defs
import Mathlib.Algebra.Order.BigOperators.Group.Finset
import Mathlib.Algebra.Order.Ring.Abs
import Mathlib.Algebra.Order.Ring.Rat
import Mathlib.Tactic.Ring

/-!
# The scale of TernGrad (`gpu_compressor/terngrad.cu`)

`terngrad_scale` looks for the largest absolute value. Up to 200 elements are one loop of one
thread. Above that, `para_max` runs in 32 blocks of 128 threads: a thread scans the elements of
its stride, writes what it has to the shared cache of its block, and the cells of the cache
are then reduced by halves, with a barrier after every round.

A thread is a program counter (`Pc`), and one label of `step` is one access of one thread to
the memory, so that the runs are all the orders in which the threads can take place. A barrier
lets the threads of a block go when all of them wait (`Action.release`). An access behind the
cache has no step. The cache and the results are not initialised.

Values are finite: they are numbers, and only compared.

* `Move`, `move_of_threadStep`: what one step of a thread can do.
* `ThreadOk`: what a thread knows about its cells, by phase. `step_ok`: steps keep it.
* `descends`: every step comes closer to the end.
* `complete_of_last`: a run that cannot go on has ended, in all threads.
* `terngradScale_iff`: what is returned is the maximum.
-/
namespace Inca.L2.GradMax
open Inca.Maximum

variable {K : Type} [Ring K] [LinearOrder K]

/-! ## The code -/

/-- A vector in the memory of the device; its bytes are counted by a `size_t`. -/
structure Gradient (K : Type) where
  len : Nat
  ptr : Nat → K
  bytes_lt : 4 * len < 2 ^ 64

/-- Where a thread of `para_max` is. -/
inductive Pc (K : Type)
  /-- at the head of the first loop -/
  | scan (i : Nat) (res : K)
  | store (res : K)
  /-- at a barrier; `inc` is what the reduction goes on with -/
  | wait (inc : Nat)
  /-- at the head of the reduction -/
  | test (inc : Nat)
  /-- has read `res_cache[cacheIndex + inc]` -/
  | loaded (inc : Nat) (other : K)
  /-- the condition was true -/
  | copy (inc : Nat)
  /-- has read `res_cache[cacheIndex + inc]` again -/
  | copied (inc : Nat) (other : K)
  | finish
  | done

/-- What a step of a thread writes: `res_cache[cacheIndex]` or `result[blockIdx.x]`. -/
inductive Effect (K : Type)
  | none
  | cache (x : K)
  | result (x : K)

/-- `blockIdx.x * blockDim.x + threadIdx.x` -/
def index (b t : Nat) : Nat := b * 128 + t

/-- One step of thread `t` of a block.
mirrors byteps/byteps/common/gpu_compressor/terngrad.cu:33-62 -/
def threadStep (v : Gradient K) (t : Nat) (cache : Nat → K) : Pc K → Option (Pc K × Effect K)
  | .scan i res =>
    if i < v.len then some (.scan ((i + 4096) % 2 ^ 64) (if |v.ptr i| > res then |v.ptr i| else res), .none)
    else some (.store res, .none)
  | .store res => some (.wait (128 / 2), .cache res)
  | .wait _ => none
  | .test inc =>
    if inc ≠ 0 then
      if t < inc then if t + inc < 128 then some (.loaded inc (cache (t + inc)), .none) else none
      else some (.wait (inc / 2), .none)
    else if t = 0 then some (.finish, .none) else some (.done, .none)
  | .loaded inc other => if other > cache t then some (.copy inc, .none) else some (.wait (inc / 2), .none)
  | .copy inc => if t + inc < 128 then some (.copied inc (cache (t + inc)), .none) else none
  | .copied inc other => some (.wait (inc / 2), .cache other)
  | .finish => some (.done, .result (cache 0))
  | .done => none

/-- The threads of a block, and its shared memory. -/
structure Block (K : Type) where
  pc : Nat → Pc K
  cache : Nat → K

structure State (K : Type) where
  blocks : Nat → Block K
  result : Nat → K

/-- A step of a thread, or a barrier that all threads of the block have reached. -/
inductive Action
  | thread (b t : Nat)
  | release (b : Nat)

def Pc.isWait : Pc K → Bool
  | .wait _ => true
  | _ => false

def Pc.release : Pc K → Pc K
  | .wait inc => .test inc
  | pc => pc

def Effect.onCache (t : Nat) (cache : Nat → K) : Effect K → Nat → K
  | .cache x => Function.update cache t x
  | _ => cache

def Effect.onResult (b : Nat) (result : Nat → K) : Effect K → Nat → K
  | .result x => Function.update result b x
  | _ => result

/-- `para_max<<<32, 128>>>`.
mirrors byteps/byteps/common/gpu_compressor/terngrad.cu:117-125 -/
def step (v : Gradient K) (s : State K) : Action → Option (State K)
  | .thread b t =>
    if b < 32 ∧ t < 128 then
      (threadStep v t (s.blocks b).cache ((s.blocks b).pc t)).map fun (pc, effect) =>
        { blocks := Function.update s.blocks b
            ⟨Function.update (s.blocks b).pc t pc, effect.onCache t (s.blocks b).cache⟩
          result := effect.onResult b s.result }
    else none
  | .release b =>
    if b < 32 ∧ (List.range 128).all fun t => ((s.blocks b).pc t).isWait then
      some { s with blocks := Function.update s.blocks b ⟨fun t => ((s.blocks b).pc t).release, (s.blocks b).cache⟩ }
    else none

/-- All threads are at their first element; what the memory holds is not known. -/
def Start (s : State K) : Prop := ∀ b < 32, ∀ t < 128, (s.blocks b).pc t = .scan (index b t) (-1)

def Complete (s : State K) : Prop := ∀ b < 32, ∀ t < 128, (s.blocks b).pc t = .done

def paraMax (v : Gradient K) : LTS (State K) Action := .ofFn Start (step v)

/-- The loop of the host over the results of the blocks.
mirrors byteps/byteps/common/gpu_compressor/terngrad.cu:132-134 -/
def hostMax (result : Nat → K) : K :=
  (List.range 32).foldl (fun gradMax i => if result i > gradMax then result i else gradMax) 0

/-- mirrors byteps/byteps/common/gpu_compressor/terngrad.cu:20-21, 26-27 -/
def gradAbs (x : K) : K := if x ≥ 0 then x else -x

/-- `find_grad_max<<<1, 1>>>`.
mirrors byteps/byteps/common/gpu_compressor/terngrad.cu:14-31 -/
def findGradMax (v : Gradient K) : K :=
  (List.range v.len).foldl (fun gradMax i => if gradAbs (v.ptr i) > gradMax then gradAbs (v.ptr i) else gradMax)
    (gradAbs (v.ptr 0))

/-- `r` is what some run returns; the results are copied when the kernel has ended.
mirrors byteps/byteps/common/gpu_compressor/terngrad.cu:110-145 -/
def TerngradScale (v : Gradient K) (r : K) : Prop :=
  if v.len > 200 then ∃ s, (paraMax v).Reachable s ∧ Complete s ∧ r = hostMax s.result
  else r = findGradMax v

/-! ## Steps -/

/-- **What a step of a thread can do.** -/
inductive Move (v : Gradient K) (t : Nat) (cache : Nat → K) : Pc K → Pc K → Effect K → Prop
  | scan {i : Nat} {res : K} : i < v.len → Move v t cache (.scan i res)
      (.scan ((i + 4096) % 2 ^ 64) (if |v.ptr i| > res then |v.ptr i| else res)) .none
  | scanned {i : Nat} {res : K} : v.len ≤ i → Move v t cache (.scan i res) (.store res) .none
  | store {res : K} : Move v t cache (.store res) (.wait 64) (.cache res)
  | load {inc : Nat} : t < inc → Move v t cache (.test inc) (.loaded inc (cache (t + inc))) .none
  | skip {inc : Nat} : inc ≠ 0 → inc ≤ t → Move v t cache (.test inc) (.wait (inc / 2)) .none
  | leave {inc : Nat} : inc = 0 → t = 0 → Move v t cache (.test inc) .finish .none
  | exit {inc : Nat} : inc = 0 → t ≠ 0 → Move v t cache (.test inc) .done .none
  | greater {inc : Nat} {other : K} : cache t < other → Move v t cache (.loaded inc other) (.copy inc) .none
  | notGreater {inc : Nat} {other : K} : other ≤ cache t → Move v t cache (.loaded inc other) (.wait (inc / 2)) .none
  | copy {inc : Nat} : Move v t cache (.copy inc) (.copied inc (cache (t + inc))) .none
  | copied {inc : Nat} {other : K} : Move v t cache (.copied inc other) (.wait (inc / 2)) (.cache other)
  | finish : Move v t cache .finish .done (.result (cache 0))

theorem move_of_threadStep {v : Gradient K} {t : Nat} {cache : Nat → K} {pc pc' : Pc K} {effect : Effect K}
    (h : threadStep v t cache pc = some (pc', effect)) : Move v t cache pc pc' effect := by
  cases pc with
  | scan i res =>
    simp only [threadStep] at h
    split at h
    · next hi => cases h; exact .scan hi
    · next hi => cases h; exact .scanned (Nat.le_of_not_lt hi)
  | store res => cases h; exact .store
  | wait inc => cases h
  | test inc =>
    simp only [threadStep] at h
    split at h
    · next hinc =>
      split at h
      · next ht =>
        split at h
        · cases h; exact .load ht
        · cases h
      · next ht => cases h; exact .skip hinc (Nat.le_of_not_lt ht)
    · next hinc =>
      have hinc : inc = 0 := Decidable.not_not.mp hinc
      split at h
      · next ht => cases h; exact .leave hinc ht
      · next ht => cases h; exact .exit hinc ht
  | loaded inc other =>
    simp only [threadStep] at h
    split at h
    · next hlt => cases h; exact .greater hlt
    · next hlt => cases h; exact .notGreater (le_of_not_gt hlt)
  | copy inc =>
    simp only [threadStep] at h
    split at h
    · cases h; exact .copy
    · cases h
  | copied inc other => cases h; exact .copied
  | finish => cases h; exact .finish
  | done => cases h

/-! ## What the cells hold -/

/-- The elements that belong to cell `c` of block `b` when `m` cells are left. -/
def cover (v : Gradient K) (m b c : Nat) : Set Nat := {j | j < v.len ∧ j / 128 % 32 = b ∧ j % m = c}

/-- The elements that a thread has scanned when it stands at `i`. -/
def scanned (v : Gradient K) (b t i : Nat) : Set Nat := {j | j < v.len ∧ j % 4096 = index b t ∧ j < i}

/-- `x` is the largest absolute value of some elements, or the `-1.0` that `res` starts with. -/
def Holds (v : Gradient K) (S : Set Nat) (x : K) : Prop := Best (-1) (fun i => |v.ptr i|) S x

omit [Ring K] [LinearOrder K] in
theorem cover_split (v : Gradient K) (b : Nat) {k c : Nat} (hc : c < 2 ^ k) :
    cover v (2 ^ k) b c = cover v (2 ^ (k + 1)) b c ∪ cover v (2 ^ (k + 1)) b (c + 2 ^ k) := by
  ext j
  have hmod : j % 2 ^ (k + 1) = j % 2 ^ k + 2 ^ k * (j / 2 ^ k % 2) := Nat.mod_pow_succ
  have hlt := Nat.mod_lt j (Nat.two_pow_pos k)
  have hcell : j % 2 ^ k = c ↔ j % 2 ^ (k + 1) = c ∨ j % 2 ^ (k + 1) = c + 2 ^ k := by
    rw [hmod]
    rcases Nat.mod_two_eq_zero_or_one (j / 2 ^ k) with h | h
    · rw [h]
      omega
    · rw [h]
      omega
  simp only [cover, Set.mem_union, Set.mem_ofPred_eq, hcell]
  tauto

omit [Ring K] [LinearOrder K] in
theorem scanned_start (v : Gradient K) (b t : Nat) : scanned v b t (index b t) = ∅ := by
  refine Set.eq_empty_of_forall_notMem fun j ⟨_, hj, hlt⟩ => ?_
  have := Nat.mod_le j 4096
  omega

omit [Ring K] [LinearOrder K] in
theorem scanned_next {v : Gradient K} {b t i : Nat} (hi : i < v.len) (hmod : i % 4096 = index b t) :
    scanned v b t (i + 4096) = insert i (scanned v b t i) := by
  ext j
  simp only [scanned, Set.mem_insert_iff, Set.mem_ofPred_eq]
  omega

omit [Ring K] [LinearOrder K] in
theorem scanned_last {v : Gradient K} {b t i : Nat} (hb : b < 32) (ht : t < 128) (hi : v.len ≤ i) :
    scanned v b t i = cover v (2 ^ 7) b t := by
  ext j
  simp only [scanned, cover, index, Set.mem_ofPred_eq, Nat.reducePow]
  omega

/-! ## The invariant -/

/-- Between which barriers a block is. In `reducing k`, the upper half of `2 ^ (k + 1)` cells is added to
the lower one. -/
inductive Phase
  | scanning
  | reducing (k : Fin 7)
  | finishing

/-- The cell of thread `t` is as it was at the last barrier. -/
def Before (v : Gradient K) (b t : Nat) (cache : Nat → K) (k : Nat) : Prop :=
  t < 2 ^ (k + 1) → Holds v (cover v (2 ^ (k + 1)) b t) (cache t)

/-- Where thread `t` can be in a phase, and what it then knows of its own cell and of the one that it reads. Nobody
else writes these before the next barrier. -/
inductive ThreadOk (v : Gradient K) (b t : Nat) (cache : Nat → K) (result : K) : Phase → Pc K → Prop
  | scan {i : Nat} {res : K} : i % 4096 = index b t → i < v.len + 4096 → Holds v (scanned v b t i) res →
      ThreadOk v b t cache result .scanning (.scan i res)
  | store {res : K} : Holds v (cover v (2 ^ 7) b t) res → ThreadOk v b t cache result .scanning (.store res)
  | stored {inc : Nat} : inc = 2 ^ 6 → Holds v (cover v (2 ^ 7) b t) (cache t) →
      ThreadOk v b t cache result .scanning (.wait inc)
  | test {k : Fin 7} {inc : Nat} : inc = 2 ^ k.val → Before v b t cache k →
      ThreadOk v b t cache result (.reducing k) (.test inc)
  | loaded {k : Fin 7} {inc : Nat} {other : K} : inc = 2 ^ k.val → Before v b t cache k → t < 2 ^ k.val →
      other = cache (t + 2 ^ k.val) → ThreadOk v b t cache result (.reducing k) (.loaded inc other)
  | copy {k : Fin 7} {inc : Nat} : inc = 2 ^ k.val → Before v b t cache k → t < 2 ^ k.val →
      cache t < cache (t + 2 ^ k.val) → ThreadOk v b t cache result (.reducing k) (.copy inc)
  | copied {k : Fin 7} {inc : Nat} {other : K} : inc = 2 ^ k.val → Before v b t cache k → t < 2 ^ k.val →
      cache t < other → other = cache (t + 2 ^ k.val) → ThreadOk v b t cache result (.reducing k) (.copied inc other)
  | added {k : Fin 7} {inc : Nat} : inc = 2 ^ k.val / 2 → t < 2 ^ k.val → Holds v (cover v (2 ^ k.val) b t) (cache t) →
      ThreadOk v b t cache result (.reducing k) (.wait inc)
  | skipped {k : Fin 7} {inc : Nat} : inc = 2 ^ k.val / 2 → 2 ^ k.val ≤ t → Before v b t cache k →
      ThreadOk v b t cache result (.reducing k) (.wait inc)
  | leave {inc : Nat} : inc = 0 → (t = 0 → Holds v (cover v 1 b t) (cache t)) →
      ThreadOk v b t cache result .finishing (.test inc)
  | finish : t = 0 → Holds v (cover v 1 b t) (cache t) → ThreadOk v b t cache result .finishing .finish
  | done : (t = 0 → Holds v (cover v 1 b t) result) → ThreadOk v b t cache result .finishing .done

def BlockOk (v : Gradient K) (b : Nat) (block : Block K) (result : K) : Prop :=
  ∃ phase, ∀ t < 128, ThreadOk v b t block.cache result phase (block.pc t)

def Inv (v : Gradient K) (s : State K) : Prop := ∀ b < 32, BlockOk v b (s.blocks b) (s.result b)

section Threads
variable {v : Gradient K} {b t : Nat} {cache cache' : Nat → K} {result result' : K} {phase : Phase} {pc pc' : Pc K}
  {effect : Effect K}

/-- The upper half is only read. -/
theorem ThreadOk.before {k : Fin 7} (h : ThreadOk v b t cache result (.reducing k) pc) (ht : 2 ^ k.val ≤ t) :
    Before v b t cache k := by
  cases h with
  | test _ hbefore => exact hbefore
  | loaded _ hbefore _ _ => exact hbefore
  | copy _ hbefore _ _ => exact hbefore
  | copied _ hbefore _ _ _ => exact hbefore
  | added _ hlt _ => exact absurd hlt (Nat.not_lt.mpr ht)
  | skipped _ _ hbefore => exact hbefore

/-- What a thread knows, it knows of two cells. -/
theorem ThreadOk.congr (h : ThreadOk v b t cache result phase pc) (hown : cache' t = cache t)
    (hother : ∀ k, phase = .reducing k → t < 2 ^ k.val → cache' (t + 2 ^ k.val) = cache (t + 2 ^ k.val))
    (hresult : t = 0 → result' = result) : ThreadOk v b t cache' result' phase pc := by
  have hbefore : ∀ k, Before v b t cache k → Before v b t cache' k := fun k hk hlt => hown ▸ hk hlt
  cases h with
  | scan hmod hlt hres => exact .scan hmod hlt hres
  | store hres => exact .store hres
  | stored hinc hcell => exact .stored hinc (hown ▸ hcell)
  | test hinc hk => exact .test hinc (hbefore _ hk)
  | loaded hinc hk ht heq => exact .loaded hinc (hbefore _ hk) ht (heq.trans (hother _ rfl ht).symm)
  | copy hinc hk ht hlt =>
    refine .copy hinc (hbefore _ hk) ht ?_
    rw [hown, hother _ rfl ht]
    exact hlt
  | copied hinc hk ht hlt heq =>
    refine .copied hinc (hbefore _ hk) ht ?_ (heq.trans (hother _ rfl ht).symm)
    rw [hown]
    exact hlt
  | added hinc ht hcell => exact .added hinc ht (hown ▸ hcell)
  | skipped hinc ht hk => exact .skipped hinc ht (hbefore _ hk)
  | leave hinc hcell => exact .leave hinc fun h0 => hown ▸ hcell h0
  | finish h0 hcell => exact .finish h0 (hown ▸ hcell)
  | done hres => exact .done fun h0 => hresult h0 ▸ hres h0

/-- A step writes to no cell and no result that another thread knows of. -/
theorem ThreadOk.others {u : Nat} {results : Nat → K} {pcu : Pc K} (hmove : Move v t cache pc pc' effect)
    (h : ThreadOk v b t cache (results b) phase pc) (hu : ThreadOk v b u cache (results b) phase pcu) (hne : u ≠ t) :
    ThreadOk v b u (effect.onCache t cache) (effect.onResult b results b) phase pcu := by
  cases hmove with
  | store =>
    cases h with
    | store _ => exact hu.congr (Function.update_of_ne hne _ _) (fun k hk => by cases hk) fun _ => rfl
  | copied =>
    cases h with
    | copied _ _ ht _ _ =>
      refine hu.congr (Function.update_of_ne hne _ _) (fun k hk _ => ?_) fun _ => rfl
      cases hk
      exact Function.update_of_ne (by omega) _ _
  | finish =>
    cases h with
    | finish h0 _ => exact hu.congr rfl (fun _ _ _ => rfl) fun hu0 => absurd (hu0.trans h0.symm) hne
  | scan _ => exact hu
  | scanned _ => exact hu
  | load _ => exact hu
  | skip _ _ => exact hu
  | leave _ _ => exact hu
  | exit _ _ => exact hu
  | greater _ => exact hu
  | notGreater _ => exact hu
  | copy => exact hu

/-- The two halves of a cell together. -/
theorem Holds.join {k : Nat} (ht : t < 2 ^ k) (hlow : Holds v (cover v (2 ^ (k + 1)) b t) (cache t))
    (hhigh : Holds v (cover v (2 ^ (k + 1)) b (t + 2 ^ k)) (cache (t + 2 ^ k))) :
    Holds v (cover v (2 ^ k) b t) (if cache (t + 2 ^ k) > cache t then cache (t + 2 ^ k) else cache t) := by
  rw [cover_split v b ht]
  exact Best.join hlow hhigh le_rfl

/-- A step of a thread leads to a place where the thread can be. -/
theorem ThreadOk.move {results : Nat → K} {pcs : Nat → Pc K} (hb : b < 32) (ht : t < 128)
    (hall : ∀ u < 128, ThreadOk v b u cache (results b) phase (pcs u)) (hmove : Move v t cache (pcs t) pc' effect) :
    ThreadOk v b t (effect.onCache t cache) (effect.onResult b results b) phase pc' := by
  have hbytes := v.bytes_lt
  have h := hall t ht
  -- both cells of a pair, at the last barrier
  have hpair : ∀ k : Fin 7, phase = .reducing k → Before v b t cache k → t < 2 ^ k.val →
      Holds v (cover v (2 ^ k.val) b t)
        (if cache (t + 2 ^ k.val) > cache t then cache (t + 2 ^ k.val) else cache t) := by
    intro k hk hbefore hlt
    subst hk
    have hpow : 2 ^ (k.val + 1) ≤ 2 ^ 7 := Nat.pow_le_pow_right Nat.two_pos k.isLt
    have hsucc : 2 ^ (k.val + 1) = 2 ^ k.val * 2 := Nat.pow_succ 2 k.val
    have hhigh := (hall (t + 2 ^ k.val) (by omega)).before (Nat.le_add_left _ _)
    exact .join hlt (hbefore (by omega)) (hhigh (by omega))
  generalize pcs t = pc at h hmove
  cases hmove with
  | scan hi =>
    cases h with
    | scan hmod hlt hres =>
      rw [Nat.mod_eq_of_lt (by omega)]
      refine .scan (by omega) (by omega) ?_
      rw [scanned_next hi hmod]
      exact Best.add hres _
  | scanned hi =>
    cases h with
    | scan hmod hlt hres => exact .store (scanned_last hb ht hi ▸ hres)
  | store =>
    cases h with
    | store hres =>
      refine .stored rfl ?_
      rw [Effect.onCache, Function.update_self]
      exact hres
  | load hlt =>
    cases h with
    | test hinc hbefore =>
      subst hinc
      exact .loaded rfl hbefore hlt rfl
    | leave hinc _ => omega
  | skip hne hle =>
    cases h with
    | test hinc hbefore =>
      subst hinc
      exact .skipped rfl hle hbefore
    | leave hinc _ => exact absurd hinc hne
  | leave hzero h0 =>
    cases h with
    | test hinc _ => exact absurd (hinc.symm.trans hzero) (Nat.two_pow_pos _).ne'
    | leave _ hcell => exact .finish h0 (hcell h0)
  | exit hzero h0 =>
    cases h with
    | test hinc _ => exact absurd (hinc.symm.trans hzero) (Nat.two_pow_pos _).ne'
    | leave _ _ => exact .done fun h => absurd h h0
  | greater hgt =>
    cases h with
    | loaded hinc hbefore hlt heq => exact .copy hinc hbefore hlt (hgt.trans_eq heq)
  | notGreater hle =>
    cases h with
    | loaded hinc hbefore hlt heq =>
      subst hinc heq
      have hcell := hpair _ rfl hbefore hlt
      rw [if_neg (not_lt_of_ge hle)] at hcell
      exact .added rfl hlt hcell
  | copy =>
    cases h with
    | copy hinc hbefore hlt hgt =>
      subst hinc
      exact .copied rfl hbefore hlt hgt rfl
  | copied =>
    cases h with
    | copied hinc hbefore hlt hgt heq =>
      subst hinc heq
      have hcell := hpair _ rfl hbefore hlt
      rw [if_pos hgt] at hcell
      refine .added rfl hlt ?_
      rw [Effect.onCache, Function.update_self]
      exact hcell
  | finish =>
    cases h with
    | finish h0 hcell =>
      refine .done fun _ => ?_
      rw [Effect.onResult, Function.update_self]
      exact h0 ▸ hcell

end Threads

/-! ## Barriers -/

section Barriers
variable {v : Gradient K} {b : Nat} {block : Block K} {result : K}

theorem ThreadOk.isWait {t : Nat} {cache : Nat → K} {phase : Phase} {pc : Pc K}
    (h : ThreadOk v b t cache result phase pc) (hwait : pc.isWait) : phase ≠ .finishing := by
  intro hphase
  subst hphase
  cases h with
  | leave _ _ => cases hwait
  | finish _ _ => cases hwait
  | done _ => cases hwait

/-- After the barrier of the scan. -/
theorem ThreadOk.release_scanning {t : Nat} {cache : Nat → K} {pc : Pc K}
    (h : ThreadOk v b t cache result .scanning pc) (hwait : pc.isWait) :
    ThreadOk v b t cache result (.reducing 6) pc.release := by
  cases h with
  | stored hinc hcell => exact .test hinc fun _ => hcell
  | scan _ _ _ => cases hwait
  | store _ => cases hwait

/-- After the barrier of a round that is not the last one. -/
theorem ThreadOk.release_reducing {k : Nat} (hk : k + 1 < 7) {t : Nat} {cache : Nat → K} {pc : Pc K}
    (h : ThreadOk v b t cache result (.reducing ⟨k + 1, hk⟩) pc) (hwait : pc.isWait) :
    ThreadOk v b t cache result (.reducing ⟨k, Nat.lt_of_succ_lt hk⟩) pc.release := by
  have hhalf : 2 ^ (k + 1) / 2 = 2 ^ k := by
    rw [Nat.pow_succ]
    exact Nat.mul_div_cancel _ Nat.two_pos
  cases h with
  | added hinc _ hcell => exact .test (hinc.trans hhalf) fun _ => hcell
  | skipped hinc hle _ => exact .test (hinc.trans hhalf) fun hlt => absurd hlt (Nat.not_lt.mpr hle)
  | test _ _ => cases hwait
  | loaded _ _ _ _ => cases hwait
  | copy _ _ _ _ => cases hwait
  | copied _ _ _ _ _ => cases hwait

/-- After the barrier of the last round. -/
theorem ThreadOk.release_last {t : Nat} {cache : Nat → K} {pc : Pc K}
    (h : ThreadOk v b t cache result (.reducing 0) pc) (hwait : pc.isWait) :
    ThreadOk v b t cache result .finishing pc.release := by
  cases h with
  | added hinc _ hcell => exact .leave (hinc.trans (by decide)) fun _ => hcell
  | skipped hinc hle _ =>
    refine .leave (hinc.trans (by decide)) fun h0 => ?_
    exact absurd (h0 ▸ hle) (by decide)
  | test _ _ => cases hwait
  | loaded _ _ _ _ => cases hwait
  | copy _ _ _ _ => cases hwait
  | copied _ _ _ _ _ => cases hwait

theorem BlockOk.release (h : BlockOk v b block result) (hwait : ∀ t < 128, (block.pc t).isWait) :
    BlockOk v b ⟨fun t => (block.pc t).release, block.cache⟩ result := by
  obtain ⟨phase, hall⟩ := h
  cases phase with
  | scanning => exact ⟨.reducing 6, fun t ht => (hall t ht).release_scanning (hwait t ht)⟩
  | reducing k =>
    obtain ⟨k, hk⟩ := k
    cases k with
    | zero => exact ⟨.finishing, fun t ht => (hall t ht).release_last (hwait t ht)⟩
    | succ k => exact ⟨.reducing ⟨k, _⟩, fun t ht => (hall t ht).release_reducing hk (hwait t ht)⟩
  | finishing => exact absurd rfl ((hall 0 (by decide)).isWait (hwait 0 (by decide)))

end Barriers

/-! ## The machine -/

section Machine
variable {v : Gradient K} {s s' : State K}

theorem step_thread {b t : Nat} (h : step v s (.thread b t) = some s') : b < 32 ∧ t < 128 ∧ ∃ pc effect,
    Move v t (s.blocks b).cache ((s.blocks b).pc t) pc effect ∧
      s' = { blocks := Function.update s.blocks b
              ⟨Function.update (s.blocks b).pc t pc, effect.onCache t (s.blocks b).cache⟩
             result := effect.onResult b s.result } := by
  simp only [step] at h
  split at h
  · next hlt =>
    obtain ⟨⟨pc, effect⟩, hstep, rfl⟩ := Option.map_eq_some_iff.mp h
    exact ⟨hlt.1, hlt.2, pc, effect, move_of_threadStep hstep, rfl⟩
  · cases h

theorem step_release {b : Nat} (h : step v s (.release b) = some s') : b < 32 ∧
    (∀ t < 128, ((s.blocks b).pc t).isWait) ∧
      s' = { s with blocks := Function.update s.blocks b ⟨fun t => ((s.blocks b).pc t).release, (s.blocks b).cache⟩ } := by
  simp only [step] at h
  split at h
  · next hlt =>
    cases h
    exact ⟨hlt.1, fun t ht => List.all_eq_true.mp hlt.2 t (List.mem_range.mpr ht), rfl⟩
  · cases h

theorem inv_start (h : Start s) : Inv v s := by
  refine fun b hb => ⟨.scanning, fun t ht => ?_⟩
  rw [h b hb t ht]
  have hindex : index b t < 4096 := by unfold index; omega
  refine .scan (Nat.mod_eq_of_lt hindex) (by omega) ?_
  rw [scanned_start]
  exact best_empty _ _

omit [Ring K] [LinearOrder K] in
theorem onResult_of_ne {b b' : Nat} (hne : b' ≠ b) (effect : Effect K) (result : Nat → K) :
    effect.onResult b result b' = result b' := by
  cases effect with
  | none => rfl
  | cache x => rfl
  | result x => exact Function.update_of_ne hne _ _

/-- **Every step keeps the invariant.** -/
theorem step_ok (hinv : Inv v s) {a : Action} (h : step v s a = some s') : Inv v s' := by
  intro b' hb'
  cases a with
  | thread b t =>
    obtain ⟨hb, ht, pc, effect, hmove, rfl⟩ := step_thread h
    by_cases hbb : b' = b
    · subst hbb
      obtain ⟨phase, hall⟩ := hinv b' hb'
      refine ⟨phase, fun u hu => ?_⟩
      simp only [Function.update_self]
      by_cases hut : u = t
      · subst hut
        rw [Function.update_self]
        exact .move hb hu hall hmove
      · rw [Function.update_of_ne hut]
        exact .others hmove (hall t ht) (hall u hu) hut
    · simp only [Function.update_of_ne hbb, onResult_of_ne hbb]
      exact hinv b' hb'
  | release b =>
    obtain ⟨hb, hwait, rfl⟩ := step_release h
    by_cases hbb : b' = b
    · subst hbb
      simp only [Function.update_self]
      exact (hinv b' hb').release hwait
    · simp only [Function.update_of_ne hbb]
      exact hinv b' hb'

theorem inv_reachable (h : (paraMax v).Reachable s) : Inv v s := by
  induction h with
  | init h0 => exact inv_start h0
  | step _ hstep ih => exact step_ok ih hstep

end Machine

/-! ## The end -/

/-- How far a thread is from its end. -/
def Pc.rank (len : Nat) : Pc K → Nat
  | .scan i _ => 1000 + (len + 4096 - i)
  | .store _ => 999
  | .wait inc => 10 * inc + 3
  | .test inc => 10 * inc + 2
  | .loaded inc _ => 10 * inc + 1
  | .copy inc => 10 * inc
  | .copied inc _ => 10 * inc - 1
  | .finish => 1
  | .done => 0

def Block.rank (len : Nat) (block : Block K) : Nat := ∑ t ∈ Finset.range 128, (block.pc t).rank len

def State.rank (len : Nat) (s : State K) : Nat := ∑ b ∈ Finset.range 32, (s.blocks b).rank len

section End
variable {v : Gradient K} {s s' : State K}

theorem Move.rank_lt {b t : Nat} {cache : Nat → K} {result : K} {phase : Phase} {pc pc' : Pc K} {effect : Effect K}
    (hmove : Move v t cache pc pc' effect) (h : ThreadOk v b t cache result phase pc) :
    pc'.rank v.len < pc.rank v.len := by
  have hbytes := v.bytes_lt
  cases hmove with
  | scan hi =>
    cases h with
    | scan _ hlt _ =>
      simp only [Pc.rank]
      omega
  | scanned hi => simp only [Pc.rank]; omega
  | store => simp only [Pc.rank]; omega
  | load hlt => simp only [Pc.rank]; omega
  | skip hne _ => simp only [Pc.rank]; omega
  | leave _ _ => simp only [Pc.rank]; omega
  | exit _ _ => simp only [Pc.rank]; omega
  | greater _ => simp only [Pc.rank]; omega
  | notGreater _ =>
    cases h with
    | loaded hinc _ _ _ =>
      have := hinc ▸ Nat.two_pow_pos _
      simp only [Pc.rank]
      omega
  | copy =>
    cases h with
    | copy hinc _ _ _ =>
      have := hinc ▸ Nat.two_pow_pos _
      simp only [Pc.rank]
      omega
  | copied =>
    cases h with
    | copied hinc _ _ _ _ =>
      have := hinc ▸ Nat.two_pow_pos _
      simp only [Pc.rank]
      omega
  | finish => simp only [Pc.rank]; omega

omit [Ring K] [LinearOrder K] in
theorem rank_release_lt (len : Nat) {pc : Pc K} (h : pc.isWait) : pc.release.rank len < pc.rank len := by
  cases pc with
  | wait inc => exact Nat.lt_succ_self _
  | _ => cases h

/-- One of `n` comes closer, the others stay. -/
theorem sum_update_lt {α : Type} (rank : α → Nat) (f : Nat → α) {n i : Nat} (hi : i < n) {x : α}
    (h : rank x < rank (f i)) :
    ∑ j ∈ Finset.range n, rank (Function.update f i x j) < ∑ j ∈ Finset.range n, rank (f j) := by
  refine Finset.sum_lt_sum (fun j _ => ?_) ⟨i, Finset.mem_range.mpr hi, ?_⟩
  · by_cases hji : j = i
    · subst hji
      rw [Function.update_self]
      exact h.le
    · rw [Function.update_of_ne hji]
  · rw [Function.update_self]
    exact h

theorem step_rank_lt (hinv : Inv v s) {a : Action} (h : step v s a = some s') : s'.rank v.len < s.rank v.len := by
  cases a with
  | thread b t =>
    obtain ⟨hb, ht, pc, effect, hmove, rfl⟩ := step_thread h
    obtain ⟨phase, hall⟩ := hinv b hb
    have hblock := sum_update_lt (Pc.rank v.len) _ ht (hmove.rank_lt (hall t ht))
    exact sum_update_lt (Block.rank v.len) s.blocks hb hblock
  | release b =>
    obtain ⟨hb, hwait, rfl⟩ := step_release h
    refine sum_update_lt (Block.rank v.len) s.blocks hb ?_
    exact Finset.sum_lt_sum_of_nonempty ⟨0, by decide⟩ fun t ht => rank_release_lt _ (hwait t (Finset.mem_range.mp ht))

theorem descends (v : Gradient K) : LTS.Descends (step v) (Inv v) (State.rank v.len) where
  keeps _ _ _ hinv h := step_ok hinv h
  lt _ _ _ hinv h := step_rank_lt hinv h

omit [LinearOrder K] in
theorem rank_start (h : Start s) : s.rank v.len ≤ 4096 * (v.len + 5096) := by
  have hblock : ∀ b ∈ Finset.range 32, (s.blocks b).rank v.len ≤ 128 * (v.len + 5096) := by
    intro b hb
    refine (Finset.sum_le_card_nsmul _ _ (v.len + 5096) fun t ht => ?_).trans_eq (by rw [Finset.card_range, smul_eq_mul])
    rw [h b (Finset.mem_range.mp hb) t (Finset.mem_range.mp ht)]
    simp only [Pc.rank]
    omega
  refine (Finset.sum_le_card_nsmul _ _ _ hblock).trans_eq ?_
  rw [Finset.card_range, smul_eq_mul, ← Nat.mul_assoc]

/-- A thread that neither waits nor has ended has a step. -/
theorem ThreadOk.threadStep {b t : Nat} {cache : Nat → K} {result : K} {phase : Phase} {pc : Pc K}
    (h : ThreadOk v b t cache result phase pc) (hnone : GradMax.threadStep v t cache pc = none) :
    pc.isWait ∨ phase = .finishing ∧ pc = .done := by
  have hroom : ∀ k : Fin 7, t < 2 ^ k.val → t + 2 ^ k.val < 128 := by
    intro k hk
    have hpow : 2 ^ (k.val + 1) ≤ 2 ^ 7 := Nat.pow_le_pow_right Nat.two_pos k.isLt
    rw [Nat.pow_succ] at hpow
    omega
  cases h with
  | scan _ _ _ =>
    simp only [GradMax.threadStep] at hnone
    split at hnone <;> cases hnone
  | store _ => cases hnone
  | stored _ _ => exact .inl rfl
  | test hinc _ =>
    subst hinc
    simp only [GradMax.threadStep, if_pos (Nat.two_pow_pos _).ne'] at hnone
    split at hnone
    · next hlt =>
      rw [if_pos (hroom _ hlt)] at hnone
      cases hnone
    · cases hnone
  | loaded _ _ _ _ =>
    simp only [GradMax.threadStep] at hnone
    split at hnone <;> cases hnone
  | copy hinc _ hlt _ =>
    subst hinc
    simp only [GradMax.threadStep, if_pos (hroom _ hlt)] at hnone
    cases hnone
  | copied _ _ _ _ _ => cases hnone
  | added _ _ _ => exact .inl rfl
  | skipped _ _ _ => exact .inl rfl
  | leave hinc _ =>
    subst hinc
    simp only [GradMax.threadStep] at hnone
    split at hnone
    · next h0 => exact absurd rfl h0
    · split at hnone <;> cases hnone
  | finish _ _ => cases hnone
  | done _ => exact .inr ⟨rfl, rfl⟩

/-- **No deadlock.** A state that has no step is the end of all threads. -/
theorem complete_of_last (hinv : Inv v s) (hlast : ∀ a, step v s a = none) : Complete s := by
  intro b hb
  obtain ⟨phase, hall⟩ := hinv b hb
  have hthread : ∀ t < 128, ((s.blocks b).pc t).isWait ∨ phase = .finishing ∧ (s.blocks b).pc t = .done := by
    intro t ht
    have hnone := hlast (.thread b t)
    simp only [step, if_pos (And.intro hb ht), Option.map_eq_none_iff] at hnone
    exact (hall t ht).threadStep hnone
  -- the barrier holds nobody back, so somebody has ended, and nobody waits after the last barrier
  obtain ⟨u, hu, hwait⟩ : ∃ u < 128, ¬ ((s.blocks b).pc u).isWait := by
    by_contra hall'
    have hnone := hlast (.release b)
    have hwait : ((List.range 128).all fun t => ((s.blocks b).pc t).isWait) = true :=
      List.all_eq_true.mpr fun t ht => by_contra fun hne => hall' ⟨t, List.mem_range.mp ht, hne⟩
    simp only [step, if_pos (And.intro hb hwait)] at hnone
    cases hnone
  obtain ⟨hphase, -⟩ := (hthread u hu).resolve_left hwait
  intro t ht
  rcases hthread t ht with hw | hdone
  · exact absurd hphase ((hall t ht).isWait hw)
  · exact hdone.2

end End

/-! ## The result -/

/-- The absolute values of a vector. -/
def magnitudes (v : Gradient K) : Set K := (fun i => |v.ptr i|) '' {i | i < v.len}

section Result
variable {v : Gradient K} {s : State K}

theorem holds_result (hinv : Inv v s) (hdone : Complete s) {b : Nat} (hb : b < 32) :
    Holds v (cover v 1 b 0) (s.result b) := by
  obtain ⟨phase, hall⟩ := hinv b hb
  have h := hall 0 (by decide)
  rw [hdone b hb 0 (by decide)] at h
  cases h with
  | done hres => exact hres rfl

variable [IsStrictOrderedRing K]

/-- The loop of the host, block by block. -/
theorem best_hostMax (h : ∀ b < 32, Holds v (cover v 1 b 0) (s.result b)) {n : Nat} (hn : n ≤ 32) :
    Best 0 (fun i => |v.ptr i|) {j | j < v.len ∧ j / 128 % 32 < n}
      ((List.range n).foldl (fun gradMax i => if s.result i > gradMax then s.result i else gradMax) 0) := by
  induction n with
  | zero =>
    have hempty : {j | j < v.len ∧ j / 128 % 32 < 0} = (∅ : Set Nat) :=
      Set.eq_empty_of_forall_notMem fun j hj => Nat.not_lt_zero _ hj.2
    rw [hempty]
    exact best_empty _ _
  | succ n ih =>
    have hsucc : {j | j < v.len ∧ j / 128 % 32 < n + 1} = {j | j < v.len ∧ j / 128 % 32 < n} ∪ cover v 1 n 0 := by
      ext j
      simp only [cover, Set.mem_union, Set.mem_ofPred_eq, Nat.mod_one, and_true]
      omega
    rw [List.range_succ, List.foldl_append, hsucc]
    exact (ih (by omega)).join (h n (by omega)) (neg_nonpos.mpr zero_le_one)

theorem hostMax_isGreatest (hlen : 0 < v.len) (h : ∀ b < 32, Holds v (cover v 1 b 0) (s.result b)) :
    IsGreatest (magnitudes v) (hostMax s.result) := by
  have hbest := best_hostMax h (Nat.le_refl 32)
  have hall : {j | j < v.len ∧ j / 128 % 32 < 32} = {j | j < v.len} := by
    ext j
    simp only [Set.mem_ofPred_eq]
    omega
  rw [hall] at hbest
  exact hbest.isGreatest hlen (abs_nonneg _)

omit [IsStrictOrderedRing K] in
theorem gradAbs_eq [IsOrderedAddMonoid K] (x : K) : gradAbs x = |x| := by
  unfold gradAbs
  split
  · next h => exact (abs_of_nonneg h).symm
  · next h => exact (abs_of_neg (lt_of_not_ge h)).symm

theorem findGradMax_isGreatest (hlen : 0 < v.len) : IsGreatest (magnitudes v) (findGradMax v) := by
  have hbest := best_foldl |v.ptr 0| (fun i => |v.ptr i|) v.len
  simp only [findGradMax, gradAbs_eq]
  exact hbest.isGreatest hlen (le_refl _)

/-- **The scale is the largest absolute value**, for every order of the threads: it is what a run that ends
returns, every run ends, and a run that cannot go on has ended. -/
theorem terngradScale_iff (v : Gradient K) (hlen : 1 ≤ v.len) :
    (∀ r, TerngradScale v r ↔ IsGreatest (magnitudes v) r) ∧
      (∀ s s' actions, Start s → LTS.execute (step v) s actions = some s' → actions.length ≤ 4096 * (v.len + 5096)) ∧
        ∀ s, (paraMax v).Reachable s → (∀ a, step v s a = none) → Complete s := by
  refine ⟨fun r => ?_, ?_, fun s hs => complete_of_last (inv_reachable hs)⟩
  · unfold TerngradScale
    split
    · constructor
      · intro hr
        obtain ⟨s, hs, hdone, rfl⟩ := hr
        exact hostMax_isGreatest hlen fun b hb => holds_result (inv_reachable hs) hdone hb
      · intro hr
        -- some run goes to its end
        have hstart : Start (K := K) ⟨fun b => ⟨fun t => .scan (index b t) (-1), fun _ => 0⟩, fun _ => 0⟩ :=
          fun _ _ _ _ => rfl
        obtain ⟨s, hs, hinv, hlast⟩ : ∃ s, (paraMax v).Reachable s ∧ Inv v s ∧ ∀ a, step v s a = none :=
          (descends v).exists_last _ _ (Nat.le_refl _) (inv_start hstart) (.init hstart)
        have hdone := complete_of_last hinv hlast
        exact ⟨s, hs, hdone, hr.unique (hostMax_isGreatest hlen fun b hb => holds_result hinv hdone hb)⟩
    · constructor
      · intro hr
        rw [hr]
        exact findGradMax_isGreatest hlen
      · exact fun hr => hr.unique (findGradMax_isGreatest hlen)
  · intro s s' actions hstart hrun
    exact ((descends v).length_le (inv_start hstart) hrun).trans (rank_start hstart)

end Result

/-- 300 elements; the one in the middle is -2, the others are 1. -/
theorem terngradScale_iff_three_hundred :
    TerngradScale ⟨300, fun i => if i = 150 then (-2 : ℚ) else 1, by decide⟩ 2 := by
  refine ((terngradScale_iff _ (by decide)).1 2).mpr ⟨⟨150, by decide, by norm_num⟩, ?_⟩
  intro x hx
  obtain ⟨i, -, rfl⟩ := hx
  by_cases h : i = 150
  · simp [h]
  · simp [h]

end Inca.L2.GradMax
