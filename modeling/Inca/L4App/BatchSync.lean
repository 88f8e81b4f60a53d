import Mathlib.Algebra.Order.BigOperators.Group.Finset
import Mathlib.Data.List.FinRange
import Mathlib.Data.Fintype.Basic
import Mathlib.Data.List.MinMax
import Mathlib.Algebra.BigOperators.Fin
import Inca.Core.LTS

/-!
# The optimizer with batched compression (`torch/inca_init.py`)

`step` of `_DistributedOptimizer` first calls `synchronize`: the gradients of
all parameters, in the order in which their hooks ran, are compressed as one
batch for the largest norm among the workers; each parameter's slice of the
batch goes through a push-pull of its own as bytes, is summed and divided by
the number of processes; the results are put together again, decompressed
and cut into gradients. Then the optimizer makes its update. Every machine has
one process (`worker_id` is `DMLC_WORKER_ID`), training is synchronous, and
`skip_synchronize` is not used.

The `r`-th push-pull of a name is over when every worker has started its
`r`-th one of that name; the workers run on their own. What a push-pull gives
is a parameter, as are the compressor and the optimizer (`Setup`); that it is
the sum is asked for only where it is used (`Shared.sums`).

* `synchronize_lockstep`: whatever the interleaving, the `j`-th update of every
  worker is the one that a synchronous round of all workers gives, on what
  each had when it entered its `j`-th `synchronize`.
* `replicas_agree`: if the workers start alike, use the parameters in the same
  order and their compressors share what decompression reads, they agree on
  their parameters after every update.
* `rounds_complete`: workers that have entered equally often do not wait for
  each other for ever.
-/
namespace Inca.L4.BatchSync

/-! ## The code -/

abbrev Byte := BitVec 8

/-- `self._compression_info` -/
structure Info (α : Type) where
  maxCoor : Option α
  minCoor : Option α
  maxNorm : α

structure Setup (α σ Ctx Opt : Type) (n m : Nat) where
  /-- elements of each parameter -/
  size : Fin m → Nat
  /-- `backward_passes_per_step` -/
  passes : Nat
  bytepsSize : Nat
  norm : List α → α
  /-- `.to(torch.uint8)` and `.to(torch.float32)` -/
  toByte : α → Byte
  ofByte : Byte → α
  /-- `push_pull` of `Gradient.max_info` and of the bytes of a parameter, without averaging -/
  pushPull : (Fin n → Fin n → α) → Fin n → α
  pushPullBytes : Nat → (Fin n → List Byte) → List Byte
  length_pushPullBytes : ∀ len ts, (pushPullBytes len ts).length = len
  compress : σ → List α → Info α → List α × Ctx × σ
  decompress : List α → Ctx → List α
  /-- no slice of a batch is too short for `resize_` -/
  length_compress : ∀ s g i, g.length ≤ (compress s g i).1.length
  length_decompress : ∀ s g i a, a.length = (compress s g i).1.length →
    g.length ≤ (decompress a (compress s g i).2.1).length
  /-- `step` of the wrapped optimizer, on its state, parameters and gradients -/
  optimize : Opt → (Fin m → List α) → (Fin m → List α) → (Fin m → List α) × Opt

/-- Where a worker is in `synchronize`; `batch` is compressed from `post` on. -/
inductive Phase (α Ctx : Type) (m : Nat)
  | run
  | norm (batch : List α) (info : Info α)
  | post (batch : List α) (ctx : Ctx) (offset : Nat) (todo : List (Fin m))
  | wait (batch : List α) (ctx : Ctx) (offset : Nat) (todo : List (Fin m)) (outputs : List (List Byte))

structure Worker (α σ Ctx Opt : Type) (m : Nat) where
  params : Fin m → List α
  opt : Opt
  /-- the state of the compressor -/
  comp : σ
  grads : Fin m → List α
  /-- the keys of `self._handles`, in the order of insertion -/
  handles : List (Fin m)
  /-- `self._push_pull_delay` -/
  delay : Fin m → Nat
  phase : Phase α Ctx m
  /-- an exception -/
  failed : Bool

/-- What a worker has when it enters `synchronize`. -/
structure Entry (α σ : Type) (m : Nat) where
  grads : Fin m → List α
  comp : σ
  order : List (Fin m)

structure State (α σ Ctx Opt : Type) (n m : Nat) where
  worker : Fin n → Worker α σ Ctx Opt m
  /-- the tensors `Gradient.max_info` of each worker, one a round -/
  norms : Fin n → List (Fin n → α)
  /-- the tensors of each worker and parameter, one a round -/
  sent : Fin n → Fin m → List (List Byte)
  /-- history: one entry per call of `synchronize` -/
  entered : Fin n → List (Entry α σ m)
  /-- history: parameters and optimizer after each update -/
  versions : Fin n → List ((Fin m → List α) × Opt)

inductive Act (α : Type) (n m : Nat)
  | backward (w : Fin n) (p : Fin m) (g : List α)
  | zeroGrad (w : Fin n)
  | step (w : Fin n) (missing : List (Fin m))
  | norm (w : Fin n)
  | post (w : Fin n)
  | wait (w : Fin n)

section Code
variable {α σ Ctx Opt : Type} {n m : Nat} [AddZeroClass α] [LinearOrder α] (C : Setup α σ Ctx Opt n m)

/-- mirrors byteps/byteps/torch/inca_init.py:209-237 -/
def hook (x : Worker α σ Ctx Opt m) (p : Fin m) : Worker α σ Ctx Opt m :=
  if x.delay p = 0 then { x with failed := true }
  else { x with
    delay := Function.update x.delay p (x.delay p - 1)
    handles := if p ∈ x.handles then x.handles else x.handles ++ [p] }

/-- `self.max_info_tensor` of worker `w`.
mirrors byteps/byteps/torch/inca_init.py:171-177 -/
def oneHot (w : Fin n) (x : α) : Fin n → α := fun i => if i = w then x else 0

/-- The sum of the workers' tensors. -/
def summed (ts : Fin n → Fin n → α) : Fin n → α := fun i => (List.ofFn fun v => ts v i).sum

/-- mirrors byteps/byteps/torch/inca_init.py:289-297 -/
def globalNorm (own : α) (r : Fin n → α) : α :=
  let x := (List.ofFn r).max?.getD 0
  if x = 0 then own else x

/-- A push-pull of bytes, then `floor_divide_` by `byteps_size()`.
mirrors byteps/byteps/torch/ops.cc:153-167 -/
def average (len : Nat) (ts : Fin n → List Byte) : List Byte :=
  (C.pushPullBytes len ts).map fun b => BitVec.ofNat 8 (b.toNat / C.bytepsSize)

/-- `batch[offset:offset + len]` -/
def slice (batch : List α) (offset len : Nat) : List α := (batch.drop offset).take len

/-- The batch is cut into gradients again.
mirrors byteps/byteps/torch/inca_init.py:347-354 -/
def scatter (batch : List α) : Nat → (Fin m → List α) → List (Fin m) → Fin m → List α
  | _, grads, [] => grads
  | offset, grads, p :: todo =>
    let len := (grads p).length
    scatter batch (offset + len) (Function.update grads p (slice batch offset len)) todo

def Setup.info (g : List α) : Info α := ⟨g.max?, g.min?, C.norm g⟩

/-- `backward` reaches parameter `p` with gradient `g`. -/
def backward (S : State α σ Ctx Opt n m) (w : Fin n) (p : Fin m) (g : List α) : Option (State α σ Ctx Opt n m) :=
  let x := S.worker w
  match x.phase with
  | .run =>
    if g.length = (x.grads p).length then
      let x := { x with grads := Function.update x.grads p (List.zipWith (· + ·) (x.grads p) g) }
      some { S with worker := Function.update S.worker w (hook x p) }
    else none
  | _ => none

def zeroGrad (S : State α σ Ctx Opt n m) (w : Fin n) : Option (State α σ Ctx Opt n m) :=
  let x := S.worker w
  match x.phase with
  | .run => some { S with
      worker := Function.update S.worker w { x with grads := fun p => (x.grads p).map fun _ => 0 } }
  | _ => none

/-- `step` up to the first push-pull. `missing` is what `self._requires_update` has beyond
`self._handles`, in the order of the set.
mirrors byteps/byteps/torch/inca_init.py:239-292,436-440 -/
def enter (S : State α σ Ctx Opt n m) (w : Fin n) (missing : List (Fin m)) : Option (State α σ Ctx Opt n m) :=
  let x := S.worker w
  match x.phase with
  | .run =>
    if missing.Perm ((List.finRange m).filter (· ∉ x.handles)) then
      let order := x.handles ++ missing
      let batch := order.flatMap x.grads
      let info := C.info batch
      some { S with
        worker := Function.update S.worker w { x with handles := order, phase := .norm batch info }
        norms := Function.update S.norms w (S.norms w ++ [oneHot w info.maxNorm])
        entered := Function.update S.entered w (S.entered w ++ [⟨x.grads, x.comp, order⟩]) }
    else none
  | _ => none

/-- `synchronize(max_info_handle)` and the compression.
mirrors byteps/byteps/torch/inca_init.py:293-302 -/
def norm (S : State α σ Ctx Opt n m) (w : Fin n) : Option (State α σ Ctx Opt n m) :=
  let x := S.worker w
  match x.phase with
  | .norm batch info =>
    let r := (S.norms w).length - 1
    if ∀ v, r < (S.norms v).length then
      let out := C.pushPull fun v => (S.norms v).getD r fun _ => 0
      let (batch, ctx, comp) := C.compress x.comp batch { info with maxNorm := globalNorm info.maxNorm out }
      some { S with
        worker := Function.update S.worker w { x with comp := comp, phase := .post batch ctx 0 x.handles } }
    else none
  | _ => none

/-- One turn of the loop that starts the push-pulls.
mirrors byteps/byteps/torch/inca_init.py:305-315,179-190 -/
def post (S : State α σ Ctx Opt n m) (w : Fin n) : Option (State α σ Ctx Opt n m) :=
  let x := S.worker w
  match x.phase with
  | .post batch ctx offset (p :: todo) =>
    let len := (x.grads p).length
    let s := slice batch offset len
    some { S with
      worker := Function.update S.worker w { x with
        grads := Function.update x.grads p s
        phase := .post batch ctx (offset + len) todo }
      sent := Function.update S.sent w (Function.update (S.sent w) p (S.sent w p ++ [s.map C.toByte])) }
  | .post batch ctx offset [] => some { S with
      worker := Function.update S.worker w { x with phase := .wait batch ctx offset x.handles [] } }
  | _ => none

/-- One turn of the loop that waits for the push-pulls, and what follows it.
mirrors byteps/byteps/torch/inca_init.py:317-354,387,436-440 -/
def wait (S : State α σ Ctx Opt n m) (w : Fin n) : Option (State α σ Ctx Opt n m) :=
  let x := S.worker w
  match x.phase with
  | .wait batch ctx offset (p :: todo) outputs =>
    let r := (S.sent w p).length - 1
    if ∀ v, r < (S.sent v p).length then
      let out := average C (x.grads p).length fun v => (S.sent v p).getD r []
      some { S with
        worker := Function.update S.worker w { x with
          delay := Function.update x.delay p C.passes
          phase := .wait batch ctx offset todo (outputs ++ [out]) } }
    else none
  | .wait batch ctx offset [] outputs =>
    let aggregated := outputs.flatten.map C.ofByte ++ batch.drop offset
    let grads := scatter (C.decompress aggregated ctx) 0 x.grads x.handles
    let version := C.optimize x.opt x.params grads
    some { S with
      worker := Function.update S.worker w { x with
        grads := grads, handles := [], phase := .run, params := version.1, opt := version.2 }
      versions := Function.update S.versions w (S.versions w ++ [version]) }
  | _ => none

def step (S : State α σ Ctx Opt n m) (a : Act α n m) : Option (State α σ Ctx Opt n m) :=
  match a with
  | .backward w p g => if (S.worker w).failed then none else backward S w p g
  | .zeroGrad w => if (S.worker w).failed then none else zeroGrad S w
  | .step w missing => if (S.worker w).failed then none else enter C S w missing
  | .norm w => if (S.worker w).failed then none else norm C S w
  | .post w => if (S.worker w).failed then none else post C S w
  | .wait w => if (S.worker w).failed then none else wait C S w

/-- What the workers have when they construct their optimizers. -/
structure Start (α σ Opt : Type) (n m : Nat) where
  params : Fin n → Fin m → List α
  opt : Fin n → Opt
  comp : Fin n → σ

def State.init (I : Start α σ Opt n m) : State α σ Ctx Opt n m where
  worker w := ⟨I.params w, I.opt w, I.comp w, fun p => List.replicate (C.size p) 0, [], fun _ => C.passes, .run, false⟩
  norms _ := []
  sent _ _ := []
  entered _ := []
  versions _ := []

def machine (I : Start α σ Opt n m) : LTS (State α σ Ctx Opt n m) (Act α n m) := .ofFn (· = State.init C I) (step C)

end Code

/-! ## A synchronous round -/

section Round
variable {α σ Ctx Opt : Type} {n m : Nat} [AddZeroClass α] [LinearOrder α] (C : Setup α σ Ctx Opt n m)
  (e : Fin n → Entry α σ m) (w : Fin n)

def Entry.batch (x : Entry α σ m) : List α := x.order.flatMap x.grads

/-- Where the slice of `p` begins. -/
def offsetIn (size : Fin m → Nat) (order : List (Fin m)) (p : Fin m) : Nat :=
  ((order.takeWhile (· ≠ p)).map size).sum

def roundInfo : Info α :=
  { C.info (e w).batch with
    maxNorm := globalNorm (C.norm (e w).batch) (C.pushPull fun v => oneHot v (C.norm (e v).batch)) }

def compressed : List α × Ctx × σ := C.compress (e w).comp (e w).batch (roundInfo C e w)

def roundBytes (p : Fin m) : List Byte :=
  (slice (compressed C e w).1 (offsetIn C.size (e w).order p) (C.size p)).map C.toByte

def roundOutput (p : Fin m) : List Byte := average C (C.size p) fun v => roundBytes C e v p

def aggregated : List α :=
  ((e w).order.map (roundOutput C e)).flatten.map C.ofByte ++ (compressed C e w).1.drop ((e w).order.map C.size).sum

/-- The gradients that worker `w` has after a round in which the workers enter with `e`. -/
def roundGrads (p : Fin m) : List α :=
  slice (C.decompress (aggregated C e w) (compressed C e w).2.1) (offsetIn C.size (e w).order p) (C.size p)

end Round

/-! ## Slices -/

section Slices
variable {α : Type} {m : Nat} {size : Fin m → Nat}

theorem offsetIn_cons (p q : Fin m) (order : List (Fin m)) :
    offsetIn size (p :: order) q = if p = q then 0 else size p + offsetIn size order q := by
  unfold offsetIn
  by_cases h : p = q <;> simp [h]

theorem offsetIn_append {p : Fin m} {done todo : List (Fin m)} (hp : p ∉ done) :
    offsetIn size (done ++ p :: todo) p = (done.map size).sum := by
  induction done with
  | nil => simp [offsetIn_cons]
  | cons q done ih =>
    simp only [List.mem_cons, not_or] at hp
    rw [List.cons_append, offsetIn_cons, if_neg (Ne.symm hp.1), ih hp.2, List.map_cons, List.sum_cons]

theorem length_slice {batch : List α} {offset len : Nat} (h : offset + len ≤ batch.length) :
    (slice batch offset len).length = len := by
  rw [slice, List.length_take, List.length_drop]
  omega

theorem scatter_spec {batch : List α} {todo : List (Fin m)} (hnd : todo.Nodup) : ∀ {offset : Nat}
    {grads : Fin m → List α}, (∀ p, (grads p).length = size p) → offset + (todo.map size).sum ≤ batch.length →
    (∀ p, (scatter batch offset grads todo p).length = size p) ∧
    (∀ p ∉ todo, scatter batch offset grads todo p = grads p) ∧
    ∀ p ∈ todo, scatter batch offset grads todo p = slice batch (offset + offsetIn size todo p) (size p) := by
  induction todo with
  | nil => exact fun hlen _ => ⟨hlen, fun _ _ => rfl, fun _ hp => absurd hp List.not_mem_nil⟩
  | cons q todo ih =>
    intro offset grads hlen hfit
    rw [List.nodup_cons] at hnd
    rw [List.map_cons, List.sum_cons, ← hlen q] at hfit
    obtain ⟨h1, h2, h3⟩ := @ih hnd.2 (offset + (grads q).length)
      (Function.update grads q (slice batch offset (grads q).length)) (fun p => by
        by_cases hp : p = q
        · rw [hp, Function.update_self, length_slice (by omega), hlen]
        · rw [Function.update_of_ne hp]; exact hlen p) (by omega)
    refine ⟨h1, fun p hp => ?_, fun p hp => ?_⟩
    · simp only [List.mem_cons, not_or] at hp
      exact (h2 p hp.2).trans (Function.update_of_ne hp.1 _ _)
    · rw [offsetIn_cons]
      rcases List.mem_cons.mp hp with rfl | hp
      · rw [if_pos rfl, Nat.add_zero, ← hlen p]
        exact (h2 p hnd.1).trans (Function.update_self ..)
      · have hne : q ≠ p := fun heq => hnd.1 (heq ▸ hp)
        rw [if_neg hne, ← hlen q, ← Nat.add_assoc]
        exact h3 p hp

variable {n : Nat} {σ Ctx Opt : Type} {C : Setup α σ Ctx Opt n m}

def Setup.total (C : Setup α σ Ctx Opt n m) : Nat := ((List.finRange m).map C.size).sum

theorem length_batch {y : Entry α σ m} (hperm : y.order.Perm (List.finRange m))
    (hlen : ∀ p, (y.grads p).length = C.size p) : y.batch.length = C.total := by
  rw [Entry.batch, List.length_flatMap, Setup.total, ← (hperm.map C.size).sum_nat]
  congr 1
  exact List.map_congr_left fun p _ => hlen p

theorem length_average (len : Nat) (ts : Fin n → List Byte) : (average C len ts).length = len := by
  rw [average, List.length_map, C.length_pushPullBytes]

end Slices

/-! ## The invariant -/

section Rounds
variable {α σ : Type} {n m : Nat}

/-- Every worker has entered its round `j`, with `e`. -/
def Round (ent : Fin n → List (Entry α σ m)) (j : Nat) (e : Fin n → Entry α σ m) : Prop :=
  ∀ v, (ent v)[j]? = some (e v)

theorem Round.unique {ent : Fin n → List (Entry α σ m)} {j : Nat} {e e' : Fin n → Entry α σ m}
    (h : Round ent j e) (h' : Round ent j e') : e = e' :=
  funext fun v => Option.some.inj ((h v).symm.trans (h' v))

theorem Round.mono {ent ent' : Fin n → List (Entry α σ m)} {j : Nat} {e : Fin n → Entry α σ m}
    (h : Round ent j e) (hent : ∀ v, ent v <+: ent' v) : Round ent' j e := fun v => by
  obtain ⟨t, ht⟩ := hent v
  rw [← ht]
  exact List.getElem?_append_left (List.getElem?_eq_some_iff.mp (h v)).1 ▸ h v

theorem exists_round {ent : Fin n → List (Entry α σ m)} {j : Nat} (h : ∀ v, j < (ent v).length) :
    ∃ e, Round ent j e :=
  ⟨fun v => (ent v).get ⟨j, h v⟩, fun v => List.getElem?_eq_getElem (h v)⟩

end Rounds

section Inv
variable {α σ Ctx Opt : Type} {n m : Nat} [AddZeroClass α] [LinearOrder α]
variable (C : Setup α σ Ctx Opt n m) (I : Start α σ Opt n m) (ent : Fin n → List (Entry α σ m)) (w : Fin n)

/-- The compressor's state after `k` rounds. -/
def CompAfter (k : Nat) (c : σ) : Prop :=
  match k with
  | 0 => c = I.comp w
  | j + 1 => ∃ e, Round ent j e ∧ c = (compressed C e w).2.2

/-- How far worker `w` is in round `k`, which it has entered. -/
def InRound (x : Worker α σ Ctx Opt m) (sent : Fin m → List (List Byte)) (k : Nat) : Prop :=
  match x.phase with
  | .run => False
  | .norm batch info => (ent w)[k]? = some ⟨x.grads, x.comp, x.handles⟩ ∧ batch = x.handles.flatMap x.grads ∧
      info = C.info batch ∧ ∀ p, (sent p).length = k
  | .post batch ctx offset todo => ∃ e done, Round ent k e ∧ (e w).order = x.handles ∧ x.handles = done ++ todo ∧
      offset = (done.map C.size).sum ∧ (batch, ctx, x.comp) = compressed C e w ∧
      ∀ p, (sent p).length = if p ∈ todo then k else k + 1
  | .wait batch ctx offset todo outputs => ∃ e done, Round ent k e ∧ (e w).order = x.handles ∧
      x.handles = done ++ todo ∧ outputs = done.map (roundOutput C e) ∧ offset = (x.handles.map C.size).sum ∧
      (batch, ctx, x.comp) = compressed C e w ∧ ∀ p, (sent p).length = k + 1

structure Own (x : Worker α σ Ctx Opt m) (norms : List (Fin n → α)) (sent : Fin m → List (List Byte))
    (vers : List ((Fin m → List α) × Opt)) : Prop where
  normsEq : norms = (ent w).map fun y => oneHot w (C.norm y.batch)
  lengths : ∀ p, (x.grads p).length = C.size p
  entries : ∀ y ∈ ent w, y.order.Perm (List.finRange m) ∧ ∀ p, (y.grads p).length = C.size p
  comps : ∀ j y, (ent w)[j]? = some y → CompAfter C I ent w j y.comp
  sentEq : ∀ p j b, (sent p)[j]? = some b → ∃ e, Round ent j e ∧ b = roundBytes C e w p
  versEq : ∀ j ver, vers[j]? = some ver → ∃ e old, Round ent j e ∧
    ((I.params w, I.opt w) :: vers)[j]? = some old ∧ ver = C.optimize old.2 old.1 (roundGrads C e w)
  current : ((I.params w, I.opt w) :: vers)[vers.length]? = some (x.params, x.opt)
  -- between two rounds, or in one
  phase : (x.phase = .run ∧ (ent w).length = vers.length ∧ (∀ p, (sent p).length = vers.length) ∧
      x.handles.Nodup ∧ CompAfter C I ent w vers.length x.comp) ∨
    ((ent w).length = vers.length + 1 ∧ InRound C ent w x sent vers.length)

def Inv (S : State α σ Ctx Opt n m) : Prop :=
  ∀ w, Own C I S.entered w (S.worker w) (S.norms w) (S.sent w) (S.versions w)

variable {C I ent w}

theorem CompAfter.mono {ent' : Fin n → List (Entry α σ m)} (hent : ∀ v, ent v <+: ent' v) {k : Nat} {c : σ}
    (h : CompAfter C I ent w k c) : CompAfter C I ent' w k c := by
  cases k with
  | zero => exact h
  | succ j =>
    obtain ⟨e, he, hc⟩ := h
    exact ⟨e, he.mono hent, hc⟩

/-- Nothing that another worker does touches what is known of this one. -/
theorem Own.mono {ent' : Fin n → List (Entry α σ m)} (hent : ∀ v, ent v <+: ent' v) (hw : ent' w = ent w)
    {x : Worker α σ Ctx Opt m} {norms : List (Fin n → α)} {sent : Fin m → List (List Byte)}
    {vers : List ((Fin m → List α) × Opt)} (h : Own C I ent w x norms sent vers) :
    Own C I ent' w x norms sent vers where
  normsEq := hw ▸ h.normsEq
  lengths := h.lengths
  entries := hw ▸ h.entries
  comps j y hy := (h.comps j y (hw ▸ hy)).mono hent
  sentEq p j b hb := by
    obtain ⟨e, he, hb⟩ := h.sentEq p j b hb
    exact ⟨e, he.mono hent, hb⟩
  versEq j ver hver := by
    obtain ⟨e, old, he, hold, hver⟩ := h.versEq j ver hver
    exact ⟨e, old, he.mono hent, hold, hver⟩
  current := h.current
  phase := by
    rw [hw]
    refine h.phase.imp (fun h => ⟨h.1, h.2.1, h.2.2.1, h.2.2.2.1, h.2.2.2.2.mono hent⟩) fun h => ⟨h.1, ?_⟩
    have hin := h.2
    unfold InRound at hin ⊢
    split
    · next hph => rw [hph] at hin; exact hin
    · next hph => rw [hph] at hin; rw [hw]; exact hin
    · next hph =>
      rw [hph] at hin
      obtain ⟨e, done, he, hrest⟩ := hin
      exact ⟨e, done, he.mono hent, hrest⟩
    · next hph =>
      rw [hph] at hin
      obtain ⟨e, done, he, hrest⟩ := hin
      exact ⟨e, done, he.mono hent, hrest⟩

variable {S S' : State α σ Ctx Opt n m} {x : Worker α σ Ctx Opt m} {norms : List (Fin n → α)}
  {sent : Fin m → List (List Byte)} {vers : List ((Fin m → List α) × Opt)}

theorem Inv.init (C : Setup α σ Ctx Opt n m) (I : Start α σ Opt n m) : Inv C I (State.init C I) := fun w =>
  { normsEq := rfl
    lengths := fun p => List.length_replicate
    entries := fun y hy => absurd hy List.not_mem_nil
    comps := fun j y hy => by cases hy
    sentEq := fun p j b hb => by cases hb
    versEq := fun j ver hver => by cases hver
    current := rfl
    phase := .inl ⟨rfl, rfl, fun _ => rfl, List.nodup_nil, rfl⟩ }

/-- A step of worker `w`: only what it has itself is to be shown again. -/
theorem Inv.of_own (h : Inv C I S) (w : Fin n) (hent : ∀ v, S.entered v <+: S'.entered v)
    (hother : ∀ v ≠ w, S'.worker v = S.worker v ∧ S'.norms v = S.norms v ∧ S'.sent v = S.sent v ∧
      S'.versions v = S.versions v ∧ S'.entered v = S.entered v)
    (hown : Own C I S'.entered w (S'.worker w) (S'.norms w) (S'.sent w) (S'.versions w)) : Inv C I S' := fun v => by
  by_cases hv : v = w
  · rw [hv]; exact hown
  · obtain ⟨h1, h2, h3, h4, h5⟩ := hother v hv
    rw [h1, h2, h3, h4]
    exact (h v).mono hent h5

theorem Inv.own_worker (h : Inv C I S) (w : Fin n) {y : Worker α σ Ctx Opt m}
    (hown : Own C I S.entered w y (S.norms w) (S.sent w) (S.versions w)) :
    Inv C I { S with worker := Function.update S.worker w y } := by
  refine h.of_own w (fun _ => List.prefix_rfl) (fun v hv => ⟨Function.update_of_ne hv _ _, rfl, rfl, rfl, rfl⟩) ?_
  dsimp only
  rw [Function.update_self]
  exact hown

theorem Own.nodup (h : Own C I ent w x norms sent vers) {k : Nat} {e : Fin n → Entry α σ m} (he : Round ent k e) :
    (e w).order.Nodup :=
  (h.entries _ (List.mem_of_getElem? (he w))).1.nodup_iff.mpr (List.nodup_finRange m)

/-- Between two rounds gradients, delays and handles may change. -/
theorem Own.run (h : Own C I ent w x norms sent vers) (hph : x.phase = .run) {y : Worker α σ Ctx Opt m}
    (hy : y.params = x.params ∧ y.opt = x.opt ∧ y.comp = x.comp ∧ y.phase = x.phase)
    (hlen : ∀ p, (y.grads p).length = C.size p) (hnd : x.handles.Nodup → y.handles.Nodup) :
    Own C I ent w y norms sent vers := by
  obtain ⟨h1, h2, h3, h4⟩ := hy
  refine { h with lengths := hlen, current := by rw [h1, h2]; exact h.current, phase := .inl ?_ }
  obtain ⟨-, hk, hsent, hnd', hc⟩ | ⟨-, hin⟩ := h.phase
  · exact ⟨h4.trans hph, hk, hsent, hnd hnd', by rw [h3]; exact hc⟩
  · rw [InRound, hph] at hin; exact hin.elim

theorem Inv.backward (h : Inv C I S) {w : Fin n} {p : Fin m} {g : List α} (hst : backward S w p g = some S') :
    Inv C I S' := by
  simp only [BatchSync.backward] at hst
  split at hst
  · next hph =>
    split at hst
    · next hg =>
      cases hst
      refine h.own_worker w ?_
      have hlen : ∀ q, (Function.update (S.worker w).grads p
          (List.zipWith (· + ·) ((S.worker w).grads p) g) q).length = C.size q := fun q => by
        by_cases hq : q = p
        · rw [hq, Function.update_self, List.length_zipWith, hg, Nat.min_self, ← hg, hg]
          exact (h w).lengths p
        · rw [Function.update_of_ne hq]; exact (h w).lengths q
      unfold hook
      split
      · exact (h w).run hph ⟨rfl, rfl, rfl, rfl⟩ hlen id
      · refine (h w).run hph ⟨rfl, rfl, rfl, rfl⟩ hlen fun hnd => ?_
        dsimp only
        split
        · exact hnd
        · next hp => exact hnd.append (List.nodup_singleton p) (List.disjoint_singleton.mpr hp)
    · cases hst
  · cases hst

theorem Inv.zeroGrad (h : Inv C I S) {w : Fin n} (hst : zeroGrad S w = some S') : Inv C I S' := by
  simp only [BatchSync.zeroGrad] at hst
  split at hst
  · next hph =>
    cases hst
    refine h.own_worker w ?_
    exact (h w).run hph ⟨rfl, rfl, rfl, rfl⟩ (fun p => (List.length_map _).trans ((h w).lengths p)) id
  · cases hst

theorem perm_finRange {handles missing : List (Fin m)} (hnd : handles.Nodup)
    (hperm : missing.Perm ((List.finRange m).filter (· ∉ handles))) : (handles ++ missing).Perm (List.finRange m) := by
  refine (List.perm_ext_iff_of_nodup ?_ (List.nodup_finRange m)).mpr fun p => ?_
  · refine hnd.append (hperm.nodup_iff.mpr ((List.nodup_finRange m).filter _)) fun p hp hp' => ?_
    have := (List.mem_filter.mp (hperm.mem_iff.mp hp')).2
    exact of_decide_eq_true this hp
  · simp only [List.mem_append, hperm.mem_iff, List.mem_filter, List.mem_finRange, true_and, decide_eq_true_eq, iff_true]
    exact Classical.em _

theorem Inv.enter (h : Inv C I S) {w : Fin n} {missing : List (Fin m)} (hst : enter C S w missing = some S') :
    Inv C I S' := by
  simp only [BatchSync.enter] at hst
  split at hst
  · next hph =>
    split at hst
    · next hperm =>
      cases hst
      have how := h w
      obtain ⟨-, hk, hsent, hnd, hc⟩ | ⟨-, hin⟩ := how.phase
      swap
      · rw [InRound, hph] at hin; exact hin.elim
      have hent : ∀ v, S.entered v <+: Function.update S.entered w (S.entered w ++
          [⟨(S.worker w).grads, (S.worker w).comp, (S.worker w).handles ++ missing⟩]) v := fun v => by
        by_cases hv : v = w
        · rw [hv, Function.update_self]; exact List.prefix_append _ _
        · exact (Function.update_of_ne hv _ S.entered).symm ▸ List.prefix_rfl
      refine h.of_own w hent (fun v hv => ⟨Function.update_of_ne hv _ _, Function.update_of_ne hv _ _, rfl, rfl,
        Function.update_of_ne hv _ _⟩) ?_
      dsimp only
      rw [Function.update_self, Function.update_self]
      exact {
        normsEq := by rw [how.normsEq, Function.update_self, List.map_append]; rfl
        lengths := how.lengths
        entries := fun y hy => by
          rw [Function.update_self] at hy
          rcases List.mem_append.mp hy with hy | hy
          · exact how.entries y hy
          · cases List.mem_singleton.mp hy
            exact ⟨perm_finRange hnd hperm, how.lengths⟩
        comps := fun j y hy => by
          rw [Function.update_self, List.getElem?_append] at hy
          split at hy
          · exact (how.comps j y hy).mono hent
          · obtain ⟨hj, rfl⟩ := List.getElem?_eq_some_iff.mp hy
            have hj' : j = (S.versions w).length := by simp only [List.length_singleton] at hj; omega
            simp only [List.getElem_singleton]
            rw [hj']
            exact hc.mono hent
        sentEq := fun p j b hb => by
          obtain ⟨e, he, hb⟩ := how.sentEq p j b hb
          exact ⟨e, he.mono hent, hb⟩
        versEq := fun j ver hver => by
          obtain ⟨e, old, he, hold, hver⟩ := how.versEq j ver hver
          exact ⟨e, old, he.mono hent, hold, hver⟩
        current := how.current
        phase := .inr ⟨by rw [Function.update_self, List.length_append, hk]; rfl, by
          simp only [InRound, Function.update_self]
          refine ⟨?_, trivial, trivial, hsent⟩
          rw [List.getElem?_append_right (by omega), hk, Nat.sub_self]
          rfl⟩ }
    · cases hst
  · cases hst

theorem Own.inRound (h : Own C I ent w x norms sent vers) (hph : x.phase ≠ .run) :
    (ent w).length = vers.length + 1 ∧ InRound C ent w x sent vers.length :=
  h.phase.resolve_left fun hr => hph hr.1

theorem Inv.norm (h : Inv C I S) {w : Fin n} (hst : norm C S w = some S') : Inv C I S' := by
  simp only [BatchSync.norm] at hst
  split at hst
  · next batch info hph =>
    split at hst
    · next hall =>
      cases hst
      refine h.own_worker w ?_
      have how := h w
      obtain ⟨hk, hin⟩ := how.inRound (by rw [hph]; nofun)
      rw [InRound, hph] at hin
      obtain ⟨hlast, rfl, rfl, hsent⟩ := hin
      -- all have posted their norms, so all have entered the round
      have hlen : ∀ v, (S.norms v).length = (S.entered v).length := fun v => by rw [(h v).normsEq, List.length_map]
      have hr : (S.norms w).length - 1 = (S.versions w).length := by rw [hlen, hk]; rfl
      have hentered : ∀ v, (S.versions w).length < (S.entered v).length := fun v => by
        rw [← hlen, ← hr]; exact hall v
      obtain ⟨e, he⟩ := exists_round hentered
      have hew : e w = ⟨(S.worker w).grads, (S.worker w).comp, (S.worker w).handles⟩ :=
        Option.some.inj ((he w).symm.trans hlast)
      have hout : (C.pushPull fun v => (S.norms v).getD ((S.norms w).length - 1) fun _ => 0) =
          C.pushPull fun v => oneHot v (C.norm (e v).batch) := by
        congr 1
        funext v
        rw [hr, List.getD_eq_getElem?_getD, (h v).normsEq, List.getElem?_map, he v]
        rfl
      have hcomp : C.compress (S.worker w).comp ((S.worker w).handles.flatMap (S.worker w).grads)
          { C.info ((S.worker w).handles.flatMap (S.worker w).grads) with
            maxNorm := globalNorm (C.info ((S.worker w).handles.flatMap (S.worker w).grads)).maxNorm
              (C.pushPull fun v => (S.norms v).getD ((S.norms w).length - 1) fun _ => 0) } = compressed C e w := by
        rw [hout, compressed, roundInfo, hew]
        rfl
      refine { how with phase := .inr ⟨hk, ?_⟩ }
      refine ⟨e, [], he, by rw [hew], rfl, rfl, ?_, fun p => ?_⟩
      · dsimp only
        rw [← hcomp]
      · have hp : p ∈ (S.worker w).handles := by
          have := (how.entries _ (List.mem_of_getElem? hlast)).1
          exact this.mem_iff.mpr (List.mem_finRange p)
        rw [if_pos hp]
        exact hsent p
    · cases hst
  · cases hst

/-- The compressed batch has room for all slices. -/
theorem Own.fits (h : Own C I ent w x norms sent vers) {k : Nat} {e : Fin n → Entry α σ m} (he : Round ent k e) :
    ((e w).order.map C.size).sum ≤ (compressed C e w).1.length := by
  obtain ⟨hperm, hlen⟩ := h.entries _ (List.mem_of_getElem? (he w))
  refine Nat.le_trans (Nat.le_of_eq ?_) (C.length_compress (e w).comp (e w).batch (roundInfo C e w))
  rw [length_batch hperm hlen, Setup.total, (hperm.map C.size).sum_nat]

/-- So does the decompressed one. -/
theorem Own.fits_back (h : Own C I ent w x norms sent vers) {k : Nat} {e : Fin n → Entry α σ m}
    (he : Round ent k e) : ((e w).order.map C.size).sum ≤
      (C.decompress (aggregated C e w) (compressed C e w).2.1).length := by
  have hfits := h.fits he
  obtain ⟨hperm, hlen⟩ := h.entries _ (List.mem_of_getElem? (he w))
  have hbatch : (e w).batch.length = ((e w).order.map C.size).sum := by
    rw [length_batch hperm hlen, Setup.total, (hperm.map C.size).sum_nat]
  rw [← hbatch]
  refine C.length_decompress (e w).comp (e w).batch (roundInfo C e w) _ ?_
  have hout : (((e w).order.map (roundOutput C e)).flatten.map C.ofByte).length = ((e w).order.map C.size).sum := by
    rw [List.length_map, List.length_flatten, List.map_map]
    congr 1
    exact List.map_congr_left fun p _ => length_average _ _
  rw [aggregated, List.length_append, hout, List.length_drop, ← compressed]
  omega

theorem Inv.post (h : Inv C I S) {w : Fin n} (hst : post C S w = some S') : Inv C I S' := by
  have how := h w
  simp only [BatchSync.post] at hst
  split at hst
  · next batch ctx offset p todo hph =>
    obtain ⟨hk, hin⟩ := how.inRound (by rw [hph]; nofun)
    rw [InRound, hph] at hin
    obtain ⟨e, done, he, horder, hdone, rfl, hcomp, hsent⟩ := hin
    cases hst
    have hnd := how.nodup he
    have hfits := how.fits he
    rw [horder, hdone] at hnd
    rw [horder, hdone, ← hcomp, List.map_append, List.map_cons, List.sum_append, List.sum_cons] at hfits
    have hp : p ∉ done := fun hm => (List.nodup_append.mp hnd).2.2 p hm p List.mem_cons_self rfl
    have hp' : p ∉ todo := (List.nodup_cons.mp (List.nodup_append.mp hnd).2.1).1
    have hoff : offsetIn C.size (e w).order p = (done.map C.size).sum := by rw [horder, hdone, offsetIn_append hp]
    have hslice : (slice batch (done.map C.size).sum ((S.worker w).grads p).length).length = C.size p := by
      rw [how.lengths p]
      exact length_slice (by dsimp only at hfits; omega)
    have hbytes : (slice batch (done.map C.size).sum ((S.worker w).grads p).length).map C.toByte =
        roundBytes C e w p := by
      rw [roundBytes, hoff, ← hcomp, how.lengths p]
    refine h.of_own w (fun _ => List.prefix_rfl) (fun v hv => ⟨Function.update_of_ne hv _ _, rfl,
      Function.update_of_ne hv _ _, rfl, rfl⟩) ?_
    dsimp only
    rw [Function.update_self, Function.update_self, hbytes]
    exact { how with
      lengths := fun q => by
        dsimp only
        by_cases hq : q = p
        · rw [hq, Function.update_self]; exact hslice
        · rw [Function.update_of_ne hq]; exact how.lengths q
      sentEq := fun q j b hb => by
        by_cases hq : q = p
        · rw [hq, Function.update_self, List.getElem?_append] at hb
          rw [hq]
          split at hb
          · exact how.sentEq p j b hb
          · obtain ⟨hj, rfl⟩ := List.getElem?_eq_some_iff.mp hb
            have hlen := hsent p
            rw [if_pos List.mem_cons_self] at hlen
            have hj' : j = (S.versions w).length := by simp only [List.length_singleton] at hj; omega
            exact ⟨e, hj' ▸ he, List.getElem_singleton _⟩
        · rw [Function.update_of_ne hq] at hb
          exact how.sentEq q j b hb
      phase := .inr ⟨hk, by
        refine ⟨e, done ++ [p], he, horder, by simpa using hdone, ?_, hcomp, fun q => ?_⟩
        · rw [List.map_append, List.sum_append, how.lengths p]; rfl
        · by_cases hq : q = p
          · have hlen := hsent p
            rw [if_pos List.mem_cons_self] at hlen
            rw [hq, Function.update_self, if_neg hp', List.length_append, hlen]
            rfl
          · rw [Function.update_of_ne hq, hsent q]
            simp only [List.mem_cons, hq, false_or]⟩ }
  · next batch ctx offset hph =>
    obtain ⟨hk, hin⟩ := how.inRound (by rw [hph]; nofun)
    rw [InRound, hph] at hin
    obtain ⟨e, done, he, horder, hdone, rfl, hcomp, hsent⟩ := hin
    cases hst
    refine h.own_worker w { how with phase := .inr ⟨hk, ?_⟩ }
    rw [List.append_nil] at hdone
    exact ⟨e, [], he, horder, rfl, rfl, by rw [hdone], hcomp, fun p => by simpa using hsent p⟩
  · cases hst

theorem Inv.wait (h : Inv C I S) {w : Fin n} (hst : wait C S w = some S') : Inv C I S' := by
  have how := h w
  simp only [BatchSync.wait] at hst
  split at hst
  · next batch ctx offset p todo outputs hph =>
    obtain ⟨hk, hin⟩ := how.inRound (by rw [hph]; nofun)
    rw [InRound, hph] at hin
    obtain ⟨e, done, he, horder, hdone, rfl, rfl, hcomp, hsent⟩ := hin
    split at hst
    · next hall =>
      cases hst
      have hout : average C ((S.worker w).grads p).length
          (fun v => (S.sent v p).getD ((S.sent w p).length - 1) []) = roundOutput C e p := by
        rw [roundOutput, how.lengths p]
        congr 1
        funext v
        have hv := hall v
        rw [hsent p, Nat.add_sub_cancel] at hv ⊢
        obtain ⟨e', he', hb⟩ := (h v).sentEq p _ _ (List.getElem?_eq_getElem hv)
        rw [List.getD_eq_getElem?_getD, List.getElem?_eq_getElem hv, Option.getD_some, hb, he.unique he']
      refine h.own_worker w { how with phase := .inr ⟨hk, ?_⟩ }
      refine ⟨e, done ++ [p], he, horder, by simpa using hdone, ?_, rfl, hcomp, hsent⟩
      rw [hout, List.map_append]
      rfl
    · cases hst
  · next batch ctx offset outputs hph =>
    obtain ⟨hk, hin⟩ := how.inRound (by rw [hph]; nofun)
    rw [InRound, hph] at hin
    obtain ⟨e, done, he, horder, hdone, rfl, rfl, hcomp, hsent⟩ := hin
    rw [List.append_nil] at hdone
    cases hst
    have hdec : C.decompress ((done.map (roundOutput C e)).flatten.map C.ofByte ++
        batch.drop (((S.worker w).handles.map C.size).sum)) ctx =
        C.decompress (aggregated C e w) (compressed C e w).2.1 := by
      rw [aggregated, horder, ← hcomp, hdone]
    have hall : ∀ p, p ∈ (S.worker w).handles := fun p => by
      rw [← horder]
      exact (how.entries _ (List.mem_of_getElem? (he w))).1.mem_iff.mpr (List.mem_finRange p)
    have hfits := how.fits_back he
    rw [horder, ← Nat.zero_add (List.sum _)] at hfits
    obtain ⟨hlen, -, hin⟩ := scatter_spec (horder ▸ how.nodup he) how.lengths hfits
    have hg : scatter (C.decompress (aggregated C e w) (compressed C e w).2.1) 0 (S.worker w).grads
        (S.worker w).handles = roundGrads C e w := funext fun p => by
      rw [hin p (hall p), roundGrads, Nat.zero_add, horder]
    rw [hg] at hlen
    refine h.of_own w (fun _ => List.prefix_rfl) (fun v hv => ⟨Function.update_of_ne hv _ _, rfl, rfl,
      Function.update_of_ne hv _ _, rfl⟩) ?_
    dsimp only
    rw [Function.update_self, Function.update_self, hdec, hg]
    exact { how with
      lengths := hlen
      versEq := fun j ver hver => by
        rw [List.getElem?_append] at hver
        split at hver
        · next hj =>
          obtain ⟨e', old, he', hold, hver⟩ := how.versEq j ver hver
          exact ⟨e', old, he', by rw [← List.cons_append, List.getElem?_append_left (by rw [List.length_cons]; omega)]; exact hold, hver⟩
        · obtain ⟨hj, rfl⟩ := List.getElem?_eq_some_iff.mp hver
          have hj' : j = (S.versions w).length := by simp only [List.length_singleton] at hj; omega
          refine ⟨e, ((S.worker w).params, (S.worker w).opt), hj' ▸ he, ?_, ?_⟩
          · rw [← List.cons_append, List.getElem?_append_left (by rw [List.length_cons]; omega), hj']
            exact how.current
          · rw [List.getElem_singleton]
      current := by
        rw [List.length_append, ← List.cons_append, List.getElem?_append_right (by simp)]
        simp
      phase := .inl ⟨rfl, by rw [hk, List.length_append]; rfl, fun p => by
          rw [hsent p, List.length_append]; rfl, List.nodup_nil, by
        rw [List.length_append]
        exact ⟨e, he, by rw [← hcomp]⟩⟩ }
  · cases hst

theorem inv_inductive (C : Setup α σ Ctx Opt n m) (I : Start α σ Opt n m) : (machine C I).Inductive (Inv C I) where
  init := fun S hS => by rw [show S = State.init C I from hS]; exact Inv.init C I
  step := fun S a S' h hst => by
    cases a <;> simp only [machine, LTS.ofFn, BatchSync.step] at hst <;> split at hst <;>
      first | cases hst | skip
    · exact h.backward hst
    · exact h.zeroGrad hst
    · exact h.enter hst
    · exact h.norm hst
    · exact h.post hst
    · exact h.wait hst

/-- **Synchronous rounds.** Whatever the interleaving, worker `w`'s update number `j` comes after every
worker has entered `synchronize` for the `j`-th time, and it is the optimizer's update with the
gradients of a synchronous round (`roundGrads`) on what they entered with. -/
theorem synchronize_lockstep (C : Setup α σ Ctx Opt n m) (I : Start α σ Opt n m) (S : State α σ Ctx Opt n m)
    (h : (machine C I).Reachable S) (w : Fin n) (j : Nat) (ver : (Fin m → List α) × Opt)
    (hver : (S.versions w)[j]? = some ver) :
    ∃ e old, (∀ v, (S.entered v)[j]? = some (e v)) ∧ ((I.params w, I.opt w) :: S.versions w)[j]? = some old ∧
      ver = C.optimize old.2 old.1 (roundGrads C e w) :=
  ((inv_inductive C I).reachable S h w).versEq j ver hver

end Inv

/-- The byte sums of the workers' tensors. -/
def summedBytes {n : Nat} (len : Nat) (ts : Fin n → List Byte) : List Byte :=
  (List.range len).map fun j => (List.ofFn fun v => (ts v).getD j 0#8).foldl (· + ·) 0#8

/-- Two parameters of one element and two workers, no compression, gradient descent. -/
def plain : Setup Int Unit Int Unit 2 2 where
  size _ := 1
  passes := 1
  bytepsSize := 2
  norm g := (g.map Int.natAbs).sum
  toByte := BitVec.ofInt 8
  ofByte b := b.toNat
  pushPull := summed
  pushPullBytes := summedBytes
  length_pushPullBytes _ _ := (List.length_map _).trans List.length_range
  compress _ g i := (g, i.maxNorm, ())
  decompress a _ := a
  length_compress _ g _ := Nat.le_refl g.length
  length_decompress _ _ _ _ h := Nat.le_of_eq h.symm
  optimize _ params grads := (fun p => List.zipWith (· - ·) (params p) (grads p), ())

def zeros : Start Int Unit Unit 2 2 := ⟨fun _ _ => [0], fun _ => (), fun _ => ()⟩

/-- The hooks run in the order 1, 0; worker 0 is through first. -/
def oneStep : List (Act Int 2 2) :=
  [.backward 0 1 [3], .backward 0 0 [10], .backward 1 1 [5], .backward 1 0 [20], .step 0 [], .step 1 [], .norm 0,
    .post 0, .post 0, .post 0, .norm 1, .post 1, .post 1, .post 1, .wait 0, .wait 0, .wait 0, .wait 1, .wait 1,
    .wait 1]

theorem synchronize_lockstep_two_workers : ∃ S, (machine plain zeros).Reachable S ∧
    ∃ e old, (∀ v, (S.entered v)[0]? = some (e v)) ∧ (zeros.params 0, zeros.opt 0) = old ∧
      (S.versions 0)[0]? = some (plain.optimize old.2 old.1 (roundGrads plain e 0)) := by
  obtain ⟨S, ver, hS, hver⟩ : ∃ S ver, LTS.execute (LTS.guarded (step plain) fun _ _ _ => True) (State.init plain zeros)
      oneStep = some S ∧ (S.versions 0)[0]? = some ver := ⟨_, _, rfl, rfl⟩
  have hr := (LTS.Reachable.of_execute (.init (M := (machine plain zeros).restrict fun _ _ _ => True) rfl)
    hS).of_restrict
  obtain ⟨e, old, he, hold, h⟩ := synchronize_lockstep plain zeros S hr 0 0 ver hver
  exact ⟨S, hr, e, old, he, Option.some.inj hold, hver.trans (congrArg some h)⟩

/-! ## The replicas agree -/

section OneHot
variable {α : Type} {n : Nat} [AddZeroClass α]

theorem sum_zeros : ∀ {l : List α}, (∀ x ∈ l, x = 0) → l.sum = 0
  | [], _ => rfl
  | x :: l, h => by
    rw [List.sum_cons, h x List.mem_cons_self, zero_add, sum_zeros fun y hy => h y (List.mem_cons_of_mem _ hy)]

theorem sum_single : ∀ {n : Nat} (f : Fin n → α) (i : Fin n), (∀ v, v ≠ i → f v = 0) → (List.ofFn f).sum = f i
  | 0, _, i, _ => i.elim0
  | n + 1, f, i, h => by
    rw [List.ofFn_succ, List.sum_cons]
    cases i using Fin.cases with
    | zero =>
      have hzero : (List.ofFn fun v : Fin n => f v.succ).sum = 0 := by
        refine sum_zeros fun x hx => ?_
        obtain ⟨v, rfl⟩ := List.mem_ofFn.mp hx
        exact h _ (Fin.succ_ne_zero v)
      rw [hzero, add_zero]
    | succ i =>
      rw [h 0 (Fin.succ_ne_zero i).symm, zero_add]
      exact sum_single (fun v => f v.succ) i fun v hv => h _ fun heq => hv (Fin.succ_inj.mp heq)

/-- What the push-pull of `max_info` gives is the vector of the norms. -/
theorem summed_oneHot (x : Fin n → α) : (summed fun v => oneHot v (x v)) = x := funext fun i => by
  rw [summed, sum_single (fun v => oneHot v (x v) i) i fun v hv => if_neg (Ne.symm hv)]
  exact if_pos rfl

variable [LinearOrder α]

/-- The workers find the same norm; that the largest one is 0 makes no difference. -/
theorem globalNorm_eq (x : Fin n → α) (hx : ∀ v, 0 ≤ x v) (v w : Fin n) : globalNorm (x v) x = globalNorm (x w) x := by
  unfold globalNorm
  dsimp only
  split
  · next h0 =>
    have hle : ∀ u, x u = 0 := fun u => by
      refine le_antisymm ?_ (hx u)
      cases hmax : (List.ofFn x).max? with
      | none =>
        rw [List.max?_eq_none_iff, List.ofFn_eq_nil_iff] at hmax
        exact (hmax ▸ u).elim0
      | some y =>
        rw [hmax, Option.getD_some] at h0
        rw [← h0]
        exact (List.max?_eq_some_iff.mp hmax).2 _ (List.mem_ofFn.mpr ⟨u, rfl⟩)
    rw [hle v, hle w]
  · rfl

end OneHot

section Agreement
variable {α σ Ctx Opt : Type} {n m : Nat} [AddZeroClass α] [LinearOrder α] (C : Setup α σ Ctx Opt n m)
  (I : Start α σ Opt n m) (R : σ → σ → Prop)

/-- The norms are summed, and compressors in states related by `R` (the same seed, say) that are given
the same norm give the same context, stay related, and what they put behind the batch does not matter
to `decompress`. -/
structure Shared : Prop where
  sums : ∀ ts, C.pushPull ts = summed ts
  nonneg : ∀ g, 0 ≤ C.norm g
  compress : ∀ s s' g g' (i i' : Info α), R s s' → g.length = C.total → g'.length = C.total →
    i.maxNorm = i'.maxNorm →
    (C.compress s g i).2.1 = (C.compress s' g' i').2.1 ∧ R (C.compress s g i).2.2 (C.compress s' g' i').2.2 ∧
    ∀ a : List α, C.decompress (a ++ (C.compress s g i).1.drop C.total) (C.compress s g i).2.1 =
      C.decompress (a ++ (C.compress s' g' i').1.drop C.total) (C.compress s' g' i').2.1

/-- A worker enters its round with the order that the others have in that round. -/
def SameOrder (S : State α σ Ctx Opt n m) (a : Act α n m) (_ : State α σ Ctx Opt n m) : Prop :=
  match a with
  | .step w missing => ∀ v, ∀ y ∈ (S.entered v)[(S.entered w).length]?, y.order = (S.worker w).handles ++ missing
  | _ => True

variable {C I R}

theorem entered_step {S S' : State α σ Ctx Opt n m} {a : Act α n m} (hst : step C S a = some S') :
    S'.entered = S.entered ∨ ∃ w missing y, a = .step w missing ∧ y.order = (S.worker w).handles ++ missing ∧
      S'.entered = Function.update S.entered w (S.entered w ++ [y]) := by
  cases a <;> simp only [step] at hst <;> split at hst <;> first | cases hst | skip
  case backward w p g hf =>
    simp only [backward] at hst
    split at hst
    · split at hst
      · cases hst; exact .inl rfl
      · cases hst
    · cases hst
  case zeroGrad w hf =>
    simp only [zeroGrad] at hst
    split at hst
    · cases hst; exact .inl rfl
    · cases hst
  case step w missing hf =>
    simp only [enter] at hst
    split at hst
    · split at hst
      · cases hst; exact .inr ⟨w, missing, _, rfl, rfl, rfl⟩
      · cases hst
    · cases hst
  case norm w hf =>
    simp only [norm] at hst
    split at hst
    · split at hst
      · cases hst; exact .inl rfl
      · cases hst
    · cases hst
  case post w hf =>
    simp only [post] at hst
    split at hst <;> first | (cases hst; exact .inl rfl) | cases hst
  case wait w hf =>
    simp only [wait] at hst
    split at hst
    · split at hst
      · cases hst; exact .inl rfl
      · cases hst
    · cases hst; exact .inl rfl
    · cases hst

def OrdersAgree (S : State α σ Ctx Opt n m) : Prop :=
  ∀ (j : Nat) (v w : Fin n), ∀ y ∈ (S.entered v)[j]?, ∀ y' ∈ (S.entered w)[j]?, y.order = y'.order

theorem orders_inductive : ((machine C I).restrict SameOrder).Inductive OrdersAgree where
  init := fun S hS => by
    rw [show S = State.init C I from hS]
    intro j v w y hy
    cases hy
  step := fun S a S' h hst => by
    obtain ⟨hst, hsame⟩ := hst
    obtain heq | ⟨u, missing, x, rfl, hx, heq⟩ := entered_step hst
    · unfold OrdersAgree; rw [heq]; exact h
    · -- an entry of the new state is old, or the new one
      have hcases : ∀ j v, ∀ y ∈ (S'.entered v)[j]?, y ∈ (S.entered v)[j]? ∨
          v = u ∧ j = (S.entered u).length ∧ y = x := fun j v y hy => by
        rw [heq] at hy
        by_cases hv : v = u
        · rw [hv, Function.update_self, Option.mem_def, List.getElem?_append] at hy
          split at hy
          · exact .inl (hv ▸ hy)
          · obtain ⟨hj, rfl⟩ := List.getElem?_eq_some_iff.mp hy
            refine .inr ⟨hv, ?_, List.getElem_singleton _⟩
            simp only [List.length_singleton] at hj
            omega
        · rw [Function.update_of_ne hv] at hy; exact .inl hy
      intro j v w y hy y' hy'
      rcases hcases j v y hy with hy | ⟨-, hj, rfl⟩ <;> rcases hcases j w y' hy' with hy' | ⟨-, hj', rfl⟩
      · exact h j v w y hy y' hy'
      · rw [hx]; exact hsame v y (hj' ▸ hy)
      · rw [hx]; exact (hsame w y' (hj ▸ hy')).symm
      · rfl

variable {S : State α σ Ctx Opt n m}

/-- In a round the workers' compressors find the same norm, so their contexts are the same. -/
theorem Inv.compress (h : Inv C I S) (hC : Shared C R) {j : Nat} {e : Fin n → Entry α σ m} (he : Round S.entered j e)
    {v w : Fin n} (hR : R (e v).comp (e w).comp) :
    (compressed C e v).2.1 = (compressed C e w).2.1 ∧ R (compressed C e v).2.2 (compressed C e w).2.2 ∧
    ∀ a : List α, C.decompress (a ++ (compressed C e v).1.drop C.total) (compressed C e v).2.1 =
      C.decompress (a ++ (compressed C e w).1.drop C.total) (compressed C e w).2.1 := by
  have hlen : ∀ u, (e u).batch.length = C.total := fun u => by
    obtain ⟨hperm, hg⟩ := (h u).entries _ (List.mem_of_getElem? (he u))
    exact length_batch hperm hg
  refine hC.compress _ _ _ _ _ _ hR (hlen v) (hlen w) ?_
  simp only [roundInfo, hC.sums, summed_oneHot fun u => C.norm (e u).batch]
  exact globalNorm_eq (fun u => C.norm (e u).batch) (fun u => hC.nonneg _) v w

theorem Inv.related (h : Inv C I S) (hC : Shared C R) (hstart : ∀ v w, R (I.comp v) (I.comp w)) {j : Nat} :
    ∀ {e : Fin n → Entry α σ m}, Round S.entered j e → ∀ v w, R (e v).comp (e w).comp := by
  induction j with
  | zero =>
    intro e he v w
    have hv : (e v).comp = I.comp v := (h v).comps 0 _ (he v)
    have hw : (e w).comp = I.comp w := (h w).comps 0 _ (he w)
    rw [hv, hw]
    exact hstart v w
  | succ j ih =>
    intro e he v w
    obtain ⟨e₁, he₁, hv⟩ := (h v).comps (j + 1) _ (he v)
    obtain ⟨e₂, he₂, hw⟩ := (h w).comps (j + 1) _ (he w)
    rw [hv, hw, he₂.unique he₁]
    exact (h.compress hC he₁ (ih he₁ v w)).2.1

theorem Inv.roundGrads_eq (h : Inv C I S) (ho : OrdersAgree S) (hC : Shared C R)
    (hstart : ∀ v w, R (I.comp v) (I.comp w)) {j : Nat} {e : Fin n → Entry α σ m} (he : Round S.entered j e)
    (v w : Fin n) : roundGrads C e v = roundGrads C e w := by
  have horder : (e v).order = (e w).order := ho j v w _ (he v) _ (he w)
  have htotal : ∀ u, ((e u).order.map C.size).sum = C.total := fun u =>
    (((h u).entries _ (List.mem_of_getElem? (he u))).1.map C.size).sum_nat
  obtain ⟨-, -, hdec⟩ := h.compress hC he (h.related hC hstart he v w)
  funext p
  rw [roundGrads, roundGrads, aggregated, aggregated, htotal, htotal, horder, hdec]

/-- **The replicas agree.** If all workers start with the same parameters and optimizer state, their
compressors are `Shared`, and they enter every round with the parameters in the same order, then any
two workers have the same parameters and optimizer state after their `j`-th update, for every `j`. -/
theorem replicas_agree (C : Setup α σ Ctx Opt n m) (I : Start α σ Opt n m) (R : σ → σ → Prop) (hC : Shared C R)
    (hstart : ∀ v w, I.params v = I.params w ∧ I.opt v = I.opt w ∧ R (I.comp v) (I.comp w))
    (S : State α σ Ctx Opt n m) (h : ((machine C I).restrict SameOrder).Reachable S) (v w : Fin n) (j : Nat)
    (ver ver' : (Fin m → List α) × Opt) (hv : (S.versions v)[j]? = some ver)
    (hw : (S.versions w)[j]? = some ver') : ver = ver' := by
  have hinv := (inv_inductive C I).reachable S h.of_restrict
  have horders := orders_inductive.reachable S h
  -- the version before the update is the start, or one more update back
  induction j generalizing ver ver' with
  | zero =>
    obtain ⟨e, old, he, hold, rfl⟩ := (hinv v).versEq 0 ver hv
    obtain ⟨e', old', he', hold', rfl⟩ := (hinv w).versEq 0 ver' hw
    cases he.unique he'
    cases hold
    cases hold'
    obtain ⟨h1, h2, -⟩ := hstart v w
    rw [hinv.roundGrads_eq horders hC (fun v w => (hstart v w).2.2) he v w, h1, h2]
  | succ j ih =>
    obtain ⟨e, old, he, hold, rfl⟩ := (hinv v).versEq (j + 1) ver hv
    obtain ⟨e', old', he', hold', rfl⟩ := (hinv w).versEq (j + 1) ver' hw
    cases he.unique he'
    rw [hinv.roundGrads_eq horders hC (fun v w => (hstart v w).2.2) he v w, ih old old' hold hold']

end Agreement

instance {α σ Ctx Opt : Type} {n m : Nat} (S : State α σ Ctx Opt n m) :
    (a : Act α n m) → (S' : State α σ Ctx Opt n m) → Decidable (SameOrder S a S')
  | .step w missing, _ => inferInstanceAs (Decidable (∀ v, ∀ y ∈ (S.entered v)[(S.entered w).length]?,
      y.order = (S.worker w).handles ++ missing))
  | .backward _ _ _, _ | .zeroGrad _, _ | .norm _, _ | .post _, _ | .wait _, _ => .isTrue trivial

theorem plain_shared : Shared plain fun _ _ => True where
  sums _ := rfl
  nonneg g := Int.natCast_nonneg _
  compress s s' g g' i i' _ hg hg' hi := by
    refine ⟨hi, trivial, fun a => ?_⟩
    change a ++ g.drop plain.total = a ++ g'.drop plain.total
    rw [List.drop_eq_nil_of_le (le_of_eq hg), List.drop_eq_nil_of_le (le_of_eq hg')]

theorem replicas_agree_two_workers : ∃ S ver, ((machine plain zeros).restrict SameOrder).Reachable S ∧
    (S.versions 0)[0]? = some ver ∧ (S.versions 1)[0]? = some ver ∧ ver.1 0 = [-15] ∧ ver.1 1 = [-4] := by
  obtain ⟨S, ver, ver', hS, hv, hw, h0, h1⟩ : ∃ S ver ver', LTS.execute (LTS.guarded (step plain) SameOrder)
      (State.init plain zeros) oneStep = some S ∧ (S.versions 0)[0]? = some ver ∧ (S.versions 1)[0]? = some ver' ∧
      ver.1 0 = [-15] ∧ ver.1 1 = [-4] := ⟨_, _, _, rfl, rfl, rfl, rfl, rfl⟩
  have hr := LTS.Reachable.of_execute (.init (M := (machine plain zeros).restrict SameOrder) rfl) hS
  have heq := replicas_agree plain zeros (fun _ _ => True) plain_shared (fun _ _ => ⟨rfl, rfl, trivial⟩) S hr 0 1 0 ver
    ver' hv hw
  exact ⟨S, ver, hr, hv, heq ▸ hw, h0, h1⟩

/-! ## No deadlock -/

section Progress
variable {α σ Ctx Opt : Type} {n m : Nat} [AddZeroClass α] [LinearOrder α] (C : Setup α σ Ctx Opt n m)

/-- The steps inside `synchronize`. -/
def innerStep (S : State α σ Ctx Opt n m) (a : Act α n m) : Option (State α σ Ctx Opt n m) :=
  match a with
  | .norm _ | .post _ | .wait _ => step C S a
  | _ => none

/-- How many more steps a worker takes in its round. -/
def Worker.rank (x : Worker α σ Ctx Opt m) : Nat :=
  if x.failed then 0
  else match x.phase with
    | .run => 0
    | .norm _ _ => 2 * x.handles.length + 3
    | .post _ _ _ todo => todo.length + x.handles.length + 2
    | .wait _ _ _ todo _ => todo.length + 1

def rank (S : State α σ Ctx Opt n m) : Nat := ∑ w, (S.worker w).rank

variable {C}

/-- A step inside `synchronize` is one worker's, and brings it closer to the end. -/
theorem innerStep_worker {S S' : State α σ Ctx Opt n m} {a : Act α n m} (hst : innerStep C S a = some S') :
    ∃ w y, S'.worker = Function.update S.worker w y ∧ y.rank < (S.worker w).rank := by
  unfold innerStep at hst
  split at hst
  · next w =>
    simp only [step] at hst
    split at hst
    · cases hst
    · next hf =>
      simp only [norm] at hst
      split at hst
      · next hph =>
        split at hst
        · cases hst
          refine ⟨w, _, rfl, ?_⟩
          simp [Worker.rank, hf, hph]
          omega
        · cases hst
      · cases hst
  · next w =>
    simp only [step] at hst
    split at hst
    · cases hst
    · next hf =>
      simp only [post] at hst
      split at hst
      · next hph =>
        cases hst
        refine ⟨w, _, rfl, ?_⟩
        simp [Worker.rank, hf, hph]
      · next hph =>
        cases hst
        refine ⟨w, _, rfl, ?_⟩
        simp [Worker.rank, hf, hph]
      · cases hst
  · next w =>
    simp only [step] at hst
    split at hst
    · cases hst
    · next hf =>
      simp only [wait] at hst
      split at hst
      · next hph =>
        split at hst <;> cases hst
        refine ⟨w, _, rfl, ?_⟩
        simp [Worker.rank, hf, hph]
      · next hph =>
        cases hst
        refine ⟨w, _, rfl, ?_⟩
        simp [Worker.rank, hf, hph]
      · cases hst
  · cases hst

theorem descends : LTS.Descends (innerStep C) (fun _ : State α σ Ctx Opt n m => True) rank where
  keeps := fun _ _ _ _ _ => trivial
  lt := fun S a S' _ hst => by
    obtain ⟨w, y, hw, hlt⟩ := innerStep_worker hst
    refine Finset.sum_lt_sum (fun v _ => ?_) ⟨w, Finset.mem_univ w, ?_⟩
    · rw [hw]
      by_cases hv : v = w
      · rw [hv, Function.update_self]; exact hlt.le
      · rw [Function.update_of_ne hv]
    · rw [hw, Function.update_self]
      exact hlt

/-- **No deadlock.** From every reachable state the workers take at most `rank` steps inside
`synchronize`. When they can take none, no worker has raised an exception and all have entered
equally often, none is inside. -/
theorem rounds_complete (C : Setup α σ Ctx Opt n m) (I : Start α σ Opt n m) (S : State α σ Ctx Opt n m)
    (h : (machine C I).Reachable S) :
    (∀ as S', LTS.execute (innerStep C) S as = some S' → as.length ≤ rank S) ∧
    ((∀ a, innerStep C S a = none) → (∀ w, (S.worker w).failed = false) →
      (∀ v w, (S.entered v).length = (S.entered w).length) → ∀ w, (S.worker w).phase = .run) := by
  refine ⟨fun as S' hrun => descends.length_le trivial hrun, fun hstop hok hsame w => ?_⟩
  have hinv := (inv_inductive C I).reachable S h
  have hlen : ∀ v, (S.norms v).length = (S.entered v).length := fun v => by rw [(hinv v).normsEq, List.length_map]
  have hnorm : ∀ u batch info, (S.worker u).phase ≠ .norm batch info := fun u batch info hph => by
    have hk := ((hinv u).inRound (by rw [hph]; nofun)).1
    have hst := hstop (.norm u)
    simp only [innerStep, step, hok, norm, hph, Bool.false_eq_true, if_false, ite_eq_right_iff, reduceCtorEq,
      imp_false] at hst
    refine hst fun v => ?_
    rw [hlen, hlen, hsame v u]
    omega
  have hpost : ∀ u batch ctx offset todo, (S.worker u).phase ≠ .post batch ctx offset todo :=
    fun u batch ctx offset todo hph => by
      have hst := hstop (.post u)
      cases todo <;> simp only [innerStep, step, hok, post, hph, Bool.false_eq_true, if_false, reduceCtorEq] at hst
  -- so every worker is outside, or waits with all its tensors sent
  have hsent : ∀ u p, (S.sent u p).length = (S.entered u).length := fun u p => by
    obtain ⟨-, hk, hs, -⟩ | ⟨hk, hin⟩ := (hinv u).phase
    · rw [hs p, hk]
    · unfold InRound at hin
      split at hin
      · exact hin.elim
      · next hph => exact absurd hph (hnorm u _ _)
      · next hph => exact absurd hph (hpost u _ _ _ _)
      · obtain ⟨e, done, -, -, -, -, -, -, hs⟩ := hin
        rw [hs p, hk]
  cases hph : (S.worker w).phase with
  | run => rfl
  | norm batch info => exact absurd hph (hnorm w _ _)
  | post batch ctx offset todo => exact absurd hph (hpost w _ _ _ _)
  | wait batch ctx offset todo outputs =>
    have hk := ((hinv w).inRound (by rw [hph]; nofun)).1
    have hst := hstop (.wait w)
    cases todo with
    | nil => simp only [innerStep, step, hok, wait, hph, Bool.false_eq_true, if_false, reduceCtorEq] at hst
    | cons p todo =>
      simp only [innerStep, step, hok, wait, hph, Bool.false_eq_true, if_false, ite_eq_right_iff, reduceCtorEq,
        imp_false] at hst
      refine absurd (fun v => ?_) hst
      rw [hsent, hsent, hsame v w]
      omega

end Progress

theorem rounds_complete_two_workers : ∃ S, (machine plain zeros).Reachable S ∧ (∀ a, innerStep plain S a = none) ∧
    (∀ w, (S.entered w).length = 1) ∧ ∀ w, (S.worker w).phase = .run := by
  obtain ⟨S, hS, hent, hok, hph⟩ : ∃ S, LTS.execute (LTS.guarded (step plain) fun _ _ _ => True)
      (State.init plain zeros) oneStep = some S ∧ (∀ w, (S.entered w).length = 1) ∧
      (∀ w, (S.worker w).failed = false) ∧ ∀ w, (S.worker w).phase = .run :=
    ⟨_, rfl, by decide, by decide, fun w => by match w with | 0 => rfl | 1 => rfl⟩
  have hr := (LTS.Reachable.of_execute (.init (M := (machine plain zeros).restrict fun _ _ _ => True) rfl)
    hS).of_restrict
  have hstop : ∀ a, innerStep plain S a = none := fun a => by
    cases a <;> simp [innerStep, step, norm, post, wait, hph, hok]
  exact ⟨S, hr, hstop, hent, (rounds_complete plain zeros S hr).2 hstop hok fun v w => by rw [hent, hent]⟩

end Inca.L4.BatchSync
