import Mathlib.Logic.Function.Basic
import Inca.Core.LTS
import Inca.L4App.Partition

/-!
# Parameter-server keys of tensors (`common/global.cc`, `common/operations.cc`)

Tensors are declared under consecutive numbers (`next_key_`, 32 bits), in any
order and at any time; `InitTensor`, once for each tensor, makes one key for
each of its partitions, counted up from its number shifted by 16 bits. The
comment there speaks of up to `2 ^ 16` partitions per tensor, and nothing
checks it. Calls run under locks: one call is one step. A failed check ends
the process, and a partition bound of 0 leaves the call in its loop: both
are steps without result.

The log of a run keeps the order in which the tensors were first declared and
the size that each was initialised with.

* `inv_reachable`: in every reachable state the keys of a tensor are as many
  consecutive numbers as its size has partitions, from its place in the order
  shifted by 16 bits.
* `keys_disjoint_iff`: the key lists of different tensors are disjoint
  exactly if no tensor has more partitions than there are keys up to the start
  of another one.
* `tensor_keys_counterexample`: a tensor of 65537 pages runs into the next one.
-/
namespace Inca.L4.TensorKeys
open Inca.L4.KeyDraw Inca.L4.Partition

/-! ## The partition bound -/

/-- mirrors byteps/byteps/common/global.h:306-307 -/
def roundUp (x y : Nat) : Nat := (x + y - 1) / y * y

/-- `env` is the number in `BYTEPS_PARTITION_BYTES`, if it is set.
mirrors byteps/byteps/common/global.cc:43, 210-218 -/
def partitionBytes (env : Option Int) (localSize pagesize : Nat) : Nat :=
  roundUp ((env.getD 4096000) % 2 ^ 32).toNat (localSize * pagesize) % 2 ^ 32

/-! ## InitTensor -/

/-- The value of an `int` that was assigned `x`. -/
def toInt32 (x : Nat) : Int := (BitVec.ofNat 32 x).toInt

/-- The blocking pushes: their lengths, and `accumulated` behind the loop.
mirrors byteps/byteps/common/operations.cc:439-483 -/
def pushLens (bound size : Nat) : Option (List Int × Nat) :=
  collect (fun accumulated => accumulated < size) (fun accumulated => toInt32 (chunk bound size accumulated))
    (fun accumulated => ((accumulated + toInt32 (chunk bound size accumulated)) % 2 ^ 64).toNat) size 0

/-- The fields of a context that key assignment uses. -/
structure BPSContext where
  declaredKey : Nat
  keyList : List Nat
  initialized : Bool

/-- mirrors byteps/byteps/common/operations.cc:356-500; `none` is a failed check. -/
def initTensor (bound : Nat) (context : BPSContext) (size : Nat) : Option BPSContext :=
  if context.initialized then some context
  else if size = 0 then none
  else do
    let keys ← keysOf context.declaredKey bound size
    let keyList := context.keyList ++ keys
    if keyList.length ≠ (size + bound - 1) % 2 ^ 64 / bound then none
    else do
      let (lens, accumulated) ← pushLens bound size
      if accumulated = size ∧ lens.length = keyList.length then
        some { context with keyList := keyList, initialized := true }
      else none

/-! ## The system -/

variable {Name : Type} [DecidableEq Name]

structure State (Name : Type) where
  nextKey : Nat
  nameToCxt : Name → Option BPSContext

def State.init : State Name := ⟨0, fun _ => none⟩

inductive Act (Name : Type)
  | declare (name : Name)
  | initTensor (name : Name) (size : Nat)

/-- mirrors byteps/byteps/common/global.cc:598-616 (`IsTensorDeclared`) -/
def isTensorDeclared (s : State Name) (name : Name) : State Name :=
  match s.nameToCxt name with
  | some _ => s
  | none =>
    { nextKey := (s.nextKey + 1) % 2 ^ 32
      nameToCxt := Function.update s.nameToCxt name (some ⟨s.nextKey, [], false⟩) }

/-- A state with the log of the calls that led to it. -/
structure Logged (Name : Type) extends State Name where
  /-- the tensors in the order of their first declarations -/
  order : List Name
  /-- the size of the first `InitTensor` of a tensor that returned -/
  size : Name → Option Nat

/-- A size is a `size_t`. -/
def step (bound : Nat) (s : Logged Name) : Act Name → Option (Logged Name)
  | .declare name => some ⟨isTensorDeclared s.toState name,
      if name ∈ s.order then s.order else s.order ++ [name], s.size⟩
  | .initTensor name size =>
    if size < 2 ^ 64 then do
      let context ← s.nameToCxt name
      let context ← initTensor bound context size
      return { s with
        nameToCxt := Function.update s.nameToCxt name (some context)
        size := Function.update s.size name (some ((s.size name).getD size)) }
    else none

def tensors (Name : Type) [DecidableEq Name] (bound : Nat) : LTS (Logged Name) (Act Name) :=
  .ofFn (· = ⟨State.init, [], fun _ => none⟩) (step bound)

/-! ## The keys of one tensor -/

/-- Where the keys of tensor number `i` start: `next_key_` has 32 bits. -/
def start (i : Nat) : Nat := i % 2 ^ 32 * 2 ^ 16

/-- The keys of tensor number `i` if it has `n` partitions. -/
def keysFrom (i n : Nat) : List Nat := (List.range n).map fun j => (start i + j) % 2 ^ 64

/-- The context of tensor number `i`: as declared, or with the keys for a size. -/
structure Keyed (bound i : Nat) (size : Option Nat) (c : BPSContext) : Prop where
  declaredKey : c.declaredKey = i % 2 ^ 32
  initialized : c.initialized = size.isSome
  keyList : c.keyList = keysFrom i (size.elim 0 (numParts bound))
  pos : ∀ m ∈ size, 0 < numParts bound m

/-- With a bound of 0 the loop over the partitions does not come to an end. -/
theorem keysOf_zero {size : Nat} (hs : size ≠ 0) (declaredKey : Nat) : keysOf declaredKey 0 size = none := by
  rw [keysOf, collect_forever _ _ _ (J := fun s : Nat × Nat => s.1 = 0) ?_ rfl, Option.map_none]
  rintro ⟨accumulated, key⟩ rfl
  have hc : chunk 0 size 0 = 0 := Nat.le_zero.mp (chunk_le 0 size 0)
  refine ⟨Nat.pos_of_ne_zero hs, ?_⟩
  show (0 + chunk 0 size 0) % 2 ^ 64 = 0
  rw [hc, Nat.zero_add, Nat.zero_mod]

/-- What `InitTensor` makes of a context that has no keys yet. -/
theorem initTensor_fresh {bound size : Nat} {c c' : BPSContext} (hc : c.initialized = false)
    (hs : size < 2 ^ 64) (hi : initTensor bound c size = some c') :
    0 < numParts bound size ∧ c' = ⟨c.declaredKey, c.keyList ++ (List.range (numParts bound size)).map fun i =>
      (c.declaredKey * 2 ^ 16 + i) % 2 ^ 64, true⟩ := by
  simp only [initTensor, hc, Bool.false_eq_true, if_false] at hi
  split at hi
  · cases hi
  · rename_i h0
    rcases Nat.eq_zero_or_pos bound with rfl | hb
    · rw [keysOf_zero h0] at hi; cases hi
    · refine ⟨by rw [lt_numParts_iff hb]; omega, ?_⟩
      rw [keysOf_eq hb hs] at hi
      simp only [Option.bind_eq_bind, Option.bind_some] at hi
      split at hi
      · cases hi
      · obtain ⟨⟨lens, accumulated⟩, -, hi⟩ := Option.bind_eq_some_iff.mp hi
        split at hi
        · exact (Option.some.inj hi).symm
        · cases hi

theorem Keyed.initTensor {bound i m : Nat} {size : Option Nat} {c c' : BPSContext} (h : Keyed bound i size c)
    (hm : m < 2 ^ 64) (hi : initTensor bound c m = some c') : Keyed bound i (some (size.getD m)) c' := by
  cases size with
  | some n =>
    have hinit : c.initialized = true := h.initialized
    rw [TensorKeys.initTensor, if_pos hinit] at hi
    cases hi
    exact h
  | none =>
    obtain ⟨hpos, rfl⟩ := initTensor_fresh h.initialized hm hi
    refine ⟨h.declaredKey, rfl, ?_, fun n hn => ?_⟩
    · rw [h.keyList, h.declaredKey]; rfl
    · cases hn; exact hpos

/-! ## Runs -/

/-- Every tensor has the number of its place in the order, and the keys for its size. -/
structure Inv (bound : Nat) (s : Logged Name) : Prop where
  nextKey : s.nextKey = s.order.length % 2 ^ 32
  declared : ∀ name, (s.nameToCxt name).isSome ↔ name ∈ s.order
  undeclared : ∀ name, s.nameToCxt name = none → s.size name = none
  keyed : ∀ name c, s.nameToCxt name = some c → Keyed bound (s.order.idxOf name) (s.size name) c

theorem Inv.declare {bound : Nat} {s s' : Logged Name} (h : Inv bound s) {name : Name}
    (hs : step bound s (.declare name) = some s') : Inv bound s' := by
  cases hs
  unfold TensorKeys.isTensorDeclared
  split
  · next c hc =>
    rw [if_pos ((h.declared name).mp (by rw [hc]; rfl))]
    exact h
  · next hc =>
    have hnew : name ∉ s.order := fun hm => by simpa [hc] using (h.declared name).mpr hm
    rw [if_neg hnew]
    refine ⟨?_, fun other => ?_, fun other ho => ?_, fun other c ho => ?_⟩
    · simp only [h.nextKey, List.length_append, List.length_singleton, Nat.mod_add_mod]
    · by_cases heq : other = name
      · simp [heq]
      · simpa [Function.update_of_ne heq, heq] using h.declared other
    · by_cases heq : other = name
      · simp [heq] at ho
      · exact h.undeclared other (by simpa [Function.update_of_ne heq] using ho)
    · by_cases heq : other = name
      · subst heq
        simp only [Function.update_self, Option.some.injEq] at ho
        subst ho
        rw [List.idxOf_append_of_notMem hnew, h.undeclared _ hc]
        exact ⟨by simp [h.nextKey], rfl, rfl, by simp⟩
      · simp only [Function.update_of_ne heq] at ho
        rw [List.idxOf_append_of_mem ((h.declared other).mp (by rw [ho]; rfl))]
        exact h.keyed other c ho

theorem step_initTensor {bound size : Nat} {s : Logged Name} (name : Name) {c c' : BPSContext}
    (hc : s.nameToCxt name = some c) (hs : size < 2 ^ 64) (hi : initTensor bound c size = some c') :
    step bound s (.initTensor name size) = some { s with
      nameToCxt := Function.update s.nameToCxt name (some c')
      size := Function.update s.size name (some ((s.size name).getD size)) } := by
  simp only [step, if_pos hs, hc, Option.bind_eq_bind, Option.bind_some, hi, Option.pure_def]

theorem Inv.initTensor {bound size : Nat} {s s' : Logged Name} (h : Inv bound s) {name : Name}
    (hs : step bound s (.initTensor name size) = some s') : Inv bound s' := by
  simp only [step] at hs
  split at hs
  · rename_i hsize
    obtain ⟨c, hc, hs⟩ := Option.bind_eq_some_iff.mp hs
    obtain ⟨c', hc', hs⟩ := Option.bind_eq_some_iff.mp hs
    cases hs
    have hname : name ∈ s.order := (h.declared name).mp (by rw [hc]; rfl)
    refine ⟨h.nextKey, fun other => ?_, fun other ho => ?_, fun other d ho => ?_⟩
    · by_cases heq : other = name
      · simp [heq, hname]
      · simpa [Function.update_of_ne heq] using h.declared other
    · by_cases heq : other = name
      · simp [heq] at ho
      · simpa [Function.update_of_ne heq] using h.undeclared other (by simpa [Function.update_of_ne heq] using ho)
    · by_cases heq : other = name
      · subst heq
        simp only [Function.update_self, Option.some.injEq] at ho ⊢
        exact ho ▸ (h.keyed other c hc).initTensor hsize hc'
      · simp only [Function.update_of_ne heq] at ho ⊢
        exact h.keyed other d ho
  · cases hs

/-- **Invariant.** The keys of a tensor are consecutive numbers from its own start on. -/
theorem inv_reachable (bound : Nat) : (tensors Name bound).Inductive (Inv bound) where
  init := by rintro s rfl; exact ⟨rfl, by simp [State.init], fun _ _ => rfl, by simp [State.init]⟩
  step := fun _ a _ h hs => match a with
    | .declare _ => h.declare hs
    | .initTensor _ _ => h.initTensor hs

/-! ## Two tensors -/

theorem mem_keysFrom {i n k : Nat} : k ∈ keysFrom i n ↔ ∃ j < n, k = (start i + j) % 2 ^ 64 := by
  simp only [keysFrom, List.mem_map, List.mem_range, eq_comm]

/-- The keys from the start of tensor number `i` up to the start of tensor number `j`, going on at 0
behind `2 ^ 64 - 1`. -/
def gap (i j : Nat) : Nat := (2 ^ 64 + start j - start i) % 2 ^ 64

theorem start_lt (i : Nat) : start i < 2 ^ 48 := by
  unfold start
  omega

/-- Two runs of consecutive keys meet exactly if one of them reaches the start of the other. -/
theorem keysFrom_disjoint_iff {i j m n : Nat} (hm : 0 < m) (hn : 0 < n) :
    (keysFrom i m).Disjoint (keysFrom j n) ↔ m ≤ gap i j ∧ n ≤ gap j i := by
  have h1 := start_lt i
  have h2 := start_lt j
  unfold gap
  constructor
  · intro hdis
    refine ⟨?_, ?_⟩ <;> by_contra hlt
    · -- key number `gap i j` of the one is the first key of the other
      exact hdis (mem_keysFrom.mpr ⟨_, Nat.lt_of_not_le hlt, rfl⟩) (mem_keysFrom.mpr ⟨0, hn, by omega⟩)
    · exact hdis (mem_keysFrom.mpr ⟨0, hm, rfl⟩) (mem_keysFrom.mpr ⟨_, Nat.lt_of_not_le hlt, by omega⟩)
  · rintro ⟨hcl, hdl⟩ k hkc hkd
    obtain ⟨p, hp, rfl⟩ := mem_keysFrom.mp hkc
    obtain ⟨q, hq, he⟩ := mem_keysFrom.mp hkd
    omega

/-- **Disjoint keys.** For every partition bound that the environment can set, in every state
that declarations and calls of `InitTensor` can reach: the key lists of different tensors are
disjoint if and only if no initialised tensor has more partitions than there are keys from its
start to the start of another initialised one. -/
theorem keys_disjoint_iff (env : Option Int) (localSize pagesize : Nat) {s : Logged Name}
    (h : (tensors Name (partitionBytes env localSize pagesize)).Reachable s) :
    (∀ a b c d, a ≠ b → s.nameToCxt a = some c → s.nameToCxt b = some d →
      c.keyList.Disjoint d.keyList) ↔
    (∀ a b m n, a ≠ b → s.size a = some m → s.size b = some n →
      numParts (partitionBytes env localSize pagesize) m ≤ gap (s.order.idxOf a) (s.order.idxOf b)) := by
  have hinv := (inv_reachable _).reachable s h
  generalize partitionBytes env localSize pagesize = bound at *
  have hcxt : ∀ name m, s.size name = some m → ∃ c, s.nameToCxt name = some c := by
    intro name m hm
    cases hc : s.nameToCxt name with
    | none => rw [hinv.undeclared name hc] at hm; cases hm
    | some c => exact ⟨c, rfl⟩
  constructor
  · intro hdis a b m n hab ha hb
    obtain ⟨c, hc⟩ := hcxt a m ha
    obtain ⟨d, hd⟩ := hcxt b n hb
    have hkc := hinv.keyed a c hc
    have hkd := hinv.keyed b d hd
    have hcd := hdis a b c d hab hc hd
    rw [hkc.keyList, hkd.keyList, ha, hb] at hcd
    exact ((keysFrom_disjoint_iff (hkc.pos m ha) (hkd.pos n hb)).mp hcd).1
  · intro hgap a b c d hab hc hd
    have hkc := hinv.keyed a c hc
    have hkd := hinv.keyed b d hd
    rw [hkc.keyList, hkd.keyList]
    cases ha : s.size a with
    | none => exact List.disjoint_nil_left _
    | some m =>
      cases hb : s.size b with
      | none => exact List.disjoint_nil_right _
      | some n =>
        exact (keysFrom_disjoint_iff (hkc.pos m ha) (hkd.pos n hb)).mpr
          ⟨hgap a b m n hab ha hb, hgap b a n m hab.symm hb ha⟩

/-! ## Two runs -/

theorem toInt32_of_lt {x : Nat} (hx : x < 2 ^ 31) : toInt32 x = x := by
  rw [toInt32, BitVec.toInt_eq_toNat_of_lt]
  · rw [BitVec.toNat_ofNat, Nat.mod_eq_of_lt (by omega)]
  · rw [BitVec.toNat_ofNat, Nat.mod_eq_of_lt (by omega)]; omega

/-- The pushes reach the end of the tensor if the bound is positive as an `int`. -/
theorem pushLens_eq {bound size : Nat} (hb : 0 < bound) (hb' : bound < 2 ^ 31) (hs : size < 2 ^ 64) :
    ∃ lens, pushLens bound size = some (lens, size) ∧ lens.length = numParts bound size := by
  have hint : ∀ acc, toInt32 (chunk bound size acc) = chunk bound size acc := fun acc =>
    toInt32_of_lt (Nat.lt_of_le_of_lt (chunk_le bound size acc) hb')
  have hloop := collect_eq (fun acc => acc < size) (fun acc => toInt32 (chunk bound size acc))
    (fun acc => ((acc + toInt32 (chunk bound size acc)) % 2 ^ 64).toNat) (f := stop bound size)
    (fun i hi => (stop_lt_iff hb).mpr hi) (stop_last hb) (fun i hi => by
      have hlt := Nat.lt_of_le_of_lt (stop_le bound size (i + 1)) hs
      have hnext := stop_succ hb hi
      rw [hint]
      omega)
    (numParts_le hb size)
  have h0 : stop bound size 0 = 0 := by simp [stop]
  rw [h0, stop_end hb] at hloop
  exact ⟨_, hloop, by simp⟩

/-- `InitTensor` on a declared tensor passes all its checks. -/
theorem initTensor_eq {bound size : Nat} (hb : 0 < bound) (hb' : bound < 2 ^ 31) (h0 : 0 < size)
    (hs : size + bound ≤ 2 ^ 64) (declaredKey : Nat) :
    initTensor bound ⟨declaredKey, [], false⟩ size = some ⟨declaredKey,
      (List.range (numParts bound size)).map fun i => (declaredKey * 2 ^ 16 + i) % 2 ^ 64, true⟩ := by
  obtain ⟨lens, hl, hn⟩ := pushLens_eq hb hb' (show size < 2 ^ 64 by omega)
  have hc : numParts bound size = (size + bound - 1) % 2 ^ 64 / bound := by
    rw [numParts, Nat.mod_eq_of_lt (by omega)]
  simp only [initTensor, Bool.false_eq_true, if_false, h0.ne', keysOf_eq hb (show size < 2 ^ 64 by omega),
    Option.bind_eq_bind, Option.bind_some, List.nil_append, List.length_map, List.length_range, ← hc,
    ne_eq, not_true_eq_false, hl, hn, and_self, if_true]

/-- Two tensors, declared in this order and then initialised. -/
def twoTensors (bound size size' : Nat) : Logged Bool where
  nextKey := 2
  nameToCxt name := some ⟨name.toNat, (List.range (numParts bound (if name then size' else size))).map
    fun i => (name.toNat * 2 ^ 16 + i) % 2 ^ 64, true⟩
  order := [false, true]
  size name := some (if name then size' else size)

theorem reachable_twoTensors {bound size size' : Nat} (hb : 0 < bound) (hb' : bound < 2 ^ 31)
    (h0 : 0 < size) (hs : size + bound ≤ 2 ^ 64) (h0' : 0 < size') (hs' : size' + bound ≤ 2 ^ 64) :
    (tensors Bool bound).Reachable (twoTensors bound size size') := by
  have h1 : (tensors Bool bound).Reachable ⟨isTensorDeclared (isTensorDeclared State.init false) true,
      [false, true], fun _ => none⟩ :=
    .step (l := .declare true) (.step (l := .declare false) (.init rfl) rfl) rfl
  have h2 := h1.step (step_initTensor false rfl (by omega) (initTensor_eq hb hb' h0 hs 0))
  have h3 := h2.step (step_initTensor true rfl (by omega) (initTensor_eq hb hb' h0' hs' 1))
  convert h3 using 1
  simp only [twoTensors, isTensorDeclared, State.init, Logged.mk.injEq, State.mk.injEq]
  refine ⟨⟨by simp, funext fun name => ?_⟩, trivial, funext fun name => ?_⟩ <;> cases name <;> rfl

/-- A tensor of 65536 pages and one of a byte, with partitions of a page: the keys just fit. -/
theorem keys_disjoint_pages :
    (tensors Bool (partitionBytes (some 4096) 1 4096)).Reachable
      (twoTensors (partitionBytes (some 4096) 1 4096) (65536 * 4096) 1) ∧
    ∀ a b c d, a ≠ b →
      (twoTensors (partitionBytes (some 4096) 1 4096) (65536 * 4096) 1).nameToCxt a = some c →
      (twoTensors (partitionBytes (some 4096) 1 4096) (65536 * 4096) 1).nameToCxt b = some d →
      c.keyList.Disjoint d.keyList := by
  have hr : (tensors Bool (partitionBytes (some 4096) 1 4096)).Reachable
      (twoTensors (partitionBytes (some 4096) 1 4096) (65536 * 4096) 1) :=
    reachable_twoTensors (by decide) (by decide) (by decide) (by decide) (by decide) (by decide)
  refine ⟨hr, (keys_disjoint_iff (some 4096) 1 4096 hr).mpr ?_⟩
  rintro a b m n hab ⟨⟩ ⟨⟩
  revert a b
  decide

/-- **Counterexample.** With partitions of 4096 bytes, a tensor of 65537 pages takes the keys 0 to
65536, and 65536 is the first key of the tensor declared after it. -/
theorem tensor_keys_counterexample :
    partitionBytes (some 4096) 1 4096 = 4096 ∧
    (tensors Bool 4096).Reachable (twoTensors 4096 (65537 * 4096) 1) ∧
    ∃ c d, (twoTensors 4096 (65537 * 4096) 1).nameToCxt false = some c ∧
      (twoTensors 4096 (65537 * 4096) 1).nameToCxt true = some d ∧ 65536 ∈ c.keyList ∧ 65536 ∈ d.keyList := by
  have h1 : 65536 < numParts 4096 (65537 * 4096) := (lt_numParts_iff (by omega)).mpr (by omega)
  have h2 : 0 < numParts 4096 1 := by decide
  refine ⟨by decide, reachable_twoTensors (by omega) (by omega) (by omega) (by omega) (by omega)
    (by omega), _, _, rfl, rfl, ?_, ?_⟩
  · simp only [List.mem_map, List.mem_range, Bool.false_eq_true, if_false]
    exact ⟨65536, h1, by simp⟩
  · simp only [List.mem_map, List.mem_range, if_true]
    exact ⟨0, h2, by simp⟩

end Inca.L4.TensorKeys
