import Mathlib.Logic.Function.Basic
import Mathlib.Order.Bounds.Basic
import Mathlib.Order.Nat
import Mathlib.Order.MinMax
import Inca.Core.LTS

/-!
# Ready tables: norms and scales on their way into a task

`common/ready_table.cc` keeps, per key, a ready count, a scale and a norm;
each of its operations takes the table's lock for itself. A listener thread
handles one message after another (`common/communicator.cc`,
`RunNonRootCopyListenLoopOnce`): it counts the message first and stores its
value in a later operation. `getTask` (`common/scheduled_queue.cc`) takes a
task whose count is complete, reads the value and clears the entry, again in
separate operations. Here every locked operation is one step.

The four stages that carry a value are one system with parameters: `PUSH`
and `COPYH2D` carry the norm, `CONTEXT_PUSH` and `COPYD2H` the scale; on the
root (`PUSH`, `CONTEXT_PUSH`) the task's own value takes part. `COMPRESS`
shares the table of `PUSH`: its `getTask` clears the entry, and only the count
is restored afterwards.

Norms and scales are floats that are not negative: here any linear order with
a least element `⊥`, which stands for `0.0`.

* `carried_max`: if `getTask` never reads an entry whose last message is
  counted but not stored, and no task of the key goes through `COMPRESS`, a
  task carries the greatest value of its iteration, and nothing is left over.
* `carried_counterexample`: without the first condition the value is lost for
  one iteration and carried by the next.
* `compress_counterexample`: without the second one it is lost.
-/
namespace Inca.L2.ReadyTable

/-! ## The table -/

inductive Field where
  | scale | norm
  deriving DecidableEq, Repr

section Table
variable {α : Type} [LinearOrder α]

/-- mirrors byteps/byteps/common/ready_table.h:46-57 -/
structure Table (α : Type) where
  ready : Nat → Nat
  scale : Nat → α
  norm : Nat → α

def Table.value (t : Table α) : Field → Nat → α
  | .scale => t.scale
  | .norm => t.norm

/-- mirrors byteps/byteps/common/ready_table.cc:24-27 -/
def Table.isKeyReady (readyCount : Nat) (t : Table α) (key : Nat) : Bool := t.ready key = readyCount

/-- `none`: `BPS_CHECK_LT` fails.
mirrors byteps/byteps/common/ready_table.cc:29-34 -/
def Table.addReadyCount (readyCount : Nat) (t : Table α) (key : Nat) : Option (Table α) :=
  if t.ready key < readyCount then
    some { t with ready := Function.update t.ready key (t.ready key + 1) }
  else none

/-- mirrors byteps/byteps/common/ready_table.cc:36-39 -/
def Table.setReadyCount (t : Table α) (key cnt : Nat) : Table α :=
  { t with ready := Function.update t.ready key cnt }

/-- mirrors byteps/byteps/common/ready_table.cc:41-47 -/
def Table.clearReadyCount [OrderBot α] (t : Table α) (key : Nat) : Table α where
  ready := Function.update t.ready key 0
  scale := Function.update t.scale key ⊥
  norm := Function.update t.norm key ⊥

/-- What `SetKeyScale` and `SetKeyNorm` do to their map: only raise the entry. -/
def raiseAt (g : Nat → α) (key : Nat) (v : α) : Nat → α :=
  if g key < v then Function.update g key v else g

/-- mirrors byteps/byteps/common/ready_table.cc:50-53 -/
def Table.getKeyScale (t : Table α) (key : Nat) : α := t.scale key

/-- mirrors byteps/byteps/common/ready_table.cc:55-58 -/
def Table.setKeyScale (t : Table α) (key : Nat) (scale : α) : Table α :=
  { t with scale := raiseAt t.scale key scale }

/-- mirrors byteps/byteps/common/ready_table.cc:60-63 -/
def Table.getKeyNorm (t : Table α) (key : Nat) : α := t.norm key

/-- mirrors byteps/byteps/common/ready_table.cc:65-68 -/
def Table.setKeyNorm (t : Table α) (key : Nat) (maxNorm : α) : Table α :=
  { t with norm := raiseAt t.norm key maxNorm }

/-- `GetKeyScale` or `GetKeyNorm`. -/
def Table.getKey (t : Table α) : Field → Nat → α
  | .scale => t.getKeyScale
  | .norm => t.getKeyNorm

/-- `SetKeyScale` or `SetKeyNorm`. -/
def Table.setKey (t : Table α) : Field → Nat → α → Table α
  | .scale => t.setKeyScale
  | .norm => t.setKeyNorm

theorem raiseAt_apply (g : Nat → α) (key : Nat) (v : α) (k : Nat) :
    raiseAt g key v k = if k = key then max v (g k) else g k := by
  unfold raiseAt
  by_cases hk : k = key
  · subst hk
    split
    · next h => simp [max_eq_left h.le]
    · next h => simp [max_eq_right (not_lt.mp h)]
  · split <;> simp [hk]

omit [LinearOrder α] in
@[simp] theorem getKey_eq (t : Table α) (f : Field) : t.getKey f = t.value f := by
  cases f <;> rfl

omit [LinearOrder α] in
@[simp] theorem value_setReady (t : Table α) (ready : Nat → Nat) :
    { t with ready := ready }.value = t.value := by
  funext f; cases f <;> rfl

@[simp] theorem setKey_ready (t : Table α) (f : Field) (key : Nat) (v : α) :
    (t.setKey f key v).ready = t.ready := by
  cases f <;> rfl

theorem setKey_value (t : Table α) (f g : Field) (key k : Nat) (v : α) :
    (t.setKey f key v).value g k = if g = f ∧ k = key then max v (t.value f key) else t.value g k := by
  have h := raiseAt_apply (t.value f) key v k
  cases f <;> cases g <;> simp_all [Table.setKey, Table.setKeyScale, Table.setKeyNorm, Table.value]

@[simp] theorem clearReadyCount_value [OrderBot α] (t : Table α) (f : Field) (key : Nat) :
    (t.clearReadyCount key).value f = Function.update (t.value f) key ⊥ := by
  cases f <;> rfl

end Table

/-! ## Stages, messages and handlers -/

inductive Stage where
  | push | contextPush | copyH2D | copyD2H
  deriving DecidableEq, Repr

/-- The field of the table that the stage's task takes over.
mirrors byteps/byteps/common/scheduled_queue.cc:160-174 -/
def Stage.field : Stage → Field
  | .push | .copyH2D => .norm
  | .contextPush | .copyD2H => .scale

/-- The root's stages compare with the task's own value, the others overwrite it. -/
def Stage.takesOwn : Stage → Bool
  | .push | .contextPush => true
  | .copyH2D | .copyD2H => false

/-- mirrors byteps/byteps/common/global.cc:321-322,357-358 -/
def Stage.readyCount (localSize : Nat) : Stage → Nat
  | .push | .contextPush => localSize - 1
  | .copyH2D | .copyD2H => 1

/-- `BytePSCommMsg`: the signal is the stage, `src` is not read.
mirrors byteps/byteps/common/communicator.h:56-63 -/
structure Msg (α : Type) where
  key : Nat
  scale : α
  norm : α
  deriving DecidableEq, Repr

def Msg.value {α : Type} (m : Msg α) : Field → α
  | .scale => m.scale
  | .norm => m.norm

/-- The locked operations of a handler: `raise` is a `Set` under the handler's own
comparison with the value it read before, `set` one without. -/
inductive Op where
  | add
  | get (f : Field)
  | raise (f : Field)
  | set (f : Field)
  deriving DecidableEq, Repr

/-- What a message of the stage makes its listener do.
mirrors byteps/byteps/common/communicator.cc:197-214 (`PUSH_READY`, `CONTEXT_PUSH_READY`) and
byteps/byteps/common/core_loops.cc:1320-1331 (`DO_COPYD2H`, `DO_COPYH2D`) -/
def handlerOps : Stage → List Op
  | .push => [.add, .get .scale, .get .norm, .raise .scale, .raise .norm]
  | .contextPush => [.add, .get .scale, .raise .scale]
  | .copyD2H => [.add, .set .scale]
  | .copyH2D => [.add, .set .norm]

/-- The listener: its message, what it still has to do for it, and the values it has read. -/
structure Handler (α : Type) where
  msg : Msg α
  ops : List Op
  reg : Field → α

/-- Where `getTask` is: `ready` after `IsKeyReady`, `got` after it has set the task's value. -/
inductive Getter (α : Type) where
  | idle
  | ready (key : Nat) (own : α)
  | got (key : Nat) (own value : α)
  deriving DecidableEq

/-- A task that has left its queue, with the messages counted for it. -/
structure Release (α : Type) where
  key : Nat
  own : α
  value : α
  counted : List (Msg α)
  deriving DecidableEq

/-- `counted key`: the messages counted since a task of the key last left the stage, the
newest first. `compressor`, `compressed`: the key `getTask` of `COMPRESS` is about to clear,
and the keys it has cleared whose count is still to be restored. -/
structure State (α : Type) where
  table : Table α
  handler : Handler α
  getter : Getter α
  compressor : Option Nat
  compressed : List Nat
  counted : Nat → List (Msg α)
  left : List (Release α)

inductive Label (α : Type) where
  | recv (m : Msg α)
  | handle
  | check (key : Nat) (own : α)
  | read
  | clear
  | compressCheck (key : Nat)
  | compressClear
  | reset (key : Nat)
  deriving DecidableEq

section System
variable {α : Type} [LinearOrder α] [OrderBot α]

def init : State α where
  table := ⟨fun _ => 0, fun _ => ⊥, fun _ => ⊥⟩
  handler := ⟨⟨0, ⊥, ⊥⟩, [], fun _ => ⊥⟩
  getter := .idle
  compressor := none
  compressed := []
  counted := fun _ => []
  left := []

/-- One locked operation of the listener: the table and the values read, after it. -/
def execOp (readyCount : Nat) (t : Table α) (h : Handler α) : Op → Option (Table α × (Field → α))
  | .add => (t.addReadyCount readyCount h.msg.key).map fun t' => (t', h.reg)
  | .get f => some (t, Function.update h.reg f (t.getKey f h.msg.key))
  | .raise f =>
    if h.msg.value f ≠ ⊥ ∧ h.reg f < h.msg.value f then
      some (t.setKey f h.msg.key (h.msg.value f), h.reg)
    else some (t, h.reg)
  | .set f => some (t.setKey f h.msg.key (h.msg.value f), h.reg)

/-- The value of a task when `getTask` finds `v` in the table.
mirrors byteps/byteps/common/scheduled_queue.cc:160-174 -/
def Stage.take (stage : Stage) (own v : α) : α := if stage.takesOwn then max own v else v

/-- One locked operation of the listener, of `getTask` of the stage, or of `COMPRESS`. A
check that fails makes `getTask` go on with the next task.
mirrors byteps/byteps/common/scheduled_queue.cc:151-176,236-241 and
byteps/byteps/common/core_loops.cc:925-960 -/
def step (stage : Stage) (readyCount : Nat) (s : State α) : Label α → Option (State α)
  | .recv m =>
    if s.handler.ops = [] then some { s with handler := ⟨m, handlerOps stage, fun _ => ⊥⟩ } else none
  | .handle =>
    match s.handler.ops with
    | [] => none
    | op :: rest => (execOp readyCount s.table s.handler op).map fun (t, reg) =>
      { s with
        table := t
        handler := { s.handler with ops := rest, reg := reg }
        counted := if op = .add then
            Function.update s.counted s.handler.msg.key (s.handler.msg :: s.counted s.handler.msg.key)
          else s.counted }
  | .check key own =>
    match s.getter with
    | .idle => some (if s.table.isKeyReady readyCount key then { s with getter := .ready key own } else s)
    | _ => none
  | .read =>
    match s.getter with
    | .ready key own =>
      some { s with getter := .got key own (stage.take own (s.table.getKey stage.field key)) }
    | _ => none
  | .clear =>
    match s.getter with
    | .got key own value => some { s with
        table := s.table.clearReadyCount key
        getter := .idle
        counted := Function.update s.counted key []
        left := s.left ++ [⟨key, own, value, s.counted key⟩] }
    | _ => none
  | .compressCheck key =>
    if stage = .push ∧ s.compressor = none then
      some (if s.table.isKeyReady readyCount key then { s with compressor := some key } else s)
    else none
  | .compressClear => s.compressor.map fun key =>
      { s with table := s.table.clearReadyCount key, compressor := none, compressed := key :: s.compressed }
  | .reset key =>
    if key ∈ s.compressed then
      some { s with table := s.table.setReadyCount key readyCount, compressed := s.compressed.erase key }
    else none

def tables (α : Type) [LinearOrder α] [OrderBot α] (stage : Stage) (localSize : Nat) :
    LTS (State α) (Label α) :=
  LTS.ofFn (· = init) (step stage (stage.readyCount localSize))

/-! ## The condition -/

/-- The listener has counted its message and has the value still to store. -/
def Handler.Lags (stage : Stage) (h : Handler α) (key : Nat) : Prop :=
  h.msg.key = key ∧ .add ∉ h.ops ∧ (.raise stage.field ∈ h.ops ∨ .set stage.field ∈ h.ops)

instance (stage : Stage) (h : Handler α) (key : Nat) : Decidable (h.Lags stage key) :=
  inferInstanceAs (Decidable (_ ∧ _ ∧ (_ ∨ _)))

/-- The key of the entry that `getTask` is about to read. -/
def Getter.readsKey : Getter α → Option Nat
  | .ready key _ => some key
  | _ => none

def Label.compresses : Label α → Bool
  | .compressCheck _ => true
  | _ => false

/-- `getTask` does not read an entry whose last message is counted but not stored, and no
task goes through `COMPRESS`. -/
def Settled (stage : Stage) (s : State α) (l : Label α) (_ : State α) : Prop :=
  (l = .read → ∀ key ∈ s.getter.readsKey, ¬ s.handler.Lags stage key) ∧ l.compresses = false

instance (stage : Stage) (s : State α) (l : Label α) (s' : State α) : Decidable (Settled stage s l s') :=
  inferInstanceAs (Decidable ((_ → _) ∧ _))

/-! ## What the table holds -/

/-- The greatest value of the messages. -/
def top (stage : Stage) (l : List (Msg α)) : α := l.foldr (fun m v => max (m.value stage.field) v) ⊥

/-- The counted messages whose value is in the table. -/
def stored (stage : Stage) (s : State α) (key : Nat) : List (Msg α) :=
  if s.handler.Lags stage key then (s.counted key).tail else s.counted key

/-- What `getTask` knows where it is. -/
def GetterOk (stage : Stage) (readyCount : Nat) (s : State α) : Prop :=
  match s.getter with
  | .idle => True
  | .ready key _ => s.table.ready key = readyCount
  | .got key own value => s.table.ready key = readyCount ∧ ¬ s.handler.Lags stage key ∧
      value = stage.take own (top stage (s.counted key))

structure Inv (stage : Stage) (readyCount : Nat) (s : State α) : Prop where
  ops : s.handler.ops <:+ handlerOps stage
  compress : s.compressor = none ∧ s.compressed = []
  count : ∀ key, s.table.ready key = (s.counted key).length
  newest : ∀ key, s.handler.Lags stage key → ∃ l, s.counted key = s.handler.msg :: l
  value : ∀ key, s.table.value stage.field key = top stage (stored stage s key)
  reg : ∀ key, s.handler.Lags stage key → .raise stage.field ∈ s.handler.ops →
    .get stage.field ∉ s.handler.ops → s.handler.reg stage.field = s.table.value stage.field key
  getter : GetterOk stage readyCount s
  left : ∀ r ∈ s.left, r.counted.length = readyCount ∧ r.value = stage.take r.own (top stage r.counted)

/-- Where the operation stands in its handler: after a message is counted its value is still
to be stored, a value is read before it is compared, and it is stored last. -/
theorem handlerOps_cases {stage : Stage} {op : Op} {rest : List Op} (h : op :: rest <:+ handlerOps stage) :
    (op = .add ∧ .add ∉ rest ∧
      (.raise stage.field ∈ rest ∧ .get stage.field ∈ rest ∨
        .set stage.field ∈ rest ∧ .raise stage.field ∉ rest)) ∨
    (∃ f, op = .get f ∧ .add ∉ rest ∧ .raise stage.field ∈ rest) ∨
    (∃ f, op = .raise f ∧ f ≠ stage.field ∧ .add ∉ rest ∧ .raise stage.field ∈ rest ∧
      .get stage.field ∉ rest) ∨
    (op = .raise stage.field ∨ op = .set stage.field) ∧ rest = [] := by
  cases stage
  all_goals
    simp only [handlerOps, List.suffix_cons_iff, List.cons.injEq, List.suffix_nil, Stage.field] at h ⊢
    grind

theorem top_cons (stage : Stage) (m : Msg α) (l : List (Msg α)) :
    top stage (m :: l) = max (m.value stage.field) (top stage l) := rfl

theorem le_top {stage : Stage} {m : Msg α} {l : List (Msg α)} (h : m ∈ l) :
    m.value stage.field ≤ top stage l := by
  induction l with
  | nil => cases h
  | cons a l ih =>
    rw [top_cons]
    rcases List.mem_cons.mp h with rfl | h
    · exact le_max_left _ _
    · exact (ih h).trans (le_max_right _ _)

theorem top_mem {stage : Stage} {l : List (Msg α)} (h : l ≠ []) :
    ∃ m ∈ l, m.value stage.field = top stage l := by
  induction l with
  | nil => exact absurd rfl h
  | cons a l ih =>
    rw [top_cons]
    by_cases hl : l = []
    · exact ⟨a, by simp, by simp [hl, top]⟩
    · obtain ⟨m, hm, he⟩ := ih hl
      rcases max_choice (a.value stage.field) (top stage l) with h1 | h1
      · exact ⟨a, by simp, h1.symm⟩
      · exact ⟨m, by simp [hm], by rw [h1, he]⟩

/-! ## Steps -/

variable {stage : Stage} {n : Nat} {s s' : State α}

/-- `getTask` is at a full entry: a step that touches no full entry leaves it alone. -/
theorem GetterOk.frame (hg : GetterOk stage n s) (hget : s'.getter = s.getter)
    (hsame : ∀ key, s.table.ready key = n →
      s'.table.ready key = s.table.ready key ∧ s'.counted key = s.counted key)
    (hlag : ∀ key, s.table.ready key = n → s'.handler.Lags stage key → s.handler.Lags stage key) :
    GetterOk stage n s' := by
  unfold GetterOk at hg ⊢
  rw [hget]
  cases h : s.getter with
  | idle => trivial
  | ready key own =>
    simp only [h] at hg ⊢
    rw [(hsame key hg).1]; exact hg
  | got key own v =>
    simp only [h] at hg ⊢
    obtain ⟨hn, hno, hv⟩ := hg
    rw [(hsame key hn).1, (hsame key hn).2]
    exact ⟨hn, fun hl => hno (hlag key hn hl), hv⟩

omit [LinearOrder α] [OrderBot α] in
theorem not_lags_nil {stage : Stage} {h : Handler α} (hops : h.ops = []) (key : Nat) :
    ¬ h.Lags stage key := by
  rintro ⟨-, -, h1 | h1⟩ <;> simp [hops] at h1

omit [LinearOrder α] [OrderBot α] in
theorem not_lags_handlerOps (stage : Stage) (m : Msg α) (reg : Field → α) (key : Nat) :
    ¬ Handler.Lags stage ⟨m, handlerOps stage, reg⟩ key := by
  rintro ⟨-, h1, -⟩
  cases stage <;> simp [handlerOps] at h1

theorem inv_init : Inv stage n (init : State α) := by
  have hno : ∀ key, ¬ (init : State α).handler.Lags stage key := not_lags_nil rfl
  refine ⟨List.nil_suffix, ⟨rfl, rfl⟩, fun _ => rfl, fun key h => absurd h (hno key), ?_,
    fun key h => absurd h (hno key), trivial, by simp [init]⟩
  intro key
  rw [stored, if_neg (hno key)]
  cases stage <;> rfl

theorem inv_recv (hi : Inv stage n s) (hops : s.handler.ops = []) (m : Msg α) :
    Inv stage n { s with handler := ⟨m, handlerOps stage, fun _ => ⊥⟩ } := by
  have hno : ∀ key, ¬ s.handler.Lags stage key := not_lags_nil hops
  have hno' := not_lags_handlerOps stage m fun _ => ⊥
  refine ⟨List.suffix_refl _, hi.compress, hi.count, fun key h => absurd h (hno' key), ?_,
    fun key h => absurd h (hno' key), ?_, hi.left⟩
  · intro key
    rw [stored, if_neg (hno' key), hi.value, stored, if_neg (hno key)]
  · exact hi.getter.frame rfl (fun _ _ => ⟨rfl, rfl⟩) fun key _ h => absurd h (hno' key)

/-- A message is counted: the entry is one behind until its value is stored. -/
theorem inv_add (hi : Inv stage n s) {rest : List Op} (hops : s.handler.ops = .add :: rest)
    (hadd : .add ∉ rest) (hset : .raise stage.field ∈ rest ∧ .get stage.field ∈ rest ∨
      .set stage.field ∈ rest ∧ .raise stage.field ∉ rest)
    (hlt : s.table.ready s.handler.msg.key < n) :
    Inv stage n { s with
      table := { s.table with
        ready := Function.update s.table.ready s.handler.msg.key (s.table.ready s.handler.msg.key + 1) }
      handler := { s.handler with ops := rest }
      counted := Function.update s.counted s.handler.msg.key
        (s.handler.msg :: s.counted s.handler.msg.key) } := by
  have hno : ∀ key, ¬ s.handler.Lags stage key := fun key h => h.2.1 (by simp [hops])
  have hlags : ∀ key, Handler.Lags stage { s.handler with ops := rest } key ↔ s.handler.msg.key = key :=
    fun key => ⟨fun h => h.1, fun h => ⟨h, hadd, hset.imp And.left And.left⟩⟩
  refine ⟨?_, hi.compress, ?_, ?_, ?_, ?_, ?_, hi.left⟩
  · exact (List.suffix_cons _ _).trans (hops ▸ hi.ops)
  · intro key
    by_cases hk : key = s.handler.msg.key
    · subst hk; simp [hi.count]
    · simp [hk, hi.count]
  · intro key h
    obtain rfl := (hlags key).mp h
    exact ⟨_, Function.update_self ..⟩
  · intro key
    have hv : s.table.value stage.field key = top stage (s.counted key) := by
      rw [hi.value, stored, if_neg (hno key)]
    unfold stored
    by_cases hk : key = s.handler.msg.key
    · subst hk
      rw [if_pos ((hlags _).mpr rfl)]
      simpa using hv
    · rw [if_neg fun h => hk ((hlags _).mp h).symm]
      simpa [hk] using hv
  · intro key _ hraise hget
    exact (hset.elim (fun h => hget h.2) fun h => h.2 hraise).elim
  · -- the entry `getTask` is at is full, so the message is of another key
    have hne : ∀ key, s.table.ready key = n → key ≠ s.handler.msg.key := by
      rintro key hn rfl; omega
    refine hi.getter.frame rfl (fun key hn => ?_) fun key hn h => absurd ((hlags key).mp h).symm (hne key hn)
    simp [hne key hn]

/-- An operation that stores nothing in the stage's field, before the value is stored. -/
theorem inv_keep (hi : Inv stage n s) {op : Op} {rest : List Op} (hops : s.handler.ops = op :: rest)
    (hop : op ≠ .add) (hadd : .add ∉ rest) (hraise : .raise stage.field ∈ rest) {t : Table α}
    (hready : t.ready = s.table.ready) (hvalue : t.value stage.field = s.table.value stage.field)
    {reg : Field → α}
    (hreg : .get stage.field ∉ rest → reg stage.field = s.table.value stage.field s.handler.msg.key) :
    Inv stage n { s with table := t, handler := { s.handler with ops := rest, reg := reg } } := by
  have hlags : ∀ key, Handler.Lags stage { s.handler with ops := rest, reg := reg } key ↔
      s.handler.Lags stage key := by
    intro key
    unfold Handler.Lags
    simp [hops, hop.symm, hadd, hraise]
  refine ⟨?_, hi.compress, ?_, ?_, ?_, ?_, ?_, hi.left⟩
  · exact (List.suffix_cons _ _).trans (hops ▸ hi.ops)
  · intro key; rw [hready]; exact hi.count key
  · intro key h; exact hi.newest key ((hlags key).mp h)
  · intro key
    simp only [hvalue, hi.value, stored, hlags]
  · intro key h _ hget
    obtain ⟨rfl, -⟩ := h
    rw [hvalue]; exact hreg hget
  · refine hi.getter.frame rfl (fun key _ => ?_) fun key _ h => (hlags key).mp h
    rw [hready]; exact ⟨rfl, rfl⟩

/-- The value is stored: the entry has caught up. -/
theorem inv_store (hi : Inv stage n s) {op : Op} (hops : s.handler.ops = [op])
    (hop : op = .raise stage.field ∨ op = .set stage.field) {t : Table α}
    (hready : t.ready = s.table.ready)
    (hvalue : ∀ key, t.value stage.field key = if key = s.handler.msg.key then
      max (s.handler.msg.value stage.field) (s.table.value stage.field key)
      else s.table.value stage.field key) (reg : Field → α) :
    Inv stage n { s with table := t, handler := { s.handler with ops := [], reg := reg } } := by
  have hno : ∀ key, ¬ Handler.Lags stage { s.handler with ops := [], reg := reg } key := not_lags_nil rfl
  have hlags : ∀ key, s.handler.Lags stage key ↔ s.handler.msg.key = key := by
    intro key
    unfold Handler.Lags
    rcases hop with rfl | rfl <;> simp [hops]
  refine ⟨List.nil_suffix, hi.compress, ?_, fun key h => absurd h (hno key), ?_,
    fun key h => absurd h (hno key), ?_, hi.left⟩
  · intro key; rw [hready]; exact hi.count key
  · intro key
    rw [stored, if_neg (hno key), hvalue, hi.value, stored]
    by_cases hk : key = s.handler.msg.key
    · obtain ⟨l, hl⟩ := hi.newest key ((hlags key).mpr hk.symm)
      rw [if_pos hk, if_pos ((hlags key).mpr hk.symm), hl, top_cons, List.tail_cons]
    · rw [if_neg hk, if_neg fun h => hk ((hlags key).mp h).symm]
  · refine hi.getter.frame rfl (fun key _ => ?_) fun key _ h => absurd h (hno key)
    rw [hready]; exact ⟨rfl, rfl⟩

/-- The last operation stores the value, or leaves an entry that is as high. -/
theorem inv_last (hi : Inv stage n s) {op : Op} (hops : s.handler.ops = [op])
    (hop : op = .raise stage.field ∨ op = .set stage.field) {t : Table α} {reg : Field → α}
    (hex : execOp n s.table s.handler op = some (t, reg)) :
    Inv stage n { s with table := t, handler := { s.handler with ops := [], reg := reg } } := by
  have hset : ∀ key, (s.table.setKey stage.field s.handler.msg.key
      (s.handler.msg.value stage.field)).value stage.field key = if key = s.handler.msg.key then
      max (s.handler.msg.value stage.field) (s.table.value stage.field key)
      else s.table.value stage.field key := by
    intro key; rw [setKey_value]; split <;> simp_all
  rcases hop with rfl | rfl
  · simp only [execOp] at hex
    split at hex
    all_goals
      obtain ⟨rfl, rfl⟩ := Prod.mk.inj (Option.some.inj hex)
    · exact inv_store hi hops (.inl rfl) (by simp) hset _
    · next hc =>
      -- a comparison that fails leaves the entry as high as the message's value
      have hle : s.handler.msg.value stage.field ≤ s.table.value stage.field s.handler.msg.key := by
        rw [← hi.reg _ (by simp [Handler.Lags, hops]) (by simp [hops]) (by simp [hops])]
        by_cases hz : s.handler.msg.value stage.field = ⊥
        · rw [hz]; exact bot_le
        · exact not_lt.mp fun h => hc ⟨hz, h⟩
      refine inv_store hi hops (.inl rfl) rfl (fun key => ?_) _
      split
      · next hk => rw [hk, max_eq_right hle]
      · rfl
  · obtain ⟨rfl, rfl⟩ := Prod.mk.inj (Option.some.inj hex)
    exact inv_store hi hops (.inr rfl) (by simp) hset _

theorem inv_handle (hi : Inv stage n s) (hs : step stage n s .handle = some s') : Inv stage n s' := by
  cases hops : s.handler.ops with
  | nil => simp [step, hops] at hs
  | cons op rest =>
    simp only [step, hops, Option.map_eq_some_iff, Prod.exists] at hs
    obtain ⟨t, reg, hex, rfl⟩ := hs
    rcases handlerOps_cases (hops ▸ hi.ops) with ⟨rfl, hadd, hset⟩ | ⟨f, rfl, hadd, hraise⟩ |
      ⟨f, rfl, hf, hadd, hraise, hget⟩ | ⟨hop, rfl⟩
    · simp only [execOp, Table.addReadyCount, Option.map_eq_some_iff, Prod.mk.injEq,
        Option.ite_none_right_eq_some, Option.some.injEq] at hex
      obtain ⟨_, ⟨hlt, rfl⟩, rfl, rfl⟩ := hex
      simpa using inv_add hi hops hadd hset hlt
    · simp only [execOp, Option.some.injEq, Prod.mk.injEq, getKey_eq] at hex
      obtain ⟨rfl, rfl⟩ := hex
      refine inv_keep hi hops (by simp) hadd hraise rfl rfl fun hget => ?_
      by_cases hf : stage.field = f
      · subst hf; simp
      · rw [Function.update_of_ne hf]
        exact hi.reg _ ⟨rfl, by simp [hops, hadd], .inl (by simp [hops, hraise])⟩ (by simp [hops, hraise])
          (by simp [hops, hf, hget])
    · have hreg := hi.reg _ ⟨rfl, by simp [hops, hadd], .inl (by simp [hops, hraise])⟩
        (by simp [hops, hraise]) (by simp [hops, hget])
      have hother : (s.table.setKey f s.handler.msg.key (s.handler.msg.value f)).value stage.field =
          s.table.value stage.field := by
        funext key; rw [setKey_value, if_neg fun h => hf h.1.symm]
      simp only [execOp] at hex
      split at hex
      all_goals
        obtain ⟨rfl, rfl⟩ := Prod.mk.inj (Option.some.inj hex)
      · exact inv_keep hi hops (by simp) hadd hraise (by simp) hother fun _ => hreg
      · exact inv_keep hi hops (by simp) hadd hraise rfl rfl fun _ => hreg
    · have hne : op ≠ .add := by rcases hop with rfl | rfl <;> simp
      simpa only [if_neg hne] using inv_last hi hops hop hex

theorem inv_clear (hi : Inv stage n s) {key : Nat} {own v : α} (hget : s.getter = .got key own v) :
    Inv stage n { s with
      table := s.table.clearReadyCount key
      getter := .idle
      counted := Function.update s.counted key []
      left := s.left ++ [⟨key, own, v, s.counted key⟩] } := by
  have hg := hi.getter
  simp only [GetterOk, hget] at hg
  obtain ⟨hn, hno, hv⟩ := hg
  have hne : ∀ k, s.handler.Lags stage k → k ≠ key := by rintro k hk rfl; exact hno hk
  refine ⟨hi.ops, hi.compress, ?_, ?_, ?_, ?_, trivial, ?_⟩
  · intro k
    by_cases hk : k = key
    · subst hk; simp [Table.clearReadyCount]
    · simpa [Table.clearReadyCount, hk] using hi.count k
  · intro k h
    simpa [hne k h] using hi.newest k h
  · intro k
    by_cases hk : k = key
    · subst hk; simp [stored, hno, top]
    · simpa [stored, hk] using hi.value k
  · intro k h hraise hgetop
    simpa [hne k h] using hi.reg k h hraise hgetop
  · intro r hr
    rcases List.mem_append.mp hr with hr | hr
    · exact hi.left r hr
    · obtain rfl := List.mem_singleton.mp hr
      exact ⟨(hi.count key).symm.trans hn, hv⟩

theorem inv_step (hi : Inv stage n s) {l : Label α} (hs : step stage n s l = some s')
    (hG : Settled stage s l s') : Inv stage n s' := by
  cases l with
  | recv m =>
    simp only [step, Option.ite_none_right_eq_some, Option.some.injEq] at hs
    obtain ⟨hops, rfl⟩ := hs
    exact inv_recv hi hops m
  | handle => exact inv_handle hi hs
  | check key own =>
    simp only [step] at hs
    split at hs
    · obtain rfl := Option.some.inj hs
      split
      · next h => exact { hi with getter := by simpa [GetterOk, Table.isKeyReady] using h }
      · exact hi
    · cases hs
  | read =>
    simp only [step] at hs
    split at hs
    · next key own hget =>
      obtain rfl := Option.some.inj hs
      have hno : ¬ s.handler.Lags stage key := hG.1 rfl key (by rw [hget]; rfl)
      have hn := hi.getter
      simp only [GetterOk, hget] at hn
      refine { hi with getter := ⟨hn, hno, ?_⟩ }
      rw [getKey_eq, hi.value, stored, if_neg hno]
    · cases hs
  | clear =>
    simp only [step] at hs
    split at hs
    · next hget =>
      obtain rfl := Option.some.inj hs
      exact inv_clear hi hget
    · cases hs
  | compressCheck key => exact absurd hG.2 (by simp [Label.compresses])
  | compressClear => simp [step, hi.compress.1] at hs
  | reset key => simp [step, hi.compress.2] at hs

theorem inv_inductive (stage : Stage) (localSize : Nat) :
    ((tables α stage localSize).restrict (Settled stage)).Inductive
      (Inv stage (stage.readyCount localSize)) where
  init := by rintro s rfl; exact inv_init
  step := by
    intro s l s' hi hs
    exact inv_step hi hs.1 hs.2

/-! ## What a task carries -/

/-- The values a task should be the maximum of. -/
def Release.values (stage : Stage) (r : Release α) : Set α :=
  {v | (stage.takesOwn = true ∧ v = r.own) ∨ ∃ m ∈ r.counted, m.value stage.field = v}

theorem take_isGreatest (r : Release α) (hn : stage.takesOwn = true ∨ r.counted ≠ []) :
    IsGreatest (r.values stage) (stage.take r.own (top stage r.counted)) := by
  unfold Stage.take
  by_cases ho : stage.takesOwn = true
  · rw [if_pos ho]
    constructor
    · rcases max_choice r.own (top stage r.counted) with h | h
      · exact .inl ⟨ho, h⟩
      · by_cases hc : r.counted = []
        · exact .inl ⟨ho, by rw [hc]; exact max_eq_left bot_le⟩
        · rw [h]; exact .inr (top_mem hc)
    · rintro v (⟨-, rfl⟩ | ⟨m, hm, rfl⟩)
      · exact le_max_left _ _
      · exact (le_top hm).trans (le_max_right _ _)
  · rw [if_neg ho]
    constructor
    · exact .inr (top_mem (hn.resolve_left ho))
    · rintro v (⟨h, -⟩ | ⟨m, hm, rfl⟩)
      · exact absurd h ho
      · exact le_top hm

/-- **Carried values.** If `getTask` reads no entry whose last message is counted but not
stored, and nothing goes through `COMPRESS`: a task leaves with the greatest value of the
messages counted for it (and of its own, on the root), and an entry for which no message of the
iteration is counted yet holds nothing. -/
theorem carried_max (stage : Stage) (localSize : Nat) (s : State α)
    (h : ((tables α stage localSize).restrict (Settled stage)).Reachable s) :
    (∀ r ∈ s.left, r.counted.length = stage.readyCount localSize ∧
      IsGreatest (r.values stage) r.value) ∧
    ∀ key, s.counted key = [] → s.table.value stage.field key = ⊥ := by
  have hi := (inv_inductive stage localSize).reachable s h
  constructor
  · intro r hr
    obtain ⟨hlen, hv⟩ := hi.left r hr
    refine ⟨hlen, hv ▸ take_isGreatest r ?_⟩
    -- the stages without a value of their own wait for one message
    cases stage
    case push | contextPush => exact .inl rfl
    case copyH2D | copyD2H => exact .inr fun hc => by simp [hc, Stage.readyCount] at hlen
  · intro key hc
    rw [hi.value, stored, hc]
    split <;> rfl

end System

/-- Two iterations of two local ranks: the second has smaller values than the first. -/
theorem carried_max_two_iterations :
    ∃ s, ((tables Nat .contextPush 2).restrict (Settled .contextPush)).Reachable s ∧
      s.left.map Release.value = [7, 2] ∧
      (∀ r ∈ s.left, r.counted.length = 1 ∧ IsGreatest (r.values .contextPush) r.value) ∧
      ∀ key, s.counted key = [] → s.table.value .scale key = ⊥ := by
  have hr : ((tables Nat .contextPush 2).restrict (Settled .contextPush)).Reachable init := .init rfl
  have hrun : (LTS.execute (LTS.guarded (step .contextPush 1) (Settled .contextPush)) init
      [.recv ⟨4, 7, 0⟩, .check 4 6, .handle, .check 4 6, .handle, .handle, .read, .clear,
        .recv ⟨4, 2, 0⟩, .handle, .handle, .handle, .check 4 1, .read, .clear]).map
      (fun s => s.left.map Release.value) = some [7, 2] := by decide +kernel
  obtain ⟨s, hs, h⟩ := Option.map_eq_some_iff.mp hrun
  have hreach := LTS.Reachable.of_execute hr hs
  exact ⟨s, hreach, h, carried_max .contextPush 2 s hreach⟩

/-- **Counterexample.** Two local ranks. The message of the first iteration is counted, and
`getTask` takes the task before the value, 5, is stored: the task leaves with its own 1, and the
task of the next iteration with the 5, where its iteration has only a 1 and a 2. -/
theorem carried_counterexample :
    ∃ s, ((tables Nat .push 2).restrict fun _ l _ => l.compresses = false).Reachable s ∧
      s.left = [⟨4, 1, 1, [⟨4, 0, 5⟩]⟩, ⟨4, 1, 5, [⟨4, 0, 2⟩]⟩] ∧
      ∀ r ∈ s.left, ¬ IsGreatest (r.values .push) r.value := by
  have hr : ((tables Nat .push 2).restrict fun _ l _ => l.compresses = false).Reachable init := .init rfl
  have hrun : (LTS.execute (LTS.guarded (step .push 1) fun _ l _ => l.compresses = false) init
      [.recv ⟨4, 0, 5⟩, .handle, .check 4 1, .read, .clear, .handle, .handle, .handle, .handle,
        .recv ⟨4, 0, 2⟩, .handle, .handle, .handle, .handle, .handle, .check 4 1, .read, .clear]).map
      State.left =
      some [⟨4, 1, 1, [⟨4, 0, 5⟩]⟩, ⟨4, 1, 5, [⟨4, 0, 2⟩]⟩] := by decide +kernel
  obtain ⟨s, hs, h⟩ := Option.map_eq_some_iff.mp hrun
  refine ⟨s, LTS.Reachable.of_execute hr hs, h, ?_⟩
  rw [h]
  intro r hmem hgr
  simp only [List.mem_cons, List.not_mem_nil, or_false] at hmem
  rcases hmem with rfl | rfl
  · have h5 := hgr.2 (.inr ⟨⟨4, 0, 5⟩, by simp, rfl⟩)
    simp [Msg.value, Stage.field] at h5
  · rcases hgr.1 with ⟨-, h1⟩ | ⟨m, hm, h1⟩
    · simp at h1
    · obtain rfl := List.mem_singleton.mp hm
      simp [Msg.value, Stage.field] at h1

/-- **Counterexample.** A task that goes through `COMPRESS` first: the 5 is stored, `COMPRESS`
clears it with the count, the count is restored, and `PUSH` leaves with its own 1. -/
theorem compress_counterexample :
    ∃ s, (tables Nat .push 2).Reachable s ∧ s.left = [⟨4, 1, 1, [⟨4, 0, 5⟩]⟩] := by
  have hr : ((tables Nat .push 2).restrict fun _ _ _ => True).Reachable init := .init rfl
  have hrun : (LTS.execute (LTS.guarded (step .push 1) fun _ _ _ => True) init
      [.recv ⟨4, 0, 5⟩, .handle, .handle, .handle, .handle, .handle,
        .compressCheck 4, .compressClear, .reset 4, .check 4 1, .read, .clear]).map State.left =
      some [⟨4, 1, 1, [⟨4, 0, 5⟩]⟩] := by decide +kernel
  obtain ⟨s, hs, h⟩ := Option.map_eq_some_iff.mp hrun
  exact ⟨s, (LTS.Reachable.of_execute hr hs).of_restrict, h⟩

end Inca.L2.ReadyTable
