import Inca.L4App.TensorKeys

/-!
# Tensors across suspend and resume (`common/global.cc`, `common/operations.cc`)

`Shutdown` forgets the contexts of all tensors and starts the key counter again;
`_declared_tensors` survives, and `ReDeclareTensor` declares its names once more, in
their order. The counter has 32 bits. `byteps_suspend` and `byteps_resume` alternate,
and tensors are declared while the system runs.

* `Upto`: the first `n` names of the list have their positions as keys, and no other
  name has a context.
* `inv_execute`: this holds of all names whenever the system runs.
* `declared_keys`: keys are positions modulo `2 ^ 32`, they never change, and workers
  that declare the same names in the same order agree on them.
* `declared_keys_counterexample`: tensor number `2 ^ 32` has the key 0.
-/
namespace Inca.L4.Redeclare
open Inca.L4.TensorKeys (BPSContext)
open LTS (execute)

/-! ## The code -/

variable {Name : Type} [DecidableEq Name]

structure State (Name : Type) where
  tensors : TensorKeys.State Name
  declaredTensors : List Name
  initialized : Bool

/-- Behind `byteps_init`. -/
def State.init : State Name := ⟨.init, [], true⟩

/-- mirrors byteps/byteps/common/global.cc:598-616 -/
def isTensorDeclared (s : State Name) (name : Name) : State Name :=
  { s with
    tensors := TensorKeys.isTensorDeclared s.tensors name
    declaredTensors :=
      if (s.tensors.nameToCxt name).isNone ∧ name ∉ s.declaredTensors then s.declaredTensors ++ [name]
      else s.declaredTensors }

/-- mirrors byteps/byteps/common/global.cc:574-584 -/
def shutdown (s : State Name) : State Name := { s with tensors := .init, initialized := false }

/-- mirrors byteps/byteps/common/global.cc:618-623 -/
def reDeclareTensor (s : State Name) : State Name := s.declaredTensors.foldl isTensorDeclared s

inductive Act (Name : Type)
  | declare (name : Name)
  | suspend
  | resume

/-- mirrors byteps/byteps/common/operations.cc:119-142 for the last two -/
def step (s : State Name) : Act Name → Option (State Name)
  | .declare name => if s.initialized then some (isTensorDeclared s name) else none
  | .suspend => if s.initialized then some (shutdown s) else none
  | .resume => if s.initialized then none else some { reDeclareTensor s with initialized := true }

/-- The names that a worker declares, in the order of their first declarations. -/
def note (names : List Name) : Act Name → List Name
  | .declare name => if name ∈ names then names else names ++ [name]
  | .suspend => names
  | .resume => names

def order (acts : List (Act Name)) : List Name := acts.foldl note []

/-! ## Names and keys -/

/-- Of the names in `l`, the first `n` are declared. -/
structure Upto (l : List Name) (n : Nat) (t : TensorKeys.State Name) : Prop where
  nextKey : t.nextKey = n % 2 ^ 32
  keyed : ∀ i name, i < n → l[i]? = some name → ∃ c, t.nameToCxt name = some c ∧ c.declaredKey = i % 2 ^ 32
  only : ∀ name c, t.nameToCxt name = some c → ∃ i < n, l[i]? = some name

omit [DecidableEq Name] in
theorem upto_init (l : List Name) : Upto l 0 TensorKeys.State.init where
  nextKey := rfl
  keyed := fun i name hi => absurd hi (Nat.not_lt_zero i)
  only := fun name c h => by cases h

omit [DecidableEq Name] in
/-- Further names at the end of the list. -/
theorem Upto.append {l : List Name} {n : Nat} {t : TensorKeys.State Name} (h : Upto l n t) (hn : n ≤ l.length)
    (l' : List Name) : Upto (l ++ l') n t := by
  have hget : ∀ i < n, (l ++ l')[i]? = l[i]? := fun i hi => List.getElem?_append_left (by omega)
  refine ⟨h.nextKey, ?_, ?_⟩
  · intro i name hi hname
    rw [hget i hi] at hname
    exact h.keyed i name hi hname
  · intro name c hc
    obtain ⟨i, hi, hname⟩ := h.only name c hc
    exact ⟨i, hi, (hget i hi).trans hname⟩

omit [DecidableEq Name] in
/-- A name has one position. -/
theorem position_unique {l : List Name} (hl : l.Nodup) {i j : Nat} {name : Name} (hi : l[i]? = some name)
    (hj : l[j]? = some name) : i = j := by
  obtain ⟨hil, hi⟩ := List.getElem?_eq_some_iff.mp hi
  obtain ⟨hjl, hj⟩ := List.getElem?_eq_some_iff.mp hj
  exact (List.Nodup.getElem_inj_iff hl).mp (hi.trans hj.symm)

/-- The next name of the list is declared. -/
theorem Upto.declare {l : List Name} (hl : l.Nodup) {n : Nat} {t : TensorKeys.State Name} (h : Upto l n t)
    {name : Name} (hname : l[n]? = some name) : Upto l (n + 1) (TensorKeys.isTensorDeclared t name) := by
  have hnone : t.nameToCxt name = none := by
    cases hc : t.nameToCxt name with
    | none => rfl
    | some c =>
      obtain ⟨i, hi, hi'⟩ := h.only name c hc
      have := position_unique hl hi' hname
      omega
  unfold TensorKeys.isTensorDeclared
  rw [hnone]
  refine ⟨?_, ?_, ?_⟩
  · show (t.nextKey + 1) % 2 ^ 32 = (n + 1) % 2 ^ 32
    rw [h.nextKey]
    omega
  · intro i other hi hother
    by_cases heq : other = name
    · subst heq
      have hin := position_unique hl hother hname
      refine ⟨_, Function.update_self _ _ _, ?_⟩
      rw [hin]
      exact h.nextKey
    · have hne : i ≠ n := by
        intro hin
        rw [hin, hname] at hother
        exact heq (Option.some.inj hother).symm
      obtain ⟨c, hc, hkey⟩ := h.keyed i other (by omega) hother
      exact ⟨c, (Function.update_of_ne heq _ _).trans hc, hkey⟩
  · intro other c hc
    by_cases heq : other = name
    · rw [heq]
      exact ⟨n, Nat.lt_succ_self n, hname⟩
    · have hold : t.nameToCxt other = some c := (Function.update_of_ne heq _ _).symm.trans hc
      obtain ⟨i, hi, hother⟩ := h.only other c hold
      exact ⟨i, by omega, hother⟩

/-! ## The invariant -/

/-- While the system runs, all names are declared. -/
structure Inv (s : State Name) : Prop where
  nodup : s.declaredTensors.Nodup
  upto : Upto s.declaredTensors (if s.initialized then s.declaredTensors.length else 0) s.tensors

omit [DecidableEq Name] in
theorem inv_init : Inv (State.init : State Name) := ⟨List.nodup_nil, upto_init []⟩

omit [DecidableEq Name] in
theorem Inv.running {s : State Name} (h : Inv s) (hs : s.initialized = true) :
    Upto s.declaredTensors s.declaredTensors.length s.tensors := by
  have hupto := h.upto
  rwa [hs, if_pos rfl] at hupto

omit [DecidableEq Name] in
theorem Inv.suspended {s : State Name} (h : Inv s) (hs : s.initialized = false) :
    Upto s.declaredTensors 0 s.tensors := by
  have hupto := h.upto
  rwa [hs, if_neg Bool.false_ne_true] at hupto

omit [DecidableEq Name] in
/-- A name has a context exactly if it is in the list. -/
theorem Upto.isNone_iff {l : List Name} {t : TensorKeys.State Name} (h : Upto l l.length t) (name : Name) :
    (t.nameToCxt name).isNone ↔ name ∉ l := by
  rw [Option.isNone_iff_eq_none]
  constructor
  · intro hnone hmem
    obtain ⟨i, hi, hname⟩ := List.mem_iff_getElem.mp hmem
    obtain ⟨c, hc, -⟩ := h.keyed i name hi (List.getElem?_eq_some_iff.mpr ⟨hi, hname⟩)
    rw [hnone] at hc
    cases hc
  · intro hmem
    cases hc : t.nameToCxt name with
    | none => rfl
    | some c =>
      obtain ⟨i, -, hname⟩ := h.only name c hc
      exact absurd (List.mem_of_getElem? hname) hmem

/-- A declaration while the system runs: a new name goes to the end of the list. -/
theorem isTensorDeclared_running {s : State Name} (h : Inv s) (hs : s.initialized = true) (name : Name) :
    Inv (isTensorDeclared s name) ∧ (isTensorDeclared s name).declaredTensors = note s.declaredTensors (.declare name) := by
  have hupto := h.running hs
  have hiff := hupto.isNone_iff name
  by_cases hmem : name ∈ s.declaredTensors
  · -- the name has a context, and nothing changes
    have hsame : isTensorDeclared s name = s := by
      cases hc : s.tensors.nameToCxt name with
      | none =>
        rw [hc] at hiff
        exact absurd hmem (hiff.mp rfl)
      | some c => simp [isTensorDeclared, TensorKeys.isTensorDeclared, hc]
    rw [hsame]
    exact ⟨h, (if_pos hmem).symm⟩
  · have hlist : (isTensorDeclared s name).declaredTensors = s.declaredTensors ++ [name] :=
      if_pos ⟨hiff.mpr hmem, hmem⟩
    have hnodup : (s.declaredTensors ++ [name]).Nodup := by
      refine List.nodup_append.mpr ⟨h.nodup, List.nodup_singleton name, ?_⟩
      intro a ha b hb heq
      rw [List.mem_singleton.mp hb] at heq
      exact hmem (heq ▸ ha)
    refine ⟨⟨?_, ?_⟩, hlist.trans (if_neg hmem).symm⟩
    · rw [hlist]
      exact hnodup
    · have hrun : (isTensorDeclared s name).initialized = true := hs
      have hnext := (hupto.append (Nat.le_refl _) [name]).declare hnodup List.getElem?_concat_length
      rw [hlist, hrun, if_pos rfl, List.length_append]
      exact hnext

/-- `ReDeclareTensor`, over the names behind the first `n`. -/
theorem redeclare_loop {l : List Name} (hl : l.Nodup) (rest : List Name) {s : State Name} {n : Nat}
    (hlist : s.declaredTensors = l) (hrest : rest = l.drop n) (h : Upto l n s.tensors) (hn : n ≤ l.length) :
    (rest.foldl isTensorDeclared s).declaredTensors = l ∧ Upto l l.length (rest.foldl isTensorDeclared s).tensors := by
  induction rest generalizing s n with
  | nil =>
    have hlen : n = l.length := by
      have := congrArg List.length hrest
      rw [List.length_drop, List.length_nil] at this
      omega
    rw [hlen] at h
    exact ⟨hlist, h⟩
  | cons name rest ih =>
    have hlt : n < l.length := by
      have := congrArg List.length hrest
      rw [List.length_drop, List.length_cons] at this
      omega
    rw [List.drop_eq_getElem_cons hlt] at hrest
    obtain ⟨hname, htail⟩ := List.cons.inj hrest
    have hget : l[n]? = some name := by rw [List.getElem?_eq_getElem hlt, hname]
    rw [List.foldl_cons]
    refine ih ?_ htail (h.declare hl hget) hlt
    -- the name is found in the list
    rw [← hlist] at hget ⊢
    exact if_neg fun hnew => hnew.2 (List.mem_of_getElem? hget)

/-- **One step.** The invariant is kept, and the list follows the declarations. -/
theorem inv_step {s s' : State Name} (h : Inv s) {a : Act Name} (hs : step s a = some s') :
    Inv s' ∧ s'.declaredTensors = note s.declaredTensors a := by
  cases a with
  | declare name =>
    simp only [step] at hs
    split at hs
    · next hrun =>
      cases hs
      exact isTensorDeclared_running h hrun name
    · cases hs
  | suspend =>
    simp only [step] at hs
    split at hs
    · cases hs
      exact ⟨⟨h.nodup, upto_init _⟩, rfl⟩
    · cases hs
  | resume =>
    simp only [step] at hs
    split at hs
    · cases hs
    · next hstopped =>
      cases hs
      obtain ⟨hlist, hupto⟩ := redeclare_loop h.nodup s.declaredTensors rfl (List.drop_zero).symm
        (h.suspended (eq_false_of_ne_true hstopped)) (Nat.zero_le _)
      refine ⟨⟨?_, ?_⟩, hlist⟩
      · show (reDeclareTensor s).declaredTensors.Nodup
        rw [reDeclareTensor, hlist]
        exact h.nodup
      · show Upto (reDeclareTensor s).declaredTensors (if true then (reDeclareTensor s).declaredTensors.length else 0)
          (reDeclareTensor s).tensors
        rw [if_pos rfl, reDeclareTensor, hlist]
        exact hupto

/-- **Runs.** -/
theorem inv_execute {acts : List (Act Name)} {s s' : State Name} (h : Inv s) (hs : execute step s acts = some s') :
    Inv s' ∧ s'.declaredTensors = acts.foldl note s.declaredTensors := by
  induction acts generalizing s with
  | nil =>
    cases hs
    exact ⟨h, rfl⟩
  | cons a acts ih =>
    obtain ⟨t, ht, hs⟩ := Option.bind_eq_some_iff.mp hs
    obtain ⟨hinv, hnote⟩ := inv_step h ht
    rw [List.foldl_cons, ← hnote]
    exact ih hinv hs

/-! ## Keys -/

omit [DecidableEq Name] in
/-- A context has the position of its name as its key. -/
theorem Inv.key {s : State Name} (h : Inv s) {name : Name} {c : BPSContext} (hc : s.tensors.nameToCxt name = some c) :
    ∃ i, s.declaredTensors[i]? = some name ∧ c.declaredKey = i % 2 ^ 32 := by
  obtain ⟨i, hi, hname⟩ := h.upto.only name c hc
  obtain ⟨c', hc', hkey⟩ := h.upto.keyed i name hi hname
  rw [hc] at hc'
  cases hc'
  exact ⟨i, hname, hkey⟩

omit [DecidableEq Name] in
/-- Two states whose lists agree as far as both go. -/
theorem Inv.same_key {s s' : State Name} (h : Inv s) (h' : Inv s') (hle : s.declaredTensors <+: s'.declaredTensors)
    {name : Name} {c c' : BPSContext} (hc : s.tensors.nameToCxt name = some c)
    (hc' : s'.tensors.nameToCxt name = some c') : c'.declaredKey = c.declaredKey := by
  obtain ⟨i, hi, hkey⟩ := h.key hc
  obtain ⟨j, hj, hkey'⟩ := h'.key hc'
  have hi' : s'.declaredTensors[i]? = some name := by
    obtain ⟨rest, hrest⟩ := hle
    rw [← hrest, List.getElem?_append_left (List.getElem?_eq_some_iff.mp hi).1]
    exact hi
  rw [hkey, hkey', position_unique h'.nodup hi' hj]

theorem prefix_note (names : List Name) (a : Act Name) : names <+: note names a := by
  cases a with
  | declare name =>
    simp only [note]
    split
    · exact List.prefix_rfl
    · exact List.prefix_append names [name]
  | suspend => exact List.prefix_rfl
  | resume => exact List.prefix_rfl

theorem prefix_foldl_note (acts : List (Act Name)) (names : List Name) : names <+: acts.foldl note names := by
  induction acts generalizing names with
  | nil => exact List.prefix_rfl
  | cons a acts ih => exact (prefix_note names a).trans (ih (note names a))

/-- **Keys.** After any run: the key of a tensor is its position modulo `2 ^ 32`, and all tensors have
one while the system runs; it is the same after any continuation of the run, and for any other worker
that declared the same names in the same order. -/
theorem declared_keys {acts : List (Act Name)} {s : State Name} (h : execute step State.init acts = some s) :
    (∀ name c, s.tensors.nameToCxt name = some c →
      ∃ i, s.declaredTensors[i]? = some name ∧ c.declaredKey = i % 2 ^ 32) ∧
    (s.initialized = true → ∀ name ∈ s.declaredTensors, ∃ c, s.tensors.nameToCxt name = some c) ∧
    (∀ acts' s', execute step s acts' = some s' → ∀ name c c', s.tensors.nameToCxt name = some c →
      s'.tensors.nameToCxt name = some c' → c'.declaredKey = c.declaredKey) ∧
    ∀ acts' s', execute step State.init acts' = some s' → order acts' = order acts → ∀ name c c',
      s.tensors.nameToCxt name = some c → s'.tensors.nameToCxt name = some c' → c'.declaredKey = c.declaredKey := by
  obtain ⟨hinv, hlist⟩ := inv_execute inv_init h
  refine ⟨fun name c hc => hinv.key hc, ?_, ?_, ?_⟩
  · intro hrun name hname
    obtain ⟨i, hi, hget⟩ := List.mem_iff_getElem.mp hname
    obtain ⟨c, hc, -⟩ := (hinv.running hrun).keyed i name hi (List.getElem?_eq_some_iff.mpr ⟨hi, hget⟩)
    exact ⟨c, hc⟩
  · intro acts' s' h' name c c' hc hc'
    obtain ⟨hinv', hlist'⟩ := inv_execute hinv h'
    refine hinv.same_key hinv' ?_ hc hc'
    rw [hlist']
    exact prefix_foldl_note acts' _
  · intro acts' s' h' horder name c c' hc hc'
    obtain ⟨hinv', hlist'⟩ := inv_execute inv_init h'
    refine hinv.same_key hinv' ?_ hc hc'
    rw [hlist, hlist']
    show order acts <+: order acts'
    rw [horder]

/-- Two tensors, declared again behind a suspension. -/
theorem declared_keys_two : ∃ s : State Bool,
    execute step .init [.declare true, .declare false, .suspend, .resume, .declare true] = some s ∧
      s.declaredTensors = [true, false] ∧
      ∀ name c, s.tensors.nameToCxt name = some c → ∃ i, s.declaredTensors[i]? = some name ∧ c.declaredKey = i % 2 ^ 32 := by
  have h : execute step (State.init : State Bool) [.declare true, .declare false, .suspend, .resume, .declare true] =
      some _ := rfl
  exact ⟨_, h, rfl, (declared_keys h).1⟩

/-- Different names, one after the other. -/
theorem execute_declare (n : Nat) : ∃ s : State Nat,
    execute step .init ((List.range n).map .declare) = some s ∧ s.initialized = true ∧
      s.declaredTensors = List.range n := by
  have hrun : ∀ (names : List Nat) (s : State Nat), s.initialized = true →
      ∃ s', execute step s (names.map .declare) = some s' ∧ s'.initialized = true := by
    intro names
    induction names with
    | nil => exact fun s hs => ⟨s, rfl, hs⟩
    | cons name names ih =>
      intro s hs
      obtain ⟨s', hs', hrun⟩ := ih (isTensorDeclared s name) hs
      refine ⟨s', ?_, hrun⟩
      rw [List.map_cons, execute, step, if_pos hs, Option.bind_some]
      exact hs'
  have horder : ((List.range n).map Act.declare).foldl note [] = List.range n := by
    induction n with
    | zero => rfl
    | succ n ih =>
      rw [List.range_succ, List.map_append, List.foldl_append, ih]
      exact if_neg (by simp)
  obtain ⟨s, hs, hinit⟩ := hrun (List.range n) .init rfl
  exact ⟨s, hs, hinit, (inv_execute inv_init hs).2.trans horder⟩

/-- **Counterexample.** With more than `2 ^ 32` tensors, the one at position `2 ^ 32` has the key 0. -/
theorem declared_keys_counterexample : ∃ s : State Nat,
    execute step .init ((List.range (2 ^ 32 + 1)).map .declare) = some s ∧
      s.declaredTensors[2 ^ 32]? = some (2 ^ 32) ∧
      ∃ c, s.tensors.nameToCxt (2 ^ 32) = some c ∧ c.declaredKey = 0 := by
  obtain ⟨s, hs, hrun, hlist⟩ := execute_declare (2 ^ 32 + 1)
  obtain ⟨hinv, -⟩ := inv_execute inv_init hs
  have hget : s.declaredTensors[2 ^ 32]? = some (2 ^ 32) := by
    rw [hlist]
    exact List.getElem?_range (Nat.lt_succ_self _)
  obtain ⟨c, hc, hkey⟩ := (hinv.running hrun).keyed (2 ^ 32) (2 ^ 32)
    (by rw [hlist, List.length_range]; exact Nat.lt_succ_self _) hget
  exact ⟨s, hs, hget, c, hc, hkey.trans (Nat.mod_self _)⟩

end Inca.L4.Redeclare
