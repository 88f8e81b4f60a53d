import Mathlib.Data.List.Range

/-!
# Loops

## While loops that collect

`while (cond) { out.push_back(emit); next; }` over a state `σ`, with a bound
on the number of rounds. `none` says that the bound was too small, so a loop
that does not come to an end is `none` for every bound.

`collect_eq`: if the states of the loop are `f 0 .. f n`, and `f n` is the
first one that fails the test, the loop ends in `f n` with what the `n`
states before it emit, for every bound from `n` on.

## Loops over a range that may fail

`foldlM_range`: a loop whose rounds lead from `g i` to `g (i + 1)`; `foldlM_range_error`: until one
of them fails. `mapM_ok`, `mapM_error` and `ok_of_mapM` are about rounds that have nothing to do
with each other.
-/
namespace Inca

variable {σ α : Type}

def collect (cond : σ → Prop) [DecidablePred cond] (emit : σ → α) (next : σ → σ) :
    Nat → σ → Option (List α × σ)
  | 0, s => if cond s then none else some ([], s)
  | fuel + 1, s =>
    if cond s then (collect cond emit next fuel (next s)).map fun r => (emit s :: r.1, r.2)
    else some ([], s)

variable (cond : σ → Prop) [DecidablePred cond] (emit : σ → α) (next : σ → σ)

theorem collect_done {s : σ} (h : ¬ cond s) (fuel : Nat) :
    collect cond emit next fuel s = some ([], s) := by
  cases fuel <;> simp only [collect, h, if_false]

theorem collect_eq {f : Nat → σ} {n : Nat} (hc : ∀ i < n, cond (f i)) (hn : ¬ cond (f n))
    (hf : ∀ i < n, next (f i) = f (i + 1)) {fuel : Nat} (hfuel : n ≤ fuel) :
    collect cond emit next fuel (f 0) = some ((List.range n).map fun i => emit (f i), f n) := by
  induction n generalizing f fuel with
  | zero => exact collect_done cond emit next hn fuel
  | succ n ih =>
    obtain ⟨fuel, rfl⟩ : ∃ k, fuel = k + 1 := ⟨fuel - 1, by omega⟩
    have hrec := ih (f := fun i => f (i + 1)) (fun i hi => hc (i + 1) (by omega)) hn
      (fun i hi => hf (i + 1) (by omega)) (show n ≤ fuel by omega)
    have h0 := hf 0 (by omega)
    simp only [Nat.zero_add] at hrec h0
    rw [collect, if_pos (hc 0 (by omega)), h0, hrec, List.range_succ_eq_map]
    simp only [Option.map_some, List.map_cons, List.map_map, Function.comp_def]

/-- A loop whose test can never fail does not come to an end. -/
theorem collect_forever {J : σ → Prop} (hJ : ∀ s, J s → cond s ∧ J (next s)) {s : σ} (hs : J s)
    (fuel : Nat) : collect cond emit next fuel s = none := by
  induction fuel generalizing s with
  | zero => simp only [collect, (hJ s hs).1, if_true]
  | succ fuel ih => simp only [collect, (hJ s hs).1, if_true, ih (hJ s hs).2, Option.map_none]

/-! ## Rounds that may fail -/

variable {ε β : Type}

theorem foldlM_range {f : σ → Nat → Except ε σ} {g : Nat → σ} {n : Nat} (h : ∀ i < n, f (g i) i = .ok (g (i + 1))) :
    (List.range n).foldlM f (g 0) = .ok (g n) := by
  induction n with
  | zero => rfl
  | succ n ih =>
    rw [List.range_succ, List.foldlM_append, ih fun i hi => h i (by omega)]
    show [n].foldlM f (g n) = _
    rw [List.foldlM_cons, h n (Nat.lt_succ_self n)]
    rfl

theorem foldlM_range_error {f : σ → Nat → Except ε σ} {g : Nat → σ} {n m : Nat} {e : ε} (hm : m < n)
    (h : ∀ i < m, f (g i) i = .ok (g (i + 1))) (he : f (g m) m = .error e) :
    (List.range n).foldlM f (g 0) = .error e := by
  obtain ⟨d, rfl⟩ : ∃ d, n = m + (d + 1) := ⟨n - m - 1, by omega⟩
  rw [List.range_add, List.foldlM_append, foldlM_range h, List.range_succ_eq_map, List.map_cons]
  show ((m + 0) :: _).foldlM f (g m) = _
  rw [List.foldlM_cons, Nat.add_zero, he]
  rfl

theorem mapM_ok {f : α → Except ε β} {g : α → β} {l : List α} (h : ∀ a ∈ l, f a = .ok (g a)) :
    l.mapM f = .ok (l.map g) := by
  induction l with
  | nil => rfl
  | cons a l ih =>
    rw [List.mapM_cons, h a List.mem_cons_self, ih fun b hb => h b (List.mem_cons_of_mem _ hb)]
    rfl

theorem mapM_error {f : α → Except ε β} {l : List α} {e : ε} (h : ∀ a ∈ l, f a ≠ .error e → ∃ b, f a = .ok b)
    {a : α} (ha : a ∈ l) (he : f a = .error e) : l.mapM f = .error e := by
  induction l with
  | nil => cases ha
  | cons a' l ih =>
    rw [List.mapM_cons]
    by_cases he' : f a' = .error e
    · rw [he']
      rfl
    · obtain ⟨b, hb⟩ := h a' List.mem_cons_self he'
      have hmem : a ∈ l := by
        rcases List.mem_cons.mp ha with rfl | hmem
        · exact absurd he he'
        · exact hmem
      rw [hb, ih (fun c hc => h c (List.mem_cons_of_mem _ hc)) hmem]
      rfl

theorem ok_of_mapM {f : α → Except ε β} {l : List α} {r : List β} (h : l.mapM f = .ok r) :
    ∀ a ∈ l, ∃ b, f a = .ok b := by
  induction l generalizing r with
  | nil =>
    intro a ha
    cases ha
  | cons a l ih =>
    rw [List.mapM_cons] at h
    cases ha : f a with
    | error e =>
      rw [ha] at h
      cases h
    | ok b =>
      rw [ha] at h
      cases hl : l.mapM f with
      | error e =>
        rw [hl] at h
        cases h
      | ok bs =>
        intro a' ha'
        rcases List.mem_cons.mp ha' with rfl | hmem
        · exact ⟨b, ha⟩
        · exact ih hl a' hmem

end Inca
