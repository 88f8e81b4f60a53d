import Mathlib.Tactic.Common

/-!
# Labelled transition systems

Every protocol of this development is an `LTS`: a set of initial states and
a labelled step relation. Interleavings are not listed, they are the runs:
one label is one atomic step of one party.

* `Inductive.reachable`: a predicate that holds initially and is kept by
  every step holds in every reachable state.
* `restrict`: the same system, cut down to the steps that meet a condition
  (`G`). A theorem about `M.restrict G` is a theorem about the runs of `M`
  all of whose steps meet `G`.
* `Reachable.simulate`: a step-by-step abstraction carries reachability.
* `Descends`: a rank that every step makes smaller; `Descends.length_le`, `Descends.exists_last`:
  runs are no longer than the rank, and there is one that goes as far as possible.
* `execute`: the runs of a partial step function, computed;
  `Reachable.of_execute` ties them to `Reachable`.
-/
namespace Inca

/-- The parties of a two-party system are the numerals of `Fin 2`. -/
instance neZero_two : @NeZero Nat Zero.ofOfNat0 2 := ⟨by decide⟩

structure LTS (S L : Type) where
  init : S → Prop
  step : S → L → S → Prop

namespace LTS
variable {S L : Type}

inductive Reachable (M : LTS S L) : S → Prop
  | init {s : S} : M.init s → Reachable M s
  | step {s s' : S} {l : L} : Reachable M s → M.step s l s' → Reachable M s'

/-- `I` holds initially and every step keeps it. -/
structure Inductive (M : LTS S L) (I : S → Prop) : Prop where
  init : ∀ s, M.init s → I s
  step : ∀ s l s', I s → M.step s l s' → I s'

theorem Inductive.reachable {M : LTS S L} {I : S → Prop} (h : M.Inductive I) (s : S)
    (hs : M.Reachable s) : I s := by
  induction hs with
  | init h0 => exact h.init _ h0
  | step _ hst ih => exact h.step _ _ _ ih hst

/-- Only the steps that meet `G`. -/
def restrict (M : LTS S L) (G : S → L → S → Prop) : LTS S L where
  init := M.init
  step s l s' := M.step s l s' ∧ G s l s'

theorem Reachable.of_restrict {M : LTS S L} {G : S → L → S → Prop} {s : S}
    (h : (M.restrict G).Reachable s) : M.Reachable s := by
  induction h with
  | init h0 => exact .init h0
  | step _ hst ih => exact .step ih hst.1

theorem Reachable.mono {M : LTS S L} {G G' : S → L → S → Prop} {s : S}
    (h : (M.restrict G).Reachable s) (hG : ∀ s l s', G s l s' → G' s l s') :
    (M.restrict G').Reachable s := by
  induction h with
  | init h0 => exact .init h0
  | step _ hst ih => exact .step ih ⟨hst.1, hG _ _ _ hst.2⟩

/-- **Simulation.** If each step of `M`, from a state that meets an inductive invariant, is a
step of `N` on the abstraction, then reachable states have reachable abstractions. -/
theorem Reachable.simulate {T K : Type} {M : LTS S L} {N : LTS T K} {J : S → Prop} (abs : S → T)
    (hJ : M.Inductive J) (hinit : ∀ s, M.init s → N.init (abs s))
    (hstep : ∀ s l s', J s → M.step s l s' → ∃ k, N.step (abs s) k (abs s')) {s : S}
    (h : M.Reachable s) : N.Reachable (abs s) := by
  induction h with
  | init h0 => exact .init (hinit _ h0)
  | step hr hst ih =>
    obtain ⟨k, hk⟩ := hstep _ _ _ (hJ.reachable _ hr) hst
    exact .step ih hk

theorem Inductive.restrict {M : LTS S L} {I : S → Prop} (h : M.Inductive I) (G : S → L → S → Prop) :
    (M.restrict G).Inductive I where
  init := h.init
  step := fun s l s' hI hs => h.step s l s' hI hs.1

/-- The system of a partial step function. -/
def ofFn (init : S → Prop) (f : S → L → Option S) : LTS S L where
  init := init
  step s l s' := f s l = some s'

/-! ## Runs -/

/-- Run a partial step function along a list of labels. -/
def execute (f : S → L → Option S) : S → List L → Option S
  | s, [] => some s
  | s, l :: ls => (f s l).bind fun s' => execute f s' ls

/-- Only the steps of `f` that meet `G`. -/
def guarded (f : S → L → Option S) (G : S → L → S → Prop) [∀ s l s', Decidable (G s l s')]
    (s : S) (l : L) : Option S := (f s l).filter fun s' => G s l s'

theorem Reachable.of_execute {init : S → Prop} {f : S → L → Option S} {G : S → L → S → Prop}
    [∀ s l s', Decidable (G s l s')] {ls : List L} : ∀ {s s' : S},
    ((ofFn init f).restrict G).Reachable s → execute (guarded f G) s ls = some s' →
    ((ofFn init f).restrict G).Reachable s' := by
  induction ls with
  | nil => intro s s' hs h; cases h; exact hs
  | cons l ls ih =>
    intro s s' hs h
    simp only [execute, guarded, Option.bind_eq_some_iff, Option.filter_eq_some_iff,
      decide_eq_true_eq] at h
    obtain ⟨t, ht, h⟩ := h
    exact ih (.step hs ht) h

/-! ## Runs that end -/

/-- Every step from a state of the invariant leads to one, and makes the rank smaller. -/
structure Descends (f : S → L → Option S) (I : S → Prop) (rank : S → Nat) : Prop where
  keeps : ∀ s l s', I s → f s l = some s' → I s'
  lt : ∀ s l s', I s → f s l = some s' → rank s' < rank s

namespace Descends
variable {f : S → L → Option S} {I : S → Prop} {rank : S → Nat}

theorem run (h : Descends f I rank) {ls : List L} : ∀ {s s' : S}, I s → execute f s ls = some s' → I s' := by
  induction ls with
  | nil => intro s s' hs hrun; cases hrun; exact hs
  | cons l ls ih =>
    intro s s' hs hrun
    obtain ⟨t, ht, hrun⟩ := Option.bind_eq_some_iff.mp hrun
    exact ih (h.keeps s l t hs ht) hrun

theorem length_le (h : Descends f I rank) {ls : List L} : ∀ {s s' : S}, I s → execute f s ls = some s' →
    ls.length ≤ rank s := by
  induction ls with
  | nil => exact fun _ _ => Nat.zero_le _
  | cons l ls ih =>
    intro s s' hs hrun
    obtain ⟨t, ht, hrun⟩ := Option.bind_eq_some_iff.mp hrun
    have hlen := ih (h.keeps s l t hs ht) hrun
    have := h.lt s l t hs ht
    rw [List.length_cons]
    omega

/-- Some run from a reachable state goes as far as possible. -/
theorem exists_last (h : Descends f I rank) {init : S → Prop} : ∀ (n : Nat) (s : S), rank s ≤ n → I s →
    (ofFn init f).Reachable s → ∃ s', (ofFn init f).Reachable s' ∧ I s' ∧ ∀ l, f s' l = none := by
  intro n
  induction n with
  | zero =>
    intro s hn hs hr
    refine ⟨s, hr, hs, fun l => Option.eq_none_iff_forall_ne_some.mpr fun t ht => ?_⟩
    have := h.lt s l t hs ht
    omega
  | succ n ih =>
    intro s hn hs hr
    by_cases hlast : ∀ l, f s l = none
    · exact ⟨s, hr, hs, hlast⟩
    · obtain ⟨l, hl⟩ := not_forall.mp hlast
      obtain ⟨t, ht⟩ := Option.ne_none_iff_exists'.mp hl
      have := h.lt s l t hs ht
      exact ih t (by omega) (h.keeps s l t hs ht) (.step hr ht)

end Descends
end LTS
end Inca
