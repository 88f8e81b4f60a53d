import Mathlib.Data.List.Nodup
import Mathlib.Logic.Function.Basic

/-!
# Scattered updates

Events that each read one place of a memory and write it again. `scatter` runs them one
after the other and logs what is written where. If no place is the target of two events,
their order does not matter (`Scheduler`): a place has what its event makes of the initial
value.

* `scatter_eq`: everything may be read before anything is written.
* `scatter_of_mem`, `scatter_of_notMem`: the memory.
* `mem_scatter_log`: the log.
-/
namespace Inca.Scatter

/-- The order in which independent events take place. -/
structure Scheduler (E : Type) where
  order : List E → List E
  perm : ∀ evs, (order evs).Perm evs

def Scheduler.inOrder (E : Type) : Scheduler E := ⟨id, fun _ => .refl _⟩

variable {E I V : Type} [DecidableEq I] (target : E → I) (f : E → V → V)

def scatter : List E → (I → V) → (I → V) × List (I × V)
  | [], m => (m, [])
  | e :: evs, m =>
    let v := f e (m (target e))
    let r := scatter evs (Function.update m (target e) v)
    (r.1, (target e, v) :: r.2)

/-- What the events write, all of them reading `m`. -/
def writes (evs : List E) (m : I → V) : List (I × V) := evs.map fun e => (target e, f e (m (target e)))

def store (m : I → V) (w : I × V) : I → V := Function.update m w.1 w.2

variable {target f}

theorem scatter_append (evs evs' : List E) (m : I → V) :
    scatter target f (evs ++ evs') m =
      ((scatter target f evs' (scatter target f evs m).1).1,
        (scatter target f evs m).2 ++ (scatter target f evs' (scatter target f evs m).1).2) := by
  induction evs generalizing m with
  | nil => rfl
  | cons e evs ih =>
    rw [List.cons_append, scatter, ih]
    rfl

theorem scatter_eq {evs : List E} (h : (evs.map target).Nodup) (m : I → V) :
    scatter target f evs m = ((writes target f evs m).foldl store m, writes target f evs m) := by
  induction evs generalizing m with
  | nil => rfl
  | cons e evs ih =>
    rw [List.map_cons, List.nodup_cons] at h
    -- the other events do not read what `e` writes
    have hwrites : writes target f evs (Function.update m (target e) (f e (m (target e)))) = writes target f evs m := by
      refine List.map_congr_left fun e' he' => ?_
      have hne : target e' ≠ target e := fun heq => h.1 (heq ▸ List.mem_map_of_mem he')
      rw [Function.update_of_ne hne]
    rw [scatter, ih h.2, hwrites]
    rfl

theorem scatter_of_notMem {evs : List E} {i : I} (h : i ∉ evs.map target) (m : I → V) :
    (scatter target f evs m).1 i = m i := by
  induction evs generalizing m with
  | nil => rfl
  | cons e evs ih =>
    rw [List.map_cons, List.mem_cons, not_or] at h
    show (scatter target f evs _).1 i = m i
    rw [ih h.2, Function.update_of_ne h.1]

theorem scatter_of_mem {evs : List E} (h : (evs.map target).Nodup) {e : E} (he : e ∈ evs) (m : I → V) :
    (scatter target f evs m).1 (target e) = f e (m (target e)) := by
  induction evs generalizing m with
  | nil => cases he
  | cons e' evs ih =>
    rw [List.map_cons, List.nodup_cons] at h
    show (scatter target f evs _).1 (target e) = f e (m (target e))
    rcases List.mem_cons.mp he with heq | hmem
    · rw [heq, scatter_of_notMem h.1, Function.update_self]
    · have hne : target e ≠ target e' := fun heq => h.1 (heq ▸ List.mem_map_of_mem hmem)
      rw [ih h.2 hmem, Function.update_of_ne hne]

theorem mem_scatter_log {evs : List E} (h : (evs.map target).Nodup) {i : I} {v : V} (m : I → V) :
    (i, v) ∈ (scatter target f evs m).2 ↔ ∃ e ∈ evs, target e = i ∧ v = f e (m i) := by
  rw [scatter_eq h, writes, List.mem_map]
  constructor
  · rintro ⟨e, he, heq⟩
    obtain ⟨rfl, rfl⟩ := Prod.mk.inj heq
    exact ⟨e, he, rfl, rfl⟩
  · rintro ⟨e, he, rfl, rfl⟩
    exact ⟨e, he, rfl⟩

end Inca.Scatter
