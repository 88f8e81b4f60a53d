import Mathlib.Tactic.Common

/-!
# Going round a course of stages, again and again

A party enters a course of `len` stages, is queued at a stage, held by it,
queued at the next one, and after the last stage it is idle and may enter
again. `Laps` is where it stands and how often it has been round.

How often it has entered, has been taken by stage `j` and has been finished
by stage `j` (`entered`, `taken`, `finished`) are functions of that, so two
parties can be compared by inequalities between counters; a step moves one
counter by one (`enter_spec`, `take_spec`, `finish_spec`). On one course the
counters of two stages differ by at most one, the earlier one being ahead
(`taken_le_finished`, `finished_le_taken`); and they tell where the party
stands (`held_of_lt`, `queued_of_lt`).
-/
namespace Inca

inductive Place
  | idle
  | queued (i : Nat)
  | held (i : Nat)
  deriving DecidableEq

/-- `iter` full rounds, and a place on the next. -/
structure Laps where
  iter : Nat
  place : Place
  deriving DecidableEq

namespace Laps

def start : Laps := ⟨0, .idle⟩

/-- Steps into the current round. -/
def pos (t : Laps) : Nat :=
  match t.place with
  | .idle => 0
  | .queued i => 2 * i + 1
  | .held i => 2 * i + 2

def entered (t : Laps) : Nat := t.iter + min 1 t.pos

/-- How often stage `j` has taken the party. -/
def taken (t : Laps) (j : Nat) : Nat := t.iter + min 1 (t.pos - (2 * j + 1))

/-- How often stage `j` has finished with the party. -/
def finished (t : Laps) (j : Nat) : Nat := t.iter + min 1 (t.pos - (2 * j + 2))

/-- The party is on a course of `len` stages. -/
def On (len : Nat) (t : Laps) : Prop := t.pos ≤ 2 * len

/-! ## Steps -/

def enter (t : Laps) : Option Laps :=
  match t.place with
  | .idle => some { t with place := .queued 0 }
  | .queued _ | .held _ => none

def take (t : Laps) : Option Laps :=
  match t.place with
  | .queued i => some { t with place := .held i }
  | .idle | .held _ => none

def finish (len : Nat) (t : Laps) : Option Laps :=
  match t.place with
  | .held i => some (if i + 1 < len then { t with place := .queued (i + 1) } else ⟨t.iter + 1, .idle⟩)
  | .idle | .queued _ => none

variable {t t' : Laps} {len i j : Nat}

theorem on_start (len : Nat) : start.On len := Nat.zero_le _

theorem lt_of_queued (h : t.On len) (hp : t.place = .queued i) : i < len := by
  simp only [On, pos, hp] at h; omega

theorem lt_of_held (h : t.On len) (hp : t.place = .held i) : i < len := by
  simp only [On, pos, hp] at h; omega

/-- Entering moves `entered` and nothing else. -/
theorem enter_spec (h : t.enter = some t') (hlen : 0 < len) : t'.On len ∧ t'.entered = t.entered + 1 ∧
    ∀ j, t'.taken j = t.taken j ∧ t'.finished j = t.finished j := by
  unfold enter at h
  split at h
  · next hp =>
    cases h
    simp only [On, entered, taken, finished, pos, hp]
    exact ⟨by omega, by omega, fun j => ⟨by omega, by omega⟩⟩
  all_goals cases h

/-- Being taken by stage `i` moves `taken i` and nothing else. -/
theorem take_spec (h : t.take = some t') (hp : t.place = .queued i) (ho : t.On len) :
    t'.On len ∧ t'.place = .held i ∧ t'.entered = t.entered ∧
    ∀ j, t'.taken j = t.taken j + (if j = i then 1 else 0) ∧ t'.finished j = t.finished j := by
  unfold take at h
  rw [hp] at h
  cases h
  have hi := lt_of_queued ho hp
  simp only [On, entered, taken, finished, pos, hp]
  refine ⟨by omega, trivial, by omega, fun j => ⟨?_, by omega⟩⟩
  split <;> omega

/-- Being finished by stage `i` moves `finished i` and nothing else. -/
theorem finish_spec (h : t.finish len = some t') (hp : t.place = .held i) (ho : t.On len) :
    t'.On len ∧ t'.entered = t.entered ∧
    ∀ j < len, t'.taken j = t.taken j ∧ t'.finished j = t.finished j + if j = i then 1 else 0 := by
  unfold finish at h
  rw [hp] at h
  cases h
  have hi := lt_of_held ho hp
  by_cases hlast : i + 1 < len
  · rw [if_pos hlast]
    simp only [On, entered, taken, finished, pos, hp]
    refine ⟨by omega, by omega, fun j hj => ⟨by omega, ?_⟩⟩
    split <;> omega
  · rw [if_neg hlast]
    simp only [On, entered, taken, finished, pos, hp]
    refine ⟨by omega, by omega, fun j hj => ⟨by omega, ?_⟩⟩
    split <;> omega

/-! ## Many parties, one of which steps -/

section Parties
variable {ι : Type} [DecidableEq ι] {f : ι → Laps} {x : ι}

def set (f : ι → Laps) (x : ι) (t : Laps) (y : ι) : Laps := if y = x then t else f y

theorem set_enter (h : (f x).enter = some t) (hlen : 0 < len) (ho : ∀ y, (f y).On len) (y : ι) :
    (set f x t y).On len ∧ ∀ j, (set f x t y).taken j = (f y).taken j ∧
      (set f x t y).finished j = (f y).finished j := by
  obtain ⟨h1, -, h2⟩ := enter_spec h hlen
  by_cases hy : y = x
  · subst hy
    simpa [set] using ⟨h1, h2⟩
  · simpa [set, hy] using ho y

theorem set_take (h : (f x).take = some t) (hp : (f x).place = .queued i) (ho : ∀ y, (f y).On len) (y : ι) :
    (set f x t y).On len ∧ ∀ j, (set f x t y).taken j = (f y).taken j + (if y = x ∧ j = i then 1 else 0) ∧
      (set f x t y).finished j = (f y).finished j := by
  obtain ⟨h1, -, -, h2⟩ := take_spec h hp (ho x)
  by_cases hy : y = x
  · subst hy
    simpa [set] using ⟨h1, h2⟩
  · simpa [set, hy] using ho y

theorem set_finish (h : (f x).finish len = some t) (hp : (f x).place = .held i)
    (ho : ∀ y, (f y).On len) (y : ι) :
    (set f x t y).On len ∧ ∀ j < len, (set f x t y).taken j = (f y).taken j ∧
      (set f x t y).finished j = (f y).finished j + if y = x ∧ j = i then 1 else 0 := by
  obtain ⟨h1, -, h2⟩ := finish_spec h hp (ho x)
  by_cases hy : y = x
  · subst hy
    simpa [set] using ⟨h1, h2⟩
  · simpa [set, hy] using ho y

end Parties

/-! ## Counters on one course -/

theorem finished_le_taken (t : Laps) (h : i ≤ j) : t.finished j ≤ t.taken i := by
  simp only [finished, taken]; omega

theorem taken_le_finished (t : Laps) (h : i < j) : t.taken j ≤ t.finished i := by
  simp only [finished, taken]; omega

theorem taken_le_entered (t : Laps) (j : Nat) : t.taken j ≤ t.entered := by
  simp only [entered, taken]; omega

theorem taken_antitone (t : Laps) (h : i ≤ j) : t.taken j ≤ t.taken i := by
  simp only [taken]; omega

theorem finished_antitone (t : Laps) (h : i ≤ j) : t.finished j ≤ t.finished i := by
  simp only [finished]; omega

theorem taken_le_taken_succ (t : Laps) (i j : Nat) : t.taken i ≤ t.taken j + 1 := by
  simp only [taken]; omega

theorem finished_le_taken_succ (t : Laps) (i j : Nat) : t.finished i ≤ t.taken j + 1 := by
  simp only [taken, finished]; omega

theorem held_of_lt (h : t.finished j < t.taken j) : t.place = .held j := by
  simp only [taken, finished, pos] at h
  split at h
  · omega
  · omega
  · next i hp => rw [hp]; congr 1; omega

theorem finished_lt_taken_of_held (h : t.place = .held j) : t.finished j < t.taken j := by
  simp only [taken, finished, pos, h]; omega

theorem taken_eq_finished (h : ∀ i, t.place ≠ .held i) (j : Nat) : t.taken j = t.finished j := by
  have hle := t.finished_le_taken (Nat.le_refl j)
  by_contra hne
  exact h j (held_of_lt (by omega))

theorem queued_of_lt (h : t.taken (j + 1) < t.finished j) : t.place = .queued (j + 1) := by
  simp only [taken, finished, pos] at h
  split at h
  · omega
  · next i hp => rw [hp]; congr 1; omega
  · omega

theorem queued_zero_of_lt (h : t.taken 0 < t.entered) : t.place = .queued 0 := by
  simp only [taken, entered, pos] at h
  split at h
  · omega
  · next i hp => rw [hp]; congr 1; omega
  · omega

theorem idle_of_eq (ho : t.On len) (h : t.entered = t.finished (len - 1)) (hlen : 0 < len) :
    t.place = .idle := by
  simp only [On, entered, finished, pos] at *
  split at h
  · assumption
  · next i hp => simp only [hp] at ho; omega
  · next i hp => simp only [hp] at ho; omega

/-! ## Steps left -/

/-- Steps left in the current round. -/
def left (len : Nat) (t : Laps) : Nat :=
  match t.place with
  | .idle => 0
  | .queued i => 2 * (len - i)
  | .held i => 2 * (len - i) - 1

theorem left_take (h : t.take = some t') (ho : t.On len) : t'.left len + 1 = t.left len := by
  unfold take at h
  split at h
  · next i hp =>
    have hi := lt_of_queued ho hp
    cases h
    simp only [left, hp]
    omega
  all_goals cases h

theorem left_finish (h : t.finish len = some t') (ho : t.On len) : t'.left len + 1 = t.left len := by
  unfold finish at h
  split at h
  · next i hp =>
    have hi := lt_of_held ho hp
    cases h
    by_cases hlast : i + 1 < len
    · simp only [if_pos hlast, left, hp]
      omega
    · simp only [if_neg hlast, left, hp]
      omega
  all_goals cases h

theorem ne_idle_of_take (h : t.take = some t') : t.place ≠ .idle := by
  intro hp; simp [take, hp] at h

theorem ne_idle_of_finish (h : t.finish len = some t') : t.place ≠ .idle := by
  intro hp; simp [finish, hp] at h

end Laps
end Inca
