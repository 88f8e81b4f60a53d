import Mathlib.Data.Fintype.Card

/-!
# Gathering one request of every party

A barrier: parties move one by one from a phase `before` to a phase `wait`,
and all of them go on together when the last has moved. The parties that
have moved are kept in a list, in their order.

* `Gathering.arrive`: one more party moves.
* `mem_all_iff`, `Gathering.phase_of_full`: the list is as long as there are
  parties if and only if everybody is in it, and then everybody waits.
-/
namespace Inca
variable {W P : Type} [DecidableEq W]

/-- The parties `ws` wait, the others have not moved yet. -/
structure Gathering (before wait : P) (ws : List W) (phase : W → P) : Prop where
  nodup : ws.Nodup
  phase : ∀ w, phase w = if w ∈ ws then wait else before

namespace Gathering
variable {before wait : P} {ws : List W} {phase : W → P} {w : W}

theorem nil (h : ∀ w, phase w = before) : Gathering before wait [] phase :=
  ⟨.nil, fun w => by simp [h w]⟩

theorem phase_cases (h : Gathering before wait ws phase) (w : W) : phase w = before ∨ phase w = wait := by
  rw [h.phase]
  split
  · exact .inr rfl
  · exact .inl rfl

theorem arrive (h : Gathering before wait ws phase) (hne : before ≠ wait) (hw : phase w = before) :
    Gathering before wait (ws ++ [w]) (Function.update phase w wait) := by
  have hnew : w ∉ ws := fun hm => by
    have := h.phase w
    rw [if_pos hm, hw] at this
    exact hne this
  refine ⟨by simpa using h.nodup.concat hnew, fun v => ?_⟩
  by_cases hv : v = w
  · subst hv; simp
  · simpa [hv] using h.phase v

end Gathering

/-- As many different parties as there are. -/
theorem mem_all_iff [Fintype W] {ws : List W} (h : ws.Nodup) :
    (∀ w, w ∈ ws) ↔ Fintype.card W ≤ ws.length := by
  have hcard := List.toFinset_card_of_nodup h
  constructor
  · intro hall
    have huniv : ws.toFinset = Finset.univ :=
      Finset.eq_univ_of_forall fun w => List.mem_toFinset.mpr (hall w)
    rw [huniv, Finset.card_univ] at hcard
    exact hcard.le
  · intro hle w
    have huniv : ws.toFinset = Finset.univ :=
      Finset.eq_univ_of_card _ (le_antisymm (Finset.card_le_univ _) (hcard ▸ hle))
    exact List.mem_toFinset.mp (huniv ▸ Finset.mem_univ w)

theorem Gathering.phase_of_full [Fintype W] {before wait : P} {ws : List W} {phase : W → P}
    (h : Gathering before wait ws phase) (hfull : Fintype.card W ≤ ws.length) (w : W) : phase w = wait := by
  rw [h.phase, if_pos ((mem_all_iff h.nodup).mpr hfull w)]

end Inca
