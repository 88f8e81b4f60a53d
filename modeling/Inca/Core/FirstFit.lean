import Mathlib.Data.List.Perm.Basic
import Mathlib.Data.List.Nodup
import Mathlib.Tactic.Ring

/-!
# First fit

Shares of given sizes are taken from bins: each from the front of the first bin that has as many
elements, and where none has, a smaller share is tried.

* `Taken`: a share and the bins that are left are what was there before, and every order of the
  elements of a bin is kept.
* `taken_shares`: all shares together.
* `length_shares`: if the sizes do not add up to more than there is, no share is missing but those
  of size 0.
-/
namespace Inca.FirstFit

variable {α : Type}

/-- `q` elements of the first bin that has as many, and the bins that are left. -/
def take (q : Nat) : List (List α) → Option (List α × List (List α))
  | [] => none
  | bin :: bins =>
    if q ≤ bin.length then some (bin.take q, bin.drop q :: bins)
    else (take q bins).map fun r => (r.1, bin :: r.2)

/-- `q` elements, or as many as a bin has. -/
def takeUpTo : Nat → List (List α) → Option (List α × List (List α))
  | 0, _ => none
  | q + 1, bins =>
    match take (q + 1) bins with
    | some r => some r
    | none => takeUpTo q bins

def shares : List Nat → List (List α) → List (List α)
  | [], _ => []
  | q :: qs, bins =>
    match takeUpTo q bins with
    | some r => r.1 :: shares qs r.2
    | none => shares qs bins

/-- `share` was taken from `bins`, and `rest` is left. -/
structure Taken (bins : List (List α)) (share : List α) (rest : List (List α)) : Prop where
  perm : bins.flatten.Perm (share ++ rest.flatten)
  pairwise : ∀ R : α → α → Prop, (∀ bin ∈ bins, bin.Pairwise R) → share.Pairwise R ∧ ∀ bin ∈ rest, bin.Pairwise R

theorem taken_take {q : Nat} {bins : List (List α)} {r : List α × List (List α)} (h : take q bins = some r) :
    r.1.length = q ∧ Taken bins r.1 r.2 := by
  induction bins generalizing r with
  | nil => cases h
  | cons bin bins ih =>
    simp only [take] at h
    split at h
    · next hq =>
      cases h
      refine ⟨List.length_take_of_le hq, ⟨?_, fun R hR => ?_⟩⟩
      · rw [List.flatten_cons, List.flatten_cons, ← List.append_assoc, List.take_append_drop]
      · rw [List.forall_mem_cons] at hR
        refine ⟨hR.1.sublist (List.take_sublist q bin), ?_⟩
        rw [List.forall_mem_cons]
        exact ⟨hR.1.sublist (List.drop_sublist q bin), hR.2⟩
    · obtain ⟨r', hr', rfl⟩ := Option.map_eq_some_iff.mp h
      obtain ⟨hlen, htaken⟩ := ih hr'
      refine ⟨hlen, ⟨?_, fun R hR => ?_⟩⟩
      · rw [List.flatten_cons, List.flatten_cons]
        exact (htaken.perm.append_left bin).trans (List.perm_append_comm_assoc bin r'.1 r'.2.flatten)
      · rw [List.forall_mem_cons] at hR
        obtain ⟨hshare, hrest⟩ := htaken.pairwise R hR.2
        exact ⟨hshare, List.forall_mem_cons.mpr ⟨hR.1, hrest⟩⟩

theorem taken_takeUpTo {q : Nat} {bins : List (List α)} {r : List α × List (List α)} (h : takeUpTo q bins = some r) :
    0 < r.1.length ∧ r.1.length ≤ q ∧ Taken bins r.1 r.2 := by
  induction q with
  | zero => cases h
  | succ q ih =>
    simp only [takeUpTo] at h
    split at h
    · next r' hr' =>
      cases h
      obtain ⟨hlen, htaken⟩ := taken_take hr'
      exact ⟨by omega, by omega, htaken⟩
    · obtain ⟨hpos, hle, htaken⟩ := ih h
      exact ⟨hpos, by omega, htaken⟩

theorem exists_take_one {bins : List (List α)} (h : bins.flatten ≠ []) : ∃ r, take 1 bins = some r := by
  induction bins with
  | nil => exact absurd rfl h
  | cons bin bins ih =>
    unfold take
    split
    · exact ⟨_, rfl⟩
    · next hbin =>
      have hnil : bin = [] := List.length_eq_zero_iff.mp (by omega)
      rw [hnil, List.flatten_cons, List.nil_append] at h
      obtain ⟨r, hr⟩ := ih h
      exact ⟨_, by rw [hr]; rfl⟩

/-- One element is always found, if there is one. -/
theorem exists_takeUpTo {q : Nat} (hq : 0 < q) {bins : List (List α)} (h : bins.flatten ≠ []) :
    ∃ r, takeUpTo q bins = some r := by
  induction q with
  | zero => omega
  | succ q ih =>
    unfold takeUpTo
    split
    · next r _ => exact ⟨r, rfl⟩
    · next hnone =>
      cases q with
      | zero =>
        obtain ⟨r, hr⟩ := exists_take_one h
        rw [hr] at hnone
        cases hnone
      | succ q => exact ih (Nat.succ_pos q)

/-- **All shares.** -/
theorem taken_shares (qs : List Nat) (bins : List (List α)) :
    (∃ rest, bins.flatten.Perm ((shares qs bins).flatten ++ rest)) ∧ (∀ share ∈ shares qs bins, share ≠ []) ∧
      ∀ R : α → α → Prop, (∀ bin ∈ bins, bin.Pairwise R) → ∀ share ∈ shares qs bins, share.Pairwise R := by
  induction qs generalizing bins with
  | nil =>
    exact ⟨⟨bins.flatten, .refl _⟩, fun share h => absurd h List.not_mem_nil, fun R _ share h => absurd h List.not_mem_nil⟩
  | cons q qs ih =>
    unfold shares
    split
    · next r hr =>
      obtain ⟨hpos, -, htaken⟩ := taken_takeUpTo hr
      obtain ⟨⟨rest, hrest⟩, hne, hpair⟩ := ih r.2
      refine ⟨⟨rest, ?_⟩, ?_, fun R hR => ?_⟩
      · rw [List.flatten_cons, List.append_assoc]
        exact htaken.perm.trans (hrest.append_left r.1)
      · exact List.forall_mem_cons.mpr ⟨List.ne_nil_of_length_pos hpos, hne⟩
      · obtain ⟨hshare, hleft⟩ := htaken.pairwise R hR
        exact List.forall_mem_cons.mpr ⟨hshare, hpair R hleft⟩
    · exact ih bins

/-- Elements that are different are in different shares. -/
theorem pairwise_disjoint_shares (qs : List Nat) {bins : List (List α)} (h : bins.flatten.Nodup) :
    (shares qs bins).Pairwise List.Disjoint := by
  obtain ⟨⟨rest, hperm⟩, -⟩ := taken_shares qs bins
  exact (List.nodup_flatten.mp (List.nodup_append.mp (hperm.nodup_iff.mp h)).1).2

theorem length_shares {qs : List Nat} {bins : List (List α)} (h : qs.sum ≤ bins.flatten.length) :
    (shares qs bins).length = qs.countP (0 < ·) := by
  induction qs generalizing bins with
  | nil => rfl
  | cons q qs ih =>
    rw [List.sum_cons] at h
    unfold shares
    by_cases hq : 0 < q
    · obtain ⟨r, hr⟩ := exists_takeUpTo hq (List.ne_nil_of_length_pos (show 0 < bins.flatten.length by omega))
      obtain ⟨-, hle, htaken⟩ := taken_takeUpTo hr
      have hlen := htaken.perm.length_eq
      rw [List.length_append] at hlen
      rw [hr, List.countP_cons, if_pos (decide_eq_true hq)]
      exact congrArg (· + 1) (ih (by omega))
    · obtain rfl : q = 0 := by omega
      rw [takeUpTo, List.countP_cons, if_neg (by decide), Nat.add_zero]
      exact ih (by omega)

end Inca.FirstFit
