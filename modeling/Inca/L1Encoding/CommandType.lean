import Mathlib.Algebra.Order.Floor.Ring
import Mathlib.Analysis.Real.Sqrt
import Mathlib.Tactic.Linarith
import Mathlib.Tactic.Ring

/-!
# Command types (`common/common.cc`, `server/server.h`)

A request carries its type `m` and its data type `d` in one `int`: `GetCommandType`
counts the pairs along the diagonals `m + d`, `DepairDataHandleType` finds the
diagonal again with a square root. Arithmetic is on `int`, where overflow is
undefined (`none`). The square root is exact, and what the code keeps of it is its
floor (`floor_sqrt`).

* `diagonal_tri`: the diagonal of a command.
* `depair_command`: decoding and encoding are inverse to each other.
-/
namespace Inca.L1.CommandType

/-! ## The code -/

/-- The value of an `int` expression. -/
def int (x : Int) : Option Int := if -2 ^ 31 ≤ x ∧ x < 2 ^ 31 then some x else none

/-- mirrors byteps/byteps/common/common.cc:98-101 -/
def getCommandType (m d : Int) : Option Int := do
  let sum ← int (m + d)
  let next ← int (sum + 1)
  let product ← int (sum * next)
  int (product.tdiv 2 + d)

/-- `std::floor((std::sqrt(n) - 1) / 2)` -/
def diagonal (n : Nat) : Int := ((n.sqrt : Int) - 1) / 2

/-- The request type and the data type; `none` is a failed check, too.
mirrors byteps/byteps/server/server.h:87-98 -/
def depairDataHandleType (cmd : Int) : Option (Int × Int) := do
  let eight ← int (8 * cmd)
  let n ← int (eight + 1)
  -- the root of a negative number has no `int` value
  if n < 0 then none
  let w ← int (diagonal n.toNat)
  let square ← int (w * w)
  let sum ← int (square + w)
  let y ← int (cmd - sum.tdiv 2)
  let x ← int (w - y)
  if 0 ≤ x ∧ 0 ≤ y then some (x, y) else none

theorem int_eq {x : Int} (h0 : 0 ≤ x) (h : x < 2 ^ 31) : int x = some x := by
  unfold int
  rw [if_pos ⟨by omega, h⟩]

theorem int_some {x y : Int} (h : int x = some y) : y = x ∧ x < 2 ^ 31 := by
  unfold int at h
  split at h
  · next hx =>
    cases h
    exact ⟨rfl, hx.2⟩
  · cases h

/-- What `diagonal` computes of the exact root. -/
theorem floor_sqrt (n : Nat) : ⌊(√(n : ℝ) - 1) / 2⌋ = diagonal n := by
  have hdiv := Int.floor_div_natCast (√(n : ℝ) - 1) 2
  have hone := Int.floor_sub_one (√(n : ℝ))
  rw [Nat.cast_ofNat] at hdiv
  rw [hdiv, hone, Real.floor_real_sqrt_eq_nat_sqrt]
  rfl

/-! ## Diagonals -/

/-- The commands before diagonal `s`. -/
def tri (s : Nat) : Nat := s * (s + 1) / 2

theorem two_mul_tri (s : Nat) : 2 * tri s = s * (s + 1) :=
  Nat.two_mul_div_two_of_even (Nat.even_mul_succ_self s)

theorem tri_succ (s : Nat) : tri (s + 1) = tri s + s + 1 := by
  have hs := two_mul_tri s
  have hs' := two_mul_tri (s + 1)
  have hexp : (s + 1) * (s + 1 + 1) = s * (s + 1) + 2 * (s + 1) := by ring
  omega

theorem le_tri (s : Nat) : s ≤ tri s := by
  induction s with
  | zero => exact Nat.zero_le _
  | succ s ih =>
    rw [tri_succ]
    omega

/-- The commands of a diagonal lie between the squares of two odd numbers. -/
theorem diagonal_tri {s d : Nat} (h : d ≤ s) : diagonal (8 * (tri s + d) + 1) = s := by
  have hs := two_mul_tri s
  have hlow : (2 * s + 1) * (2 * s + 1) ≤ 8 * (tri s + d) + 1 := by
    have hexp : (2 * s + 1) * (2 * s + 1) = 4 * (s * (s + 1)) + 1 := by ring
    omega
  have hhigh : 8 * (tri s + d) + 1 < (2 * s + 3) * (2 * s + 3) := by
    have hexp : (2 * s + 3) * (2 * s + 3) = 4 * (s * (s + 1)) + 8 * s + 9 := by ring
    omega
  have hge := Nat.le_sqrt.mpr hlow
  have hlt := Nat.sqrt_lt.mpr hhigh
  unfold diagonal
  omega

/-- Every command lies on a diagonal. -/
theorem exists_tri (c : Nat) : ∃ s d, d ≤ s ∧ c = tri s + d := by
  induction c with
  | zero => exact ⟨0, 0, Nat.le_refl 0, rfl⟩
  | succ c ih =>
    obtain ⟨s, d, hd, rfl⟩ := ih
    rcases Nat.lt_or_eq_of_le hd with hlt | rfl
    · exact ⟨s, d + 1, hlt, rfl⟩
    · exact ⟨d + 1, 0, Nat.zero_le _, (tri_succ d).symm⟩

/-! ## Encoding and decoding -/

theorem tdiv_tri (s : Nat) : ((s : Int) * (s + 1)).tdiv 2 = tri s := by
  have hs := two_mul_tri s
  have hcast : (s : Int) * (s + 1) = 2 * (tri s : Int) := by exact_mod_cast hs.symm
  rw [hcast, Int.mul_tdiv_cancel_left _ (by decide)]

/-- A command that exists is the number of its pair. -/
theorem getCommandType_some {m d c : Int} (hm : 0 ≤ m) (hd : 0 ≤ d) (h : getCommandType m d = some c) :
    c = tri (m + d).toNat + d := by
  simp only [getCommandType, Option.bind_eq_bind, Option.bind_eq_some_iff] at h
  obtain ⟨sum, hsum, next, hnext, product, hproduct, h⟩ := h
  obtain ⟨rfl, -⟩ := int_some hsum
  obtain ⟨rfl, -⟩ := int_some hnext
  obtain ⟨rfl, -⟩ := int_some hproduct
  obtain ⟨rfl, -⟩ := int_some h
  have hcast : m + d = ((m + d).toNat : Int) := by omega
  rw [hcast, tdiv_tri, ← hcast]

theorem getCommandType_tri {s d : Nat} (h : 8 * (tri s + d) + 1 < 2 ^ 31) :
    getCommandType (s - d) d = some ((tri s + d : Nat) : Int) := by
  have hs := two_mul_tri s
  have hle := le_tri s
  have hsum : (s : Int) - d + d = s := by omega
  have hproduct : (s : Int) * (s + 1) < 2 ^ 31 := by
    have hcast : (s : Int) * (s + 1) = ((s * (s + 1) : Nat) : Int) := by push_cast; rfl
    omega
  unfold getCommandType
  rw [hsum, int_eq (by omega) (by omega), Option.bind_eq_bind, Option.bind_some, int_eq (by omega) (by omega),
    Option.bind_some, int_eq (by positivity) hproduct, Option.bind_some, tdiv_tri, int_eq (by omega) (by omega),
    Nat.cast_add]

theorem depair_tri {s d : Nat} (hd : d ≤ s) (h : 8 * (tri s + d) + 1 < 2 ^ 31) :
    depairDataHandleType (tri s + d : Nat) = some ((s : Int) - d, (d : Int)) := by
  have hs := two_mul_tri s
  have hle := le_tri s
  have hsquare : (s : Int) * s + s = s * (s + 1) := by ring
  have hproduct : (s : Int) * (s + 1) < 2 ^ 31 := by
    have hcast : (s : Int) * (s + 1) = ((s * (s + 1) : Nat) : Int) := by push_cast; rfl
    omega
  have hcmd : (8 * ((tri s + d : Nat) : Int) + 1).toNat = 8 * (tri s + d) + 1 := by omega
  have hy : ((tri s + d : Nat) : Int) - tri s = d := by omega
  unfold depairDataHandleType
  rw [int_eq (by omega) (by omega), Option.bind_eq_bind, Option.bind_some, int_eq (by omega) (by omega),
    Option.bind_some, if_neg (by omega), hcmd, diagonal_tri hd]
  simp only
  rw [int_eq (by omega) (by omega), Option.bind_some, int_eq (by positivity) (by linarith), Option.bind_some,
    hsquare, int_eq (by positivity) hproduct, Option.bind_some, tdiv_tri, hy, int_eq (by omega) (by omega),
    Option.bind_some, int_eq (by omega) (by omega), Option.bind_some, if_pos (by omega)]

/-- **Commands.** For commands whose root the code can take: decoding gives back the pair, and
encoding what was decoded gives back the command. -/
theorem depair_command :
    (∀ m d c : Int, 0 ≤ m → 0 ≤ d → getCommandType m d = some c → 8 * c + 1 < 2 ^ 31 →
      depairDataHandleType c = some (m, d)) ∧
    ∀ c : Int, 0 ≤ c → 8 * c + 1 < 2 ^ 31 → ∃ m d, depairDataHandleType c = some (m, d) ∧ 0 ≤ m ∧ 0 ≤ d ∧
      getCommandType m d = some c := by
  refine ⟨?_, ?_⟩
  · intro m d c hm hd h hc
    have hcmd := getCommandType_some hm hd h
    have hsplit : c = ((tri (m + d).toNat + d.toNat : Nat) : Int) := by omega
    have hpair := depair_tri (s := (m + d).toNat) (d := d.toNat) (by omega) (by omega)
    have hm' : ((m + d).toNat : Int) - d.toNat = m := by omega
    have hd' : (d.toNat : Int) = d := by omega
    rw [hm', hd'] at hpair
    rw [hsplit]
    exact hpair
  · intro c hc h
    obtain ⟨s, d, hd, hsplit⟩ := exists_tri c.toNat
    have hc' : c = ((tri s + d : Nat) : Int) := by omega
    rw [hc']
    exact ⟨s - d, d, depair_tri hd (by omega), by omega, by omega, getCommandType_tri (by omega)⟩

/-- `kFindMax` of a tensor of `float64`. -/
theorem depair_command_findMax : getCommandType 5 1 = some 22 ∧ depairDataHandleType 22 = some (5, 1) :=
  ⟨rfl, depair_command.1 5 1 22 (by decide) (by decide) rfl (by decide)⟩

end Inca.L1.CommandType
