import Mathlib.Algebra.Order.Field.Basic
import Mathlib.Algebra.Order.Field.Rat
import Mathlib.Tactic.Linarith
import Mathlib.Tactic.NormNum
import Mathlib.Tactic.Ring

/-!
# The server of a key (`common/global.cc`)

`EncodeDefaultKey` hashes a key to one of `n` servers. In the mixed mode `w` of the
servers share a machine with a worker; `Hash_Mixed_Mode` gives the other ones a
larger part of the keys, and checks that they are not too many by a ratio. The
number of these servers is a `size_t`: with fewer servers than workers it wraps
around.

`n`, `w` and `bound` are values of type `int`; the ratio is a quotient of exact
numbers. The string that a hash function reads has already been freed
(`to_string(key).c_str()`), so `text` may be anything.

* `ratio_le_one_iff`: what the ratio stands for.
* `mixed_mode`: when the checks pass, and that a server is found then.
* `server_lt`: for every hash function, the server exists.
-/
namespace Inca.L4.MixedMode

/-! ## The code -/

inductive Fault
  | check
  | modZero
  deriving DecidableEq

/-- `a % m` in 64 bits -/
def umod (a : BitVec 64) (m : Nat) : Except Fault Nat := if m = 0 then .error .modZero else .ok (a.toNat % m)

/-- mirrors byteps/byteps/common/global.cc:785-787 -/
def hashNaive (key : BitVec 64) : BitVec 64 := ((key >>> 16) + key % 65536#64) * 9973#64

/-- mirrors byteps/byteps/common/global.cc:793-802 -/
def hashDJB2 (str : List (BitVec 8)) : BitVec 64 :=
  str.foldl (fun hash c => ((hash <<< 5) + hash) + c.signExtend 64) 5381#64

/-- mirrors byteps/byteps/common/global.cc:804-813 -/
def hashSDBM (str : List (BitVec 8)) : BitVec 64 :=
  str.foldl (fun hash c => c.signExtend 64 + (hash <<< 6) + (hash <<< 16) - hash) 0#64

/-- mirrors byteps/byteps/common/global.cc:757 -/
def numServerNoncolocate (n w : Nat) : Nat := (((n : Int) - w) % 2 ^ 64).toNat

/-- The divisor of the ratio, a `size_t`.
mirrors byteps/byteps/common/global.cc:769-770 -/
def divisor (n w : Nat) : Nat :=
  (((w * (w + numServerNoncolocate n w) : Nat) : Int) - 2 * numServerNoncolocate n w) % 2 ^ 64 |>.toNat

/-- mirrors byteps/byteps/common/global.cc:767-770 -/
def ratio (n w : Nat) : ℚ := 2 * numServerNoncolocate n w * ((w : ℚ) - 1) / divisor n w

/-- The checks of the ratio.
mirrors byteps/byteps/common/global.cc:771-774 -/
def RatioOk (n w : Nat) : Prop := ratio n w ≤ 1 ∧ 0 ≤ ratio n w

instance (n w : Nat) : Decidable (RatioOk n w) := inferInstanceAs (Decidable (_ ∧ _))

section Hash
variable (text : BitVec 64 → List (BitVec 8))

/-- mirrors byteps/byteps/common/global.cc:753-783 -/
def hashMixedMode (n w bound : Nat) (key : BitVec 64) : Except Fault Nat :=
  if ¬ n ≤ bound then .error .check
  else if ¬ RatioOk n w then .error .check
  else do
    let hashRes ← umod (hashDJB2 (text key)) bound
    if (hashRes : ℚ) < ratio n w * bound then
      umod (hashDJB2 (text (BitVec.ofNat 64 hashRes))) (numServerNoncolocate n w)
    else do
      let r ← umod (hashDJB2 (text (BitVec.ofNat 64 hashRes))) w
      return (numServerNoncolocate n w + r) % 2 ^ 64

/-- `BYTEPS_KEY_HASH_FN` -/
inductive HashKnob
  | naive
  | builtIn
  | djb2
  | sdbm
  | mixed

/-- The server for a key that has none yet; `builtIn` is `_built_in_hash_fn` with its coefficient.
mirrors byteps/byteps/common/global.cc:824-846 -/
def serverOf (builtIn : BitVec 64 → BitVec 64) (knob : HashKnob) (mixedMode : Bool) (n w bound : Nat)
    (key : BitVec 64) : Except Fault Nat :=
  if ¬ 0 < n then .error .check
  else
    match knob with
    | .naive => umod (hashNaive key) n
    | .builtIn => umod (builtIn key) n
    | .djb2 => umod (hashDJB2 (text key)) n
    | .sdbm => umod (hashSDBM (text key)) n
    | .mixed =>
      if mixedMode then do
        let server ← hashMixedMode text n w bound key
        if server < n then return server else .error .check
      else .error .check

end Hash

/-! ## The ratio -/

section Ratio
variable {n w : Nat}

theorem noncolocate_of_le (hle : w ≤ n) (hn : n < 2 ^ 31) : numServerNoncolocate n w = n - w := by
  unfold numServerNoncolocate
  omega

theorem noncolocate_of_lt (hlt : n < w) (hw : w < 2 ^ 31) : numServerNoncolocate n w = 2 ^ 64 - (w - n) := by
  unfold numServerNoncolocate
  omega

theorem mul_lt (hn : n < 2 ^ 31) (hw : w < 2 ^ 31) : w * n < 2 ^ 62 := by
  have h := Nat.mul_lt_mul'' hw hn
  norm_num at h ⊢
  exact h

theorem divisor_of_le (hw2 : 2 ≤ w) (hle : w ≤ n) (hn : n < 2 ^ 31) : divisor n w = w * n - 2 * (n - w) := by
  have hprod := mul_lt hn (show w < 2 ^ 31 by omega)
  have hdouble : 2 * n ≤ w * n := Nat.mul_le_mul_right n hw2
  have hsum : w + (n - w) = n := by omega
  unfold divisor
  rw [noncolocate_of_le hle hn, hsum]
  omega

/-- The wrapped number of servers is what the product adds up to, modulo `2 ^ 64`. -/
theorem divisor_of_lt (hlt : n < w) (hw : w < 2 ^ 31) : divisor n w = w * n + 2 * (w - n) := by
  have hprod := mul_lt (show n < 2 ^ 31 by omega) hw
  have hsum : w * (w + (2 ^ 64 - (w - n))) = w * n + w * 2 ^ 64 := by
    rw [← Nat.mul_add]
    congr 1
    omega
  unfold divisor
  rw [noncolocate_of_lt hlt hw, hsum]
  omega

/-- No more servers without a worker than workers. -/
theorem ratio_le_one_iff (hw2 : 2 ≤ w) (hle : w ≤ n) (hn : n < 2 ^ 31) : ratio n w ≤ 1 ↔ n ≤ 2 * w := by
  have hdouble : 2 * n ≤ w * n := Nat.mul_le_mul_right n hw2
  obtain ⟨d, rfl⟩ := Nat.exists_eq_add_of_le hle
  have hdiv : w * (w + d) - 2 * (w + d - w) = w * w + w * d - 2 * d := by
    rw [Nat.add_sub_cancel_left, Nat.mul_add]
  have hcast : ((w * w + w * d - 2 * d : Nat) : ℚ) = w * w + w * d - 2 * d := by
    rw [Nat.cast_sub (by rw [Nat.mul_add] at hdouble; omega)]
    push_cast
    ring
  have hw0 : (0 : ℚ) < w := by exact_mod_cast (show 0 < w by omega)
  have hpos : (0 : ℚ) < w * w + w * d - 2 * d := by
    rw [← hcast]
    rw [Nat.mul_add] at hdouble
    exact_mod_cast (show 0 < w * w + w * d - 2 * d by omega)
  rw [ratio, divisor_of_le hw2 hle hn, noncolocate_of_le hle hn, hdiv, hcast, Nat.add_sub_cancel_left,
    div_le_one hpos]
  constructor
  · intro h
    have hmul : (w : ℚ) * d ≤ w * w := by linarith
    have hd : (d : ℚ) ≤ w := le_of_mul_le_mul_left hmul hw0
    have hd' : d ≤ w := by exact_mod_cast hd
    omega
  · intro h
    have hd : (d : ℚ) ≤ w := by exact_mod_cast (show d ≤ w by omega)
    have hmul : (w : ℚ) * d ≤ w * w := mul_le_mul_of_nonneg_left hd hw0.le
    linarith

theorem one_lt_ratio (hw2 : 2 ≤ w) (hlt : n < w) (hw : w < 2 ^ 31) : 1 < ratio n w := by
  have hprod := mul_lt (show n < 2 ^ 31 by omega) hw
  have hdiv := divisor_of_lt hlt hw
  have hpos : (0 : ℚ) < divisor n w := by exact_mod_cast (show 0 < divisor n w by omega)
  have hsmall : (divisor n w : ℚ) < 2 ^ 63 := by exact_mod_cast (show divisor n w < 2 ^ 63 by omega)
  have hlarge : (2 : ℚ) ^ 63 ≤ numServerNoncolocate n w := by
    have h := noncolocate_of_lt hlt hw
    exact_mod_cast (show 2 ^ 63 ≤ numServerNoncolocate n w by omega)
  have hw1 : (1 : ℚ) ≤ (w : ℚ) - 1 := by
    have : (2 : ℚ) ≤ w := by exact_mod_cast hw2
    linarith
  rw [ratio, one_lt_div hpos]
  calc (divisor n w : ℚ) < 2 * 2 ^ 63 * 1 := by linarith
    _ ≤ 2 * numServerNoncolocate n w * ((w : ℚ) - 1) :=
      mul_le_mul (mul_le_mul_of_nonneg_left hlarge (by norm_num)) hw1 (by norm_num) (by positivity)

theorem ratio_nonneg (hw2 : 2 ≤ w) : 0 ≤ ratio n w := by
  have hw1 : (0 : ℚ) ≤ (w : ℚ) - 1 := by
    have : (2 : ℚ) ≤ w := by exact_mod_cast hw2
    linarith
  unfold ratio
  positivity

theorem ratioOk_iff (hw2 : 2 ≤ w) (hn : n < 2 ^ 31) (hw : w < 2 ^ 31) : RatioOk n w ↔ w ≤ n ∧ n ≤ 2 * w := by
  have h0 : 0 ≤ ratio n w := ratio_nonneg hw2
  unfold RatioOk
  rcases Nat.lt_or_ge n w with hlt | hle
  · have h1 := one_lt_ratio hw2 hlt hw
    constructor
    · intro h
      exact absurd h.1 (not_le.mpr h1)
    · intro h
      omega
  · rw [ratio_le_one_iff hw2 hle hn]
    exact ⟨fun h => ⟨hle, h.1⟩, fun h => ⟨h.2, h0⟩⟩

end Ratio

/-! ## The server -/

theorem umod_pos (a : BitVec 64) {m : Nat} (hm : 0 < m) : umod a m = .ok (a.toNat % m) := if_neg hm.ne'

/-- Without servers of the first kind the threshold is 0, and none is looked for. -/
theorem noncolocate_pos {n w bound hashRes : Nat} (h : (hashRes : ℚ) < ratio n w * bound) :
    0 < numServerNoncolocate n w := by
  rcases Nat.eq_zero_or_pos (numServerNoncolocate n w) with h0 | hpos
  · rw [ratio, h0, Nat.cast_zero, mul_zero, zero_mul, zero_div, zero_mul] at h
    exact absurd h (not_lt.mpr (Nat.cast_nonneg _))
  · exact hpos

theorem hashMixedMode_lt (text : BitVec 64 → List (BitVec 8)) {n w bound : Nat} (hw2 : 2 ≤ w) (hn : n < 2 ^ 31)
    (hle : w ≤ n) (hb : n ≤ bound) (hok : RatioOk n w) (key : BitVec 64) :
    ∃ server, hashMixedMode text n w bound key = .ok server ∧ server < n := by
  have hnc := noncolocate_of_le hle hn
  simp only [hashMixedMode, not_not.mpr hb, not_not.mpr hok, if_false]
  rw [umod_pos _ (show 0 < bound by omega)]
  simp only [bind, Except.bind]
  split
  · next hlt =>
    have hpos := noncolocate_pos hlt
    refine ⟨_, umod_pos _ hpos, ?_⟩
    exact (Nat.mod_lt _ hpos).trans_le (by omega)
  · rw [umod_pos _ (show 0 < w by omega)]
    refine ⟨_, rfl, ?_⟩
    have hr := Nat.mod_lt (hashDJB2 (text (BitVec.ofNat 64 ((hashDJB2 (text key)).toNat % bound)))).toNat
      (show 0 < w by omega)
    rw [hnc, Nat.mod_eq_of_lt (by omega)]
    omega

/-- **Mixed mode.** The checks of the ratio admit as many servers as workers up to twice as many. Then
every key has a server, whatever is hashed, and no remainder by zero is taken. -/
theorem mixed_mode {n w bound : Nat} (hw2 : 2 ≤ w) (hb : n ≤ bound) (hn : n < 2 ^ 31) (hw : w < 2 ^ 31) :
    (RatioOk n w ↔ w ≤ n ∧ n ≤ 2 * w) ∧ (RatioOk n w → ∀ (text : BitVec 64 → List (BitVec 8)) (key : BitVec 64),
      ∃ server, hashMixedMode text n w bound key = .ok server ∧ server < n) := by
  have hiff := ratioOk_iff hw2 hn hw
  refine ⟨hiff, ?_⟩
  intro hok text key
  exact hashMixedMode_lt text hw2 hn (hiff.mp hok).1 hb hok key

/-- Three servers, two of them with a worker. -/
theorem mixed_mode_three : RatioOk 3 2 ∧
    ∃ server, hashMixedMode (fun _ => [0x31#8]) 3 2 101 7#64 = .ok server ∧ server < 3 := by
  have h := mixed_mode (show 2 ≤ 2 by decide) (show 3 ≤ 101 by decide) (by decide) (by decide)
  have hok : RatioOk 3 2 := h.1.mpr (by decide)
  exact ⟨hok, h.2 hok _ _⟩

/-- Whatever the hash function, a server that is returned exists. -/
theorem server_lt (text : BitVec 64 → List (BitVec 8)) (builtIn : BitVec 64 → BitVec 64) {knob : HashKnob}
    {mixedMode : Bool} {n w bound server : Nat} {key : BitVec 64}
    (h : serverOf text builtIn knob mixedMode n w bound key = .ok server) : server < n := by
  unfold serverOf at h
  split at h
  · cases h
  · next hn =>
    have hpos : 0 < n := not_not.mp hn
    have hmod : ∀ a : BitVec 64, umod a n = .ok server → server < n := by
      intro a ha
      rw [umod_pos a hpos] at ha
      cases ha
      exact Nat.mod_lt _ hpos
    cases knob with
    | naive => exact hmod _ h
    | builtIn => exact hmod _ h
    | djb2 => exact hmod _ h
    | sdbm => exact hmod _ h
    | mixed =>
      simp only at h
      split at h
      · cases hmixed : hashMixedMode text n w bound key with
        | error f =>
          rw [hmixed] at h
          cases h
        | ok s =>
          rw [hmixed] at h
          simp only [bind, Except.bind] at h
          split at h
          · next hs =>
            cases h
            exact hs
          · cases h
      · cases h

end Inca.L4.MixedMode
