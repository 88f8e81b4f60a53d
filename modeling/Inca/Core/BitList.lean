import Mathlib.Tactic.Ring

/-!
# Numbers as lists of bits, words as a stream of bits

Bits are taken from the most significant one on: of a number (`msbBits`), and
of the words of a buffer (`bitAt`), where bit `p` is bit `p % w` of word
`p / w`.

* `ofBits_msbBits`: shifting the lowest `n` bits of `x` into `a`.
* `Spells`: from bit `p` on, the buffer holds a list of bits.
* `eliasDelta`: the Elias delta code of a positive number `x`: as many zeros
  as the length of `x` has bits after its leading one, this length, and the
  bits of `x` after its leading one (`eliasDelta_eq`).
-/
namespace Inca.BitList

/-! ## Numbers -/

/-- The `n` lowest bits of `x`. -/
def msbBits : Nat → Nat → List Bool
  | 0, _ => []
  | n + 1, x => x.testBit n :: msbBits n x

@[simp] theorem msbBits_length (n x : Nat) : (msbBits n x).length = n := by
  induction n with
  | zero => rfl
  | succ n ih => rw [msbBits, List.length_cons, ih]

theorem msbBits_zero (n : Nat) : msbBits n 0 = List.replicate n false := by
  induction n with
  | zero => rfl
  | succ n ih => rw [msbBits, ih, Nat.zero_testBit, List.replicate_succ]

/-- `a` with the bits `bs` shifted in. -/
def ofBits (a : Nat) (bs : List Bool) : Nat := bs.foldl (fun a b => 2 * a + b.toNat) a

theorem ofBits_msbBits (a n x : Nat) : ofBits a (msbBits n x) = a * 2 ^ n + x % 2 ^ n := by
  induction n generalizing a with
  | zero => simp [ofBits, msbBits, Nat.mod_one]
  | succ n ih =>
    show ofBits (2 * a + (x.testBit n).toNat) (msbBits n x) = _
    rw [ih, Nat.mod_pow_succ, Nat.toNat_testBit, pow_succ]
    ring

/-- The bits after the leading one give the number back. -/
theorem ofBits_log2 {x : Nat} (hx : x ≠ 0) : ofBits 1 (msbBits x.log2 x) = x := by
  have hle := Nat.log2_self_le hx
  have hlt := Nat.lt_log2_self (n := x)
  rw [ofBits_msbBits, Nat.mod_eq_sub_mod hle, Nat.mod_eq_of_lt (by rw [pow_succ] at hlt; omega)]
  omega

/-! ## Words -/

section Words
variable {w : Nat}

/-- `a <<= 1; a |= x`. -/
def shiftIn (a : BitVec w) (x : Bool) : BitVec w := a <<< 1 ||| BitVec.setWidth w (BitVec.ofBool x)

theorem shiftIn_zero (hw : 0 < w) (a : BitVec w) (x : Bool) : (shiftIn a x).getLsbD 0 = x := by
  simp [shiftIn, hw]

theorem shiftIn_succ (a : BitVec w) (x : Bool) {i : Nat} (hi : i + 1 < w) :
    (shiftIn a x).getLsbD (i + 1) = a.getLsbD i := by
  simp [shiftIn, hi, BitVec.getLsbD_eq_getElem (show i < w by omega)]

/-- After `n` rounds the bits `0 .. n` are in, the last one lowest. -/
theorem getLsbD_foldl_shiftIn (f : Nat → Bool) {n j : Nat} (hn : n < w) (hj : j ≤ n) :
    ((List.range n).foldl (fun x j => shiftIn x (f (j + 1)))
      (BitVec.setWidth w (BitVec.ofBool (f 0)))).getLsbD (n - j) = f j := by
  induction n generalizing j with
  | zero =>
    obtain rfl := Nat.le_zero.mp hj
    simp [hn]
  | succ n ih =>
    rw [List.range_succ, List.foldl_append, List.foldl_cons, List.foldl_nil]
    rcases Nat.le_succ_iff.mp hj with hle | rfl
    · rw [show n + 1 - j = n - j + 1 by omega, shiftIn_succ _ _ (by omega)]
      exact ih (by omega) hle
    · rw [Nat.sub_self, shiftIn_zero (by omega)]

variable {d : Nat → BitVec w} {p : Nat} {b : Bool} {bs cs : List Bool}

def bitAt (d : Nat → BitVec w) (p : Nat) : Bool := (d (p / w)).getMsbD (p % w)

/-- From bit `p` on, the words `d` hold `bs`. -/
def Spells (d : Nat → BitVec w) (p : Nat) (bs : List Bool) : Prop :=
  ∀ i b, bs[i]? = some b → bitAt d (p + i) = b

theorem spells_nil : Spells d p [] := fun _ _ h => by cases h

theorem spells_cons : Spells d p (b :: bs) ↔ bitAt d p = b ∧ Spells d (p + 1) bs := by
  constructor
  · intro h
    refine ⟨h 0 b rfl, fun i c hc => ?_⟩
    have := h (i + 1) c hc
    rwa [Nat.add_comm i 1, ← Nat.add_assoc] at this
  · rintro ⟨h0, h⟩ i c hc
    cases i with
    | zero => cases hc; exact h0
    | succ i =>
      have := h i c hc
      rwa [Nat.add_assoc, Nat.add_comm 1 i] at this

theorem spells_append : Spells d p (bs ++ cs) ↔ Spells d p bs ∧ Spells d (p + bs.length) cs := by
  induction bs generalizing p with
  | nil => simp [spells_nil]
  | cons b bs ih =>
    rw [List.cons_append, spells_cons, spells_cons, ih, List.length_cons, and_assoc,
      Nat.add_assoc p 1, Nat.add_comm 1]

end Words

/-! ## Elias delta -/

def eliasDelta (x : Nat) : List Bool :=
  let len := 1 + x.log2
  List.replicate len.log2 false ++ msbBits (len.log2 + 1) len ++ msbBits (len - 1) x

theorem eliasDelta_eq (x : Nat) : eliasDelta x =
    List.replicate (1 + x.log2).log2 false ++
      (true :: (msbBits (1 + x.log2).log2 (1 + x.log2) ++ msbBits x.log2 x)) := by
  have htop : (1 + x.log2).testBit (1 + x.log2).log2 = true := Nat.testBit_log2 (by omega)
  simp [eliasDelta, msbBits, htop]

end Inca.BitList
