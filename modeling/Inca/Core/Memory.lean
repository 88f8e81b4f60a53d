import Inca.Core.Bytes

/-!
# Byte memory of a little-endian host

A buffer is a function from offsets to bytes. `load w m a` is the object of
`w` bits that begins at offset `a`, and `store m a x` the buffer after such an
object was assigned.

* `load_store`, `load_store_of_disjoint`, `load_congr`.
-/
namespace Inca.Memory

variable {w v : Nat} {m m' : Nat → Byte}

/-- The number in `n` bytes. -/
def loadNat (m : Nat → Byte) : Nat → Nat → Nat
  | _, 0 => 0
  | a, n + 1 => 2 ^ 8 * loadNat m (a + 1) n + (m a).toNat

def load (w : Nat) (m : Nat → Byte) (a : Nat) : BitVec w := BitVec.ofNat w (loadNat m a (w / 8))

def store (m : Nat → Byte) (a : Nat) (x : BitVec w) (b : Nat) : Byte :=
  if a ≤ b ∧ b < a + w / 8 then x.extractLsb' (8 * (b - a)) 8 else m b

def memcpy (dst src : Nat → Byte) (size : Nat) (b : Nat) : Byte := if b < size then src b else dst b

theorem testBit_loadNat (m : Nat → Byte) (a n : Nat) {k : Nat} (hk : k < 8 * n) :
    (loadNat m a n).testBit k = (m (a + k / 8)).getLsbD (k % 8) := by
  induction n generalizing a k with
  | zero => omega
  | succ n ih =>
    rw [loadNat, Nat.testBit_two_pow_mul_add _ (m a).isLt]
    split
    · next h =>
      rw [show k / 8 = 0 by omega, show k % 8 = k by omega]
      rfl
    · next h =>
      rw [ih (a + 1) (by omega), show a + 1 + (k - 8) / 8 = a + k / 8 by omega, show (k - 8) % 8 = k % 8 by omega]

theorem getLsbD_load (hw : 8 ∣ w) (m : Nat → Byte) (a : Nat) {k : Nat} (hk : k < w) :
    (load w m a).getLsbD k = (m (a + k / 8)).getLsbD (k % 8) := by
  rw [load, BitVec.getLsbD_ofNat, decide_eq_true hk, Bool.true_and]
  exact testBit_loadNat m a (w / 8) (by omega)

theorem load_congr (hw : 8 ∣ w) {a : Nat} (h : ∀ b, a ≤ b → b < a + w / 8 → m b = m' b) : load w m a = load w m' a := by
  apply BitVec.eq_of_getLsbD_eq
  intro k hk
  rw [getLsbD_load hw m a hk, getLsbD_load hw m' a hk, h (a + k / 8) (by omega) (by omega)]

theorem load_store (hw : 8 ∣ w) (m : Nat → Byte) (a : Nat) (x : BitVec w) : load w (store m a x) a = x := by
  apply BitVec.eq_of_getLsbD_eq
  intro k hk
  rw [getLsbD_load hw _ a hk, store, if_pos (by omega), BitVec.getLsbD_extractLsb',
    decide_eq_true (Nat.mod_lt k (by decide)), Bool.true_and]
  congr 1
  omega

theorem load_store_of_disjoint (hw : 8 ∣ w) (m : Nat → Byte) {a b : Nat} (x : BitVec v)
    (h : b + w / 8 ≤ a ∨ a + v / 8 ≤ b) : load w (store m a x) b = load w m b := by
  refine load_congr hw fun c hc hc' => ?_
  exact if_neg (by omega)

theorem load_memcpy (hw : 8 ∣ w) (dst src : Nat → Byte) {size a : Nat} (h : a + w / 8 ≤ size) :
    load w (memcpy dst src size) a = load w src a := by
  refine load_congr hw fun c _ hc => ?_
  exact if_pos (by omega)

end Inca.Memory
