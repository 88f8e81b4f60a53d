import Mathlib.Data.BitVec
import Mathlib.Algebra.BigOperators.Group.List.Basic

/-!
# Bytes, big-endian fields, and words made of four byte lanes

A packet on the wire is a `List Byte`. `putBE` / `getBE` write and read one
unsigned field of a whole number of bytes, most significant byte first;
`putWords` / `getWords` do the same for a run of 32-bit words.

An array in memory is a function `Nat → Byte`. `leWord` and `beWord` read
the `i`-th 32-bit word of it in the two byte orders, `leByte` and `beByte`
take one byte of a word array back out. Lemma `leWord_toNat` (and its
big-endian twin) turns a word into the weighted sum of its four lanes, so
that additions of packed lanes become linear arithmetic.
-/
namespace Inca

abbrev Byte := BitVec 8
abbrev Word := BitVec 32

/-! ## Big-endian fields -/

/-- The number that big-endian bytes spell. -/
def beNat : List Byte → Nat
  | [] => 0
  | b :: bs => b.toNat * 256 ^ bs.length + beNat bs

/-- The low `n` bytes of `v`, most significant first. -/
def beBytes : Nat → Nat → List Byte
  | 0, _ => []
  | n + 1, v => BitVec.ofNat 8 (v / 256 ^ n) :: beBytes n v

@[simp] theorem beBytes_length (n v : Nat) : (beBytes n v).length = n := by
  induction n with
  | zero => rfl
  | succ n ih => simp [beBytes, ih]

theorem beNat_beBytes (n v : Nat) : beNat (beBytes n v) = v % 256 ^ n := by
  induction n with
  | zero => simp [beBytes, beNat, Nat.mod_one]
  | succ n ih =>
    simp only [beBytes, beNat, beBytes_length, ih, BitVec.toNat_ofNat, Nat.reducePow]
    rw [pow_succ, Nat.mod_mul, Nat.mul_comm, Nat.add_comm]

/-- Write one field of `w` bits (a whole number of bytes). -/
def putBE (w : Nat) (x : BitVec w) : List Byte := beBytes (w / 8) x.toNat

/-- Read one field of `w` bits; `none` when the packet is too short. -/
def getBE (w : Nat) (bs : List Byte) : Option (BitVec w × List Byte) :=
  if w / 8 ≤ bs.length then some (BitVec.ofNat w (beNat (bs.take (w / 8))), bs.drop (w / 8))
  else none

@[simp] theorem putBE_length (w : Nat) (x : BitVec w) : (putBE w x).length = w / 8 :=
  beBytes_length _ _

theorem pow_div8 {w : Nat} (hw : 8 ∣ w) : 256 ^ (w / 8) = 2 ^ w := by
  obtain ⟨n, rfl⟩ := hw
  rw [Nat.mul_div_cancel_left n (by decide), pow_mul]; rfl

theorem getBE_putBE {w : Nat} (hw : 8 ∣ w) (x : BitVec w) (r : List Byte) :
    getBE w (putBE w x ++ r) = some (x, r) := by
  have ht : (putBE w x ++ r).take (w / 8) = putBE w x := List.take_left' (putBE_length w x)
  have hd : (putBE w x ++ r).drop (w / 8) = r := List.drop_left' (putBE_length w x)
  have hv : beNat (putBE w x) = x.toNat := by
    rw [putBE, beNat_beBytes, pow_div8 hw, Nat.mod_eq_of_lt x.isLt]
  rw [getBE, if_pos (by simp), ht, hd, hv, BitVec.ofNat_toNat, BitVec.setWidth_eq]

/-- A reader that begins with the field just written. -/
theorem getBE_putBE_bind {α : Type} {w : Nat} (hw : 8 ∣ w) (x : BitVec w) (r : List Byte)
    (f : BitVec w × List Byte → Option α) : (getBE w (putBE w x ++ r) >>= f) = f (x, r) := by
  rw [getBE_putBE hw, Option.bind_eq_bind, Option.bind_some]

theorem beNat_lt (bs : List Byte) : beNat bs < 256 ^ bs.length := by
  induction bs with
  | nil => simp [beNat]
  | cons b bs ih =>
    have hb := b.isLt
    calc beNat (b :: bs) < b.toNat * 256 ^ bs.length + 256 ^ bs.length := by simp only [beNat]; omega
      _ = (b.toNat + 1) * 256 ^ bs.length := by rw [Nat.add_mul, Nat.one_mul]
      _ ≤ 256 * 256 ^ bs.length := Nat.mul_le_mul_right _ (by omega)
      _ = 256 ^ (b :: bs).length := by rw [List.length_cons, pow_succ, Nat.mul_comm]

/-- The low bytes of a number do not see what stands above them. -/
theorem beBytes_add_mul (n c v : Nat) : beBytes n (c * 256 ^ n + v) = beBytes n v := by
  induction n generalizing c with
  | zero => rfl
  | succ n ih =>
    have hp : 0 < 256 ^ n := Nat.pow_pos (by decide)
    have hc : c * 256 ^ (n + 1) = c * 256 * 256 ^ n := by
      rw [pow_succ, Nat.mul_assoc, Nat.mul_comm 256]
    simp only [beBytes]
    rw [hc, ih, Nat.add_comm, Nat.add_mul_div_right _ _ hp]
    congr 1
    apply BitVec.eq_of_toNat_eq
    simp only [BitVec.toNat_ofNat]
    omega

theorem beBytes_beNat (bs : List Byte) : beBytes bs.length (beNat bs) = bs := by
  induction bs with
  | nil => rfl
  | cons b bs ih =>
    have hp : 0 < 256 ^ bs.length := Nat.pow_pos (by decide)
    simp only [List.length_cons, beBytes, beNat]
    rw [beBytes_add_mul, ih, Nat.add_comm, Nat.add_mul_div_right _ _ hp,
      Nat.div_eq_of_lt (beNat_lt bs), Nat.zero_add, BitVec.ofNat_toNat, BitVec.setWidth_eq]

/-- Writing a field that was read gives the bytes back. -/
theorem putBE_of_getBE {w : Nat} (hw : 8 ∣ w) {b r : List Byte} {x : BitVec w}
    (h : getBE w b = some (x, r)) : putBE w x ++ r = b := by
  unfold getBE at h
  split at h
  · next hl =>
    obtain ⟨rfl, rfl⟩ := Prod.mk.inj (Option.some.inj h)
    have ht : (b.take (w / 8)).length = w / 8 := by simp [hl]
    have hn := beNat_lt (b.take (w / 8))
    rw [ht, pow_div8 hw] at hn
    rw [putBE, BitVec.toNat_ofNat, Nat.mod_eq_of_lt hn]
    nth_rewrite 1 [← ht]
    rw [beBytes_beNat, List.take_append_drop]
  · cases h

/-- A reader that succeeds and begins with a field: the bytes begin with that field. -/
theorem of_getBE_bind {α : Type} {w : Nat} (hw : 8 ∣ w) {b : List Byte} {c : α}
    {f : BitVec w × List Byte → Option α} (h : (getBE w b >>= f) = some c) :
    ∃ x r, b = putBE w x ++ r ∧ f (x, r) = some c := by
  obtain ⟨⟨x, r⟩, hx, hf⟩ := Option.bind_eq_some_iff.mp h
  exact ⟨x, r, (putBE_of_getBE hw hx).symm, hf⟩

/-- A run of 32-bit words, each big-endian. -/
def putWords (ws : List Word) : List Byte := ws.flatMap (putBE 32)

@[simp] theorem putWords_length (ws : List Word) : (putWords ws).length = 4 * ws.length := by
  simp [putWords, Nat.mul_comm]

def getWords : Nat → List Byte → Option (List Word × List Byte)
  | 0, bs => some ([], bs)
  | n + 1, bs =>
    match getBE 32 bs with
    | none => none
    | some (x, r) => (getWords n r).map fun (xs, r') => (x :: xs, r')

theorem getWords_putWords (ws : List Word) (r : List Byte) :
    getWords ws.length (putWords ws ++ r) = some (ws, r) := by
  induction ws with
  | nil => rfl
  | cons x xs ih =>
    have hx : putWords (x :: xs) ++ r = putBE 32 x ++ (putWords xs ++ r) := by
      simp [putWords, List.append_assoc]
    simp only [List.length_cons, getWords]
    rw [hx, getBE_putBE (by decide)]
    simp [ih]

theorem putWords_of_getWords {n : Nat} {b r : List Byte} {ws : List Word}
    (h : getWords n b = some (ws, r)) : putWords ws ++ r = b := by
  induction n generalizing b ws with
  | zero =>
    obtain ⟨rfl, rfl⟩ := Prod.mk.inj (Option.some.inj h)
    rfl
  | succ n ih =>
    simp only [getWords] at h
    split at h
    · cases h
    · next x r' hx =>
      obtain ⟨⟨xs, r''⟩, hxs, he⟩ := Option.map_eq_some_iff.mp h
      obtain ⟨rfl, rfl⟩ := Prod.mk.inj he
      have hrest := ih hxs
      rw [← putBE_of_getBE (by decide) hx, ← hrest]
      simp [putWords, List.append_assoc]

/-! ## Words over a byte array -/

/-- Word `i` of a byte array on a little-endian host. -/
def leWord (b : Nat → Byte) (i : Nat) : Word := b (4 * i + 3) ++ b (4 * i + 2) ++ b (4 * i + 1) ++ b (4 * i)

/-- Word `i` of a byte array in network order. -/
def beWord (b : Nat → Byte) (i : Nat) : Word := b (4 * i) ++ b (4 * i + 1) ++ b (4 * i + 2) ++ b (4 * i + 3)

/-- Byte `j` of a word array on a little-endian host. -/
def leByte (f : Nat → Word) (j : Nat) : Byte := (f (j / 4)).extractLsb' (8 * (j % 4)) 8

/-- Byte `j` of a word array in network order. -/
def beByte (f : Nat → Word) (j : Nat) : Byte := (f (j / 4)).extractLsb' (8 * (3 - j % 4)) 8

theorem append_toNat {v w : Nat} (x : BitVec v) (y : BitVec w) :
    (x ++ y).toNat = x.toNat * 2 ^ w + y.toNat := by
  rw [BitVec.toNat_append, Nat.shiftLeft_eq, Nat.mul_comm, Nat.two_pow_add_eq_or_of_lt y.isLt]

theorem leWord_toNat (b : Nat → Byte) (i : Nat) :
    (leWord b i).toNat = (b (4 * i)).toNat + 2 ^ 8 * (b (4 * i + 1)).toNat +
      2 ^ 16 * (b (4 * i + 2)).toNat + 2 ^ 24 * (b (4 * i + 3)).toNat := by
  simp only [leWord, append_toNat]; omega

theorem beWord_toNat (b : Nat → Byte) (i : Nat) :
    (beWord b i).toNat = (b (4 * i + 3)).toNat + 2 ^ 8 * (b (4 * i + 2)).toNat +
      2 ^ 16 * (b (4 * i + 1)).toNat + 2 ^ 24 * (b (4 * i)).toNat := by
  simp only [beWord, append_toNat]; omega

/-- Reading the bytes of a little-endian word array as words gives it back. -/
theorem leWord_leByte (f : Nat → Word) (i : Nat) : leWord (leByte f) i = f i := by
  apply BitVec.eq_of_toNat_eq
  have hd : ∀ k, k < 4 → (4 * i + k) / 4 = i ∧ (4 * i + k) % 4 = k := by omega
  have hf := (f i).isLt
  rw [leWord_toNat]
  simp only [leByte, BitVec.extractLsb'_toNat, Nat.shiftRight_eq_div_pow, (hd 1 (by omega)).1,
    (hd 1 (by omega)).2, (hd 2 (by omega)).1, (hd 2 (by omega)).2, (hd 3 (by omega)).1,
    (hd 3 (by omega)).2, show 4 * i / 4 = i by omega, show 4 * i % 4 = 0 by omega]
  omega

theorem leByte_leWord (b : Nat → Byte) (j : Nat) : leByte (leWord b) j = b j := by
  obtain ⟨i, k, hk, rfl⟩ : ∃ i k, k < 4 ∧ j = 4 * i + k := ⟨j / 4, j % 4, by omega, by omega⟩
  apply BitVec.eq_of_toNat_eq
  have h0 := (b (4 * i)).isLt; have h1 := (b (4 * i + 1)).isLt
  have h2 := (b (4 * i + 2)).isLt; have h3 := (b (4 * i + 3)).isLt
  rw [leByte, show (4 * i + k) / 4 = i by omega, show (4 * i + k) % 4 = k by omega,
    BitVec.extractLsb'_toNat, Nat.shiftRight_eq_div_pow, leWord_toNat]
  obtain rfl | rfl | rfl | rfl : k = 0 ∨ k = 1 ∨ k = 2 ∨ k = 3 := by omega
  · simp only [Nat.add_zero]; omega
  all_goals omega

end Inca
