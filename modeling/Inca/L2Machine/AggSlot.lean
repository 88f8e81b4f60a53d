import Mathlib.Algebra.BigOperators.Group.Finset.Basic
import Mathlib.Data.Finset.Lattice.Fold
import Mathlib.Order.Lattice.Nat
import Mathlib.Order.Nat
import Inca.Core.Bytes

/-!
# The aggregation slot

What one slot of an aggregator is for, independent of who implements it.
Packets of `numWorker` workers are counted per round: an older round is
*stale* and ignored, the *first* packet of a count overwrites the slot's
data, every *later* one is combined into it, and the packet that brings the
count to `numWorker` completes the round.

The software parameter server and the switch both implement this machine:
`ParameterServer.handle_slot` and `Switch.appIdSeq_slot` say so. They differ
in `add` (wrapping or saturating), in the number `m` of words a packet
brings, and in `last` (the switch only closes a round on a packet's last
pass).

* `step_stale`: a stale packet changes nothing.
* `run_round`: from an older slot, the packets of one new round are all
  accepted; the count is their number and the data their left fold.
* `Holds`: which senders' packets of the current round are in a slot. With
  at most 256 senders the 8-bit count never loses track of them
  (`Holds.same`, `Holds.newer`).
-/
namespace Inca.L2.AggSlot

inductive PktClass
  | stale
  | first
  | later
  deriving DecidableEq, Repr

/-- What a packet of a class does to a data word. -/
def PktClass.apply (add : Word → Word → Word) (old new : Word) : PktClass → Word
  | .stale => old
  | .first => new
  | .later => add old new

@[ext] structure Slot where
  roundNum : BitVec 32
  receiveCount : BitVec 8
  bitmap : BitVec 32
  normInfo : BitVec 32
  data : Nat → Word

/-- The fields of a packet that a slot reads. -/
structure Pkt where
  roundNum : BitVec 32
  numWorker : BitVec 8
  bitmap : BitVec 32
  normInfo : BitVec 32
  /-- the packet brings gradient words -/
  grad : Bool
  /-- the packet may complete the round -/
  last : Bool
  words : Nat → Word

namespace Slot

/-- The count after an accepted packet; 8 bits, so it wraps. -/
def nextCount (s : Slot) (p : Pkt) : BitVec 8 :=
  if s.roundNum < p.roundNum ∨ s.receiveCount = p.numWorker then 1#8 else s.receiveCount + 1#8

def classify (s : Slot) (p : Pkt) : PktClass :=
  if p.roundNum < s.roundNum then .stale else if s.nextCount p = 1#8 then .first else .later

def Completes (s : Slot) (p : Pkt) : Prop :=
  s.classify p ≠ .stale ∧ p.last = true ∧ s.nextCount p = p.numWorker

instance (s : Slot) (p : Pkt) : Decidable (s.Completes p) := inferInstanceAs (Decidable (_ ∧ _))

variable (m : Nat) (add : Word → Word → Word)

/-- The data after an accepted packet whose count is `count`. -/
def combine (s : Slot) (p : Pkt) : Nat → Word := fun i =>
  if p.grad ∧ i < m then
    if s.nextCount p = 1#8 then p.words i else add (s.data i) (p.words i)
  else s.data i

def accept (s : Slot) (p : Pkt) : Slot where
  roundNum := p.roundNum
  receiveCount := s.nextCount p
  bitmap :=
    if p.last then if s.nextCount p = p.numWorker then 0#32 else s.bitmap ||| p.bitmap else s.bitmap
  normInfo := if s.roundNum < p.roundNum ∨ s.normInfo < p.normInfo then p.normInfo else s.normInfo
  data := s.combine m add p

def step (s : Slot) (p : Pkt) : Slot := if p.roundNum < s.roundNum then s else s.accept m add p

def run (s : Slot) (ps : List Pkt) : Slot := ps.foldl (step m add) s

/-! ## One packet -/

theorem classify_stale_iff (s : Slot) (p : Pkt) : s.classify p = .stale ↔ p.roundNum < s.roundNum := by
  unfold classify; split
  · simp_all
  · split <;> simp_all

theorem classify_of_le {s : Slot} {p : Pkt} (h : s.roundNum ≤ p.roundNum) :
    s.classify p = if s.nextCount p = 1#8 then .first else .later := if_neg (BitVec.not_lt.mpr h)

theorem step_stale {s : Slot} {p : Pkt} (h : s.classify p = .stale) : s.step m add p = s :=
  if_pos ((classify_stale_iff s p).mp h)

theorem combine_grad {s : Slot} {p : Pkt} (h : p.grad = true) : s.combine m add p = fun i =>
    if i < m then if s.nextCount p = 1#8 then p.words i else add (s.data i) (p.words i)
    else s.data i := by
  funext i; simp [combine, h]

theorem combine_not_grad {s : Slot} {p : Pkt} (h : p.grad = false) : s.combine m add p = s.data := by
  funext i; simp [combine, h]

theorem step_of_le {s : Slot} {p : Pkt} (h : s.roundNum ≤ p.roundNum) :
    s.step m add p = s.accept m add p := if_neg (BitVec.not_lt.mpr h)

theorem step_data {s : Slot} {p : Pkt} (hg : p.grad = true) {i : Nat} (hi : i < m) :
    (s.step m add p).data i = (s.classify p).apply add (s.data i) (p.words i) := by
  unfold step classify
  split
  · rfl
  · simp only [accept, combine_grad m add hg, hi, if_true]
    split <;> rfl

/-! ## Control part

Round, count, bitmap and norm of a slot do not depend on its data, on `add` or on `m`. -/

structure SameCtl (s t : Slot) : Prop where
  roundNum : s.roundNum = t.roundNum
  receiveCount : s.receiveCount = t.receiveCount
  bitmap : s.bitmap = t.bitmap
  normInfo : s.normInfo = t.normInfo

structure SamePkt (p q : Pkt) : Prop where
  roundNum : p.roundNum = q.roundNum
  numWorker : p.numWorker = q.numWorker
  bitmap : p.bitmap = q.bitmap
  normInfo : p.normInfo = q.normInfo
  last : p.last = q.last

section Control
variable {m add} {m' : Nat} {add' : Word → Word → Word} {s t : Slot} {p q : Pkt}
  (hs : SameCtl s t) (hp : SamePkt p q)
include hs hp

theorem SameCtl.nextCount : s.nextCount p = t.nextCount q := by
  simp only [Slot.nextCount, hs.roundNum, hs.receiveCount, hp.roundNum, hp.numWorker]

theorem SameCtl.classify : s.classify p = t.classify q := by
  simp only [Slot.classify, hs.nextCount hp, hs.roundNum, hp.roundNum]

theorem SameCtl.completes : s.Completes p ↔ t.Completes q := by
  simp only [Completes, hs.classify hp, hs.nextCount hp, hp.last, hp.numWorker]

theorem SameCtl.step : SameCtl (s.step m add p) (t.step m' add' q) := by
  unfold Slot.step
  rw [hs.roundNum, hp.roundNum]
  split
  · exact hs
  · refine ⟨hp.roundNum, hs.nextCount hp, ?_, ?_⟩ <;> simp only [accept]
    · rw [hs.nextCount hp, hs.bitmap, hp.last, hp.bitmap, hp.numWorker]
    · rw [hs.roundNum, hs.normInfo, hp.roundNum, hp.normInfo]

end Control

/-! ## The count -/

theorem ofNat8_inj {a b : Nat} (ha : 0 < a) (ha' : a ≤ 256) (hb : 0 < b) (hb' : b ≤ 256) :
    BitVec.ofNat 8 a = BitVec.ofNat 8 b ↔ a = b := by
  refine ⟨fun h => ?_, fun h => by rw [h]⟩
  have := congrArg BitVec.toNat h
  simp only [BitVec.toNat_ofNat] at this; omega

/-- The count of `c` packets becomes that of `c + 1`, as long as fewer than all `n` senders
were counted. -/
theorem nextCount_same {s : Slot} {p : Pkt} {c n : Nat} (hr : p.roundNum = s.roundNum)
    (hc : s.receiveCount = BitVec.ofNat 8 c) (hn : p.numWorker = BitVec.ofNat 8 n) (hlt : c < n)
    (h256 : n ≤ 256) : s.nextCount p = BitVec.ofNat 8 (c + 1) := by
  unfold nextCount
  rw [hr, hc, hn]
  split
  · -- `c` is 0 and `n` is 256, or the counts differ
    rename_i h
    have h := congrArg BitVec.toNat (h.resolve_left (BitVec.lt_irrefl _))
    simp only [BitVec.toNat_ofNat] at h
    obtain rfl : c = 0 := by omega
    rfl
  · rw [BitVec.ofNat_add]

section Count
variable {s : Slot} {p : Pkt} {c n : Nat} (hn : p.numWorker = BitVec.ofNat 8 n)
  (hlast : p.last = true) (h256 : n ≤ 256)
include hn hlast h256

/-- One more packet of the slot's round, of fewer than `n` so far. -/
theorem count_same (hr : p.roundNum = s.roundNum) (hc : s.receiveCount = BitVec.ofNat 8 c) (hlt : c < n) :
    (s.step m add p).receiveCount = BitVec.ofNat 8 (c + 1) ∧ (s.Completes p ↔ c + 1 = n) := by
  have hle : s.roundNum ≤ p.roundNum := by rw [hr]; exact BitVec.le_refl _
  have hcount := nextCount_same hr hc hn hlt h256
  have hns : s.classify p ≠ .stale := fun he => BitVec.not_lt.mpr hle ((classify_stale_iff s p).mp he)
  refine ⟨by rw [step_of_le m add hle]; exact hcount, ?_⟩
  rw [Completes, hcount, hn, ofNat8_inj (by omega) (by omega) (by omega) h256]
  exact ⟨fun h => h.2.2, fun h => ⟨hns, hlast, h⟩⟩

/-- The first packet of a newer round. -/
theorem count_newer (hlt : s.roundNum < p.roundNum) (hpos : 0 < n) :
    (s.step m add p).receiveCount = BitVec.ofNat 8 1 ∧ (s.Completes p ↔ 1 = n) := by
  have hcount : s.nextCount p = BitVec.ofNat 8 1 := if_pos (.inl hlt)
  have hns : s.classify p ≠ .stale := fun he => BitVec.lt_asymm hlt ((classify_stale_iff s p).mp he)
  refine ⟨by rw [step_of_le m add (BitVec.le_of_lt hlt)]; exact hcount, ?_⟩
  rw [Completes, hcount, hn, ofNat8_inj (by decide) (by decide) hpos h256]
  exact ⟨fun h => h.2.2, fun h => ⟨hns, hlast, h⟩⟩

end Count

/-! ## A whole round -/

@[simp] theorem run_append (s : Slot) (ps : List Pkt) (p : Pkt) :
    s.run m add (ps ++ [p]) = (s.run m add ps).step m add p := by simp [run]

/-- The packets of one round of `n` workers that bring gradient data. -/
structure RoundOf (r : BitVec 32) (n : Nat) (p : Pkt) : Prop where
  roundNum : p.roundNum = r
  numWorker : p.numWorker = BitVec.ofNat 8 n
  grad : p.grad = true

/-- Nothing of round `r` is in the slot: its round is older, or its count is that of a slot that
was never used or of a complete round. -/
def Begins (s : Slot) (r : BitVec 32) (n : Nat) : Prop :=
  s.roundNum < r ∨ s.roundNum = r ∧ (s.receiveCount = 0#8 ∨ s.receiveCount = BitVec.ofNat 8 n)

theorem Begins.accepts {s : Slot} {r : BitVec 32} {n : Nat} (h : s.Begins r n) {p : Pkt}
    (hp : RoundOf r n p) : s.roundNum ≤ p.roundNum ∧ s.nextCount p = 1#8 := by
  rw [nextCount, hp.roundNum, hp.numWorker]
  rcases h with h | ⟨rfl, h | h⟩
  · exact ⟨BitVec.le_of_lt h, if_pos (.inl h)⟩
  · rw [h]
    exact ⟨BitVec.le_refl _, by split <;> rfl⟩
  · exact ⟨BitVec.le_refl _, if_pos (.inr h)⟩

theorem run_round {s : Slot} {r : BitVec 32} {n : Nat} (hs : s.Begins r n) (q : Pkt)
    (ps : List Pkt) (hq : RoundOf r n q) (hp : ∀ p ∈ ps, RoundOf r n p) (hn : ps.length < n)
    (h256 : n ≤ 256) :
    (s.run m add (q :: ps)).roundNum = r ∧
    (s.run m add (q :: ps)).receiveCount = BitVec.ofNat 8 (ps.length + 1) ∧
    ∀ i < m, (s.run m add (q :: ps)).data i = (ps.map fun p => p.words i).foldl add (q.words i) := by
  induction ps using List.reverseRecOn with
  | nil =>
    obtain ⟨hle, hc⟩ := hs.accepts hq
    simp only [run, List.foldl_cons, List.foldl_nil, step_of_le m add hle, accept, hc, combine, hq.grad,
      true_and, if_true]
    exact ⟨hq.roundNum, rfl, fun i hi => by simp [hi]⟩
  | append_singleton ps p ih =>
    rw [List.length_append, List.length_singleton] at hn ⊢
    obtain ⟨h1, h2, h3⟩ := ih (fun x hx => hp x (by simp [hx])) (by omega)
    have hpr := hp p (by simp)
    rw [← List.cons_append, run_append]
    generalize s.run m add (q :: ps) = t at h1 h2 h3 ⊢
    -- not all `n` packets are counted, so the packet adds one to the count and combines its words
    have hc := nextCount_same (hpr.roundNum.trans h1.symm) h2 hpr.numWorker hn h256
    have hc1 : BitVec.ofNat 8 (ps.length + 1 + 1) ≠ 1#8 := fun h => by
      have := (ofNat8_inj (by omega) (by omega) (by decide) (by decide)).mp h; omega
    rw [step_of_le m add (by rw [h1, hpr.roundNum]; exact BitVec.le_refl _)]
    refine ⟨hpr.roundNum, by simp only [accept, hc], fun i hi => ?_⟩
    simp only [accept, combine, hpr.grad, hi, hc, hc1, and_self, if_true, if_false, h3 i hi,
      List.map_append, List.map_cons, List.map_nil, List.foldl_append, List.foldl_cons,
      List.foldl_nil]

/-- Rounds of `n` packets one after the other: the next one begins again. -/
theorem Begins.run_rounds {s : Slot} {r : BitVec 32} {n : Nat} (hs : s.Begins r n) (hn : 0 < n) (h256 : n ≤ 256)
    (k : Nat) (ps : List Pkt) (hp : ∀ p ∈ ps, RoundOf r n p) (hlen : ps.length = k * n) :
    (s.run m add ps).Begins r n := by
  induction k generalizing s ps with
  | zero =>
    rw [Nat.zero_mul, List.length_eq_zero_iff] at hlen
    subst hlen
    exact hs
  | succ k ih =>
    rw [Nat.succ_mul] at hlen
    have htake : (ps.take n).length = n := by rw [List.length_take]; omega
    have hround : (s.run m add (ps.take n)).Begins r n := by
      match hq : ps.take n with
      | [] => rw [hq, List.length_nil] at htake; omega
      | q :: qs =>
        rw [hq, List.length_cons] at htake
        have hmem : ∀ p ∈ q :: qs, RoundOf r n p := fun p h => hp p (List.mem_of_mem_take (hq ▸ h))
        obtain ⟨h1, h2, -⟩ := run_round m add hs q qs (hmem q (by simp)) (fun p h => hmem p (by simp [h]))
          (by omega) h256
        exact .inr ⟨h1, .inr (by rw [h2, htake])⟩
    rw [← List.take_append_drop n ps, run, List.foldl_append]
    exact ih hround (ps.drop n) (fun p h => hp p (List.mem_of_mem_drop h)) (by rw [List.length_drop]; omega)

theorem run_roundNum_le {s : Slot} {r : BitVec 32} (hs : s.roundNum ≤ r) (ps : List Pkt)
    (hp : ∀ p ∈ ps, p.roundNum ≤ r) : (s.run m add ps).roundNum ≤ r := by
  induction ps using List.reverseRecOn with
  | nil => exact hs
  | append_singleton ps p ih =>
    rw [run_append]
    unfold step
    split
    · exact ih fun q hq => hp q (by simp [hq])
    · exact hp p (by simp)

/-- Left fold of a non-empty list of words, the first one copied. -/
def foldWords : List Word → Word
  | [] => 0
  | w :: ws => ws.foldl add w

theorem run_round_data {s : Slot} {r : BitVec 32} {n : Nat} (hs : s.Begins r n)
    (ps : List Pkt) (hne : ps ≠ []) (hp : ∀ p ∈ ps, RoundOf r n p) (hn : ps.length ≤ n) (h256 : n ≤ 256)
    {i : Nat} (hi : i < m) :
    (s.run m add ps).data i = foldWords add (ps.map fun p => p.words i) := by
  cases ps with
  | nil => exact absurd rfl hne
  | cons q ps =>
    exact (run_round m add hs q ps (hp q (by simp)) (fun p h => hp p (by simp [h])) hn h256).2.2 i hi

/-- The `n`-th packet of a round completes it, and none before. -/
theorem run_round_completes {s : Slot} {r : BitVec 32} {n : Nat} (hs : s.Begins r n)
    (ps : List Pkt) (p : Pkt) (hps : ∀ q ∈ ps, RoundOf r n q) (hp : RoundOf r n p)
    (hlast : p.last = true) (hn : ps.length < n) (h256 : n ≤ 256) :
    (s.run m add ps).Completes p ↔ ps.length + 1 = n := by
  cases ps with
  | nil =>
    obtain ⟨hle, hc⟩ := hs.accepts hp
    have hns : s.classify p ≠ .stale := fun h => BitVec.not_lt.mpr hle ((classify_stale_iff s p).mp h)
    have hone : s.nextCount p = p.numWorker ↔ 1 = n := by
      rw [hc, hp.numWorker]; exact ofNat8_inj (by decide) (by decide) hn h256
    exact ⟨fun h => hone.mp h.2.2, fun h => ⟨hns, hlast, hone.mpr h⟩⟩
  | cons q ps =>
    rw [List.length_cons] at hn ⊢
    obtain ⟨h1, h2, -⟩ := run_round m add hs q ps (hps q (by simp)) (fun x hx => hps x (by simp [hx]))
      (by omega) h256
    exact (count_same m add hp.numWorker hlast h256 (hp.roundNum.trans h1.symm) h2 hn).2

/-! ## Who is in the sum -/

/-- The slot is in round `r` and has counted exactly one packet of each sender in `H`; if the
packets bring data, it is the sum of theirs. -/
structure Holds {V : Type} (s : Slot) (r : BitVec 32) (H : Finset V) (grad : Bool)
    (words : V → Nat → Word) : Prop where
  roundNum : s.roundNum = r
  count : s.receiveCount = BitVec.ofNat 8 H.card
  data : grad = true → H.Nonempty → ∀ i < m, s.data i = ∑ v ∈ H, words v i

/-- The packet of sender `v` for round `r` of `n` senders. -/
structure IsFrom {V : Type} (p : Pkt) (v : V) (r : BitVec 32) (n : Nat) (grad : Bool)
    (words : V → Nat → Word) : Prop where
  roundNum : p.roundNum = r
  numWorker : p.numWorker = BitVec.ofNat 8 n
  grad : p.grad = grad
  last : p.last = true
  words : p.words = words v

section Holds
variable {m} {V : Type} [DecidableEq V] {s : Slot} {p : Pkt} {v : V} {r : BitVec 32} {n : Nat}
  {grad : Bool} {words : V → Nat → Word} {H : Finset V}

theorem Holds.same (h : Holds m s r H grad words) (hp : IsFrom p v r n grad words) (hv : v ∉ H)
    (hlt : H.card < n) (h256 : n ≤ 256) :
    Holds m (s.step m (· + ·) p) r (insert v H) grad words ∧ (s.Completes p ↔ H.card + 1 = n) := by
  have hr : p.roundNum = s.roundNum := hp.roundNum.trans h.roundNum.symm
  have hle : s.roundNum ≤ p.roundNum := by rw [hr]; exact BitVec.le_refl _
  obtain ⟨hc, hcomp⟩ := count_same m (· + ·) hp.numWorker hp.last h256 hr h.count hlt
  rw [← Finset.card_insert_of_notMem hv] at hc
  refine ⟨⟨by rw [step_of_le m _ hle]; exact hp.roundNum, hc, fun hg _ i hi => ?_⟩, hcomp⟩
  rw [step_of_le m _ hle] at hc ⊢
  rw [Finset.sum_insert hv]
  replace hc : s.nextCount p = BitVec.ofNat 8 (insert v H).card := hc
  simp only [accept, combine_grad m _ (hp.grad.trans hg), if_pos hi, hc, hp.words]
  by_cases h0 : H = ∅
  · subst h0; simp
  · have h1 : 0 < H.card := Finset.card_pos.mpr (Finset.nonempty_iff_ne_empty.mpr h0)
    have hne : BitVec.ofNat 8 (insert v H).card ≠ 1#8 := fun he => by
      rw [Finset.card_insert_of_notMem hv] at he
      have := (ofNat8_inj (by omega) (by omega) (by decide) (by decide)).mp he; omega
    rw [if_neg hne, h.data hg (Finset.card_pos.mp h1) i hi, BitVec.add_comm]

omit [DecidableEq V] in
theorem Holds.newer (hs : s.roundNum < r) (hp : IsFrom p v r n grad words) (hn : 0 < n) (h256 : n ≤ 256) :
    Holds m (s.step m (· + ·) p) r {v} grad words ∧ (s.Completes p ↔ 1 = n) := by
  have hlt : s.roundNum < p.roundNum := hp.roundNum ▸ hs
  obtain ⟨hc, hcomp⟩ := count_newer m (· + ·) hp.numWorker hp.last h256 hlt hn
  rw [step_of_le m _ (BitVec.le_of_lt hlt)] at hc ⊢
  refine ⟨⟨hp.roundNum, by rw [Finset.card_singleton]; exact hc, fun hg _ i hi => ?_⟩, hcomp⟩
  replace hc : s.nextCount p = BitVec.ofNat 8 1 := hc
  simp only [accept, combine_grad m _ (hp.grad.trans hg), if_pos hi, hc, if_true, hp.words,
    Finset.sum_singleton]

/-! ## Whose norm is the largest -/

/-- The slot is in round `r`, has counted exactly one packet of each sender in `H`, and keeps the
largest of their norms. -/
structure HoldsMax (s : Slot) (r : BitVec 32) (H : Finset V) (norm : V → BitVec 32) : Prop where
  roundNum : s.roundNum = r
  count : s.receiveCount = BitVec.ofNat 8 H.card
  normInfo : s.normInfo.toNat = H.sup fun v => (norm v).toNat

/-- The norm packet of a sender for round `r` of `n` senders. -/
structure IsNorm (p : Pkt) (r : BitVec 32) (n : Nat) (norm : BitVec 32) : Prop where
  roundNum : p.roundNum = r
  numWorker : p.numWorker = BitVec.ofNat 8 n
  last : p.last = true
  normInfo : p.normInfo = norm

variable {norm : V → BitVec 32}

theorem HoldsMax.same (h : HoldsMax s r H norm) (hp : IsNorm p r n (norm v)) (hv : v ∉ H)
    (hlt : H.card < n) (h256 : n ≤ 256) (m : Nat) (add : Word → Word → Word) :
    HoldsMax (s.step m add p) r (insert v H) norm ∧ (s.Completes p ↔ H.card + 1 = n) := by
  have hr : p.roundNum = s.roundNum := hp.roundNum.trans h.roundNum.symm
  have hle : s.roundNum ≤ p.roundNum := by rw [hr]; exact BitVec.le_refl _
  obtain ⟨hc, hcomp⟩ := count_same m add hp.numWorker hp.last h256 hr h.count hlt
  rw [← Finset.card_insert_of_notMem hv] at hc
  refine ⟨⟨by rw [step_of_le m _ hle]; exact hp.roundNum, hc, ?_⟩, hcomp⟩
  rw [step_of_le m _ hle, Finset.sup_insert, ← h.normInfo]
  simp only [accept, hr, BitVec.lt_irrefl, false_or, hp.normInfo, BitVec.lt_def]
  split <;> simp only [Nat.max_def] <;> split <;> omega

variable (norm v) in
omit [DecidableEq V] in
theorem HoldsMax.newer (hs : s.roundNum < r) (hp : IsNorm p r n (norm v)) (hn : 0 < n) (h256 : n ≤ 256)
    (m : Nat) (add : Word → Word → Word) :
    HoldsMax (s.step m add p) r {v} norm ∧ (s.Completes p ↔ 1 = n) := by
  have hlt : s.roundNum < p.roundNum := hp.roundNum ▸ hs
  obtain ⟨hc, hcomp⟩ := count_newer m add hp.numWorker hp.last h256 hlt hn
  rw [step_of_le m _ (BitVec.le_of_lt hlt)] at hc ⊢
  refine ⟨⟨hp.roundNum, by rw [Finset.card_singleton]; exact hc, ?_⟩, hcomp⟩
  simp only [accept, hlt, true_or, if_true, hp.normInfo, Finset.sup_singleton]

end Holds

end Slot
end Inca.L2.AggSlot
