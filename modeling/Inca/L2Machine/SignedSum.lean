import Inca.L2Machine.Lanes

/-!
# Signed sums in a switch register (`P4/data.p4`)

A register takes the first value of a round as it is and adds the later
ones with `noequ0_write_read_data_entry`: a signed saturating addition
behind a guard that looks at the low 31 bits. The guard is meant for the
saturated value `0x7fffffff`, but `0xffffffff`, the number `-1`, has the
same low bits. A register whose sum passes through `-1` keeps that value
for the rest of the round.

* `register_sum_iff`: with all partial sums inside the range, the value
  written back into the last packet is the exact sum if and only if no
  partial sum before the last is `-1`, or the sum itself is `-1`.
* `register_sum_counterexample`: `-1` and `1`.
-/
namespace Inca.L2.SignedSum
open Inca.L1.P4 Inca.L2.AggSlot Inca.L2.Switch Inca.L2.Lanes

/-! ## The register addition -/

/-- Strictly between the two ends of the 32-bit range. -/
def Inside (z : Int) : Prop := -2 ^ 31 < z ∧ z < 2 ^ 31 - 1

instance (z : Int) : Decidable (Inside z) := inferInstanceAs (Decidable (_ ∧ _))

/-- The sum of the first `k` values. -/
def partialSum (zs : List Int) (k : Nat) : Int := (zs.take k).sum

@[simp] theorem partialSum_zero (zs : List Int) : partialSum zs 0 = 0 := by simp [partialSum]

@[simp] theorem partialSum_cons_succ (z : Int) (zs : List Int) (k : Nat) :
    partialSum (z :: zs) (k + 1) = z + partialSum zs k := by simp [partialSum]

/-- `-1` stops the register. -/
theorem foldl_minus_one (ws : List Word) : ws.foldl noequ0WriteReadDataEntry (-1#32) = -1#32 := by
  induction ws with
  | nil => rfl
  | cons w ws ih =>
    have hw : noequ0WriteReadDataEntry (-1#32) w = -1#32 := if_neg (by decide)
    rw [List.foldl_cons, hw, ih]

theorem toInt_eq_minus_one {x : Word} (h : x.toInt = -1) : x = -1#32 :=
  BitVec.eq_of_toInt_eq (h.trans (by decide))

/-- Off `-1` the register adds exactly, as long as the sum stays inside the range. -/
theorem toInt_next {x w : Word} (hx : Inside x.toInt) (h1 : x.toInt ≠ -1)
    (hs : Inside (x.toInt + w.toInt)) : (noequ0WriteReadDataEntry x w).toInt = x.toInt + w.toInt := by
  obtain ⟨hlo, hhi⟩ := hs
  rw [toInt_noequ0WriteReadDataEntry]
  refine addEntry_of_range (by have := hx.2; omega) h1 ⟨?_, ?_⟩ <;> omega

theorem foldl_register_iff (ws : List Word) (x : Word)
    (hs : ∀ k ≤ ws.length, Inside (x.toInt + partialSum (ws.map BitVec.toInt) k)) :
    (ws.foldl noequ0WriteReadDataEntry x).toInt = x.toInt + (ws.map BitVec.toInt).sum ↔
      ∀ k < ws.length, x.toInt + partialSum (ws.map BitVec.toInt) k = -1 →
        x.toInt + (ws.map BitVec.toInt).sum = -1 := by
  induction ws generalizing x with
  | nil => simp
  | cons w ws ih =>
    rw [List.foldl_cons, List.map_cons, List.sum_cons]
    by_cases h1 : x.toInt = -1
    · -- stuck: what comes out is -1
      obtain rfl := toInt_eq_minus_one h1
      have hst : (ws.foldl noequ0WriteReadDataEntry (noequ0WriteReadDataEntry (-1#32) w)).toInt = -1 := by
        have := foldl_minus_one (w :: ws)
        rw [List.foldl_cons] at this
        rw [this]; decide
      rw [hst]
      constructor
      · intro h _ _ _; exact h.symm
      · intro h; exact (h 0 (by simp) (by simp)).symm
    · have hx : Inside x.toInt := by simpa using hs 0 (by simp)
      have hw : Inside (x.toInt + w.toInt) := by simpa using hs 1 (by simp)
      have hnext := toInt_next hx h1 hw
      have hrec := ih (noequ0WriteReadDataEntry x w) fun k hk => by
        simpa [hnext, Int.add_assoc] using hs (k + 1) (by simpa using hk)
      rw [hnext, Int.add_assoc] at hrec
      rw [hrec]
      constructor
      · intro h k hk hp
        cases k with
        | zero => exact absurd (by simpa using hp) h1
        | succ k =>
          exact h k (by simpa using hk) (by simpa [Int.add_assoc] using hp)
      · intro h k hk hp
        exact h (k + 1) (by simpa using hk) (by simpa [Int.add_assoc] using hp)

/-! ## One round at a register -/

/-- How the switch treats the packets `qs`, one after the other. -/
def classes (tbl : Tables) (regs : Regs) : List SwPkt → List PktClass
  | [] => []
  | q :: qs => classOf (q.pass tbl regs).mdata :: classes tbl (q.pass tbl regs).regs qs

theorem classes_append (tbl : Tables) (regs : Regs) (qs : List SwPkt) (q : SwPkt) :
    classes tbl regs (qs ++ [q]) =
      classes tbl regs qs ++ [classOf (q.pass tbl (feed tbl regs qs)).mdata] := by
  induction qs generalizing regs with
  | nil => rfl
  | cons x qs ih =>
    rw [List.cons_append, classes, ih]
    rfl

/-- The first packet of a round overwrites, all others are added. -/
def roundClasses : Nat → List PktClass
  | 0 => []
  | n + 1 => .first :: List.replicate n .later

theorem roundClasses_succ (n : Nat) :
    roundClasses (n + 1) = roundClasses n ++ [if n = 0 then .first else .later] := by
  cases n with
  | zero => rfl
  | succ n => simp [roundClasses, List.replicate_succ']

/-- Gradient packets for index `a`. -/
structure GradFor (a : BitVec 16) (q : SwPkt) : Prop where
  agtr : q.agtr = a
  length : q.entries.length = ENTRY_NUM
  packetType : q.p4ml.packetType = 0#1

/-- What the packets bring to register `i`. -/
def values (i : Nat) (qs : List SwPkt) : List Word := qs.map fun q => q.entries.getD i 0

theorem pass_class (tbl : Tables) (regs : Regs) (q : SwPkt) :
    classOf (q.pass tbl regs).mdata = (regs.slot q.agtr).classify (pkt q.p4ml q.entries) :=
  classOf_eq tbl q.dst regs q.p4ml q.entries q.agtr

/-- What a gradient packet does to register `i` depends on its class alone. -/
theorem pass_register (tbl : Tables) (regs : Regs) {a : BitVec 16} {q : SwPkt} (hq : GradFor a q)
    {i : Nat} (hi : i < ENTRY_NUM) :
    (q.pass tbl regs).regs.register i a =
      (classOf (q.pass tbl regs).mdata).apply noequ0WriteReadDataEntry (regs.register i a)
        (q.entries.getD i 0) := by
  obtain ⟨rfl, hl, hg⟩ := hq
  have hslot : (q.pass tbl regs).regs.slot q.agtr = _ := appIdSeq_slot tbl q.dst hl q.agtr
  rw [if_pos rfl] at hslot
  calc (q.pass tbl regs).regs.register i q.agtr
      = ((q.pass tbl regs).regs.slot q.agtr).data i := rfl
    _ = ((regs.slot q.agtr).step ENTRY_NUM noequ0WriteReadDataEntry (pkt q.p4ml q.entries)).data i := by
      rw [hslot]
    _ = _ := by rw [Slot.step_data _ _ (by simp [pkt, hg]) hi, pass_class]; rfl

section Round
variable (tbl : Tables) (regs : Regs) {a : BitVec 16} {i : Nat} (hi : i < ENTRY_NUM)
include hi

/-- **Run.** After the packets of one round a register holds the left fold of their values. -/
theorem feed_register {qs : List SwPkt} (hq : ∀ q ∈ qs, GradFor a q) (hne : qs ≠ [])
    (hc : classes tbl regs qs = roundClasses qs.length) :
    (feed tbl regs qs).register i a = Slot.foldWords noequ0WriteReadDataEntry (values i qs) := by
  induction qs using List.reverseRecOn with
  | nil => exact absurd rfl hne
  | append_singleton qs q ih =>
    rw [classes_append, List.length_append, List.length_singleton, roundClasses_succ] at hc
    obtain ⟨hqs, hlast⟩ := List.append_inj' hc rfl
    have hreg := pass_register tbl (feed tbl regs qs) (hq q (by simp)) hi
    rw [List.cons.inj hlast |>.1] at hreg
    rw [feed_append, hreg]
    cases qs with
    | nil => rfl
    | cons x qs =>
      rw [ih (fun y hy => hq y (List.mem_append_left _ hy)) (by simp) hqs]
      simp [PktClass.apply, values, Slot.foldWords]

/-- The last packet of a round leaves with what the register holds then. -/
theorem last_entry {qs : List SwPkt} {q : SwPkt} (hq : ∀ x ∈ qs ++ [q], GradFor a x)
    (hc : classes tbl regs (qs ++ [q]) = roundClasses (qs ++ [q]).length) :
    (q.pass tbl (feed tbl regs qs)).entries.getD i 0 =
      Slot.foldWords noequ0WriteReadDataEntry (values i (qs ++ [q])) := by
  have hreg := feed_register tbl regs hi hq (by simp) hc
  rw [classes_append, List.length_append, List.length_singleton, roundClasses_succ] at hc
  have hlast := (List.cons.inj (List.append_inj' hc rfl).2).1
  rw [pass_class] at hlast
  obtain ⟨rfl, hl, hg⟩ := hq q (by simp)
  rw [← hreg, feed_append]
  refine pass_entries tbl _ q (BitVec.not_lt.mp fun h => ?_) hl hg hi
  rw [(Slot.classify_stale_iff _ _).mpr h] at hlast
  split at hlast <;> cases hlast

/-- **Signed sum.** A round of any number of gradient packets at index `a`: the first one
overwrites, all others are added, and all partial sums of the values for register `i` are inside
the range. The value in the last packet is the exact sum if and only if the register did not
stop at `-1` on the way to another sum. -/
theorem register_sum_iff {qs : List SwPkt} {q : SwPkt} (hq : ∀ x ∈ qs ++ [q], GradFor a x)
    (hc : classes tbl regs (qs ++ [q]) = roundClasses (qs ++ [q]).length)
    (hs : ∀ k ≤ qs.length + 1, 0 < k →
      Inside (partialSum ((values i (qs ++ [q])).map BitVec.toInt) k)) :
    ((q.pass tbl (feed tbl regs qs)).entries.getD i 0).toInt =
        ((values i (qs ++ [q])).map BitVec.toInt).sum ↔
      ∀ k ≤ qs.length, 0 < k → partialSum ((values i (qs ++ [q])).map BitVec.toInt) k = -1 →
        ((values i (qs ++ [q])).map BitVec.toInt).sum = -1 := by
  rw [last_entry tbl regs hi hq hc]
  have hlen : (values i (qs ++ [q])).length = qs.length + 1 := by simp [values]
  generalize values i (qs ++ [q]) = ws at hs hlen ⊢
  cases ws with
  | nil => cases hlen
  | cons x ws =>
    rw [List.length_cons, Nat.add_right_cancel_iff] at hlen
    simp only [Slot.foldWords, List.map_cons, List.sum_cons] at hs ⊢
    rw [foldl_register_iff ws x fun k hk => by simpa using hs (k + 1) (by omega) (by omega), hlen]
    constructor
    · intro h k hk h0 hp
      obtain ⟨k, rfl⟩ : ∃ j, k = j + 1 := ⟨k - 1, by omega⟩
      exact h k (by omega) (by simpa using hp)
    · intro h k hk hp
      exact h (k + 1) (by omega) (by omega) (by simpa using hp)

end Round

/-- A packet of round 1 of two workers with 64 times the value `w`, on its last pass. -/
def constPacket (w : Word) : SwPkt where
  dst := 0
  p4ml := ⟨0, 2, 1, 0, 0, 0, 0, 0, 3, 0, 0, 0, 0⟩
  entries := List.replicate ENTRY_NUM w
  agtr := 0

theorem constPacket_grad (w : Word) : GradFor 0#16 (constPacket w) :=
  ⟨rfl, List.length_replicate, rfl⟩

/-- `1`, `2` and the sum `3`. -/
theorem register_sum_three :
    ((constPacket 2).pass noTables (feed noTables Regs.init [constPacket 1])).entries.getD 0 0 = 3 := by
  have hgrad : ∀ x ∈ [constPacket 1] ++ [constPacket 2], GradFor 0 x := by simp [constPacket_grad]
  have h := (register_sum_iff noTables Regs.init (i := 0) (by decide) hgrad (by decide +kernel) ?_).mpr ?_
  · exact BitVec.eq_of_toInt_eq (h.trans (by decide))
  · decide
  · decide

/-- **Counterexample.** Two workers send `-1` and `1`; both partial sums are inside the range, the
last packet leaves with `-1` where the sum is 0. -/
theorem register_sum_counterexample :
    (∀ x ∈ [constPacket (-1), constPacket 1], GradFor 0 x) ∧
    classes noTables Regs.init [constPacket (-1), constPacket 1] = roundClasses 2 ∧
    (values 0 [constPacket (-1), constPacket 1]).map BitVec.toInt = [-1, 1] ∧
    (∀ k ≤ 2, 0 < k → Inside (partialSum [-1, 1] k)) ∧ ([-1, 1] : List Int).sum = 0 ∧
    (((constPacket 1).pass noTables (feed noTables Regs.init [constPacket (-1)])).entries.getD 0 0).toInt =
      -1 := by
  refine ⟨by simp [constPacket_grad], ?_⟩
  decide +kernel

end Inca.L2.SignedSum
