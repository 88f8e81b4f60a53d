import Inca.L2Machine.SlotSim

/-!
# Byte lanes: four gradient bytes in one 32-bit word

A packet carries 8-bit gradients, four to a word. The software parameter
server adds the words read little-endian, the switch adds them read
big-endian, as signed saturating integers behind the guard
`value[30:0] != 0x7fffffff`. When no lane sum exceeds 255 no lane carries
into the next, and the wrapping sum of the words is the word of the lane
sums in either byte order.

* `server_lanes`: the server's reply always carries the lane sums.
* `foldl_alu_iff`: a register ends with the sum of its words if and only if
  no addition `Crosses` the sign bit. After one that does, the register is
  stuck at `0x7fffffff`.
* `lanes_iff`: so up to 256 workers both aggregators return the lane sums if
  and only if no word of the switch's registers crosses. More workers than
  the 8-bit `num_worker` can say close the round several times.
* `lanes_counterexample`: two packets with leading bytes 64 and 64.
-/
namespace Inca.L2.Lanes
open Inca.L1.DpdkPkt Inca.L1.P4 Inca.L2.AggSlot Inca.L2.ParameterServer Inca.L2.Switch

/-! ## The register ALU on sums that fit a word -/

/-- Adding the word `w` to the running sum `x` makes a non-negative register overflow, or
meets the guard with a negative word. -/
def Crosses (x w : Nat) : Prop :=
  (x < 2 ^ 31 ∧ w < 2 ^ 31 ∧ 2 ^ 31 ≤ x + w) ∨ (x = 2 ^ 31 - 1 ∧ w = 2 ^ 31)

instance (x w : Nat) : Decidable (Crosses x w) := inferInstanceAs (Decidable (_ ∨ _))

theorem alu_of_crosses {x w : Word} (hs : x.toNat + w.toNat < 2 ^ 32)
    (h : Crosses x.toNat w.toNat) : noequ0WriteReadDataEntry x w = 0x7fffffff#32 := by
  unfold noequ0WriteReadDataEntry
  split
  · rename_i hg
    rw [ne_eq, guard_iff] at hg
    rcases h with ⟨h1, h2, h3⟩ | ⟨h1, h2⟩
    · unfold satAdd
      rw [if_pos]
      · decide
      · rw [BitVec.toInt_eq_toNat_cond, BitVec.toInt_eq_toNat_cond]; simp; omega
    · omega
  · rename_i hg
    rw [ne_eq, not_not, guard_iff] at hg
    apply BitVec.eq_of_toNat_eq
    rcases h with ⟨h1, -, -⟩ | ⟨h1, -⟩ <;> simp <;> omega

theorem alu_of_not_crosses {x w : Word} (hs : x.toNat + w.toNat < 2 ^ 32)
    (h : ¬ Crosses x.toNat w.toNat) : (noequ0WriteReadDataEntry x w).toNat = x.toNat + w.toNat := by
  unfold Crosses at h
  unfold noequ0WriteReadDataEntry
  split
  · unfold satAdd
    rw [BitVec.toInt_eq_toNat_cond, BitVec.toInt_eq_toNat_cond, if_neg (by simp; omega),
      if_neg (by simp; omega), BitVec.toNat_add]
    exact Nat.mod_eq_of_lt hs
  · rename_i hg
    rw [ne_eq, not_not, guard_iff] at hg
    omega

theorem alu_stuck (ws : List Word) :
    ws.foldl noequ0WriteReadDataEntry 0x7fffffff#32 = 0x7fffffff#32 := by
  induction ws with
  | nil => rfl
  | cons w ws ih => exact ih

/-- A register holds the sum of its words if and only if no addition crosses. -/
theorem foldl_alu_iff (ws : List Word) : ∀ x : Word, x.toNat + (ws.map BitVec.toNat).sum < 2 ^ 32 →
    ((ws.foldl noequ0WriteReadDataEntry x).toNat = x.toNat + (ws.map BitVec.toNat).sum ↔
      ∀ xs w ys, ws = xs ++ w :: ys → ¬ Crosses (x.toNat + (xs.map BitVec.toNat).sum) w.toNat) := by
  induction ws with
  | nil => intro x _; simp
  | cons w ws ih =>
    intro x hs
    simp only [List.map_cons, List.sum_cons, List.foldl_cons] at hs ⊢
    by_cases hc : Crosses x.toNat w.toNat
    · -- the register is stuck below the sum
      rw [alu_of_crosses (by omega) hc, alu_stuck]
      have h31 : 2 ^ 31 ≤ x.toNat + w.toNat := by unfold Crosses at hc; omega
      constructor
      · intro he; simp at he; omega
      · intro h; exact absurd hc (by simpa using h [] w ws rfl)
    · have ha := alu_of_not_crosses (by omega) hc
      have hi := ih (noequ0WriteReadDataEntry x w) (by omega)
      rw [ha] at hi
      rw [← Nat.add_assoc, hi]
      constructor
      · intro h xs v ys he
        cases xs with
        | nil => simp only [List.nil_append, List.cons.injEq] at he; simpa [← he.1] using hc
        | cons u xs =>
          simp only [List.cons_append, List.cons.injEq] at he
          simpa [← he.1, Nat.add_assoc] using h xs v ys he.2
      · intro h xs v ys he
        simpa [Nat.add_assoc] using h (w :: xs) v ys (by rw [he]; rfl)

/-- The same for a register's whole round, the first word overwriting. -/
theorem foldWords_alu_iff (ws : List Word) (hne : ws ≠ []) (hs : (ws.map BitVec.toNat).sum < 2 ^ 32) :
    ((Slot.foldWords noequ0WriteReadDataEntry ws).toNat = (ws.map BitVec.toNat).sum ↔
      ∀ xs w ys, ws = xs ++ w :: ys → xs ≠ [] → ¬ Crosses (xs.map BitVec.toNat).sum w.toNat) := by
  cases ws with
  | nil => exact absurd rfl hne
  | cons x ws =>
    simp only [List.map_cons, List.sum_cons] at hs ⊢
    refine (foldl_alu_iff ws x hs).trans ⟨fun h xs w ys he hx => ?_, fun h xs w ys he => ?_⟩
    · cases xs with
      | nil => exact absurd rfl hx
      | cons u xs =>
        simp only [List.cons_append, List.cons.injEq] at he
        simpa [← he.1] using h xs w ys he.2
    · simpa using h (x :: xs) w ys (by rw [he]; rfl) (by simp)

/-- Wrapping addition keeps the sum modulo the word. -/
theorem foldWords_add_mod (ws : List Word) :
    (Slot.foldWords (· + ·) ws).toNat = (ws.map BitVec.toNat).sum % 2 ^ 32 := by
  have h : ∀ (ws : List Word) (x : Word),
      (ws.foldl (· + ·) x).toNat = (x.toNat + (ws.map BitVec.toNat).sum) % 2 ^ 32 := by
    intro ws
    induction ws with
    | nil => intro x; simpa using (Nat.mod_eq_of_lt x.isLt).symm
    | cons w ws ih =>
      intro x
      rw [List.foldl_cons, ih, BitVec.toNat_add, List.map_cons, List.sum_cons, Nat.mod_add_mod,
        Nat.add_assoc]
  cases ws with
  | nil => rfl
  | cons w ws => simpa [Slot.foldWords] using h ws w

theorem foldWords_add_toNat (ws : List Word) (hs : (ws.map BitVec.toNat).sum < 2 ^ 32) :
    (Slot.foldWords (· + ·) ws).toNat = (ws.map BitVec.toNat).sum := by
  rw [foldWords_add_mod, Nat.mod_eq_of_lt hs]

/-! ## Lanes and words -/

/-- Sum of byte `j` over the workers' vectors. -/
def laneSum (vs : List (Nat → Byte)) (j : Nat) : Nat := (vs.map fun v => (v j).toNat).sum

theorem sum_leWord (vs : List (Nat → Byte)) (i : Nat) :
    (vs.map fun v => (leWord v i).toNat).sum = laneSum vs (4 * i) + 2 ^ 8 * laneSum vs (4 * i + 1) +
      2 ^ 16 * laneSum vs (4 * i + 2) + 2 ^ 24 * laneSum vs (4 * i + 3) := by
  induction vs with
  | nil => rfl
  | cons v vs ih =>
    simp only [laneSum, List.map_cons, List.sum_cons, leWord_toNat] at ih ⊢; omega

theorem sum_beWord (vs : List (Nat → Byte)) (i : Nat) :
    (vs.map fun v => (beWord v i).toNat).sum = laneSum vs (4 * i + 3) +
      2 ^ 8 * laneSum vs (4 * i + 2) + 2 ^ 16 * laneSum vs (4 * i + 1) + 2 ^ 24 * laneSum vs (4 * i) := by
  induction vs with
  | nil => rfl
  | cons v vs ih =>
    simp only [laneSum, List.map_cons, List.sum_cons, beWord_toNat] at ih ⊢; omega

/-- No lane carries: the sum of the words fits a word, in either byte order. -/
theorem sum_words_lt {vs : List (Nat → Byte)} {m i : Nat} (hL : ∀ j < m * 4, laneSum vs j ≤ 255)
    (hi : i < m) : (vs.map fun v => (leWord v i).toNat).sum < 2 ^ 32 ∧
      (vs.map fun v => (beWord v i).toNat).sum < 2 ^ 32 := by
  have h0 := hL (4 * i) (by omega); have h1 := hL (4 * i + 1) (by omega)
  have h2 := hL (4 * i + 2) (by omega); have h3 := hL (4 * i + 3) (by omega)
  rw [sum_leWord, sum_beWord]; omega

/-- The first `len` bytes of a word array are the lanes `L`, if the words are. A lane behind them
may overflow: it carries upwards. -/
theorem leByte_low {f : Nat → Word} {L : Nat → Nat} {len : Nat}
    (h : ∀ i, 4 * i < len → (f i).toNat = (L (4 * i) + 2 ^ 8 * L (4 * i + 1) +
      2 ^ 16 * L (4 * i + 2) + 2 ^ 24 * L (4 * i + 3)) % 2 ^ 32)
    (hL : ∀ j < len, L j ≤ 255) : ∀ j < len, (leByte f j).toNat = L j := by
  intro j hj
  obtain ⟨i, k, hk, rfl⟩ : ∃ i k, k < 4 ∧ j = 4 * i + k := ⟨j / 4, j % 4, by omega, by omega⟩
  have hw := h i (by omega)
  have hlow : ∀ k' ≤ k, L (4 * i + k') ≤ 255 := fun k' hk' => hL _ (by omega)
  rw [leByte, show (4 * i + k) / 4 = i by omega, show (4 * i + k) % 4 = k by omega,
    BitVec.extractLsb'_toNat, Nat.shiftRight_eq_div_pow, hw]
  have h0 := hlow 0 (by omega)
  rw [Nat.add_zero] at h0
  obtain rfl | rfl | rfl | rfl : k = 0 ∨ k = 1 ∨ k = 2 ∨ k = 3 := by omega
  · simp only [Nat.add_zero]; omega
  · have h1 := hlow 1 (by omega); omega
  · have h1 := hlow 1 (by omega); have h2 := hlow 2 (by omega); omega
  · have h1 := hlow 1 (by omega); have h2 := hlow 2 (by omega); have h3 := hlow 3 (by omega); omega

/-- The bytes of an array of `m` words are the lanes `L` if the words are. -/
theorem leByte_lanes {f : Nat → Word} {L : Nat → Nat} {m : Nat}
    (h : ∀ i < m, (f i).toNat =
      L (4 * i) + 2 ^ 8 * L (4 * i + 1) + 2 ^ 16 * L (4 * i + 2) + 2 ^ 24 * L (4 * i + 3))
    (hL : ∀ j < m * 4, L j ≤ 255) : ∀ j < m * 4, (leByte f j).toNat = L j := by
  refine leByte_low (fun i hi => ?_) hL
  rw [← h i (by omega), Nat.mod_eq_of_lt (f i).isLt]

theorem beByte_lanes_iff {f : Nat → Word} {L : Nat → Nat} {m : Nat} (hL : ∀ j < m * 4, L j ≤ 255) :
    (∀ j < m * 4, (beByte f j).toNat = L j) ↔ ∀ i < m, (f i).toNat =
      L (4 * i + 3) + 2 ^ 8 * L (4 * i + 2) + 2 ^ 16 * L (4 * i + 1) + 2 ^ 24 * L (4 * i) := by
  have hb : ∀ i k, k < 4 →
      (beByte f (4 * i + k)).toNat = (f i).toNat / 2 ^ (8 * (3 - k)) % 2 ^ 8 := by
    intro i k hk
    rw [beByte, show (4 * i + k) / 4 = i by omega, show (4 * i + k) % 4 = k by omega,
      BitVec.extractLsb'_toNat, Nat.shiftRight_eq_div_pow]
  constructor
  · intro h i hi
    have hf := (f i).isLt
    have h0 := h (4 * i + 0) (by omega); have h1 := h (4 * i + 1) (by omega)
    have h2 := h (4 * i + 2) (by omega); have h3 := h (4 * i + 3) (by omega)
    rw [hb i _ (by omega)] at h0 h1 h2 h3
    simp only [Nat.add_zero] at h0
    omega
  · intro h j hj
    obtain ⟨i, k, hk, rfl⟩ : ∃ i k, k < 4 ∧ j = 4 * i + k := ⟨j / 4, j % 4, by omega, by omega⟩
    have h0 := hL (4 * i) (by omega); have h1 := hL (4 * i + 1) (by omega)
    have h2 := hL (4 * i + 2) (by omega); have h3 := hL (4 * i + 3) (by omega)
    rw [hb i k hk, h i (by omega)]
    obtain rfl | rfl | rfl | rfl : k = 0 ∨ k = 1 ∨ k = 2 ∨ k = 3 := by omega
    · simp only [Nat.add_zero]; omega
    all_goals omega

/-! ## One round on both aggregators -/

/-- The same gradient vector, sent to slot `a` of the server and to index `b` of the switch
in round `r` of `nw` workers. -/
structure GradPair (r : BitVec 32) (nw : BitVec 8) (a b : BitVec 16) (f : Frame) (q : SwPkt) :
    Prop where
  accepted : accepts f
  cmd : f.msg.cmd = TENSOR_COMM
  agtr : f.msg.p4mlHdrs.agtr = a
  roundNum : f.msg.p4mlHdrs.roundNum = r
  numWorker : f.msg.p4mlHdrs.numWorker = nw
  index : q.agtr = b
  swRoundNum : q.p4ml.roundNum = r
  swNumWorker : q.p4ml.numWorker = nw
  packetType : q.p4ml.packetType = 0#1
  entries : q.entries = (List.range ENTRY_NUM).map (beWord f.msg.p4mlHdrs.vector)

def vectors (xs : List (Frame × SwPkt)) : List (Nat → Byte) := xs.map fun x => x.1.msg.p4mlHdrs.vector

section Round
variable {r : BitVec 32} {nw : BitVec 8} {a b : BitVec 16} {xs : List (Frame × SwPkt)}
  {x : Frame × SwPkt} (h : ∀ y ∈ xs ++ [x], GradPair r nw a b y.1 y.2)
  {m : Nat} (hm : nw = BitVec.ofNat 8 m) (h256 : m ≤ 256)
include h hm

theorem server_roundOf : ∀ p ∈ (xs ++ [x]).map fun y => ParameterServer.pkt y.1.msg, Slot.RoundOf r m p := by
  intro p hp
  obtain ⟨y, hy, rfl⟩ := List.mem_map.mp hp
  exact ⟨(h y hy).roundNum, (h y hy).numWorker.trans hm, by simp [ParameterServer.pkt, (h y hy).cmd]⟩

theorem switch_roundOf : ∀ p ∈ (xs ++ [x]).map fun y => Switch.pkt y.2.p4ml y.2.entries, Slot.RoundOf r m p := by
  intro p hp
  obtain ⟨y, hy, rfl⟩ := List.mem_map.mp hp
  exact ⟨(h y hy).swRoundNum, (h y hy).swNumWorker.trans hm, by simp [Switch.pkt, (h y hy).packetType]⟩

omit hm in
theorem server_slot (n : Nat) (st : Ps) {ys : List (Frame × SwPkt)} (hys : ∀ y ∈ ys, y ∈ xs ++ [x]) :
    (serve n st (ys.map Prod.fst)).slot a = (st.slot a).run MAX_ENTRIES_PER_PACKET (· + ·)
      (ys.map fun y => ParameterServer.pkt y.1.msg) := by
  rw [serve_slot n st (a := a), List.map_map]
  · rfl
  · intro f hf
    obtain ⟨y, hy, rfl⟩ := List.mem_map.mp hf
    exact ⟨(h y (hys y hy)).accepted, (h y (hys y hy)).agtr⟩

omit hm in
theorem switch_slot (tbl : Tables) (regs : Regs) {ys : List (Frame × SwPkt)}
    (hys : ∀ y ∈ ys, y ∈ xs ++ [x]) :
    (feed tbl regs (ys.map Prod.snd)).slot b = (regs.slot b).run ENTRY_NUM noequ0WriteReadDataEntry
      (ys.map fun y => Switch.pkt y.2.p4ml y.2.entries) := by
  rw [feed_slot tbl regs (a := b), List.map_map]
  · rfl
  · intro q hq
    obtain ⟨y, hy, rfl⟩ := List.mem_map.mp hq
    exact ⟨(h y (hys y hy)).index, by simp [(h y (hys y hy)).entries]⟩

include h256

/-- After any number of closed rounds both slots begin again. -/
theorem begins_again (hpos : 0 < m) (tbl : Tables) (n : Nat) {st : Ps} {regs : Regs} (hst : (st.slot a).Begins r m)
    (hrg : (regs.slot b).Begins r m) {ys : List (Frame × SwPkt)} (hys : ∀ y ∈ ys, y ∈ xs ++ [x]) (hd : m ∣ ys.length) :
    ((serve n st (ys.map Prod.fst)).slot a).Begins r m ∧ ((feed tbl regs (ys.map Prod.snd)).slot b).Begins r m := by
  obtain ⟨k, hk⟩ := hd
  rw [server_slot h n st hys, switch_slot h tbl regs hys]
  refine ⟨hst.run_rounds _ _ hpos h256 k _ (fun p hp => ?_) (by rw [List.length_map, hk, Nat.mul_comm]),
    hrg.run_rounds _ _ hpos h256 k _ (fun p hp => ?_) (by rw [List.length_map, hk, Nat.mul_comm])⟩
  · obtain ⟨y, hy, rfl⟩ := List.mem_map.mp hp
    exact server_roundOf h hm _ (List.mem_map_of_mem (hys y hy))
  · obtain ⟨y, hy, rfl⟩ := List.mem_map.mp hp
    exact switch_roundOf h hm _ (List.mem_map_of_mem (hys y hy))

/-- The server answers the last of `m` packets, and none before. -/
theorem server_completes (n : Nat) {st : Ps} (hst : (st.slot a).Begins r m) (hlt : xs.length < m) :
    ((serve n st (xs.map Prod.fst)).slot a).Completes (ParameterServer.pkt x.1.msg) ↔ xs.length + 1 = m := by
  have hr := server_roundOf h hm
  rw [server_slot h n st fun y hy => by simp [hy],
    Slot.run_round_completes _ _ hst _ _
      (fun p hp => hr p (by rw [List.map_append]; exact List.mem_append_left _ hp))
      (hr _ (by simp)) rfl (by simpa using hlt) h256, List.length_map]

/-- The server's words at the end of the round. -/
theorem server_words (n : Nat) {st : Ps} (hst : (st.slot a).Begins r m) (hlt : xs.length < m) {i : Nat}
    (hi : i < MAX_ENTRIES_PER_PACKET) :
    (serve n st ((xs ++ [x]).map Prod.fst)).dataSlots i a =
      Slot.foldWords (· + ·) ((vectors (xs ++ [x])).map (leWord · i)) := by
  refine (congrArg (Slot.data · i) (server_slot h n st fun y hy => hy)).trans ?_
  rw [Slot.run_round_data _ _ hst _ (by simp) (server_roundOf h hm) (by simpa [Nat.succ_le_iff] using hlt) h256 hi]
  simp [vectors, List.map_map, Function.comp_def, ParameterServer.pkt]

/-- The server's reply to the last packet of the round carries the lane sums. -/
theorem server_lanes (n : Nat) {st : Ps} (hst : (st.slot a).Begins r m) (hlen : xs.length + 1 = m)
    (hL : ∀ j < DPDK_ELEMENT_NUM, laneSum (vectors (xs ++ [x])) j ≤ 255) :
    ∃ reply, (rxThread n (serve n st (xs.map Prod.fst)) x.1).2 = some reply ∧
      ∀ j < DPDK_ELEMENT_NUM,
        (reply.msg.p4mlHdrs.vector j).toNat = laneSum (vectors (xs ++ [x])) j := by
  have hx := h x (by simp)
  obtain rfl := hx.agtr
  have hc := (server_completes h hm h256 n hst (by omega)).mpr hlen
  have hw := fun i hi => server_words h hm h256 n hst (by omega) (i := i) hi
  simp only [List.map_append, List.map_cons, List.map_nil, serve_append,
    rxThread_eq n _ hx.accepted] at hw ⊢
  rw [handle_reply, if_pos hc]
  refine ⟨_, rfl, ?_⟩
  refine leByte_lanes (fun i hi => ?_) hL
  rw [← sum_leWord, hw i hi, foldWords_add_toNat] <;> rw [List.map_map, Function.comp_def]
  exact (sum_words_lt hL hi).1

/-- The words the last packet of the round leaves the switch with. -/
theorem switch_words (tbl : Tables) {regs : Regs} (hrg : (regs.slot b).Begins r m) (hlt : xs.length < m) {i : Nat}
    (hi : i < ENTRY_NUM) :
    (x.2.pass tbl (feed tbl regs (xs.map Prod.snd))).entries.getD i 0 =
      Slot.foldWords noequ0WriteReadDataEntry ((vectors (xs ++ [x])).map (beWord · i)) := by
  have hx := h x (by simp)
  have hr := switch_roundOf h hm
  have hle : (feed tbl regs (xs.map Prod.snd)).roundNumbers x.2.agtr ≤ x.2.p4ml.roundNum := by
    rw [hx.index, hx.swRoundNum]
    have hs : (feed tbl regs (xs.map Prod.snd)).roundNumbers b = _ :=
      congrArg Slot.roundNum (switch_slot h tbl regs fun y hy => by simp [hy])
    rw [hs]
    refine Slot.run_roundNum_le _ _ (hrg.elim BitVec.le_of_lt fun he => he.1 ▸ BitVec.le_refl _) _ fun p hp => ?_
    rw [(hr p (by rw [List.map_append]; exact List.mem_append_left _ hp)).roundNum]
    exact BitVec.le_refl _
  rw [pass_entries tbl _ x.2 hle (by simp [hx.entries]) hx.packetType hi, ← feed_append,
    ← List.map_singleton, ← List.map_append, hx.index]
  refine (congrArg (Slot.data · i) (switch_slot h tbl regs fun y hy => hy)).trans ?_
  rw [Slot.run_round_data _ _ hrg _ (by simp) hr (by simpa [Nat.succ_le_iff] using hlt) h256 hi]
  simp only [vectors, List.map_map]
  refine congrArg _ (List.map_congr_left fun y hy => ?_)
  simp [Switch.pkt, (h y hy).entries, show i < ENTRY_NUM from hi]

end Round

/-! ## Main result -/

/-- At no word position of the switch's 64 does a worker after the first cross. -/
def NoCrossing (vs : List (Nat → Byte)) : Prop :=
  ∀ i < ENTRY_NUM, ∀ us v ws, vs = us ++ v :: ws → us ≠ [] →
    ¬ Crosses (us.map fun u => (beWord u i).toNat).sum (beWord v i).toNat

theorem switch_word_iff (vs : List (Nat → Byte)) (hne : vs ≠ [])
    (hL : ∀ j < ENTRY_NUM * 4, laneSum vs j ≤ 255) {i : Nat} (hi : i < ENTRY_NUM) :
    (Slot.foldWords noequ0WriteReadDataEntry (vs.map (beWord · i))).toNat =
        (vs.map fun v => (beWord v i).toNat).sum ↔
      ∀ us v ws, vs = us ++ v :: ws → us ≠ [] →
        ¬ Crosses (us.map fun u => (beWord u i).toNat).sum (beWord v i).toNat := by
  have hw := foldWords_alu_iff (vs.map (beWord · i)) (by simpa using hne) (by
    rw [List.map_map, Function.comp_def]; exact (sum_words_lt hL hi).2)
  rw [List.map_map, Function.comp_def] at hw
  refine hw.trans ⟨fun h us v ws he hu => ?_, fun h xs w ys he hx => ?_⟩
  · have := h (us.map (beWord · i)) (beWord v i) (ws.map (beWord · i)) (by rw [he]; simp)
      (by simpa using hu)
    rwa [List.map_map, Function.comp_def] at this
  · obtain ⟨us, vs', rfl, rfl, he2⟩ := List.map_eq_append_iff.mp he
    obtain ⟨v, ws, rfl, rfl, rfl⟩ := List.map_eq_cons_iff.mp he2
    rw [List.map_map, Function.comp_def]
    exact h us v ws rfl (by rintro rfl; exact hx rfl)

/-- What leaves the switch has the lane sums if no word position crosses. -/
theorem beByte_iff_noCrossing (vs : List (Nat → Byte)) (hne : vs ≠ []) (hL : ∀ j < ENTRY_NUM * 4, laneSum vs j ≤ 255)
    {f : Nat → Word} (hf : ∀ i < ENTRY_NUM, f i = Slot.foldWords noequ0WriteReadDataEntry (vs.map (beWord · i))) :
    (∀ j < ENTRY_NUM * 4, (beByte f j).toNat = laneSum vs j) ↔ NoCrossing vs := by
  refine (beByte_lanes_iff hL).trans (forall_congr' fun i => forall_congr' fun hi => ?_)
  rw [hf i hi, ← sum_beWord]
  exact switch_word_iff vs hne hL hi

/-- The number of packets after which the 8-bit count is `(uint8_t)n`, and the round is closed. -/
def period (n : Nat) : Nat := (n - 1) % 256 + 1

theorem period_spec {n : Nat} (hn : 0 < n) : period n ≤ 256 ∧ BitVec.ofNat 8 n = BitVec.ofNat 8 (period n) := by
  refine ⟨by unfold period; omega, BitVec.eq_of_toNat_eq ?_⟩
  simp only [BitVec.toNat_ofNat, period]
  omega

/-- The last packet closes a round, the rounds closed before it brought nothing, and at none of the
switch's word positions does the last one cross. With up to 256 packets there is only one round. -/
structure Carries (vs : List (Nat → Byte)) : Prop where
  closed : period vs.length ∣ vs.length
  before : ∀ j < DPDK_ELEMENT_NUM, laneSum (vs.take (vs.length - period vs.length)) j = 0
  noCrossing : NoCrossing (vs.drop (vs.length - period vs.length))

theorem carries_iff_of_le {vs : List (Nat → Byte)} (hne : vs ≠ []) (h256 : vs.length ≤ 256) :
    Carries vs ↔ NoCrossing vs := by
  have hpos := List.length_pos_of_ne_nil hne
  have hp : period vs.length = vs.length := by unfold period; omega
  refine ⟨fun h => by simpa [hp] using h.noCrossing, fun h => ⟨by rw [hp], fun j _ => ?_, by simpa [hp] using h⟩⟩
  rw [hp, Nat.sub_self, List.take_zero]
  rfl

theorem laneSum_append (us vs : List (Nat → Byte)) (j : Nat) :
    laneSum (us ++ vs) j = laneSum us j + laneSum vs j := by
  simp [laneSum]

/-- **Lanes.** For `n` packets of one fresh round (`num_worker` is `(uint8_t)n`) whose lane sums fit
a byte, the server's reply and the bytes the switch sends out are both the lane sums if and only
if the round `Carries`. -/
theorem lanes_iff (tbl : Tables) (n : Nat) (st : Ps) (regs : Regs) {r : BitVec 32} {nw : BitVec 8}
    {a b : BitVec 16} (xs : List (Frame × SwPkt)) (x : Frame × SwPkt)
    (h : ∀ y ∈ xs ++ [x], GradPair r nw a b y.1 y.2)
    (hn : nw = BitVec.ofNat 8 (xs ++ [x]).length)
    (hst : (st.slot a).Begins r (xs ++ [x]).length) (hrg : (regs.slot b).Begins r (xs ++ [x]).length)
    (hL : ∀ j < DPDK_ELEMENT_NUM, laneSum (vectors (xs ++ [x])) j ≤ 255) :
    ((∃ reply, (rxThread n (serve n st (xs.map Prod.fst)) x.1).2 = some reply ∧
        ∀ j < DPDK_ELEMENT_NUM,
          (reply.msg.p4mlHdrs.vector j).toNat = laneSum (vectors (xs ++ [x])) j) ∧
      ∀ j < ENTRY_NUM * 4,
        (beByte (fun i => (x.2.pass tbl (feed tbl regs (xs.map Prod.snd))).entries.getD i 0) j).toNat =
          laneSum (vectors (xs ++ [x])) j) ↔
    Carries (vectors (xs ++ [x])) := by
  obtain ⟨h256, h8⟩ := period_spec (n := (xs ++ [x]).length) (by simp)
  obtain ⟨m, hm⟩ : ∃ m, m = period (xs ++ [x]).length := ⟨_, rfl⟩
  have hpos : 0 < m := by rw [hm]; exact Nat.succ_pos _
  unfold Slot.Begins at hst hrg
  rw [h8, ← hm] at hn hst hrg
  rw [← hm] at h256
  have hlenv : (vectors (xs ++ [x])).length = (xs ++ [x]).length := by simp [vectors]
  -- the packets of closed rounds, and those of the round that `x` is in
  obtain ⟨pre, ys, rfl, hpre, hys⟩ : ∃ pre ys, xs = pre ++ ys ∧ m ∣ pre.length ∧ ys.length < m := by
    have hmod := Nat.mod_lt xs.length hpos
    have hle := Nat.mod_le xs.length m
    refine ⟨_, _, (List.take_append_drop (xs.length - xs.length % m) xs).symm, ?_, by rw [List.length_drop]; omega⟩
    rw [List.length_take, Nat.min_eq_left (by omega)]
    exact Nat.dvd_sub_mod _
  have hlen : (pre ++ ys ++ [x]).length = pre.length + (ys.length + 1) := by simp
  obtain ⟨hst, hrg⟩ := begins_again h hn h256 hpos tbl n hst hrg
    (show ∀ y ∈ pre, y ∈ pre ++ ys ++ [x] from fun y hy => by simp [hy]) hpre
  have hlast : ∀ y ∈ ys ++ [x], GradPair r nw a b y.1 y.2 := fun y hy => h y (by simp_all)
  rw [List.map_append, List.map_append, serve, List.foldl_append, ← serve, ← serve, feed, List.foldl_append, ← feed,
    ← feed]
  by_cases hd : ys.length + 1 = m
  · have hv : vectors (pre ++ ys ++ [x]) = vectors pre ++ vectors (ys ++ [x]) := by simp [vectors]
    have hk : (vectors (pre ++ ys ++ [x])).length - period (vectors (pre ++ ys ++ [x])).length = (vectors pre).length := by
      rw [hlenv, ← hm, hlen]; simp [vectors]; omega
    have hsplit : ∀ j, laneSum (vectors (pre ++ ys ++ [x])) j =
        laneSum (vectors pre) j + laneSum (vectors (ys ++ [x])) j := fun j => by rw [hv, laneSum_append]
    have hL' : ∀ j < DPDK_ELEMENT_NUM, laneSum (vectors (ys ++ [x])) j ≤ 255 := fun j hj => by
      have := hL j hj; rw [hsplit] at this; omega
    have hL64 : ∀ j < ENTRY_NUM * 4, laneSum (vectors (ys ++ [x])) j ≤ 255 :=
      fun j hj => hL' j (Nat.lt_of_lt_of_le hj (by decide))
    obtain ⟨reply, hreply, hlanes⟩ := server_lanes hlast hn h256 n hst hd hL'
    have hsw := beByte_iff_noCrossing (vectors (ys ++ [x])) (by simp [vectors]) hL64
      fun i hi => switch_words hlast hn h256 tbl hrg hys hi
    constructor
    · rintro ⟨⟨reply', hr', hl'⟩, hb⟩
      obtain rfl := Option.some.inj (hreply.symm.trans hr')
      have hzero : ∀ j < DPDK_ELEMENT_NUM, laneSum (vectors pre) j = 0 := fun j hj => by
        have := hl' j hj; rw [hsplit, hlanes j hj] at this; omega
      refine ⟨?_, by rw [hk, hv, List.take_left']; exact hzero; rfl, ?_⟩
      · rw [hlenv, ← hm, hlen, hd]; exact Nat.dvd_add hpre (Nat.dvd_refl m)
      · rw [hk, hv, List.drop_left' rfl, ← hsw]
        intro j hj
        rw [hb j hj, hsplit, hzero j (Nat.lt_of_lt_of_le hj (by decide)), Nat.zero_add]
    · rintro ⟨-, hzero, hcross⟩
      rw [hk, hv, List.take_left' rfl] at hzero
      rw [hk, hv, List.drop_left' rfl] at hcross
      refine ⟨⟨reply, hreply, fun j hj => ?_⟩, fun j hj => ?_⟩
      · rw [hlanes j hj, hsplit, hzero j hj, Nat.zero_add]
      · rw [hsw.mpr hcross j hj, hsplit, hzero j (Nat.lt_of_lt_of_le hj (by decide)), Nat.zero_add]
  · -- the round of `x` is still open: no reply
    have hx := hlast x (by simp)
    have hnc := mt (server_completes hlast hn h256 n hst hys).mp hd
    refine iff_of_false ?_ fun hc => ?_
    · rintro ⟨⟨reply, hreply, -⟩, -⟩
      rw [← hx.agtr] at hnc
      rw [rxThread_eq n _ hx.accepted, handle_reply, if_neg hnc] at hreply
      cases hreply
    · have hdvd := hc.closed
      rw [hlenv, ← hm, hlen] at hdvd
      have := Nat.le_of_dvd (by omega) ((Nat.dvd_add_right hpre).mp hdvd)
      omega

/-- A worker's gradient vector, as each aggregator gets it. -/
def gradPacket (r : BitVec 32) (nw : BitVec 8) (a b : BitVec 16) (v : Nat → Byte) : Frame × SwPkt :=
  (⟨0x0c00, ⟨⟨1, nw, r, 0, 0, 0, 0, a, v⟩, 0, TENSOR_COMM, 1024, false⟩⟩,
   ⟨0, ⟨1, nw, r, 0, 0, 0, 0, 0, 3, 0, 0, 0, 0⟩, (List.range ENTRY_NUM).map (beWord v), b⟩)

theorem gradPacket_pair (r : BitVec 32) (nw : BitVec 8) (a b : BitVec 16) (v : Nat → Byte) :
    GradPair r nw a b (gradPacket r nw a b v).1 (gradPacket r nw a b v).2 :=
  ⟨⟨rfl, .inl rfl, rfl⟩, rfl, rfl, rfl, rfl, rfl, rfl, rfl, rfl, rfl⟩

def noTables : Tables := ⟨fun _ => none, fun _ => none, fun _ => none⟩

/-- All bytes 1 plus all bytes 2 is all bytes 3 on both aggregators, in round 0. -/
theorem lanes_iff_small :
    let x := gradPacket 0 2 0 0 fun _ => 1
    let y := gradPacket 0 2 0 0 fun _ => 2
    NoCrossing (vectors [x, y]) ∧
    ∀ j < ENTRY_NUM * 4,
      (beByte (fun i => (y.2.pass noTables (feed noTables Regs.init [x.2])).entries.getD i 0) j).toNat =
        laneSum (vectors [x, y]) j := by
  intro x y
  have hnc : NoCrossing (vectors [x, y]) := by
    intro i _ us v ws he hu
    obtain ⟨u, us, rfl⟩ := List.exists_cons_of_ne_nil hu
    simp only [vectors, List.map_cons, List.map_nil, List.cons_append, List.cons.injEq] at he
    obtain ⟨rfl, he⟩ := he
    cases us with
    | nil =>
      simp only [List.nil_append, List.cons.injEq] at he
      obtain ⟨rfl, -⟩ := he
      -- neither word depends on its position
      exact (by decide : ¬ Crosses ((beWord (fun _ => 1) 0).toNat + 0) (beWord (fun _ => 2) 0).toNat)
    | cons u' us => simp at he
  have hp : ∀ z ∈ [x] ++ [y], GradPair 0 2 0 0 z.1 z.2 := by
    intro z hz
    simp only [List.cons_append, List.nil_append, List.mem_cons, List.not_mem_nil, or_false] at hz
    rcases hz with rfl | rfl <;> exact gradPacket_pair ..
  have hL : ∀ j < DPDK_ELEMENT_NUM, laneSum (vectors [x, y]) j ≤ 255 := fun j _ =>
    (by decide : (1#8).toNat + ((2#8).toNat + 0) ≤ 255)
  -- round 0 of slots that were never used
  exact ⟨hnc, ((lanes_iff noTables 2 Ps.init Regs.init [x] y hp rfl (.inr ⟨rfl, .inl rfl⟩) (.inr ⟨rfl, .inl rfl⟩) hL).mpr
    ((carries_iff_of_le (by simp [vectors]) (by decide)).mpr hnc)).2⟩

/-- Two workers with leading bytes 64 and 64: the lane sum is 128, the server's reply says 128,
the switch saturates and sends 127. -/
theorem lanes_counterexample :
    let x := gradPacket 1 2 0 0 fun j => if j = 0 then 64 else 0
    GradPair 1 2 0 0 x.1 x.2 ∧
    (∀ j < DPDK_ELEMENT_NUM, laneSum (vectors [x, x]) j ≤ 255) ∧
    laneSum (vectors [x, x]) 0 = 128 ∧
    (beByte (fun i => (x.2.pass noTables (feed noTables Regs.init [x.2])).entries.getD i 0) 0).toNat =
      127 := by
  intro x
  have hx : GradPair 1 2 0 0 x.1 x.2 := gradPacket_pair ..
  have hxs : ∀ y ∈ [x] ++ [x], GradPair 1 2 0 0 y.1 y.2 := by simpa using hx
  have hw := switch_words hxs (m := 2) rfl (by decide) noTables
    (show (Regs.init.slot 0).Begins 1 2 from .inl (by decide)) (by decide) (i := 0) (by decide)
  refine ⟨hx, fun j _ => ?_, rfl, ?_⟩
  · show (if j = 0 then 64 else 0 : Byte).toNat + ((if j = 0 then 64 else 0 : Byte).toNat + 0) ≤ 255
    split <;> decide
  · simp only [List.map_cons, List.map_nil] at hw
    simp only [beByte, Nat.zero_div, hw]
    decide

end Inca.L2.Lanes
